/-
# Port utilisation

`CapacityWorker` keeps the counters of a port in two sorted sets, one for each direction: the
member is the counter, and its score the time at which it was sampled.  `analyse` goes through a
set from the newest entry on and takes the first one of each range of minutes; `rate` makes the
utilisation of it and the newest one.

A member is in a set once, so that a counter that comes again takes the sample before away, and
the key of a port is found again by leaving out `:in` and `:out` wherever they stand.
`utilisation_iff` says when the utilisation is the one of the samples that were taken.
-/
import Ptolemy.PostRemap

namespace CapacityWorker

/-! ## Sorted sets -/

structure Sample : Type where
  time : ℤ
  counter : ℤ
  deriving DecidableEq

/-- A sorted set of counters, whose texts are its members, by their times. -/
abbrev ZSet : Type := Dict ℤ ℤ

abbrev Store : Type := Dict String ZSet

def zadd (store : Store) (k : String) (score member : ℤ) : Store :=
  store.insert k (((store.lookup k).getD ∅).insert member score)

/-- The members with their scores, from the greatest score on. -/
def zrevrange (z : ZSet) : List (ℤ × ℤ) :=
  z.items.insertionSort
    (fun p q => q.2 < p.2 ∨ p.2 = q.2 ∧ (toString q.1 : String) ≤ toString p.1)

def directions : List String := ["in", "out"]

/-- The key of the set for one direction. -/
def setKey (key d : String) : String := key ++ (":" ++ d)

def save_data (key : String) (store : Store) (time : ℤ) (data : Dict String ℤ) : Store :=
  if "octets_in" ∈ data ∧ "octets_out" ∈ data then
    directions.foldl
      (fun store d => zadd store (setKey key d) time ((data.lookup ("octets_" ++ d)).getD 0)) store
  else store

/-! ## Analysis -/

/-- `"%0.6f" % (bits/(capacity*secs))`, for a difference of counters and one of times. -/
abbrev Share : Type := ℤ → ℤ → ℚ → String

variable (share : Share)

def rate (latest oldest : Option Sample) (capacity : ℚ) : Option String :=
  match latest, oldest with
  | some latest, some oldest =>
    if capacity = 0 then none
    -- the division raises, and is caught
    else if latest.time - oldest.time = 0 then none
    else some (share (latest.counter - oldest.counter) (latest.time - oldest.time) capacity)
  | _, _ => none

/-- The minutes. -/
def ranges : List ℕ := [1, 5, 15, 30, 60]

def ago (now : ℚ) (t : ℕ) : ℚ := now - t * 60

/-- The minute before `ago`. -/
def InWindow (now : ℚ) (t : ℕ) (i : Sample) : Prop :=
  (i.time : ℚ) < ago now t ∧ ago now t - 60 < i.time

instance (now : ℚ) (t : ℕ) (i : Sample) : Decidable (InWindow now t i) :=
  inferInstanceAs (Decidable (_ ∧ _))

/-- What `analyse` has found so far: `recent`, and the samples `at` each range. -/
structure Scan : Type where
  raw : List Sample := []
  recent : Option Sample := none
  found : ℕ → Option Sample := fun _ => none

/-- One range for one sample. -/
def mark (now : ℚ) (i : Sample) (found : ℕ → Option Sample) (t : ℕ) : ℕ → Option Sample :=
  if found t = none ∧ InWindow now t i then Function.update found t (some i) else found

/-- The loop over the entries; `ok` starts as `False`, and stays so. -/
def scan (now : ℚ) : List (ℤ × ℤ) → Scan → Scan
  | [], st => st
  | x :: data, st =>
    let i : Sample := ⟨x.2, x.1⟩
    let st : Scan := ⟨st.raw ++ [i], st.recent.or (some i), ranges.foldl (mark now i) st.found⟩
    let ok := ranges.foldl (fun ok t => if (st.found t).isSome then ok && true else ok) false
    if ok then st else scan now data st

structure Score : Type where
  raw : List Sample
  rates : Dict ℕ (Option String)

def analyse (now : ℚ) (data : List (ℤ × ℤ)) (capacity : ℚ) : Score :=
  let st := scan now data {}
  ⟨st.raw, Dict.ofList (ranges.map (fun i => (i, rate share st.recent (st.found i) capacity)))⟩

/-- `key.replace(':out','').replace(':in','')`. -/
def portOf (key : String) : String := Driver.withoutText ":in" (Driver.withoutText ":out" key)

def get_utilisations (now : ℚ) (store : Store) (keys : List String) (capacities : Dict String ℚ) :
    Dict String Score :=
  keys.foldl (fun scores key => match capacities.lookup (portOf key) with
    | none => scores
    | some capacity =>
      scores.insert key (analyse share now (zrevrange ((store.lookup key).getD ∅)) capacity)) ∅

/-- The utilisation of one direction of a port over one range, if it has one. -/
def utilisation (now : ℚ) (store : Store) (keys : List String) (capacities : Dict String ℚ)
    (key : String) (r : ℕ) : Option String :=
  ((get_utilisations share now store keys capacities).lookup key).bind
    (fun score => (score.rates.lookup r).join)

/-! ## Samples -/

/-- The store after the messages of a port. -/
def saved (key : String) (store : Store) (msgs : List (ℤ × Dict String ℤ)) : Store :=
  msgs.foldl (fun store m => save_data key store m.1 m.2) store

/-- The samples of one direction. -/
def samples (d : String) (msgs : List (ℤ × Dict String ℤ)) : List Sample :=
  msgs.filterMap (fun m =>
    if "octets_in" ∈ m.2 ∧ "octets_out" ∈ m.2 then
      some ⟨m.1, (m.2.lookup ("octets_" ++ d)).getD 0⟩
    else none)

/-- The newest of the samples in the window of a range. -/
def newestIn (now : ℚ) (r : ℕ) (ss : List Sample) : Option Sample :=
  ss.reverse.find? (fun i => InWindow now r i)

/-- The samples whose counter does not come again. -/
def lasting : List Sample → List Sample
  | [] => []
  | s :: ss => if ss.any (fun s' => s'.counter = s.counter) then lasting ss else s :: lasting ss

/-- The newest sample and the one of the window give a utilisation, and so do the newest one and
what is left of the window, with the capacity that is found. -/
def Measurable (now : ℚ) (r : ℕ) (ss : List Sample) (capacity : ℚ) (known : Option ℚ) : Prop :=
  ∀ o, newestIn now r ss = some o → capacity ≠ 0 ∧ ss.getLast? ≠ some o
    ∧ ∃ l c, newestIn now r (lasting ss) = some l ∧ known = some c
      ∧ rate share ss.getLast? (some l) c = rate share ss.getLast? (some o) capacity

/-- The newest sample of the window is not the newest one of all, its counter does not come again,
and the capacity that is found is that of the port, and not 0. -/
def Intact (now : ℚ) (r : ℕ) (ss : List Sample) (capacity : ℚ) (known : Option ℚ) : Prop :=
  ∀ o, newestIn now r ss = some o →
    capacity ≠ 0 ∧ known = some capacity ∧ ss.getLast? ≠ some o ∧ o ∈ lasting ss

/-- The utilisation is the rate of the newest sample and the newest one of the window, and there is
one if the window has a sample. -/
def Utilised (now : ℚ) (r : ℕ) (ss : List Sample) (capacity : ℚ) (u : Option String) : Prop :=
  u = rate share ss.getLast? (newestIn now r ss) capacity ∧ (u = none → newestIn now r ss = none)

/-! ## What is stored -/

theorem lasting_sublist (ss : List Sample) : (lasting ss).Sublist ss := by
  induction ss with
  | nil => exact List.Sublist.refl []
  | cons s ss ih =>
    unfold lasting
    split_ifs
    · exact ih.cons s
    · exact ih.cons_cons s

/-- A counter comes once among the samples that last. -/
theorem nodup_lasting (ss : List Sample) : ((lasting ss).map Sample.counter).Nodup := by
  induction ss with
  | nil => exact List.nodup_nil
  | cons s ss ih =>
    unfold lasting
    split_ifs with hany
    · exact ih
    · rw [List.map_cons, List.nodup_cons]
      refine ⟨fun hmem => ?_, ih⟩
      obtain ⟨s', hs', heq⟩ := List.mem_map.mp hmem
      exact hany (List.any_eq_true.mpr ⟨s', (lasting_sublist ss).subset hs', decide_eq_true heq⟩)

/-- The newest sample lasts. -/
theorem getLast?_lasting (ss : List Sample) : (lasting ss).getLast? = ss.getLast? := by
  induction ss with
  | nil => rfl
  | cons s ss ih =>
    cases ss with
    | nil => rfl
    | cons s' ss =>
      unfold lasting
      split_ifs
      · rw [ih, List.getLast?_cons_cons]
      · have hne : lasting (s' :: ss) ≠ [] := by
          intro hnil
          rw [hnil] at ih
          exact absurd ih.symm (by simp)
        rw [List.getLast?_cons_cons, ← ih]
        cases hlast : lasting (s' :: ss) with
        | nil => exact absurd hlast hne
        | cons a l => rw [List.getLast?_cons_cons]

/-- Of the samples with the counter of the first one, the last one lasts. -/
theorem mem_lasting_cons {s : Sample} {ss : List Sample} {a : Sample} :
    a ∈ lasting (s :: ss) ↔ a ∈ lasting ss ∨ a = s ∧ ∀ s' ∈ ss, s'.counter ≠ s.counter := by
  rw [lasting]
  split_ifs with hany
  · obtain ⟨s', hs', heq⟩ := List.any_eq_true.mp hany
    exact ⟨Or.inl, fun h => h.resolve_right (fun h => h.2 s' hs' (of_decide_eq_true heq))⟩
  · rw [List.mem_cons, or_comm]
    refine or_congr_right (iff_self_and.mpr (fun _ s' hs' heq => ?_))
    exact hany (List.any_eq_true.mpr ⟨s', hs', decide_eq_true heq⟩)

/-- **What the set holds**: a counter has the time of the sample with it that lasts. -/
theorem lookup_foldl_insert (ss : List Sample) (z : ZSet) (c t : ℤ) :
    (ss.foldl (fun z s => z.insert s.counter s.time) z).lookup c = some t
      ↔ ⟨t, c⟩ ∈ lasting ss ∨ (∀ s ∈ ss, s.counter ≠ c) ∧ z.lookup c = some t := by
  induction ss generalizing z with
  | nil => simp [lasting]
  | cons s ss ih =>
    rw [List.foldl_cons, ih, Dict.lookup_insert_eq, List.forall_mem_cons, mem_lasting_cons, or_assoc]
    refine or_congr_right ?_
    by_cases hc : c = s.counter
    · subst hc
      rw [if_pos rfl, Option.some.injEq, Sample.mk.injEq]
      constructor
      · rintro ⟨hnew, rfl⟩
        exact Or.inl ⟨⟨rfl, rfl⟩, hnew⟩
      · rintro (⟨⟨rfl, -⟩, hnew⟩ | ⟨⟨hne, -⟩, -⟩)
        · exact ⟨hnew, rfl⟩
        · exact absurd rfl hne
    · rw [if_neg hc, Sample.mk.injEq]
      constructor
      · rintro ⟨hnew, hz⟩
        exact Or.inr ⟨⟨fun heq => hc heq.symm, hnew⟩, hz⟩
      · rintro (⟨heq, -⟩ | ⟨⟨-, hnew⟩, hz⟩)
        · exact absurd heq.2 hc
        · exact ⟨hnew, hz⟩

/-- A set that was empty. -/
theorem lookup_set (ss : List Sample) (c t : ℤ) :
    (ss.foldl (fun z s => z.insert s.counter s.time) (∅ : ZSet)).lookup c = some t
      ↔ ⟨t, c⟩ ∈ lasting ss := by
  rw [lookup_foldl_insert, AList.lookup_empty]
  exact or_iff_left (fun h => nomatch h.2)

theorem setKey_injective (key : String) : Function.Injective (setKey key) := by
  intro d d' h
  have hlist := congrArg String.toList h
  unfold setKey at hlist
  simp only [String.toList_append] at hlist
  exact String.toList_inj.mp (List.append_cancel_left (List.append_cancel_left hlist))

/-- **Step lemma**: a message adds its sample to the set of each direction. -/
theorem lookup_save_data {d : String} (hd : d ∈ directions) (key : String) (store : Store)
    (time : ℤ) (data : Dict String ℤ) :
    ((save_data key store time data).lookup (setKey key d)).getD ∅
      = (samples d [(time, data)]).foldl (fun z s => z.insert s.counter s.time)
        ((store.lookup (setKey key d)).getD ∅) := by
  unfold save_data samples
  rw [List.filterMap_cons, List.filterMap_nil]
  split_ifs with hfields
  · have hne : ∀ {d d' : String}, d ≠ d' → setKey key d ≠ setKey key d' := fun hdd heq =>
      hdd (setKey_injective key heq)
    have hin : setKey key "out" ≠ setKey key "in" := hne (by decide)
    rcases List.mem_cons.mp hd with rfl | hd
    · simp only [directions, List.foldl_cons, List.foldl_nil, zadd]
      rw [AList.lookup_insert_ne hin.symm, AList.lookup_insert, Option.getD_some]
    · obtain rfl := List.mem_singleton.mp hd
      simp only [directions, List.foldl_cons, List.foldl_nil, zadd]
      rw [AList.lookup_insert, Option.getD_some, AList.lookup_insert_ne hin]
  · rfl

/-- **Run lemma**: the set of a direction has been given the samples of that direction. -/
theorem lookup_saved {d : String} (hd : d ∈ directions) (key : String) (store : Store)
    (msgs : List (ℤ × Dict String ℤ)) :
    ((saved key store msgs).lookup (setKey key d)).getD ∅
      = (samples d msgs).foldl (fun z s => z.insert s.counter s.time)
        ((store.lookup (setKey key d)).getD ∅) := by
  induction msgs generalizing store with
  | nil => rfl
  | cons m msgs ih =>
    have hsplit : samples d (m :: msgs) = samples d [m] ++ samples d msgs :=
      List.filterMap_append (l := [m])
    rw [saved, List.foldl_cons, hsplit, List.foldl_append, ← lookup_save_data hd]
    exact ih _

/-! ## What is read -/

/-- The entries are those of the samples that last, the newest one first. -/
theorem zrevrange_set {ss : List Sample} (h : ss.Pairwise (fun s s' => s.time < s'.time)) :
    zrevrange (ss.foldl (fun z s => z.insert s.counter s.time) (∅ : ZSet))
      = (lasting ss).reverse.map (fun s => (s.counter, s.time)) := by
  have hsorted : ((lasting ss).reverse.map (fun s => (s.counter, s.time))).Pairwise
      (fun p q => q.2 < p.2 ∨ p.2 = q.2 ∧ (toString q.1 : String) ≤ toString p.1) := by
    rw [List.pairwise_map, List.pairwise_reverse]
    exact (h.sublist (lasting_sublist ss)).imp (fun hlt => Or.inl hlt)
  have htotal : Std.Total (fun p q : ℤ × ℤ =>
      q.2 < p.2 ∨ p.2 = q.2 ∧ (toString q.1 : String) ≤ toString p.1) := ⟨fun p q => by
    rcases lt_trichotomy p.2 q.2 with hlt | heq | hlt
    · exact Or.inr (Or.inl hlt)
    · rcases le_total (toString p.1 : String) (toString q.1) with hle | hle
      · exact Or.inr (Or.inr ⟨heq.symm, hle⟩)
      · exact Or.inl (Or.inr ⟨heq, hle⟩)
    · exact Or.inl (Or.inl hlt)⟩
  have htrans : IsTrans (ℤ × ℤ) (fun p q =>
      q.2 < p.2 ∨ p.2 = q.2 ∧ (toString q.1 : String) ≤ toString p.1) := ⟨fun p q r hpq hqr => by
    rcases hpq with hpq | ⟨hpq, hpq'⟩
    · rcases hqr with hqr | ⟨hqr, -⟩
      · exact Or.inl (hqr.trans hpq)
      · exact Or.inl (hqr ▸ hpq)
    · rcases hqr with hqr | ⟨hqr, hqr'⟩
      · exact Or.inl (hpq ▸ hqr)
      · exact Or.inr ⟨hpq.trans hqr, hqr'.trans hpq'⟩⟩
  refine List.Perm.eq_of_pairwise (fun p q _ _ hpq hqp => ?_) (List.pairwise_insertionSort _ _)
    hsorted ((List.perm_insertionSort _ _).trans ?_)
  · -- no two entries have one score and one text
    rcases hpq with hlt | ⟨hscore, hle⟩
    · rcases hqp with hlt' | ⟨hscore', -⟩
      · exact absurd hlt (not_lt.mpr hlt'.le)
      · exact absurd hscore' hlt.ne
    · rcases hqp with hlt' | ⟨-, hle'⟩
      · exact absurd hscore hlt'.ne
      · have hback := congrArg Text.int? (le_antisymm hle hle')
        rw [Text.int?_toString, Text.int?_toString] at hback
        exact Prod.ext (Option.some.inj hback).symm hscore
  · have hitems : (ss.foldl (fun z s => z.insert s.counter s.time) (∅ : ZSet)).items.Nodup := by
      refine List.Nodup.of_map Prod.fst ?_
      rw [Dict.items_map_fst]
      exact AList.keys_nodup _
    have hlasting : ((lasting ss).reverse.map (fun s => (s.counter, s.time))).Nodup := by
      refine List.Nodup.of_map Prod.fst ?_
      rw [List.map_map, List.map_reverse]
      exact List.nodup_reverse.mpr (nodup_lasting ss)
    rw [List.perm_ext_iff_of_nodup hitems hlasting]
    rintro ⟨c, t⟩
    rw [Dict.mem_items, lookup_set, List.mem_map]
    constructor
    · exact fun hmem => ⟨⟨t, c⟩, List.mem_reverse.mpr hmem, rfl⟩
    · rintro ⟨⟨t', c'⟩, hmem, heq⟩
      cases heq
      exact List.mem_reverse.mp hmem

/-! ## What is found -/

/-- One sample is marked for the ranges that have it in their window and have none yet. -/
theorem foldl_mark (now : ℚ) (i : Sample) (l : List ℕ) (found : ℕ → Option Sample) (r : ℕ) :
    l.foldl (mark now i) found r
      = if r ∈ l ∧ found r = none ∧ InWindow now r i then some i else found r := by
  induction l generalizing found with
  | nil => simp
  | cons t l ih =>
    rw [List.foldl_cons, ih]
    by_cases ht : found t = none ∧ InWindow now t i
    · have hmark : mark now i found t = Function.update found t (some i) := if_pos ht
      rw [hmark]
      by_cases hr : r = t
      · subst hr
        rw [Function.update_self, if_neg (fun h => absurd h.2.1 (by simp)),
          if_pos ⟨List.mem_cons_self, ht⟩]
      · simp only [Function.update_of_ne hr, List.mem_cons, hr, false_or]
    · have hmark : mark now i found t = found := if_neg ht
      rw [hmark]
      by_cases hr : r = t
      · subst hr
        rw [if_neg (fun h => ht h.2), if_neg (fun h => ht h.2)]
      · simp only [List.mem_cons, hr, false_or]

/-- `ok and True` is not `True` where `ok` starts as `False`: the loop reads all entries. -/
theorem ok_eq_false (found : ℕ → Option Sample) (l : List ℕ) :
    l.foldl (fun ok t => if (found t).isSome then ok && true else ok) false = false := by
  induction l with
  | nil => rfl
  | cons t l ih =>
    rw [List.foldl_cons, Bool.false_and, ite_self]
    exact ih

/-- **The loop**: the first entry, and the first one in the window of each range. -/
theorem scan_spec (now : ℚ) (data : List (ℤ × ℤ)) (st : Scan) :
    (scan now data st).recent = st.recent.or ((data.map (fun x => (⟨x.2, x.1⟩ : Sample))).head?)
      ∧ ∀ r ∈ ranges, (scan now data st).found r
        = (st.found r).or ((data.map (fun x => (⟨x.2, x.1⟩ : Sample))).find?
            (fun i => InWindow now r i)) := by
  induction data generalizing st with
  | nil => exact ⟨by simp [scan], fun r _ => by simp [scan]⟩
  | cons x data ih =>
    rw [scan]
    simp only [ok_eq_false, Bool.false_eq_true, if_false]
    obtain ⟨hrecent, hfound⟩ := ih ⟨st.raw ++ [⟨x.2, x.1⟩], st.recent.or (some ⟨x.2, x.1⟩),
      ranges.foldl (mark now ⟨x.2, x.1⟩) st.found⟩
    refine ⟨?_, fun r hr => ?_⟩
    · rw [hrecent, List.map_cons, List.head?_cons]
      cases st.recent <;> rfl
    · rw [hfound r hr, List.map_cons, List.find?_cons]
      dsimp only
      rw [foldl_mark]
      by_cases hwindow : InWindow now r ⟨x.2, x.1⟩
      · rw [decide_eq_true hwindow]
        cases hr' : st.found r with
        | none => rw [if_pos ⟨hr, rfl, hwindow⟩, Option.some_or, Option.none_or]
        | some i => rw [if_neg (fun h => nomatch h.2.1), Option.some_or, Option.some_or]
      · rw [decide_eq_false hwindow, if_neg (fun h => hwindow h.2.2)]

/-- **Analysis of a set**: the rate over a range is that of the newest sample and the newest one
of the window that lasts. -/
theorem lookup_analyse {ss : List Sample} (h : ss.Pairwise (fun s s' => s.time < s'.time))
    (now capacity : ℚ) {r : ℕ} (hr : r ∈ ranges) :
    ((analyse share now (zrevrange (ss.foldl (fun z s => z.insert s.counter s.time) (∅ : ZSet)))
        capacity).rates.lookup r).join
      = rate share ss.getLast? (newestIn now r (lasting ss)) capacity := by
  have hdata : ((lasting ss).reverse.map (fun s => (s.counter, s.time))).map
      (fun x => (⟨x.2, x.1⟩ : Sample)) = (lasting ss).reverse := by
    rw [List.map_map]
    exact List.map_id _
  obtain ⟨hrecent, hfound⟩ := scan_spec now
    ((lasting ss).reverse.map (fun s => (s.counter, s.time))) {}
  rw [hdata, List.head?_reverse, getLast?_lasting, Option.none_or] at hrecent
  rw [hdata] at hfound
  have hnodup : ((ranges.map (fun i => (i, rate share
      (scan now ((lasting ss).reverse.map (fun s => (s.counter, s.time))) {}).recent
      ((scan now ((lasting ss).reverse.map (fun s => (s.counter, s.time))) {}).found i)
      capacity))).map Prod.fst).Nodup := by
    rw [List.map_map]
    exact (List.map_id ranges).symm ▸ (by decide : ranges.Nodup)
  unfold analyse
  rw [zrevrange_set h]
  dsimp only
  rw [(Dict.lookup_ofList hnodup).mpr (List.mem_map.mpr ⟨r, hr, rfl⟩), hrecent, hfound r hr,
    Option.none_or]
  rfl

/-- The score of a key that is asked for is the analysis of its set, where its port has a
capacity. -/
theorem lookup_get_utilisations (now : ℚ) (store : Store) {keys : List String}
    (capacities : Dict String ℚ) {key : String} (hkey : key ∈ keys) :
    (get_utilisations share now store keys capacities).lookup key
      = (capacities.lookup (portOf key)).map
        (fun c => analyse share now (zrevrange ((store.lookup key).getD ∅)) c) := by
  unfold get_utilisations
  cases hc : capacities.lookup (portOf key) with
  | none =>
    rw [Option.map_none]
    refine (foldl_keep (fun scores : Dict String Score => scores.lookup key)
      (fun scores k _ => ?_) ∅).trans (AList.lookup_empty key)
    cases hk : capacities.lookup (portOf k) with
    | none => rfl
    | some c =>
      refine AList.lookup_insert_ne (fun heq => ?_)
      rw [heq, hk] at hc
      cases hc
  | some c =>
    rw [Option.map_some]
    refine foldl_set (fun scores : Dict String Score => scores.lookup key) hkey (fun scores => ?_)
      (fun scores k _ hne => ?_) ∅
    · rw [hc]
      exact AList.lookup_insert _
    · cases capacities.lookup (portOf k) with
      | none => rfl
      | some c' => exact AList.lookup_insert_ne hne.symm

/-- What the worker computes. -/
theorem utilisation_eq {store : Store} {key d : String} (hd : d ∈ directions)
    (hstore : store.lookup (setKey key d) = none) {msgs : List (ℤ × Dict String ℤ)}
    (htimes : (samples d msgs).Pairwise (fun s s' => s.time < s'.time)) (now : ℚ)
    (capacities : Dict String ℚ) {keys : List String} (hkeys : setKey key d ∈ keys) {r : ℕ}
    (hr : r ∈ ranges) :
    utilisation share now (saved key store msgs) keys capacities (setKey key d) r
      = (capacities.lookup (portOf (setKey key d))).bind (fun c =>
        rate share (samples d msgs).getLast? (newestIn now r (lasting (samples d msgs))) c) := by
  unfold utilisation
  rw [lookup_get_utilisations share now _ capacities hkeys, lookup_saved hd, hstore, Option.getD_none]
  cases capacities.lookup (portOf (setKey key d)) with
  | none => rfl
  | some c =>
    rw [Option.map_some, Option.bind_some, Option.bind_some]
    exact lookup_analyse share htimes now c hr

/-! ## When the utilisation is right -/

theorem mem_of_newestIn {now : ℚ} {r : ℕ} {ss : List Sample} {o : Sample}
    (h : newestIn now r ss = some o) : o ∈ ss ∧ InWindow now r o := by
  unfold newestIn at h
  have hwindow := List.find?_some h
  exact ⟨List.mem_reverse.mp (List.mem_of_find?_eq_some h), of_decide_eq_true hwindow⟩

/-- Where the window is empty, nothing is left of it. -/
theorem newestIn_lasting_none {now : ℚ} {r : ℕ} {ss : List Sample} (h : newestIn now r ss = none) :
    newestIn now r (lasting ss) = none := by
  unfold newestIn at h ⊢
  rw [List.find?_eq_none] at h ⊢
  exact fun s hs => h s (List.mem_reverse.mpr ((lasting_sublist ss).subset (List.mem_reverse.mp hs)))

/-- A rate is there for a capacity and two samples of different times. -/
theorem rate_ne_none {latest oldest : Option Sample} {capacity : ℚ} :
    rate share latest oldest capacity ≠ none ↔ capacity ≠ 0
      ∧ ∃ n o, latest = some n ∧ oldest = some o ∧ n.time ≠ o.time := by
  unfold rate
  cases latest with
  | none => exact ⟨fun h => absurd rfl h, fun ⟨_, _, _, h, _⟩ => (by cases h)⟩
  | some n =>
    cases oldest with
    | none => exact ⟨fun h => absurd rfl h, fun ⟨_, _, _, _, h, _⟩ => (by cases h)⟩
    | some o =>
      dsimp only
      split_ifs with hcap htime
      · exact ⟨fun h => absurd rfl h, fun h => absurd hcap h.1⟩
      · refine ⟨fun h => absurd rfl h, fun ⟨_, _, _, hn, ho, hne⟩ => ?_⟩
        cases hn
        cases ho
        exact absurd (sub_eq_zero.mp htime) hne
      · exact ⟨fun _ => ⟨hcap, n, o, rfl, rfl, fun heq => htime (sub_eq_zero.mpr heq)⟩,
          fun _ => Option.some_ne_none _⟩

/-- Samples of one time are the same one. -/
theorem eq_of_time_eq {ss : List Sample} (h : ss.Pairwise (fun s s' => s.time < s'.time))
    {s s' : Sample} (hs : s ∈ ss) (hs' : s' ∈ ss) (heq : s.time = s'.time) : s = s' := by
  have hnodup : (ss.map Sample.time).Nodup := by
    rw [List.Nodup, List.pairwise_map]
    exact h.imp (fun hlt => hlt.ne)
  exact List.inj_on_of_nodup_map hnodup hs hs' heq

/-- The first one with a property stays the first one in a part of the list that has it. -/
theorem find?_of_sublist {α : Type} {p : α → Bool} {l' l : List α} (h : l'.Sublist l) {o : α}
    (hnodup : l.Nodup) (hfind : l.find? p = some o) (ho : o ∈ l') : l'.find? p = some o := by
  induction h with
  | slnil => cases ho
  | cons a h ih =>
    obtain ⟨ha, hnodup⟩ := List.nodup_cons.mp hnodup
    cases hp : p a with
    | true =>
      rw [List.find?_cons_of_pos hp] at hfind
      obtain rfl := Option.some.inj hfind
      exact absurd (h.subset ho) ha
    | false =>
      rw [List.find?_cons_of_neg (by rw [hp]; exact Bool.false_ne_true)] at hfind
      exact ih hnodup hfind ho
  | cons_cons a h ih =>
    cases hp : p a with
    | true =>
      rw [List.find?_cons_of_pos hp] at hfind ⊢
      exact hfind
    | false =>
      have hneg : ¬ p a = true := by rw [hp]; exact Bool.false_ne_true
      rw [List.find?_cons_of_neg hneg] at hfind ⊢
      refine ih (List.nodup_cons.mp hnodup).2 hfind ((List.mem_cons.mp ho).resolve_left ?_)
      rintro rfl
      exact hneg (List.find?_some hfind)

theorem Intact.measurable {now : ℚ} {r : ℕ} {ss : List Sample} {capacity : ℚ} {known : Option ℚ}
    (htimes : ss.Pairwise (fun s s' => s.time < s'.time))
    (h : Intact now r ss capacity known) : Measurable share now r ss capacity known := by
  intro o ho
  obtain ⟨hzero, hknown, hlast, hlasts⟩ := h o ho
  have hnodup : ss.reverse.Nodup :=
    List.nodup_reverse.mpr (htimes.imp (fun hlt heq => hlt.ne (congrArg Sample.time heq)))
  have hleft : newestIn now r (lasting ss) = some o :=
    find?_of_sublist (lasting_sublist ss).reverse hnodup ho (List.mem_reverse.mpr hlasts)
  exact ⟨hzero, hlast, o, capacity, hleft, hknown, rfl⟩

/-- What is measurable however a rate is written is intact. -/
theorem intact_of_measurable {now : ℚ} {r : ℕ} {ss : List Sample} {capacity : ℚ} {known : Option ℚ}
    (htimes : ss.Pairwise (fun s s' => s.time < s'.time))
    (h : ∀ share, Measurable share now r ss capacity known) : Intact now r ss capacity known := by
  intro o ho
  obtain ⟨homem, -⟩ := mem_of_newestIn ho
  obtain ⟨n, hn⟩ := Option.ne_none_iff_exists'.mp
    (fun hnone => List.ne_nil_of_mem homem (List.getLast?_eq_none_iff.mp hnone))
  -- a way to write rates that tells this one from all others
  let share : Share := fun counters secs c =>
    if counters = n.counter - o.counter ∧ secs = n.time - o.time ∧ c = capacity then "1" else "0"
  obtain ⟨hzero, hlast, l, c, hl, hc, hrate⟩ := h share o ho
  have hlmem : l ∈ lasting ss := (mem_of_newestIn hl).1
  have htime : n.time ≠ o.time := fun heq =>
    hlast (hn.trans (congrArg some (eq_of_time_eq htimes (List.mem_of_getLast? hn) homem heq)))
  have hright : rate share (some n) (some o) capacity = some "1" := by
    rw [rate, if_neg hzero, if_neg (sub_ne_zero.mpr htime)]
    exact congrArg some (if_pos ⟨rfl, rfl, rfl⟩)
  rw [hn, hright, rate] at hrate
  split_ifs at hrate
  have hsame : n.counter - l.counter = n.counter - o.counter ∧ n.time - l.time = n.time - o.time
      ∧ c = capacity := by
    by_contra hne
    have hzero' : share (n.counter - l.counter) (n.time - l.time) c = "0" := if_neg hne
    rw [hzero'] at hrate
    exact absurd (Option.some.inj hrate) (by decide)
  obtain ⟨-, htimes', rfl⟩ := hsame
  obtain rfl := eq_of_time_eq htimes ((lasting_sublist ss).subset hlmem) homem
    (sub_right_inj.mp htimes')
  exact ⟨hzero, hc, hlast, hlmem⟩

/-- The utilisation is right just when it is measurable. -/
theorem utilised_iff_measurable {store : Store} {key d : String} (hd : d ∈ directions)
    (hstore : store.lookup (setKey key d) = none) {msgs : List (ℤ × Dict String ℤ)}
    (htimes : (samples d msgs).Pairwise (fun s s' => s.time < s'.time)) (now capacity : ℚ)
    (capacities : Dict String ℚ) {keys : List String} (hkeys : setKey key d ∈ keys) {r : ℕ}
    (hr : r ∈ ranges) :
    Utilised share now r (samples d msgs) capacity
        (utilisation share now (saved key store msgs) keys capacities (setKey key d) r)
      ↔ Measurable share now r (samples d msgs) capacity
        (capacities.lookup (portOf (setKey key d))) := by
  unfold Utilised
  rw [utilisation_eq share hd hstore htimes now capacities hkeys hr]
  cases ho : newestIn now r (samples d msgs) with
  | none =>
    have hnone : ∀ latest c, rate share latest none c = none := fun latest c => by
      cases latest <;> rfl
    rw [newestIn_lasting_none ho]
    refine iff_of_true ⟨?_, fun _ => rfl⟩ (fun o h => by rw [ho] at h; cases h)
    rw [hnone]
    cases capacities.lookup (portOf (setKey key d)) with
    | none => rfl
    | some c => exact hnone _ c
  | some o =>
    obtain ⟨homem, -⟩ := mem_of_newestIn ho
    have hright : rate share (samples d msgs).getLast? (some o) capacity ≠ none
        ↔ capacity ≠ 0 ∧ (samples d msgs).getLast? ≠ some o := by
      rw [rate_ne_none]
      refine and_congr_right (fun _ => ⟨?_, fun hne => ?_⟩)
      · rintro ⟨n, o', hn, ho', htime⟩ heq
        rw [hn, ho'] at heq
        exact htime (congrArg Sample.time (Option.some.inj heq))
      · obtain ⟨n, hn⟩ := Option.ne_none_iff_exists'.mp
          (fun hnone => List.ne_nil_of_mem homem (List.getLast?_eq_none_iff.mp hnone))
        refine ⟨n, o, hn, rfl, fun htime => hne ?_⟩
        rw [hn, eq_of_time_eq htimes (List.mem_of_getLast? hn) homem htime]
    constructor
    · rintro ⟨heq, hdefined⟩ o' ho'
      obtain rfl : o = o' := Option.some.inj (ho.symm.trans ho')
      have hne : (capacities.lookup (portOf (setKey key d))).bind (fun c =>
          rate share (samples d msgs).getLast? (newestIn now r (lasting (samples d msgs))) c)
            ≠ none := fun hnone => nomatch hdefined hnone
      obtain ⟨hzero, hlast⟩ := hright.mp (heq ▸ hne)
      obtain ⟨text, htext⟩ := Option.ne_none_iff_exists'.mp hne
      obtain ⟨c, hc, hrate⟩ := Option.bind_eq_some_iff.mp htext
      obtain ⟨-, n, l, -, hl, -⟩ := (rate_ne_none share).mp
        (by rw [hrate]; exact Option.some_ne_none text)
      refine ⟨hzero, hlast, l, c, hl, hc, ?_⟩
      rw [← hl, ← heq, hc, Option.bind_some]
    · intro h
      obtain ⟨hzero, hlast, l, c, hl, hc, hrate⟩ := h o ho
      rw [hc, Option.bind_some, hl, hrate]
      exact ⟨rfl, fun hnone => absurd hnone (hright.mpr ⟨hzero, hlast⟩)⟩

/-- **When the utilisation is right**: for one way to write rates it is right just when it is
measurable, and for all of them just when the window is intact. -/
theorem utilisation_iff {store : Store} {key d : String} (hd : d ∈ directions)
    (hstore : store.lookup (setKey key d) = none) {msgs : List (ℤ × Dict String ℤ)}
    (htimes : (samples d msgs).Pairwise (fun s s' => s.time < s'.time)) (now capacity : ℚ)
    (capacities : Dict String ℚ) {keys : List String} (hkeys : setKey key d ∈ keys) {r : ℕ}
    (hr : r ∈ ranges) :
    (∀ share, Utilised share now r (samples d msgs) capacity
          (utilisation share now (saved key store msgs) keys capacities (setKey key d) r)
        ↔ Measurable share now r (samples d msgs) capacity
          (capacities.lookup (portOf (setKey key d))))
      ∧ ((∀ share, Utilised share now r (samples d msgs) capacity
          (utilisation share now (saved key store msgs) keys capacities (setKey key d) r))
        ↔ Intact now r (samples d msgs) capacity (capacities.lookup (portOf (setKey key d)))) := by
  have hone := fun share =>
    utilised_iff_measurable share hd hstore htimes now capacity capacities hkeys hr
  refine ⟨hone, (forall_congr' hone).trans ⟨intact_of_measurable htimes, fun h share => ?_⟩⟩
  exact h.measurable share htimes

/-! ### A busy port and an idle one -/

/-- Six decimals of the quotient, where it has no more and is not negative. -/
def sixDecimals : Share := fun counters secs capacity =>
  let q := counters * 8 / (capacity * secs)
  let digits := Nat.toDigits 10 (⌊q * 10 ^ 6⌋ % 10 ^ 6).toNat
  toString ⌊q⌋ ++ "." ++ String.ofList (List.replicate (6 - digits.length) '0' ++ digits)

/-- Two messages about a port. -/
def counted (c c' : ℤ) : List (ℤ × Dict String ℤ) :=
  [(900, Dict.ofList [("octets_in", c), ("octets_out", 0)]),
    (990, Dict.ofList [("octets_in", c'), ("octets_out", 0)])]

/-- The samples of the busy port are intact. -/
theorem utilisation_iff_busy :
    Intact 1000 1 (samples "in" (counted 5 1130)) 1000
        ((Dict.ofList [("pt:cap:sw1:Gi1/1", (1000 : ℚ))]).lookup
          (portOf (setKey "pt:cap:sw1:Gi1/1" "in")))
      ∧ ∀ share, Utilised share 1000 1 (samples "in" (counted 5 1130)) 1000
        (utilisation share 1000 (saved "pt:cap:sw1:Gi1/1" ∅ (counted 5 1130))
          [setKey "pt:cap:sw1:Gi1/1" "in"] (Dict.ofList [("pt:cap:sw1:Gi1/1", 1000)])
          (setKey "pt:cap:sw1:Gi1/1" "in") 1) := by
  have hintact : Intact 1000 1 (samples "in" (counted 5 1130)) 1000
      ((Dict.ofList [("pt:cap:sw1:Gi1/1", (1000 : ℚ))]).lookup
        (portOf (setKey "pt:cap:sw1:Gi1/1" "in"))) := by
    intro o ho
    obtain rfl : (⟨900, 5⟩ : Sample) = o := Option.some.inj ((show newestIn 1000 1
      (samples "in" (counted 5 1130)) = some ⟨900, 5⟩ by decide +kernel).symm.trans ho)
    exact ⟨by norm_num, by decide +kernel, by decide +kernel, by decide +kernel⟩
  exact ⟨hintact, (utilisation_iff (by decide) (AList.lookup_empty _) (by decide) 1000 1000 _
    (by decide) (by decide)).2.mpr hintact⟩

/-- The idle port has a sample in the window and no utilisation: its counter came again.  Nor has
a port of a device whose name starts with `in`. -/
theorem not_utilisation_idle :
    newestIn 1000 1 (samples "in" (counted 5 5)) = some ⟨900, 5⟩
      ∧ rate sixDecimals (samples "in" (counted 5 5)).getLast? (some ⟨900, 5⟩) 1000
        = some "0.000000"
      ∧ ¬ Utilised sixDecimals 1000 1 (samples "in" (counted 5 5)) 1000
        (utilisation sixDecimals 1000 (saved "pt:cap:sw1:Gi1/1" ∅ (counted 5 5))
          [setKey "pt:cap:sw1:Gi1/1" "in"] (Dict.ofList [("pt:cap:sw1:Gi1/1", 1000)])
          (setKey "pt:cap:sw1:Gi1/1" "in") 1)
      ∧ ¬ Utilised sixDecimals 1000 1 (samples "in" (counted 5 1130)) 1000
        (utilisation sixDecimals 1000 (saved "pt:cap:internet:Gi1/1" ∅ (counted 5 1130))
          [setKey "pt:cap:internet:Gi1/1" "in"] (Dict.ofList [("pt:cap:internet:Gi1/1", 1000)])
          (setKey "pt:cap:internet:Gi1/1" "in") 1) := by
  have hidle : newestIn 1000 1 (samples "in" (counted 5 5)) = some ⟨900, 5⟩ := by decide +kernel
  have hbusy : newestIn 1000 1 (samples "in" (counted 5 1130)) = some ⟨900, 5⟩ := by
    decide +kernel
  refine ⟨hidle, by decide +kernel, fun h => ?_, fun h => ?_⟩
  · rw [utilisation_eq sixDecimals (by decide) (AList.lookup_empty _) (by decide) _ _ (by decide)
      (by decide)] at h
    exact nomatch hidle.symm.trans (h.2 (by decide +kernel))
  · rw [utilisation_eq sixDecimals (by decide) (AList.lookup_empty _) (by decide) _ _ (by decide)
      (by decide)] at h
    exact nomatch hbusy.symm.trans (h.2 (by decide +kernel))

end CapacityWorker
