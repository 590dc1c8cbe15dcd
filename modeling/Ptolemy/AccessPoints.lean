/-
# Labels of radios

A wireless controller reports its radios by the index of the access point, or by that index
with a digit behind a point.  `post_merge_wireless_apname_on_radio` labels the record of each
radio with the device of its access point.

The variable that holds the index lives on from one record to the next, and is not set at
first: a record whose key is neither takes the index of the record before it.
`labelsRadios_iff` says for which datasets every order gives the right labels.
-/
import Ptolemy.PostRemap

namespace Driver

/-! ## The function -/

/-- What a generator yields until it ends or raises, the world that it leaves, and what it
raises. -/
structure Yields : Type where
  ys : List (Option (String × Ref))
  world : World
  raised : Option Exn

namespace Yields

def raise (w : World) (e : Exn) : Yields := ⟨[], w, some e⟩

def cons (y : Option (String × Ref)) (r : Yields) : Yields := { r with ys := y :: r.ys }

/-- `_process_by_post_function`: what is raised is logged, and what was yielded stays. -/
def swallow (r : Yields) : Gen := (r.ys, r.world)

end Yields

/-- `$` also matches before a last line break. -/
def withoutLineBreak (l : List Char) : List Char :=
  if l.getLast? = some '\n' then l.dropLast else l

/-- `search(r'^(?P<key>.*)\.\d$', k).groupdict()['key']`; a point matches no line break. -/
def radioKey (k : String) : Option String :=
  match (withoutLineBreak k.toList).reverse with
  | n :: '.' :: s => if n.isDigit ∧ '\n' ∉ s then some (String.ofList s.reverse) else none
  | _ => none

/-- What `x` is set to for the key of a record, if it is set. -/
def radioIndex (aps : Record) (k : String) : Option String :=
  if k ∈ aps then some k else radioKey k

/-- `for k in data[g]`, where `x` is what the records before have left of it. -/
def labelRadios (g : String) (aps : Record) : Option String → List (String × Ref) → World → Yields
  | _, [], w => ⟨[], w, none⟩
  | x, (k, d) :: l, w =>
    match (radioIndex aps k).or x with
    | none => Yields.raise w (.exception "local variable 'x' referenced before assignment")
    | some x => match aps.lookup x with
      | none => labelRadios g aps (some x) l w
      | some ap => (labelRadios g aps (some x) l
          (w.set d ((w.records d).insert "device" ap))).cons (some (g, d))

def postMergeWirelessApnameOnRadio (o : IterOrder) (g : String) (_d : Ref) (w : World) : Yields :=
  match w.data.lookup "ap_name" with
  | none => Yields.raise w (.keyError "ap_name")
  | some names => match names.lookup "device" with
    | none => Yields.raise w (.keyError "device")
    | some ref => match w.data.lookup g with
      | none => Yields.raise w (.keyError g)
      -- `aps` is a copy
      | some items => labelRadios g (w.records ref) none (o.order items.items) w

/-! ## The labels -/

/-- A key without one final `.digit`. -/
def withoutDigit (k : String) : Option String :=
  match k.toList.reverse with
  | n :: '.' :: s => if n.isDigit then some (String.ofList s.reverse) else none
  | _ => none

/-- **The label of a record**: the device of the access point with its key as index or,
failing that, with its key without a final digit. -/
def label (aps : Record) (k : String) : Option Value :=
  (aps.lookup k).or ((withoutDigit k).bind aps.lookup)

/-- The devices of the access points. -/
def apsOf (w : World) : Option Record :=
  ((w.data.lookup "ap_name").bind (AList.lookup "device")).map w.records

def itemsOf (w : World) (g : String) : List (String × Ref) := ((w.data.lookup g).getD ∅).items

/-- The records of a group that have a label have been given it and are yielded, in some order;
nothing else is. -/
structure Labelled (g : String) (w : World) (y : Yields) : Prop where
  raised : y.raised = none
  yields : y.ys.Perm (((itemsOf w g).filter (fun p => (label ((apsOf w).getD ∅) p.1).isSome)).map
    (fun p => some (g, p.2)))
  device : ∀ k d v, (k, d) ∈ itemsOf w g → label ((apsOf w).getD ∅) k = some v →
    y.world.records d = (w.records d).insert "device" v
  rest : ∀ d, (∀ k, (k, d) ∈ itemsOf w g → label ((apsOf w).getD ∅) k = none) →
    y.world.records d = w.records d
  data : y.world.data = w.data
  next : y.world.next = w.next

theorem World.ext_of {w w' : World} (hrecords : w.records = w'.records) (hnext : w.next = w'.next)
    (hdata : w.data = w'.data) : w = w' := by
  cases w
  cases w'
  cases hrecords
  cases hnext
  cases hdata
  rfl

/-- The results of two orders are the same. -/
theorem Labelled.same {g : String} {w : World} {y y' : Yields} (h : Labelled g w y)
    (h' : Labelled g w y') : y.ys.Perm y'.ys ∧ y.world = y'.world := by
  refine ⟨h.yields.trans h'.yields.symm, ?_⟩
  have hrecords : y.world.records = y'.world.records := by
    funext d
    by_cases hd : ∀ k, (k, d) ∈ itemsOf w g → label ((apsOf w).getD ∅) k = none
    · rw [h.rest d hd, h'.rest d hd]
    · push Not at hd
      obtain ⟨k, hk, hlabel⟩ := hd
      obtain ⟨v, hv⟩ := Option.ne_none_iff_exists'.mp hlabel
      rw [h.device k d v hk hv, h'.device k d v hk hv]
  exact World.ext_of hrecords (h.next.trans h'.next.symm) (h.data.trans h'.data.symm)

/-- A key that names a label wherever the loop meets it: it is an index; or it ends in a digit
behind a point, with no line break in front, and a line break behind it only where that label
is nobody's. -/
def Settled (aps : Record) (k : String) : Prop :=
  k ∈ aps ∨ ∃ s, radioKey k = some s ∧ (withoutDigit k = some s ∨ s ∉ aps)

/-- The access points are there, each key names its label, and records that are one object
have one label. -/
def Labellable (g : String) (w : World) : Prop :=
  ∃ aps items, apsOf w = some aps ∧ w.data.lookup g = some items
    ∧ (∀ k ∈ items, Settled aps k)
    ∧ ∀ k k' d v v', items.lookup k = some d → items.lookup k' = some d →
      label aps k = some v → label aps k' = some v' → v = v'

/-! ## Keys -/

/-- Where both read a key, they read the same. -/
theorem radioKey_eq_withoutDigit {k s s' : String} (h : radioKey k = some s)
    (h' : withoutDigit k = some s') : s = s' := by
  unfold radioKey withoutLineBreak at h
  unfold withoutDigit at h'
  by_cases hlast : k.toList.getLast? = some '\n'
  · -- a line break is no digit
    rw [List.getLast?_eq_head?_reverse] at hlast
    cases hrev : k.toList.reverse with
    | nil => rw [hrev] at hlast; cases hlast
    | cons n l =>
      rw [hrev] at hlast h'
      obtain rfl : n = '\n' := Option.some.inj hlast
      split at h'
      · rename_i heq
        obtain ⟨rfl, -⟩ := List.cons.inj heq
        rw [if_neg (by decide)] at h'
        cases h'
      · cases h'
  · rw [if_neg hlast] at h
    split at h
    · rename_i n l hrev
      simp only [hrev] at h'
      split_ifs at h h'
      exact (Option.some.inj h).symm.trans (Option.some.inj h')
    · cases h

/-- The label that the loop finds for a key that sets `x`. -/
def found (aps : Record) (k : String) : Option Value := (radioIndex aps k).bind aps.lookup

theorem Settled.radioIndex_ne_none {aps : Record} {k : String} (h : Settled aps k) :
    radioIndex aps k ≠ none := by
  unfold radioIndex
  by_cases hk : k ∈ aps
  · rw [if_pos hk]
    exact Option.some_ne_none k
  · obtain ⟨s, hs, -⟩ := h.resolve_left hk
    rw [if_neg hk, hs]
    exact Option.some_ne_none s

theorem Settled.found_eq {aps : Record} {k : String} (h : Settled aps k) :
    found aps k = label aps k := by
  unfold found radioIndex label
  by_cases hk : k ∈ aps
  · obtain ⟨v, hv⟩ := Dict.mem_iff_lookup.mp hk
    rw [if_pos hk, Option.bind_some, hv, Option.some_or]
  · obtain ⟨s, hs, hor⟩ := h.resolve_left hk
    rw [if_neg hk, hs, Option.bind_some, AList.lookup_eq_none.mpr hk, Option.none_or]
    rcases hor with hor | hor
    · rw [hor, Option.bind_some]
    · rw [AList.lookup_eq_none.mpr hor]
      cases hdigit : withoutDigit k with
      | none => rfl
      | some s' =>
        rw [← radioKey_eq_withoutDigit hs hdigit, Option.bind_some, AList.lookup_eq_none.mpr hor]

/-- A key that sets `x` and has a label is settled. -/
theorem settled_of_label {aps : Record} {k : String} (hindex : radioIndex aps k ≠ none)
    (hlabel : label aps k ≠ none) : Settled aps k := by
  by_cases hk : k ∈ aps
  · exact Or.inl hk
  · rw [label, AList.lookup_eq_none.mpr hk, Option.none_or] at hlabel
    rw [radioIndex, if_neg hk] at hindex
    obtain ⟨s, hs⟩ := Option.ne_none_iff_exists'.mp hindex
    cases hdigit : withoutDigit k with
    | none => rw [hdigit] at hlabel; exact absurd rfl hlabel
    | some s' => exact Or.inr ⟨s, hs, Or.inl (by rw [hdigit, radioKey_eq_withoutDigit hs hdigit])⟩

/-- A key that sets `x`, and for which no label is found where it has none, is settled. -/
theorem settled_of_found {aps : Record} {k : String} (hindex : radioIndex aps k ≠ none)
    (h : found aps k ≠ none → label aps k ≠ none) : Settled aps k := by
  by_cases hlabel : label aps k = none
  · by_cases hk : k ∈ aps
    · exact Or.inl hk
    · have hnone : found aps k = none := by
        by_contra hne
        exact h hne hlabel
      rw [radioIndex, if_neg hk] at hindex
      obtain ⟨s, hs⟩ := Option.ne_none_iff_exists'.mp hindex
      rw [found, radioIndex, if_neg hk, hs, Option.bind_some] at hnone
      exact Or.inr ⟨s, hs, Or.inr (AList.lookup_eq_none.mp hnone)⟩
  · exact settled_of_label hindex hlabel

/-! ## The loop -/

/-- What the loop changes where every key sets `x`. -/
def giveLabels (aps : Record) (l : List (String × Ref)) (w : World) : World :=
  l.foldl (fun w p => match found aps p.1 with
    | none => w
    | some v => w.set p.2 ((w.records p.2).insert "device" v)) w

theorem giveLabels_none {aps : Record} {p : String × Ref} (l : List (String × Ref)) (w : World)
    (h : found aps p.1 = none) : giveLabels aps (p :: l) w = giveLabels aps l w := by
  rw [giveLabels, List.foldl_cons, h, giveLabels]

theorem giveLabels_some {aps : Record} {p : String × Ref} {v : Value} (l : List (String × Ref))
    (w : World) (h : found aps p.1 = some v) : giveLabels aps (p :: l) w
      = giveLabels aps l (w.set p.2 ((w.records p.2).insert "device" v)) := by
  rw [giveLabels, List.foldl_cons, h, giveLabels]

/-- **Step lemma**: a key that sets `x` does not use what was left of it. -/
theorem labelRadios_cons {g : String} {aps : Record} {k : String} (h : radioIndex aps k ≠ none)
    (x : Option String) (d : Ref) (l : List (String × Ref)) (w : World) :
    ∃ x', labelRadios g aps x ((k, d) :: l) w = match found aps k with
      | none => labelRadios g aps x' l w
      | some v => (labelRadios g aps x' l (w.set d ((w.records d).insert "device" v))).cons
          (some (g, d)) := by
  obtain ⟨s, hs⟩ := Option.ne_none_iff_exists'.mp h
  refine ⟨some s, ?_⟩
  rw [labelRadios, found, hs, Option.some_or, Option.bind_some]

/-- **Run lemma**: where every key sets `x`, the loop raises nothing and gives each record the
label found for its key. -/
theorem labelRadios_spec {g : String} {aps : Record} {l : List (String × Ref)}
    (h : ∀ p ∈ l, radioIndex aps p.1 ≠ none) (x : Option String) (w : World) :
    labelRadios g aps x l w
      = ⟨(l.filter (fun p => (found aps p.1).isSome)).map (fun p => some (g, p.2)),
          giveLabels aps l w, none⟩ := by
  induction l generalizing x w with
  | nil => rfl
  | cons p l ih =>
    obtain ⟨k, d⟩ := p
    have ih := ih (fun q hq => h q (List.mem_cons_of_mem _ hq))
    obtain ⟨x', hx'⟩ := labelRadios_cons (g := g) (h (k, d) List.mem_cons_self) x d l w
    rw [hx']
    cases hfound : found aps k with
    | none =>
      dsimp only
      rw [ih, List.filter_cons_of_neg (by simp [hfound]), giveLabels_none l w hfound]
    | some v =>
      dsimp only
      rw [ih, List.filter_cons_of_pos (by simp [hfound]), giveLabels_some l w hfound]
      rfl

theorem giveLabels_data (aps : Record) (l : List (String × Ref)) (w : World) :
    (giveLabels aps l w).data = w.data :=
  foldl_keep World.data (fun w p _ => by cases found aps p.1 <;> rfl) w

theorem giveLabels_next (aps : Record) (l : List (String × Ref)) (w : World) :
    (giveLabels aps l w).next = w.next :=
  foldl_keep World.next (fun w p _ => by cases found aps p.1 <;> rfl) w

/-- A record none of whose keys has a label stays as it is. -/
theorem giveLabels_rest {aps : Record} {l : List (String × Ref)} {d : Ref}
    (h : ∀ p ∈ l, p.2 = d → found aps p.1 = none) (w : World) :
    (giveLabels aps l w).records d = w.records d := by
  refine foldl_keep (fun w => w.records d) (fun w p hp => ?_) w
  cases hfound : found aps p.1 with
  | none => rfl
  | some v =>
    have hne : d ≠ p.2 := by
      rintro rfl
      rw [h p hp rfl] at hfound
      cases hfound
    exact Function.update_of_ne hne _ _

/-- A record whose keys have one label is given that label. -/
theorem giveLabels_device {aps : Record} {l : List (String × Ref)} {d : Ref} {v : Value}
    (h : ∀ p ∈ l, p.2 = d → ∀ v', found aps p.1 = some v' → v' = v)
    (hsome : ∃ p ∈ l, p.2 = d ∧ found aps p.1 = some v) (w : World) :
    (giveLabels aps l w).records d = (w.records d).insert "device" v := by
  induction l generalizing w with
  | nil => simp at hsome
  | cons p l ih =>
    have htail := fun q hq => h q (List.mem_cons_of_mem p hq)
    cases hfound : found aps p.1 with
    | none =>
      rw [giveLabels_none l w hfound]
      obtain ⟨q, hq, hd, hv⟩ := hsome
      rcases List.mem_cons.mp hq with rfl | hq
      · rw [hfound] at hv
        cases hv
      · exact ih htail ⟨q, hq, hd, hv⟩ w
    | some u =>
      rw [giveLabels_some l w hfound]
      by_cases hd : p.2 = d
      · -- given now, and perhaps once more
        obtain rfl := h p List.mem_cons_self hd u hfound
        have hnow : (w.set p.2 ((w.records p.2).insert "device" u)).records d
            = (w.records d).insert "device" u := by
          rw [hd]
          exact Function.update_self _ _ _
        by_cases hmore : ∃ q ∈ l, q.2 = d ∧ found aps q.1 = some u
        · rw [ih htail hmore, hnow, AList.insert_insert]
        · rw [giveLabels_rest _ _, hnow]
          intro q hq hqd
          cases hq' : found aps q.1 with
          | none => rfl
          | some u' =>
            obtain rfl := htail q hq hqd u' hq'
            exact absurd ⟨q, hq, hqd, hq'⟩ hmore
      · obtain ⟨q, hq, hqd, hv⟩ := hsome
        rcases List.mem_cons.mp hq with rfl | hq
        · exact absurd hqd hd
        · have hkeep : (w.set p.2 ((w.records p.2).insert "device" u)).records d = w.records d :=
            Function.update_of_ne (fun heq => hd heq.symm) _ _
          rw [ih htail ⟨q, hq, hqd, hv⟩, hkeep]

/-! ## Every order -/

/-- The order that meets the entries from the `n`th on, and then those before it. -/
def rotated (n : ℕ) : IterOrder := ⟨fun l => l.rotate n, fun l => l.rotate_perm n⟩

/-- Every entry comes first in some order. -/
theorem exists_rotated {α : Type} {l : List α} {a : α} (h : a ∈ l) :
    ∃ n l', (rotated n).order l = a :: l' := by
  obtain ⟨s, t, rfl⟩ := List.append_of_mem h
  exact ⟨s.length, t ++ s, List.rotate_append_length_eq s (a :: t)⟩

section Function

variable {g : String} {d : Ref} {w : World}

/-- What has been found when the loop begins. -/
theorem postMerge_eq {aps : Record} {items : Dict String Ref} (haps : apsOf w = some aps)
    (hitems : w.data.lookup g = some items) (o : IterOrder) :
    postMergeWirelessApnameOnRadio o g d w = labelRadios g aps none (o.order items.items) w := by
  obtain ⟨ref, href, rfl⟩ := Option.map_eq_some_iff.mp haps
  obtain ⟨names, hnames, hdevice⟩ := Option.bind_eq_some_iff.mp href
  unfold postMergeWirelessApnameOnRadio
  simp only [hnames, hdevice, hitems]

/-- Where nothing is raised, the access points and the group are there. -/
theorem exists_of_not_raised {o : IterOrder}
    (h : (postMergeWirelessApnameOnRadio o g d w).raised = none) :
    ∃ aps items, apsOf w = some aps ∧ w.data.lookup g = some items := by
  unfold postMergeWirelessApnameOnRadio at h
  unfold apsOf
  cases hnames : w.data.lookup "ap_name" with
  | none => rw [hnames] at h; cases h
  | some names =>
    cases hdevice : names.lookup "device" with
    | none => rw [hnames] at h; simp only [hdevice] at h; cases h
    | some ref =>
      cases hitems : w.data.lookup g with
      | none => rw [hnames] at h; simp only [hdevice, hitems] at h; cases h
      | some items => exact ⟨_, items, by rw [Option.bind_some, hdevice]; rfl, rfl⟩

/-- Settled keys get their labels in every order. -/
theorem Labellable.labelled (h : Labellable g w) (o : IterOrder) :
    Labelled g w (postMergeWirelessApnameOnRadio o g d w) := by
  obtain ⟨aps, items, haps, hitems, hkeys, hone⟩ := h
  have hmem : ∀ {p : String × Ref}, p ∈ o.order items.items ↔ items.lookup p.1 = some p.2 :=
    fun {p} => o.mem_order.trans Dict.mem_items
  have hof : itemsOf w g = items.items := by rw [itemsOf, hitems, Option.getD_some]
  have hitem : ∀ {k : String} {d : Ref}, (k, d) ∈ itemsOf w g ↔ items.lookup k = some d := by
    rw [hof]
    exact Dict.mem_items
  have hsettled : ∀ p ∈ o.order items.items, Settled aps p.1 :=
    fun p hp => hkeys p.1 (Dict.mem_iff_lookup.mpr ⟨p.2, hmem.mp hp⟩)
  rw [postMerge_eq haps hitems,
    labelRadios_spec (fun p hp => (hsettled p hp).radioIndex_ne_none)]
  refine ⟨rfl, ?_, fun k d v hk hv => ?_, fun d hd => ?_, giveLabels_data _ _ _,
    giveLabels_next _ _ _⟩ <;> rw [haps, Option.getD_some] at *
  · rw [hof, List.filter_congr (fun p hp => by rw [(hsettled p hp).found_eq])]
    exact ((o.perm _).filter _).map _
  · have hk := hitem.mp hk
    refine giveLabels_device (fun p hp hpd v' hv' => ?_) ⟨(k, d), hmem.mpr hk, rfl, ?_⟩ w
    · subst hpd
      rw [(hsettled p hp).found_eq] at hv'
      exact hone p.1 k p.2 v' v (hmem.mp hp) hk hv' hv
    · rw [(hsettled _ (hmem.mpr hk)).found_eq, hv]
  · refine giveLabels_rest (fun p hp hpd => ?_) w
    subst hpd
    rw [(hsettled p hp).found_eq]
    exact hd p.1 (hitem.mpr (hmem.mp hp))

/-- The first key of an order has to set `x`. -/
theorem radioIndex_ne_none (hall : ∀ o, Labelled g w (postMergeWirelessApnameOnRadio o g d w))
    {aps : Record} {items : Dict String Ref} (haps : apsOf w = some aps)
    (hitems : w.data.lookup g = some items) {k : String} (hk : k ∈ items) :
    radioIndex aps k ≠ none := by
  intro hnone
  obtain ⟨r, hr⟩ := Dict.mem_iff_lookup.mp hk
  obtain ⟨n, l, hl⟩ := exists_rotated (Dict.mem_items.mpr hr)
  have hraised := (hall (rotated n)).raised
  rw [postMerge_eq haps hitems, hl, labelRadios, hnone] at hraised
  cases hraised

/-- Where each order gives the right labels, the keys are settled. -/
theorem settled_of_labelled (hall : ∀ o, Labelled g w (postMergeWirelessApnameOnRadio o g d w))
    {aps : Record} {items : Dict String Ref} (haps : apsOf w = some aps)
    (hitems : w.data.lookup g = some items) {k : String} (hk : k ∈ items) : Settled aps k := by
  have hindex : ∀ p ∈ items.items, radioIndex aps p.1 ≠ none := fun p hp =>
    radioIndex_ne_none hall haps hitems (Dict.mem_iff_lookup.mpr ⟨p.2, Dict.mem_items.mp hp⟩)
  have hyields := (hall IterOrder.stored).yields
  rw [postMerge_eq haps hitems, labelRadios_spec (l := IterOrder.stored.order items.items) hindex,
    haps, Option.getD_some, itemsOf, hitems, Option.getD_some] at hyields
  -- as many are yielded as have a label, and those with a label are yielded
  have hsub : (items.items.filter (fun p => (label aps p.1).isSome)).Sublist
      (items.items.filter (fun p => (found aps p.1).isSome)) := by
    rw [show items.items.filter (fun p => (label aps p.1).isSome)
        = (items.items.filter (fun p => (found aps p.1).isSome)).filter
          (fun p => (label aps p.1).isSome) from ?_]
    · exact List.filter_sublist
    · rw [List.filter_filter]
      refine List.filter_congr (fun p hp => ?_)
      cases hlabel : label aps p.1 with
      | none => rfl
      | some v =>
        have hsettled := settled_of_label (hindex p hp) (by rw [hlabel]; exact Option.some_ne_none v)
        rw [hsettled.found_eq, hlabel]
        rfl
  have hlength : (items.items.filter (fun p => (found aps p.1).isSome)).length
      ≤ (items.items.filter (fun p => (label aps p.1).isSome)).length := by
    have hlength := hyields.length_eq
    rw [List.length_map, List.length_map] at hlength
    exact hlength.le
  have heq := hsub.eq_of_length_le hlength
  obtain ⟨r, hr⟩ := Dict.mem_iff_lookup.mp hk
  have hmem := Dict.mem_items.mpr hr
  refine settled_of_found (hindex _ hmem) (fun hfound => ?_)
  have hin : (k, r) ∈ items.items.filter (fun p => (found aps p.1).isSome) :=
    List.mem_filter.mpr ⟨hmem, Option.isSome_iff_ne_none.mpr hfound⟩
  rw [← heq] at hin
  exact Option.isSome_iff_ne_none.mp (List.mem_filter.mp hin).2

end Function

/-- **When radios are labelled**: every order raises nothing, gives each record the device of
the access point with its index, and has the same results as any other, if and only if the
access points are there and no key is without an index. -/
theorem labelsRadios_iff (g : String) (d : Ref) (w : World) :
    ((∀ o, Labelled g w (postMergeWirelessApnameOnRadio o g d w))
        ∧ ∀ o o', (postMergeWirelessApnameOnRadio o g d w).ys.Perm
              (postMergeWirelessApnameOnRadio o' g d w).ys
            ∧ (postMergeWirelessApnameOnRadio o g d w).world
              = (postMergeWirelessApnameOnRadio o' g d w).world)
      ↔ Labellable g w := by
  constructor
  · rintro ⟨hall, -⟩
    obtain ⟨aps, items, haps, hitems⟩ := exists_of_not_raised (hall IterOrder.stored).raised
    refine ⟨aps, items, haps, hitems, fun k hk => settled_of_labelled hall haps hitems hk, ?_⟩
    intro k k' r v v' hk hk' hv hv'
    have hdevice := (hall IterOrder.stored).device
    rw [haps, Option.getD_some, itemsOf, hitems, Option.getD_some] at hdevice
    have hboth := (hdevice k r v (Dict.mem_items.mpr hk) hv).symm.trans
      (hdevice k' r v' (Dict.mem_items.mpr hk') hv')
    have hlook := congrArg (AList.lookup "device") hboth
    rw [AList.lookup_insert, AList.lookup_insert] at hlook
    exact Option.some.inj hlook
  · intro h
    exact ⟨h.labelled, fun o o' => (h.labelled o).same (h.labelled o')⟩

/-- What the driver gets of the function: the records that have a label, in some order. -/
theorem Labellable.post_function {env : Env} {g func kind : String} {d : Ref} {w : World}
    (h : Labellable g w) (henv : env.globals func = some (fun g d w =>
      (postMergeWirelessApnameOnRadio env.order g d w).swallow))
    {defn : Dict String String} (hdefn : defn.items = [(kind, func)]) :
    ∃ ys w', step env g d w (.post_function defn) = .ok (ys, w') ∧ Labelled g w ⟨ys, w', none⟩ := by
  have hlabelled := h.labelled (d := d) env.order
  have hone : env.order.order defn.items = [(kind, func)] := by
    rw [hdefn]
    exact List.perm_singleton.mp (env.order.perm _)
  refine ⟨_, _, by rw [step, hone]; simp only [henv]; rfl, ?_⟩
  exact ⟨rfl, hlabelled.yields, hlabelled.device, hlabelled.rest, hlabelled.data,
    hlabelled.next⟩

/-- An access point, a radio of it, and a radio whose key is neither. -/
def radioWorld : World where
  records := fun d => if d = 0 then Dict.ofList [("1.2", .str "ap1")] else ∅
  next := 3
  data := Dict.ofList [("ap_name", Dict.ofList [("device", 0)]),
    ("status", Dict.ofList [("1.2.0", 1), ("7", 2)])]

/-- The radio without an access point gets the device of the radio before it; where it comes
first, nothing is yielded. -/
theorem not_labelled_radioWorld :
    (postMergeWirelessApnameOnRadio .reversed "status" 3 radioWorld).raised = none
      ∧ ((postMergeWirelessApnameOnRadio .reversed "status" 3 radioWorld).world.records 2).lookup
        "device" = some (.str "ap1")
      ∧ (postMergeWirelessApnameOnRadio .stored "status" 3 radioWorld).ys = []
      ∧ (postMergeWirelessApnameOnRadio .stored "status" 3 radioWorld).raised ≠ none
      ∧ ¬ ∀ o, Labelled "status" radioWorld
        (postMergeWirelessApnameOnRadio o "status" 3 radioWorld) := by
  have hraised : (postMergeWirelessApnameOnRadio .stored "status" 3 radioWorld).raised ≠ none := by
    decide
  exact ⟨by decide, by decide, by decide, hraised, fun h => hraised (h .stored).raised⟩

end Driver
