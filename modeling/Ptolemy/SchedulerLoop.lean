/-
# The scheduling loop

The loop of the scheduler daemon looks at the first entry; when it is due, it
takes it and publishes a request for its pair, if the pair belongs to this host.
In every run with a clock that does not go back, a request is not published
before its time, and two requests for one pair are at least the period less the
spread apart.
-/
import Ptolemy.SchedulerRuns

namespace Scheduler

open Heapq

/-! ## The loop -/

/-- One round of the loop: the clock when the first entry is looked at, what `next` takes from
its surroundings, and which items the ring gives to this host. -/
structure Round where
  now : ℚ
  tick : Tick
  mine : Entry → Bool

/-- A published request: the entry as it was taken, the clock when it was found due, and the
clock when it was taken and scheduled again. -/
structure Dispatch where
  entry : Entry
  due : ℚ
  time : ℚ

/-- The daemon: its parser, whether the loop goes on, and what it has published, the latest
first. -/
structure Loop where
  parser : Parser
  running : Bool
  dispatched : List Dispatch

/-- The loop after one round. An exception ends it. -/
def processTask (l : Loop) (r : Round) : Loop :=
  if l.running then
    match l.parser.peek with
    | (p, .error _) => { l with parser := p, running := false }
    | (p, .ok e) =>
        if e.time - r.now ≤ 0 then
          match p.next r.tick with
          | (p, .error _) => { l with parser := p, running := false }
          | (p, .ok e) =>
              { l with
                parser := p
                dispatched :=
                  if r.mine e then ⟨e, r.now, r.tick.now⟩ :: l.dispatched else l.dispatched }
        else { l with parser := p }
  else l

/-- The loop at its start: the schedule is filled and the first entry looked at. -/
def start (p : Parser) (ticks : String → String → Tick) : Loop :=
  ⟨(p.initSchedule ticks).1.peek.1, true, []⟩

/-- The clock readings of the rounds, in their order. -/
def readings (rs : List Round) : List ℚ := rs.flatMap (fun r => [r.now, r.tick.now])

/-! ## The text of a period -/

/-- A period of `p` seconds with a spread of `q`, as it is written in a file; blanks may stand
around the sign. -/
def periodText (l r : ℕ) (p q : ℕ) : String :=
  String.ofList (Nat.toDigits 10 p ++ List.replicate l ' ' ++ ['+', '-'] ++ List.replicate r ' '
    ++ Nat.toDigits 10 q)

theorem span_append {P : Char → Bool} {l m : List Char} (h : ∀ c ∈ l, P c = true)
    (hm : ∀ c ∈ m.head?, P c = false) :
    (l ++ m).takeWhile P = l ∧ (l ++ m).dropWhile P = m := by
  rw [List.takeWhile_append_of_pos h, List.dropWhile_append_of_pos h]
  cases m with
  | nil => exact ⟨List.append_nil l, rfl⟩
  | cons c m =>
    have hc : ¬ P c = true := by
      rw [hm c rfl]
      exact Bool.false_ne_true
    rw [List.takeWhile_cons_of_neg hc, List.dropWhile_cons_of_neg hc]
    exact ⟨List.append_nil l, rfl⟩

theorem isDigit_of_mem {n : ℕ} : ∀ c ∈ Nat.toDigits 10 n, c.isDigit = true :=
  fun _ hc => Nat.isDigit_of_mem_toDigits (by decide) (by decide) hc

theorem ascii_of_isDigit {c : Char} (h : c.isDigit = true) : c.toNat < 128 := by
  simp only [Char.isDigit, Bool.and_eq_true, decide_eq_true_eq] at h
  have hle : c.toNat ≤ 57 := h.2
  omega

theorem isDigit_head_toDigits (n : ℕ) (m : List Char) :
    ∃ c cs, Nat.toDigits 10 n ++ m = c :: cs ∧ c.isDigit = true := by
  cases hd : Nat.toDigits 10 n with
  | nil => exact absurd hd Nat.toDigits_ne_nil
  | cons c cs => exact ⟨c, cs ++ m, rfl, isDigit_of_mem c (hd ▸ List.mem_cons_self)⟩

theorem spreadOf_periodText (l r q : ℕ) :
    spreadOf (List.replicate l ' ' ++ '+' :: '-' :: (List.replicate r ' ' ++ Nat.toDigits 10 q))
      = some q := by
  have hblank : ∀ k, ∀ c ∈ List.replicate k ' ', Text.isSpace c = true := by
    intro k c hc
    rw [List.eq_of_mem_replicate hc]
    decide
  have hsign := (span_append (hblank l)
    (m := '+' :: '-' :: (List.replicate r ' ' ++ Nat.toDigits 10 q)) (by
      intro c hc
      cases hc
      decide)).2
  have hdigits := (span_append (hblank r) (m := Nat.toDigits 10 q) (by
    intro c hc
    obtain ⟨c', cs, hcons, hdigit⟩ := isDigit_head_toDigits q []
    rw [List.append_nil] at hcons
    rw [hcons] at hc
    cases hc
    exact Text.isSpace_of_isDigit hdigit)).2
  have htake := (span_append (isDigit_of_mem (n := q)) (m := []) (by simp)).1
  rw [List.append_nil] at htake
  unfold spreadOf
  simp only [hsign, hdigits, htake, Option.bind_some, Text.nat?_toDigits]

/-- A text without characters beyond ASCII needs no decoding. -/
theorem _delta_of_searchDelta {s : String} (hascii : ∀ c ∈ s.toList, c.toNat < 128) {t : ℕ}
    {d : Option ℕ} (hsearch : searchDelta s.toList = some (t, d)) :
    _delta (.str s) = .ok ((t : ℚ), (d.getD 0 : ℕ)) := by
  have hall : s.toList.all (fun c => c.toNat < 128) = true :=
    List.all_eq_true.mpr (fun c hc => decide_eq_true (hascii c hc))
  unfold _delta Yaml.toText
  simp only [hall, if_true, Except.ok_bind, hsearch]

/-- The code reads the period and the spread of such a text. -/
theorem _delta_periodText (l r p q : ℕ) :
    _delta (.str (periodText l r p q)) = .ok ((p : ℚ), (q : ℚ)) := by
  -- the search starts at the first digit, and the sign stops the digits of the period
  have hsearch : searchDelta (periodText l r p q).toList = some (p, some q) := by
    have hlist : (periodText l r p q).toList = Nat.toDigits 10 p ++ (List.replicate l ' ' ++
        '+' :: '-' :: (List.replicate r ' ' ++ Nat.toDigits 10 q)) := by
      simp [periodText]
    have hsign : ∀ c ∈ (List.replicate l ' ' ++
        '+' :: '-' :: (List.replicate r ' ' ++ Nat.toDigits 10 q)).head?, c.isDigit = false := by
      intro c hc
      cases l with
      | zero => cases hc; decide
      | succ l => cases hc; decide
    obtain ⟨c, cs, hcons, hdigit⟩ := isDigit_head_toDigits p (List.replicate l ' ' ++
      '+' :: '-' :: (List.replicate r ' ' ++ Nat.toDigits 10 q))
    have hdrop := List.dropWhile_cons_of_neg (p := fun c : Char => !c.isDigit) (a := c) (l := cs)
      (by simp [hdigit])
    rw [← hcons] at hdrop
    obtain ⟨htake, hrest⟩ := span_append (isDigit_of_mem (n := p)) hsign
    unfold searchDelta
    simp only [hlist, hdrop, htake, hrest, Text.nat?_toDigits, Option.map_some,
      spreadOf_periodText]
  -- digits, spaces and the two signs
  have hascii : ∀ c ∈ (periodText l r p q).toList, c.toNat < 128 := by
    intro c hc
    simp only [periodText, String.toList_ofList, List.mem_append, List.mem_replicate,
      List.mem_cons, List.not_mem_nil, or_false] at hc
    rcases hc with (((hc | ⟨-, rfl⟩) | rfl | rfl) | ⟨-, rfl⟩) | hc
    · exact ascii_of_isDigit (isDigit_of_mem c hc)
    · decide
    · decide
    · decide
    · decide
    · exact ascii_of_isDigit (isDigit_of_mem c hc)
  exact _delta_of_searchDelta hascii hsearch

/-- A pair with such a text as its period. -/
theorem every_of_periodText {p : Parser} {n s : String} {l r a b : ℕ} (hab : b < a)
    (h : p.period n s = some (.str (periodText l r a b))) : p.Every n s a b := by
  refine ⟨_, h, ?_, _delta_periodText l r a b, ?_⟩
  · obtain ⟨c, cs, hcons, -⟩ := isDigit_head_toDigits a
      (List.replicate l ' ' ++ (['+', '-'] ++ (List.replicate r ' ' ++ Nat.toDigits 10 b)))
    have hne : periodText l r a b ≠ "" := by
      intro hempty
      have hnil : (periodText l r a b).toList = [] := by rw [hempty]; rfl
      simp only [periodText, String.toList_ofList, List.append_assoc] at hnil
      rw [hcons] at hnil
      cases hnil
    simpa [Yaml.truthy] using hne
  · exact Nat.cast_ne_zero.mpr (by omega)

/-! ## The invariant of the loop -/

/-- What the loop keeps: a complete schedule, and for each published request that the entry of
its pair is not due before the period less the spread has passed since. -/
structure Spaced (p : Parser) (now : ℚ) (l : Loop) : Prop where
  complete : Complete l.parser
  period : l.parser.period = p.period
  past : ∀ d ∈ l.dispatched, d.time ≤ now
  next : ∀ d ∈ l.dispatched, ∀ e ∈ l.parser.heap, e.pair = d.entry.pair →
    ∀ t s, p.Every e.node e.spec t s → d.time + (t - s) ≤ e.time
  spaced : l.dispatched.Pairwise (fun d' d => d'.entry.pair = d.entry.pair →
    ∀ t s, p.Every d.entry.node d.entry.spec t s → d.time + (t - s) ≤ d'.due)
  due : ∀ d ∈ l.dispatched, d.entry.time ≤ d.due ∧ d.due ≤ d.time

theorem Spaced.mono {p : Parser} {now now' : ℚ} {l : Loop} (h : Spaced p now l)
    (hle : now ≤ now') : Spaced p now' l :=
  ⟨h.complete, h.period, fun d hd => (h.past d hd).trans hle, h.next, h.spaced, h.due⟩

/-- Looking at the first entry keeps the invariant. -/
theorem Spaced.look {p q : Parser} {now : ℚ} {l : Loop} (h : Spaced p now l) {e : Entry}
    (hpeek : l.parser.peek = (q, .ok e)) (b : Bool) : Spaced p now ⟨q, b, l.dispatched⟩ := by
  obtain ⟨-, hperm, ho, hperiod, -⟩ := peek_spec h.complete.ordered hpeek
  exact ⟨h.complete.congr ho (hperm.map Entry.pair) hperiod, hperiod.trans h.period, h.past,
    fun d hd e' he' => h.next d hd e' (hperm.mem_iff.mp he'), h.spaced, h.due⟩

/-- Taking the first entry, which is due, and scheduling it again keeps the invariant. -/
theorem Spaced.take {p : Parser} {now : ℚ} {l : Loop} (h : Spaced p now l) {e : Entry}
    {rest : List Entry} (hpop : heappop l.parser.heap = some (e, rest)) {due : ℚ} {tick : Tick}
    (hdue : e.time ≤ due) (hnow : now ≤ due) (htick : due ≤ tick.now) (mine : Bool) :
    ∃ q, l.parser.next tick = (q, .ok e) ∧ Spaced p tick.now
      ⟨q, l.running, if mine then ⟨e, due, tick.now⟩ :: l.dispatched else l.dispatched⟩ := by
  obtain ⟨x, t, s, hevery, hx, hnext⟩ := h.complete.next tick hpop
  rw [Parser.every_congr h.period] at hevery
  have hperm := heappop_perm hpop
  have hmem : e ∈ l.parser.heap := hperm.mem_iff.mpr List.mem_cons_self
  have hcomplete : Complete { l.parser with heap := heappush rest ⟨x, e.node, e.spec⟩ } :=
    h.complete.congr (ordered_heappush (ordered_heappop h.complete.ordered hpop) _)
      (pairs_push x hpop) rfl
  -- the other entries are of other pairs
  have hother : ∀ e' ∈ rest, e'.pair ≠ e.pair := by
    have hnd := (hperm.map Entry.pair).nodup_iff.mp h.complete.nodup
    rw [List.map_cons, List.nodup_cons] at hnd
    intro e' he' heq
    exact hnd.1 (List.mem_map.mpr ⟨e', he', heq⟩)
  have hback : ∀ e' ∈ heappush rest ⟨x, e.node, e.spec⟩,
      e' = ⟨x, e.node, e.spec⟩ ∨ e' ∈ rest := by
    intro e' he'
    exact List.mem_cons.mp ((heappush_perm rest _).mem_iff.mp he')
  -- nothing published so far is too close to the new entry
  have hnew : ∀ d : Dispatch, d.time ≤ tick.now → ∀ t' s', p.Every e.node e.spec t' s' →
      d.time + (t' - s') ≤ x := by
    intro d hd t' s' hevery'
    obtain ⟨rfl, rfl⟩ := hevery.unique hevery'
    linarith
  -- without a dispatch the entry only moves to its next time
  have hold : Spaced p tick.now
      ⟨{ l.parser with heap := heappush rest ⟨x, e.node, e.spec⟩ }, l.running, l.dispatched⟩ := by
    refine ⟨hcomplete, h.period, fun d hd => ?_, fun d hd e' he' hpair => ?_, h.spaced, h.due⟩
    · exact (h.past d hd).trans (hnow.trans htick)
    · rcases hback e' he' with rfl | he'
      · exact hnew d ((h.past d hd).trans (hnow.trans htick))
      · exact h.next d hd e' (hperm.mem_iff.mpr (List.mem_cons_of_mem e he')) hpair
  refine ⟨_, hnext, ?_⟩
  cases mine with
  | false => exact hold
  | true =>
    refine ⟨hcomplete, h.period, fun d hd => ?_, fun d hd e' he' hpair => ?_, ?_, fun d hd => ?_⟩
    · rcases List.mem_cons.mp hd with rfl | hd
      · exact le_refl _
      · exact hold.past d hd
    · rcases List.mem_cons.mp hd with rfl | hd
      · rcases hback e' he' with rfl | he'
        · exact hnew _ (le_refl _)
        · exact absurd hpair (hother e' he')
      · exact hold.next d hd e' he' hpair
    · -- the dispatch itself: the entry it takes was due no earlier than the spacing asks
      refine List.pairwise_cons.mpr ⟨fun d hd hpair t' s' hevery' => ?_, h.spaced⟩
      obtain ⟨hn, hs⟩ := Prod.mk.inj hpair
      rw [← hn, ← hs] at hevery'
      exact (h.next d hd e hmem hpair t' s' hevery').trans hdue
    · rcases List.mem_cons.mp hd with rfl | hd
      · exact ⟨hdue, htick⟩
      · exact h.due d hd

/-- One round keeps the invariant. -/
theorem Spaced.processTask {p : Parser} {now : ℚ} {l : Loop} (h : Spaced p now l) {r : Round}
    (hnow : now ≤ r.now) (htick : r.now ≤ r.tick.now) :
    Spaced p r.tick.now (processTask l r) := by
  have hlater := h.mono (hnow.trans htick)
  unfold Scheduler.processTask
  split_ifs with hrun
  · split
    · rename_i q err hpeek
      cases hpop : heappop l.parser.heap with
      | none =>
        have hq : q = l.parser := by
          rw [peek_empty (heappop_eq_none.mp hpop)] at hpeek
          exact (Prod.mk.inj hpeek).1.symm
        rw [hq]
        exact ⟨hlater.complete, hlater.period, hlater.past, hlater.next, hlater.spaced,
          hlater.due⟩
      | some er =>
        rw [peek_of_pop hpop] at hpeek
        cases hpeek
    · rename_i q e hpeek
      -- an entry that is not due is looked at only
      split_ifs with hdue
      · obtain ⟨-, -, -, -, rest, hpop⟩ := peek_spec h.complete.ordered hpeek
        obtain ⟨q', hnext, hspaced⟩ := (h.look hpeek l.running).take hpop
          (show e.time ≤ r.now by linarith) hnow htick (r.mine e)
        rw [hnext]
        exact hspaced
      · exact hlater.look hpeek l.running
  · exact hlater

/-! ## Runs -/

/-- The invariant holds at the start, whatever the clock reads. -/
theorem spaced_start {p : Parser} (hheap : p.heap = []) {ticks : String → String → Tick}
    (hinit : (p.initSchedule ticks).2 = .ok ()) (now : ℚ) : Spaced p now (start p ticks) := by
  obtain ⟨hcomplete, hperiod⟩ := complete_initSchedule hheap hinit
  exact ⟨hcomplete.call .peek, (call_period _ .peek).trans hperiod,
    fun d hd => absurd hd List.not_mem_nil, fun d hd => absurd hd List.not_mem_nil,
    List.Pairwise.nil, fun d hd => absurd hd List.not_mem_nil⟩

/-- The invariant holds after every run with a clock that does not go back. -/
theorem Spaced.run {p : Parser} {now : ℚ} {l : Loop} (h : Spaced p now l) {rs : List Round}
    (hclock : (now :: readings rs).Pairwise (· ≤ ·)) :
    ∃ now', Spaced p now' (Run.run Scheduler.processTask l rs) := by
  induction rs generalizing now l with
  | nil => exact ⟨now, h⟩
  | cons r rs ih =>
    rw [readings, List.flatMap_cons] at hclock
    simp only [List.cons_append, List.nil_append, List.pairwise_cons, List.mem_cons] at hclock
    obtain ⟨hnow, htick, hrest, hpairwise⟩ := hclock
    exact ih (h.processTask (hnow _ (Or.inl rfl)) (htick _ (Or.inl rfl)))
      (List.pairwise_cons.mpr ⟨hrest, hpairwise⟩)

theorem spaced_run {p : Parser} (hheap : p.heap = []) {ticks : String → String → Tick}
    (hinit : (p.initSchedule ticks).2 = .ok ()) {rs : List Round}
    (hclock : (readings rs).Pairwise (· ≤ ·)) :
    ∃ now, Spaced p now (Run.run processTask (start p ticks) rs) := by
  cases rs with
  | nil => exact ⟨0, spaced_start hheap hinit 0⟩
  | cons r rs =>
    refine (spaced_start hheap hinit r.now).run ?_
    have hfirst : readings (r :: rs) = r.now :: r.tick.now :: readings rs := rfl
    rw [hfirst] at hclock ⊢
    refine List.pairwise_cons.mpr ⟨fun x hx => ?_, hclock⟩
    rcases List.mem_cons.mp hx with rfl | hx
    · exact le_refl _
    · exact (List.pairwise_cons.mp hclock).1 x hx

/-- **Rate limit.**  In every run of the loop on a schedule that `init_schedule` has filled, with a
clock that does not go back, any draws and any ring, a request is published when its entry is due,
and of two requests for one pair with the period 'a +- b' the later one is found due at least
`a - b` seconds after the earlier one was taken. -/
theorem dispatched_spaced {p : Parser} (hheap : p.heap = []) {ticks : String → String → Tick}
    (hinit : (p.initSchedule ticks).2 = .ok ()) {rs : List Round}
    (hclock : (readings rs).Pairwise (· ≤ ·)) :
    (Run.run processTask (start p ticks) rs).dispatched.Pairwise (fun d' d =>
        d'.entry.pair = d.entry.pair → ∀ l r a b : ℕ, b < a →
          p.period d.entry.node d.entry.spec = some (.str (periodText l r a b)) →
          d.time + ((a : ℚ) - b) ≤ d'.due)
      ∧ ∀ d ∈ (Run.run processTask (start p ticks) rs).dispatched,
        d.entry.time ≤ d.due ∧ d.due ≤ d.time := by
  obtain ⟨now, hspaced⟩ := spaced_run hheap hinit hclock
  refine ⟨hspaced.spaced.imp (fun h hpair l r a b hab hperiod => ?_), hspaced.due⟩
  exact h hpair a b (every_of_periodText hab hperiod)

/-- The loop on one host, in rounds at 100, 155 and 156. -/
def oneHost : Loop :=
  Run.run processTask (start (sampleParser "60 +- 4" ["a"]) (fun _ _ => tickAt 100))
    [⟨100, tickAt 100, fun _ => true⟩, ⟨155, tickAt 155, fun _ => true⟩,
      ⟨156, tickAt 156, fun _ => true⟩]

/-- A host is polled when its entry is due, at 100 and then at 156. -/
theorem dispatched_spaced_oneHost :
    oneHost.dispatched.length = 2
      ∧ oneHost.dispatched.Pairwise (fun d' d => d'.entry.pair = d.entry.pair →
        ∀ l r a b : ℕ, b < a → (sampleParser "60 +- 4" ["a"]).period d.entry.node d.entry.spec
            = some (.str (periodText l r a b)) → d.time + ((a : ℚ) - b) ≤ d'.due)
      ∧ ∀ d ∈ oneHost.dispatched, d.entry.time ≤ d.due ∧ d.due ≤ d.time :=
  ⟨by decide +kernel, dispatched_spaced rfl (by decide) (by decide)⟩

end Scheduler
