/-
# Deadlines of the scheduling loop

One round of the loop takes one entry, and only when it is due, so that a pair may have to
wait for the entries before it.  The loop takes every pair, also those that the ring gives to
other hosts, and puts it back for its next time.

In every run that ends with as many rounds as there are pairs, each pair that the ring gives
to this host has been published no longer before these rounds than its period and its spread.
This holds also of a pair that this host has taken over from another one.
-/
import Ptolemy.SchedulerLoop

namespace Scheduler

open Heapq

/-! ## The latest time of an entry -/

theorem uniform_le {a b : ℚ} (h : a ≤ b) (r : Draw) : uniform a b r ≤ b := by
  unfold uniform
  have := mul_le_mul_of_nonneg_left r.le_one (sub_nonneg.mpr h)
  linarith

theorem delta_le {i : Yaml} {t d : ℚ} (h : _delta i = .ok (t, d)) {r : Draw} {x : ℚ}
    (hx : delta i r = .ok (some x)) : x ≤ t + d := by
  unfold delta at hx
  rw [h, Except.ok_bind] at hx
  simp only at hx
  have hd := (_delta_nonneg h).2
  split_ifs at hx
  · cases hx
  · cases hx
    have := uniform_le (show -1 * d ≤ d by linarith) r
    linarith
  · cases hx
    linarith

/-- An entry is due within the period and the spread, times the factor if it is larger than 1. -/
theorem dueTime_le {p : Parser} {n s : String} {node : Node} {factor : ℚ} {tick : Tick}
    (hnode : getNode p.settings p.nodes n = .ok (some node)) {t d : ℚ} (hevery : p.Every n s t d)
    {x : ℚ} (hx : dueTime node s factor tick = .ok (some x)) {c : ℚ} (hc : 1 ≤ c)
    (hfactor : factor ≤ c) : x ≤ tick.now + c * (t + d) := by
  obtain ⟨i, hi, htrue, hdelta, -⟩ := hevery
  obtain ⟨ht, hd⟩ := _delta_nonneg hdelta
  unfold Parser.period at hi
  simp only [hnode] at hi
  unfold dueTime getTimeDelta at hx
  cases hsched : node.sections.lookup "schedule" with
  | none => rw [hsched] at hi; cases hi
  | some specs =>
    rw [hsched, Option.bind_some] at hi
    rw [hsched] at hx
    simp only [Except.ok_bind, hi, htrue, if_true] at hx
    cases hy : delta i tick.spread with
    | error e => rw [hy] at hx; cases hx
    | ok y =>
      cases y with
      | none => rw [hy] at hx; cases hx
      | some y =>
        rw [hy] at hx
        cases hx
        have hle := delta_le hdelta hy
        have hone : t + d ≤ c * (t + d) := le_mul_of_one_le_left (by linarith) hc
        split_ifs with hpos
        · -- the start is drawn between 0 and the factor times the delta
          have hmul : factor * y ≤ c * (t + d) :=
            (mul_le_mul_of_nonneg_left hle hpos.le).trans
              (mul_le_mul_of_nonneg_right hfactor (by linarith))
          rcases le_total 0 (factor * y) with h0 | h0
          · have := uniform_le h0 tick.start
            linarith
          · have hneg : uniform 0 (factor * y) tick.start ≤ 0 := by
              unfold uniform
              have := mul_nonneg (neg_nonneg.mpr h0) tick.start.nonneg
              linarith
            linarith
        · linarith

/-- Taking an entry of a scheduled pair puts it back within its period and its spread. -/
theorem next_bounds {p : Parser} {e : Entry} {rest : List Entry} (tick : Tick)
    (hpop : heappop p.heap = some (e, rest)) {t d : ℚ} (hevery : p.Every e.node e.spec t d) :
    ∃ x, tick.now + (t - d) ≤ x ∧ x ≤ tick.now + (t + d)
      ∧ p.next tick = ({ p with heap := heappush rest ⟨x, e.node, e.spec⟩ }, .ok e) := by
  obtain ⟨node, hnode⟩ : ∃ node, getNode p.settings p.nodes e.node = .ok (some node) := by
    obtain ⟨i, hi, -⟩ := hevery
    unfold Parser.period at hi
    split at hi
    · exact ⟨_, ‹_›⟩
    · cases hi
  obtain ⟨x, hx, hlow⟩ := dueTime_of_every 0 tick hnode hevery
  have hup := dueTime_le hnode hevery hx (le_refl 1) zero_le_one
  refine ⟨x, hlow rfl, by rwa [one_mul] at hup, ?_⟩
  simp only [Parser.next, hpop, hnode, Parser.add, hx, getNode_name hnode]

/-! ## The first times -/

/-- What one call of `add` pushes, an entry with the time that it has computed. -/
theorem add_forall {P : Entry → Prop} {p q : Parser} {node : Node} {s : String} {factor : ℚ}
    {tick : Tick} {b : Bool}
    (hP : ∀ x, dueTime node s factor tick = .ok (some x) → P ⟨x, node.name, s⟩)
    (h : ∀ e ∈ p.heap, P e) (hadd : p.add (some node) s factor tick = .ok (q, b)) :
    q.settings = p.settings ∧ q.nodes = p.nodes ∧ ∀ e ∈ q.heap, P e := by
  unfold Parser.add at hadd
  simp only at hadd
  split at hadd
  · cases hadd
  · cases hadd
    exact ⟨rfl, rfl, h⟩
  · rename_i x hx
    cases hadd
    refine ⟨rfl, rfl, fun e he => ?_⟩
    rcases List.mem_cons.mp ((heappush_perm _ _).mem_iff.mp he) with rfl | he
    · exact hP x hx
    · exact h e he

theorem addSpecs_forall {P : Entry → Prop} {node : Node} {factor : ℚ} {ticks : String → Tick}
    (hP : ∀ s x, dueTime node s factor (ticks s) = .ok (some x) → P ⟨x, node.name, s⟩)
    (specs : List String) {p : Parser} (h : ∀ e ∈ p.heap, P e) :
    (p.addSpecs node factor ticks specs).1.settings = p.settings
      ∧ (p.addSpecs node factor ticks specs).1.nodes = p.nodes
      ∧ ∀ e ∈ (p.addSpecs node factor ticks specs).1.heap, P e := by
  induction specs generalizing p with
  | nil => exact ⟨rfl, rfl, h⟩
  | cons s specs ih =>
    cases hadd : p.add (some node) s factor (ticks s) with
    | error e =>
      simp only [Parser.addSpecs, hadd, true_and]
      exact h
    | ok qb =>
      obtain ⟨q, b⟩ := qb
      obtain ⟨hsettings, hnodes, hq⟩ := add_forall (hP s) h hadd
      obtain ⟨hsettings', hnodes', hr⟩ := ih hq
      simp only [Parser.addSpecs, hadd]
      exact ⟨hsettings'.trans hsettings, hnodes'.trans hnodes, hr⟩

theorem addNodes_forall {P : Entry → Prop} (wanted : String → String → Bool) {factor : ℚ}
    {ticks : String → String → Tick} {ns : List String} {p : Parser}
    (hP : ∀ n node, getNode p.settings p.nodes n = .ok (some node) →
      ∀ s x, dueTime node s factor (ticks n s) = .ok (some x) → P ⟨x, node.name, s⟩)
    (h : ∀ e ∈ p.heap, P e) : ∀ e ∈ (p.addNodes wanted factor ticks ns).1.heap, P e := by
  induction ns generalizing p with
  | nil => exact h
  | cons n ns ih =>
    unfold Parser.addNodes
    split
    · exact h
    · rename_i node' hnode
      split
      · rename_i specs node hspecs
        have hall := addSpecs_forall (hP n node hnode) (specs.filter (wanted n)) h
        split
        · rename_i q hq
          rw [hq] at hall
          obtain ⟨hsettings, hnodes, hheap⟩ := hall
          refine ih (fun n' node' hnode' => hP n' node' ?_) hheap
          rw [← hsettings, ← hnodes]
          exact hnode'
        · rename_i q e hq
          rw [hq] at hall
          exact hall.2.2
      · exact h
      · exact h

/-- `init_schedule` schedules a pair within three times its period and its spread. -/
theorem initSchedule_le {p : Parser} (hheap : p.heap = []) (ticks : String → String → Tick)
    {e : Entry} (he : e ∈ (p.initSchedule ticks).1.heap) {t d : ℚ}
    (hevery : p.Every e.node e.spec t d) :
    e.time ≤ (ticks e.node e.spec).now + 3 * (t + d) := by
  refine addNodes_forall (P := fun e => ∀ t d, p.Every e.node e.spec t d →
    e.time ≤ (ticks e.node e.spec).now + 3 * (t + d)) _ (fun n node hnode s x hx t d hevery => ?_)
    (fun e he => ?_) e he t d hevery
  · rw [getNode_name hnode] at hevery ⊢
    exact dueTime_le hnode hevery hx (by norm_num) (le_refl 3)
  · rw [hheap] at he
    exact absurd he List.not_mem_nil

/-! ## One round -/

/-- What a loop that goes on keeps: a complete schedule. -/
structure Going (p : Parser) (l : Loop) : Prop where
  running : l.running = true
  complete : Complete l.parser
  period : l.parser.period = p.period

/-- What a round makes of a loop that goes on. -/
inductive RoundOf (p : Parser) (l : Loop) (r : Round) (l' : Loop) : Prop
  /-- No entry is due. -/
  | waits (later : ∀ e ∈ l.parser.heap, r.now < e.time) (heap : l'.parser.heap.Perm l.parser.heap)
      (dispatched : l'.dispatched = l.dispatched)
  /-- An entry of least time is taken and put back. -/
  | takes (e : Entry) (rest : List Entry) (x t d : ℚ)
      (least : ∀ e' ∈ l.parser.heap, e.time ≤ e'.time)
      (due : e.time ≤ r.now) (every : p.Every e.node e.spec t d)
      (early : r.tick.now + (t - d) ≤ x) (late : x ≤ r.tick.now + (t + d))
      (heap : l.parser.heap.Perm (e :: rest))
      (heap' : l'.parser.heap.Perm (⟨x, e.node, e.spec⟩ :: rest))
      (dispatched : l'.dispatched =
        if r.mine e then ⟨e, r.now, r.tick.now⟩ :: l.dispatched else l.dispatched)

/-- A loop with some entries goes on. -/
theorem Going.round {p : Parser} {l : Loop} (h : Going p l) (hne : l.parser.heap ≠ []) (r : Round) :
    Going p (processTask l r) ∧ RoundOf p l r (processTask l r) := by
  cases hpop : heappop l.parser.heap with
  | none => exact absurd (heappop_eq_none.mp hpop) hne
  | some er =>
    obtain ⟨e, rest⟩ := er
    have hpeek := peek_of_pop hpop
    obtain ⟨⟨-, hleast⟩, hperm, ho, hperiod, rest', hpop'⟩ := peek_spec h.complete.ordered hpeek
    set q : Parser := { l.parser with heap := heappush rest e } with hq
    have hcomplete : Complete q := h.complete.congr ho (hperm.map Entry.pair) hperiod
    unfold processTask
    simp only [h.running, if_true, hpeek]
    split_ifs with hdue
    · obtain ⟨t, d, hevery⟩ : p.Scheduled e.node e.spec := by
        rw [← Parser.scheduled_congr h.period, ← h.complete.mem_iff]
        exact List.mem_map.mpr ⟨e, (heappop_perm hpop).mem_iff.mpr List.mem_cons_self, rfl⟩
      have hsame : q.period = p.period := hperiod.trans h.period
      obtain ⟨x, hlow, hup, hnext⟩ := next_bounds r.tick hpop'
        (show q.Every e.node e.spec t d by rw [Parser.every_congr hsame]; exact hevery)
      rw [hnext]
      refine ⟨⟨rfl, ?_, hsame⟩, ?_⟩
      · exact hcomplete.congr (ordered_heappush (ordered_heappop ho hpop') _)
          (pairs_push x hpop') rfl
      · exact .takes e rest' x t d (fun e' he' => Entry.time_le_of_le (hleast e' he'))
          (by linarith) hevery hlow hup (hperm.symm.trans (heappop_perm hpop'))
          (heappush_perm _ _) rfl
    · refine ⟨⟨rfl, hcomplete, hperiod.trans h.period⟩, .waits (fun e' he' => ?_) hperm rfl⟩
      have := Entry.time_le_of_le (hleast e' he')
      linarith

/-- The pairs are scheduled throughout. -/
theorem Going.heap_ne_nil {p : Parser} {l : Loop} (h : Going p l) {n s : String}
    (hsched : p.Scheduled n s) : l.parser.heap ≠ [] := by
  intro hnil
  have hmem : (n, s) ∈ l.parser.pairs :=
    (h.complete.mem_iff n s).mpr (Parser.scheduled_congr h.period ▸ hsched)
  rw [Parser.pairs, hnil] at hmem
  exact absurd hmem List.not_mem_nil

/-- There are always as many entries. -/
theorem Going.length_eq {p : Parser} {l l' : Loop} (h : Going p l) (h' : Going p l') :
    l.parser.heap.length = l'.parser.heap.length := by
  have hperm : l.parser.pairs.Perm l'.parser.pairs := by
    refine (List.perm_ext_iff_of_nodup h.complete.nodup h'.complete.nodup).mpr (fun ns => ?_)
    rw [h.complete.mem_iff, h'.complete.mem_iff, Parser.scheduled_congr (h.period.trans
      h'.period.symm)]
  have hlen := hperm.length_eq
  rwa [Parser.pairs, Parser.pairs, List.length_map, List.length_map] at hlen

/-! ## The entry of one pair -/

section pair

variable {p : Parser} {n s : String} {t d : ℚ} {bound c : ℚ} {l l' : Loop} {r : Round}

/-- The entry of the pair is due by `bound`, or within the period and the spread from when the pair
was published. -/
def Timely (n s : String) (t d bound : ℚ) (l : Loop) : Prop :=
  ∀ e ∈ l.parser.heap, e.pair = (n, s) →
    e.time ≤ bound ∨ ∃ x ∈ l.dispatched, x.entry.pair = (n, s) ∧ e.time ≤ x.time + (t + d)

/-- A round keeps this when it is early enough, or publishes the pair if it takes it. -/
theorem Timely.round (h : Timely n s t d bound l) (hevery : p.Every n s t d)
    (hround : RoundOf p l r l')
    (hr : r.tick.now + (t + d) ≤ bound ∨ ∀ e, e.pair = (n, s) → r.mine e = true) :
    Timely n s t d bound l' := by
  intro e' he' hpair
  cases hround with
  | waits _ heap dispatched =>
    rw [dispatched]
    exact h e' (heap.mem_iff.mp he') hpair
  | takes e rest x t' d' _ _ hevery' _ late heap heap' dispatched =>
    have hkept : ∀ y ∈ l.dispatched, y ∈ l'.dispatched := by
      intro y hy
      rw [dispatched]
      split_ifs
      · exact List.mem_cons_of_mem _ hy
      · exact hy
    rcases List.mem_cons.mp (heap'.mem_iff.mp he') with rfl | he'
    · -- the entry that was put back
      obtain ⟨rfl, rfl⟩ := Prod.mk.inj hpair
      obtain ⟨rfl, rfl⟩ := hevery.unique hevery'
      rcases hr with hr | hmine
      · exact Or.inl (late.trans hr)
      · refine Or.inr ⟨⟨e, r.now, r.tick.now⟩, ?_, rfl, late⟩
        rw [dispatched, if_pos (hmine e rfl)]
        exact List.mem_cons_self
    · rcases h e' (heap.mem_iff.mpr (List.mem_cons_of_mem e he')) hpair with hle | ⟨y, hy, hle⟩
      · exact Or.inl hle
      · exact Or.inr ⟨y, hkept y hy, hle⟩

/-- The entries that are due at `c`. -/
def overdue (c : ℚ) (l : Loop) : ℕ := l.parser.heap.countP (fun e => decide (e.time ≤ c))

/-- A round after `c` takes one of the entries that were due, if there is one. -/
theorem overdue_round (hlong : ∀ n s t d, p.Every n s t d → d < t) (hround : RoundOf p l r l')
    (hnow : c ≤ r.now) (htick : c ≤ r.tick.now) : overdue c l' ≤ overdue c l - 1 := by
  unfold overdue
  cases hround with
  | waits later heap _ =>
    have hnone : l.parser.heap.countP (fun e => decide (e.time ≤ c)) = 0 := by
      rw [List.countP_eq_zero]
      intro e he
      have := later e he
      rw [decide_eq_true_iff]
      linarith
    rw [heap.countP_eq, hnone]
  | takes e rest x t d least _ every early _ heap heap' _ =>
    have hx : ¬ x ≤ c := by
      have := hlong _ _ _ _ every
      linarith
    rw [heap'.countP_eq, List.countP_cons_of_neg (by simpa using hx)]
    by_cases he : e.time ≤ c
    · rw [heap.countP_eq, List.countP_cons_of_pos (by simpa using he), Nat.add_sub_cancel]
    · -- the first entry is not due, and so is no other
      refine le_of_eq_of_le (List.countP_eq_zero.mpr (fun e' he' => ?_)) (Nat.zero_le _)
      have := least e' (heap.mem_iff.mpr (List.mem_cons_of_mem e he'))
      rw [decide_eq_true_iff]
      linarith

end pair

/-! ## Runs -/

section runs

variable {p : Parser} {n s : String} {t d : ℚ} {bound c : ℚ} {l : Loop}

/-- A run of a loop that goes on. -/
theorem Going.run (h : Going p l) (hevery : p.Every n s t d) (htimely : Timely n s t d bound l)
    {rs : List Round} (hrs : ∀ r ∈ rs, r.tick.now + (t + d) ≤ bound ∨
      ∀ e, e.pair = (n, s) → r.mine e = true) :
    Going p (Run.run processTask l rs) ∧ Timely n s t d bound (Run.run processTask l rs) := by
  induction rs generalizing l with
  | nil => exact ⟨h, htimely⟩
  | cons r rs ih =>
    obtain ⟨hgoing, hround⟩ := h.round (h.heap_ne_nil ⟨t, d, hevery⟩) r
    exact ih hgoing (htimely.round hevery hround (hrs r List.mem_cons_self))
      (fun r' hr' => hrs r' (List.mem_cons_of_mem r hr'))

/-- As many rounds after `c` as entries were due take all of them. -/
theorem Going.overdue_run (h : Going p l) (hsched : p.Scheduled n s)
    (hlong : ∀ n s t d, p.Every n s t d → d < t) {rs : List Round}
    (hrs : ∀ r ∈ rs, c ≤ r.now ∧ c ≤ r.tick.now) :
    overdue c (Run.run processTask l rs) ≤ overdue c l - rs.length := by
  induction rs generalizing l with
  | nil => exact le_refl _
  | cons r rs ih =>
    obtain ⟨hgoing, hround⟩ := h.round (h.heap_ne_nil hsched) r
    obtain ⟨hnow, htick⟩ := hrs r List.mem_cons_self
    have hone := overdue_round hlong hround hnow htick
    have hrest := ih hgoing (fun r' hr' => hrs r' (List.mem_cons_of_mem r hr'))
    rw [List.length_cons]
    exact hrest.trans (by omega)

end runs

/-! ## Deadlines -/

/-- The loop at its start has the entries of `init_schedule`. -/
theorem going_start {p : Parser} (hheap : p.heap = []) {ticks : String → String → Tick}
    (hinit : (p.initSchedule ticks).2 = .ok ()) :
    Going p (start p ticks)
      ∧ (start p ticks).parser.heap.Perm (p.initSchedule ticks).1.heap := by
  obtain ⟨hcomplete, hperiod⟩ := complete_initSchedule hheap hinit
  refine ⟨⟨rfl, hcomplete.call .peek, (call_period _ .peek).trans hperiod⟩, ?_⟩
  cases hpop : heappop (p.initSchedule ticks).1.heap with
  | none =>
    rw [start, peek_empty (heappop_eq_none.mp hpop)]
  | some er =>
    rw [start, peek_of_pop hpop]
    exact (heappush_perm er.2 er.1).trans (heappop_perm hpop).symm

/-- **Deadlines.**  Every period being longer than its spread, let the ring give a pair with the
period `t +- d` to this host from the time `u` on.  After as many rounds past the time `c` as there
are pairs, the pair has been published later than `c - (t + d)`, unless less than `t + d` seconds
lie between `u` and `c`, or less than three times as many between the start and `c`. -/
theorem published_in_time {p : Parser} (hheap : p.heap = []) {ticks : String → String → Tick}
    (hinit : (p.initSchedule ticks).2 = .ok ()) (hlong : ∀ n s t d, p.Every n s t d → d < t)
    {n s : String} {t d : ℚ} (hevery : p.Every n s t d) {u c : ℚ} {before own last : List Round}
    (hu : ∀ r ∈ before, r.tick.now ≤ u)
    (hmine : ∀ r ∈ own ++ last, ∀ e, e.pair = (n, s) → r.mine e = true)
    (hlast : ∀ r ∈ last, c ≤ r.now ∧ c ≤ r.tick.now)
    (hlength : (p.initSchedule ticks).1.heap.length ≤ last.length) :
    c < (ticks n s).now + 3 * (t + d) ∨ c < u + (t + d)
      ∨ ∃ x ∈ (Run.run processTask (start p ticks) (before ++ (own ++ last))).dispatched,
        x.entry.pair = (n, s) ∧ c < x.time + (t + d) := by
  obtain ⟨hgoing, hperm⟩ := going_start hheap hinit
  set bound : ℚ := max ((ticks n s).now + 3 * (t + d)) (u + (t + d)) with hbound
  have htimely : Timely n s t d bound (start p ticks) := by
    intro e he hpair
    obtain ⟨rfl, rfl⟩ := Prod.mk.inj hpair
    exact Or.inl ((initSchedule_le hheap ticks (hperm.mem_iff.mp he) hevery).trans
      (le_max_left _ _))
  have hrs : ∀ r ∈ before ++ (own ++ last), r.tick.now + (t + d) ≤ bound ∨
      ∀ e, e.pair = (n, s) → r.mine e = true := by
    intro r hr
    rcases List.mem_append.mp hr with hr | hr
    · exact Or.inl ((add_le_add_left (hu r hr) _).trans (le_max_right _ _))
    · exact Or.inr (hmine r hr)
  have hall := hgoing.run hevery htimely hrs
  -- no entry is due at `c` after the last rounds
  have hnone : overdue c (Run.run processTask (start p ticks) (before ++ (own ++ last))) = 0 := by
    rw [← List.append_assoc, Run.run_append]
    rw [← List.append_assoc] at hrs
    have hmid := hgoing.run hevery htimely
      (fun r hr => hrs r (List.mem_append_left last hr))
    have hle := hmid.1.overdue_run ⟨t, d, hevery⟩ hlong hlast
    have hcount : overdue c (Run.run processTask (start p ticks) (before ++ own))
        ≤ (p.initSchedule ticks).1.heap.length := by
      rw [← hperm.length_eq, hgoing.length_eq hmid.1]
      exact List.countP_le_length
    omega
  generalize Run.run processTask (start p ticks) (before ++ (own ++ last)) = l at hall hnone ⊢
  obtain ⟨hgoing', htimely'⟩ := hall
  -- the entry of the pair
  obtain ⟨e, he, hpair⟩ : ∃ e ∈ l.parser.heap, e.pair = (n, s) := by
    have hmem : (n, s) ∈ l.parser.pairs := (hgoing'.complete.mem_iff n s).mpr
      (Parser.scheduled_congr hgoing'.period ▸ ⟨t, d, hevery⟩)
    exact List.mem_map.mp hmem
  have hc : c < e.time := by
    have := List.countP_eq_zero.mp hnone e he
    rw [decide_eq_true_iff] at this
    exact not_le.mp this
  rcases htimely' e he hpair with hle | ⟨x, hx, hpair', hle⟩
  · rcases le_max_iff.mp hle with hle | hle
    · exact Or.inl (hc.trans_le hle)
    · exact Or.inr (Or.inl (hc.trans_le hle))
  · exact Or.inr (Or.inr ⟨x, hx, hpair', hc.trans_le hle⟩)

/-! ## Two hosts -/

/-- The pairs of the small configuration all have the period that its file gives. -/
theorem every_twoHosts {n s : String} {t d : ℚ}
    (h : (sampleParser "60 +- 4" ["a", "b"]).Every n s t d) : t = 60 ∧ d = 4 := by
  have hpairs : ((sampleParser "60 +- 4" ["a", "b"]).initSchedule (fun _ _ => tickAt 0)).1.pairs
      = [("a", "ports"), ("b", "ports")] := by
    decide +kernel
  obtain ⟨hcomplete, hsame⟩ := @complete_initSchedule (sampleParser "60 +- 4" ["a", "b"]) rfl
    (fun _ _ => tickAt 0) (by decide)
  have hmem := (hcomplete.mem_iff n s).mpr (Parser.scheduled_congr hsame ▸ ⟨t, d, h⟩)
  have hperiod : (sampleParser "60 +- 4" ["a", "b"]).period n s
      = some (.str (periodText 1 1 60 4)) := by
    rw [hpairs, List.mem_cons, List.mem_singleton] at hmem
    rcases hmem with hmem | hmem
    · obtain ⟨rfl, rfl⟩ := Prod.mk.inj hmem
      rfl
    · obtain ⟨rfl, rfl⟩ := Prod.mk.inj hmem
      rfl
  obtain ⟨ht, hd⟩ := h.unique (every_of_periodText (by norm_num) hperiod)
  exact ⟨by exact_mod_cast ht.symm, by exact_mod_cast hd.symm⟩

end Scheduler
