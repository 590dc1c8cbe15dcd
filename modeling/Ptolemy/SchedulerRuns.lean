/-
# The schedule without reloads

After `init_schedule` has filled an empty heap, every scheduled pair has exactly
one entry and there are no others, whatever is taken from the heap and put back.
`peek` shows an entry of least time, and the next `next` takes that same entry.
-/
import Ptolemy.SchedulerSteps
import Ptolemy.Run

namespace Scheduler

open Heapq

/-! ## Looking at the first entry -/

/-- Of two equal ordered heaps the same entry is popped. -/
theorem pop_eq_of_perm {heap heap' rest : List Entry} {e : Entry} (ho : Ordered heap)
    (ho' : Ordered heap') (hperm : heap'.Perm heap) (h : heappop heap = some (e, rest)) :
    ∃ rest', heappop heap' = some (e, rest') := by
  have hmem : e ∈ heap := (heappop_perm h).mem_iff.mpr List.mem_cons_self
  cases h' : heappop heap' with
  | none =>
    rw [heappop_eq_none] at h'
    subst h'
    exact absurd (hperm.mem_iff.mpr hmem) List.not_mem_nil
  | some er =>
    obtain ⟨e', rest'⟩ := er
    have hmem' : e' ∈ heap' := (heappop_perm h').mem_iff.mpr List.mem_cons_self
    have hle : e ≤ e' := heappop_le ho h (hperm.mem_iff.mp hmem')
    have hle' : e' ≤ e := heappop_le ho' h' (hperm.mem_iff.mpr hmem)
    exact ⟨rest', by rw [le_antisymm hle hle']⟩

/-- `peek` shows a least entry, and leaves the entries and the configuration as they are. -/
theorem peek_spec {p q : Parser} {e : Entry} (ho : Ordered p.heap) (h : p.peek = (q, .ok e)) :
    (e ∈ p.heap ∧ ∀ e' ∈ p.heap, e ≤ e') ∧ q.heap.Perm p.heap ∧ Ordered q.heap
      ∧ q.period = p.period ∧ ∃ rest, heappop q.heap = some (e, rest) := by
  cases hpop : heappop p.heap with
  | none =>
    unfold Parser.peek at h
    rw [hpop] at h
    cases h
  | some er =>
    obtain ⟨e', rest⟩ := er
    rw [peek_of_pop hpop] at h
    cases h
    have hperm : (heappush rest e).Perm p.heap :=
      (heappush_perm rest e).trans (heappop_perm hpop).symm
    have hord : Ordered (heappush rest e) := ordered_heappush (ordered_heappop ho hpop) e
    exact ⟨⟨(heappop_perm hpop).mem_iff.mpr List.mem_cons_self,
      fun e' he' => heappop_le ho hpop he'⟩, hperm, hord, rfl, pop_eq_of_perm ho hord hperm hpop⟩

theorem peek_empty {p : Parser} (h : p.heap = []) : p.peek = (p, .error Parser.indexError) := by
  unfold Parser.peek
  rw [h]
  rfl

/-! ## The invariant -/

/-- The heap is ordered and holds just one entry for each scheduled pair. -/
structure Complete (p : Parser) : Prop where
  ordered : Ordered p.heap
  nodup : p.pairs.Nodup
  mem_iff : ∀ n s, (n, s) ∈ p.pairs ↔ p.Scheduled n s

theorem Complete.congr {p q : Parser} (h : Complete p) (ho : Ordered q.heap)
    (hpairs : q.pairs.Perm p.pairs) (hperiod : q.period = p.period) : Complete q := by
  refine ⟨ho, hpairs.nodup_iff.mpr h.nodup, fun n s => ?_⟩
  rw [hpairs.mem_iff, h.mem_iff, Parser.scheduled_congr hperiod]

/-- The first entry of a complete heap is put back by `next`. -/
theorem Complete.next {p : Parser} (h : Complete p) (tick : Tick) {e : Entry} {rest : List Entry}
    (hpop : heappop p.heap = some (e, rest)) :
    ∃ x t d, p.Every e.node e.spec t d ∧ tick.now + (t - d) ≤ x
      ∧ p.next tick = ({ p with heap := heappush rest ⟨x, e.node, e.spec⟩ }, .ok e) := by
  rcases next_of_pop tick hpop with hback | ⟨hnot, -⟩
  · exact hback
  · have hmem : e ∈ p.heap := (heappop_perm hpop).mem_iff.mpr List.mem_cons_self
    exact absurd ((h.mem_iff e.node e.spec).mp (List.mem_map.mpr ⟨e, hmem, rfl⟩)) hnot

/-- Putting an entry of the pair back keeps the pairs. -/
theorem pairs_push {p : Parser} {e : Entry} {rest : List Entry} (x : ℚ)
    (hpop : heappop p.heap = some (e, rest)) :
    (Parser.pairs { p with heap := heappush rest ⟨x, e.node, e.spec⟩ }).Perm p.pairs :=
  ((heappush_perm rest _).map Entry.pair).trans ((heappop_perm hpop).map Entry.pair).symm

/-- With an empty heap a call changes nothing. -/
theorem call_of_empty {p : Parser} (hpop : heappop p.heap = none) (c : Call) : call p c = p := by
  cases c <;> simp only [call, Parser.peek, Parser.next, hpop]

/-- A call of the scheduling loop keeps the invariant. -/
theorem Complete.call {p : Parser} (h : Complete p) (c : Call) : Complete (call p c) := by
  cases hpop : heappop p.heap with
  | none =>
    rw [call_of_empty hpop]
    exact h
  | some er =>
    obtain ⟨e, rest⟩ := er
    cases c with
    | peek =>
      have hpeek := peek_of_pop hpop
      obtain ⟨-, hperm, ho, hperiod, -⟩ := peek_spec h.ordered hpeek
      have hcall : Scheduler.call p .peek = { p with heap := heappush rest e } := by
        rw [Scheduler.call, hpeek]
      rw [hcall]
      exact h.congr ho (hperm.map Entry.pair) hperiod
    | next tick =>
      obtain ⟨x, t, d, -, -, hnext⟩ := h.next tick hpop
      have hcall : Scheduler.call p (.next tick)
          = { p with heap := heappush rest ⟨x, e.node, e.spec⟩ } := by
        rw [Scheduler.call, hnext]
      rw [hcall]
      exact h.congr (ordered_heappush (ordered_heappop h.ordered hpop) _) (pairs_push x hpop) rfl

/-- `init_schedule` fills an empty heap. -/
theorem complete_initSchedule {p : Parser} (hheap : p.heap = [])
    {ticks : String → String → Tick} (hinit : (p.initSchedule ticks).2 = .ok ()) :
    Complete (p.initSchedule ticks).1 ∧ (p.initSchedule ticks).1.period = p.period := by
  unfold Parser.initSchedule at hinit ⊢
  obtain ⟨l, hl, hall⟩ := addNodes_filled (fun _ _ => true) 3 ticks p.nodes.keys_nodup p
  have hpairs := hl.pairs
  rw [show p.pairs = [] by rw [Parser.pairs, hheap]; rfl, List.append_nil] at hpairs
  refine ⟨⟨hl.ordered ?_, hpairs.nodup_iff.mpr hl.nodup, fun n s => ?_⟩, hl.period⟩
  · rw [hheap]
    intro i a b ha
    cases ha
  · rw [hpairs.mem_iff, Parser.scheduled_congr hl.period]
    constructor
    · intro hmem
      obtain ⟨e, he, heq⟩ := List.mem_map.mp hmem
      obtain ⟨rfl, rfl⟩ := Prod.mk.inj heq
      exact (hl.mem e he).2
    · intro hsched
      exact hall hinit n s ⟨AList.mem_keys.mpr hsched.named.mem_nodes, rfl⟩ hsched

/-! ## Runs -/

/-- A call changes the heap alone. -/
theorem call_period (p : Parser) (c : Call) : (call p c).period = p.period := by
  cases hpop : heappop p.heap with
  | none => cases c <;> simp only [call, Parser.peek, Parser.next, hpop]
  | some er =>
    obtain ⟨e, rest⟩ := er
    cases c with
    | peek => rw [call, peek_of_pop hpop]; rfl
    | next tick =>
      rcases next_of_pop tick hpop with ⟨x, t, d, -, -, hnext⟩ | ⟨-, hnext⟩
      · rw [call, hnext]; rfl
      · rw [call, hnext]; rfl

/-- The parser after `init_schedule` and some calls. -/
def Parser.after (p : Parser) (ticks : String → String → Tick) (cs : List Call) : Parser :=
  Run.run call (p.initSchedule ticks).1 cs

/-- The invariant holds throughout. -/
theorem complete_after {p : Parser} (hheap : p.heap = []) {ticks : String → String → Tick}
    (hinit : (p.initSchedule ticks).2 = .ok ()) (cs : List Call) :
    Complete (p.after ticks cs) ∧ (p.after ticks cs).period = p.period := by
  have hstep : ∀ (q : Parser) (c : Call), Complete q ∧ q.period = p.period →
      Complete (call q c) ∧ (call q c).period = p.period :=
    fun q c h => ⟨h.1.call c, (call_period q c).trans h.2⟩
  exact (Run.Always.of_step hstep (complete_initSchedule hheap hinit) cs).last

/-- **Conservation.**  After `init_schedule` and any calls, with any clock and any draws, the heap
holds just one entry for each scheduled pair and no others; `peek` shows an entry of least time,
leaves the entries as they are, and the following `next` returns the same entry. -/
theorem conserved_after {p : Parser} (hheap : p.heap = []) {ticks : String → String → Tick}
    (hinit : (p.initSchedule ticks).2 = .ok ()) (cs : List Call) :
    (p.after ticks cs).pairs.Nodup
      ∧ (∀ n s, (n, s) ∈ (p.after ticks cs).pairs ↔ p.Scheduled n s)
      ∧ ((p.after ticks cs).heap ≠ [] → ∃ q e, (p.after ticks cs).peek = (q, .ok e)
          ∧ (e ∈ (p.after ticks cs).heap ∧ ∀ e' ∈ (p.after ticks cs).heap, e.time ≤ e'.time)
          ∧ q.heap.Perm (p.after ticks cs).heap
          ∧ ∀ tick, (q.next tick).2 = .ok e) := by
  obtain ⟨hcomplete, hperiod⟩ := complete_after hheap hinit cs
  refine ⟨hcomplete.nodup, fun n s => ?_, fun hne => ?_⟩
  · rw [hcomplete.mem_iff, Parser.scheduled_congr hperiod]
  · cases hpop : heappop (p.after ticks cs).heap with
    | none => exact absurd (heappop_eq_none.mp hpop) hne
    | some er =>
      obtain ⟨e, rest⟩ := er
      have hpeek := peek_of_pop hpop
      obtain ⟨hleast, hperm, ho, hperiod', rest', hpop'⟩ := peek_spec hcomplete.ordered hpeek
      refine ⟨_, e, hpeek, ⟨hleast.1, fun e' he' => Entry.time_le_of_le (hleast.2 e' he')⟩,
        hperm, fun tick => ?_⟩
      obtain ⟨x, t, d, -, -, hnext⟩ :=
        (hcomplete.congr ho (hperm.map Entry.pair) hperiod').next tick hpop'
      rw [hnext]

/-! ## A small configuration -/

/-- The surroundings of a call: both draws are 0. -/
def tickAt (now : ℚ) : Tick := ⟨⟨0, le_refl 0, zero_le_one⟩, ⟨0, le_refl 0, zero_le_one⟩, now⟩

/-- Files with some hosts whose ports are polled with the given period. -/
def sampleFiles (period : String) (hosts : List String) : Files where
  schedule := some (.ok (.dict [("default", .dict [("ports", .str period)])]))
  snmp := .ok (.dict [("default", .dict [])])
  nodes := [.ok (.dict [("hosts", .dict (hosts.map (fun host => (host, .null))))])]

/-- The parser of the files. -/
def sampleParser (period : String) (hosts : List String) : Parser :=
  (Parser.construct (sampleFiles period hosts)).1

/-- Two hosts stay scheduled while their entries are taken. -/
theorem conserved_after_twoHosts :
    ((sampleParser "60 +- 4" ["a", "b"]).after (fun _ _ => tickAt 100)
        [.peek, .next (tickAt 100), .next (tickAt 100)]).pairs.Nodup
      ∧ ((sampleParser "60 +- 4" ["a", "b"]).after (fun _ _ => tickAt 100)
        [.peek, .next (tickAt 100), .next (tickAt 100)]).heap ≠ [] :=
  ⟨(conserved_after (p := sampleParser "60 +- 4" ["a", "b"]) rfl (by decide) _).1,
    by decide +kernel⟩

end Scheduler
