/-
# What the operations of the scheduler do

A configuration gives each (node, spec) pair it names a period; the pair is
*scheduled* when that period is not zero.  Everything `add`, `next` and the two
filling loops do to the heap is said here once, in terms of this notion:

* `add_cases`      : `add` pushes an entry just for a scheduled pair;
* `next_of_pop`    : `next` puts the entry it takes back just when its pair is scheduled;
* `addNodes_added` : what a filling loop adds, also when it stops half way.
-/
import Ptolemy.Scheduler

namespace Scheduler

open Heapq

/-! ## Scheduled pairs -/

/-- The period that the configuration gives a pair, if it names it. -/
def Parser.period (p : Parser) (n s : String) : Option Yaml :=
  match getNode p.settings p.nodes n with
  | .ok (some node) => (node.sections.lookup "schedule").bind (fun specs => specs.lookup s)
  | _ => none

/-- The configuration names the pair. -/
def Parser.Named (p : Parser) (n s : String) : Prop := ∃ i, p.period n s = some i

/-- The pair has a period of `t` seconds with a spread of `d`, and it is not zero.  The grammar of
periods is whole digits: `(\d+)`, or `(\d+) (+|-|+-) (\d+)` with a spread. -/
def Parser.Every (p : Parser) (n s : String) (t d : ℚ) : Prop :=
  ∃ i, p.period n s = some i ∧ i.truthy = true ∧ _delta i = .ok (t, d) ∧ t ≠ 0

/-- The period of the pair, whole digits in the grammar of periods, is not zero. -/
def Parser.Scheduled (p : Parser) (n s : String) : Prop := ∃ t d, p.Every n s t d

/-- The pairs that have an entry in the heap. -/
def Parser.pairs (p : Parser) : List (String × String) := p.heap.map Entry.pair

theorem Parser.Scheduled.named {p : Parser} {n s : String} (h : p.Scheduled n s) :
    p.Named n s := by
  obtain ⟨t, d, i, hi, -⟩ := h
  exact ⟨i, hi⟩

/-- A pair that is named is one of a node that is there. -/
theorem Parser.Named.mem_nodes {p : Parser} {n s : String} (h : p.Named n s) : n ∈ p.nodes := by
  obtain ⟨i, hi⟩ := h
  unfold Parser.period getNode at hi
  cases hlook : p.nodes.lookup n with
  | none => rw [hlook] at hi; cases hi
  | some this => exact Dict.mem_iff_lookup.mpr ⟨this, hlook⟩

/-- The period depends on the configuration alone. -/
theorem Parser.period_congr {p q : Parser} (hsettings : q.settings = p.settings)
    (hnodes : q.nodes = p.nodes) : q.period = p.period := by
  funext n s
  unfold Parser.period
  rw [hsettings, hnodes]

theorem Parser.every_congr {p q : Parser} (h : q.period = p.period) : q.Every = p.Every := by
  funext n s t d
  unfold Parser.Every
  rw [h]

theorem Parser.scheduled_congr {p q : Parser} (h : q.period = p.period) :
    q.Scheduled = p.Scheduled := by
  funext n s
  unfold Parser.Scheduled
  rw [Parser.every_congr h]

theorem Parser.Every.unique {p : Parser} {n s : String} {t d t' d' : ℚ} (h : p.Every n s t d)
    (h' : p.Every n s t' d') : t' = t ∧ d' = d := by
  obtain ⟨i, hi, -, hdelta, -⟩ := h
  obtain ⟨i', hi', -, hdelta', -⟩ := h'
  rw [hi] at hi'
  cases hi'
  rw [hdelta] at hdelta'
  cases hdelta'
  exact ⟨rfl, rfl⟩

theorem getNode_name {settings : Settings} {nodes : Dict String Yaml} {n : String} {node : Node}
    (h : getNode settings nodes n = .ok (some node)) : node.name = n := by
  unfold getNode at h
  split at h
  · cases h
  · obtain ⟨parts, -, h⟩ := Except.bind_eq_ok.mp h
    obtain ⟨sections, -, h⟩ := Except.bind_eq_ok.mp h
    cases h
    rfl

/-- The specs of a node are distinct, and are those that the configuration names with it. -/
theorem getSpecs_spec {p : Parser} {n : String} {node : Node} {specs : List String}
    (hnode : getNode p.settings p.nodes n = .ok (some node))
    (h : getSpecs (some node) = .ok specs) : specs.Nodup ∧ ∀ s, s ∈ specs ↔ p.Named n s := by
  unfold getSpecs at h
  simp only at h
  unfold Parser.Named Parser.period
  simp only [hnode]
  cases hsched : node.sections.lookup "schedule" with
  | none => rw [hsched] at h; cases h
  | some d =>
    rw [hsched] at h
    cases h
    refine ⟨d.keys_nodup, fun s => ?_⟩
    rw [Option.bind_some, ← Dict.mem_iff_lookup]
    exact AList.mem_keys.symm

/-! ## The time of an entry -/

theorem le_uniform {a b : ℚ} (h : a ≤ b) (r : Draw) : a ≤ uniform a b r := by
  unfold uniform
  have := mul_nonneg (sub_nonneg.mpr h) r.nonneg
  linarith

theorem _delta_nonneg {i : Yaml} {t d : ℚ} (h : _delta i = .ok (t, d)) : 0 ≤ t ∧ 0 ≤ d := by
  unfold _delta at h
  obtain ⟨text, -, h⟩ := Except.bind_eq_ok.mp h
  split at h
  · cases h
  · cases h
    exact ⟨Nat.cast_nonneg _, Nat.cast_nonneg _⟩

theorem delta_zero {i : Yaml} {d : ℚ} (h : _delta i = .ok (0, d)) (r : Draw) :
    delta i r = .ok none := by
  unfold delta
  rw [h, Except.ok_bind]
  simp

/-- The seconds to the next time of a period that is not zero. -/
theorem delta_spec {i : Yaml} {t d : ℚ} (h : _delta i = .ok (t, d)) (ht : t ≠ 0) (r : Draw) :
    ∃ x, delta i r = .ok (some x) ∧ t - d ≤ x := by
  unfold delta
  rw [h, Except.ok_bind]
  simp only [ht, if_false]
  split_ifs with hd
  · refine ⟨_, rfl, ?_⟩
    have hle := le_uniform (show -1 * d ≤ d by linarith) r
    linarith
  · refine ⟨t, rfl, ?_⟩
    have hd' := (_delta_nonneg h).2
    linarith

section dueTime

variable {p : Parser} {n s : String} {node : Node} (factor : ℚ) (tick : Tick)

theorem dueTime_of_every (hnode : getNode p.settings p.nodes n = .ok (some node)) {t d : ℚ}
    (h : p.Every n s t d) : ∃ x, dueTime node s factor tick = .ok (some x)
      ∧ (factor = 0 → tick.now + (t - d) ≤ x) := by
  obtain ⟨i, hi, htrue, hdelta, ht⟩ := h
  obtain ⟨x, hx, hle⟩ := delta_spec hdelta ht tick.spread
  unfold Parser.period at hi
  simp only [hnode] at hi
  unfold dueTime getTimeDelta
  cases hsched : node.sections.lookup "schedule" with
  | none => rw [hsched] at hi; cases hi
  | some specs =>
    rw [hsched, Option.bind_some] at hi
    simp only [Except.ok_bind, hi, htrue, if_true, hx]
    refine ⟨_, rfl, fun hfactor => ?_⟩
    simp only [hfactor, lt_irrefl, if_false]
    linarith

theorem dueTime_of_not_scheduled (hnode : getNode p.settings p.nodes n = .ok (some node))
    (h : ¬ p.Scheduled n s) (x : ℚ) : dueTime node s factor tick ≠ .ok (some x) := by
  intro hdue
  apply h
  unfold dueTime getTimeDelta at hdue
  cases hsched : node.sections.lookup "schedule" with
  | none => rw [hsched] at hdue; cases hdue
  | some specs =>
    rw [hsched] at hdue
    simp only [Except.ok_bind] at hdue
    cases hi : specs.lookup s with
    | none => rw [hi] at hdue; cases hdue
    | some i =>
      simp only [hi] at hdue
      have hperiod : p.period n s = some i := by
        unfold Parser.period
        simp only [hnode, hsched, Option.bind_some, hi]
      -- there is a period: it is empty, cannot be read, or is zero
      by_cases htrue : i.truthy = true
      · simp only [htrue, if_true] at hdue
        cases hdelta : _delta i with
        | error e =>
          unfold delta at hdue
          rw [hdelta] at hdue
          cases hdue
        | ok td =>
          obtain ⟨t, d⟩ := td
          by_cases ht : t = 0
          · subst ht
            rw [delta_zero hdelta] at hdue
            cases hdue
          · exact ⟨t, d, i, hperiod, htrue, hdelta, ht⟩
      · simp only [htrue, Bool.false_eq_true, if_false] at hdue
        cases hdue

end dueTime

/-! ## Adding entries -/

/-- `add` pushes an entry just for a scheduled pair, and without a factor not before its
period less the spread has passed. -/
theorem add_cases {p : Parser} {n : String} {node : Node} (s : String) (factor : ℚ) (tick : Tick)
    (hnode : getNode p.settings p.nodes n = .ok (some node)) :
    (∃ x t d, p.Every n s t d ∧ (factor = 0 → tick.now + (t - d) ≤ x)
        ∧ p.add (some node) s factor tick = .ok ({ p with heap := heappush p.heap ⟨x, n, s⟩ }, true))
      ∨ (¬ p.Scheduled n s ∧ (p.add (some node) s factor tick = .ok (p, false)
        ∨ ∃ e, p.add (some node) s factor tick = .error e)) := by
  by_cases h : p.Scheduled n s
  · obtain ⟨t, d, hevery⟩ := h
    obtain ⟨x, hx, hle⟩ := dueTime_of_every factor tick hnode hevery
    refine Or.inl ⟨x, t, d, hevery, hle, ?_⟩
    simp only [Parser.add, hx, getNode_name hnode]
  · refine Or.inr ⟨h, ?_⟩
    have hnone := dueTime_of_not_scheduled factor tick hnode h
    cases hdue : dueTime node s factor tick with
    | error e => exact Or.inr ⟨e, by simp only [Parser.add, hdue]⟩
    | ok x =>
      cases x with
      | none => exact Or.inl (by simp only [Parser.add, hdue])
      | some x => exact absurd hdue (hnone x)

/-- A parser with some more entries in its heap. -/
structure Added (p q : Parser) (l : List Entry) : Prop where
  settings : q.settings = p.settings
  nodes : q.nodes = p.nodes
  heap : q.heap.Perm (l ++ p.heap)
  ordered : Ordered p.heap → Ordered q.heap

theorem Added.refl (p : Parser) : Added p p [] := ⟨rfl, rfl, List.Perm.refl _, fun h => h⟩

theorem Added.push (p : Parser) (e : Entry) :
    Added p { p with heap := heappush p.heap e } [e] :=
  ⟨rfl, rfl, heappush_perm p.heap e, fun h => ordered_heappush h e⟩

theorem Added.trans {p q r : Parser} {l l' : List Entry} (h : Added p q l) (h' : Added q r l') :
    Added p r (l' ++ l) := by
  refine ⟨h'.settings.trans h.settings, h'.nodes.trans h.nodes, ?_, h'.ordered ∘ h.ordered⟩
  rw [List.append_assoc]
  exact h'.heap.trans (h.heap.append_left l')

theorem Added.period {p q : Parser} {l : List Entry} (h : Added p q l) : q.period = p.period :=
  Parser.period_congr h.settings h.nodes

theorem Added.pairs {p q : Parser} {l : List Entry} (h : Added p q l) :
    q.pairs.Perm (l.map Entry.pair ++ p.pairs) := by
  have hmap := h.heap.map Entry.pair
  rwa [List.map_append] at hmap

/-- The entries that a loop over the pairs of `P` adds: they are of scheduled pairs of `P`, and no
two are of one pair. -/
structure Filled (P : String → String → Prop) (p q : Parser) (l : List Entry) : Prop
    extends Added p q l where
  nodup : (l.map Entry.pair).Nodup
  mem : ∀ e ∈ l, P e.node e.spec ∧ p.Scheduled e.node e.spec

/-- Every scheduled pair of `P` is among the entries. -/
def AllOf (P : String → String → Prop) (p : Parser) (l : List Entry) : Prop :=
  ∀ n s, P n s → p.Scheduled n s → (n, s) ∈ l.map Entry.pair

theorem Filled.nil (P : String → String → Prop) (p : Parser) : Filled P p p [] :=
  ⟨Added.refl p, List.nodup_nil, fun _ he => absurd he List.not_mem_nil⟩

theorem Filled.mono {P Q : String → String → Prop} {p q : Parser} {l : List Entry}
    (h : Filled P p q l) (hPQ : ∀ n s, P n s → Q n s) : Filled Q p q l :=
  ⟨h.toAdded, h.nodup, fun e he => ⟨hPQ _ _ (h.mem e he).1, (h.mem e he).2⟩⟩

/-- Two loops one after the other, over disjoint pairs. -/
theorem Filled.trans {P Q : String → String → Prop} {p q r : Parser} {l l' : List Entry}
    (h : Filled P p q l) (h' : Filled Q q r l') (hPQ : ∀ n s, P n s → ¬ Q n s) :
    Filled (fun n s => P n s ∨ Q n s) p r (l' ++ l) := by
  refine ⟨h.toAdded.trans h'.toAdded, ?_, fun e he => ?_⟩
  · rw [List.map_append, List.nodup_append]
    refine ⟨h'.nodup, h.nodup, fun a ha b hb heq => ?_⟩
    obtain ⟨e, he, rfl⟩ := List.mem_map.mp hb
    obtain ⟨e', he', rfl⟩ := List.mem_map.mp ha
    obtain ⟨hn, hs⟩ := Prod.mk.inj heq
    exact hPQ _ _ (h.mem e he).1 (hn ▸ hs ▸ (h'.mem e' he').1)
  · rcases List.mem_append.mp he with he | he
    · obtain ⟨hQ, hsched⟩ := h'.mem e he
      rw [Parser.scheduled_congr h.period] at hsched
      exact ⟨Or.inr hQ, hsched⟩
    · exact ⟨Or.inl (h.mem e he).1, (h.mem e he).2⟩

theorem AllOf.trans {P Q : String → String → Prop} {p q : Parser} {l l' : List Entry}
    (h : AllOf P p l) (h' : AllOf Q q l') (hpq : q.Scheduled = p.Scheduled) :
    AllOf (fun n s => P n s ∨ Q n s) p (l' ++ l) := by
  rintro n s (hP | hQ) hsched
  · rw [List.map_append]
    exact List.mem_append_right _ (h n s hP hsched)
  · rw [List.map_append]
    exact List.mem_append_left _ (h' n s hQ (hpq ▸ hsched))

/-- One call of `add` in a loop. -/
theorem add_filled {p : Parser} {n : String} {node : Node} (s : String) (factor : ℚ) (tick : Tick)
    (hnode : getNode p.settings p.nodes n = .ok (some node)) {q : Parser} {b : Bool}
    (h : p.add (some node) s factor tick = .ok (q, b)) :
    ∃ l, Filled (fun n' s' => n' = n ∧ s' = s) p q l
      ∧ AllOf (fun n' s' => n' = n ∧ s' = s) p l := by
  rcases add_cases s factor tick hnode with
    ⟨x, t, d, hevery, -, hadd⟩ | ⟨hnot, hadd | ⟨err, hadd⟩⟩
  · rw [hadd] at h
    cases h
    refine ⟨[⟨x, n, s⟩], ⟨Added.push p _, List.nodup_singleton _, fun e he => ?_⟩, ?_⟩
    · rw [List.mem_singleton.mp he]
      exact ⟨⟨rfl, rfl⟩, t, d, hevery⟩
    · rintro n' s' ⟨rfl, rfl⟩ -
      exact List.mem_cons_self
  · rw [hadd] at h
    cases h
    refine ⟨[], Filled.nil _ p, ?_⟩
    rintro n' s' ⟨rfl, rfl⟩ hsched
    exact absurd hsched hnot
  · rw [hadd] at h
    cases h

/-- What the loop over the specs of a node adds, until one raises. -/
theorem addSpecs_filled {n : String} {node : Node} (factor : ℚ) (ticks : String → Tick)
    {specs : List String} (hnd : specs.Nodup) {p : Parser}
    (hnode : getNode p.settings p.nodes n = .ok (some node)) :
    ∃ l, Filled (fun n' s => n' = n ∧ s ∈ specs) p (p.addSpecs node factor ticks specs).1 l
      ∧ ((p.addSpecs node factor ticks specs).2 = .ok () →
        AllOf (fun n' s => n' = n ∧ s ∈ specs) p l) := by
  induction specs generalizing p with
  | nil => exact ⟨[], Filled.nil _ p, fun _ n' s h => absurd h.2 List.not_mem_nil⟩
  | cons s specs ih =>
    rw [List.nodup_cons] at hnd
    cases hadd : p.add (some node) s factor (ticks s) with
    | error e =>
      simp only [Parser.addSpecs, hadd]
      exact ⟨[], Filled.nil _ p, fun h => (by cases h)⟩
    | ok qb =>
      obtain ⟨q, b⟩ := qb
      obtain ⟨l, hl, hall⟩ := add_filled s factor (ticks s) hnode hadd
      obtain ⟨l', hl', hall'⟩ := ih hnd.2 (show getNode q.settings q.nodes n = _ by
        rw [hl.settings, hl.nodes, hnode])
      simp only [Parser.addSpecs, hadd]
      -- the pairs of the loop are that of its first round and those of the rest
      have hpairs : ∀ n' s', (n' = n ∧ s' ∈ s :: specs)
          ↔ (n' = n ∧ s' = s) ∨ (n' = n ∧ s' ∈ specs) := by
        intro n' s'
        rw [List.mem_cons]
        tauto
      refine ⟨l' ++ l, (hl.trans hl' ?_).mono (fun n' s' => (hpairs n' s').mpr), fun hok => ?_⟩
      · rintro n' s' ⟨-, rfl⟩ ⟨-, hs'⟩
        exact hnd.1 hs'
      · intro n' s' hP
        exact hall.trans (hall' hok) (Parser.scheduled_congr hl.period) n' s'
          ((hpairs n' s').mp hP)

/-- What the loop over the nodes adds, until one raises. -/
theorem addNodes_filled (wanted : String → String → Bool) (factor : ℚ)
    (ticks : String → String → Tick) {ns : List String} (hnd : ns.Nodup) (p : Parser) :
    ∃ l, Filled (fun n s => n ∈ ns ∧ wanted n s = true) p (p.addNodes wanted factor ticks ns).1 l
      ∧ ((p.addNodes wanted factor ticks ns).2 = .ok () →
        AllOf (fun n s => n ∈ ns ∧ wanted n s = true) p l) := by
  induction ns generalizing p with
  | nil => exact ⟨[], Filled.nil _ p, fun _ n s h => absurd h.1 List.not_mem_nil⟩
  | cons n ns ih =>
    rw [List.nodup_cons] at hnd
    unfold Parser.addNodes
    split
    · exact ⟨[], Filled.nil _ p, fun h => (by cases h)⟩
    · rename_i node' hnode
      split
      · rename_i specs node hspecs
        obtain ⟨hspecsnd, hnamed⟩ := getSpecs_spec hnode hspecs
        obtain ⟨l, hl, hall⟩ := addSpecs_filled factor (ticks n)
          (hspecsnd.filter (fun s => wanted n s)) hnode
        have hP : ∀ n' s, n' = n ∧ s ∈ specs.filter (fun s => wanted n s) →
            n' ∈ n :: ns ∧ wanted n' s = true := by
          rintro n' s ⟨rfl, hs⟩
          exact ⟨List.mem_cons_self, (List.mem_filter.mp hs).2⟩
        split
        · rename_i q hq
          rw [hq] at hl hall
          obtain ⟨l', hl', hall'⟩ := ih hnd.2 q
          have hQ : ∀ n' s, n' ∈ ns ∧ wanted n' s = true → n' ∈ n :: ns ∧ wanted n' s = true :=
            fun n' s h => ⟨List.mem_cons_of_mem n h.1, h.2⟩
          refine ⟨l' ++ l, (hl.trans hl' ?_).mono (fun n' s => Or.rec (hP n' s) (hQ n' s)),
            fun hok n' s hPQ hsched => ?_⟩
          · rintro n' s ⟨rfl, -⟩ ⟨hn, -⟩
            exact hnd.1 hn
          · -- a scheduled pair is named in the node, so the filtered list of specs has it
            refine (hall rfl).trans (hall' hok) (Parser.scheduled_congr hl.period) n' s ?_ hsched
            rcases List.mem_cons.mp hPQ.1 with rfl | hn
            · exact Or.inl ⟨rfl, List.mem_filter.mpr ⟨(hnamed s).mpr hsched.named, hPQ.2⟩⟩
            · exact Or.inr ⟨hn, hPQ.2⟩
        · rename_i q e hq
          rw [hq] at hl
          exact ⟨l, hl.mono hP, fun h => (by cases h)⟩
      · exact ⟨[], Filled.nil _ p, fun h => (by cases h)⟩
      · rename_i specs hspecs
        cases hspecs

/-! ## Taking entries -/

theorem peek_of_pop {p : Parser} {e : Entry} {rest : List Entry}
    (h : heappop p.heap = some (e, rest)) :
    p.peek = ({ p with heap := heappush rest e }, .ok e) := by
  simp only [Parser.peek, h]

/-- `next` puts the entry it takes back just when its pair is scheduled, and not before its
period less the spread has passed. -/
theorem next_of_pop {p : Parser} {e : Entry} {rest : List Entry} (tick : Tick)
    (h : heappop p.heap = some (e, rest)) :
    (∃ x t d, p.Every e.node e.spec t d ∧ tick.now + (t - d) ≤ x
        ∧ p.next tick = ({ p with heap := heappush rest ⟨x, e.node, e.spec⟩ }, .ok e))
      ∨ (¬ p.Scheduled e.node e.spec ∧ (p.next tick).1 = { p with heap := rest }) := by
  simp only [Parser.next, h]
  cases hnode : getNode p.settings p.nodes e.node with
  | error err =>
    refine Or.inr ⟨?_, rfl⟩
    rintro ⟨t, d, i, hi, -⟩
    unfold Parser.period at hi
    rw [hnode] at hi
    cases hi
  | ok node' =>
    cases node' with
    | none =>
      refine Or.inr ⟨?_, rfl⟩
      rintro ⟨t, d, i, hi, -⟩
      unfold Parser.period at hi
      rw [hnode] at hi
      cases hi
    | some node =>
      -- the entry is gone from the heap before the next time is asked for
      rcases add_cases (p := { p with heap := rest }) e.spec 0 tick hnode with
        ⟨x, t, d, hevery, hle, hadd⟩ | ⟨hnot, hadd | ⟨err, hadd⟩⟩
      · refine Or.inl ⟨x, t, d, hevery, hle rfl, ?_⟩
        simp only [hadd]
      · refine Or.inr ⟨hnot, ?_⟩
        simp only [hadd]
      · refine Or.inr ⟨hnot, ?_⟩
        simp only [hadd]

end Scheduler
