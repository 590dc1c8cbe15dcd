/-
# The schedule across reloads

`reset_schedule` loads the files again and adds the pairs that the configuration
before did not name.  It does not look at the heap, and it reads the files into
the parser as they come.  So:

* a pair that was removed and comes back while its old entry is still in the
  heap is entered twice (`unique_of_fresh`, `unique_iff_fresh`);
* a pair that had no period and is given one has no entry (`covered_iff_kept`);
* a load that fails leaves what it has read so far (`resetSchedule_eq_iff`).
-/
import Ptolemy.SchedulerRuns

namespace Scheduler

open Heapq

/-! ## What a reload does -/

/-- The specs of the nodes as `reset_schedule` notes them. -/
theorem lookup_current {p : Parser} {ns : List String} {cur : List (String × List String)}
    (h : ns.mapM (fun n => do
      let specs ← getSpecs (← getNode p.settings p.nodes n)
      Except.ok (n, specs)) = .ok cur) (n : String) :
    (cur.lookup n = none ↔ n ∉ ns)
      ∧ ∀ specs, cur.lookup n = some specs → ∃ node, getNode p.settings p.nodes n = .ok node
        ∧ getSpecs node = .ok specs := by
  induction ns generalizing cur with
  | nil =>
    cases h
    exact ⟨⟨fun _ => List.not_mem_nil, fun _ => rfl⟩, fun specs hs => (by cases hs)⟩
  | cons m ns ih =>
    rw [List.mapM_cons] at h
    obtain ⟨x, hx, h⟩ := Except.bind_eq_ok.mp h
    obtain ⟨node, hnode, hx⟩ := Except.bind_eq_ok.mp hx
    obtain ⟨specs, hspecs, hx⟩ := Except.bind_eq_ok.mp hx
    obtain ⟨cur', hcur', h⟩ := Except.bind_eq_ok.mp h
    cases hx
    cases h
    obtain ⟨hnone, hsome⟩ := ih hcur'
    rw [List.lookup_cons]
    by_cases hn : n = m
    · subst hn
      rw [beq_self_eq_true]
      refine ⟨⟨fun h => (by cases h), fun h => absurd List.mem_cons_self h⟩, fun specs' hs => ?_⟩
      cases hs
      exact ⟨node, hnode, hspecs⟩
    · rw [beq_false_of_ne hn, List.mem_cons, not_or]
      exact ⟨⟨fun h => ⟨hn, hnone.mp h⟩, fun h => hnone.mpr h.2⟩, hsome⟩

/-- A pair is new when the configuration does not name it. -/
theorem current_spec {p : Parser} {cur : List (String × List String)} (h : p.current = .ok cur)
    (n s : String) : (cur.lookup n).all (fun specs => s ∉ specs) = true ↔ ¬ p.Named n s := by
  obtain ⟨hnone, hsome⟩ := lookup_current h n
  cases hlook : cur.lookup n with
  | none =>
    refine iff_of_true rfl (fun hnamed => hnone.mp hlook ?_)
    exact AList.mem_keys.mpr hnamed.mem_nodes
  | some specs =>
    obtain ⟨node, hnode, hspecs⟩ := hsome specs hlook
    cases node with
    | none => cases hspecs
    | some node =>
      rw [Option.all_some, decide_eq_true_eq, (getSpecs_spec hnode hspecs).2 s]

theorem load_heap (files : Files) (p : Parser) : (p.load files).1.heap = p.heap := by
  unfold Parser.load
  simp only
  split
  · rfl
  · split
    · rfl
    · rfl

/-- A reload leaves the heap as it is, or loads the files and adds entries of new pairs; when it
succeeds, it adds an entry for every new pair that is scheduled. -/
theorem resetSchedule_cases (files : Files) (ticks : String → String → Tick) (p : Parser) :
    ((p.resetSchedule files ticks).1.heap = p.heap ∧ (p.resetSchedule files ticks).2 ≠ .ok ())
      ∨ ∃ q l, p.load files = (q, .ok ()) ∧ q.heap = p.heap
        ∧ Filled (fun n s => n ∈ q.nodes ∧ ¬ p.Named n s) q (p.resetSchedule files ticks).1 l
        ∧ ((p.resetSchedule files ticks).2 = .ok () →
          AllOf (fun n s => n ∈ q.nodes ∧ ¬ p.Named n s) q l) := by
  have hheap := load_heap files p
  unfold Parser.resetSchedule
  cases hcur : p.current with
  | error e => exact Or.inl ⟨rfl, fun h => (by cases h)⟩
  | ok cur =>
    cases hload : p.load files with
    | mk q r =>
      rw [hload] at hheap
      cases r with
      | error e => exact Or.inl ⟨hheap, fun h => (by cases h)⟩
      | ok u =>
        obtain ⟨l, hl, hall⟩ := addNodes_filled
          (fun n s => (cur.lookup n).all (fun specs => s ∉ specs)) 0 ticks q.nodes.keys_nodup q
        have hP : ∀ n s, (n ∈ q.nodes.keys
            ∧ (cur.lookup n).all (fun specs => s ∉ specs) = true) ↔ n ∈ q.nodes ∧ ¬ p.Named n s :=
          fun n s => and_congr AList.mem_keys (current_spec hcur n s)
        refine Or.inr ⟨q, l, rfl, hheap, hl.mono (fun n s => (hP n s).mp), fun hok n s h => ?_⟩
        exact hall hok n s ((hP n s).mpr h)

/-! ## Uniqueness -/

/-- No two entries are of one pair. -/
def Unique (p : Parser) : Prop := p.pairs.Nodup

/-- No pair that a reload finds new has an entry left in the heap. -/
def Fresh (p : Parser) : Event → Prop
  | .call _ => True
  | .reset files _ => ∀ q, p.load files = (q, .ok ()) →
      ∀ n s, q.Scheduled n s → ¬ p.Named n s → (n, s) ∉ p.pairs

/-- A reload of the run succeeds. -/
def Succeeds (p : Parser) : Event → Prop
  | .call _ => True
  | .reset files ticks => (p.resetSchedule files ticks).2 = .ok ()

/-- After a call the pairs are those before it, or those without one that is not scheduled. -/
theorem call_pairs (p : Parser) (c : Call) :
    (call p c).pairs.Perm p.pairs
      ∨ ∃ n s, ¬ p.Scheduled n s ∧ p.pairs.Perm ((n, s) :: (call p c).pairs) := by
  cases hpop : heappop p.heap with
  | none =>
    rw [call_of_empty hpop]
    exact Or.inl (List.Perm.refl _)
  | some er =>
    obtain ⟨e, rest⟩ := er
    cases c with
    | peek =>
      rw [call, peek_of_pop hpop]
      exact Or.inl (pairs_push e.time hpop)
    | next tick =>
      rcases next_of_pop tick hpop with ⟨x, t, d, -, -, hnext⟩ | ⟨hnot, hnext⟩
      · rw [call, hnext]
        exact Or.inl (pairs_push x hpop)
      · rw [call, hnext]
        exact Or.inr ⟨e.node, e.spec, hnot, (heappop_perm hpop).map Entry.pair⟩

theorem unique_call {p : Parser} (h : Unique p) (c : Call) : Unique (call p c) := by
  rcases call_pairs p c with hperm | ⟨n, s, -, hperm⟩
  · exact hperm.nodup_iff.mpr h
  · exact (List.nodup_cons.mp (hperm.nodup_iff.mp h)).2

/-- The pairs after a reload that has loaded the files. -/
theorem Filled.reset_pairs {P : String → String → Prop} {p q r : Parser} {l : List Entry}
    (h : Filled P q r l) (hheap : q.heap = p.heap) : r.pairs.Perm (l.map Entry.pair ++ p.pairs) := by
  have hpairs := h.pairs
  rwa [show q.pairs = p.pairs by rw [Parser.pairs, Parser.pairs, hheap]] at hpairs

theorem unique_reset {p : Parser} (h : Unique p) {files : Files} {ticks : String → String → Tick}
    (hfresh : Fresh p (.reset files ticks)) : Unique (step p (.reset files ticks)) := by
  show (p.resetSchedule files ticks).1.pairs.Nodup
  rcases resetSchedule_cases files ticks p with ⟨hheap, -⟩ | ⟨q, l, hload, hheap, hl, -⟩
  · rw [Parser.pairs, hheap]
    exact h
  · rw [(hl.reset_pairs hheap).nodup_iff, List.nodup_append]
    refine ⟨hl.nodup, h, fun a ha b hb heq => ?_⟩
    subst heq
    obtain ⟨e, he, rfl⟩ := List.mem_map.mp ha
    obtain ⟨⟨-, hnew⟩, hsched⟩ := hl.mem e he
    exact hfresh q hload e.node e.spec hsched hnew hb

/-- One event keeps the pairs unique when it meets the condition. -/
theorem unique_step (p : Parser) (e : Event) (h : Unique p) (hfresh : Fresh p e) :
    Unique (step p e) := by
  cases e with
  | call c => exact unique_call h c
  | reset files ticks => exact unique_reset h hfresh

/-- A reload that succeeds keeps them unique only then. -/
theorem fresh_of_unique {p : Parser} {e : Event} (hok : Succeeds p e) (h : Unique (step p e)) :
    Fresh p e := by
  cases e with
  | call c => trivial
  | reset files ticks =>
    intro q' hload' n s hsched hnew hmem
    rcases resetSchedule_cases files ticks p with ⟨-, herr⟩ | ⟨q, l, hload, hheap, hl, hall⟩
    · exact herr hok
    · rw [hload'] at hload
      cases hload
      have hpairs := (hl.reset_pairs hheap).nodup_iff.mp h
      rw [List.nodup_append] at hpairs
      exact hpairs.2.2 (n, s) (hall hok n s ⟨hsched.named.mem_nodes, hnew⟩ hsched) (n, s) hmem rfl

/-- An empty heap is filled with unique pairs, even when `init_schedule` raises half way. -/
theorem unique_initSchedule {p : Parser} (hheap : p.heap = [])
    (ticks : String → String → Tick) : Unique (p.initSchedule ticks).1 := by
  obtain ⟨l, hl, -⟩ := addNodes_filled (fun _ _ => true) 3 ticks p.nodes.keys_nodup p
  have hpairs := hl.pairs
  rw [show p.pairs = [] by rw [Parser.pairs, hheap]; rfl, List.append_nil] at hpairs
  exact hpairs.nodup_iff.mpr hl.nodup

/-- **Uniqueness across reloads.**  In every run after `init_schedule` whose reloads find no pair
new that still has an entry, no state has two entries of one pair; and where the reloads succeed,
in no other run. -/
theorem unique_of_fresh {p : Parser} (hheap : p.heap = []) (ticks : String → String → Tick)
    (es : List Event) :
    (Run.Along step Fresh (p.initSchedule ticks).1 es →
        Run.Always step Unique (p.initSchedule ticks).1 es)
      ∧ (Run.Along step Succeeds (p.initSchedule ticks).1 es →
        (Run.Always step Unique (p.initSchedule ticks).1 es
          ↔ Run.Along step Fresh (p.initSchedule ticks).1 es)) := by
  have hinit := unique_initSchedule hheap ticks
  refine ⟨fun h => Run.Along.always unique_step hinit h, fun hok => ?_⟩
  exact Run.always_iff_along_of
    (fun q e h hsucc => ⟨fun h' => fresh_of_unique hsucc h', unique_step q e h⟩) hinit hok

/-- A host that stays away until its entry has been taken is entered once. -/
theorem unique_of_fresh_absentHost :
    Run.Always step Unique
      ((sampleParser "60 +- 4" ["a"]).initSchedule (fun _ _ => tickAt 100)).1
      [.reset (sampleFiles "60 +- 4" []) (fun _ _ => tickAt 100), .call (.next (tickAt 100)),
        .reset (sampleFiles "60 +- 4" ["a"]) (fun _ _ => tickAt 100)] := by
  refine (unique_of_fresh rfl _ _).1 ⟨?_, trivial, ?_, trivial⟩
  · intro q hload n s hsched _ _
    have hnodes : q.nodes.keys = [] := by
      rw [← (Prod.mk.inj hload).1]
      decide
    have hn : n ∈ q.nodes.keys := AList.mem_keys.mpr hsched.named.mem_nodes
    rw [hnodes] at hn
    exact absurd hn List.not_mem_nil
  · intro q _ n s _ _ hmem
    have hpairs : Parser.pairs (call (step ((sampleParser "60 +- 4" ["a"]).initSchedule
        (fun _ _ => tickAt 100)).1 (.reset (sampleFiles "60 +- 4" []) (fun _ _ => tickAt 100)))
        (.next (tickAt 100))) = [] := by
      decide
    exact absurd (hpairs ▸ hmem) List.not_mem_nil

/-- A host that is taken out of the files and put back before its entry is due has two entries. -/
theorem not_unique_readdedHost :
    ¬ Run.Always step Unique
      ((sampleParser "60 +- 4" ["a", "b"]).initSchedule (fun _ _ => tickAt 100)).1
      [.reset (sampleFiles "60 +- 4" ["a"]) (fun _ _ => tickAt 100),
        .reset (sampleFiles "60 +- 4" ["a", "b"]) (fun _ _ => tickAt 100)] :=
  fun h => absurd h.last (by unfold Unique; decide +kernel)

/-! ## Coverage -/

/-- Every scheduled pair has an entry. -/
def Covered (p : Parser) : Prop := ∀ n s, p.Scheduled n s → (n, s) ∈ p.pairs

/-- Every pair that a reload schedules and does not find new was scheduled before, or still has an
entry. -/
def Kept (p : Parser) : Event → Prop
  | .call _ => True
  | .reset files _ => ∀ q, p.load files = (q, .ok ()) →
      ∀ n s, q.Scheduled n s → p.Named n s → p.Scheduled n s ∨ (n, s) ∈ p.pairs

theorem covered_call {p : Parser} (h : Covered p) (c : Call) : Covered (call p c) := by
  intro n s hsched
  rw [Parser.scheduled_congr (call_period p c)] at hsched
  rcases call_pairs p c with hperm | ⟨n', s', hnot, hperm⟩
  · exact hperm.mem_iff.mpr (h n s hsched)
  · rcases List.mem_cons.mp (hperm.mem_iff.mp (h n s hsched)) with heq | hmem
    · obtain ⟨rfl, rfl⟩ := Prod.mk.inj heq
      exact absurd hsched hnot
    · exact hmem

/-- One event keeps the coverage just when it meets the condition. -/
theorem covered_step_iff {p : Parser} {e : Event} (h : Covered p) (hok : Succeeds p e) :
    Covered (step p e) ↔ Kept p e := by
  cases e with
  | call c => exact iff_of_true (covered_call h c) trivial
  | reset files ticks =>
    rcases resetSchedule_cases files ticks p with ⟨-, herr⟩ | ⟨q, l, hload, hheap, hl, hall⟩
    · exact absurd hok herr
    · have hpairs := hl.reset_pairs hheap
      have hsched := Parser.scheduled_congr hl.period
      constructor
      · intro hcov q' hload' n s hs hnamed
        rw [hload] at hload'
        cases hload'
        have hmem := hcov n s (hsched ▸ hs)
        rcases List.mem_append.mp (hpairs.mem_iff.mp hmem) with hmem | hmem
        · obtain ⟨e, he, heq⟩ := List.mem_map.mp hmem
          obtain ⟨rfl, rfl⟩ := Prod.mk.inj heq
          exact absurd hnamed (hl.mem e he).1.2
        · exact Or.inr hmem
      · intro hkept n s hs
        have hs' : q.Scheduled n s := hsched ▸ hs
        refine hpairs.mem_iff.mpr (List.mem_append.mpr ?_)
        by_cases hnamed : p.Named n s
        · rcases hkept q hload n s hs' hnamed with hold | hmem
          · exact Or.inr (h n s hold)
          · exact Or.inr hmem
        · exact Or.inl (hall hok n s ⟨hs'.named.mem_nodes, hnamed⟩ hs')

/-- **Coverage across reloads.**  In a run after `init_schedule` whose reloads succeed, every
scheduled pair always has an entry just when no reload gives a period to a pair that was named
without one and has no entry left. -/
theorem covered_iff_kept {p : Parser} (hheap : p.heap = []) {ticks : String → String → Tick}
    (hinit : (p.initSchedule ticks).2 = .ok ()) {es : List Event}
    (hok : Run.Along step Succeeds (p.initSchedule ticks).1 es) :
    Run.Always step Covered (p.initSchedule ticks).1 es
      ↔ Run.Along step Kept (p.initSchedule ticks).1 es :=
  Run.always_iff_along_of (fun _ _ h hsucc => covered_step_iff h hsucc)
    (fun n s => ((complete_initSchedule hheap hinit).1.mem_iff n s).mpr) hok

/-- Loading the same files again keeps every host covered. -/
theorem covered_iff_kept_sameFiles :
    Run.Always step Covered
      ((sampleParser "60 +- 4" ["a", "b"]).initSchedule (fun _ _ => tickAt 100)).1
      [.call (.next (tickAt 100)),
        .reset (sampleFiles "60 +- 4" ["a", "b"]) (fun _ _ => tickAt 100)] := by
  refine (covered_iff_kept ?_ ?_ ?_).mpr ⟨trivial, ?_, trivial⟩
  · rfl
  · decide
  · exact ⟨trivial, by unfold Succeeds; decide +kernel, trivial⟩
  intro q hload n s hsched _
  have hperiod : q.period = (sampleParser "60 +- 4" ["a", "b"]).period := by
    rw [← (Prod.mk.inj hload).1]
    rfl
  have hsame : Parser.period (call ((sampleParser "60 +- 4" ["a", "b"]).initSchedule
      (fun _ _ => tickAt 100)).1 (.next (tickAt 100)))
      = (sampleParser "60 +- 4" ["a", "b"]).period :=
    (call_period _ _).trans (complete_initSchedule rfl (by decide)).2
  rw [Parser.scheduled_congr (hperiod.trans hsame.symm)] at hsched
  exact Or.inl hsched

/-- A host whose polls were turned off with a zero period is not polled when they are turned on
again. -/
theorem not_covered_turnedOn :
    Run.Along step Succeeds
        ((sampleParser "0" ["a"]).initSchedule (fun _ _ => tickAt 100)).1
        [.reset (sampleFiles "60 +- 4" ["a"]) (fun _ _ => tickAt 100)]
      ∧ ¬ Run.Always step Covered
        ((sampleParser "0" ["a"]).initSchedule (fun _ _ => tickAt 100)).1
        [.reset (sampleFiles "60 +- 4" ["a"]) (fun _ _ => tickAt 100)] := by
  refine ⟨⟨by unfold Succeeds; decide, trivial⟩, fun h => ?_⟩
  have hsched : Parser.Scheduled (step ((sampleParser "0" ["a"]).initSchedule
      (fun _ _ => tickAt 100)).1 (.reset (sampleFiles "60 +- 4" ["a"]) (fun _ _ => tickAt 100)))
      "a" "ports" :=
    ⟨60, 4, .str "60 +- 4", rfl, rfl, rfl, by decide⟩
  have hmem := h.last "a" "ports" hsched
  exact absurd hmem (by decide)

/-! ## A load that fails -/

/-- The hosts of a list that stand before the first that is malformed, as they are stored. -/
def hostsBefore (schedule snmp : Yaml) : List (String × Yaml) → List (String × Yaml)
  | [] => []
  | (n, host) :: hosts =>
      match inheritSettings schedule snmp host with
      | .ok host => (n, host) :: hostsBefore schedule snmp hosts
      | .error _ => []

/-- The hosts of a node file before its first malformed one. -/
def fileHosts (this : Yaml) : List (String × Yaml) :=
  match this with
  | .null => []
  | this =>
      match hostsOf this with
      | .ok (some (schedule, snmp, hosts)) => hostsBefore schedule snmp hosts
      | _ => []

/-- The node file has hosts, none of them malformed, or says that it has none. -/
def WellFormed (this : Yaml) : Prop :=
  this = .null ∨ hostsOf this = .ok none ∨ ∃ schedule snmp hosts,
    hostsOf this = .ok (some (schedule, snmp, hosts))
      ∧ (hostsBefore schedule snmp hosts).length = hosts.length

/-- The parser holds what the files say before the load fails: empty settings where the schedule
file cannot be read; its contents and no others where the snmp file cannot; and the contents of
both, with the hosts that stand before the failure, where a node file cannot. -/
def HoldsRead (files : Files) (p : Parser) : Prop :=
  match files.schedule.getD (.ok (.dict [])), files.snmp with
  | .error _, _ => p.settings = ⟨.dict [], .dict []⟩
  | .ok schedule, .error _ => p.settings = ⟨schedule, .dict []⟩
  | .ok schedule, .ok snmp =>
      p.settings = ⟨schedule, snmp⟩
        ∧ ∃ (before : List Yaml) (bad : Except Exn Yaml) (after : List (Except Exn Yaml)),
          files.nodes = before.map Except.ok ++ bad :: after
          ∧ (∀ this ∈ before, WellFormed this) ∧ (∀ this, bad = .ok this → ¬ WellFormed this)
          ∧ p.nodes = Dict.ofList (before.flatMap fileHosts
            ++ (bad.toOption.map fileHosts).getD [])

theorem storeHosts_eq (schedule snmp : Yaml) (hosts : List (String × Yaml))
    (nodes : Dict String Yaml) :
    (storeHosts schedule snmp hosts nodes).1
        = (hostsBefore schedule snmp hosts).foldl (fun d e => AList.insert e.1 e.2 d) nodes
      ∧ ((storeHosts schedule snmp hosts nodes).2 = .ok ()
        ↔ (hostsBefore schedule snmp hosts).length = hosts.length) := by
  induction hosts generalizing nodes with
  | nil => exact ⟨rfl, iff_of_true rfl rfl⟩
  | cons e hosts ih =>
    obtain ⟨n, host⟩ := e
    unfold storeHosts hostsBefore
    cases hinherit : inheritSettings schedule snmp host with
    | error err => exact ⟨rfl, iff_of_false (fun h => (by cases h)) (by simp)⟩
    | ok host' =>
      obtain ⟨hnodes, hok⟩ := ih (AList.insert n host' nodes)
      refine ⟨hnodes, hok.trans ?_⟩
      rw [List.length_cons, List.length_cons]
      omega

/-- A file that is not empty, by its hosts. -/
theorem loadNodeFile_of_ne_null {this : Yaml} (nodes : Dict String Yaml) (hnull : this ≠ .null) :
    loadNodeFile this nodes = match hostsOf this with
      | .error e => (nodes, .error e)
      | .ok none => (nodes, .ok ())
      | .ok (some (schedule, snmp, hosts)) => storeHosts schedule snmp hosts nodes := by
  cases this <;> first | exact absurd rfl hnull | rfl

theorem fileHosts_eq (this : Yaml) : fileHosts this = match hostsOf this with
    | .ok (some (schedule, snmp, hosts)) => hostsBefore schedule snmp hosts
    | _ => [] := by
  cases this <;> rfl

theorem loadNodeFile_eq (this : Yaml) (nodes : Dict String Yaml) :
    (loadNodeFile this nodes).1
        = (fileHosts this).foldl (fun d e => AList.insert e.1 e.2 d) nodes
      ∧ ((loadNodeFile this nodes).2 = .ok () ↔ WellFormed this) := by
  by_cases hnull : this = .null
  · subst hnull
    exact ⟨rfl, iff_of_true rfl (Or.inl rfl)⟩
  · unfold WellFormed
    rw [loadNodeFile_of_ne_null nodes hnull, fileHosts_eq]
    cases hostsOf this with
    | error e => simp [hnull]
    | ok hosts =>
      cases hosts with
      | none => simp
      | some hosts =>
        obtain ⟨schedule, snmp, hosts⟩ := hosts
        obtain ⟨hnodes, hok⟩ := storeHosts_eq schedule snmp hosts nodes
        simp [hnull, hnodes, hok]

/-- What the node files leave when the file `bad` cannot be read or is malformed. -/
theorem loadNodeFiles_split {before : List Yaml} {bad : Except Exn Yaml}
    (hbefore : ∀ this ∈ before, WellFormed this) (hbad : ∀ this, bad = .ok this → ¬ WellFormed this)
    (after : List (Except Exn Yaml)) (nodes : Dict String Yaml) :
    (loadNodeFiles (before.map Except.ok ++ bad :: after) nodes).1
        = (before.flatMap fileHosts ++ (bad.toOption.map fileHosts).getD []).foldl
          (fun d e => AList.insert e.1 e.2 d) nodes := by
  induction before generalizing nodes with
  | nil =>
    cases bad with
    | error e => rfl
    | ok this =>
      -- what a malformed file names before its fault is stored all the same
      obtain ⟨hnodes, hok⟩ := loadNodeFile_eq this nodes
      have hfail := mt hok.mp (hbad this rfl)
      simp only [List.map_nil, List.nil_append, loadNodeFiles]
      split
      · rename_i q e hq
        rw [hq] at hnodes
        exact hnodes
      · rename_i q hq
        rw [hq] at hfail
        exact absurd rfl hfail
  | cons this before ih =>
    obtain ⟨hnodes, hok⟩ := loadNodeFile_eq this nodes
    have hgood := hok.mpr (hbefore this List.mem_cons_self)
    simp only [List.map_cons, List.cons_append, loadNodeFiles]
    split
    · rename_i q e hq
      rw [hq] at hgood
      cases hgood
    · rename_i q hq
      rw [hq] at hnodes
      have hq' : q = (fileHosts this).foldl (fun d e => AList.insert e.1 e.2 d) nodes := hnodes
      rw [ih (fun x hx => hbefore x (List.mem_cons_of_mem this hx)), List.flatMap_cons,
        List.append_assoc, List.foldl_append (l := fileHosts this), ← hq']

/-- When the node files cannot all be loaded, there is a first one at fault. -/
theorem exists_split {files : List (Except Exn Yaml)} {nodes : Dict String Yaml}
    (h : (loadNodeFiles files nodes).2 ≠ .ok ()) :
    ∃ (before : List Yaml) (bad : Except Exn Yaml) (after : List (Except Exn Yaml)),
      files = before.map Except.ok ++ bad :: after ∧ (∀ this ∈ before, WellFormed this)
        ∧ ∀ this, bad = .ok this → ¬ WellFormed this := by
  induction files generalizing nodes with
  | nil => exact absurd rfl h
  | cons file files ih =>
    cases file with
    | error e =>
      exact ⟨[], .error e, files, rfl, fun x hx => absurd hx List.not_mem_nil,
        fun this hthis => (by cases hthis)⟩
    | ok this =>
      have hok := (loadNodeFile_eq this nodes).2
      -- the first file is at fault, or the fault is in the rest
      by_cases hgood : WellFormed this
      · have hrest : (loadNodeFiles files (loadNodeFile this nodes).1).2 ≠ .ok () := by
          simp only [loadNodeFiles] at h
          split at h
          · rename_i q e hq
            rw [hq] at hok
            cases hok.mpr hgood
          · rename_i q hq
            rw [hq]
            exact h
        obtain ⟨before, bad, after, hfiles, hbefore, hbad⟩ := ih hrest
        refine ⟨this :: before, bad, after, by rw [hfiles]; rfl, fun x hx => ?_, hbad⟩
        rcases List.mem_cons.mp hx with rfl | hx
        · exact hgood
        · exact hbefore x hx
      · refine ⟨[], .ok this, files, rfl, fun x hx => absurd hx List.not_mem_nil,
          fun this' hthis' => ?_⟩
        cases hthis'
        exact hgood

/-- **A failed reload.**  When a reload fails in loading the files, the parser is as it was just
when it held already what has been read before the failure. -/
theorem resetSchedule_eq_iff {p : Parser} {files : Files} (ticks : String → String → Tick)
    (hcur : ∃ cur, p.current = .ok cur) (hload : (p.load files).2 ≠ .ok ()) :
    (p.resetSchedule files ticks).1 = p ↔ HoldsRead files p := by
  obtain ⟨cur, hcur⟩ := hcur
  -- the reload stops at the load, before it touches the heap
  have hreset : (p.resetSchedule files ticks).1 = (p.load files).1 := by
    unfold Parser.resetSchedule
    rw [hcur]
    cases hq : p.load files with
    | mk q r =>
      rw [hq] at hload
      cases r with
      | error e => rfl
      | ok u => exact absurd rfl hload
  have heq : ∀ settings nodes, (⟨settings, nodes, p.heap⟩ : Parser) = p
      ↔ p.settings = settings ∧ p.nodes = nodes := by
    intro settings nodes
    constructor
    · intro h
      rw [← h]
      exact ⟨rfl, rfl⟩
    · rintro ⟨rfl, rfl⟩
      rfl
  rw [hreset]
  unfold HoldsRead
  unfold Parser.load at hload ⊢
  cases hschedule : files.schedule.getD (.ok (.dict [])) with
  | error e =>
    simp only [heq, and_true]
  | ok schedule =>
    cases hsnmp : files.snmp with
    | error e => simp only [heq, and_true]
    | ok snmp =>
      simp only [hschedule, hsnmp] at hload
      simp only [heq]
      -- the settings could be read, so the fault is in the node files
      refine and_congr_right (fun _ => ?_)
      constructor
      · intro hnodes
        obtain ⟨before, bad, after, hfiles, hbefore, hbad⟩ := exists_split hload
        refine ⟨before, bad, after, hfiles, hbefore, hbad, ?_⟩
        rw [hnodes, hfiles, loadNodeFiles_split hbefore hbad after ∅]
        rfl
      · rintro ⟨before, bad, after, hfiles, hbefore, hbad, hnodes⟩
        rw [hnodes, hfiles, loadNodeFiles_split hbefore hbad after ∅]
        rfl

/-- The configuration of one host, with the schedule file missing. -/
def missingSchedule : Files :=
  { sampleFiles "60 +- 4" ["a"] with schedule := some (.error (.exception "no such file")) }

/-- After a reload without the schedule file, another one changes nothing. -/
theorem resetSchedule_eq_iff_missingSchedule :
    (((sampleParser "60 +- 4" ["a"]).load missingSchedule).1.resetSchedule missingSchedule
        (fun _ _ => tickAt 100)).1 = ((sampleParser "60 +- 4" ["a"]).load missingSchedule).1 := by
  refine (resetSchedule_eq_iff _ ⟨[("a", [])], ?_⟩ ?_).mpr rfl
  · decide
  · decide

/-- A node file that is missing takes its hosts out of the schedule as their entries come up. -/
theorem not_unchanged_missingNodes :
    let p := ((sampleParser "60 +- 4" ["a"]).initSchedule (fun _ _ => tickAt 100)).1
    let files := { sampleFiles "60 +- 4" ["a"] with nodes := [.error (.exception "no such file")] }
    let q := (p.resetSchedule files (fun _ _ => tickAt 100)).1
    (p.load files).2 = .error (.exception "no such file") ∧ q ≠ p
      ∧ (p.next (tickAt 100)).1.pairs = [("a", "ports")]
      ∧ (q.next (tickAt 100)).1.pairs = [] := by
  refine ⟨by decide, fun heq => ?_, by decide, by decide⟩
  exact absurd (congrArg (fun r => r.nodes.keys) heq) (by decide)

end Scheduler
