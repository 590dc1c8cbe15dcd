/-
# The schedulers of several hosts

Every host runs the loop on its own copy of the schedule and publishes what its ring gives to
it.  The hosts share nothing but the heartbeats in memcache, which each of them reads, adds
its own to, and puts back some time later, so that one host may overwrite what another one
has put there; memcache may also lose them.  A host may crash, and starts again with an
empty ring and a new schedule.  The steps of the hosts are interleaved in any order.

While every refresh finds just the hosts of a set alive, and mentions all hosts of the ring
that it refreshes, the rings come to agree.  From then on each pair is published by one host
alone, over the whole cluster no sooner than its period less its spread after the last time.
-/
import Ptolemy.SchedulerDeadlines
import Ptolemy.HeartbeatRing

namespace DistributedScheduleManager

open Scheduler

/-! ## The cluster -/

/-- One host: its ring and its loop. -/
structure Host where
  manager : Manager
  loop : Loop

/-- All hosts, what memcache has, what each host has yet to put there, and all requests that
have been published, the latest first. -/
structure Cluster where
  hosts : String → Host
  memcache : Option States
  pending : String → Option States
  published : List (String × Dispatch)

/-- One step of one host, or of memcache. -/
inductive Event
  /-- A round of the loop: the clock when the first entry is looked at, and what `next` takes. -/
  | round (i : String) (now : ℚ) (tick : Tick)
  /-- `update_ring` up to where it puts the heartbeats back. -/
  | update (i : String) (n t : ℚ) (order : IterOrder)
  /-- The heartbeats arrive in memcache. -/
  | put (i : String)
  /-- Memcache loses the heartbeats. -/
  | evict
  /-- A host starts again, with new draws and clocks. -/
  | restart (i : String) (ticks : String → String → Tick)

section cluster

variable (p : Parser) (getNode : Finset String → String → Option String)
  (text : String × String → String)

/-- What a host takes from its surroundings in a round: its ring decides what is its own. -/
def roundOf (c : Cluster) (i : String) (now : ℚ) (tick : Tick) : Round :=
  ⟨now, tick, fun e => decide (getNode (c.hosts i).manager.ring (text e.pair) = some i)⟩

/-- The call of `update_ring` on what memcache has. -/
def callOf (c : Cluster) (n t : ℚ) (order : IterOrder) : Call := ⟨n, c.memcache, t, order⟩

/-- A host that starts: it knows of no other host, and has all pairs in its schedule. -/
def startHost (i : String) (ticks : String → String → Tick) : Host :=
  ⟨{ hostId := i }, Scheduler.start p ticks⟩

/-- The cluster after one step. -/
def clusterStep (c : Cluster) : Event → Cluster
  | .round i now tick =>
      let h := c.hosts i
      let l := Scheduler.processTask h.loop (roundOf getNode text c i now tick)
      { c with
        hosts := Function.update c.hosts i { h with loop := l }
        published := (l.dispatched.take (l.dispatched.length - h.loop.dispatched.length)).map
          (fun d => (i, d)) ++ c.published }
  | .update i n t order =>
      let h := c.hosts i
      let r := updateRing h.manager (callOf c n t order)
      { c with
        hosts := Function.update c.hosts i { h with manager := r.1 }
        pending := match r.2 with
          | none => c.pending
          | some states => Function.update c.pending i (some states) }
  | .put i =>
      match c.pending i with
      | none => c
      | some states =>
          { c with memcache := some states, pending := Function.update c.pending i none }
  | .evict => { c with memcache := none }
  | .restart i ticks =>
      { c with
        hosts := Function.update c.hosts i (startHost p i ticks)
        pending := Function.update c.pending i none }

/-- All hosts start on the same files, with draws and clocks of their own. -/
def boot (ticks : String → String → String → Tick) : Cluster where
  hosts i := startHost p i (ticks i)
  memcache := none
  pending _ := none
  published := []

/-- The rounds of one host in a run. -/
def roundsOf (i : String) : Cluster → List Event → List Round
  | _, [] => []
  | c, e :: es =>
      match e with
      | .round j now tick =>
          let rest := roundsOf i (clusterStep p getNode text c e) es
          if j = i then roundOf getNode text c i now tick :: rest else rest
      | _ => roundsOf i (clusterStep p getNode text c e) es

end cluster

/-! ## Each host by itself -/

section hosts

variable {p : Parser} {getNode : Finset String → String → Option String}
  {text : String × String → String} {c : Cluster}

/-- The host does not start again. -/
def Stays (i : String) (es : List Event) : Prop := ∀ ticks, Event.restart i ticks ∉ es

theorem Stays.head {i : String} {e : Event} {es : List Event} (h : Stays i (e :: es)) :
    Stays i [e] := fun ticks hmem => h ticks (List.mem_singleton.mp hmem ▸ List.mem_cons_self)

theorem Stays.tail {i : String} {e : Event} {es : List Event} (h : Stays i (e :: es)) :
    Stays i es := fun ticks hmem => h ticks (List.mem_cons_of_mem e hmem)

theorem Stays.append {i : String} {es es' : List Event} (h : Stays i es) (h' : Stays i es') :
    Stays i (es ++ es') := fun ticks hmem => (List.mem_append.mp hmem).elim (h ticks) (h' ticks)

/-- A step changes the loop of a host in its own rounds, and where the host starts again. -/
theorem loop_clusterStep (e : Event) (i : String) (h : Stays i [e]) :
    ((clusterStep p getNode text c e).hosts i).loop
      = Run.run Scheduler.processTask (c.hosts i).loop (roundsOf p getNode text i c [e]) := by
  cases e with
  | round j now tick =>
    by_cases hj : j = i
    · subst hj
      simp only [clusterStep, roundsOf, if_true, Function.update_self]
      rfl
    · simp only [clusterStep, roundsOf, hj, if_false,
        Function.update_of_ne (Ne.symm hj)]
      rfl
  | update j n t order =>
    by_cases hj : j = i
    · subst hj
      simp only [clusterStep, Function.update_self]
      rfl
    · simp only [clusterStep, Function.update_of_ne (Ne.symm hj)]
      rfl
  | put j =>
    simp only [clusterStep]
    cases c.pending j <;> rfl
  | evict => rfl
  | restart j ticks =>
    have hj : i ≠ j := fun heq => h ticks (heq ▸ List.mem_cons_self)
    simp only [clusterStep, Function.update_of_ne hj]
    rfl

theorem roundsOf_cons (i : String) (e : Event) (es : List Event) :
    roundsOf p getNode text i c (e :: es) = roundsOf p getNode text i c [e]
      ++ roundsOf p getNode text i (clusterStep p getNode text c e) es := by
  cases e with
  | round j now tick =>
    simp only [roundsOf]
    split_ifs <;> rfl
  | update j n t order => rfl
  | put j => rfl
  | evict => rfl
  | restart j ticks => rfl

theorem roundsOf_append (i : String) (es es' : List Event) :
    roundsOf p getNode text i c (es ++ es') = roundsOf p getNode text i c es
      ++ roundsOf p getNode text i (Run.run (clusterStep p getNode text) c es) es' := by
  induction es generalizing c with
  | nil => rfl
  | cons e es ih =>
    rw [List.cons_append, roundsOf_cons, ih, roundsOf_cons i e es, List.append_assoc]
    rfl

/-- **Projection**: in the cluster the loop of a host runs as it does by itself, on the rounds that
the host makes and the ring that it has in each of them. -/
theorem loop_run {i : String} {es : List Event} (h : Stays i es) :
    ((Run.run (clusterStep p getNode text) c es).hosts i).loop
      = Run.run Scheduler.processTask (c.hosts i).loop (roundsOf p getNode text i c es) := by
  induction es generalizing c with
  | nil => rfl
  | cons e es ih =>
    rw [Run.run_cons, ih h.tail, loop_clusterStep e i h.head, roundsOf_cons i e es, Run.run_append]

/-- The draws and clocks with which a host was last started. -/
inductive LastStart (ticks : String → String → String → Tick) (i : String) (es : List Event) :
    (String → String → Tick) → Prop where
  | boot (h : Stays i es) : LastStart ticks i es (ticks i)
  | restart {es' es'' : List Event} {ticks' : String → String → Tick}
      (hes : es = es' ++ .restart i ticks' :: es'') (h : Stays i es'') : LastStart ticks i es ticks'

theorem exists_lastStart (ticks : String → String → String → Tick) (i : String)
    (es : List Event) : ∃ ticks', LastStart ticks i es ticks' := by
  induction es using List.reverseRecOn with
  | nil => exact ⟨_, .boot (fun ticks hmem => absurd hmem List.not_mem_nil)⟩
  | append_singleton es e ih =>
    by_cases he : ∃ ticks', e = .restart i ticks'
    · obtain ⟨ticks', rfl⟩ := he
      exact ⟨ticks', .restart rfl (fun ticks hmem => absurd hmem List.not_mem_nil)⟩
    · have hlast : Stays i [e] := fun ticks' hmem =>
        he ⟨ticks', (List.mem_singleton.mp hmem).symm⟩
      obtain ⟨ticks', hstart⟩ := ih
      refine ⟨ticks', ?_⟩
      cases hstart with
      | boot h => exact .boot (h.append hlast)
      | restart hes h =>
        subst hes
        exact .restart (List.append_assoc _ _ _) (h.append hlast)

/-- In a cluster that has booted, the loop of a host runs as it does by itself, on the last of the
rounds that the host makes. -/
theorem loop_of_lastStart {ticks : String → String → String → Tick} {i : String}
    {es es' : List Event} {ticks' : String → String → Tick} (h : LastStart ticks i es ticks')
    (hstay : Stays i es') :
    ∃ rs, rs <:+ roundsOf p getNode text i (boot p ticks) (es ++ es') ∧
      ((Run.run (clusterStep p getNode text) (boot p ticks) (es ++ es')).hosts i).loop
        = Run.run Scheduler.processTask (Scheduler.start p ticks') rs := by
  cases h with
  | boot h => exact ⟨_, List.suffix_rfl, loop_run (h.append hstay)⟩
  | restart hes h =>
    rename_i es₁ es₂
    subst hes
    have hsplit : es₁ ++ Event.restart i ticks' :: es₂ ++ es'
        = (es₁ ++ [Event.restart i ticks']) ++ (es₂ ++ es') := by simp
    rw [hsplit]
    rw [roundsOf_append i (es₁ ++ [Event.restart i ticks']) (es₂ ++ es')]
    refine ⟨_, List.suffix_append _ _, ?_⟩
    rw [Run.run_append, loop_run (h.append hstay)]
    congr 1
    rw [Run.run_append, Run.run_cons]
    show ((clusterStep p getNode text _ (.restart i ticks')).hosts i).loop = _
    simp only [clusterStep, Function.update_self, startHost]

/-- A round adds to the requests what the loop takes as its own. -/
theorem dispatched_processTask (l : Loop) (r : Round) :
    ∃ new, (Scheduler.processTask l r).dispatched = new ++ l.dispatched
      ∧ ∀ d ∈ new, r.mine d.entry = true := by
  have hnone : ∃ new, l.dispatched = new ++ l.dispatched ∧ ∀ d ∈ new, r.mine d.entry = true :=
    ⟨[], rfl, fun d hd => absurd hd List.not_mem_nil⟩
  unfold Scheduler.processTask
  split_ifs with hrun
  · split
    · exact hnone
    · split_ifs
      · split
        · exact hnone
        · rename_i p e hnext
          by_cases hmine : r.mine e = true
          · refine ⟨[⟨e, r.now, r.tick.now⟩], if_pos hmine, fun d hd => ?_⟩
            rw [List.mem_singleton.mp hd]
            exact hmine
          · simp only [hmine, Bool.false_eq_true, if_false]
            exact hnone
      · exact hnone
  · exact hnone

variable (p getNode text c) in
/-- A step publishes what the ring of its host gives to it, and the loop of the host notes it. -/
theorem published_clusterStep (e : Event) :
    ∃ new, (clusterStep p getNode text c e).published = new ++ c.published
      ∧ (∀ x ∈ new, (∃ now tick, e = .round x.1 now tick)
        ∧ getNode (c.hosts x.1).manager.ring (text x.2.entry.pair) = some x.1)
      ∧ ∀ i, Stays i [e] → ((clusterStep p getNode text c e).hosts i).loop.dispatched
        = (new.filter (fun x => decide (x.1 = i))).map Prod.snd
          ++ (c.hosts i).loop.dispatched := by
  have hsame : (clusterStep p getNode text c e).published = c.published →
      (∀ i, Stays i [e] → ((clusterStep p getNode text c e).hosts i).loop = (c.hosts i).loop) →
      ∃ new, (clusterStep p getNode text c e).published = new ++ c.published
        ∧ (∀ x ∈ new, (∃ now tick, e = .round x.1 now tick)
          ∧ getNode (c.hosts x.1).manager.ring (text x.2.entry.pair) = some x.1)
        ∧ ∀ i, Stays i [e] → ((clusterStep p getNode text c e).hosts i).loop.dispatched
          = (new.filter (fun x => decide (x.1 = i))).map Prod.snd
            ++ (c.hosts i).loop.dispatched := by
    intro hpublished hloop
    refine ⟨[], hpublished, fun x hx => absurd hx List.not_mem_nil, fun i hi => ?_⟩
    rw [hloop i hi]
    rfl
  cases e with
  | round j now tick =>
    obtain ⟨new, hnew, hmine⟩ :=
      dispatched_processTask (c.hosts j).loop (roundOf getNode text c j now tick)
    refine ⟨new.map (fun d => (j, d)), ?_, fun x hx => ?_, fun i _ => ?_⟩
    · simp only [clusterStep, hnew, List.length_append, Nat.add_sub_cancel, List.take_left]
    · obtain ⟨d, hd, rfl⟩ := List.mem_map.mp hx
      exact ⟨⟨now, tick, rfl⟩, of_decide_eq_true (hmine d hd)⟩
    · rw [List.filter_map, List.map_map]
      by_cases hj : j = i
      · subst hj
        simp only [clusterStep, Function.update_self, hnew]
        simp [Function.comp_def]
      · simp only [clusterStep, Function.update_of_ne (Ne.symm hj)]
        simp [Function.comp_def, hj]
  | update j n t order => exact hsame rfl (fun i hi => loop_clusterStep _ i hi)
  | put j =>
    refine hsame ?_ (fun i hi => loop_clusterStep _ i hi)
    simp only [clusterStep]
    cases c.pending j <;> rfl
  | evict => exact hsame rfl (fun i hi => rfl)
  | restart j ticks => exact hsame rfl (fun i hi => loop_clusterStep _ i hi)

variable (p getNode text c) in
/-- What a run publishes, over the cluster and by each host: a request is published in a round of
its host, whose ring gives the pair to it. -/
theorem published_run (es : List Event) :
    ∃ new, (Run.run (clusterStep p getNode text) c es).published = new ++ c.published
      ∧ (∀ x ∈ new, ∃ es' es'' now tick, es = es' ++ .round x.1 now tick :: es''
        ∧ getNode ((Run.run (clusterStep p getNode text) c es').hosts x.1).manager.ring
          (text x.2.entry.pair) = some x.1)
      ∧ ∀ i, Stays i es → ((Run.run (clusterStep p getNode text) c es).hosts i).loop.dispatched
        = (new.filter (fun x => decide (x.1 = i))).map Prod.snd
          ++ (c.hosts i).loop.dispatched := by
  induction es generalizing c with
  | nil => exact ⟨[], rfl, fun x hx => absurd hx List.not_mem_nil, fun i _ => rfl⟩
  | cons e es ih =>
    obtain ⟨new, hnew, hround, hloop⟩ := published_clusterStep p getNode text c e
    obtain ⟨new', hnew', hround', hloop'⟩ := ih (clusterStep p getNode text c e)
    refine ⟨new' ++ new, ?_, fun x hx => ?_, fun i hi => ?_⟩
    · rw [Run.run_cons, hnew', hnew, List.append_assoc]
    · rcases List.mem_append.mp hx with hx | hx
      · obtain ⟨es', es'', now, tick, rfl, hring⟩ := hround' x hx
        exact ⟨e :: es', es'', now, tick, rfl, hring⟩
      · obtain ⟨⟨now, tick, rfl⟩, hring⟩ := hround x hx
        exact ⟨[], es, now, tick, rfl, hring⟩
    · rw [Run.run_cons, hloop' i hi.tail, hloop i hi.head, List.filter_append, List.map_append,
        List.append_assoc]

/-- Of what the loops have noted since their hosts started, all has been published. -/
theorem mem_published_run {es : List Event}
    (h : ∀ i, ∀ x ∈ (c.hosts i).loop.dispatched, (i, x) ∈ c.published) {i : String} {x : Dispatch}
    (hx : x ∈ ((Run.run (clusterStep p getNode text) c es).hosts i).loop.dispatched) :
    (i, x) ∈ (Run.run (clusterStep p getNode text) c es).published := by
  induction es generalizing c with
  | nil => exact h i x hx
  | cons e es ih =>
    refine ih (fun j y hy => ?_) hx
    obtain ⟨new, hnew, -, hloop⟩ := published_clusterStep p getNode text c e
    rw [hnew]
    by_cases hj : Stays j [e]
    · rw [hloop j hj] at hy
      rcases List.mem_append.mp hy with hy | hy
      · obtain ⟨z, hz, rfl⟩ := List.mem_map.mp hy
        obtain ⟨hz, hj⟩ := List.mem_filter.mp hz
        rw [← of_decide_eq_true hj]
        exact List.mem_append_left _ hz
      · exact List.mem_append_right _ (h j y hy)
    · -- a host that starts again has noted nothing
      obtain ⟨ticks, rfl⟩ : ∃ ticks, e = .restart j ticks := by
        by_contra hnone
        exact hj (fun ticks hmem => hnone ⟨ticks, (List.mem_singleton.mp hmem).symm⟩)
      simp only [clusterStep, Function.update_self, startHost, Scheduler.start] at hy
      exact absurd hy List.not_mem_nil

end hosts

/-! ## Agreement -/

section calm

variable {p : Parser} {getNode : Finset String → String → Option String}
  {text : String × String → String} {c : Cluster} {H : Finset String}

/-- The steps of a time in which the hosts of `H` are alive and no others: none of them starts
again, and a refresh reads a fresh heartbeat of each of them and of no other host, and it reads of
all hosts of its ring. -/
def Calm (H : Finset String) (c : Cluster) : Event → Prop
  | .round i _ _ => i ∈ H
  | .update i n t _ => i ∈ H ∧ ((c.hosts i).manager.isDue n = true →
      (∀ j, Live t (refreshed (c.hosts i).manager.hostId t c.memcache) j ↔ j ∈ H)
        ∧ ∀ j ∈ (c.hosts i).manager.ring, j ∈ refreshed (c.hosts i).manager.hostId t c.memcache)
  | .put _ => True
  | .evict => True
  | .restart i _ => i ∉ H

theorem stays_of_calm {es : List Event}
    (hcalm : Run.Along (clusterStep p getNode text) (Calm H) c es) {i : String} (hi : i ∈ H) :
    Stays i es := by
  intro ticks hmem
  obtain ⟨es', es'', hes⟩ := List.append_of_mem hmem
  exact hcalm.at hes hi

variable (p getNode text) in
/-- A refresh in a calm time gives the host the ring of `H`. -/
theorem ring_update (i : String) {n t : ℚ} {order : IterOrder}
    (h : Calm H c (.update i n t order)) (hdue : (c.hosts i).manager.isDue n = true) :
    ((clusterStep p getNode text c (.update i n t order)).hosts i).manager.ring = H := by
  obtain ⟨-, hcalm⟩ := h
  obtain ⟨hlive, hmention⟩ := hcalm hdue
  simp only [clusterStep, Function.update_self]
  rw [updateRing_of_due (show (c.hosts i).manager.isDue (callOf c n t order).n = true from hdue)]
  ext j
  rw [mem_buildRing]
  exact (or_iff_left (fun hleft => hleft.1 (hmention j hleft.2))).trans (hlive j)

/-- A host whose ring is `H` keeps it. -/
theorem ring_calm (e : Event) (h : Calm H c e) {i : String} (hi : i ∈ H)
    (hring : (c.hosts i).manager.ring = H) :
    ((clusterStep p getNode text c e).hosts i).manager.ring = H := by
  cases e with
  | round j now tick =>
    by_cases hj : i = j
    · subst hj
      simp only [clusterStep, Function.update_self]
      exact hring
    · simp only [clusterStep, Function.update_of_ne hj]
      exact hring
  | update j n t order =>
    by_cases hj : i = j
    · subst hj
      by_cases hdue : (c.hosts i).manager.isDue n = true
      · exact ring_update p getNode text i h hdue
      · have hidle : updateRing (c.hosts i).manager (callOf c n t order)
            = ((c.hosts i).manager, none) := if_neg hdue
        simp only [clusterStep, Function.update_self, hidle]
        exact hring
    · simp only [clusterStep, Function.update_of_ne hj]
      exact hring
  | put j =>
    simp only [clusterStep]
    cases c.pending j with
    | none => exact hring
    | some states => exact hring
  | evict => exact hring
  | restart j ticks =>
    have hj : i ≠ j := fun heq => h (heq ▸ hi)
    simp only [clusterStep, Function.update_of_ne hj]
    exact hring

variable (p getNode text) in
/-- The host refreshes its ring in a run. -/
def Refreshes (i : String) (c : Cluster) (es : List Event) : Prop :=
  ∃ es' es'' n t order, es = es' ++ .update i n t order :: es''
    ∧ ((Run.run (clusterStep p getNode text) c es').hosts i).manager.isDue n = true

/-- In a calm run, a host whose ring is `H` keeps it. -/
theorem ring_run {es : List Event} (hcalm : Run.Along (clusterStep p getNode text) (Calm H) c es)
    {i : String} (hi : i ∈ H) (hring : (c.hosts i).manager.ring = H) :
    ((Run.run (clusterStep p getNode text) c es).hosts i).manager.ring = H :=
  (Run.Along.always (I := fun c => (c.hosts i).manager.ring = H)
    (fun _ e hring he => ring_calm e he hi hring) hring hcalm).last

/-- In a calm run, a host that refreshes its ring has the ring of `H` in the end. -/
theorem ring_of_refreshes {es : List Event}
    (hcalm : Run.Along (clusterStep p getNode text) (Calm H) c es) {i : String} (hi : i ∈ H)
    (h : Refreshes p getNode text i c es) :
    ((Run.run (clusterStep p getNode text) c es).hosts i).manager.ring = H := by
  obtain ⟨es', es'', n, t, order, rfl, hdue⟩ := h
  obtain ⟨-, hupdate, hrest⟩ := Run.along_append.mp hcalm
  rw [Run.run_append, Run.run_cons]
  exact ring_run hrest hi (ring_update p getNode text i hupdate hdue)

/-- What is published in a calm run from then on is published by the host that has it in `H`. -/
theorem owner_run {es : List Event} (hcalm : Run.Along (clusterStep p getNode text) (Calm H) c es)
    (hrings : ∀ i ∈ H, (c.hosts i).manager.ring = H) {x : String × Dispatch} {es' es'' : List Event}
    {now : ℚ} {tick : Tick} (hes : es = es' ++ .round x.1 now tick :: es'')
    (hring : getNode ((Run.run (clusterStep p getNode text) c es').hosts x.1).manager.ring
      (text x.2.entry.pair) = some x.1) :
    x.1 ∈ H ∧ getNode H (text x.2.entry.pair) = some x.1 := by
  have hmem : x.1 ∈ H := hcalm.at hes
  subst hes
  rw [ring_run (Run.along_append.mp hcalm).1 hmem (hrings _ hmem)] at hring
  exact ⟨hmem, hring⟩

/-- In such a run the rounds of a host all have the ring of `H`. -/
theorem mine_run {es : List Event} (hcalm : Run.Along (clusterStep p getNode text) (Calm H) c es)
    {i : String} (hi : i ∈ H) (hring : (c.hosts i).manager.ring = H) :
    ∀ r ∈ roundsOf p getNode text i c es, ∀ e,
      r.mine e = decide (getNode H (text e.pair) = some i) := by
  induction es generalizing c with
  | nil => exact fun r hr => absurd hr List.not_mem_nil
  | cons e es ih =>
    intro r hr
    rw [roundsOf_cons] at hr
    rcases List.mem_append.mp hr with hr | hr
    · cases e with
      | round j now tick =>
        simp only [roundsOf] at hr
        split_ifs at hr with hj
        · rw [List.mem_singleton.mp hr]
          intro e
          rw [roundOf, hring]
        · exact absurd hr List.not_mem_nil
      | update j n t order => exact absurd hr List.not_mem_nil
      | put j => exact absurd hr List.not_mem_nil
      | evict => exact absurd hr List.not_mem_nil
      | restart j ticks => exact absurd hr List.not_mem_nil
    · exact ih hcalm.2 (ring_calm e hcalm.1 hi hring) r hr

end calm

/-! ## One publisher for each pair -/

section publisher

variable {p : Parser} {getNode : Finset String → String → Option String}
  {text : String × String → String} {H : Finset String} {ticks : String → String → String → Tick}
  {es₁ es₂ es₃ : List Event}

/-- The loop of each host has kept its own requests apart, since it was last started. -/
theorem spaced_boot (hheap : p.heap = []) {es es' : List Event} {i : String} (hstay : Stays i es')
    (hinit : ∀ ticks', LastStart ticks i es ticks' → (p.initSchedule ticks').2 = .ok ())
    (hclock : (readings (roundsOf p getNode text i (boot p ticks) (es ++ es'))).Pairwise (· ≤ ·)) :
    ∃ now, Spaced p now
      ((Run.run (clusterStep p getNode text) (boot p ticks) (es ++ es')).hosts i).loop := by
  obtain ⟨ticks', hstart⟩ := exists_lastStart ticks i es
  obtain ⟨rs, ⟨rs', hrs⟩, hloop⟩ := @loop_of_lastStart p getNode text ticks i es es' ticks'
    hstart hstay
  rw [hloop]
  rw [← hrs, readings, List.flatMap_append] at hclock
  exact spaced_run hheap (hinit ticks' hstart) (List.pairwise_append.mp hclock).2.1

/-- The rings that a run has brought to agree. -/
theorem rings_agree (hcalm : Run.Along (clusterStep p getNode text) (Calm H)
      (Run.run (clusterStep p getNode text) (boot p ticks) es₁) (es₂ ++ es₃))
    (hrefresh : ∀ i ∈ H, Refreshes p getNode text i
      (Run.run (clusterStep p getNode text) (boot p ticks) es₁) es₂) :
    Run.Along (clusterStep p getNode text) (Calm H)
        (Run.run (clusterStep p getNode text) (boot p ticks) (es₁ ++ es₂)) es₃
      ∧ ∀ i ∈ H, ((Run.run (clusterStep p getNode text) (boot p ticks)
        (es₁ ++ es₂)).hosts i).manager.ring = H := by
  obtain ⟨hfirst, hrest⟩ := Run.along_append.mp hcalm
  rw [Run.run_append]
  exact ⟨hrest, fun i hi => ring_of_refreshes hfirst hi (hrefresh i hi)⟩

/-- **One publisher.**  After any run, with any crashes, let the hosts of `H` be alive and no others
until each of them has refreshed its ring, and from then on.  What is published from then on is published by the
host that has the pair in `H`, and over the whole cluster two requests for one pair with the period
`t +- d` are at least `t - d` seconds apart. -/
theorem published_once (hheap : p.heap = [])
    (hinit : ∀ i ∈ H, ∀ ticks', LastStart ticks i es₁ ticks' → (p.initSchedule ticks').2 = .ok ())
    (hclock : ∀ i ∈ H, (readings (roundsOf p getNode text i (boot p ticks)
      (es₁ ++ es₂ ++ es₃))).Pairwise (· ≤ ·))
    (hcalm : Run.Along (clusterStep p getNode text) (Calm H)
      (Run.run (clusterStep p getNode text) (boot p ticks) es₁) (es₂ ++ es₃))
    (hrefresh : ∀ i ∈ H, Refreshes p getNode text i
      (Run.run (clusterStep p getNode text) (boot p ticks) es₁) es₂) :
    ∃ new, (Run.run (clusterStep p getNode text) (boot p ticks) (es₁ ++ es₂ ++ es₃)).published
        = new ++ (Run.run (clusterStep p getNode text) (boot p ticks) (es₁ ++ es₂)).published
      ∧ (∀ x ∈ new, x.1 ∈ H ∧ getNode H (text x.2.entry.pair) = some x.1)
      ∧ new.Pairwise (fun y x => y.2.entry.pair = x.2.entry.pair →
        ∀ t d, p.Every x.2.entry.node x.2.entry.spec t d → x.2.time + (t - d) ≤ y.2.due) := by
  obtain ⟨hrest, hrings⟩ := rings_agree hcalm hrefresh
  obtain ⟨new, hnew, hround, hloop⟩ := published_run p getNode text
    (Run.run (clusterStep p getNode text) (boot p ticks) (es₁ ++ es₂)) es₃
  have howner : ∀ x ∈ new, x.1 ∈ H ∧ getNode H (text x.2.entry.pair) = some x.1 := by
    intro x hx
    obtain ⟨es', es'', now, tick, hes, hring⟩ := hround x hx
    exact owner_run hrest hrings hes hring
  rw [← Run.run_append] at hnew hloop
  refine ⟨new, hnew, howner, List.pairwise_iff_forall_sublist.mpr (fun {y x} hyx hpair t d => ?_)⟩
  -- both requests are of one host, whose loop has kept them apart
  obtain ⟨-, hy⟩ := howner y (hyx.subset List.mem_cons_self)
  obtain ⟨hmem, hx⟩ := howner x (hyx.subset (List.mem_cons_of_mem y (List.mem_singleton_self x)))
  rw [hpair, hx] at hy
  have hsame : y.1 = x.1 := (Option.some.inj hy).symm
  have hstay : Stays x.1 (es₂ ++ es₃) := stays_of_calm hcalm hmem
  have hclock' := hclock x.1 hmem
  rw [List.append_assoc] at hclock'
  obtain ⟨now, hspaced⟩ := spaced_boot hheap hstay (hinit x.1 hmem) hclock'
  have hall := hspaced.spaced
  rw [← List.append_assoc, hloop x.1 (stays_of_calm hrest hmem), List.pairwise_append] at hall
  have hsub : [y.2, x.2].Sublist ((new.filter (fun z => decide (z.1 = x.1))).map Prod.snd) := by
    have hfilter := (hyx.filter (fun z => decide (z.1 = x.1))).map Prod.snd
    simpa [hsame] using hfilter
  exact List.pairwise_iff_forall_sublist.mp hall.1 hsub hpair t d

/-- **No pair is left out.**  In such a run the host that has a scheduled pair in `H` publishes it:
after as many rounds past the time `c` as there are pairs, it has done so later than `c - (t + d)`,
unless less than `t + d` seconds lie between `c` and the rounds before the rings agree, or less than
three times as many between `c` and the last start of the host. -/
theorem published_by_owner (hheap : p.heap = []) (hlong : ∀ n s t d, p.Every n s t d → d < t)
    (hcalm : Run.Along (clusterStep p getNode text) (Calm H)
      (Run.run (clusterStep p getNode text) (boot p ticks) es₁) (es₂ ++ es₃))
    (hrefresh : ∀ i ∈ H, Refreshes p getNode text i
      (Run.run (clusterStep p getNode text) (boot p ticks) es₁) es₂)
    {n s : String} {t d : ℚ} (hevery : p.Every n s t d) {i : String} (hi : i ∈ H)
    (howner : getNode H (text (n, s)) = some i) {ticks' : String → String → Tick}
    (hstart : LastStart ticks i es₁ ticks') (hinit : (p.initSchedule ticks').2 = .ok ())
    {u c : ℚ} (hu : ∀ r ∈ roundsOf p getNode text i (boot p ticks) (es₁ ++ es₂), r.tick.now ≤ u)
    {own last : List Round} (hrounds : roundsOf p getNode text i
      (Run.run (clusterStep p getNode text) (boot p ticks) (es₁ ++ es₂)) es₃ = own ++ last)
    (hlast : ∀ r ∈ last, c ≤ r.now ∧ c ≤ r.tick.now)
    (hlength : (p.initSchedule ticks').1.heap.length ≤ last.length) :
    c < (ticks' n s).now + 3 * (t + d) ∨ c < u + (t + d)
      ∨ ∃ x, (i, x) ∈ (Run.run (clusterStep p getNode text) (boot p ticks)
          (es₁ ++ es₂ ++ es₃)).published
        ∧ x.entry.pair = (n, s) ∧ c < x.time + (t + d) := by
  obtain ⟨hrest, hrings⟩ := rings_agree hcalm hrefresh
  have hmine : ∀ r ∈ own ++ last, ∀ e, e.pair = (n, s) → r.mine e = true := by
    intro r hr e he
    rw [← hrounds] at hr
    rw [mine_run hrest hi (hrings i hi) r hr, he]
    exact decide_eq_true howner
  -- the rounds that the host has made since it was last started
  have hstays : Stays i es₂ := stays_of_calm (Run.along_append.mp hcalm).1 hi
  obtain ⟨before, hbefore, hloop⟩ := @loop_of_lastStart p getNode text ticks i es₁ es₂ ticks'
    hstart hstays
  have hloop' : ((Run.run (clusterStep p getNode text) (boot p ticks)
      (es₁ ++ es₂ ++ es₃)).hosts i).loop
      = Run.run Scheduler.processTask (Scheduler.start p ticks') (before ++ (own ++ last)) := by
    rw [Run.run_append, loop_run (stays_of_calm hrest hi), hrounds, hloop, ← Run.run_append]
  refine (published_in_time hheap hinit hlong hevery (fun r hr => hu r (hbefore.subset hr)) hmine
    hlast hlength).imp_right (Or.imp_right (fun ⟨x, hx, hpair, hc⟩ => ⟨x, ?_, hpair, hc⟩))
  -- what the loop has published is among what the cluster has published
  exact mem_published_run (fun j y hy => absurd hy List.not_mem_nil) (hloop' ▸ hx)

end publisher

/-! ## Two schedulers -/

/-- A ring that gives the second host to the second scheduler, when it is there. -/
def sampleNode (ring : Finset String) (key : String) : Option String :=
  if key = "b:ports" ∧ "net-poll02" ∈ ring then some "net-poll02"
  else if "net-poll01" ∈ ring then some "net-poll01"
  else if "net-poll02" ∈ ring then some "net-poll02"
  else none

def sampleText (pair : String × String) : String := pair.1 ++ ":" ++ pair.2

/-- Both schedulers refresh their rings at the given time. -/
def refreshes (t : ℚ) : List Event :=
  [.update "net-poll01" t t IterOrder.stored, .put "net-poll01",
    .update "net-poll02" t t IterOrder.stored, .put "net-poll02"]

/-- Each scheduler makes two rounds. -/
def fourRounds : List Event :=
  [.round "net-poll01" 300 (tickAt 300), .round "net-poll02" 301 (tickAt 301),
    .round "net-poll02" 302 (tickAt 302), .round "net-poll01" 303 (tickAt 303)]

def twoNodes : Parser := sampleParser "60 +- 4" ["a", "b"]

/-- Both schedulers on the small configuration. -/
def twoHosts : Cluster := boot twoNodes (fun _ _ _ => tickAt 0)

/-- Both make themselves known, and the second one starts again. -/
def startUp : List Event := refreshes 0 ++ [.restart "net-poll02" (fun _ _ => tickAt 5)]

/-- What the two publish, after both have found each other. -/
def sampleRun (es : List Event) : Cluster :=
  Run.run (clusterStep twoNodes sampleNode sampleText) twoHosts es

example : (sampleRun (startUp ++ refreshes 11 ++ fourRounds)).published.map
      (fun x => (x.1, x.2.entry.pair))
    = [("net-poll02", "b", "ports"), ("net-poll01", "a", "ports")] := by
  decide +kernel

/-- Where all heartbeats are fresh, the hosts that they mention are alive. -/
theorem live_of_fresh {t : ℚ} {states : States} {H : Finset String}
    (hkeys : (states.items.map Prod.fst).toFinset = H)
    (hfresh : ∀ p ∈ states.items, t - p.2 ≤ deadTime) (i : String) : Live t states i ↔ i ∈ H := by
  rw [← hkeys, List.mem_toFinset, List.mem_map]
  constructor
  · rintro ⟨s, hs, -⟩
    exact ⟨(i, s), Dict.mem_items.mpr hs, rfl⟩
  · rintro ⟨p, hp, rfl⟩
    exact ⟨p.2, Dict.mem_items.mp hp, hfresh p hp⟩

/-- The second refresh of each finds both alive. -/
theorem calm_twoHosts : Run.Along (clusterStep twoNodes sampleNode sampleText)
    (Calm {"net-poll01", "net-poll02"}) (sampleRun startUp) (refreshes 11 ++ fourRounds) := by
  have hfirst : "net-poll01" ∈ ({"net-poll01", "net-poll02"} : Finset String) := by decide
  have hsecond : "net-poll02" ∈ ({"net-poll01", "net-poll02"} : Finset String) := by decide
  refine ⟨⟨hfirst, fun _ => ⟨live_of_fresh ?_ ?_, ?_⟩⟩, trivial,
    ⟨hsecond, fun _ => ⟨live_of_fresh ?_ ?_, ?_⟩⟩, trivial, hfirst, hsecond, hsecond, hfirst,
    trivial⟩
  all_goals decide +kernel

theorem refreshes_twoHosts : ∀ i ∈ ({"net-poll01", "net-poll02"} : Finset String),
    Refreshes twoNodes sampleNode sampleText i (sampleRun startUp) (refreshes 11) := by
  intro i hi
  rw [Finset.mem_insert, Finset.mem_singleton] at hi
  rcases hi with rfl | rfl
  · exact ⟨[], _, 11, 11, _, rfl, by decide +kernel⟩
  · exact ⟨(refreshes 11).take 2, _, 11, 11, _, rfl, by decide +kernel⟩

/-- Each of the two publishes one of the hosts. -/
theorem published_once_twoHosts : ∃ new,
    (sampleRun (startUp ++ refreshes 11 ++ fourRounds)).published
        = new ++ (sampleRun (startUp ++ refreshes 11)).published
      ∧ ∀ x ∈ new, sampleNode {"net-poll01", "net-poll02"} (sampleText x.2.entry.pair)
        = some x.1 := by
  have hclock : ∀ i ∈ ({"net-poll01", "net-poll02"} : Finset String),
      (readings (roundsOf twoNodes sampleNode sampleText i twoHosts
        (startUp ++ refreshes 11 ++ fourRounds))).Pairwise (· ≤ ·) := by
    intro i hi
    rw [Finset.mem_insert, Finset.mem_singleton] at hi
    rcases hi with rfl | rfl <;> decide +kernel
  have hinit : ∀ i ∈ ({"net-poll01", "net-poll02"} : Finset String), ∀ ticks',
      LastStart (fun _ _ _ => tickAt 0) i startUp ticks' →
        (twoNodes.initSchedule ticks').2 = .ok () := by
    rintro i - ticks' (- | ⟨hes, -⟩)
    · decide
    · have hmem : Event.restart i ticks' ∈ startUp :=
        hes ▸ List.mem_append_right _ List.mem_cons_self
      obtain ⟨-, rfl⟩ : i = "net-poll02" ∧ ticks' = fun _ _ => tickAt 5 := by
        simpa [startUp, refreshes] using hmem
      decide
  obtain ⟨new, hnew, howner, -⟩ :=
    published_once rfl hinit hclock calm_twoHosts refreshes_twoHosts
  exact ⟨new, hnew, fun x hx => (howner x hx).2⟩

/-- The second scheduler publishes the second host, as the ring asks, later than 236. -/
theorem published_by_owner_twoHosts : ∃ x, ("net-poll02", x) ∈
      (sampleRun (startUp ++ refreshes 11 ++ fourRounds)).published
    ∧ x.entry.pair = ("b", "ports") ∧ 300 < x.time + (60 + 4) := by
  have hevery : twoNodes.Every "b" "ports" 60 4 := by
    have hperiod : twoNodes.period "b" "ports" = some (.str (periodText 1 1 60 4)) := rfl
    exact_mod_cast every_of_periodText (by norm_num) hperiod
  have hstart : LastStart (fun _ _ _ => tickAt 0) "net-poll02" startUp (fun _ _ => tickAt 5) :=
    .restart rfl (fun ticks hmem => absurd hmem List.not_mem_nil)
  rcases @published_by_owner twoNodes sampleNode sampleText {"net-poll01", "net-poll02"}
    (fun _ _ _ => tickAt 0) startUp (refreshes 11)
    fourRounds rfl (fun n s t d h => by obtain ⟨rfl, rfl⟩ := every_twoHosts h; norm_num)
    calm_twoHosts refreshes_twoHosts "b" "ports" 60 4 hevery "net-poll02" (by decide)
    (by decide +kernel) _ hstart (by decide) 5 300 (by decide +kernel) []
    (roundsOf twoNodes sampleNode sampleText "net-poll02" (sampleRun (startUp ++ refreshes 11))
      fourRounds) rfl (by decide +kernel) (by decide +kernel) with h | h | h
  · exact absurd h (by norm_num [tickAt])
  · exact absurd h (by norm_num)
  · exact h

end DistributedScheduleManager
