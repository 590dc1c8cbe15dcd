/-
# Supervisors that share a memcache

Several supervisors handle the events of one key.  Each reads the state, changes
it and puts the whole of it back, with nothing to keep another one from doing the
same in between: `getState` and `commitState` are moves of their own here.

What the handled events have recorded is followed beside the memcache.  The two
agree in exactly the interleavings in which no commit puts back a time or a driver
that it has not set and that has changed since it was read.
-/
import Ptolemy.SupervisorDrivers

namespace PollerSupervisor

open Run
open Scheduler (Draw)

variable (cfg : Config)

/-! ## Reading and committing apart -/

/-- The key whose state an event reads.  A request or a log that is not valid raises before; so
does a request whose options cannot be read, which makes no move. -/
def Event.reads : Event → Option String
  | .request _ _ job =>
      match job.device, job.spec with
      | some device, some spec => some (driverKey device spec)
      | _, _ => none
  | .log _ entry => entry.state.map (fun _ => driverKey entry.device entry.spec)

/-- The state that is committed for an event, after the one that was read; none for a log that
has found no state. -/
def updated (k : String) : Event → Option PollState → Option PollState
  | .request now draw job, read => some (requestUpdate cfg k now draw job.frequency read).1
  | .log _ _, none => none
  | .log now entry, some state =>
      entry.state.map (fun t => (logUpdate cfg now entry.spec t entry.data entry.message state).1)

/-- An event that a supervisor is handling, with the state that it has read. -/
structure Handler where
  key : String
  event : Event
  read : Option PollState

/-- The memcache, and what each supervisor is handling. -/
structure Shared where
  memcache : Dict String PollState
  handlers : Dict ℕ Handler

/-- A supervisor reads the state for its next event, or commits the state for the one that it is
handling. -/
inductive Move where
  | getState (i : ℕ) (e : Event) : Move
  | commitState (i : ℕ) : Move

def Shared.state (w : Shared) (k : String) : Option PollState :=
  w.memcache.lookup (memcacheKey k)

/-- The memcache and the supervisors after a move. -/
def move (w : Shared) : Move → Shared
  | .getState i e =>
      match w.handlers.lookup i, e.reads with
      | none, some k => { w with handlers := AList.insert i ⟨k, e, w.state k⟩ w.handlers }
      | _, _ => w
  | .commitState i =>
      match w.handlers.lookup i with
      | none => w
      | some h =>
          match updated cfg h.key h.event h.read with
          | none => { w with handlers := AList.erase i w.handlers }
          | some state =>
              ⟨AList.insert (memcacheKey h.key) state w.memcache, AList.erase i w.handlers⟩

/-- **A supervisor alone**: the two moves for an event, one after the other, do to the memcache
what the supervisor does. -/
theorem move_alone (readFile : String → Option String) (cache : List String) {w : Shared} {i : ℕ}
    {e : Event} (hidle : w.handlers.lookup i = none)
    (hreach : ∀ now draw job, e = .request now draw job →
      reachesState readFile ⟨w.memcache, cache⟩ job ≠ none) :
    (run (move cfg) w [.getState i e, .commitState i]).memcache
      = (step cfg readFile ⟨w.memcache, cache⟩ e).memcache := by
  -- with no other handler between the two moves, the value read is the value replaced
  have hmoves : ∀ k, e.reads = some k → (run (move cfg) w [.getState i e, .commitState i]).memcache
      = ((updated cfg k e (w.state k)).map
        (fun state => AList.insert (memcacheKey k) state w.memcache)).getD w.memcache := by
    intro k hk
    simp only [run, List.foldl_cons, List.foldl_nil, move, hidle, hk, AList.lookup_insert]
    cases updated cfg k e (w.state k) <;> rfl
  cases e with
  | request now draw job =>
    obtain ⟨⟨device, spec⟩, hsome⟩ := Option.ne_none_iff_exists'.mp (hreach now draw job rfl)
    obtain ⟨hdevice, hspec⟩ := fields_of_reachesState readFile hsome
    rw [hmoves (driverKey device spec) (by simp only [Event.reads, hdevice, hspec]),
      (request_of_some cfg readFile now draw hsome).1]
    rfl
  | log now entry =>
    cases ht : entry.state with
    | none =>
      rw [log_of_none cfg readFile now (Or.inl ht)]
      simp only [run, List.foldl_cons, List.foldl_nil, move, hidle, Event.reads, ht,
        Option.map_none]
    | some t =>
      rw [hmoves (driverKey entry.device entry.spec) (by rw [Event.reads, ht]; rfl)]
      have hread : (Supervisor.mk w.memcache cache).state (driverKey entry.device entry.spec)
          = w.state (driverKey entry.device entry.spec) := rfl
      cases hstate : w.state (driverKey entry.device entry.spec) with
      | none =>
        rw [log_of_none cfg readFile now (Or.inr (hread.trans hstate))]
        rfl
      | some state =>
        rw [log_of_some cfg readFile now ht (hread.trans hstate), updated, ht]
        rfl

/-! ## What the events record -/

/-- The part of a state that the events record. -/
structure Recorded where
  recvd : Option ℚ
  complete : Option ℚ
  driver : Option String
  deriving DecidableEq

def PollState.recorded (state : PollState) : Recorded :=
  ⟨state.recvd, state.complete, state.lastSuccessfulDriver⟩

/-- What one event has to record: a time of a request or of a completion, and a driver or its
loss. -/
structure Entry where
  recvd : Option ℚ
  complete : Option ℚ
  driver : Option (Option String)

/-- What a log says about the driver of its key. -/
def Log.driver (entry : Log) : TaskState → Option (Option String)
  | .complete | .warning | .errored =>
      if "no suitable driver found" ∈ entry.data then some none else none
  | .info => (namedDriver entry.data).map
      (fun path => some (stripDriverPath cfg path entry.spec))
  | _ => none

/-- What an event records, handled on the state that was read: a request that is not throttled
its time, and a log the completion and the driver that it reports. -/
def Event.entry : Event → Option PollState → Entry
  | .request now _ job, read =>
      ⟨if (check cfg now job.frequency (read.getD initialState)).2.1 then some now else none,
        none, none⟩
  | .log now entry, _ =>
      match entry.state with
      | none => ⟨none, none, none⟩
      | some t =>
          ⟨none, if t = .complete ∨ t = .errored then some now else none, entry.driver cfg t⟩

/-- What is recorded after one more event: the later times, and the driver of this event if it has
one. -/
def Entry.over (w : Entry) (r : Recorded) : Recorded :=
  ⟨Option.merge max w.recvd r.recvd, Option.merge max w.complete r.complete,
    w.driver.getD r.driver⟩

/-- The shared memcache beside what the events handled so far have recorded for each key. -/
structure History where
  shared : Shared
  recorded : String → Recorded

/-- Every handled event is recorded when its handler ends. -/
def History.step (h : History) (m : Move) : History :=
  ⟨move cfg h.shared m,
    match m with
    | .getState _ _ => h.recorded
    | .commitState i =>
        match h.shared.handlers.lookup i with
        | none => h.recorded
        | some g => Function.update h.recorded g.key
            ((g.event.entry cfg g.read).over (h.recorded g.key))⟩

/-- What the state of a key holds of it. -/
def Shared.stored (w : Shared) (k : String) : Recorded := ((w.state k).getD initialState).recorded

/-- The memcache holds what the handled events have recorded. -/
def Reflected (h : History) : Prop := ∀ k, h.shared.stored k = h.recorded k

/-- The time that a commit puts back is as late as the stored one where it has set it, else it is
the stored one. -/
def TimeKept (set read stored : Option ℚ) : Prop :=
  match set with
  | some t => ∀ t' ∈ stored, t' ≤ t
  | none => read = stored

/-- The driver that a commit puts back is the one that the event has for it, else the stored
one. -/
def DriverKept (said done : Option (Option String)) (read stored : Option String) : Prop :=
  match said with
  | some driver => done.getD read = driver
  | none => read = stored

/-- The driver that the state of an event receives. -/
def Event.driver : Event → Option (Option String)
  | .request _ _ _ => none
  | .log _ entry =>
      entry.state.bind (fun t => recordedDriver cfg entry.spec t entry.data entry.message)

/-- A log that finds no state raises and commits none. -/
def Event.Lost : Event → Option PollState → Prop
  | .request _ _ _, _ => False
  | .log _ entry, read => entry.state = none ∨ read = none

/-- A handler that ends keeps what is stored: where it sets nothing, it has read what is still
stored, and a time that it sets is not earlier than that; and of a log that is lost everything is
stored already. -/
def Handler.Keeps (g : Handler) (stored : Recorded) : Prop :=
  (¬ g.event.Lost g.read →
    TimeKept (g.event.entry cfg g.read).recvd (g.read.getD initialState).recvd stored.recvd
      ∧ TimeKept (g.event.entry cfg g.read).complete (g.read.getD initialState).complete
        stored.complete
      ∧ DriverKept (g.event.entry cfg g.read).driver (g.event.driver cfg)
        (g.read.getD initialState).lastSuccessfulDriver stored.driver)
    ∧ (g.event.Lost g.read →
      (∀ t ∈ (g.event.entry cfg g.read).complete, ∃ t' ∈ stored.complete, t ≤ t')
        ∧ ∀ driver, (g.event.entry cfg g.read).driver = some driver → stored.driver = driver)

/-- Every commit keeps what is stored. -/
def Current (w : Shared) : Move → Prop
  | .getState _ _ => True
  | .commitState i => ∀ g, w.handlers.lookup i = some g → g.Keeps cfg (w.stored g.key)

/-! ## What a commit does to it -/

section commit

variable {cfg}

theorem or_eq_merge_iff {set read stored : Option ℚ} :
    set.or read = Option.merge max set stored ↔ TimeKept set read stored := by
  rcases set with _ | t
  · rcases stored with _ | t' <;> exact Iff.rfl
  · rcases stored with _ | t'
    · exact iff_of_true rfl (fun t' h => by cases h)
    · simp [TimeKept, Option.merge]

theorem merge_eq_right_iff {set stored : Option ℚ} :
    stored = Option.merge max set stored ↔ ∀ t ∈ set, ∃ t' ∈ stored, t ≤ t' := by
  rcases set with _ | t
  · rcases stored with _ | t' <;> simp [Option.merge]
  · rcases stored with _ | t' <;> simp [Option.merge]

theorem getD_eq_getD_iff {said done : Option (Option String)} {read stored : Option String}
    (h : said = none → done = none) :
    done.getD read = said.getD stored ↔ DriverKept said done read stored := by
  rcases said with _ | driver
  · rw [h rfl]
    exact Iff.rfl
  · exact Iff.rfl

/-- A log without a driver in its texts gives the state none. -/
theorem driver_eq_none {e : Event} {read : Option PollState}
    (h : (e.entry cfg read).driver = none) : e.driver cfg = none := by
  cases e with
  | request now draw job => rfl
  | log now entry =>
    rw [Event.driver]
    cases ht : entry.state with
    | none => rfl
    | some t =>
      simp only [Event.entry, ht] at h
      rw [Option.bind_some]
      cases t with
      | complete | warning | errored => exact h
      | info =>
        rw [Log.driver, Option.map_eq_none_iff] at h
        rw [recordedDriver, namedDriver_readTexts h, Option.map_none]
      | received | processing | other name => rfl

theorem updated_eq_none_iff {k : String} {e : Event} {read : Option PollState} :
    updated cfg k e read = none ↔ e.Lost read := by
  cases e with
  | request now draw job => simp [updated, Event.Lost]
  | log now entry =>
    cases read with
    | none => simp [updated, Event.Lost]
    | some state => simp [updated, Event.Lost]

/-- The record of the state that is committed. -/
theorem updated_recorded {k : String} {e : Event} {read : Option PollState} {state : PollState}
    (h : updated cfg k e read = some state) :
    state.recorded = ⟨(e.entry cfg read).recvd.or (read.getD initialState).recvd,
      (e.entry cfg read).complete.or (read.getD initialState).complete,
      (e.driver cfg).getD (read.getD initialState).lastSuccessfulDriver⟩ := by
  cases e with
  | request now draw job =>
    obtain rfl := Option.some.inj h
    obtain ⟨hcomplete, hdriver⟩ := requestUpdate_kept cfg k now draw job.frequency read
    rw [PollState.recorded, requestUpdate_recvd, hcomplete, hdriver]
    simp only [Event.entry, Event.driver]
    split_ifs <;> rfl
  | log now entry =>
    cases read with
    | none => cases h
    | some read =>
      obtain ⟨t, ht, rfl⟩ := Option.map_eq_some_iff.mp h
      rw [PollState.recorded, (logUpdate_kept cfg).1, logUpdate_complete, logUpdate_driver]
      simp only [Event.entry, Event.driver, ht]
      split_ifs <;> rfl

/-- Two records that agree are changed at one key to agree again or not. -/
theorem update_eq_update_iff {stored recorded : String → Recorded} (h : stored = recorded)
    {k : String} {r r' : Recorded} :
    Function.update stored k r = Function.update recorded k r' ↔ r = r' := by
  subst h
  constructor
  · intro heq
    have hk := congrFun heq k
    rwa [Function.update_self, Function.update_self] at hk
  · rintro rfl
    rfl

/-- After a commit the key holds the state that was committed. -/
theorem stored_insert {memcache : Dict String PollState} {handlers handlers' : Dict ℕ Handler}
    {k : String} {state : PollState} :
    Shared.stored ⟨AList.insert (memcacheKey k) state memcache, handlers'⟩
      = Function.update (Shared.stored ⟨memcache, handlers⟩) k state.recorded := by
  funext k'
  by_cases hk : k' = k
  · subst hk
    rw [Function.update_self, Shared.stored, Shared.state, AList.lookup_insert, Option.getD_some]
  · rw [Function.update_of_ne hk, Shared.stored, Shared.state,
      AList.lookup_insert_ne (fun h => hk (memcacheKey_injective h)), Shared.stored, Shared.state]

/-- A state is the record of the event over what is stored just when the commit keeps it. -/
theorem recorded_eq_over_iff {k : String} {e : Event} {read : Option PollState}
    {state : PollState} (h : updated cfg k e read = some state) (stored : Recorded) :
    state.recorded = (e.entry cfg read).over stored ↔
      TimeKept (e.entry cfg read).recvd (read.getD initialState).recvd stored.recvd
        ∧ TimeKept (e.entry cfg read).complete (read.getD initialState).complete stored.complete
        ∧ DriverKept (e.entry cfg read).driver (e.driver cfg)
          (read.getD initialState).lastSuccessfulDriver stored.driver := by
  rw [updated_recorded h, Entry.over, Recorded.mk.injEq, or_eq_merge_iff, or_eq_merge_iff,
    getD_eq_getD_iff driver_eq_none]

/-- What is stored is already the record of a log that is lost just when it holds all of it. -/
theorem eq_over_iff_of_lost {e : Event} {read : Option PollState} (h : e.Lost read)
    (stored : Recorded) :
    stored = (e.entry cfg read).over stored ↔
      (∀ t ∈ (e.entry cfg read).complete, ∃ t' ∈ stored.complete, t ≤ t')
        ∧ ∀ driver, (e.entry cfg read).driver = some driver → stored.driver = driver := by
  have hrecvd : (e.entry cfg read).recvd = none := by
    cases e with
    | request now draw job => exact h.elim
    | log now entry =>
      rw [Event.entry]
      split <;> rfl
  have hdriver : stored.driver = (e.entry cfg read).driver.getD stored.driver ↔
      ∀ driver, (e.entry cfg read).driver = some driver → stored.driver = driver := by
    cases (e.entry cfg read).driver with
    | none => simp
    | some driver => simp
  have hsame : stored.recvd = Option.merge max none stored.recvd := by
    cases stored.recvd <;> rfl
  rw [← merge_eq_right_iff, ← hdriver, Entry.over, hrecvd, ← hsame]
  exact ⟨fun heq => ⟨congrArg Recorded.complete heq, congrArg Recorded.driver heq⟩,
    fun ⟨hcomplete, hdriver⟩ => by rw [← hcomplete, ← hdriver]⟩

/-- **One move**: it keeps the memcache and the record together just when it keeps what is
stored. -/
theorem reflected_step {h : History} (hr : Reflected h) (m : Move) :
    Reflected (h.step cfg m) ↔ Current cfg h.shared m := by
  have hfun : h.shared.stored = h.recorded := funext hr
  cases m with
  | getState i e =>
    refine iff_of_true (fun k => ?_) trivial
    -- reading changes neither side
    have hsame : (move cfg h.shared (.getState i e)).memcache = h.shared.memcache := by
      unfold move
      simp only
      split <;> rfl
    rw [Shared.stored, Shared.state, History.step, hsame]
    exact hr k
  | commitState i =>
    rw [Reflected, ← funext_iff]
    cases hg : h.shared.handlers.lookup i with
    | none =>
      have hidle : h.step cfg (.commitState i) = h := by
        simp only [History.step, move, hg]
      rw [hidle]
      exact iff_of_true hfun (fun g hsome => by rw [hg] at hsome; cases hsome)
    | some g =>
      have hrecorded : (h.step cfg (.commitState i)).recorded
          = Function.update h.recorded g.key
            ((g.event.entry cfg g.read).over (h.shared.stored g.key)) := by
        rw [hfun]
        simp only [History.step, hg]
      have hcurrent : Current cfg h.shared (.commitState i)
          ↔ g.Keeps cfg (h.shared.stored g.key) := by
        refine ⟨fun hkept => hkept g hg, fun hkept g' hg' => ?_⟩
        obtain rfl := Option.some.inj (hg.symm.trans hg')
        exact hkept
      rw [hcurrent, hrecorded]
      cases hu : updated cfg g.key g.event g.read with
      | none =>
        -- the handler raises: the memcache stays as it is
        have hlost := updated_eq_none_iff.mp hu
        have hstored : (h.step cfg (.commitState i)).shared.stored
            = Function.update h.shared.stored g.key (h.shared.stored g.key) := by
          rw [Function.update_eq_self]
          simp only [History.step, move, hg, hu]
          rfl
        rw [hstored, update_eq_update_iff hfun, eq_over_iff_of_lost hlost]
        exact ⟨fun hkept => ⟨fun hnot => absurd hlost hnot, fun _ => hkept⟩,
          fun hkept => hkept.2 hlost⟩
      | some state =>
        -- the handler commits: what it stores has to be what it records over the stored entry
        have hlost : ¬ g.event.Lost g.read := by
          intro hlost
          rw [updated_eq_none_iff.mpr hlost] at hu
          cases hu
        have hstored : (h.step cfg (.commitState i)).shared.stored
            = Function.update h.shared.stored g.key state.recorded := by
          simp only [History.step, move, hg, hu]
          exact stored_insert
        rw [hstored, update_eq_update_iff hfun, recorded_eq_over_iff hu]
        exact ⟨fun hkept => ⟨fun _ => hkept, fun hyes => absurd hyes hlost⟩,
          fun hkept => hkept.1 hlost⟩

end commit

/-! ## Runs -/

/-- A history that begins with a memcache and no event under way. -/
def History.start (memcache : Dict String PollState) : History :=
  ⟨⟨memcache, ∅⟩, Shared.stored ⟨memcache, ∅⟩⟩

/-- **No lost update**: in an interleaving of supervisors the memcache holds at all times what the
handled events have recorded if and only if every commit keeps what is stored. -/
theorem reflected_iff_current (memcache : Dict String PollState) (moves : List Move) :
    Always (History.step cfg) Reflected (History.start memcache) moves ↔
      Along (History.step cfg) (fun h m => Current cfg h.shared m) (History.start memcache) moves :=
  always_iff_along (J := fun _ => True) (fun _ _ _ => trivial)
    (fun _ m _ hr => reflected_step hr m) trivial (fun _ => rfl)

/-- Two supervisors, after a first probe: one checks a request while the other one handles the log
of the driver that worked. -/
def crossing : List Move :=
  [.getState 0 (requestAt 0), .commitState 0,
    .getState 0 (requestAt 40),
    .getState 1 (logAt 40 .info ["success with driver /drivers/port_stats/generic.yaml"]),
    .commitState 1, .commitState 0]

/-- When both have finished, the driver is lost. -/
theorem not_reflected_crossing :
    (run (History.step portStats) (History.start ∅) crossing).shared.handlers.keys = []
      ∧ ¬ Reflected (run (History.step portStats) (History.start ∅) crossing) := by
  refine ⟨by decide, fun h => ?_⟩
  have hkey := congrArg Recorded.driver (h "rtr-core1:port_stats")
  revert hkey
  decide +kernel

end PollerSupervisor
