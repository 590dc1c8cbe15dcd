/-
# What requests and logs do to the state of a key

* `check_eq_none_iff`  : which requests are not refused;
* `requestUpdate_*`    : the fields of the state that a request commits;
* `logUpdate_*`        : the fields of the state that a log commits;
* `validateTask_cases`, `processLog_cases` : how they are put into the memcache.
-/
import Ptolemy.PollerSupervisor

namespace PollerSupervisor

open Scheduler (Draw uniform)

variable (cfg : Config)

/-! ## The checks of a request -/

section check

variable {now : ℚ} {frequency : Option ℚ} {state : PollState}

theorem filter_eq_none_iff {α : Type} {o : Option α} {P : α → Bool} :
    o.filter P = none ↔ ∀ a ∈ o, P a = false := by
  cases o with
  | none => simp
  | some a => cases h : P a <;> simp [Option.filter, h]

variable (now frequency state) in
/-- The fields that the checks leave alone. -/
theorem check_state : (check cfg now frequency state).1.recvd = state.recvd
    ∧ (check cfg now frequency state).1.complete = state.complete
    ∧ (check cfg now frequency state).1.nextProbe = state.nextProbe
    ∧ (check cfg now frequency state).1.lastSuccessfulDriver = state.lastSuccessfulDriver
    ∧ (check cfg now frequency state).1.forceDriver = state.forceDriver := by
  unfold check
  split_ifs
  · exact ⟨rfl, rfl, rfl, rfl, rfl⟩
  · split
    · exact ⟨rfl, rfl, rfl, rfl, rfl⟩
    · split
      · exact ⟨rfl, rfl, rfl, rfl, rfl⟩
      · split
        · exact ⟨rfl, rfl, rfl, rfl, rfl⟩
        · split
          · exact ⟨rfl, rfl, rfl, rfl, rfl⟩
          · split_ifs <;> exact ⟨rfl, rfl, rfl, rfl, rfl⟩

/-- What is asked of a request: a key that was never polled with success has no probe ahead, its
last completion and its last request are long enough ago, and there is a limit for a test that
has started. -/
theorem check_eq_none_iff : (check cfg now frequency state).2.2 = none ↔
    (state.complete ≠ none → state.lastSuccessfulDriver = none → ∀ t ∈ state.nextProbe, t ≤ now)
      ∧ (∀ t ∈ state.complete, cfg.completeThrottleTime ≤ now - t)
      ∧ (∀ t ∈ state.recvd, cfg.receivedThrottleTime ≤ now - t)
      ∧ (state.started ≠ none → ∃ limit, startedLimit cfg frequency = .ok limit) := by
  unfold check
  split_ifs with hfirst
  · -- the first check refuses: never polled with success, and the next probe is ahead
    obtain ⟨hc, hd, t, ht, hlt⟩ := hfirst
    refine ⟨fun h => absurd h (by simp), fun h => ?_⟩
    exact absurd (h.1 hc hd t ht) (not_le.mpr hlt)
  · have hfirst' : state.complete ≠ none → state.lastSuccessfulDriver = none →
        ∀ t ∈ state.nextProbe, t ≤ now :=
      fun hc hd t ht => not_lt.mp (fun hlt => hfirst ⟨hc, hd, t, ht, hlt⟩)
    -- the other checks are met in the order of the code, each in an arm of its own
    rw [iff_true_intro hfirst', true_and]
    split
    · next t hfilter =>
      obtain ⟨ht, hlt⟩ := Option.filter_eq_some_iff.mp hfilter
      refine ⟨fun h => absurd h (by simp), fun h => ?_⟩
      exact absurd (h.1 t ht) (not_le.mpr (of_decide_eq_true hlt))
    · next hfilter =>
      have hcomplete : ∀ t ∈ state.complete, cfg.completeThrottleTime ≤ now - t :=
        fun t ht => not_lt.mp (of_decide_eq_false (filter_eq_none_iff.mp hfilter t ht))
      rw [iff_true_intro hcomplete, true_and]
      split
      · next t hfilter =>
        obtain ⟨ht, hlt⟩ := Option.filter_eq_some_iff.mp hfilter
        refine ⟨fun h => absurd h (by simp), fun h => ?_⟩
        exact absurd (h.1 t ht) (not_le.mpr (of_decide_eq_true hlt))
      · next hfilter =>
        have hrecvd : ∀ t ∈ state.recvd, cfg.receivedThrottleTime ≤ now - t :=
          fun t ht => not_lt.mp (of_decide_eq_false (filter_eq_none_iff.mp hfilter t ht))
        rw [iff_true_intro hrecvd, true_and]
        split
        · next hstarted => exact ⟨fun _ h => absurd hstarted h, fun _ => rfl⟩
        · next t hstarted =>
          have hne : state.started ≠ none := by rw [hstarted]; exact Option.some_ne_none t
          split
          · next e he => simp [he, hne]
          · next limit he => simp [he]

/-- A request that is not refused is noted as received. -/
theorem check_recvd_of_none (h : (check cfg now frequency state).2.2 = none) :
    (check cfg now frequency state).2.1 = true := by
  obtain ⟨-, hcomplete, hrecvd, -⟩ := (check_eq_none_iff cfg).mp h
  have hfilter : ∀ {o : Option ℚ} {limit : ℚ}, (∀ t ∈ o, limit ≤ now - t) →
      o.filter (fun t => now - t < limit) = none := fun ho =>
    filter_eq_none_iff.mpr (fun t ht => decide_eq_false (not_lt.mpr (ho t ht)))
  unfold check
  rw [hfilter hcomplete, hfilter hrecvd]
  split_ifs
  · rfl
  · simp only
    split
    · rfl
    · split <;> rfl

end check

/-! ## The state that a request commits -/

section requestUpdate

variable (k : String) (now : ℚ) (draw : Draw) (frequency : Option ℚ) (read : Option PollState)

/-- Whether a probe is due depends on the time that is planned for it only. -/
theorem probeDue_congr {now : ℚ} {state state' : PollState} (h : state'.nextProbe = state.nextProbe) :
    ProbeDue now state' ↔ ProbeDue now state := by
  rw [ProbeDue, ProbeDue, h]

theorem requestUpdate_refusal : (requestUpdate cfg k now draw frequency read).2.2
    = (check cfg now frequency (read.getD initialState)).2.2 := rfl

theorem requestUpdate_reprobe : (requestUpdate cfg k now draw frequency read).2.1
    = decide (ProbeDue now (read.getD initialState)) := by
  obtain ⟨-, -, hprobe, -⟩ := check_state cfg now frequency (read.getD initialState)
  unfold requestUpdate
  simp only [decide_eq_decide]
  apply probeDue_congr
  split_ifs <;> exact hprobe

/-- A request leaves the completion and the driver that worked as it reads them. -/
theorem requestUpdate_kept :
    (requestUpdate cfg k now draw frequency read).1.complete = (read.getD initialState).complete
      ∧ (requestUpdate cfg k now draw frequency read).1.lastSuccessfulDriver
        = (read.getD initialState).lastSuccessfulDriver := by
  obtain ⟨-, hcomplete, -, hdriver, -⟩ := check_state cfg now frequency (read.getD initialState)
  unfold requestUpdate
  simp only
  constructor
  · split <;> split_ifs <;> exact hcomplete
  · split <;> split_ifs <;> exact hdriver

theorem requestUpdate_recvd : (requestUpdate cfg k now draw frequency read).1.recvd
    = if (check cfg now frequency (read.getD initialState)).2.1 then some now
      else (read.getD initialState).recvd := by
  obtain ⟨hrecvd, -⟩ := check_state cfg now frequency (read.getD initialState)
  unfold requestUpdate
  simp only
  split <;> split_ifs <;> first | rfl | exact hrecvd

/-- Every request, refused or not, plans the next probe when one is due. -/
theorem requestUpdate_nextProbe : (requestUpdate cfg k now draw frequency read).1.nextProbe
    = if ProbeDue now (read.getD initialState) then
        some (now + (cfg.reprobePeriod + uniform (-1 * (cfg.reprobeSpread * cfg.reprobePeriod))
          (cfg.reprobeSpread * cfg.reprobePeriod) draw))
      else (read.getD initialState).nextProbe := by
  obtain ⟨-, -, hprobe, -⟩ := check_state cfg now frequency (read.getD initialState)
  have hnoted : ∀ b : Bool, (if b then
      { (check cfg now frequency (read.getD initialState)).1 with recvd := some now }
      else (check cfg now frequency (read.getD initialState)).1).nextProbe
        = (read.getD initialState).nextProbe := by
    intro b
    split_ifs <;> exact hprobe
  unfold requestUpdate
  simp only [decide_eq_true_eq, probeDue_congr (hnoted _)]
  split <;> split_ifs <;> first | rfl | exact hprobe

theorem requestUpdate_forceDriver : (requestUpdate cfg k now draw frequency read).1.forceDriver
    = (cfg.forcedDrivers.lookup k).getD (read.getD initialState).forceDriver := by
  obtain ⟨-, -, -, -, hforce⟩ := check_state cfg now frequency (read.getD initialState)
  unfold requestUpdate
  simp only
  split <;> split_ifs <;> simp_all

end requestUpdate

/-! ## The assignment of an accepted request -/

section assign

variable {k spec : String} {reprobe : Bool} {state : PollState}

theorem forced_congr {state' : PollState} (h : state'.forceDriver = state.forceDriver) :
    forced state' = forced state := by
  rw [forced, forced, h]

/-- Where no driver is forced, the driver that worked is used until the next probe. -/
theorem assign_of_unforced (hk : k ∉ cfg.forcedDrivers) (hforced : forced state = none) :
    assign cfg k spec reprobe state =
      if state.lastSuccessfulDriver = none ∨ reprobe then
        match cfg.driverPriorities.lookup spec with
        | some drivers => .ok (.probe (drivers.map (getDriverPath cfg spec)))
        | none => .error .notRegistered
      else .ok (.poll (getDriverPath cfg spec (state.lastSuccessfulDriver.getD "None"))) := by
  unfold assign
  cases cfg.driverPriorities.lookup spec <;> by_cases hnone : state.lastSuccessfulDriver = none <;>
    simp only [hforced, Option.none_or, hk, hnone, ne_eq, not_true_eq_false, or_self, if_false,
      if_true, true_or, false_or]

end assign

/-! ## The state that a log commits -/

section logUpdate

variable {now : ℚ} {spec : String} {s : TaskState} {data : List String}
  {message : Option String} {state : PollState}

/-- The texts of an information that are read: those before the first one that cannot be
reported. -/
def readTexts (message : Option String) (data : List String) : List String :=
  match message with
  | some _ => data
  | none => data.takeWhile (fun d => (successDriver d).isSome)

/-- The last driver that a list of texts names. -/
def namedDriver (data : List String) : Option String := (data.filterMap successDriver).getLast?

theorem namedDriver_cons (d : String) (ds : List String) :
    namedDriver (d :: ds) = (namedDriver ds).or (successDriver d) := by
  unfold namedDriver
  cases h : successDriver d with
  | none => rw [List.filterMap_cons_none h, Option.or_none]
  | some driver =>
    rw [List.filterMap_cons_some h, List.getLast?_cons]
    cases (ds.filterMap successDriver).getLast? <;> rfl

/-- A list that names no driver names none in its first texts either. -/
theorem namedDriver_readTexts (h : namedDriver data = none) :
    namedDriver (readTexts message data) = none := by
  cases message with
  | some m => exact h
  | none =>
    rw [namedDriver, List.getLast?_eq_none_iff, List.filterMap_eq_nil_iff] at h ⊢
    exact fun d hd => h d (List.takeWhile_subset _ hd)

/-- The driver that a log records: `some none` where it takes it away. -/
def recordedDriver (spec : String) (s : TaskState) (data : List String)
    (message : Option String) : Option (Option String) :=
  match s with
  | .complete | .warning | .errored =>
      if "no suitable driver found" ∈ data then some none else none
  | .info => (namedDriver (readTexts message data)).map
      (fun driver => some (stripDriverPath cfg driver spec))
  | _ => none

theorem infoTexts_fst : (infoTexts cfg spec message data state).1
    = { state with
        lastSuccessfulDriver := ((namedDriver (readTexts message data)).map
          (fun driver => some (stripDriverPath cfg driver spec))).getD
            state.lastSuccessfulDriver } := by
  induction data generalizing state with
  | nil => cases message <;> rfl
  | cons d ds ih =>
    cases hd : successDriver d with
    | some driver =>
      have hread : readTexts message (d :: ds) = d :: readTexts message ds := by
        cases message with
        | none => rw [readTexts, List.takeWhile_cons_of_pos (by rw [hd]; rfl), readTexts]
        | some m => rfl
      rw [hread, namedDriver_cons, hd, infoTexts.eq_def]
      simp only [hd, ih]
      cases namedDriver (readTexts message ds) <;> rfl
    | none =>
      rw [infoTexts.eq_def]
      cases message with
      | none =>
        -- without a message the text cannot be reported, and the loop is left here
        have hread : readTexts none (d :: ds) = [] := by
          rw [readTexts, List.takeWhile_cons_of_neg (by rw [hd]; exact Bool.false_ne_true)]
        simp only [hd, hread]
        rfl
      | some m =>
        have hread : readTexts (some m) (d :: ds) = d :: readTexts (some m) ds := rfl
        rw [hread, namedDriver_cons, hd, Option.or_none]
        simp only [hd, ih]

variable (now s state) in
theorem endedText_kept (d : String) :
    (endedText now s state d).recvd = state.recvd
      ∧ (endedText now s state d).complete = state.complete
      ∧ (endedText now s state d).nextProbe = state.nextProbe
      ∧ (endedText now s state d).forceDriver = state.forceDriver
      ∧ (endedText now s state d).lastSuccessfulDriver
        = if d = "no suitable driver found" then none else state.lastSuccessfulDriver := by
  unfold endedText
  simp only
  refine ⟨?_, ?_, ?_, ?_, ?_⟩ <;> split_ifs <;> rfl

variable (now s data state) in
/-- The texts of a log of a job that has ended change no times but those of failures. -/
theorem endedTexts_kept :
    (data.foldl (endedText now s) state).recvd = state.recvd
      ∧ (data.foldl (endedText now s) state).complete = state.complete
      ∧ (data.foldl (endedText now s) state).nextProbe = state.nextProbe
      ∧ (data.foldl (endedText now s) state).forceDriver = state.forceDriver
      ∧ (data.foldl (endedText now s) state).lastSuccessfulDriver
        = if "no suitable driver found" ∈ data then none else state.lastSuccessfulDriver := by
  induction data generalizing state with
  | nil => exact ⟨rfl, rfl, rfl, rfl, rfl⟩
  | cons d ds ih =>
    obtain ⟨h₁, h₂, h₃, h₄, h₅⟩ := ih (endedText now s state d)
    obtain ⟨g₁, g₂, g₃, g₄, g₅⟩ := endedText_kept now s state d
    refine ⟨h₁.trans g₁, h₂.trans g₂, h₃.trans g₃, h₄.trans g₄, h₅.trans ?_⟩
    rw [g₅]
    by_cases hd : d = "no suitable driver found"
    · simp [hd]
    · simp [hd, Ne.symm hd]

/-- A log leaves the times of requests and probes and the forced driver as it reads them. -/
theorem logUpdate_kept :
    (logUpdate cfg now spec s data message state).1.recvd = state.recvd
      ∧ (logUpdate cfg now spec s data message state).1.nextProbe = state.nextProbe
      ∧ (logUpdate cfg now spec s data message state).1.forceDriver = state.forceDriver := by
  have hended : ∀ state', state'.recvd = state.recvd → state'.nextProbe = state.nextProbe →
      state'.forceDriver = state.forceDriver →
        (data.foldl (endedText now s) state').recvd = state.recvd
          ∧ (data.foldl (endedText now s) state').nextProbe = state.nextProbe
          ∧ (data.foldl (endedText now s) state').forceDriver = state.forceDriver := by
    intro state' h₁ h₂ h₃
    obtain ⟨g₁, -, g₂, g₃, -⟩ := endedTexts_kept now s data state'
    exact ⟨g₁.trans h₁, g₂.trans h₂, g₃.trans h₃⟩
  unfold logUpdate
  split
  · exact ⟨rfl, rfl, rfl⟩
  · exact ⟨rfl, rfl, rfl⟩
  · exact hended _ rfl rfl rfl
  · exact hended _ rfl rfl rfl
  · exact hended _ rfl rfl rfl
  · rw [infoTexts_fst]
    exact ⟨rfl, rfl, rfl⟩
  · exact ⟨rfl, rfl, rfl⟩

theorem logUpdate_complete : (logUpdate cfg now spec s data message state).1.complete
    = if s = .complete ∨ s = .errored then some now else state.complete := by
  unfold logUpdate
  split
  · rfl
  · rfl
  · exact (endedTexts_kept _ _ _ _).2.1
  · exact (endedTexts_kept _ _ _ _).2.1
  · exact (endedTexts_kept _ _ _ _).2.1
  · rw [infoTexts_fst]
    rfl
  · rw [if_neg (by simp)]

theorem logUpdate_driver : (logUpdate cfg now spec s data message state).1.lastSuccessfulDriver
    = (recordedDriver cfg spec s data message).getD state.lastSuccessfulDriver := by
  unfold logUpdate recordedDriver
  split
  · rfl
  · rfl
  · simp only [(endedTexts_kept _ _ _ _).2.2.2.2]
    split_ifs <;> rfl
  · simp only [(endedTexts_kept _ _ _ _).2.2.2.2]
    split_ifs <;> rfl
  · simp only [(endedTexts_kept _ _ _ _).2.2.2.2]
    split_ifs <;> rfl
  · rw [infoTexts_fst]
  · rfl

end logUpdate

/-! ## The steps of a supervisor -/

section step

variable (readFile : String → Option String) {s : Supervisor}

theorem memcacheKey_injective : Function.Injective memcacheKey := by
  intro k k' h
  have hlist := congrArg String.toList h
  rw [memcacheKey, memcacheKey, String.toList_append, String.toList_append] at hlist
  exact String.toList_inj.mp (List.append_cancel_left hlist)

/-- The device and the spec of a request that gets to the state of its key. -/
def reachesState (s : Supervisor) (job : Request) : Option (String × String) :=
  match job.device, job.spec with
  | some device, some spec =>
      if (readOptions readFile job.data.items s.optionsCache job.data).2.isSome then
        some (device, spec)
      else none
  | _, _ => none

/-- The state of a key, as a supervisor reads it. -/
def Supervisor.state (s : Supervisor) (k : String) : Option PollState :=
  s.memcache.lookup (memcacheKey k)

theorem state_of_insert {s' : Supervisor} {k : String} {state : PollState}
    {memcache : Dict String PollState}
    (h : s'.memcache = AList.insert (memcacheKey k) state memcache) : s'.state k = some state := by
  rw [Supervisor.state, h, AList.lookup_insert]

section request

variable (now : ℚ) (draw : Draw) {job : Request}

/-- A request that does not get to the state changes none and is not accepted. -/
theorem request_of_none (h : reachesState readFile s job = none) :
    (step cfg readFile s (.request now draw job)).memcache = s.memcache
      ∧ accepted cfg readFile s (.request now draw job) = none := by
  obtain ⟨_ | device, _ | spec, data, frequency⟩ := job
  · exact ⟨rfl, rfl⟩
  · exact ⟨rfl, rfl⟩
  · exact ⟨rfl, rfl⟩
  · rw [reachesState] at h
    simp only [step, accepted, validateTask]
    split
    · exact ⟨rfl, rfl⟩
    · next hread =>
      rw [hread] at h
      simp at h

/-- A request that gets to the state commits one, and is accepted when it is not refused and a
driver can be assigned. -/
theorem request_of_some {device spec : String}
    (h : reachesState readFile s job = some (device, spec)) :
    (step cfg readFile s (.request now draw job)).memcache
        = AList.insert (memcacheKey (driverKey device spec))
          (requestUpdate cfg (driverKey device spec) now draw job.frequency
            (s.state (driverKey device spec))).1 s.memcache
      ∧ ∀ a, accepted cfg readFile s (.request now draw job) = some a ↔
        (check cfg now job.frequency ((s.state (driverKey device spec)).getD initialState)).2.2 = none
          ∧ assign cfg (driverKey device spec) spec
            (requestUpdate cfg (driverKey device spec) now draw job.frequency
              (s.state (driverKey device spec))).2.1
            (requestUpdate cfg (driverKey device spec) now draw job.frequency
              (s.state (driverKey device spec))).1 = .ok a := by
  obtain ⟨_ | device', _ | spec', data, frequency⟩ := job
  · cases h
  · cases h
  · cases h
  · -- only a request with both fields gets further than the checks of its form
    rw [reachesState] at h
    split_ifs at h with hread
    obtain ⟨rfl, rfl⟩ := Prod.mk.inj (Option.some.inj h)
    rw [← requestUpdate_refusal cfg (driverKey device' spec') now draw]
    simp only [step, accepted, validateTask, Supervisor.state]
    split
    · next hnone =>
      rw [hnone] at hread
      simp at hread
    · generalize requestUpdate cfg (driverKey device' spec') now draw frequency
        (s.memcache.lookup (memcacheKey (driverKey device' spec'))) = u
      -- the state is committed in all three ends: refused, not registered, accepted
      obtain ⟨state, reprobe, refusal⟩ := u
      cases refusal with
      | some r => exact ⟨rfl, fun a => by simp [Except.toOption]⟩
      | none =>
        simp only
        cases assign cfg (driverKey device' spec') spec' reprobe state with
        | error r => exact ⟨rfl, fun a => by simp [Except.toOption]⟩
        | ok b => exact ⟨rfl, fun a => by simp [Except.toOption]⟩

theorem validateTask_of_accepted {a : Assignment}
    (h : accepted cfg readFile s (.request now draw job) = some a) :
    ∃ data, (validateTask cfg readFile now draw job s).2 = .ok (data, a) := by
  rw [accepted] at h
  cases hresult : (validateTask cfg readFile now draw job s).2 with
  | error r => rw [hresult] at h; cases h
  | ok p =>
    rw [hresult] at h
    obtain rfl := Option.some.inj h
    exact ⟨p.1, rfl⟩

/-- The data of an accepted request carries its assignment. -/
theorem accepted_of_validateTask {data : Dict String Value} {a : Assignment}
    (h : (validateTask cfg readFile now draw job s).2 = .ok (data, a)) :
    accepted cfg readFile s (.request now draw job) = some a
      ∧ ∃ data', data = a.store data' := by
  refine ⟨by rw [accepted, h]; rfl, ?_⟩
  obtain ⟨_ | device, _ | spec, data', frequency⟩ := job
  · cases h
  · cases h
  · cases h
  · simp only [validateTask] at h
    split at h
    · cases h
    · next cache data' _ =>
      split at h
      · cases h
      · split at h
        · cases h
        · obtain ⟨rfl, rfl⟩ := Prod.mk.inj (Except.ok.inj h)
          exact ⟨data', rfl⟩

end request

/-- A log whose key has a state commits one. -/
theorem log_of_some (now : ℚ) {entry : Log} {t : TaskState} {state : PollState}
    (ht : entry.state = some t) (h : s.state (driverKey entry.device entry.spec) = some state) :
    (step cfg readFile s (.log now entry)).memcache
      = AList.insert (memcacheKey (driverKey entry.device entry.spec))
        (logUpdate cfg now entry.spec t entry.data entry.message state).1 s.memcache := by
  rw [Supervisor.state] at h
  simp only [step, processLog, ht, h]

/-- A log without a state, or whose key has none, changes nothing. -/
theorem log_of_none (now : ℚ) {entry : Log}
    (h : entry.state = none ∨ s.state (driverKey entry.device entry.spec) = none) :
    (step cfg readFile s (.log now entry)).memcache = s.memcache := by
  cases ht : entry.state with
  | none => simp only [step, processLog, ht]
  | some t =>
    have hnone : s.memcache.lookup (memcacheKey (driverKey entry.device entry.spec)) = none :=
      h.resolve_left (by rw [ht]; exact Option.some_ne_none t)
    simp only [step, processLog, ht, hnone]

/-- **What an event does to the state of a key**: nothing, and then it is no log of the key
unless the key has no state, or it is a request or a log of this key and commits its update of
the state that it reads. -/
theorem state_step_cases (s : Supervisor) (e : Event) (k : String) :
    ((step cfg readFile s e).state k = s.state k ∧ ∀ now entry t, e = .log now entry →
        entry.state = some t → driverKey entry.device entry.spec = k → s.state k = none)
      ∨ (∃ now draw job device spec, e = .request now draw job
        ∧ reachesState readFile s job = some (device, spec) ∧ driverKey device spec = k
        ∧ (step cfg readFile s e).state k
          = some (requestUpdate cfg k now draw job.frequency (s.state k)).1)
      ∨ (∃ now entry t state, e = .log now entry ∧ entry.state = some t
        ∧ driverKey entry.device entry.spec = k ∧ s.state k = some state
        ∧ (step cfg readFile s e).state k
          = some (logUpdate cfg now entry.spec t entry.data entry.message state).1) := by
  -- a commit for one key is read back at that key only, since the names of keys differ
  have hother : ∀ {k' : String} {state : PollState} {s' : Supervisor},
      s'.memcache = AList.insert (memcacheKey k') state s.memcache →
        (k' = k → s'.state k = some state) ∧ (k' ≠ k → s'.state k = s.state k) := by
    intro k' state s' hs'
    constructor
    · rintro rfl
      exact state_of_insert hs'
    · intro hne
      rw [Supervisor.state, hs', AList.lookup_insert_ne
        (fun h => hne (memcacheKey_injective h).symm), Supervisor.state]
  cases e with
  | request now draw job =>
    have hlog : ∀ now' entry (t : TaskState), Event.request now draw job = .log now' entry →
        entry.state = some t → driverKey entry.device entry.spec = k → s.state k = none :=
      fun _ _ _ h => by cases h
    cases hreach : reachesState readFile s job with
    | none =>
      left
      refine ⟨?_, hlog⟩
      rw [Supervisor.state, (request_of_none cfg readFile now draw hreach).1, Supervisor.state]
    | some p =>
      obtain ⟨device, spec⟩ := p
      obtain ⟨hsame, hne⟩ := hother (request_of_some cfg readFile now draw hreach).1
      by_cases hk : driverKey device spec = k
      · right; left
        refine ⟨now, draw, job, device, spec, rfl, hreach, hk, ?_⟩
        rw [hsame hk, hk]
      · left
        exact ⟨hne hk, hlog⟩
  | log now entry =>
    by_cases hnone : entry.state = none ∨ s.state (driverKey entry.device entry.spec) = none
    · left
      constructor
      · rw [Supervisor.state, log_of_none cfg readFile now hnone, Supervisor.state]
      · rintro now' entry' t ⟨⟩ ht rfl
        exact hnone.resolve_left (by rw [ht]; exact Option.some_ne_none t)
    · obtain ⟨ht, hstate⟩ := not_or.mp hnone
      obtain ⟨t, ht⟩ := Option.ne_none_iff_exists'.mp ht
      obtain ⟨state, hstate⟩ := Option.ne_none_iff_exists'.mp hstate
      obtain ⟨hsame, hne⟩ := hother (log_of_some cfg readFile now ht hstate)
      by_cases hk : driverKey entry.device entry.spec = k
      · right; right
        exact ⟨now, entry, t, state, rfl, ht, hk, hk ▸ hstate, hsame hk⟩
      · left
        refine ⟨hne hk, ?_⟩
        rintro now' entry' t' ⟨⟩ - hk'
        exact absurd hk' hk

/-- **What it takes to be accepted**: the checks are passed and a driver is assigned. -/
theorem accepted_cases {e : Event} {a : Assignment} (h : accepted cfg readFile s e = some a) :
    ∃ now draw job device spec, e = .request now draw job
      ∧ reachesState readFile s job = some (device, spec)
      ∧ (check cfg now job.frequency
        ((s.state (driverKey device spec)).getD initialState)).2.2 = none
      ∧ assign cfg (driverKey device spec) spec
        (requestUpdate cfg (driverKey device spec) now draw job.frequency
          (s.state (driverKey device spec))).2.1
        (requestUpdate cfg (driverKey device spec) now draw job.frequency
          (s.state (driverKey device spec))).1 = .ok a := by
  cases e with
  | log now entry => cases h
  | request now draw job =>
    cases hreach : reachesState readFile s job with
    | none =>
      rw [(request_of_none cfg readFile now draw hreach).2] at h
      cases h
    | some p =>
      obtain ⟨device, spec⟩ := p
      obtain ⟨hcheck, hassign⟩ := ((request_of_some cfg readFile now draw hreach).2 a).mp h
      exact ⟨now, draw, job, device, spec, rfl, hreach, hcheck, hassign⟩

theorem fields_of_reachesState {job : Request} {device spec : String}
    (h : reachesState readFile s job = some (device, spec)) :
    job.device = some device ∧ job.spec = some spec := by
  obtain ⟨_ | device', _ | spec', data, frequency⟩ := job
  · cases h
  · cases h
  · cases h
  · rw [reachesState] at h
    split_ifs at h
    obtain ⟨rfl, rfl⟩ := Prod.mk.inj (Option.some.inj h)
    exact ⟨rfl, rfl⟩

theorem key_of_reachesState {now : ℚ} {draw : Draw} {job : Request} {device spec : String}
    (h : reachesState readFile s job = some (device, spec)) :
    (Event.request now draw job).key = some (memcacheKey (driverKey device spec)) := by
  obtain ⟨hdevice, hspec⟩ := fields_of_reachesState readFile h
  simp only [Event.key, hdevice, hspec]

end step

end PollerSupervisor
