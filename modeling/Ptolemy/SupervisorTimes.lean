/-
# The times that a supervisor keeps

The state of a key holds the times of its last request and completion and of its
next probe.  The first two only grow, so they keep accepted requests apart
(`throttled`).  The last one is moved by every request that finds a probe due,
also by one that is refused: it is moved by issued probes alone in the runs where
no due probe meets a refusal (`reprobed`).
-/
import Ptolemy.Run
import Ptolemy.SupervisorSteps

namespace PollerSupervisor

open Run
open Scheduler (Draw)

variable (cfg : Config) (readFile : String → Option String)

/-! ## Times that only grow -/

/-- The state of the key has a time of `t` or later. -/
def Since (f : PollState → Option ℚ) (k : String) (t : ℚ) (s : Supervisor) : Prop :=
  ∃ state, s.state k = some state ∧ ∃ r, f state = some r ∧ t ≤ r

/-- A log that records the completion of a job. -/
def RecordsCompletion (s : Supervisor) : Event → Prop
  | .log _ entry => (entry.state = some .complete ∨ entry.state = some .errored)
      ∧ (s.state (driverKey entry.device entry.spec)).isSome
  | .request _ _ _ => False

instance (s : Supervisor) (e : Event) : Decidable (RecordsCompletion s e) :=
  match e with
  | .log _ _ => inferInstanceAs (Decidable (_ ∧ _))
  | .request _ _ _ => inferInstanceAs (Decidable False)

variable {k : String} {t : ℚ} {s : Supervisor} {e : Event}

theorem since_step {f : PollState → Option ℚ}
    (hrequest : ∀ {k : String} {now : ℚ} {draw frequency read},
      f (requestUpdate cfg k now draw frequency read).1 = some now
        ∨ f (requestUpdate cfg k now draw frequency read).1 = f (read.getD initialState))
    (hlog : ∀ {now : ℚ} {spec : String} {st data message state},
      f (logUpdate cfg now spec st data message state).1 = some now
        ∨ f (logUpdate cfg now spec st data message state).1 = f state)
    (ht : t ≤ e.now) (h : Since f k t s) : Since f k t (step cfg readFile s e) := by
  obtain ⟨state, hstate, r, hr, htr⟩ := h
  rcases state_step_cases cfg readFile s e k with ⟨hsame, -⟩
    | ⟨now, draw, job, device, spec, rfl, -, -, hnew⟩
    | ⟨now, entry, st, state', rfl, -, -, hstate', hnew⟩
  · exact ⟨state, hsame.trans hstate, r, hr, htr⟩
  · rcases hrequest with hnow | hkept
    · exact ⟨_, hnew, now, hnow, ht⟩
    · refine ⟨_, hnew, r, ?_, htr⟩
      rw [hkept, hstate, Option.getD_some, hr]
  · obtain rfl : state' = state := Option.some.inj (hstate'.symm.trans hstate)
    rcases hlog with hnow | hkept
    · exact ⟨_, hnew, now, hnow, ht⟩
    · exact ⟨_, hnew, r, hkept.trans hr, htr⟩

theorem recvd_since_step (ht : t ≤ e.now) (h : Since PollState.recvd k t s) :
    Since PollState.recvd k t (step cfg readFile s e) := by
  apply since_step cfg readFile _ _ ht h
  · intro k now draw frequency read
    rw [requestUpdate_recvd]
    split_ifs
    · left; rfl
    · right; rfl
  · intro now spec st data message state
    right
    exact (logUpdate_kept cfg).1

theorem complete_since_step (ht : t ≤ e.now) (h : Since PollState.complete k t s) :
    Since PollState.complete k t (step cfg readFile s e) := by
  apply since_step cfg readFile _ _ ht h
  · intro k now draw frequency read
    right
    exact (requestUpdate_kept cfg _ _ _ _ _).1
  · intro now spec st data message state
    rw [logUpdate_complete]
    split_ifs
    · left; rfl
    · right; rfl

/-- What the steps after a time preserve holds at the end of a run after it. -/
theorem since_run {f : PollState → Option ℚ}
    (hstep : ∀ {s : Supervisor} {e : Event}, t ≤ e.now → Since f k t s →
      Since f k t (step cfg readFile s e))
    {es : List Event} (hes : ∀ e ∈ es, t ≤ e.now) (h : Since f k t s) :
    Since f k t (run (step cfg readFile) s es) := by
  induction es generalizing s with
  | nil => exact h
  | cons e es ih =>
    rw [run_cons]
    exact ih (fun e' he' => hes e' (List.mem_cons_of_mem e he'))
      (hstep (hes e List.mem_cons_self) h)

/-- An accepted event of a key is a request of that key that passes the checks. -/
theorem request_of_accepted (hkey : e.key = some (memcacheKey k))
    (h : accepted cfg readFile s e ≠ none) :
    ∃ now draw job device spec, e = .request now draw job
      ∧ reachesState readFile s job = some (device, spec) ∧ driverKey device spec = k
      ∧ (check cfg now job.frequency ((s.state k).getD initialState)).2.2 = none := by
  obtain ⟨a, ha⟩ := Option.ne_none_iff_exists'.mp h
  obtain ⟨now, draw, job, device, spec, rfl, hreach, hcheck, -⟩ := accepted_cases cfg readFile ha
  rw [key_of_reachesState readFile hreach] at hkey
  obtain rfl := memcacheKey_injective (Option.some.inj hkey)
  exact ⟨now, draw, job, device, spec, rfl, hreach, rfl, hcheck⟩

/-- An accepted request is recorded as received. -/
theorem recvd_since_of_accepted (hkey : e.key = some (memcacheKey k))
    (h : accepted cfg readFile s e ≠ none) :
    Since PollState.recvd k e.now (step cfg readFile s e) := by
  obtain ⟨now, draw, job, device, spec, rfl, hreach, rfl, hcheck⟩ :=
    request_of_accepted cfg readFile hkey h
  refine ⟨_, state_of_insert (request_of_some cfg readFile now draw hreach).1, now, ?_, le_rfl⟩
  rw [requestUpdate_recvd, check_recvd_of_none cfg hcheck, if_pos rfl]

theorem complete_since_of_recorded (hkey : e.key = some (memcacheKey k))
    (h : RecordsCompletion s e) :
    Since PollState.complete k e.now (step cfg readFile s e) := by
  cases e with
  | request now draw job => exact h.elim
  | log now entry =>
    obtain ⟨hended, hsome⟩ := h
    obtain rfl := memcacheKey_injective (Option.some.inj hkey)
    obtain ⟨state, hstate⟩ := Option.isSome_iff_exists.mp hsome
    have hcomplete : ∀ st, entry.state = some st → st = .complete ∨ st = .errored := by
      intro st hst
      rw [hst, Option.some_inj, Option.some_inj] at hended
      exact hended
    obtain ⟨st, hst⟩ : ∃ st, entry.state = some st := by
      rcases hended with h | h <;> exact ⟨_, h⟩
    refine ⟨_, state_of_insert (log_of_some cfg readFile now hst hstate), now, ?_, le_rfl⟩
    rw [logUpdate_complete, if_pos (hcomplete st hst)]

/-- An accepted request is far enough from what its key has recorded. -/
theorem accepted_apart (hkey : e.key = some (memcacheKey k))
    (h : accepted cfg readFile s e ≠ none) {state : PollState} (hstate : s.state k = some state) :
    (∀ t ∈ state.recvd, cfg.receivedThrottleTime ≤ e.now - t)
      ∧ ∀ t ∈ state.complete, cfg.completeThrottleTime ≤ e.now - t := by
  obtain ⟨now, draw, job, device, spec, rfl, -, rfl, hcheck⟩ :=
    request_of_accepted cfg readFile hkey h
  rw [hstate, Option.getD_some, check_eq_none_iff] at hcheck
  exact ⟨hcheck.2.2.1, hcheck.2.1⟩

/-- **The throttles**: in a run whose clock does not go back, an accepted request comes
`receivedThrottleTime` or more after every accepted request of its key before it, and
`completeThrottleTime` or more after every completion that was recorded for the key. -/
theorem throttled (s : Supervisor) (es : List Event) (e' : Event)
    (hclock : (es ++ [e']).Pairwise (fun e e' => e.now ≤ e'.now))
    (h : accepted cfg readFile (run (step cfg readFile) s es) e' ≠ none) :
    (∀ es₁ e es₂, es = es₁ ++ e :: es₂ → e.key = e'.key →
      accepted cfg readFile (run (step cfg readFile) s es₁) e ≠ none →
        cfg.receivedThrottleTime ≤ e'.now - e.now)
      ∧ (∀ es₁ e es₂, es = es₁ ++ e :: es₂ → e.key = e'.key →
        RecordsCompletion (run (step cfg readFile) s es₁) e →
          cfg.completeThrottleTime ≤ e'.now - e.now)
      ∧ ∀ k state, e'.key = some (memcacheKey k) →
        (run (step cfg readFile) s es).state k = some state →
          ∀ t ∈ state.complete, cfg.completeThrottleTime ≤ e'.now - t := by
  obtain ⟨k, hk⟩ : ∃ k, e'.key = some (memcacheKey k) := by
    obtain ⟨a, ha⟩ := Option.ne_none_iff_exists'.mp h
    obtain ⟨now, draw, job, device, spec, rfl, hreach, -⟩ := accepted_cases cfg readFile ha
    exact ⟨_, key_of_reachesState readFile hreach⟩
  -- the clock: what comes after an event of the run is not before it
  have hlater : ∀ {es₁ : List Event} {e : Event} {es₂ : List Event}, es = es₁ ++ e :: es₂ →
      ∀ e₂ ∈ es₂, e.now ≤ e₂.now := by
    intro es₁ e es₂ hes e₂ he₂
    rw [hes] at hclock
    have hfirst := (List.pairwise_append.mp hclock).1
    exact (List.pairwise_cons.mp (List.pairwise_append.mp hfirst).2.1).1 e₂ he₂
  refine ⟨fun es₁ e es₂ hes hkey hacc => ?_, fun es₁ e es₂ hes hkey hrec => ?_, ?_⟩
  · -- an accepted request is noted as received, and no later event takes that back
    have hsince := recvd_since_of_accepted cfg readFile (hkey.trans hk) hacc
    obtain ⟨state, hstate, r, hr, hle⟩ :=
      since_run cfg readFile (recvd_since_step cfg readFile) (hlater hes) hsince
    rw [← run_cons, ← run_append, ← hes] at hstate
    have hapart := (accepted_apart cfg readFile hk h hstate).1 r hr
    linarith
  · -- the same for a completion
    have hsince := complete_since_of_recorded cfg readFile (hkey.trans hk) hrec
    obtain ⟨state, hstate, r, hr, hle⟩ :=
      since_run cfg readFile (complete_since_step cfg readFile) (hlater hes) hsince
    rw [← run_cons, ← run_append, ← hes] at hstate
    have hapart := (accepted_apart cfg readFile hk h hstate).2 r hr
    linarith
  · intro k' state hk' hstate
    exact (accepted_apart cfg readFile hk' h hstate).2

/-! A device with one spec. -/

/-- Two drivers of `port_stats`, and the times of `polld.yaml`. -/
def portStats : Config :=
  ⟨"/drivers/", Dict.ofList [("port_stats", ["cisco_ios.yaml", "generic.yaml"])], ∅,
    30, 15, some 1, 7200, 3 / 10⟩

/-- A draw in the middle. -/
def middle : Draw := ⟨1 / 2, by norm_num, by norm_num⟩

def requestAt (now : ℚ) : Event :=
  .request now middle ⟨some "rtr-core1", some "port_stats", ∅, some 60⟩

def logAt (now : ℚ) (state : TaskState) (data : List String) : Event :=
  .log now ⟨"rtr-core1", "port_stats", some state, data, none⟩

/-- The first run of a supervisor: a probe that succeeds with the second driver. -/
def probed : List Event :=
  [requestAt 0, logAt 1 .processing [],
    logAt 5 .info ["success with driver /drivers/port_stats/generic.yaml"], logAt 6 .complete []]

/-- The second request is accepted, after the throttles on the first one and on its completion. -/
theorem throttled_portStats :
    accepted portStats (fun _ => none) start (requestAt 0) ≠ none
      ∧ RecordsCompletion (run (step portStats (fun _ => none)) start (probed.take 3))
        (logAt 6 .complete [])
      ∧ accepted portStats (fun _ => none) (run (step portStats (fun _ => none)) start probed)
        (requestAt 40) ≠ none
      ∧ portStats.receivedThrottleTime ≤ (requestAt 40).now - (requestAt 0).now
      ∧ portStats.completeThrottleTime ≤ (requestAt 40).now - (logAt 6 .complete []).now := by
  have hfirst : accepted portStats (fun _ => none) start (requestAt 0) ≠ none := by decide
  have hcomplete : RecordsCompletion (run (step portStats (fun _ => none)) start (probed.take 3))
      (logAt 6 .complete []) := by decide
  have hsecond : accepted portStats (fun _ => none)
      (run (step portStats (fun _ => none)) start probed) (requestAt 40) ≠ none := by
    decide +kernel
  have h := throttled portStats (fun _ => none) start probed (requestAt 40) (by decide) hsecond
  exact ⟨hfirst, hcomplete, hsecond, h.1 [] (requestAt 0) probed.tail rfl rfl hfirst,
    h.2.1 (probed.take 3) (logAt 6 .complete []) [] rfl rfl hcomplete⟩

/-! ## The time of the next probe -/

/-- The time of the next probe of a key. -/
def nextProbe (k : String) (s : Supervisor) : Option ℚ :=
  ((s.state k).getD initialState).nextProbe

/-- No driver is forced on the key. -/
def Unforced (k : String) (s : Supervisor) : Prop :=
  k ∉ cfg.forcedDrivers ∧ ∀ state, s.state k = some state → forced state = none

/-- Only an accepted request of the key that is sent out as a probe moves the time of its next
probe. -/
def AdvancesByProbe (k : String) (s : Supervisor) (e : Event) : Prop :=
  nextProbe k (step cfg readFile s e) ≠ nextProbe k s →
    e.key = some (memcacheKey k) ∧ ∃ drivers, accepted cfg readFile s e = some (.probe drivers)

/-- A request of the key that finds its probe due passes the checks, and its spec is
registered. -/
def NotConsumed (k : String) (s : Supervisor) : Event → Prop
  | .request now _ job => ∀ device spec, reachesState readFile s job = some (device, spec) →
      driverKey device spec = k → ProbeDue now ((s.state k).getD initialState) →
        (∀ t ∈ ((s.state k).getD initialState).complete, cfg.completeThrottleTime ≤ now - t)
          ∧ (∀ t ∈ ((s.state k).getD initialState).recvd, cfg.receivedThrottleTime ≤ now - t)
          ∧ (((s.state k).getD initialState).started ≠ none →
            ∃ limit, startedLimit cfg job.frequency = .ok limit)
          ∧ spec ∈ cfg.driverPriorities
  | .log _ _ => True

theorem Unforced.getD {cfg : Config} (h : Unforced cfg k s) :
    forced ((s.state k).getD initialState) = none := by
  cases hstate : s.state k with
  | none => rfl
  | some state => exact h.2 state hstate

theorem Unforced.step {cfg : Config} (h : Unforced cfg k s) (e : Event) :
    Unforced cfg k (step cfg readFile s e) := by
  refine ⟨h.1, fun state' hstate' => ?_⟩
  rcases state_step_cases cfg readFile s e k with ⟨hsame, -⟩
    | ⟨now, draw, job, device, spec, rfl, -, -, hnew⟩
    | ⟨now, entry, st, state, rfl, -, -, hstate, hnew⟩
  · exact h.2 state' (hsame.symm.trans hstate')
  · obtain rfl := Option.some.inj (hnew.symm.trans hstate')
    have hforce := requestUpdate_forceDriver cfg k now draw job.frequency (s.state k)
    rw [AList.lookup_eq_none.mpr h.1, Option.getD_none] at hforce
    rw [forced_congr hforce, h.getD]
  · obtain rfl := Option.some.inj (hnew.symm.trans hstate')
    rw [forced_congr (logUpdate_kept cfg).2.2, h.2 state hstate]

/-- A due probe that meets no refusal is issued. -/
theorem advancesByProbe_of_notConsumed {cfg : Config} (hs : Unforced cfg k s)
    (h : NotConsumed cfg readFile k s e) : AdvancesByProbe cfg readFile k s e := by
  intro hmoved
  rcases state_step_cases cfg readFile s e k with ⟨hsame, -⟩
    | ⟨now, draw, job, device, spec, rfl, hreach, rfl, hnew⟩
    | ⟨now, entry, st, state, rfl, -, -, hstate, hnew⟩
  · exact absurd (by rw [nextProbe, hsame, nextProbe]) hmoved
  · have hdue : ProbeDue now ((s.state (driverKey device spec)).getD initialState) := by
      by_contra hdue
      apply hmoved
      rw [nextProbe, hnew, Option.getD_some, requestUpdate_nextProbe, if_neg hdue, nextProbe]
    obtain ⟨hcomplete, hrecvd, hstarted, hspec⟩ := h device spec hreach rfl hdue
    obtain ⟨drivers, hdrivers⟩ := Dict.mem_iff_lookup.mp hspec
    refine ⟨key_of_reachesState readFile hreach, drivers.map (getDriverPath cfg spec), ?_⟩
    rw [(request_of_some cfg readFile now draw hreach).2]
    constructor
    · rw [check_eq_none_iff]
      exact ⟨fun _ _ t ht => le_of_lt (hdue t ht), hcomplete, hrecvd, hstarted⟩
    · have hforced := (hs.step readFile (.request now draw job)).2 _ hnew
      rw [assign_of_unforced cfg hs.1 hforced, requestUpdate_reprobe, decide_eq_true hdue,
        if_pos (Or.inr rfl), hdrivers]
  · apply absurd _ hmoved
    rw [nextProbe, hnew, nextProbe, hstate]
    exact (logUpdate_kept cfg).2.1

/-- A probe is planned for now at the earliest. -/
theorem le_nextProbe {cfg : Config} (hperiod : 0 ≤ cfg.reprobePeriod)
    (hspread : 0 ≤ cfg.reprobeSpread) (hspread' : cfg.reprobeSpread ≤ 1) (now : ℚ) (draw : Draw) :
    now ≤ now + (cfg.reprobePeriod + Scheduler.uniform
      (-1 * (cfg.reprobeSpread * cfg.reprobePeriod)) (cfg.reprobeSpread * cfg.reprobePeriod)
        draw) := by
  have hd : cfg.reprobeSpread * cfg.reprobePeriod ≤ cfg.reprobePeriod := by
    calc cfg.reprobeSpread * cfg.reprobePeriod ≤ 1 * cfg.reprobePeriod :=
          mul_le_mul_of_nonneg_right hspread' hperiod
      _ = cfg.reprobePeriod := one_mul _
  have hdraw : 0 ≤ (cfg.reprobeSpread * cfg.reprobePeriod) * draw.value :=
    mul_nonneg (mul_nonneg hspread hperiod) draw.nonneg
  rw [Scheduler.uniform]
  linarith

theorem notConsumed_of_advancesByProbe {cfg : Config} (hperiod : 0 ≤ cfg.reprobePeriod)
    (hspread : 0 ≤ cfg.reprobeSpread) (hspread' : cfg.reprobeSpread ≤ 1) (hs : Unforced cfg k s)
    (h : AdvancesByProbe cfg readFile k s e) : NotConsumed cfg readFile k s e := by
  cases e with
  | log now entry => trivial
  | request now draw job =>
    rintro device spec hreach rfl hdue
    have hnew := state_of_insert (request_of_some cfg readFile now draw hreach).1
    have hmoved : nextProbe (driverKey device spec)
          (PollerSupervisor.step cfg readFile s (.request now draw job))
        ≠ nextProbe (driverKey device spec) s := by
      rw [nextProbe, hnew, Option.getD_some, requestUpdate_nextProbe, if_pos hdue]
      intro hsame
      have hlt := hdue _ hsame.symm
      have hle := le_nextProbe hperiod hspread hspread' now draw
      linarith
    obtain ⟨-, drivers, haccepted⟩ := h hmoved
    obtain ⟨hcheck, hassign⟩ := ((request_of_some cfg readFile now draw hreach).2 _).mp haccepted
    obtain ⟨-, hcomplete, hrecvd, hstarted⟩ := (check_eq_none_iff cfg).mp hcheck
    refine ⟨hcomplete, hrecvd, hstarted, ?_⟩
    have hforced := (hs.step readFile (.request now draw job)).2 _ hnew
    rw [assign_of_unforced cfg hs.1 hforced, requestUpdate_reprobe, decide_eq_true hdue,
      if_pos (Or.inr rfl)] at hassign
    rw [Dict.mem_iff_lookup]
    cases hdrivers : cfg.driverPriorities.lookup spec with
    | none => rw [hdrivers] at hassign; cases hassign
    | some drivers => exact ⟨drivers, rfl⟩

/-- **The time of the next probe**: in every run in which no request that finds the probe of an
unforced key due is refused, only issued probes move it, and, with the settings that make sense,
it is so in no other run. -/
theorem reprobed (hs : Unforced cfg k s) (es : List Event) :
    (Along (step cfg readFile) (NotConsumed cfg readFile k) s es →
      Along (step cfg readFile) (AdvancesByProbe cfg readFile k) s es)
      ∧ (0 ≤ cfg.reprobePeriod → 0 ≤ cfg.reprobeSpread → cfg.reprobeSpread ≤ 1 →
        Along (step cfg readFile) (AdvancesByProbe cfg readFile k) s es →
          Along (step cfg readFile) (NotConsumed cfg readFile k) s es) := by
  refine ⟨?_, fun hperiod hspread hspread' => ?_⟩
  · exact Along.imp (fun s e (hs : Unforced cfg k s) => hs.step readFile e)
      (fun s e hs => advancesByProbe_of_notConsumed readFile hs) hs
  · exact Along.imp (fun s e (hs : Unforced cfg k s) => hs.step readFile e)
      (fun s e hs => notConsumed_of_advancesByProbe readFile hperiod hspread hspread' hs) hs

theorem unforced_portStats : Unforced portStats "rtr-core1:port_stats" start :=
  ⟨AList.notMem_empty _, fun _ h => by cases h⟩

/-- The key is polled, and found due while it is not throttled. -/
theorem reprobed_portStats :
    Along (step portStats (fun _ => none))
      (AdvancesByProbe portStats (fun _ => none) "rtr-core1:port_stats") start
      [requestAt 0, requestAt 7300] := by
  apply (reprobed portStats (fun _ => none) unforced_portStats _).1
  refine ⟨?_, ?_, trivial⟩
  all_goals
    rintro device spec hreach - -
    obtain ⟨rfl, rfl⟩ := Prod.mk.inj (Option.some.inj hreach)
    exact ⟨by decide, by decide +kernel, fun _ => ⟨60 * 1, rfl⟩, by decide⟩

/-- The probe planned for 7200 falls into the time in which requests are refused. -/
def throttledProbe : List Event :=
  probed ++ [requestAt 7190, logAt 7195 .complete []] ++ [requestAt 7201]

/-- The probe that is due at 7200 is never issued: a refused request plans the next one. -/
theorem not_reprobed_throttledProbe :
    ¬ Along (step portStats (fun _ => none))
      (AdvancesByProbe portStats (fun _ => none) "rtr-core1:port_stats") start throttledProbe := by
  intro h
  have hlast : throttledProbe
      = (probed ++ [requestAt 7190, logAt 7195 .complete []]) ++ requestAt 7201 :: [] := rfl
  obtain ⟨-, drivers, hprobe⟩ := h.at hlast (by decide +kernel)
  have hrefused : accepted portStats (fun _ => none)
      (run (step portStats (fun _ => none)) start
        (probed ++ [requestAt 7190, logAt 7195 .complete []])) (requestAt 7201) = none := by
    decide +kernel
  rw [hrefused] at hprobe
  cases hprobe

end PollerSupervisor
