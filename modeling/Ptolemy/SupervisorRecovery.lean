/-
# Keys that cannot be polled

After a poll that has found no suitable driver, the requests of a key are refused until its
next probe is due.  What happens then depends on how often it is requested, because a refused
request is noted as received all the same:

* requests that are spaced by the throttle time have the key probed by the first one that
  comes when the probe is due (`probed_again`);
* requests that come often enough are refused as too frequent just then, plan the next probe
  anew, and so the key is never polled again (`starved`).
-/
import Ptolemy.SupervisorTimes

namespace PollerSupervisor

open Run
open Scheduler (Draw uniform)

variable (cfg : Config) (readFile : String → Option String)

/-! ## The state of such a key -/

/-- Completed at `c` without a driver that has worked, to be probed at `t`, and last noted as
received at `r`. -/
structure Failing (c t r : ℚ) (state : PollState) : Prop where
  complete : state.complete = some c
  driver : state.lastSuccessfulDriver = none
  nextProbe : state.nextProbe = some t
  recvd : state.recvd = some r

/-- When the next probe is planned now. -/
def plannedProbe (now : ℚ) (draw : Draw) : ℚ :=
  now + (cfg.reprobePeriod + uniform (-1 * (cfg.reprobeSpread * cfg.reprobePeriod))
    (cfg.reprobeSpread * cfg.reprobePeriod) draw)

section request

variable {cfg} {k : String} {now c t r : ℚ} {draw : Draw} {frequency : Option ℚ}
  {state : PollState}

theorem probeDue_iff (h : Failing c t r state) : ProbeDue now state ↔ t < now := by
  rw [ProbeDue, h.nextProbe]
  exact ⟨fun hd => hd t rfl, fun hlt t' ht' => by cases ht'; exact hlt⟩

/-- Before the next probe, a request is refused and noted. -/
theorem check_waiting (h : Failing c t r state) (hnow : now < t) :
    check cfg now frequency state = (state, true, some .cannotBePolled) := by
  have hcomplete : state.complete ≠ none := by
    rw [h.complete]
    exact Option.some_ne_none c
  unfold check
  rw [if_pos ⟨hcomplete, h.driver, t, h.nextProbe, hnow⟩]

/-- Too soon after one that was noted, it is refused and not noted. -/
theorem check_throttled (h : Failing c t r state) (hnow : t ≤ now)
    (hr : now - r < cfg.receivedThrottleTime) :
    (check cfg now frequency state).2.1 = false ∧ (check cfg now frequency state).2.2 ≠ none := by
  have hwait : ¬ (state.complete ≠ none ∧ state.lastSuccessfulDriver = none
      ∧ ∃ t ∈ state.nextProbe, now < t) := by
    rintro ⟨-, -, t', ht', hlt⟩
    rw [h.nextProbe] at ht'
    cases ht'
    exact absurd hlt (not_lt.mpr hnow)
  unfold check
  rw [if_neg hwait]
  split
  · exact ⟨rfl, Option.some_ne_none _⟩
  · rw [h.recvd, Option.filter_some, if_pos (decide_eq_true hr)]
    exact ⟨rfl, Option.some_ne_none _⟩

/-- It stays such a key, whatever a request does to the times. -/
theorem Failing.requested (h : Failing c t r state) {t' r' : ℚ}
    (hnext : (requestUpdate cfg k now draw frequency (some state)).1.nextProbe = some t')
    (hrecvd : (requestUpdate cfg k now draw frequency (some state)).1.recvd = some r') :
    Failing c t' r' (requestUpdate cfg k now draw frequency (some state)).1 := by
  obtain ⟨hcomplete, hdriver⟩ := requestUpdate_kept cfg k now draw frequency (some state)
  exact ⟨hcomplete.trans h.complete, hdriver.trans h.driver, hnext, hrecvd⟩

theorem failing_waiting (h : Failing c t r state) (hnow : now < t) :
    Failing c t now (requestUpdate cfg k now draw frequency (some state)).1 := by
  apply h.requested
  · rw [requestUpdate_nextProbe, Option.getD_some,
      if_neg (fun hd => absurd ((probeDue_iff h).mp hd) (not_lt_of_gt hnow))]
    exact h.nextProbe
  · rw [requestUpdate_recvd, Option.getD_some, check_waiting h hnow, if_pos rfl]

theorem failing_throttled (h : Failing c t r state) (hnow : t ≤ now)
    (hr : now - r < cfg.receivedThrottleTime) :
    Failing c (if t < now then plannedProbe cfg now draw else t) r
      (requestUpdate cfg k now draw frequency (some state)).1 := by
  apply h.requested
  · rw [requestUpdate_nextProbe, Option.getD_some]
    simp only [probeDue_iff h]
    split_ifs
    · rfl
    · exact h.nextProbe
  · rw [requestUpdate_recvd, Option.getD_some, (check_throttled h hnow hr).1, if_neg (by decide)]
    exact h.recvd

end request

/-! ## The requests of a key -/

/-- An event of the key is a request that gets to its state. -/
def RequestOf (k : String) (s : Supervisor) (e : Event) : Prop :=
  e.key = some (memcacheKey k) → ∃ now draw job device spec, e = .request now draw job
    ∧ reachesState readFile s job = some (device, spec) ∧ driverKey device spec = k

/-- From `u` on, the events of the key come one within `g` of the other. -/
def Paced (k : String) (g : ℚ) : ℚ → List Event → Prop
  | _, [] => True
  | u, e :: es =>
      if e.key = some (memcacheKey k) then u ≤ e.now ∧ e.now ≤ u + g ∧ Paced k g e.now es
      else Paced k g u es

/-- From `u` on, the events of the key are `g` apart. -/
def Spaced (k : String) (g : ℚ) : ℚ → List Event → Prop
  | _, [] => True
  | u, e :: es =>
      if e.key = some (memcacheKey k) then u + g ≤ e.now ∧ Spaced k g e.now es
      else Spaced k g u es

section step

variable {cfg} {readFile} {k : String} {s : Supervisor} {e : Event}

/-- An event of another key leaves the state. -/
theorem state_of_otherKey (hkey : e.key ≠ some (memcacheKey k)) :
    (step cfg readFile s e).state k = s.state k := by
  rcases state_step_cases cfg readFile s e k with ⟨hsame, -⟩
    | ⟨now, draw, job, device, spec, rfl, hreach, rfl, -⟩
    | ⟨now, entry, st, state, rfl, -, rfl, -, -⟩
  · exact hsame
  · exact absurd (key_of_reachesState readFile hreach) hkey
  · exact absurd rfl hkey

/-- A request that the checks refuse is not accepted. -/
theorem not_accepted_of_refused {state : PollState} {now : ℚ} {draw : Draw} {job : Request}
    {device spec : String} (hreach : reachesState readFile s job = some (device, spec))
    (hstate : s.state (driverKey device spec) = some state)
    (hrefused : (check cfg now job.frequency state).2.2 ≠ none) :
    accepted cfg readFile s (.request now draw job) = none := by
  by_contra hne
  obtain ⟨a, ha⟩ := Option.ne_none_iff_exists'.mp hne
  obtain ⟨hnone, -⟩ := ((request_of_some cfg readFile now draw hreach).2 a).mp ha
  rw [hstate] at hnone
  exact hrefused hnone

end step

/-! ## Starvation -/

section starved

variable {cfg} {readFile} {k : String} {g u : ℚ} {s : Supervisor}

/-- The last request came at `u`: the next one, within `g`, comes before the probe is due, or too
soon after a request that was noted. -/
def Starving (k : String) (g u : ℚ) (s : Supervisor) : Prop :=
  ∃ state c t r, s.state k = some state ∧ Failing c t r state
    ∧ (u < t ∧ (r = u ∨ u + g < t) ∨ u = t ∧ u - r ≤ g)

/-- A probe is not planned within a time that is shorter than the shortest period. -/
theorem lt_plannedProbe (hspread : 0 ≤ cfg.reprobeSpread * cfg.reprobePeriod)
    (hg : g < cfg.reprobePeriod - cfg.reprobeSpread * cfg.reprobePeriod) (now : ℚ) (draw : Draw) :
    now + g < plannedProbe cfg now draw := by
  have hdraw : 0 ≤ (cfg.reprobeSpread * cfg.reprobePeriod) * draw.value :=
    mul_nonneg hspread draw.nonneg
  rw [plannedProbe, uniform]
  linarith

/-- **One more request** of a starving key is refused, and the key starves on. -/
theorem Starving.step (hthrottle : 2 * g < cfg.receivedThrottleTime) (h0 : 0 ≤ g)
    (hspread : 0 ≤ cfg.reprobeSpread * cfg.reprobePeriod)
    (hg : g < cfg.reprobePeriod - cfg.reprobeSpread * cfg.reprobePeriod)
    (h : Starving k g u s) {now : ℚ} (draw : Draw) {job : Request} {device spec : String}
    (hreach : reachesState readFile s job = some (device, spec)) (hk : driverKey device spec = k)
    (hu : u ≤ now) (hnow : now ≤ u + g) :
    accepted cfg readFile s (.request now draw job) = none
      ∧ Starving k g now (step cfg readFile s (.request now draw job)) := by
  subst hk
  obtain ⟨state, c, t, r, hstate, hfail, hcases⟩ := h
  have hnew := state_of_insert (request_of_some cfg readFile now draw hreach).1
  rw [hstate] at hnew
  by_cases hwait : now < t
  · refine ⟨not_accepted_of_refused hreach hstate ?_, _, c, t, now, hnew,
      failing_waiting hfail hwait, Or.inl ⟨hwait, Or.inl rfl⟩⟩
    rw [check_waiting hfail hwait]
    exact Option.some_ne_none _
  · rw [not_lt] at hwait
    -- the request that was noted last is at most two gaps ago
    have hr : now - r ≤ 2 * g ∧ (now = t → now - r ≤ g ∨ u = t) := by
      rcases hcases with ⟨hut, hru | hugt⟩ | ⟨hut, hru⟩
      · subst hru
        exact ⟨by linarith, fun _ => Or.inl (by linarith)⟩
      · exact absurd hnow (not_le.mpr (lt_of_lt_of_le hugt hwait))
      · exact ⟨by linarith, fun _ => Or.inr hut⟩
    have hthrottled : now - r < cfg.receivedThrottleTime := lt_of_le_of_lt hr.1 hthrottle
    refine ⟨not_accepted_of_refused hreach hstate (check_throttled hfail hwait hthrottled).2, _, c,
      _, r, hnew, failing_throttled hfail hwait hthrottled, ?_⟩
    rcases lt_or_eq_of_le hwait with hdue | heq
    · rw [if_pos hdue]
      have hlater := lt_plannedProbe hspread hg now draw
      exact Or.inl ⟨by linarith, Or.inr hlater⟩
    · rw [if_neg (by rw [heq]; exact lt_irrefl now)]
      refine Or.inr ⟨heq.symm, ?_⟩
      rcases hr.2 heq.symm with hle | hut
      · exact hle
      · rcases hcases with ⟨hlt, -⟩ | ⟨-, hru⟩
        · exact absurd hut (ne_of_lt hlt)
        · rw [← heq, ← hut]
          exact hru

/-- **Starvation.**  When the requests of a key that cannot be polled come within `g` of each other,
where twice `g` is less than the throttle time and `g` is less than the shortest period of probes,
none of them is ever accepted. -/
theorem starved (hthrottle : 2 * g < cfg.receivedThrottleTime) (h0 : 0 ≤ g)
    (hspread : 0 ≤ cfg.reprobeSpread * cfg.reprobePeriod)
    (hg : g < cfg.reprobePeriod - cfg.reprobeSpread * cfg.reprobePeriod)
    (hs : Starving k g u s) {es : List Event}
    (hes : Along (PollerSupervisor.step cfg readFile) (RequestOf readFile k) s es)
    (hpaced : Paced k g u es) :
    Along (PollerSupervisor.step cfg readFile)
      (fun s e => e.key = some (memcacheKey k) → accepted cfg readFile s e = none) s es := by
  induction es generalizing s u with
  | nil => trivial
  | cons e es ih =>
    rw [Paced] at hpaced
    split_ifs at hpaced with hkey
    · obtain ⟨hu, hnow, hrest⟩ := hpaced
      obtain ⟨now, draw, job, device, spec, rfl, hreach, hk⟩ := hes.1 hkey
      obtain ⟨hrefused, hnext⟩ := hs.step hthrottle h0 hspread hg draw hreach hk hu hnow
      exact ⟨fun _ => hrefused, ih hnext hes.2 hrest⟩
    · refine ⟨fun h => absurd h hkey, ih ?_ hes.2 hpaced⟩
      obtain ⟨state, c, t, r, hstate, hfail, hcases⟩ := hs
      exact ⟨state, c, t, r, (state_of_otherKey hkey).trans hstate, hfail, hcases⟩

end starved

/-! ## Recovery -/

section recovery

variable {cfg} {readFile} {k : String} {c t r : ℚ} {s : Supervisor}

/-- No test of the key has been started. -/
def Idle (k : String) (c t r : ℚ) (s : Supervisor) : Prop :=
  ∃ state, s.state k = some state ∧ Failing c t r state ∧ state.started = none

/-- A request before the next probe. -/
theorem Idle.waiting (h : Idle k c t r s) {now : ℚ} {draw : Draw} {job : Request}
    {device spec : String} (hreach : reachesState readFile s job = some (device, spec))
    (hk : driverKey device spec = k) (hnow : now < t) :
    Idle k c t now (step cfg readFile s (.request now draw job)) := by
  subst hk
  obtain ⟨state, hstate, hfail, hstarted⟩ := h
  have hnew := state_of_insert (request_of_some cfg readFile now draw hreach).1
  rw [hstate] at hnew
  refine ⟨_, hnew, failing_waiting hfail hnow, ?_⟩
  unfold requestUpdate
  rw [Option.getD_some, check_waiting hfail hnow]
  simp only
  split <;> split_ifs <;> exact hstarted

/-- A request at the time of the next probe or later, and late enough. -/
theorem Idle.probed (h : Idle k c t r s) (hunforced : Unforced cfg k s) {now : ℚ} {draw : Draw}
    {job : Request} {device spec : String} {drivers : List String}
    (hreach : reachesState readFile s job = some (device, spec)) (hk : driverKey device spec = k)
    (hdrivers : cfg.driverPriorities.lookup spec = some drivers) (hnow : t ≤ now)
    (hc : c + cfg.completeThrottleTime ≤ now) (hr : r + cfg.receivedThrottleTime ≤ now) :
    accepted cfg readFile s (.request now draw job)
      = some (.probe (drivers.map (getDriverPath cfg spec))) := by
  subst hk
  obtain ⟨state, hstate, hfail, hstarted⟩ := h
  have hnew := state_of_insert (request_of_some cfg readFile now draw hreach).1
  have hforced := (hunforced.step readFile (.request now draw job)).2 _ hnew
  rw [(request_of_some cfg readFile now draw hreach).2, check_eq_none_iff, hstate,
    Option.getD_some, hfail.complete, hfail.recvd, hfail.nextProbe, hstarted]
  refine ⟨⟨fun _ _ t' ht' => ?_, fun c' hc' => ?_, fun r' hr' => ?_, fun h => absurd rfl h⟩, ?_⟩
  · cases ht'
    exact hnow
  · cases hc'
    linarith
  · cases hr'
    linarith
  · rw [hstate] at hforced
    have hdriver : (requestUpdate cfg (driverKey device spec) now draw job.frequency
        (some state)).1.lastSuccessfulDriver = none := by
      rw [(requestUpdate_kept cfg _ now draw job.frequency (some state)).2]
      exact hfail.driver
    rw [assign_of_unforced cfg hunforced.1 hforced, if_pos (Or.inl hdriver), hdrivers]

end recovery

/-! ## A device that does not answer -/

/-- The first poll fails, and a request at `now` is refused. -/
def failedUntil (now : ℚ) : Supervisor :=
  run (step portStats (fun _ => none)) start
    [requestAt 0, logAt 6 .errored ["no suitable driver found"], requestAt now]

/-- The state of its key. -/
def failedState (now : ℚ) : PollState :=
  ⟨some now, none, some 6, some 7200, some 6, none, none, none⟩

theorem requestOf_requestAt (s : Supervisor) (now : ℚ) :
    RequestOf (fun _ => none) (driverKey "rtr-core1" "port_stats") s (requestAt now) :=
  fun _ => ⟨now, middle, _, "rtr-core1", "port_stats", rfl, rfl, rfl⟩

/-- A request every ten seconds: the probe that is due at 7200 is never made. -/
theorem starved_portStats : Along (step portStats (fun _ => none))
    (fun s e => e.key = some (memcacheKey (driverKey "rtr-core1" "port_stats")) →
      accepted portStats (fun _ => none) s e = none) (failedUntil 7190)
    [requestAt 7200, requestAt 7210, requestAt 7220] := by
  have hstate : (failedUntil 7190).state (driverKey "rtr-core1" "port_stats")
      = some (failedState 7190) := by
    decide +kernel
  refine starved (g := 10) (u := 7190) (by decide +kernel) (by norm_num) (by decide +kernel)
    (by decide +kernel)
    ⟨failedState 7190, 6, 7200, 7190, hstate, ⟨rfl, rfl, rfl, rfl⟩,
      Or.inl ⟨by norm_num, Or.inl rfl⟩⟩
    ⟨requestOf_requestAt _ _, requestOf_requestAt _ _, requestOf_requestAt _ _, trivial⟩ ?_
  have hkey : ∀ now, (requestAt now).key
      = some (memcacheKey (driverKey "rtr-core1" "port_stats")) := fun _ => rfl
  simp only [Paced, hkey, if_true]
  refine ⟨?_, ?_, ?_, ?_, ?_, ?_, trivial⟩ <;> simp only [requestAt, Event.now] <;> norm_num

end PollerSupervisor
