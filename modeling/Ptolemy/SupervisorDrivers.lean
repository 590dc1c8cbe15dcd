/-
# The driver that a supervisor remembers

A worker reports the driver that worked as a path; the supervisor keeps its base
name and builds the path of a later request from it.  `latestDriver` is what the
logs of a key say, read without the state: every poll of a key on which no driver
is forced carries it, in the runs in which no text stops a log before it names its
driver (`remembered`).
-/
import Ptolemy.SupervisorTimes

namespace PollerSupervisor

open Run
open Scheduler (Draw)

variable (cfg : Config) (readFile : String → Option String)

/-! ## What the logs say -/

/-- What a log says about the driver of its key, after what the logs before it said: the path and
the spec of the success that it reports, or that there is no suitable driver. -/
def Log.latestDriver (entry : Log) (latest : Option (String × String)) :
    Option (String × String) :=
  match entry.state with
  | some .complete | some .warning | some .errored =>
      if "no suitable driver found" ∈ entry.data then none else latest
  | some .info =>
      match namedDriver entry.data with
      | some path => some (path, entry.spec)
      | none => latest
  | _ => latest

/-- The same for an event of any key. -/
def latestStep (k : String) (latest : Option (String × String)) : Event → Option (String × String)
  | .request _ _ _ => latest
  | .log _ entry =>
      if driverKey entry.device entry.spec = k then entry.latestDriver latest else latest

/-- The driver of the latest success of a key, none if it was followed by a log of no suitable
driver. -/
def latestDriver (k : String) (es : List Event) : Option (String × String) :=
  es.foldl (latestStep k) none

/-- An information for the key, when it has a state, names its last driver before the first text
that cannot be reported. -/
def NamedInTime (k : String) (s : Supervisor) : Event → Prop
  | .request _ _ _ => True
  | .log _ entry => driverKey entry.device entry.spec = k → s.state k ≠ none →
      entry.state = some .info → entry.message = none →
        namedDriver (entry.data.takeWhile (fun d => (successDriver d).isSome))
          = namedDriver entry.data

/-! ## What the state remembers -/

variable {k : String} {s : Supervisor} {latest : Option (String × String)}

/-- A driver in the state of the key is the base name of what the logs said last. -/
def Remembers (k : String) (s : Supervisor) (latest : Option (String × String)) : Prop :=
  ∀ state, s.state k = some state → ∀ driver, state.lastSuccessfulDriver = some driver →
    ∃ path spec, latest = some (path, spec) ∧ driver = stripDriverPath cfg path spec

theorem recordedDriver_eq {entry : Log} {t : TaskState} (ht : entry.state = some t)
    (hread : t = .info → namedDriver (readTexts entry.message entry.data) = namedDriver entry.data)
    {driver : Option String}
    (hdriver : ∀ d, driver = some d → ∃ path spec, latest = some (path, spec)
      ∧ d = stripDriverPath cfg path spec) :
    ∀ d, (recordedDriver cfg entry.spec t entry.data entry.message).getD driver = some d →
      ∃ path spec, entry.latestDriver latest = some (path, spec)
        ∧ d = stripDriverPath cfg path spec := by
  intro d hd
  unfold Log.latestDriver
  rw [ht]
  unfold recordedDriver at hd
  cases t with
  -- the end of a job can only take the driver away
  | complete | warning | errored =>
    simp only at hd ⊢
    split_ifs at hd ⊢ with hnone
    · cases hd
    · exact hdriver d hd
  | info =>
    -- the driver that was read in time is the last one that is named
    simp only [hread rfl] at hd ⊢
    cases hnamed : namedDriver entry.data with
    | none =>
      rw [hnamed] at hd
      exact hdriver d hd
    | some path =>
      rw [hnamed] at hd
      exact ⟨path, entry.spec, rfl, (Option.some.inj hd).symm⟩
  | received | processing | other name => exact hdriver d hd

theorem Remembers.step {cfg : Config} (h : Remembers cfg k s latest) {e : Event}
    (he : NamedInTime k s e) : Remembers cfg k (step cfg readFile s e) (latestStep k latest e) := by
  intro state hstate
  rcases state_step_cases cfg readFile s e k with ⟨hsame, hlost⟩
    | ⟨now, draw, job, device, spec, rfl, -, -, hnew⟩
    | ⟨now, entry, t, read, rfl, ht, rfl, hread, hnew⟩
  · rw [hsame] at hstate
    -- nothing is committed for the key: a log of it would need a state
    have hlatest : latestStep k latest e = latest := by
      cases e with
      | request now draw job => rfl
      | log now entry =>
        rw [latestStep]
        split_ifs with hk
        · cases ht : entry.state with
          | none => rw [Log.latestDriver, ht]
          | some t =>
            have hnone := hlost now entry t rfl ht hk
            rw [hnone] at hstate
            cases hstate
        · rfl
    rw [hlatest]
    exact h state hstate
  · obtain rfl := Option.some.inj (hnew.symm.trans hstate)
    rw [(requestUpdate_kept cfg k now draw job.frequency (s.state k)).2]
    cases hread : s.state k with
    | none => intro driver hdriver; cases hdriver
    | some read => exact h read hread
  · obtain rfl := Option.some.inj (hnew.symm.trans hstate)
    rw [logUpdate_driver, latestStep, if_pos rfl]
    apply recordedDriver_eq cfg ht _ (h read hread)
    rintro rfl
    cases hmessage : entry.message with
    | none => exact he rfl (by rw [hread]; exact Option.some_ne_none read) ht hmessage
    | some m => rfl

theorem Remembers.run {cfg : Config} (h : Remembers cfg k s latest) {es : List Event}
    (hes : Along (PollerSupervisor.step cfg readFile) (NamedInTime k) s es) :
    Remembers cfg k (run (PollerSupervisor.step cfg readFile) s es)
      (es.foldl (latestStep k) latest) := by
  induction es generalizing s latest with
  | nil => exact h
  | cons e es ih => exact ih (h.step readFile hes.1) hes.2

theorem Unforced.run {cfg : Config} (h : Unforced cfg k s) (es : List Event) :
    Unforced cfg k (run (PollerSupervisor.step cfg readFile) s es) :=
  (Always.of_step (fun _ e hs => hs.step readFile e) h es).last

/-- **The driver that is remembered**: in every run of a supervisor in which no text stops an
information before it names its last driver, a request that is accepted for a key on which no
driver is forced either carries the path that the latest success named, stripped and built again,
or is a probe with all drivers of the spec in their order; it is a probe where there is no such
driver. -/
theorem remembered {cfg : Config} {device spec : String}
    (hunforced : driverKey device spec ∉ cfg.forcedDrivers) {es : List Event}
    (hes : Along (PollerSupervisor.step cfg readFile) (NamedInTime (driverKey device spec)) start
      es) {now : ℚ} {draw : Draw} {job : Request} (hdevice : job.device = some device)
    (hspec : job.spec = some spec) {data : Dict String Value} {a : Assignment}
    (h : (validateTask cfg readFile now draw job
      (run (PollerSupervisor.step cfg readFile) start es)).2 = .ok (data, a)) :
    (∃ path spec', latestDriver (driverKey device spec) es = some (path, spec')
        ∧ a = .poll (getDriverPath cfg spec (stripDriverPath cfg path spec'))
        ∧ data.lookup "driver"
          = some (.str (getDriverPath cfg spec (stripDriverPath cfg path spec'))))
      ∨ ∃ drivers, cfg.driverPriorities.lookup spec = some drivers
        ∧ a = .probe (drivers.map (getDriverPath cfg spec))
        ∧ data.lookup "probe_with_drivers" = some (.list (drivers.map (getDriverPath cfg spec))) := by
  obtain ⟨haccepted, data', rfl⟩ := accepted_of_validateTask cfg readFile now draw h
  obtain ⟨_, _, _, device', spec', heq, hreach, -, hassign⟩ := accepted_cases cfg readFile haccepted
  obtain ⟨rfl, rfl, rfl⟩ := Event.request.inj heq
  obtain ⟨hdevice', hspec'⟩ := fields_of_reachesState readFile hreach
  obtain rfl := Option.some.inj (hdevice.symm.trans hdevice')
  obtain rfl := Option.some.inj (hspec.symm.trans hspec')
  have hstart : Unforced cfg (driverKey device spec) start :=
    ⟨hunforced, fun _ hstate => by cases hstate⟩
  have hrun := hstart.run readFile es
  have hremembers : Remembers cfg (driverKey device spec)
      (run (PollerSupervisor.step cfg readFile) start es)
        (latestDriver (driverKey device spec) es) :=
    Remembers.run readFile (fun _ hstate => by cases hstate) hes
  -- the assignment is made from the state that the request itself has just committed
  have hnew := state_of_insert (request_of_some cfg readFile now draw hreach).1
  have hforced := (hrun.step readFile (.request now draw job)).2 _ hnew
  rw [assign_of_unforced cfg hunforced hforced, (requestUpdate_kept cfg _ now draw _ _).2] at hassign
  split_ifs at hassign with hprobe
  · right
    cases hdrivers : cfg.driverPriorities.lookup spec with
    | none => rw [hdrivers] at hassign; cases hassign
    | some drivers =>
      rw [hdrivers] at hassign
      obtain rfl := Except.ok.inj hassign
      exact ⟨drivers, rfl, rfl, AList.lookup_insert _⟩
  · left
    obtain rfl := Except.ok.inj hassign
    -- not a probe: there was a driver, so the key had a state
    cases hstate : (run (PollerSupervisor.step cfg readFile) start es).state
        (driverKey device spec) with
    | none =>
      rw [hstate] at hprobe
      exact absurd (Or.inl rfl) hprobe
    | some state =>
      rw [hstate, Option.getD_some] at hprobe
      rw [Option.getD_some]
      obtain ⟨driver, hdriver⟩ := Option.ne_none_iff_exists'.mp (not_or.mp hprobe).1
      obtain ⟨path, spec', hlatest, rfl⟩ := hremembers state hstate driver hdriver
      rw [hdriver, Option.getD_some]
      exact ⟨path, spec', hlatest, rfl, AList.lookup_insert _⟩

/-- A poll after the first probe. -/
theorem remembered_portStats :
    ∃ data, (validateTask portStats (fun _ => none) 40 middle
        ⟨some "rtr-core1", some "port_stats", ∅, some 60⟩
        (run (step portStats (fun _ => none)) start probed)).2
          = .ok (data, .poll "/drivers/port_stats/generic.yaml")
      ∧ data.lookup "driver" = some (.str "/drivers/port_stats/generic.yaml") := by
  have haccepted : accepted portStats (fun _ => none)
      (run (step portStats (fun _ => none)) start probed) (requestAt 40)
        = some (.poll "/drivers/port_stats/generic.yaml") := by
    decide +kernel
  obtain ⟨data, hok⟩ := validateTask_of_accepted portStats _ 40 middle haccepted
  have hes : Along (step portStats (fun _ => none)) (NamedInTime (driverKey "rtr-core1" "port_stats"))
      start probed := by
    refine ⟨trivial, ?_, ?_, ?_, trivial⟩ <;> intro _ _ _ _ <;> decide
  rcases remembered (fun _ => none) (by decide) hes rfl rfl hok with
    ⟨path, spec', -, ha, hdata⟩ | ⟨drivers, -, ha, -⟩
  · exact ⟨data, hok, by rw [hdata, ← Assignment.poll.inj ha]⟩
  · cases ha

/-- A success with the first driver, and then one that is reported behind another text. -/
def reportedBehind : List Event :=
  [requestAt 0, logAt 5 .info ["success with driver /drivers/port_stats/cisco_ios.yaml"],
    logAt 6 .complete [],
    logAt 50 .info ["no answer to the first request",
      "success with driver /drivers/port_stats/generic.yaml"]]

/-- The success with `generic.yaml` is the latest one, and the next request is polled with
`cisco_ios.yaml`. -/
theorem not_remembered_reportedBehind :
    latestDriver "rtr-core1:port_stats" reportedBehind
        = some ("/drivers/port_stats/generic.yaml", "port_stats")
      ∧ getDriverPath portStats "port_stats" (stripDriverPath portStats
          "/drivers/port_stats/generic.yaml" "port_stats") = "/drivers/port_stats/generic.yaml"
      ∧ accepted portStats (fun _ => none) (run (step portStats (fun _ => none)) start
          reportedBehind) (requestAt 60) = some (.poll "/drivers/port_stats/cisco_ios.yaml") := by
  refine ⟨by decide, by decide, by decide +kernel⟩

end PollerSupervisor
