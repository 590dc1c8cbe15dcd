/-
# Supervisors and workers

The supervisors of the pollers share a memcache, send the requests that they accept to
the workers, and learn from their logs which drivers work.  Nothing keeps a job or a log
from being late, overtaken, delivered twice or lost, and memcache may drop a state at any
time: what has been sent is kept here for good, and every step may use any of it.

`polled_with` says what a worker is told to do in any such run: to try the configured
drivers of the spec in turn, to use the driver that is forced, or to use a configured
driver whose fetch has already succeeded for this very device and spec.
-/
import Ptolemy.SupervisorShared
import Ptolemy.PollDrivers
import Ptolemy.RecordIsolation

namespace PollerSupervisor

open Scheduler (Draw)

/-! ## The system -/

/-- A request that has been accepted, as it is sent to the workers. -/
structure Job where
  device : String
  spec : String
  assignment : Assignment
  deriving DecidableEq

/-- The drivers that a worker tries, in this order. -/
def Assignment.drivers : Assignment → List String
  | .probe drivers => drivers
  | .poll driver => [driver]

/-- The memcache and the supervisors, all jobs and logs that have ever been sent, and the fetches
that have succeeded: a device, a spec and the path of a driver. -/
structure System where
  shared : Shared
  jobs : List Job
  logs : List Log
  fetched : List (String × String × String)

/-- Nothing has been sent or stored. -/
def System.start : System := ⟨⟨∅, ∅⟩, [], [], []⟩

variable (cfg : Config)

/-- What a supervisor sends out when it ends a request. -/
def Handler.sends (h : Handler) : Option Job :=
  match h.event with
  | .log _ _ => none
  | .request now draw job =>
      match job.device, job.spec with
      | some device, some spec =>
          let (state, reprobe, refusal) := requestUpdate cfg h.key now draw job.frequency h.read
          match refusal with
          | some _ => none
          | none => (assign cfg h.key spec reprobe state).toOption.map (Job.mk device spec)
      | _, _ => none

/-- The log of a worker whose fetch has succeeded with a driver. -/
def successLog (job : Job) (message : Option String) (driver : String) : Log where
  device := job.device
  spec := job.spec
  state := some .info
  data := ["success with driver " ++ driver]
  message := message

/-- A supervisor takes an event. -/
def System.getState (s : System) (i : ℕ) (e : Event) : System :=
  { s with shared := move cfg s.shared (.getState i e) }

/-- A supervisor commits the state of the event that it is handling, and sends the job. -/
def System.commitState (s : System) (i : ℕ) : System :=
  { s with
    shared := move cfg s.shared (.commitState i)
    jobs := ((s.shared.handlers.lookup i).bind (Handler.sends cfg)).toList ++ s.jobs }

/-- Memcache drops the state of a key. -/
def System.evict (s : System) (k : String) : System :=
  { s with shared := { s.shared with
      memcache := AList.erase (memcacheKey k) s.shared.memcache } }

/-- A worker has polled with the drivers of a job. -/
def System.work (s : System) (job : Job) (message : Option String) (polled : Poll.Polled) :
    System :=
  { s with
    logs := polled.success.map (successLog job message) ++ s.logs
    fetched := polled.success.map (fun d => (job.device, job.spec, d)) ++ s.fetched }

/-- The steps of the system, with requests for some devices and specs. -/
inductive Step (targets : Set (String × String)) (s : System) : System → Prop where
  | getRequest (i : ℕ) (now : ℚ) (draw : Draw) (job : Request) (device spec : String) :
      job.device = some device → job.spec = some spec → (device, spec) ∈ targets →
        Step targets s (s.getState cfg i (.request now draw job))
  | getLog (i : ℕ) (now : ℚ) (entry : Log) : entry ∈ s.logs →
      Step targets s (s.getState cfg i (.log now entry))
  | commit (i : ℕ) : Step targets s (s.commitState cfg i)
  | evict (k : String) : Step targets s (s.evict k)
  /-- The worker tries the drivers of the job. -/
  | work (job : Job) (taskId : Option Value) (o : IterOrder) (as : List Poll.Attempt)
      (message : Option String) : job ∈ s.jobs →
      as.map Poll.Attempt.driver = job.assignment.drivers →
        Step targets s (s.work job message (Poll.poll ⟨taskId, job.spec, job.device⟩ o as))
  /-- Any other log of a worker names no driver. -/
  | report (entry : Log) : namedDriver entry.data = none →
      Step targets s { s with logs := entry :: s.logs }

/-- The states of all runs. -/
def Reachable (targets : Set (String × String)) : System → Prop :=
  Relation.ReflTransGen (Step cfg targets) System.start

/-- **A supervisor alone** sends out what it accepts. -/
theorem sends_alone (readFile : String → Option String) (cache : List String) (w : Shared)
    (now : ℚ) (draw : Draw) {job : Request} {device spec : String}
    (hreach : reachesState readFile ⟨w.memcache, cache⟩ job = some (device, spec)) :
    Handler.sends cfg ⟨driverKey device spec, .request now draw job,
        w.state (driverKey device spec)⟩
      = (accepted cfg readFile ⟨w.memcache, cache⟩ (.request now draw job)).map
        (Job.mk device spec) := by
  obtain ⟨hdevice, hspec⟩ := fields_of_reachesState readFile hreach
  have hstate : (Supervisor.mk w.memcache cache).state (driverKey device spec)
      = w.state (driverKey device spec) := rfl
  have hiff := (request_of_some cfg readFile now draw hreach).2
  rw [hstate, ← requestUpdate_refusal cfg (driverKey device spec) now draw] at hiff
  simp only [Handler.sends, hdevice, hspec]
  ext j
  rw [Option.map_eq_some_iff]
  constructor
  · intro h
    split at h
    · cases h
    · next hrefusal =>
      obtain ⟨a, ha, rfl⟩ := Option.map_eq_some_iff.mp h
      refine ⟨a, (hiff a).mpr ⟨hrefusal, ?_⟩, rfl⟩
      cases hassign : assign cfg (driverKey device spec) spec
          (requestUpdate cfg (driverKey device spec) now draw job.frequency
            (w.state (driverKey device spec))).2.1
          (requestUpdate cfg (driverKey device spec) now draw job.frequency
            (w.state (driverKey device spec))).1 with
      | error r =>
        rw [hassign] at ha
        cases ha
      | ok b =>
        rw [hassign] at ha
        exact congrArg Except.ok (Option.some.inj ha)
  · rintro ⟨a, ha, rfl⟩
    obtain ⟨hrefusal, hassign⟩ := (hiff a).mp ha
    rw [hrefusal]
    simp only [hassign]
    rfl

/-! ## The path of a driver -/

section path

variable {spec driver : String}

/-- **The name of a driver round trips**, where it does not have the path of its directory in
it. -/
theorem stripDriverPath_getDriverPath (h : stripDriverPath cfg driver spec = driver) :
    stripDriverPath cfg (getDriverPath cfg spec driver) spec = driver := by
  have hne : (cfg.driverDir ++ spec ++ "/").toList ≠ [] := by
    rw [String.toList_append]
    exact List.append_ne_nil_of_right_ne_nil _ (List.cons_ne_nil '/' [])
  have hpath : (getDriverPath cfg spec driver).toList
      = (cfg.driverDir ++ spec ++ "/").toList ++ driver.toList := by
    rw [getDriverPath, String.toList_append]
  unfold stripDriverPath Driver.withoutText at h ⊢
  rw [hpath, Driver.replaceChars_append hne, h]

theorem successDriver_append (h : '\n' ∉ driver.toList) :
    successDriver ("success with driver " ++ driver) = some driver := by
  have hprefix : "success with driver ".toList.isPrefixOf
      ("success with driver " ++ driver).toList = true := by
    rw [String.toList_append, List.isPrefixOf_iff_prefix]
    exact List.prefix_append _ _
  have hlast : driver.toList.getLast? ≠ some '\n' :=
    fun hlast => h (List.mem_of_getLast? hlast)
  unfold successDriver
  simp only
  rw [if_pos hprefix, String.toList_append, List.drop_left, if_neg hlast, if_neg (by simpa using h),
    String.ofList_toList]

end path

/-! ## What holds in every run -/

/-- The drivers that are tried for a spec have names without line breaks, and without the path of
their directory; and a driver that is forced has a name. -/
structure Config.Named : Prop where
  plain : ∀ spec drivers, cfg.driverPriorities.lookup spec = some drivers → ∀ d ∈ drivers,
    '\n' ∉ (getDriverPath cfg spec d).toList ∧ stripDriverPath cfg d spec = d
  forced : ∀ k v, cfg.forcedDrivers.lookup k = some v → ∃ d, v = some d ∧ d ≠ ""

/-- A configured driver of the spec, whose fetch has succeeded for the device. -/
def Proven (fetched : List (String × String × String)) (device spec driver : String) : Prop :=
  (device, spec, getDriverPath cfg spec driver) ∈ fetched
    ∧ ∃ drivers, cfg.driverPriorities.lookup spec = some drivers ∧ driver ∈ drivers

/-- What a worker is told to do with a device and a spec. -/
inductive ToldTo (fetched : List (String × String × String)) (device spec : String) :
    Assignment → Prop where
  | probe (drivers : List String) : cfg.driverPriorities.lookup spec = some drivers →
      ToldTo fetched device spec (.probe (drivers.map (getDriverPath cfg spec)))
  | forced (driver : String) : cfg.forcedDrivers.lookup (driverKey device spec) = some driver →
      ToldTo fetched device spec (.poll (getDriverPath cfg spec driver))
  | proven (driver : String) : Proven cfg fetched device spec driver →
      ToldTo fetched device spec (.poll (getDriverPath cfg spec driver))

/-- A state of a key without a forced driver: the driver that it remembers is proven. -/
def Sound (targets : Set (String × String)) (fetched : List (String × String × String))
    (k : String) (state : PollState) : Prop :=
  k ∉ cfg.forcedDrivers → state.forceDriver = none ∧
    ∀ d, state.lastSuccessfulDriver = some d → ∃ p ∈ targets, driverKey p.1 p.2 = k
      ∧ Proven cfg fetched p.1 p.2 d

/-- The driver that a log names has worked, for a key without a forced driver. -/
def SoundLog (targets : Set (String × String)) (fetched : List (String × String × String))
    (entry : Log) : Prop :=
  ∀ path, namedDriver (readTexts entry.message entry.data) = some path →
    (entry.device, entry.spec) ∈ targets ∧ (driverKey entry.device entry.spec ∉ cfg.forcedDrivers →
      ∃ d, path = getDriverPath cfg entry.spec d ∧ stripDriverPath cfg path entry.spec = d
        ∧ Proven cfg fetched entry.device entry.spec d)

/-- An event that a supervisor handles is a request for one of the devices, or a sound log, and it
has read a sound state. -/
structure SoundHandler (targets : Set (String × String))
    (fetched : List (String × String × String)) (h : Handler) : Prop where
  read : ∀ state, h.read = some state → Sound cfg targets fetched h.key state
  request : ∀ now draw job, h.event = .request now draw job → ∃ device spec,
    job.device = some device ∧ job.spec = some spec ∧ (device, spec) ∈ targets
      ∧ h.key = driverKey device spec
  log : ∀ now entry, h.event = .log now entry → SoundLog cfg targets fetched entry
    ∧ h.key = driverKey entry.device entry.spec

/-- The invariant of all runs. -/
structure Inv (targets : Set (String × String)) (s : System) : Prop where
  state : ∀ k state, s.shared.state k = some state → Sound cfg targets s.fetched k state
  handlers : ∀ i h, s.shared.handlers.lookup i = some h → SoundHandler cfg targets s.fetched h
  jobs : ∀ job ∈ s.jobs, (job.device, job.spec) ∈ targets
    ∧ ToldTo cfg s.fetched job.device job.spec job.assignment
  logs : ∀ entry ∈ s.logs, SoundLog cfg targets s.fetched entry

section inv

variable {cfg} {targets : Set (String × String)}
  {fetched fetched' : List (String × String × String)}

/-! ### More fetches -/

theorem Proven.mono {device spec d : String} (hsub : fetched ⊆ fetched')
    (h : Proven cfg fetched device spec d) : Proven cfg fetched' device spec d :=
  ⟨hsub h.1, h.2⟩

theorem ToldTo.mono {device spec : String} {a : Assignment} (hsub : fetched ⊆ fetched')
    (h : ToldTo cfg fetched device spec a) : ToldTo cfg fetched' device spec a := by
  cases h with
  | probe drivers hd => exact .probe drivers hd
  | forced d hd => exact .forced d hd
  | proven d hd => exact .proven d (hd.mono hsub)

theorem Sound.mono {k : String} {state : PollState} (hsub : fetched ⊆ fetched')
    (h : Sound cfg targets fetched k state) : Sound cfg targets fetched' k state := by
  intro hk
  obtain ⟨hforce, hdriver⟩ := h hk
  refine ⟨hforce, fun d hd => ?_⟩
  obtain ⟨p, hp, hkey, hproven⟩ := hdriver d hd
  exact ⟨p, hp, hkey, hproven.mono hsub⟩

theorem SoundLog.mono {entry : Log} (hsub : fetched ⊆ fetched')
    (h : SoundLog cfg targets fetched entry) : SoundLog cfg targets fetched' entry := by
  intro path hpath
  refine ⟨(h path hpath).1, fun hk => ?_⟩
  obtain ⟨d, heq, hstrip, hproven⟩ := (h path hpath).2 hk
  exact ⟨d, heq, hstrip, hproven.mono hsub⟩

theorem SoundHandler.mono {h : Handler} (hsub : fetched ⊆ fetched')
    (hh : SoundHandler cfg targets fetched h) : SoundHandler cfg targets fetched' h where
  read := fun state hs => (hh.read state hs).mono hsub
  request := hh.request
  log := fun now entry he => ⟨(hh.log now entry he).1.mono hsub, (hh.log now entry he).2⟩

/-! ### A commit -/

/-- The state of a new key is sound. -/
theorem sound_initialState (k : String) : Sound cfg targets fetched k initialState :=
  fun _ => ⟨rfl, fun _ hd => by cases hd⟩

theorem SoundHandler.getD {h : Handler} (hh : SoundHandler cfg targets fetched h) :
    Sound cfg targets fetched h.key (h.read.getD initialState) := by
  cases hread : h.read with
  | none => exact sound_initialState h.key
  | some state => exact hh.read state hread

/-- The state that is committed is sound. -/
theorem SoundHandler.updated {h : Handler} (hh : SoundHandler cfg targets fetched h)
    {state : PollState} (hs : updated cfg h.key h.event h.read = some state) :
    Sound cfg targets fetched h.key state := by
  intro hk
  obtain ⟨hforce, hdriver⟩ := hh.getD hk
  cases he : h.event with
  | request now draw job =>
    rw [he] at hs
    obtain rfl := Option.some.inj hs
    obtain ⟨-, hkept⟩ := requestUpdate_kept cfg h.key now draw job.frequency h.read
    rw [requestUpdate_forceDriver, hkept, AList.lookup_eq_none.mpr hk]
    exact ⟨hforce, hdriver⟩
  | log now entry =>
    obtain ⟨hlog, hkey⟩ := hh.log now entry he
    rw [he] at hs
    cases hread : h.read with
    | none =>
      rw [hread] at hs
      cases hs
    | some read =>
      rw [hread] at hs hforce hdriver
      obtain ⟨t, -, rfl⟩ := Option.map_eq_some_iff.mp hs
      have hkept : (logUpdate cfg now entry.spec t entry.data entry.message read).1.forceDriver
          = read.forceDriver := (logUpdate_kept cfg).2.2
      refine ⟨hkept.trans hforce, fun d hd => ?_⟩
      rw [logUpdate_driver] at hd
      cases hrec : recordedDriver cfg entry.spec t entry.data entry.message with
      | none =>
        rw [hrec] at hd
        exact hdriver d hd
      | some said =>
        rw [hrec, Option.getD_some] at hd
        subst hd
        -- only an information says which driver has worked
        cases t with
        | info =>
          obtain ⟨path, hpath, hd⟩ := Option.map_eq_some_iff.mp hrec
          obtain ⟨htarget, hproven⟩ := hlog path hpath
          rw [hkey] at hk
          obtain ⟨d', -, hstrip, hproven⟩ := hproven hk
          rw [hstrip] at hd
          cases hd
          exact ⟨_, htarget, hkey.symm, hproven⟩
        | complete | warning | errored =>
          rw [recordedDriver] at hrec
          split_ifs at hrec
          cases hrec
        | received | processing | other name => cases hrec

/-- What is sent out with it. -/
theorem SoundHandler.sends (hcfg : cfg.Named) {h : Handler}
    (hh : SoundHandler cfg targets fetched h)
    (hinj : targets.InjOn (fun p => driverKey p.1 p.2)) {job : Job}
    (hs : Handler.sends cfg h = some job) : (job.device, job.spec) ∈ targets
      ∧ ToldTo cfg fetched job.device job.spec job.assignment := by
  unfold Handler.sends at hs
  cases he : h.event with
  | log now entry =>
    rw [he] at hs
    cases hs
  | request now draw req =>
    obtain ⟨device, spec, hdevice, hspec, htarget, hkey⟩ := hh.request now draw req he
    rw [he] at hs
    simp only [hdevice, hspec] at hs
    split at hs
    · cases hs
    obtain ⟨a, ha, rfl⟩ := Option.map_eq_some_iff.mp hs
    refine ⟨htarget, ?_⟩
    show ToldTo cfg fetched device spec a
    have hforce := requestUpdate_forceDriver cfg h.key now draw req.frequency h.read
    obtain ⟨-, hkept⟩ := requestUpdate_kept cfg h.key now draw req.frequency h.read
    generalize requestUpdate cfg h.key now draw req.frequency h.read = u at ha hforce hkept
    by_cases hk : h.key ∈ cfg.forcedDrivers
    · -- a forced driver is what is polled with
      obtain ⟨v, hv⟩ := Dict.mem_iff_lookup.mp hk
      obtain ⟨d, rfl, hd⟩ := hcfg.forced h.key v hv
      rw [hv, Option.getD_some] at hforce
      have hforced : forced u.1 = some d := by
        rw [forced, hforce, Option.filter_some, if_pos (decide_eq_true hd)]
      unfold assign at ha
      simp only [hk, true_or, if_true, Bool.false_eq_true, if_false, hforced, Option.some_or,
        Option.getD_some] at ha
      cases ha
      exact .forced d (hkey ▸ hv)
    · obtain ⟨hnone, hdriver⟩ := hh.getD hk
      have hforced : forced u.1 = none := by
        rw [forced, hforce, AList.lookup_eq_none.mpr hk, Option.getD_none, hnone]
        rfl
      rw [assign_of_unforced cfg hk hforced] at ha
      split_ifs at ha with hprobe
      · cases hpriorities : cfg.driverPriorities.lookup spec with
        | none =>
          rw [hpriorities] at ha
          cases ha
        | some drivers =>
          rw [hpriorities] at ha
          cases ha
          exact .probe drivers hpriorities
      · rw [not_or] at hprobe
        obtain ⟨d, hd⟩ := Option.ne_none_iff_exists'.mp hprobe.1
        rw [hd] at ha
        cases ha
        -- the remembered driver was proven for this key, which is that of one device and spec
        obtain ⟨p, hp, hpkey, hproven⟩ := hdriver d (hkept ▸ hd)
        obtain rfl : p = (device, spec) := hinj hp htarget (hpkey.trans hkey)
        exact .proven d hproven

/-! ### The moves -/

/-- A supervisor that takes an event. -/
theorem Inv.getState {s : System} (hs : Inv cfg targets s) (i : ℕ) {e : Event}
    (hrequest : ∀ now draw job, e = .request now draw job → ∃ device spec,
      job.device = some device ∧ job.spec = some spec ∧ (device, spec) ∈ targets)
    (hlog : ∀ now entry, e = .log now entry → SoundLog cfg targets s.fetched entry) :
    Inv cfg targets (s.getState cfg i e) := by
  refine ⟨fun k state hk => hs.state k state ?_, fun j h hj => ?_, hs.jobs, hs.logs⟩
  · rw [← hk]
    simp only [System.getState, move]
    split <;> rfl
  · simp only [System.getState, move] at hj
    split at hj
    · next k hidle hreads =>
      by_cases hij : j = i
      · subst hij
        rw [AList.lookup_insert] at hj
        cases hj
        refine ⟨fun state hread => hs.state k state hread, fun now draw job he => ?_,
          fun now entry he => ⟨hlog now entry he, ?_⟩⟩
        · obtain ⟨device, spec, hdevice, hspec, htarget⟩ := hrequest now draw job he
          refine ⟨device, spec, hdevice, hspec, htarget, ?_⟩
          subst he
          simp only [Event.reads, hdevice, hspec] at hreads
          exact (Option.some.inj hreads).symm
        · subst he
          obtain ⟨t, -, hkey⟩ := Option.map_eq_some_iff.mp hreads
          exact hkey.symm
      · rw [AList.lookup_insert_ne hij] at hj
        exact hs.handlers j h hj
    · exact hs.handlers j h hj

/-- The handlers that are left when one of them ends. -/
theorem lookup_erase_handlers {handlers : Dict ℕ Handler} {i j : ℕ} {h : Handler}
    (hj : (AList.erase i handlers).lookup j = some h) : handlers.lookup j = some h := by
  by_cases hij : j = i
  · subst hij
    rw [AList.lookup_erase] at hj
    cases hj
  · rwa [AList.lookup_erase_ne hij] at hj

/-- A supervisor that commits. -/
theorem Inv.commitState (hcfg : cfg.Named) (hinj : targets.InjOn (fun p => driverKey p.1 p.2))
    {s : System} (hs : Inv cfg targets s) (i : ℕ) :
    Inv cfg targets (s.commitState cfg i) := by
  unfold System.commitState
  cases hi : s.shared.handlers.lookup i with
  | none =>
    have hmove : move cfg s.shared (.commitState i) = s.shared := by simp only [move, hi]
    rw [hmove]
    exact hs
  | some g =>
    have hg := hs.handlers i g hi
    have hsent : ∀ job ∈ ((some g).bind (Handler.sends cfg)).toList ++ s.jobs,
        (job.device, job.spec) ∈ targets
          ∧ ToldTo cfg s.fetched job.device job.spec job.assignment := by
      intro job hjob
      rcases List.mem_append.mp hjob with hjob | hjob
      · exact hg.sends hcfg hinj (Option.mem_toList.mp hjob)
      · exact hs.jobs job hjob
    cases hu : PollerSupervisor.updated cfg g.key g.event g.read with
    | none =>
      have hmove : move cfg s.shared (.commitState i)
          = { s.shared with handlers := AList.erase i s.shared.handlers } := by
        simp only [move, hi, hu]
      rw [hmove]
      exact ⟨hs.state, fun j h hj => hs.handlers j h (lookup_erase_handlers hj), hsent, hs.logs⟩
    | some state =>
      have hmove : move cfg s.shared (.commitState i)
          = ⟨AList.insert (memcacheKey g.key) state s.shared.memcache,
            AList.erase i s.shared.handlers⟩ := by
        simp only [move, hi, hu]
      rw [hmove]
      refine ⟨fun k state' hk => ?_, fun j h hj => hs.handlers j h (lookup_erase_handlers hj),
        hsent, hs.logs⟩
      by_cases hkey : k = g.key
      · subst hkey
        rw [Shared.state, AList.lookup_insert] at hk
        cases hk
        exact hg.updated hu
      · rw [Shared.state, AList.lookup_insert_ne (fun h => hkey (memcacheKey_injective h))] at hk
        exact hs.state k state' hk

theorem Inv.evict {s : System} (hs : Inv cfg targets s) (k : String) :
    Inv cfg targets (s.evict k) := by
  refine ⟨fun k' state hk => hs.state k' state ?_, hs.handlers, hs.jobs, hs.logs⟩
  rw [Shared.state, System.evict] at hk
  rw [Shared.state]
  by_cases hkey : memcacheKey k' = memcacheKey k
  · rw [hkey, AList.lookup_erase] at hk
    cases hk
  · rwa [AList.lookup_erase_ne hkey] at hk

/-- The report of a worker that was told what to do. -/
theorem soundLog_successLog (hcfg : cfg.Named) {job : Job} {message : Option String} {path : String}
    (htarget : (job.device, job.spec) ∈ targets)
    (htold : ToldTo cfg fetched job.device job.spec job.assignment)
    (hpath : path ∈ job.assignment.drivers) (hmem : (job.device, job.spec, path) ∈ fetched') :
    SoundLog cfg targets fetched' (successLog job message path) := by
  intro path' hpath'
  refine ⟨htarget, fun hk => ?_⟩
  -- without a forced driver, only configured ones are tried
  have hconfigured : ∃ d drivers, path = getDriverPath cfg job.spec d
      ∧ cfg.driverPriorities.lookup job.spec = some drivers ∧ d ∈ drivers := by
    revert htold hpath
    generalize job.assignment = a
    intro htold hpath
    cases htold with
    | probe drivers hdrivers =>
      obtain ⟨d, hd, rfl⟩ := List.mem_map.mp hpath
      exact ⟨d, drivers, rfl, hdrivers, hd⟩
    | forced d hd => exact absurd (Dict.mem_iff_lookup.mpr ⟨_, hd⟩) hk
    | proven d hd =>
      obtain ⟨-, drivers, hdrivers, hd⟩ := hd
      exact ⟨d, drivers, List.mem_singleton.mp hpath, hdrivers, hd⟩
  obtain ⟨d, drivers, rfl, hdrivers, hd⟩ := hconfigured
  obtain ⟨hplain, hstrip⟩ := hcfg.plain job.spec drivers hdrivers d hd
  have hsuccess := successDriver_append hplain
  have hread : readTexts message ["success with driver " ++ getDriverPath cfg job.spec d]
      = ["success with driver " ++ getDriverPath cfg job.spec d] := by
    cases message with
    | some m => rfl
    | none => rw [readTexts, List.takeWhile_cons_of_pos (by rw [hsuccess]; rfl)]; rfl
  have hnamed : namedDriver (readTexts
      (successLog job message (getDriverPath cfg job.spec d)).message
      (successLog job message (getDriverPath cfg job.spec d)).data)
      = some (getDriverPath cfg job.spec d) := by
    show namedDriver (readTexts message ["success with driver " ++ getDriverPath cfg job.spec d])
      = some (getDriverPath cfg job.spec d)
    rw [hread, namedDriver_cons, hsuccess]
    rfl
  rw [hnamed] at hpath'
  cases hpath'
  exact ⟨d, rfl, stripDriverPath_getDriverPath cfg hstrip, hmem, drivers, hdrivers, hd⟩

/-- A driver that `poll` reports is one of those that it was given. -/
theorem mem_drivers_of_success {job : Poll.Job} {o : IterOrder} {as : List Poll.Attempt}
    {d : String} (h : d ∈ (Poll.poll job o as).success) : d ∈ as.map Poll.Attempt.driver := by
  induction as with
  | nil => exact absurd h List.not_mem_nil
  | cons a as ih =>
    rw [List.map_cons, List.mem_cons]
    unfold Poll.poll at h
    split at h
    · split_ifs at h
      · exact absurd h List.not_mem_nil
      · exact Or.inr (ih h)
    · exact absurd h List.not_mem_nil
    · exact Or.inr (ih h)
    · split at h
      · exact Or.inl (List.mem_singleton.mp h)
      · exact Or.inl (List.mem_singleton.mp h)

/-- Every step keeps the invariant. -/
theorem Inv.step (hcfg : cfg.Named) (hinj : targets.InjOn (fun p => driverKey p.1 p.2))
    {s s' : System} (hs : Inv cfg targets s) (hstep : Step cfg targets s s') :
    Inv cfg targets s' := by
  cases hstep with
  | getRequest i now draw job device spec hdevice hspec htarget =>
    refine hs.getState i (fun now' draw' job' he => ?_) (fun now' entry he => by cases he)
    cases he
    exact ⟨device, spec, hdevice, hspec, htarget⟩
  | getLog i now entry hentry =>
    refine hs.getState i (fun now' draw' job' he => by cases he) (fun now' entry' he => ?_)
    cases he
    exact hs.logs entry hentry
  | commit i => exact hs.commitState hcfg hinj i
  | evict k => exact hs.evict k
  | work job taskId o as message hjob hdrivers =>
    have hsub := List.subset_append_right ((Poll.poll ⟨taskId, job.spec, job.device⟩ o
      as).success.map (fun d => (job.device, job.spec, d))) s.fetched
    refine ⟨fun k state hk => (hs.state k state hk).mono hsub,
      fun i h hi => (hs.handlers i h hi).mono hsub,
      fun j hj => ⟨(hs.jobs j hj).1, (hs.jobs j hj).2.mono hsub⟩, fun entry hentry => ?_⟩
    rcases List.mem_append.mp hentry with hnew | hold
    · obtain ⟨d, hd, rfl⟩ := List.mem_map.mp hnew
      obtain ⟨htarget, htold⟩ := hs.jobs job hjob
      refine soundLog_successLog hcfg htarget htold ?_ ?_
      · rw [← hdrivers]
        exact mem_drivers_of_success hd
      · exact List.mem_append_left _ (List.mem_map.mpr ⟨d, hd, rfl⟩)
    · exact (hs.logs entry hold).mono hsub
  | report entry hnone =>
    refine ⟨hs.state, hs.handlers, hs.jobs, fun entry' hentry => ?_⟩
    rcases List.mem_cons.mp hentry with rfl | hold
    · intro path hpath
      rw [namedDriver_readTexts hnone] at hpath
      cases hpath
    · exact hs.logs entry' hold

theorem inv_start : Inv cfg targets System.start where
  state := fun k state h => by
    rw [Shared.state, System.start, AList.lookup_empty] at h
    cases h
  handlers := fun i h hi => by
    rw [System.start, AList.lookup_empty] at hi
    cases hi
  jobs := fun job hjob => absurd hjob List.not_mem_nil
  logs := fun entry hentry => absurd hentry List.not_mem_nil

theorem inv_of_reachable (hcfg : cfg.Named) (hinj : targets.InjOn (fun p => driverKey p.1 p.2))
    {s : System} (h : Reachable cfg targets s) : Inv cfg targets s := by
  induction h with
  | refl => exact inv_start
  | tail _ hstep ih => exact ih.step hcfg hinj hstep

/-- **What the workers poll with.**  For any number of supervisors and workers, whatever jobs and
logs are delayed, overtaken, delivered again or lost, and whatever states memcache drops: a worker
is told to try the configured drivers of the spec, or to use the forced driver of the key, or to
use a configured driver whose fetch has succeeded for this device and spec. -/
theorem polled_with (hcfg : cfg.Named) (hinj : targets.InjOn (fun p => driverKey p.1 p.2))
    {s : System} (h : Reachable cfg targets s) {job : Job} (hjob : job ∈ s.jobs) :
    ToldTo cfg s.fetched job.device job.spec job.assignment :=
  ((inv_of_reachable hcfg hinj h).jobs job hjob).2

end inv

/-! ## A driver that is found, and used -/

def oneDevice : Set (String × String) := {("rtr-core1", "port_stats")}

theorem named_portStats : portStats.Named where
  plain := by
    intro spec drivers h d hd
    have hmem : (spec, drivers) ∈ [("port_stats", ["cisco_ios.yaml", "generic.yaml"])] :=
      Dict.mem_items.mpr h
    cases List.mem_singleton.mp hmem
    revert d
    decide
  forced := by
    intro k v h
    cases h

/-- The first driver fails, and the second one works. -/
def foundAttempts : List Poll.Attempt :=
  [⟨"/drivers/port_stats/cisco_ios.yaml", 0, .error (.other (.exception "missing reference"))⟩,
    ⟨"/drivers/port_stats/generic.yaml", 1, .ok ⟨∅, ∅, ∅, ∅⟩⟩]

def probeJob : Job := ⟨"rtr-core1", "port_stats",
  .probe ["/drivers/port_stats/cisco_ios.yaml", "/drivers/port_stats/generic.yaml"]⟩

def foundJob : Job := ⟨"rtr-core1", "port_stats", .poll "/drivers/port_stats/generic.yaml"⟩

def portStatsRequest : Request := ⟨some "rtr-core1", some "port_stats", ∅, some 60⟩

/-- A supervisor sends a probe, and the worker reports the driver that works. -/
def probedSystem : System :=
  ((System.start.getState portStats 0 (.request 0 middle portStatsRequest)).commitState portStats
    0).work probeJob none (Poll.poll ⟨none, "port_stats", "rtr-core1"⟩ .stored foundAttempts)

/-- A second supervisor reads the log, and the first one takes the next request. -/
def foundSystem : System :=
  (((probedSystem.getState portStats 1
      (.log 5 (successLog probeJob none "/drivers/port_stats/generic.yaml"))).commitState portStats
    1).getState portStats 0 (.request 40 middle portStatsRequest)).commitState portStats 0

theorem reachable_probedSystem : Reachable portStats oneDevice probedSystem := by
  have hasked := (Relation.ReflTransGen.refl (r := Step portStats oneDevice)
    (a := System.start)).tail
      (.getRequest 0 0 middle portStatsRequest "rtr-core1" "port_stats" rfl rfl rfl)
  have hjob : probeJob ∈ ((System.start.getState portStats 0
      (.request 0 middle portStatsRequest)).commitState portStats 0).jobs := by
    decide +kernel
  exact (hasked.tail (.commit 0)).tail (.work probeJob none .stored foundAttempts none hjob rfl)

theorem reachable_foundSystem : Reachable portStats oneDevice foundSystem := by
  have hread := reachable_probedSystem.tail
    (.getLog 1 5 (successLog probeJob none "/drivers/port_stats/generic.yaml")
      (List.mem_singleton_self _))
  have hasked := (hread.tail (.commit 1)).tail
    (.getRequest 0 40 middle portStatsRequest "rtr-core1" "port_stats" rfl rfl rfl)
  exact hasked.tail (.commit 0)

/-- The next job is to be polled with the driver that has worked. -/
theorem polled_with_portStats : foundJob ∈ foundSystem.jobs
    ∧ ToldTo portStats foundSystem.fetched "rtr-core1" "port_stats"
      (.poll "/drivers/port_stats/generic.yaml") := by
  have hjob : foundJob ∈ foundSystem.jobs := by decide +kernel
  exact ⟨hjob, polled_with named_portStats (Set.injOn_singleton _ _) reachable_foundSystem hjob⟩

end PollerSupervisor
