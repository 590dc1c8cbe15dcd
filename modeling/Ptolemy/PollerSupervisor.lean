/-
# The supervisor of the pollers

A supervisor checks each poll request, decides which driver the worker is to use,
and follows the logs of the workers.  For each `device:spec` it keeps a state in
memcache: `validate_task` and `process_log` each read the state of their key,
change it and put it back.

Both are written here around the function that computes the state to be committed
from the state that was read (`requestUpdate`, `logUpdate`), so that the reading
and the committing can also be taken apart.  The clock, the random draws and the
contents of option files are inputs; times are exact rational numbers of seconds.
The bookkeeping of the supervisor class for logs, outside this repository, is
left out.
-/
import Ptolemy.PostRemap
import Ptolemy.Scheduler

open Scheduler (Draw uniform)

namespace PollerSupervisor

/-! ## States, requests and logs -/

/-- The state of a key. -/
structure PollState where
  recvd : Option ℚ
  started : Option ℚ
  complete : Option ℚ
  nextProbe : Option ℚ
  lastFailed : Option ℚ
  lastTimedOut : Option ℚ
  /-- The base name of the last driver that worked. -/
  lastSuccessfulDriver : Option String
  forceDriver : Option String
  deriving DecidableEq, Repr

def initialState : PollState := ⟨none, none, none, none, none, none, none, none⟩

/-- The settings of a supervisor. -/
structure Config where
  driverDir : String
  driverPriorities : Dict String (List String)
  forcedDrivers : Dict String (Option String)
  receivedThrottleTime : ℚ
  completeThrottleTime : ℚ
  /-- `none` where it is not configured: the class has a time span there, with which no limit
  can be computed. -/
  invalidTimeMultiplier : Option ℚ
  reprobePeriod : ℚ
  reprobeSpread : ℚ

/-- A poll request. -/
structure Request where
  device : Option String
  spec : Option String
  data : Dict String Value
  frequency : Option ℚ

/-- The state of a job that a log reports. -/
inductive TaskState where
  | received : TaskState
  | processing : TaskState
  | complete : TaskState
  | warning : TaskState
  | errored : TaskState
  | info : TaskState
  | other (name : String) : TaskState
  deriving DecidableEq, Repr

/-- A log of a worker. -/
structure Log where
  device : String
  spec : String
  state : Option TaskState
  data : List String
  message : Option String

/-- Why a request or a log is not processed to its end. -/
inductive Refusal where
  | invalidJob : Refusal
  | optionsUnread : Refusal
  | cannotBePolled : Refusal
  | completedRecently (ago : ℚ) : Refusal
  | requestedTooFrequently (ago : ℚ) : Refusal
  | notRegistered : Refusal
  | raised (e : Exn) : Refusal
  deriving DecidableEq, Repr

/-- What an accepted request is sent out as: a probe with the drivers to be tried in turn, or
a poll with one driver. -/
inductive Assignment where
  | probe (drivers : List String) : Assignment
  | poll (driver : String) : Assignment
  deriving DecidableEq, Repr

def driverKey (device spec : String) : String := device ++ ":" ++ spec

def memcacheKey (driverKey : String) : String := "ptolemy:polld:" ++ driverKey

variable (cfg : Config)

def getDriverPath (spec driver : String) : String := cfg.driverDir ++ spec ++ "/" ++ driver

def stripDriverPath (driver spec : String) : String :=
  Driver.withoutText (cfg.driverDir ++ spec ++ "/") driver

/-! ## Requests -/

/-- The part of a `file://` option after the scheme; it has no line breaks but one at its
end. -/
def filePath (s : String) : Option String :=
  let scheme := "file://".toList
  if scheme.isPrefixOf s.toList then
    let rest := s.toList.drop scheme.length
    let path := if rest.getLast? = some '\n' then rest.dropLast else rest
    if path.contains '\n' then none else some (String.ofList path)
  else none

/-- The options of a request, each file replaced by its contents, up to the first that cannot be
read; with the cache of them. -/
def readOptions (readFile : String → Option String) :
    List (String × Value) → List String → Dict String Value →
      List String × Option (Dict String Value)
  | [], cache, data => (cache, some data)
  | (i, .str s) :: options, cache, data =>
      if "file".toList.isPrefixOf s.toList ∧ s ∉ cache then
        match filePath s with
        | some f =>
            match readFile f with
            | some v => readOptions readFile options (v :: cache) (AList.insert i (.str v) data)
            | none => (cache, none)
        | none => readOptions readFile options cache data
      else readOptions readFile options cache data
  | _ :: options, cache, data => readOptions readFile options cache data

/-- The time after which a started test is taken as lost. -/
def startedLimit (frequency : Option ℚ) : Except Exn ℚ :=
  match frequency, cfg.invalidTimeMultiplier with
  | none, _ => .ok 60
  | some f, some m => .ok (f * m)
  | some _, none => .error (.typeError "unsupported type for timedelta seconds component")

/-- The checks of a request on the state of its key: the state after them, whether the request
is to be noted as received, and why it is refused. -/
def check (now : ℚ) (frequency : Option ℚ) (state : PollState) :
    PollState × Bool × Option Refusal :=
  -- a key that has never been polled with success waits for its next probe
  if state.complete ≠ none ∧ state.lastSuccessfulDriver = none
      ∧ (∃ t ∈ state.nextProbe, now < t) then
    (state, true, some .cannotBePolled)
  else match state.complete.filter (fun t => now - t < cfg.completeThrottleTime) with
    | some t => (state, false, some (.completedRecently (now - t)))
    | none =>
      match state.recvd.filter (fun t => now - t < cfg.receivedThrottleTime) with
      | some t => (state, false, some (.requestedTooFrequently (now - t)))
      | none =>
        match state.started with
        | none => (state, true, none)
        | some t =>
          match startedLimit cfg frequency with
          | .error e => (state, true, some (.raised e))
          | .ok limit =>
              (if limit < now - t then { state with started := none } else state, true, none)

/-- The next probe is due, or has never been planned. -/
def ProbeDue (now : ℚ) (state : PollState) : Prop := ∀ t ∈ state.nextProbe, t < now

instance (now : ℚ) (state : PollState) : Decidable (ProbeDue now state) :=
  match h : state.nextProbe with
  | none => .isTrue (by intro t ht; rw [h] at ht; cases ht)
  | some t =>
      if hlt : t < now then .isTrue (by intro t' ht; rw [h] at ht; cases ht; exact hlt)
      else .isFalse (fun hd => hlt (hd t h))

/-- The state that a request commits, from the state it has read: also a refused one plans the
next probe. With it go whether a probe was due, and why the request is refused. -/
def requestUpdate (k : String) (now : ℚ) (draw : Draw) (frequency : Option ℚ)
    (read : Option PollState) : PollState × Bool × Option Refusal :=
  let (state, updateRecvd, refusal) := check cfg now frequency (read.getD initialState)
  let state := if updateRecvd then { state with recvd := some now } else state
  let reprobe : Bool := ProbeDue now state
  let d := cfg.reprobeSpread * cfg.reprobePeriod
  let state :=
    if reprobe then
      { state with nextProbe := some (now + (cfg.reprobePeriod + uniform (-1 * d) d draw)) }
    else state
  let state :=
    match cfg.forcedDrivers.lookup k with
    | some driver => { state with forceDriver := driver }
    | none => state
  (state, reprobe, refusal)

/-- The forced driver of a state, if it names one. -/
def forced (state : PollState) : Option String := state.forceDriver.filter (fun d => d ≠ "")

/-- What a request that was not refused is sent out as. -/
def assign (k spec : String) (reprobe : Bool) (state : PollState) : Except Refusal Assignment :=
  let reprobe := if state.lastSuccessfulDriver = none then true else reprobe
  let reprobe := if k ∈ cfg.forcedDrivers ∨ forced state ≠ none then false else reprobe
  if reprobe then
    match cfg.driverPriorities.lookup spec with
    | some drivers => .ok (.probe (drivers.map (getDriverPath cfg spec)))
    | none => .error .notRegistered
  else
    .ok (.poll (getDriverPath cfg spec
      (((forced state).or state.lastSuccessfulDriver).getD "None")))

/-- The data of a job with its assignment. -/
def Assignment.store (data : Dict String Value) : Assignment → Dict String Value
  | .probe drivers => AList.insert "probe_with_drivers" (.list drivers) data
  | .poll driver => AList.insert "driver" (.str driver) data

/-- A supervisor: the states in memcache and the cache of option files. -/
structure Supervisor where
  memcache : Dict String PollState
  optionsCache : List String

/-- Check a request, and decide what it is sent out as. -/
def validateTask (readFile : String → Option String) (now : ℚ) (draw : Draw) (job : Request)
    (s : Supervisor) : Supervisor × Except Refusal (Dict String Value × Assignment) :=
  match job.device, job.spec with
  | some device, some spec =>
      match readOptions readFile job.data.items s.optionsCache job.data with
      | (cache, none) => ({ s with optionsCache := cache }, .error .optionsUnread)
      | (cache, some data) =>
          let k := driverKey device spec
          let (state, reprobe, refusal) :=
            requestUpdate cfg k now draw job.frequency (s.memcache.lookup (memcacheKey k))
          let s : Supervisor := ⟨AList.insert (memcacheKey k) state s.memcache, cache⟩
          match refusal with
          | some r => (s, .error r)
          | none =>
              match assign cfg k spec reprobe state with
              | .error r => (s, .error r)
              | .ok a => (s, .ok (a.store data, a))
  | _, _ => (s, .error .invalidJob)

/-! ## Logs -/

/-- The driver that a text of success names: what stands behind its fixed part, without line
breaks but one at its end. -/
def successDriver (d : String) : Option String :=
  let start := "success with driver ".toList
  if start.isPrefixOf d.toList then
    let rest := d.toList.drop start.length
    let path := if rest.getLast? = some '\n' then rest.dropLast else rest
    if path.contains '\n' then none else some (String.ofList path)
  else none

/-- One text of the log of a job that has ended. -/
def endedText (now : ℚ) (s : TaskState) (state : PollState) (d : String) : PollState :=
  let state :=
    if d = "no suitable driver found" then
      { state with lastFailed := some now, lastSuccessfulDriver := none }
    else if d = "timed out" then { state with lastTimedOut := some now }
    else state
  if s = .errored then { state with lastFailed := some now } else state

/-- The texts of an information, until one raises: a text that is not one of success is reported
with the message of the log, if it has one. -/
def infoTexts (spec : String) (message : Option String) :
    List String → PollState → PollState × Option Refusal
  | [], state => (state, none)
  | d :: ds, state =>
      match successDriver d with
      | some driver =>
          infoTexts spec message ds
            { state with lastSuccessfulDriver := some (stripDriverPath cfg driver spec) }
      | none =>
          match message with
          | some _ => infoTexts spec message ds state
          | none => (state, some (.raised (.keyError "message")))

/-- The state that a log commits, from the state it has read, and what it raises. -/
def logUpdate (now : ℚ) (spec : String) (s : TaskState) (data : List String)
    (message : Option String) (state : PollState) : PollState × Option Refusal :=
  match s with
  | .received =>
      (state, if state.recvd ≠ none ∧ state.started = none then
        some (.raised (.typeError "unsupported operand types")) else none)
  | .processing => ({ state with started := some now }, none)
  | .complete | .errored =>
      (data.foldl (endedText now s) { state with started := none, complete := some now }, none)
  | .warning => (data.foldl (endedText now s) state, none)
  | .info => infoTexts cfg spec message data state
  | .other _ => (state, some (.raised (.exception "unknown state")))

/-- Follow a log. Without a state of its key it raises: `initial_state` takes no arguments. -/
def processLog (now : ℚ) (log : Log) (s : Supervisor) : Supervisor × Option Refusal :=
  match log.state with
  | none => (s, some (.raised (.exception "invalid log entry")))
  | some st =>
      let k := memcacheKey (driverKey log.device log.spec)
      match s.memcache.lookup k with
      | none => (s, some (.raised (.typeError "initial_state() takes no arguments (1 given)")))
      | some state =>
          let (state, refusal) := logUpdate cfg now log.spec st log.data log.message state
          ({ s with memcache := AList.insert k state s.memcache }, refusal)

/-! ## Runs -/

/-- A request or a log that reaches a supervisor, with the clock it reads. -/
inductive Event where
  | request (now : ℚ) (draw : Draw) (job : Request) : Event
  | log (now : ℚ) (log : Log) : Event

/-- The clock of an event. -/
def Event.now : Event → ℚ
  | .request now _ _ => now
  | .log now _ => now

variable (readFile : String → Option String)

/-- The supervisor after an event. -/
def step (s : Supervisor) : Event → Supervisor
  | .request now draw job => (validateTask cfg readFile now draw job s).1
  | .log now log => (processLog cfg now log s).1

/-- What a request is sent out as, if it is accepted. -/
def accepted (s : Supervisor) : Event → Option Assignment
  | .request now draw job =>
      ((validateTask cfg readFile now draw job s).2.toOption).map Prod.snd
  | .log _ _ => none

/-- The key that an event is about. -/
def Event.key : Event → Option String
  | .request _ _ job =>
      match job.device, job.spec with
      | some device, some spec => some (memcacheKey (driverKey device spec))
      | _, _ => none
  | .log _ entry => some (memcacheKey (driverKey entry.device entry.spec))

/-- A supervisor whose memcache is empty. -/
def start : Supervisor := ⟨∅, []⟩

end PollerSupervisor
