/-
# The scheduler

The schedule parser of the scheduler daemon, from its configuration files to the
heap of due times: `load` reads the settings and the nodes, `init_schedule` puts
an entry for each (node, spec) pair into the heap, `next` takes the first entry
and adds it again, and `reset_schedule` loads the files again and adds the pairs
that are new.

What the code leaves in the parser when it raises is part of the result, so the
stateful operations return the parser together with what they return or raise.
Clock readings and random draws are inputs (`Tick`), and times are exact
rational numbers of seconds.
-/
import Ptolemy.Heapq
import Ptolemy.Yaml

namespace Scheduler

/-! ## The heap -/

/-- An item of the schedule: when a spec is due on a node. -/
structure Entry where
  time : ℚ
  node : String
  spec : String
  deriving DecidableEq, Repr

namespace Entry

/-- The (node, spec) pair of an entry. -/
def pair (e : Entry) : String × String := (e.node, e.spec)

/-- Items are compared by their times, then by node and spec. -/
def rank (e : Entry) : ℚ ×ₗ String ×ₗ String := toLex (e.time, toLex (e.node, e.spec))

theorem rank_injective : Function.Injective rank := by
  rintro ⟨t, n, s⟩ ⟨t', n', s'⟩ h
  simp only [rank, EmbeddingLike.apply_eq_iff_eq, Prod.mk.injEq] at h
  simp [h]

instance : LinearOrder Entry := LinearOrder.lift' rank rank_injective

theorem time_le_of_le {e e' : Entry} (h : e ≤ e') : e.time ≤ e'.time := by
  have hlex : e.rank ≤ e'.rank := h
  unfold rank at hlex
  rcases Prod.Lex.toLex_le_toLex.mp hlex with hlt | ⟨heq, -⟩
  · exact le_of_lt hlt
  · exact le_of_eq heq

end Entry

/-- A random number of `[0, 1]`. -/
structure Draw where
  value : ℚ
  nonneg : 0 ≤ value
  le_one : value ≤ 1

/-- `uniform(a, b)`. -/
def uniform (a b : ℚ) (r : Draw) : ℚ := a + (b - a) * r.value

/-- What one call of `add` takes from its surroundings: the draws for the spread and for the
start, and the clock. -/
structure Tick where
  spread : Draw
  start : Draw
  now : ℚ

/-! ## Periods -/

/-- The optional end of a period: a sign and the digits after it. -/
def spreadOf (s : List Char) : Option Nat :=
  let rest : Option (List Char) :=
    match s.dropWhile Text.isSpace with
    | '+' :: '-' :: rest => some rest
    | '+' :: rest => some rest
    | '-' :: rest => some rest
    | _ => none
  rest.bind (fun rest => Text.nat? ((rest.dropWhile Text.isSpace).takeWhile Char.isDigit))

/-- `delta_regex.search`: the first digits and, if there is one, the spread after them. -/
def searchDelta (s : List Char) : Option (Nat × Option Nat) :=
  let rest := s.dropWhile (fun c => !c.isDigit)
  (Text.nat? (rest.takeWhile Char.isDigit)).map
    (fun t => (t, spreadOf (rest.dropWhile Char.isDigit)))

/-- Period and spread of a schedule's entry. -/
def _delta (s : Yaml) : Except Exn (ℚ × ℚ) := do
  let text ← s.toText
  match searchDelta text.toList with
  | none => .error (.attributeError "'NoneType' object has no attribute 'groups'")
  | some (t, d) => .ok (t, d.getD 0)

/-- The seconds until the next time; `none` for a zero period. -/
def delta (s : Yaml) (r : Draw) : Except Exn (Option ℚ) := do
  let (t, val) ← _delta s
  if t = 0 then .ok none
  else if 0 < val then .ok (some (t + uniform (-1 * val) val r))
  else .ok (some t)

/-! ## Nodes -/

/-- The settings that nodes refer to. -/
structure Settings where
  schedule : Yaml
  snmp : Yaml

/-- `self.settings[c]`, if there is one. -/
def Settings.get? (settings : Settings) (c : String) : Option Yaml :=
  if c = "schedule" then some settings.schedule
  else if c = "snmp" then some settings.snmp
  else none

/-- A node with its own and its inherited settings. -/
structure Node where
  name : String
  sections : Dict String (Dict String Yaml)

/-- A parser: the loaded configuration and the schedule. -/
structure Parser where
  settings : Settings
  nodes : Dict String Yaml
  heap : List Entry

/-- The part `c` of a node: the entries it refers to, overloaded with its own. -/
def getSection (settings : Settings) (name c : String) (own : Yaml) :
    Except Exn (Dict String Yaml) := do
  let hasRef ← own.hasKey "ref"
  let inherited ←
    if hasRef then do
      let shared ← match settings.get? c with
        | some shared => .ok shared
        | none => .error (.exception (name ++ " " ++ c ++ " not found"))
      let n ← own.getKey "ref"
      shared.checkIn n
      .ok (Dict.ofList ((shared.entriesAt n).getD []))
    else .ok ∅
  let personal := (← own.iteritems).filter (fun e => e.1 ≠ "ref")
  -- the part called name is the node's name, a text
  if c = "name" ∧ !personal.isEmpty then
    .error (.typeError "'str' object does not support item assignment")
  else .ok (personal.foldl (fun d e => AList.insert e.1 e.2 d) inherited)

/-- The node of a name; `none` where it has expired. -/
def getNode (settings : Settings) (nodes : Dict String Yaml) (name : String) :
    Except Exn (Option Node) :=
  match nodes.lookup name with
  | none => .ok none
  | some this => do
      let parts ← this.iteritems
      let sections ← parts.mapM (fun (c, own) => do
        let section' ← getSection settings name c own
        .ok (c, section'))
      .ok (some ⟨name, Dict.ofList sections⟩)

/-- The specs of a node. -/
def getSpecs (node : Option Node) : Except Exn (List String) :=
  match node with
  | none => .error (.typeError "'NoneType' object has no attribute '__getitem__'")
  | some node =>
      match node.sections.lookup "schedule" with
      | none => .error (.keyError "schedule")
      | some specs => .ok specs.keys

/-- The period of a spec, if the node has one. -/
def getTimeDelta (node : Node) (spec : String) : Except Exn (Option Yaml) :=
  match node.sections.lookup "schedule" with
  | none => .error (.keyError "schedule")
  | some specs => .ok (specs.lookup spec)

/-! ## Adding and taking entries -/

/-- The time of the entry that `add` makes; `none` where it makes none. -/
def dueTime (node : Node) (spec : String) (factor : ℚ) (tick : Tick) : Except Exn (Option ℚ) := do
  match ← getTimeDelta node spec with
  | none => .ok none
  | some i =>
      if i.truthy then
        match ← delta i tick.spread with
        | none => .ok none
        | some d =>
            let d := if 0 < factor then uniform 0 (factor * d) tick.start else d
            .ok (some (tick.now + d))
      else .ok none

namespace Parser

/-- Schedule a spec of a node; with a factor, at random within that many periods from now. -/
def add (nodeHash : Option Node) (spec : String) (factor : ℚ) (tick : Tick) (p : Parser) :
    Except Exn (Parser × Bool) :=
  match nodeHash with
  | none => .ok (p, false)
  | some node =>
      match dueTime node spec factor tick with
      | .error e => .error e
      | .ok none => .ok (p, false)
      | .ok (some t) =>
          .ok ({ p with heap := Heapq.heappush p.heap ⟨t, node.name, spec⟩ }, true)

/-- What is raised on an empty schedule. -/
def indexError : Exn := .exception "index out of range"

/-- Look at the first entry: it is taken and put back. -/
def peek (p : Parser) : Parser × Except Exn Entry :=
  match Heapq.heappop p.heap with
  | none => (p, .error indexError)
  | some (e, rest) => ({ p with heap := Heapq.heappush rest e }, .ok e)

/-- Take the first entry and schedule its spec again, unless its node has expired. -/
def next (tick : Tick) (p : Parser) : Parser × Except Exn Entry :=
  match Heapq.heappop p.heap with
  | none => (p, .error indexError)
  | some (e, rest) =>
      let p := { p with heap := rest }
      match getNode p.settings p.nodes e.node with
      | .error err => (p, .error err)
      | .ok thisNode =>
          match p.add thisNode e.spec 0 tick with
          | .error err => (p, .error err)
          | .ok (p, _) => (p, .ok e)

/-- Add some specs of a node, until one raises. -/
def addSpecs (node : Node) (factor : ℚ) (ticks : String → Tick) :
    List String → Parser → Parser × Except Exn Unit
  | [], p => (p, .ok ())
  | s :: specs, p =>
      match p.add (some node) s factor (ticks s) with
      | .error e => (p, .error e)
      | .ok (p, _) => addSpecs node factor ticks specs p

/-- Add the wanted specs of some nodes, until one raises. -/
def addNodes (wanted : String → String → Bool) (factor : ℚ) (ticks : String → String → Tick) :
    List String → Parser → Parser × Except Exn Unit
  | [], p => (p, .ok ())
  | n :: ns, p =>
      match getNode p.settings p.nodes n with
      | .error e => (p, .error e)
      | .ok node =>
          match getSpecs node, node with
          | .ok specs, some node =>
              match addSpecs node factor (ticks n) (specs.filter (wanted n)) p with
              | (p, .ok ()) => addNodes wanted factor ticks ns p
              | (p, .error e) => (p, .error e)
          | .error e, _ => (p, .error e)
          | .ok _, none => (p, .ok ())

/-- Fill the schedule: every spec of every node, at random within three periods from now. -/
def initSchedule (ticks : String → String → Tick) (p : Parser) : Parser × Except Exn Unit :=
  addNodes (fun _ _ => true) 3 ticks p.nodes.keys p

end Parser

/-! ## Loading the files -/

/-- The files of a parser: what reading each of them gives, a value or an exception. There may
be no schedule file. -/
structure Files where
  schedule : Option (Except Exn Yaml)
  snmp : Except Exn Yaml
  nodes : List (Except Exn Yaml)

/-- The settings `i` that the hosts of a node file refer to. -/
def defaultRef (this : Yaml) (i : String) : Except Exn Yaml := do
  if ← this.hasKey "settings" then
    let settings ← this.getKey "settings"
    if ← settings.hasKey i then settings.getKey i else .ok (.str "default")
  else .ok (.str "default")

/-- Make the part `i` of a host refer to the settings of its file. -/
def inheritSection (i : String) (ref : Yaml) (host : Yaml) : Except Exn Yaml := do
  let host ← if ← host.hasKey i then .ok host else host.setKey i (.dict [])
  let own ← host.getKey i
  host.setKey i (← own.setKey "ref" ref)

/-- A host as it is stored. -/
def inheritSettings (schedule snmp : Yaml) (host : Yaml) : Except Exn Yaml :=
  match host with
  | .null =>
      .ok (.dict [("schedule", .dict [("ref", schedule)]), ("snmp", .dict [("ref", snmp)])])
  | host => inheritSection "schedule" schedule host >>= inheritSection "snmp" snmp

/-- The hosts of a node file with the settings they refer to; `none` where it has none. -/
def hostsOf (this : Yaml) : Except Exn (Option (Yaml × Yaml × List (String × Yaml))) := do
  if ← this.hasKey "hosts" then
    let schedule ← defaultRef this "schedule"
    let snmp ← defaultRef this "snmp"
    let hosts ← this.getKey "hosts"
    if hosts.truthy then
      match hosts with
      | .dict entries => .ok (some (schedule, snmp, entries))
      | _ => .error (.typeError "hosts is not a mapping")
    else .ok none
  else .ok none

/-- Store hosts as nodes, until one raises. -/
def storeHosts (schedule snmp : Yaml) :
    List (String × Yaml) → Dict String Yaml → Dict String Yaml × Except Exn Unit
  | [], nodes => (nodes, .ok ())
  | (n, host) :: hosts, nodes =>
      match inheritSettings schedule snmp host with
      | .error e => (nodes, .error e)
      | .ok host => storeHosts schedule snmp hosts (AList.insert n host nodes)

/-- Store the hosts of a node file; an empty file is only reported. -/
def loadNodeFile (this : Yaml) (nodes : Dict String Yaml) : Dict String Yaml × Except Exn Unit :=
  match this with
  | .null => (nodes, .ok ())
  | this =>
      match hostsOf this with
      | .error e => (nodes, .error e)
      | .ok none => (nodes, .ok ())
      | .ok (some (schedule, snmp, hosts)) => storeHosts schedule snmp hosts nodes

/-- Store the hosts of the node files, until one raises. -/
def loadNodeFiles :
    List (Except Exn Yaml) → Dict String Yaml → Dict String Yaml × Except Exn Unit
  | [], nodes => (nodes, .ok ())
  | .error e :: _, nodes => (nodes, .error e)
  | .ok this :: files, nodes =>
      match loadNodeFile this nodes with
      | (nodes, .error e) => (nodes, .error e)
      | (nodes, .ok ()) => loadNodeFiles files nodes

namespace Parser

/-- Read the files, each into the parser as it comes. -/
def load (files : Files) (p : Parser) : Parser × Except Exn Unit :=
  let p := { p with settings := ⟨.dict [], .dict []⟩ }
  match files.schedule.getD (.ok (.dict [])) with
  | .error e => (p, .error e)
  | .ok schedule =>
      let p := { p with settings := { p.settings with schedule := schedule } }
      match files.snmp with
      | .error e => (p, .error e)
      | .ok snmp =>
          let p := { p with settings := { p.settings with snmp := snmp } }
          let (nodes, result) := loadNodeFiles files.nodes ∅
          ({ p with nodes := nodes }, result)

/-- A new parser. -/
def construct (files : Files) : Parser × Except Exn Unit :=
  load files ⟨⟨.dict [], .dict []⟩, ∅, []⟩

/-- What the parser has now: the specs of each node. -/
def current (p : Parser) : Except Exn (List (String × List String)) :=
  p.nodes.keys.mapM (fun n => do
    let specs ← getSpecs (← getNode p.settings p.nodes n)
    .ok (n, specs))

/-- Load the files again and schedule the pairs that are new. -/
def resetSchedule (files : Files) (ticks : String → String → Tick) (p : Parser) :
    Parser × Except Exn Unit :=
  match p.current with
  | .error e => (p, .error e)
  | .ok current =>
      match p.load files with
      | (p, .error e) => (p, .error e)
      | (p, .ok ()) =>
          addNodes (fun n s => (current.lookup n).all (fun specs => s ∉ specs)) 0 ticks
            p.nodes.keys p

end Parser

/-! ## Runs -/

/-- A call of the scheduling loop. -/
inductive Call where
  | peek : Call
  | next (tick : Tick) : Call

/-- What is done to a parser after `init_schedule`. -/
inductive Event where
  | call (c : Call) : Event
  | reset (files : Files) (ticks : String → String → Tick) : Event

/-- The parser after a call. -/
def call (p : Parser) : Call → Parser
  | .peek => p.peek.1
  | .next tick => (p.next tick).1

/-- The parser after an event. -/
def step (p : Parser) : Event → Parser
  | .call c => call p c
  | .reset files ticks => (p.resetSchedule files ticks).1

end Scheduler
