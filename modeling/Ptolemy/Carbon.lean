/-
# Carbon storage: one storer per shard, and the supervisor in front of them

`CarbonStorer` sends the metrics of each item under a key computed from spec, group
and context.  `MultiCarbonSupervisor.process_task` computes the same keys, asks
a consistent hash ring for the instance responsible for each metric, and packs
the metrics of one instance into one new message for its storer.

The ring (another package) is an arbitrary function from keys to nodes, and a
message is serialised before the supervisor goes on to the next one, so that
the metadata they share is not a concern.
-/
import Ptolemy.FeederConservation

/-! ## The carbon key -/

/-- `get_carbon_key`. -/
def getCarbonKey (m : ItemMeta) (context : Context) (keyPrepend : String) :
    Except Exn String :=
  match m.flags.carbonKey with
  | some k => pure k
  | none => match context.lookup "device" with
    | none => throw (.keyError "device")
    | some (.str d) =>
      let device := Text.join "." (Text.split '.' d).reverse
      let contextKeys := ((Dict.sortedKeys context).filter (· ≠ "device")).map
        (fun k => ((context.lookup k).map Value.toText).getD "")
      pure (Text.replaceChar '/' '.' (keyPrepend ++ device ++ "." ++ m.spec ++ "." ++ m.group
        ++ "." ++ Text.join "." contextKeys))
    | some _ => throw (.attributeError "object has no attribute 'split'")

/-! ## The storer of one instance -/

/-- What goes over the wire to carbon: time, key and fields. -/
structure Sent : Type where
  time : Value
  carbonKey : String
  data : Item

/-- `CarbonStorer`: the state is all that was sent. -/
def carbonStorer (keyPrepend : String) : Backend (List Sent) Unit where
  save := fun call sent => match getCarbonKey call.meta' call.context keyPrepend with
    | .error e => (.error e, sent)
    | .ok k => (.ok (), sent ++ [⟨call.time, k, call.data⟩])

/-- One value of one series. -/
structure Metric : Type where
  key : String
  value : Value
  time : Value
  deriving DecidableEq

/-- The metrics in what was sent, one for each field. -/
def Sent.metrics (s : Sent) : List Metric :=
  s.data.items.map (fun p => ⟨s.carbonKey ++ "." ++ p.1, p.2, s.time⟩)

variable {κ : Type} [DecidableEq κ]

/-- The metrics that a message denotes: those that a storer sends for it. -/
def denotes (kv : Context → κ) (o : IterOrder) (keyPrepend : String) (this : Message) :
    Except Exn (List Metric) := do
  let (_, sent) ← Feeder.processTask kv o false (carbonStorer keyPrepend).hooks this []
  pure (sent.flatMap Sent.metrics)

/-! ## The supervisor -/

/-- A carbon instance. -/
abbrev Node : Type := String × String

/-- What `setup` builds. -/
structure Supervisor : Type where
  instancePorts : Dict Node String
  portOffset : Int
  keyPrepend : String := "ptolemy."

namespace Supervisor

/-- `add_instance`. -/
def addInstance (sup : Supervisor) (server port name : String) : Except Exn Supervisor :=
  if (server, name) ∈ sup.instancePorts then
    throw (.exception "destination instance already configured")
  else match Text.int? port with
    | none => throw (.valueError "invalid literal for int() with base 10")
    | some p => pure { sup with
        instancePorts := sup.instancePorts.insert (server, name) (toString (p + sup.portOffset)) }

/-- One configured instance `server:port:name`. -/
def setupInstance (sup : Supervisor) (i : String) : Except Exn Supervisor :=
  match Text.split ':' i with
  | [s, p, n] => sup.addInstance s p n
  | _ => throw (.valueError "need more than 1 value to unpack")

/-- `setup`. -/
def setup (portOffset : Int) (carbonInstances : List String) : Except Exn Supervisor :=
  carbonInstances.foldlM setupInstance { instancePorts := ∅, portOffset := portOffset }

/-- `get_hash_key`. -/
def getHashKey (sup : Supervisor) (ring : String → Node) (key : String) : Except Exn String :=
  match sup.instancePorts.lookup (ring key) with
  | none => throw (.keyError (ring key).2)
  | some p => pure (Text.join ":" [(ring key).1, p, (ring key).2])

/-- The metadata of the items as the metadata of a message. -/
def toMeta (m : ItemMeta) : Meta :=
  { group := some m.group, spec := some m.spec, keyName := some (.many m.keyName),
    flags := m.flags }

/-- An index field that the context has is copied into the item of the metric. -/
def copyIndex (context : Context) (d : Item) (x : String) : Item :=
  match context.lookup x with
  | some w => d.insert x w
  | none => d

/-- One metric with the index fields of its context. -/
def partialItem (m : ItemMeta) (context : Context) (k : String) (v : Value) : Item :=
  m.keyName.foldl (copyIndex context) (AList.insert k v ∅)

/-- One metric joins the message for its instance, which is created at need. -/
def addMetric (sup : Supervisor) (ring : String → Node) (thisContext : Context)
    (messages : Dict String Message) (x : SaveCall × String × Value) :
    Except Exn (Dict String Message) := do
  let key ← getCarbonKey x.1.meta' x.1.context sup.keyPrepend
  let h ← sup.getHashKey ring (key ++ "." ++ x.2.1)
  let p := partialItem x.1.meta' x.1.context x.2.1 x.2.2
  let message := (messages.lookup h).getD
    { _meta := some (toMeta x.1.meta'), context := some thisContext,
      data := some (.list []), timestamp := some x.1.time }
  let items := (message.data.bind Data.items?).getD []
  pure (messages.insert h { message with data := some (.list (items ++ [p])) })

/-- A finished message gets its type and the routing key of the instance, whose text is
recovered from the hash key by taking the offset from the port again. -/
def finish (sup : Supervisor) (h : String) (message : Message) : Except Exn Message :=
  match Text.split ':' h with
  | s :: p :: n :: _ => match Text.int? p with
    | none => throw (.valueError "invalid literal for int() with base 10")
    | some p =>
      let m := message._meta.getD {}
      pure { message with
        _meta := some { m with
          type := some "task"
          key := some (Text.join ":" [s, toString (p - sup.portOffset), n]) }
        fields := message.fields.insert "type" (.str "task") }
  | _ => throw (.exception "list index out of range")

/-- The supervisor's `_process_task` returns the context and the data of the item. -/
def hooks : Hooks Unit SaveCall where
  preBulkProcess := fun _ _ _ _ s => (.ok true, s)
  _processTask := fun t m ctx i delta s => (.ok (Feeder.saveCall t m delta ctx i), s)
  postBulkProcess := fun _ _ _ s => (.ok [], s)

/-- `process_task`: the messages it yields. -/
def processTask (sup : Supervisor) (ring : String → Node) (kv : Context → κ) (o : IterOrder)
    (this : Message) : Except Exn (List Message) := do
  let thisContext ← this.context.elim
    (throw (.attributeError "'NoneType' object has no attribute 'copy'")) pure
  let (calls, _) ← Feeder.processTask kv o false hooks this ()
  let metrics := calls.flatMap (fun call => (o.order call.data.items).map (fun p => (call, p)))
  let messages ← metrics.foldlM (sup.addMetric ring thisContext) ∅
  (o.order messages.items).mapM (fun e => sup.finish e.1 e.2)

end Supervisor
