/-
# Messages and the generic feeder

The message that travels from the pollers to the storage daemons, and the
generic `Feeder` of `storage/feeders/__init__.py` which every storage backend
extends: `_extract` and `extract` split a message into contexts and items,
`process_task` drives the three hooks a backend overrides.

`dict_to_kv` belongs to another package: it is the parameter `kv`.
-/
import Ptolemy.Value

/-! ## Messages -/

/-- What identifies a series or a row: device, port, vlan, ... -/
abbrev Context : Type := Dict String Value

/-- One datum of a message, before its identifying fields are moved away. -/
abbrev Item : Type := Dict String Value

/-- The `key_name` of a message: one name, or a list of them. -/
inductive KeyName : Type where
  | one (k : String) : KeyName
  | many (ks : List String) : KeyName
  deriving DecidableEq, Repr

/-- The names in a `key_name`. -/
def KeyName.names : KeyName → List String
  | .one k => [k]
  | .many ks => ks

/-- The optional entries of `_meta` that `extract` hands on to the backends. -/
structure Flags : Type where
  carbonKey : Option String := none
  justInsert : Bool := false
  updateRecent : Bool := false
  ignoreData : Bool := false
  mergeData : Bool := false
  mergeContext : Bool := false
  delayedContext : List String := []
  deriving DecidableEq, Repr

/-- The `_meta` entry of a message. -/
structure Meta : Type where
  group : Option String := none
  spec : Option String := none
  keyName : Option KeyName := none
  archiveAfter : Option Int := none
  type : Option String := none
  key : Option String := none
  flags : Flags := {}
  deriving DecidableEq, Repr

/-- The `data` entry of a message: a dict, a list of dicts, or anything else. -/
inductive Data : Type where
  | dict (item : Item) : Data
  | list (items : List Item) : Data
  | other : Data

/-- The items of a message, `extract`'s "force into array"; `none` where it raises. -/
def Data.items? : Data → Option (List Item)
  | .dict i => some [i]
  | .list is => some is
  | .other => none

/-- A message: a dict whose four structured entries are kept apart from the plain
ones.  Reading or setting an attribute of a message is reading or setting the
entry of that name. -/
structure Message : Type where
  _meta : Option Meta := none
  context : Option Context := none
  data : Option Data := none
  timestamp : Option Value := none
  fields : Dict String Value := ∅

namespace Message

/-- `i in this`. -/
def has (this : Message) (i : String) : Bool :=
  if i = "_meta" then this._meta.isSome
  else if i = "context" then this.context.isSome
  else if i = "data" then this.data.isSome
  else if i = "timestamp" then this.timestamp.isSome
  else decide (i ∈ this.fields)

/-- `this[i]` followed by `del this[i]`.  A structured entry has no plain value: the
one returned for it is never read, because `_extract` raises once such an entry
is gone. -/
def pop (this : Message) (i : String) : Option (Value × Message) :=
  if this.has i = false then none
  else if i = "_meta" then some (.none, { this with _meta := none })
  else if i = "context" then some (.none, { this with context := none })
  else if i = "data" then some (.none, { this with data := none })
  else if i = "timestamp" then
    some (this.timestamp.getD .none, { this with timestamp := none })
  else some ((this.fields.lookup i).getD .none,
    { this with fields := this.fields.erase i })

/-- `this[k] = v` for a plain value `v`.  Over `_meta` it leaves an entry without
sub-entries, over `data` one that is neither a dict nor a list. -/
def set (this : Message) (k : String) (v : Value) : Message :=
  if k = "_meta" then { this with _meta := none }
  else if k = "context" then { this with context := some ∅ }
  else if k = "data" then { this with data := some .other }
  else if k = "timestamp" then { this with timestamp := some v }
  else { this with fields := this.fields.insert k v }

end Message

/-! ## Extracting contexts and items -/

/-- The metadata that `_extract` builds: group and spec are present, and `key_name` is
the list of all index names. -/
structure ItemMeta : Type where
  group : String
  spec : String
  keyName : List String
  flags : Flags
  deriving DecidableEq, Repr

/-- What `_extract` has gathered so far: the message, the context and the index
names. -/
structure Extracting : Type where
  this : Message
  kwargs : Context
  indexes : List String

namespace Feeder

/-- One name of `key_name`: unless it is an index already it becomes one, and a
field of the message of that name moves into the context. -/
def takeKeyName (st : Extracting) (i : String) : Extracting :=
  if i ∈ st.indexes then st
  else match st.this.pop i with
    | some (v, this) => ⟨this, st.kwargs.insert i v, st.indexes ++ [i]⟩
    | none => ⟨st.this, st.kwargs, st.indexes ++ [i]⟩

/-- A group `<group>@<key>=<value>` is split: key and value go into the context, the
value as an integer where it is one, and the message keeps the bare group. -/
def takeSubGroup (st : Extracting) : Except Exn Extracting :=
  match st.this._meta with
  | none => throw (.typeError "'NoneType' object has no attribute '__getitem__'")
  | some m => match m.group with
    | none => throw (.keyError "group")
    | some group =>
      if '@' ∈ group.toList then
        match Text.partition '@' group with
        | (g, _, d) => match Text.split '=' d with
          | [k, v] =>
            let this := st.this.set k (.ofText v)
            match this._meta with
            | none => throw (if st.this.has "group"
                then .exception "iterative group message is not of required format"
                else .keyError "group")
            | some m => pure
                { this := { this with _meta := some { m with group := some g } }
                  kwargs := st.kwargs.insert k (.ofText v)
                  indexes := st.indexes ++ [k] }
          | _ => throw (if st.this.has "group"
              then .exception "iterative group message is not of required format"
              else .keyError "group")
      else pure st

/-- `utcfromtimestamp`: numbers only.  A time and its number of seconds are one
value here. -/
def utcfromtimestamp : Value → Except Exn Value
  | .int n => pure (.int n)
  | .float t => pure (.float t)
  | _ => throw (.typeError "a float is required")

/-- The context as `_extract` first gathers it: the device, then the rest. -/
def startExtract (this : Message) (ctx : Context) : Extracting :=
  let kwargs : Context := match ctx.lookup "device" with
    | some d => AList.insert "device" d ∅
    | none => ∅
  let ctx := ctx.erase "device"
  let kwargs := kwargs.overlay ctx
  ⟨{ this with context := some ctx }, kwargs, kwargs.keys⟩

def _extract (timestampToDatetime : Bool) (this : Message) :
    Except Exn (Value × ItemMeta × Context × Data) := do
  let m ← this._meta.elim (throw (.typeError "argument of type 'NoneType' is not iterable")) pure
  let _ ← m.group.elim (throw (.assertionError "no group defined")) pure
  let spec ← m.spec.elim (throw (.assertionError "no spec defined")) pure
  let ctx ← this.context.elim
    (throw (.typeError "argument of type 'NoneType' is not iterable")) pure
  let st := (m.keyName.elim [] KeyName.names).foldl takeKeyName (startExtract this ctx)
  let st ← takeSubGroup st
  let group ← (st.this._meta.bind Meta.group).elim (throw (.keyError "group")) pure
  -- without a timestamp the code raises a string, which is itself a type error
  let timestamp ← st.this.timestamp.elim
    (throw (.typeError "exceptions must be old-style classes or derived from BaseException")) pure
  let timestamp ← if timestampToDatetime then utcfromtimestamp timestamp else pure timestamp
  let _ ← st.this.context.elim (throw (.keyError "context")) pure
  let data ← st.this.data.elim (throw (.keyError "data")) pure
  pure (timestamp, ⟨group, spec, st.indexes, m.flags⟩, st.kwargs, data)

/-- Move the fields `ks` of an item into its context. -/
def moveKeys (ks : List String) (ctx : Context) (item : Item) : Context × Item :=
  ks.foldl (fun (p : Context × Item) k => match p.2.lookup k with
    | some v => (p.1.insert k v, p.2.erase k)
    | none => p) (ctx, item)

/-- The fields of the item that are known context keys override the context. -/
def extractContext (context : Context) (item : Item) : Context × Item :=
  moveKeys context.keys context item

variable {κ : Type} [DecidableEq κ]

/-- Append an item to the contexts found so far. -/
def addItem (kv : Context → κ) (newContexts : Dict κ (Context × List Item))
    (p : Context × Item) : Dict κ (Context × List Item) :=
  match newContexts.lookup (kv p.1) with
  | some (ctx, data) => newContexts.insert (kv p.1) (ctx, data ++ [p.2])
  | none => newContexts.insert (kv p.1) (p.1, [p.2])

/-- The contexts of a message, each with its items. -/
def extract (kv : Context → κ) (o : IterOrder) (timestampToDatetime : Bool) (this : Message) :
    Except Exn (Value × ItemMeta × List (Context × List Item)) := do
  let (t, m, context, data) ← _extract timestampToDatetime this
  let items ← data.items?.elim (throw (.exception "dunno what to do with type")) pure
  let newContexts := (items.map (extractContext context)).foldl (addItem kv) ∅
  pure (t, m, (o.order newContexts.items).map Prod.snd)

end Feeder

/-! ## The hooks of a backend, and the loop over a message -/

/-- The arguments of one call of `save`. -/
structure SaveCall : Type where
  time : Value
  meta' : ItemMeta
  context : Context
  data : Item
  timeDelta : Option Int

/-- What a backend with state `σ` overrides; `ρ` is what it yields per item.  The
data that `post_bulk_process` gets is read by no backend modelled here. -/
structure Hooks (σ ρ : Type) : Type where
  preBulkProcess : Value → ItemMeta → Context → List Item → σ → Except Exn Bool × σ
  _processTask : Value → ItemMeta → Context → Item → Option Int → σ → Except Exn ρ × σ
  postBulkProcess : Value → ItemMeta → Context → σ → Except Exn (List ρ) × σ

namespace Feeder

variable {κ σ ρ : Type} [DecidableEq κ]

/-- The call of `save` that `_process_task` makes for one item. -/
def saveCall (time : Value) (m : ItemMeta) (delta : Option Int) (ctx : Context) (item : Item) :
    SaveCall :=
  ⟨time, m, (moveKeys m.keyName ctx item).1, (moveKeys m.keyName ctx item).2, delta⟩

/-- The generic `_process_task`: move the key names of the item, then save. -/
def _processTask (save : SaveCall → σ → Except Exn ρ × σ) (time : Value) (m : ItemMeta)
    (ctx : Context) (item : Item) (delta : Option Int) (s : σ) : Except Exn ρ × σ :=
  save (saveCall time m delta ctx item) s

/-- The items of one context; one that raises is logged and left behind. -/
def runItems (h : Hooks σ ρ) (time : Value) (m : ItemMeta) (ctx : Context)
    (delta : Option Int) : List Item → σ → List ρ × σ
  | [], s => ([], s)
  | i :: is, s => match h._processTask time m ctx i delta s with
    | (.ok r, s') => ((r :: (runItems h time m ctx delta is s').1),
        (runItems h time m ctx delta is s').2)
    | (.error _, s') => runItems h time m ctx delta is s'

/-- One context of a message. -/
def runContext (h : Hooks σ ρ) (time : Value) (m : ItemMeta) (delta : Option Int)
    (p : Context × List Item) (s : σ) : List ρ × σ :=
  match h.preBulkProcess time m p.1 p.2 s with
  | (.error _, s₁) => ([], s₁)
  | (.ok accept, s₁) =>
    let (out, s₂) := if accept then runItems h time m p.1 delta p.2 s₁ else ([], s₁)
    match h.postBulkProcess time m p.1 s₂ with
    | (.ok more, s₃) => (out ++ more, s₃)
    | (.error _, s₃) => (out, s₃)

/-- The contexts of a message, one after the other. -/
def runContexts (h : Hooks σ ρ) (time : Value) (m : ItemMeta) (delta : Option Int) :
    List (Context × List Item) → σ → List ρ × σ
  | [], s => ([], s)
  | p :: ps, s =>
    let (out, s₁) := runContext h time m delta p s
    let (outs, s₂) := runContexts h time m delta ps s₁
    (out ++ outs, s₂)

/-- `process_task`: all that it yields, and the backend's state after it. -/
def processTask (kv : Context → κ) (o : IterOrder) (timestampToDatetime : Bool)
    (h : Hooks σ ρ) (msg : Message) (s : σ) : Except Exn (List ρ × σ) := do
  if msg.data.isNone || msg._meta.isNone then throw (.syntaxError "invalid storage item")
  let delta := msg._meta.bind Meta.archiveAfter
  let (t, m, contexts) ← extract kv o timestampToDatetime msg
  pure (runContexts h t m delta contexts s)

end Feeder

/-- A backend that keeps the generic `_process_task` and overrides `save` and the two
bulk hooks. -/
structure Backend (σ ρ : Type) : Type where
  preBulkProcess : Value → ItemMeta → Context → List Item → σ → Except Exn Bool × σ :=
    fun _ _ _ _ s => (.ok true, s)
  save : SaveCall → σ → Except Exn ρ × σ
  postBulkProcess : Value → ItemMeta → Context → σ → Except Exn (List ρ) × σ :=
    fun _ _ _ s => (.ok [], s)

/-- The hooks that `process_task` calls on a backend. -/
def Backend.hooks {σ ρ : Type} (b : Backend σ ρ) : Hooks σ ρ where
  preBulkProcess := b.preBulkProcess
  _processTask := Feeder._processTask b.save
  postBulkProcess := b.postBulkProcess

/-- The same backend, keeping a record of the calls of `save`, also of those that
raise. -/
def Backend.recorded {σ ρ : Type} (b : Backend σ ρ) : Backend (List SaveCall × σ) ρ where
  preBulkProcess := fun t m c d s => ((b.preBulkProcess t m c d s.2).1,
    s.1, (b.preBulkProcess t m c d s.2).2)
  save := fun call s => ((b.save call s.2).1, s.1 ++ [call], (b.save call s.2).2)
  postBulkProcess := fun t m c s => ((b.postBulkProcess t m c s.2).1,
    s.1, (b.postBulkProcess t m c s.2).2)
