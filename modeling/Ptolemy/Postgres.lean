/-
# The postgres storer

`PostgresStorer` keeps one live row per context in the table of a spec and group, and
copies of former rows in the history table beside it.  It works in batches:
`pre_msg_process` may prefetch rows, `pre_bulk_process` looks up the rows of one
context, `save` stores one datum, `post_bulk_process` stamps the rows that did not
change (or defers that), and `post_msg_process` deletes duplicates and replays what
was deferred.

A row is kept with the table it was inserted in; statements on the parent of this
table reach it too.  Which table inherits from which is settled when they are created
and given here.  History tables are kept apart.  Statements do not fail, except for a
lookup with no field, which is no SQL.  `dict_to_kv`, `md5` and the test of a network against the
configured subnets are parameters.
-/
import Ptolemy.Feeder
import Ptolemy.Run

namespace Postgres

/-! ## Tables -/

/-- The content of an hstore column. -/
abbrev Doc : Type := Dict String String

/-- `flatten`: hstore can only store text values. -/
def flatten (d : Context) : Doc := d.mapVals Value.toText

/-- Which table each table inherits from, or the table itself; tables with children inherit
from none. -/
structure Schema : Type where
  parent : String → String
  parent_parent : ∀ t, parent (parent t) = parent t

structure Row : Type where
  id : Nat
  createdAt : Int
  updatedAt : Int
  context : Doc
  data : Doc
  table : String

/-- The row after `update_item`. -/
def Row.write (r : Row) (time : Int) (context data : Doc) (updateCreatedAt : Bool) : Row :=
  { r with
    createdAt := if updateCreatedAt then time else r.createdAt
    updatedAt := time, context := context, data := data }

/-- The rows of all tables, their histories, and the next id of each sequence: a table
shares that of its parent. -/
structure Db : Type where
  schema : Schema
  rows : List Row
  history : List Row
  serial : String → Nat

namespace Db

/-- The rows that a statement on table `t` reaches: its own and those of its children. -/
def isIn (db : Db) (t : String) (r : Row) : Bool := r.table = t || db.schema.parent r.table = t

/-- `_query_constructor` for one context: the fields given have the values given. -/
def matchesContext (c : Doc) (r : Row) : Bool :=
  c.items.all (fun p => r.context.lookup p.1 = some p.2)

/-- `query` with `OR`.  Rows come in any order. -/
def query (o : IterOrder) (db : Db) (t : String) (contexts : List Doc) : Except Exn (List Row) :=
  if contexts.any (fun c => c.items.isEmpty) then throw (.exception "syntax error at or near")
  else pure (o.order (db.rows.filter
    (fun r => db.isIn t r && contexts.any (matchesContext · r))))

/-- The first row with the latest `created_at`. -/
def latest : List Row → List Row
  | [] => []
  | r :: rs => match latest rs with
    | [] => [r]
    | l :: _ => if l.createdAt ≤ r.createdAt then [r] else [l]

def insert (db : Db) (t : String) (time : Int) (context data : Doc) : Db :=
  { db with
    rows := db.rows ++ [⟨db.serial (db.schema.parent t), time, time, context, data, t⟩]
    serial := Function.update db.serial (db.schema.parent t) (db.serial (db.schema.parent t) + 1) }

/-- `update_item`. -/
def updateItem (db : Db) (t : String) (id : Nat) (time : Int) (context data : Doc)
    (updateCreatedAt : Bool) : Db :=
  { db with rows := db.rows.map (fun r =>
      if db.isIn t r ∧ r.id = id then r.write time context data updateCreatedAt else r) }

/-- `bulk_update`. -/
def bulkUpdate (db : Db) (t : String) (time : Int) (ids : List Nat) : Db :=
  { db with rows := db.rows.map (fun r =>
      if db.isIn t r ∧ r.id ∈ ids then { r with updatedAt := time } else r) }

/-- The table of `bulk_delete`: `<table>@<field>=<value>` stands for `<table>__<field><value>`. -/
def deleteTable (t : String) : String :=
  match Text.split '@' t with
  | a :: b :: _ => a ++ "__" ++ String.ofList (b.toList.filter (· ≠ '='))
  | _ => t

/-- `bulk_delete`. -/
def bulkDelete (db : Db) (t : String) (ids : List Nat) : Db :=
  { db with rows := db.rows.filter (fun r => ¬ (db.isIn (deleteTable t) r ∧ r.id ∈ ids)) }

/-- The insertion of `archive_and_update` into the history table `t`. -/
def archive (db : Db) (t : String) (row : Row) (time : Int) (context data : Doc) : Db :=
  { db with history := db.history ++ [⟨row.id, row.createdAt, time, context, data, t⟩] }

end Db

/-! ## The storer -/

/-- What `setup` fixes, and the functions from elsewhere. -/
structure Config (κ : Type) : Type 1 where
  partitions : Dict String String := ∅
  partitionsModulo : Dict String Nat := ∅
  preMsgProcessTables : Dict String (List String × Bool) := ∅
  postMsgProcessTables : List String := []
  /-- The instant of the time of a message. -/
  stamp : Value → Int
  /-- Whether the network `prefix/netmask` overlaps a configured subnet. -/
  overlaps : String → Except Exn Bool
  md5 : String → Nat
  /-- `dict_to_kv(d, keys=.., missing_ok=..)`. -/
  dictToKv : List String → Bool → Doc → Except Exn κ
  order : IterOrder := IterOrder.stored

/-- The storer between two calls.  `pre_msg_queried` is read as a truth value only, so
that `None` is `false` here. -/
structure Storer (κ : Type) : Type where
  db : Db
  table : Option String := none
  currentTableName : String := ""
  updateIds : List Nat := []
  deleteIds : List Nat := []
  contextFields : List String := []
  contextFieldsMissingOk : Bool := false
  cache : Dict κ (List Row) := ∅
  preMsgQueried : Bool := false
  postMsgProcessing : Bool := false
  postMsgData : Dict String (Dict Int (List Nat)) := ∅

variable {κ : Type} [DecidableEq κ] (cfg : Config κ)

/-! ### Table names -/

/-- `_table_name`. -/
def _tableName (spec group : String) : String := spec ++ "__" ++ group

/-- The suffix of a history table. -/
def historyCollectionAppend : String := "_history"

/-- The number of the partition of a value. -/
def partitionModulo (v : Value) (modulo : Nat) : Except Exn String :=
  match v with
  | .str s => if modulo = 0 then throw (.exception "integer division or modulo by zero")
      else pure (toString (cfg.md5 s % modulo))
  | _ => throw (.typeError "md5() argument must be string or read-only buffer")

/-- The values that the data have for the partition field. -/
def partitionValues (field : String) (data : List Item) : Except Exn (List Value) :=
  data.foldlM (fun vals d => match d.lookup field with
    | some (.list _) => throw (.typeError "unhashable type: 'list'")
    | some v => pure (if v ∈ vals then vals else vals ++ [v])
    | none => throw (.userWarning "partition has incorrect context")) []

/-- `table_name`: the table and what it is inherited from. -/
def tableName (spec group : String) (context : Context) (data : List Item) :
    Except Exn (String × Option String) :=
  let name := _tableName spec group
  match cfg.partitions.lookup name with
  | none => pure (name, none)
  | some field => match context.lookup field with
    | some v => do
      let v ← match cfg.partitionsModulo.lookup name with
        | some modulo => partitionModulo cfg v modulo
        | none => pure v.toText
      pure (name ++ "__" ++ field ++ v, some name)
    | none =>
      if context.items.isEmpty then pure (name, none)
      else do
        let vals ← partitionValues field data
        match vals with
        | [v] => pure (name ++ "__" ++ field ++ v.toText, none)
        | _ => throw (.exception "could not determine partition value")

/-- `ensure_table`. -/
def ensureTable (spec group : String) (context : Context) (data : List Item) :
    Except Exn String := do
  let (name, _) ← tableName cfg spec group context data
  pure name

/-! ### `different` -/

/-- The loop over the new data: `True` ends it, a field that is not stored gives `None`. -/
def differentLoop (row : Doc) : List (String × String) → Option Bool → Option Bool
  | [], d => d
  | (k, v) :: l, d => match row.lookup k with
    | some w => if w = v then differentLoop row l d else some true
    | none => differentLoop row l none

/-- `different`: `True` where much has changed, `None` where something is new, `False`
where all is the same. -/
def different (o : IterOrder) (row data : Doc) (partial' : Bool) : Option Bool :=
  match differentLoop row (o.order data.items) (some false) with
  | some false => some (!partial' && decide (row.items.length > data.items.length))
  | d => d

/-! ### Before a batch: `pre_msg_process` -/

/-- The contexts to ask for, by table. -/
def prefetchParts (current : String) (fields : List String) (msg : List Message) :
    Except Exn (Dict String (List Doc)) :=
  msg.foldlM (fun parts m => do
    let meta' ← m._meta.elim (throw (.keyError "_meta")) pure
    let spec ← meta'.spec.elim (throw (.keyError "spec")) pure
    let group ← meta'.group.elim (throw (.keyError "group")) pure
    let context ← m.context.elim (throw (.keyError "context")) pure
    let (name, _) ← tableName cfg spec group context []
    let this := flatten (context.restrict (fun k => k ∈ fields))
    if name = current then throw (.keyError name)
    else pure (parts.insert name (((parts.lookup name).getD []) ++ [this]))) ∅

/-- Rows enter the cache under their keys, up to one that has none. -/
def cacheRows (fields : List String) (missingOk : Bool) :
    List Row → Dict κ (List Row) → Except Exn Unit × Dict κ (List Row)
  | [], cache => (.ok (), cache)
  | d :: ds, cache => match cfg.dictToKv fields missingOk d.context with
    | .error e => (.error e, cache)
    | .ok key => cacheRows fields missingOk ds
        (cache.insert key ((cache.lookup key).getD [] ++ [d]))

/-- One prefetching query; one that fails empties the cache. -/
def prefetchTable (s : Storer κ) (p : String × List Doc) : Storer κ :=
  match s.db.query cfg.order p.1 p.2 with
  | .error _ => { s with cache := ∅, preMsgQueried := false }
  | .ok rows => match cacheRows cfg s.contextFields s.contextFieldsMissingOk rows s.cache with
    | (.error _, _) => { s with cache := ∅, preMsgQueried := false }
    | (.ok _, cache) =>
      { s with cache := cache, preMsgQueried := s.preMsgQueried || !rows.isEmpty }

/-- `pre_msg_process`. -/
def preMsgProcess (msg : List Message) (s : Storer κ) : Except Exn Unit × Storer κ :=
  let s := { s with
    updateIds := [], deleteIds := [], contextFields := [], contextFieldsMissingOk := false
    cache := ∅, preMsgQueried := false }
  match msg with
  | [] => (.error (.exception "list index out of range"), s)
  | m :: _ => match m._meta.bind Meta.spec, m._meta.bind Meta.group with
    | some spec, some group =>
      let s := { s with currentTableName := _tableName spec group }
      match cfg.preMsgProcessTables.lookup s.currentTableName with
      | none => (.ok (), s)
      | some (fields, missingOk) =>
        let s := { s with contextFields := fields, contextFieldsMissingOk := missingOk }
        match prefetchParts cfg s.currentTableName fields msg with
        | .error e => (.error e, s)
        | .ok parts => (.ok (), (cfg.order.order parts.items).foldl (prefetchTable cfg) s)
    | _, _ => (.error (.keyError "_meta"), s)

/-! ### Around the items of one context -/

/-- The fields by which the rows for a context are looked up. -/
def lookupContext (m : ItemMeta) (context : Doc) : Doc :=
  let kwargs := if m.flags.updateRecent then context
    else match context.lookup "device" with
      | some d => AList.insert "device" d ∅
      | none => context
  m.flags.delayedContext.foldl (fun d c => AList.erase c d) kwargs

/-- `pre_bulk_process`, which returns `True` unless it raises. -/
def preBulkProcess (m : ItemMeta) (context : Context) (data : List Item) (s : Storer κ) :
    Except Exn Unit × Storer κ :=
  let s := { s with
    postMsgProcessing := decide (_tableName m.spec m.group ∈ cfg.postMsgProcessTables) }
  match ensureTable cfg m.spec m.group context data with
  | .error e => (.error e, s)
  | .ok table =>
    let s := { s with table := some table }
    if m.flags.justInsert || s.preMsgQueried then (.ok (), s)
    else match s.db.query cfg.order table [lookupContext m (flatten context)] with
      | .error e => (.error e, s)
      | .ok rows =>
        let rows := if m.flags.updateRecent then Db.latest rows else rows
        let (out, cache) := cacheRows cfg s.contextFields s.contextFieldsMissingOk rows s.cache
        (out, { s with cache := cache })

/-- The ids of a table and time join those recorded for it. -/
def deferIds (table : String) (time : Int) (ids : List Nat)
    (d : Dict String (Dict Int (List Nat))) : Dict String (Dict Int (List Nat)) :=
  let times := (d.lookup table).getD ∅
  d.insert table (times.insert time ((times.lookup time).getD [] ++ ids))

/-- `post_bulk_process`. -/
def postBulkProcess (time : Int) (s : Storer κ) : Except Exn Unit × Storer κ :=
  if s.updateIds.isEmpty then (.ok (), { s with table := none })
  else match s.table with
    | none => (.error (.typeError "cannot concatenate 'str' and 'NoneType' objects"), s)
    | some table =>
      let s := if s.postMsgProcessing then
          { s with postMsgData := deferIds table time s.updateIds s.postMsgData }
        else { s with db := s.db.bulkUpdate table time s.updateIds }
      (.ok (), { s with table := none, updateIds := [] })

/-! ### After a batch: `post_msg_process` -/

/-- The deferred stamps: table, time and ids, in one of the orders in which they can be
replayed. -/
def deferred (o : IterOrder) (d : Dict String (Dict Int (List Nat))) :
    List (String × Int × List Nat) :=
  (o.order d.items).flatMap (fun p => (o.order p.2.items).map (fun q => (p.1, q.1, q.2)))

/-- One deferred stamp is replayed. -/
def replay (db : Db) (p : String × Int × List Nat) : Db := db.bulkUpdate p.1 p.2.1 p.2.2

/-- `post_msg_process`. -/
def postMsgProcess (o : IterOrder) (s : Storer κ) : Storer κ :=
  let s := if s.deleteIds.isEmpty then s
    else { s with db := s.db.bulkDelete s.currentTableName s.deleteIds, deleteIds := [] }
  { s with db := (deferred o s.postMsgData).foldl replay s.db }

/-! ### `save` -/

/-- The test of `layer3 subnets`. -/
def checkSubnet (m : ItemMeta) (context : Doc) : Except Exn Unit :=
  if m.spec = "layer3" ∧ m.group = "subnets" then
    match context.lookup "prefix", context.lookup "netmask" with
    | some p, some n => do
      let ok ← cfg.overlaps (p ++ "/" ++ n)
      if ok then pure () else throw (.userWarning ("skipping layer3 subnets: subnet " ++ p))
    | _, _ => throw (.syntaxError "invalid context for layer3 subnets: ")
  else pure ()

/-- The fields of a delayed context move from the data to the context. -/
def delayContext (delayed : List String) (context data : Doc) : Doc × Doc :=
  delayed.foldl (fun p c => match p.2.lookup c with
    | some v => (p.1.insert c v, p.2.erase c)
    | none => p) (context, data)

/-- What is to be written over a row, and how much of a change it is. -/
structure Change : Type where
  difference : Option Bool
  context : Doc
  data : Doc
  updateCreatedAt : Bool := true

/-- The change that a datum is to the one row found, after the three flags that override
it. -/
def changeOf (flags : Flags) (doc : Row) (context data : Doc) : Change :=
  let c : Change := ⟨different cfg.order doc.data data false, context, data, true⟩
  let c := if flags.ignoreData then { c with updateCreatedAt := false, difference := none } else c
  let c := if flags.mergeContext then
      { c with difference := none, context := doc.context.overlay c.context }
    else c
  if flags.mergeData then
    if c.data.items.isEmpty then { c with data := doc.data }
    else { c with
      difference := if c.data.items.all (fun p => doc.data.lookup p.1 = some p.2)
        then c.difference else none
      data := doc.data.overlay c.data }
  else c

/-- The row to keep of several: the first one with the least `created_at`. -/
def oldest : List Row → Option Row
  | [] => none
  | r :: rs => match oldest rs with
    | none => some r
    | some o => if o.createdAt < r.createdAt then some o else some r

/-- The ids to delete after several rows were found: all of them but the oldest. -/
def markDuplicates (docs : List Row) (deleteIds : List Nat) : List Nat :=
  let ids := docs.foldl (fun ids d => if d.id ∈ ids then ids else ids ++ [d.id]) deleteIds
  match oldest docs with
  | none => ids
  | some r => ids.erase r.id

/-- The three branches of `save`, by the rows that the cache has for the key. -/
def store (time : Int) (m : ItemMeta) (table : String) (docs : List Row) (context data : Doc)
    (s : Storer κ) : Storer κ :=
  match docs with
  | [] => { s with db := s.db.insert table time context data }
  | [doc] =>
    let c := changeOf cfg m.flags doc context data
    match c.difference with
    | some true => { s with db := (s.db.archive (_tableName m.spec m.group ++ historyCollectionAppend)
        doc time c.context c.data).updateItem table doc.id time c.context c.data true }
    | some false => { s with updateIds := s.updateIds ++ [doc.id] }
    | none => { s with
        db := s.db.updateItem table doc.id time c.context c.data c.updateCreatedAt }
  | docs => { s with deleteIds := markDuplicates docs s.deleteIds }

/-- `save`.  The time delta decides on a log entry only. -/
def save (time : Int) (m : ItemMeta) (ctx : Context) (data : Item) (s : Storer κ) :
    Except Exn Unit × Storer κ :=
  match checkSubnet cfg m (flatten ctx) with
  | .error e => (.error e, s)
  | .ok () => match cfg.dictToKv s.contextFields s.contextFieldsMissingOk (flatten ctx) with
    | .error e => (.error e, s)
    | .ok key => match s.table with
      | none => (.error (.typeError "cannot concatenate 'str' and 'NoneType' objects"), s)
      | some table =>
        let p := delayContext m.flags.delayedContext (flatten ctx) (flatten data)
        (.ok (), store cfg time m table ((s.cache.lookup key).getD []) p.1 p.2 s)

/-! ## Batches -/

/-- The five calls that act on a storer. -/
inductive Event : Type 1 where
  | preMsg (msg : List Message) : Event
  | preBulk (m : ItemMeta) (context : Context) (data : List Item) : Event
  | save (time : Int) (m : ItemMeta) (ctx : Context) (data : Item) : Event
  | postBulk (time : Int) : Event
  | postMsg (o : IterOrder) : Event

/-- The time of a call that stores or stamps. -/
def Event.time? : Event → Option Int
  | .save time _ _ _ => some time
  | .postBulk time => some time
  | _ => none

/-- One call, whether it raises or not. -/
def step (s : Storer κ) : Event → Storer κ
  | .preMsg msg => (preMsgProcess cfg msg s).2
  | .preBulk m context data => (preBulkProcess cfg m context data s).2
  | .save time m ctx data => (save cfg time m ctx data s).2
  | .postBulk time => (postBulkProcess time s).2
  | .postMsg o => postMsgProcess o s

/-- One context of a message: the calls of `save` between the two bulk calls. -/
structure Round : Type where
  time : Int
  meta' : ItemMeta
  context : Context
  data : List Item
  saves : List (Context × Item)

/-- The calls for a context that `pre_bulk_process` accepts. -/
def Round.inner (r : Round) : List Event :=
  r.saves.map (fun p => .save r.time r.meta' p.1 p.2) ++ [.postBulk r.time]

/-- The calls for a context: nothing follows a `pre_bulk_process` that raises. -/
def Round.events (r : Round) (s : Storer κ) : List Event :=
  .preBulk r.meta' r.context r.data ::
    match (preBulkProcess cfg r.meta' r.context r.data s).1 with
    | .ok _ => r.inner
    | .error _ => []

/-- The calls for several contexts. -/
def roundsEvents : List Round → Storer κ → List Event
  | [], _ => []
  | r :: rs, s => r.events cfg s ++ roundsEvents rs (Run.run (step cfg) s (r.events cfg s))

/-- The messages that are processed together, the contexts they have, and the order in which
the deferred stamps are replayed. -/
structure Batch : Type 1 where
  msg : List Message
  rounds : List Round
  order : IterOrder := IterOrder.stored

/-- The calls for a batch; it is given up when `pre_msg_process` raises. -/
def Batch.events (b : Batch) (s : Storer κ) : List Event :=
  .preMsg b.msg :: match preMsgProcess cfg b.msg s with
    | (.error _, _) => []
    | (.ok _, s) => roundsEvents cfg b.rounds s ++ [.postMsg b.order]

/-- The calls of a run of batches. -/
def batchesEvents : List Batch → Storer κ → List Event
  | [], _ => []
  | b :: bs, s => b.events cfg s ++ batchesEvents bs (Run.run (step cfg) s (b.events cfg s))

/-- The storer as a backend of the feeder. -/
def backend : Backend (Storer κ) Unit where
  preBulkProcess := fun _ m context data s =>
    ((preBulkProcess cfg m context data s).1.map (fun _ => true),
      (preBulkProcess cfg m context data s).2)
  save := fun call s => save cfg (cfg.stamp call.time) call.meta' call.context call.data s
  postBulkProcess := fun time _ _ s =>
    ((postBulkProcess (cfg.stamp time) s).1.map (fun _ => []), (postBulkProcess (cfg.stamp time) s).2)

/-- The round of one context of a message. -/
def roundOf (time : Value) (m : ItemMeta) (delta : Option Int) (p : Context × List Item) :
    Round where
  time := cfg.stamp time
  meta' := m
  context := p.1
  data := p.2
  saves := p.2.map (fun i => ((Feeder.saveCall time m delta p.1 i).context,
    (Feeder.saveCall time m delta p.1 i).data))

theorem run_saves (time : Value) (m : ItemMeta) (delta : Option Int) (ctx : Context)
    (items : List Item) (s : Storer κ) :
    (Feeder.runItems (backend cfg).hooks time m ctx delta items s).2
      = Run.run (step cfg) s (items.map (fun i => .save (cfg.stamp time) m
          (Feeder.saveCall time m delta ctx i).context
          (Feeder.saveCall time m delta ctx i).data)) := by
  induction items generalizing s with
  | nil => rfl
  | cons i is ih =>
    have hsave : (backend cfg).hooks._processTask time m ctx i delta s
        = save cfg (cfg.stamp time) m (Feeder.saveCall time m delta ctx i).context
            (Feeder.saveCall time m delta ctx i).data s := rfl
    unfold Feeder.runItems
    rw [List.map_cons, Run.run_cons, hsave]
    show _ = Run.run (step cfg) (save cfg (cfg.stamp time) m
      (Feeder.saveCall time m delta ctx i).context
      (Feeder.saveCall time m delta ctx i).data s).2 _
    cases save cfg (cfg.stamp time) m (Feeder.saveCall time m delta ctx i).context
        (Feeder.saveCall time m delta ctx i).data s with
    | mk r s' =>
      cases r with
      | ok u => exact ih s'
      | error e => exact ih s'

/-- **The feeder drives the storer by rounds**: one for each context of a message. -/
theorem runContexts_backend (time : Value) (m : ItemMeta) (delta : Option Int)
    (ps : List (Context × List Item)) (s : Storer κ) :
    (Feeder.runContexts (backend cfg).hooks time m delta ps s).2
      = Run.run (step cfg) s (roundsEvents cfg (ps.map (roundOf cfg time m delta)) s) := by
  induction ps generalizing s with
  | nil => rfl
  | cons p ps ih =>
    have hctx : (Feeder.runContext (backend cfg).hooks time m delta p s).2
        = Run.run (step cfg) s ((roundOf cfg time m delta p).events cfg s) := by
      have hpre : (backend cfg).hooks.preBulkProcess time m p.1 p.2 s
          = ((preBulkProcess cfg m p.1 p.2 s).1.map (fun _ => true),
            (preBulkProcess cfg m p.1 p.2 s).2) := rfl
      have hround : (roundOf cfg time m delta p).events cfg s
          = .preBulk m p.1 p.2 :: match (preBulkProcess cfg m p.1 p.2 s).1 with
            | .ok _ => (roundOf cfg time m delta p).inner
            | .error _ => [] := rfl
      unfold Feeder.runContext
      rw [hpre, hround, Run.run_cons]
      cases hr : (preBulkProcess cfg m p.1 p.2 s).1 with
      | error e => rfl
      | ok u =>
        have hinner : (roundOf cfg time m delta p).inner
            = p.2.map (fun i => Event.save (cfg.stamp time) m
                (Feeder.saveCall time m delta p.1 i).context
                (Feeder.saveCall time m delta p.1 i).data) ++ [.postBulk (cfg.stamp time)] := by
          unfold Round.inner roundOf
          rw [List.map_map]
          rfl
        have hitems := run_saves cfg time m delta p.1 p.2 (preBulkProcess cfg m p.1 p.2 s).2
        simp only [Except.map, if_true]
        rw [hinner, Run.run_append]
        show _ = Run.run (step cfg) (Run.run (step cfg) (preBulkProcess cfg m p.1 p.2 s).2 _) _
        rw [← hitems]
        cases Feeder.runItems (backend cfg).hooks time m p.1 delta p.2
            (preBulkProcess cfg m p.1 p.2 s).2 with
        | mk out s' =>
          have hpost : (backend cfg).hooks.postBulkProcess time m p.1 s'
              = ((postBulkProcess (cfg.stamp time) s').1.map (fun _ => []),
                (postBulkProcess (cfg.stamp time) s').2) := rfl
          simp only [hpost]
          show _ = (postBulkProcess (cfg.stamp time) s').2
          cases (postBulkProcess (cfg.stamp time) s').1 with
          | ok u => rfl
          | error e => rfl
    unfold Feeder.runContexts
    rw [List.map_cons, roundsEvents, Run.run_append, ← hctx]
    exact ih _

end Postgres
