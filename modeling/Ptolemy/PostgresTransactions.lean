/-
# The transactions of the postgres storer

The calls of the storer run in transactions.  A statement that fails aborts the open one:
what follows fails too, until a `commit`, which then rolls everything back that was written
since the `commit` before.  `ensure_table` and `ensure_indexes` commit while they create
what is missing, and `ensure_indexes` commits for each field of a context;
`post_msg_process` commits at the end of a batch.

Here the calls of `Postgres` are given again, statement by statement, in such a
session.  Which statements fail is a parameter.  Numbers that a sequence has given out stay
given out after a rollback, and a statement that fails takes none.
-/
import Ptolemy.PostgresSteps

namespace Postgres

/-! ## Statements -/

inductive Statement : Type where
  | regclass (t : String)
  | createTable (t : String)
  | pgIndexes (t k : String)
  | createIndex (t k : String)
  | select (t : String) (contexts : List Doc)
  | insert (t : String) (time : Int) (context data : Doc)
  | archive (t : String) (row : Row) (time : Int) (context data : Doc)
  | updateItem (t : String) (id : Nat) (time : Int) (context data : Doc) (updateCreatedAt : Bool)
  | bulkUpdate (t : String) (time : Int) (ids : List Nat)
  | bulkDelete (t : String) (ids : List Nat)

/-- What a statement that does not fail makes of the rows. -/
def Statement.apply (db : Db) : Statement → Db
  | .insert t time context data => db.insert t time context data
  | .archive t row time context data => db.archive t row time context data
  | .updateItem t id time context data updateCreatedAt =>
      db.updateItem t id time context data updateCreatedAt
  | .bulkUpdate t time ids => db.bulkUpdate t time ids
  | .bulkDelete t ids => db.bulkDelete t ids
  | _ => db

/-- Statements that write rows. -/
def Statement.writes : Statement → Bool
  | .regclass _ => false
  | .createTable _ => false
  | .pgIndexes _ _ => false
  | .createIndex _ _ => false
  | .select _ _ => false
  | _ => true

/-- The errors that the storer tells apart: what is created exists already, the transaction is
aborted, or anything else. -/
inductive Failure : Type where
  | alreadyExists
  | aborted
  | other
  deriving DecidableEq, Repr

/-- Which statements fail in a transaction that is not aborted, and which indexes there are. -/
structure Server : Type where
  fails : Db → Statement → Option Failure
  hasIndex : String → String → Bool

/-- A lookup with no field is no SQL. -/
def Server.failure (srv : Server) (db : Db) (st : Statement) : Option Failure :=
  match st with
  | .select _ contexts =>
    if contexts.any (fun c => c.items.isEmpty) then some .other else srv.fails db st
  | st => srv.fails db st

/-! ## Sessions -/

/-- A statement that was sent: whether the transaction was aborted, whether rows had been written
in it, and whether the statement failed. -/
structure Attempt : Type where
  statement : Statement
  aborted : Bool
  dirty : Bool
  failed : Bool

/-- A storer with its connection: the rows it sees are those of its transaction, and `durable` are
those of the last commit.  Beside them, the statements of the present call and the calls that were
not given up. -/
structure Session (κ : Type) : Type 1 where
  storer : Storer κ
  durable : Db
  aborted : Bool := false
  dirty : Bool := false
  knownTables : Dict String (List String) := ∅
  log : List Attempt := []
  kept : List Event := []

variable {κ : Type} [DecidableEq κ] (cfg : Config κ) (srv : Server)

namespace Session

def setDb (s : Session κ) (db : Db) : Session κ :=
  { s with storer := { s.storer with db := db } }

def setPostMsgProcessing (s : Session κ) (b : Bool) : Session κ :=
  { s with storer := { s.storer with postMsgProcessing := b } }

def setTable (s : Session κ) (table : String) : Session κ :=
  { s with storer := { s.storer with table := some table } }

def execute (st : Statement) (s : Session κ) : Except Failure Unit × Session κ :=
  let failure : Option Failure := if s.aborted then some .aborted else srv.failure s.storer.db st
  let attempt : Attempt := ⟨st, s.aborted, s.dirty, failure.isSome⟩
  let s := { s with log := s.log ++ [attempt] }
  match failure with
  | some f => (.error f, { s with aborted := true })
  | none => (.ok (), { s.setDb (st.apply s.storer.db) with dirty := s.dirty || st.writes })

def rollback (s : Session κ) : Session κ :=
  { s.setDb { s.durable with serial := s.storer.db.serial } with
    durable := { s.durable with serial := s.storer.db.serial }, aborted := false, dirty := false }

def commit (s : Session κ) : Session κ :=
  if s.aborted then s.rollback else { s with durable := s.storer.db, dirty := false }

/-- A table becomes known. -/
def learn (s : Session κ) (t : String) : Session κ :=
  { s with knownTables := s.knownTables.insert t [] }

/-- A field of a known table becomes known to have an index. -/
def learnIndex (s : Session κ) (t k : String) : Session κ :=
  { s with knownTables := s.knownTables.insert t ((s.knownTables.lookup t).getD [] ++ [k]) }

end Session

/-- What the storer raises for a statement that failed. -/
def Failure.exn : Failure → Exn
  | .alreadyExists => .exception "already exists"
  | .aborted => .exception "current transaction is aborted"
  | .other => .exception "error"

/-! ## The calls, statement by statement -/

/-- One of the two parts of `ensure_table`: a table that is not known is looked for and created. -/
def ensureKnown (t : String) (accepted : List Failure) (s : Session κ) :
    Except Exn Unit × Session κ :=
  if t ∈ s.knownTables then (.ok (), s)
  else match s.execute srv (.regclass t) with
    | (.ok _, s) => (.ok (), s.learn t)
    | (.error _, s) => match s.commit.execute srv (.createTable t) with
      | (.ok _, s) => (.ok (), (s.learn t).commit)
      | (.error .alreadyExists, s) => (.ok (), (s.learn t).commit)
      | (.error f, s) => if f ∈ accepted then (.ok (), s.commit) else (.error f.exn, s)

/-- The tables of `ensure_table`: of a partition the table it inherits from comes first. -/
def ensureTables (name : String) (inherited : Option String) (s : Session κ) :
    Except Exn String × Session κ :=
  match ensureKnown srv (inherited.getD name) [] s with
  | (.error e, s) => (.error e, s)
  | (.ok _, s) => match inherited with
    | none => (.ok name, s)
    | some _ => match ensureKnown srv name [.aborted] s with
      | (.error e, s) => (.error e, s)
      | (.ok _, s) => (.ok name, s)

/-- `ensure_table`. -/
def ensure_table (spec group : String) (context : Context) (data : List Item) (archive : Bool)
    (s : Session κ) : Except Exn String × Session κ :=
  match tableName cfg spec group context data with
  | .error e => (.error e, s)
  | .ok (name, inherited) =>
    ensureTables srv (if archive then name ++ historyCollectionAppend else name) inherited s

/-- The index for one field of a context. -/
def ensureIndex (t k : String) (s : Session κ) : Except Failure Unit × Session κ :=
  if k ∈ (s.knownTables.lookup t).getD [] then (.ok (), s)
  else match s.execute srv (.pgIndexes t k) with
    | (.error f, s) => (.error f, s)
    | (.ok _, s) => if srv.hasIndex t k then (.ok (), s) else s.execute srv (.createIndex t k)

/-- `ensure_indexes`, which commits for each field. -/
def ensure_indexes (t : String) : List String → Session κ → Except Exn Unit × Session κ
  | [], s => (.ok (), s)
  | k :: ks, s => match ensureIndex srv t k s with
    | (.ok _, s) => ensure_indexes t ks (s.commit.learnIndex t k)
    | (.error .alreadyExists, s) => ensure_indexes t ks (s.commit.learnIndex t k)
    | (.error f, s) => (.error f.exn, s)

/-- `query`. -/
def query (t : String) (contexts : List Doc) (s : Session κ) :
    Except Exn (List Row) × Session κ :=
  match s.execute srv (.select t contexts) with
  | (.error f, s) => (.error f.exn, s)
  | (.ok _, s) => (s.storer.db.query cfg.order t contexts, s)

/-- The rows of one context enter the cache. -/
def lookUp (m : ItemMeta) (context : Context) (table : String) (s : Session κ) :
    Except Exn Unit × Session κ :=
  if m.flags.justInsert || s.storer.preMsgQueried then (.ok (), s)
  else match query cfg srv table [lookupContext m (flatten context)] s with
    | (.error e, s) => (.error e, s)
    | (.ok rows, s) =>
      let rows := if m.flags.updateRecent then Db.latest rows else rows
      let (out, cache) := cacheRows cfg s.storer.contextFields s.storer.contextFieldsMissingOk rows
        s.storer.cache
      (out, { s with storer := { s.storer with cache := cache } })

/-- `pre_bulk_process`. -/
def pre_bulk_process (m : ItemMeta) (context : Context) (data : List Item) (s : Session κ) :
    Except Exn Unit × Session κ :=
  let s := s.setPostMsgProcessing (decide (_tableName m.spec m.group ∈ cfg.postMsgProcessTables))
  match ensure_table cfg srv m.spec m.group context data false s with
  | (.error e, s) => (.error e, s)
  | (.ok table, s) =>
    let s := s.setTable table
    let fields := if table ∈ s.knownTables then cfg.order.order (context.items.map Prod.fst) else []
    match ensure_indexes srv table fields s with
    | (.error e, s) => (.error e, s)
    | (.ok _, s) => lookUp cfg srv m context table s

/-- `archive_and_update`; an insertion into the history that fails is logged. -/
def archive_and_update (time : Int) (m : ItemMeta) (table : String) (doc : Row) (c : Change)
    (s : Session κ) : Except Exn Unit × Session κ :=
  match ensure_table cfg srv m.spec m.group ∅ [] true s with
  | (.error e, s) => (.error e, s)
  | (.ok arch, s) =>
    let s := (s.execute srv (.archive arch doc time c.context c.data)).2
    match s.execute srv (.updateItem table doc.id time c.context c.data true) with
    | (.error f, s) => (.error f.exn, s)
    | (.ok _, s) => (.ok (), s)

/-- The branches of `save`, by the rows that the cache has for the key. -/
def storeRow (time : Int) (m : ItemMeta) (table : String) (docs : List Row) (context data : Doc)
    (s : Session κ) : Except Exn Unit × Session κ :=
  match docs with
  | [] => match s.execute srv (.insert table time context data) with
    | (.error f, s) => (.error f.exn, s)
    | (.ok _, s) => (.ok (), s)
  | [doc] =>
    let c := changeOf cfg m.flags doc context data
    match c.difference with
    | some true => archive_and_update cfg srv time m table doc c s
    | some false =>
        (.ok (), { s with storer := { s.storer with updateIds := s.storer.updateIds ++ [doc.id] } })
    | none => match s.execute srv
        (.updateItem table doc.id time c.context c.data c.updateCreatedAt) with
      | (.error f, s) => (.error f.exn, s)
      | (.ok _, s) => (.ok (), s)
  | docs =>
      (.ok (), { s with storer := { s.storer with
        deleteIds := markDuplicates docs s.storer.deleteIds } })

/-- `save`. -/
def saveItem (time : Int) (m : ItemMeta) (ctx : Context) (data : Item) (s : Session κ) :
    Except Exn Unit × Session κ :=
  match checkSubnet cfg m (flatten ctx) with
  | .error e => (.error e, s)
  | .ok () =>
    match cfg.dictToKv s.storer.contextFields s.storer.contextFieldsMissingOk (flatten ctx) with
    | .error e => (.error e, s)
    | .ok key => match s.storer.table with
      | none => (.error (.typeError "cannot concatenate 'str' and 'NoneType' objects"), s)
      | some table =>
        let p := delayContext m.flags.delayedContext (flatten ctx) (flatten data)
        storeRow cfg srv time m table ((s.storer.cache.lookup key).getD []) p.1 p.2 s

/-- `post_bulk_process`. -/
def post_bulk_process (time : Int) (s : Session κ) : Except Exn Unit × Session κ :=
  if s.storer.updateIds.isEmpty then (.ok (), { s with storer := { s.storer with table := none } })
  else match s.storer.table with
    | none => (.error (.typeError "cannot concatenate 'str' and 'NoneType' objects"), s)
    | some table =>
      if s.storer.postMsgProcessing then
        (.ok (), { s with storer := { s.storer with
          postMsgData := deferIds table time s.storer.updateIds s.storer.postMsgData
          table := none, updateIds := [] } })
      else match s.execute srv (.bulkUpdate table time s.storer.updateIds) with
        | (.error f, s) => (.error f.exn, s)
        | (.ok _, s) => (.ok (), { s with storer := { s.storer with table := none, updateIds := [] } })

/-- The deferred stamps are replayed, up to one that fails. -/
def replayAll : List (String × Int × List Nat) → Session κ → Except Exn Unit × Session κ
  | [], s => (.ok (), s)
  | p :: ps, s => match s.execute srv (.bulkUpdate p.1 p.2.1 p.2.2) with
    | (.error f, s) => (.error f.exn, s)
    | (.ok _, s) => replayAll ps s

/-- The duplicates are deleted. -/
def deleteDuplicates (s : Session κ) : Except Exn Unit × Session κ :=
  if s.storer.deleteIds.isEmpty then (.ok (), s)
  else match s.execute srv (.bulkDelete s.storer.currentTableName s.storer.deleteIds) with
    | (.error f, s) => (.error f.exn, s)
    | (.ok _, s) => (.ok (), { s with storer := { s.storer with deleteIds := [] } })

/-- `post_msg_process`; nothing is committed when it raises. -/
def post_msg_process (o : IterOrder) (s : Session κ) : Except Exn Unit × Session κ :=
  match deleteDuplicates srv s with
  | (.error e, s) => (.error e, s)
  | (.ok _, s) => match replayAll srv (deferred o s.storer.postMsgData) s with
    | (.error e, s) => (.error e, s)
    | (.ok _, s) => (.ok (), s.commit)

/-- One prefetching query; one that fails rolls back and empties the cache. -/
def prefetchPart (s : Session κ) (p : String × List Doc) : Session κ :=
  match query cfg srv p.1 p.2 s with
  | (.error _, s) => { s.rollback with
      storer := { s.rollback.storer with cache := ∅, preMsgQueried := false } }
  | (.ok rows, s) =>
    match cacheRows cfg s.storer.contextFields s.storer.contextFieldsMissingOk rows s.storer.cache with
    | (.error _, _) => { s.rollback with
        storer := { s.rollback.storer with cache := ∅, preMsgQueried := false } }
    | (.ok _, cache) => { s with storer := { s.storer with
        cache := cache, preMsgQueried := s.storer.preMsgQueried || !rows.isEmpty } }

/-- `pre_msg_process`. -/
def pre_msg_process (msg : List Message) (s : Session κ) : Except Exn Unit × Session κ :=
  let s := { s with storer := { s.storer with
    updateIds := [], deleteIds := [], contextFields := [], contextFieldsMissingOk := false
    cache := ∅, preMsgQueried := false } }
  match msg with
  | [] => (.error (.exception "list index out of range"), s)
  | m :: _ => match m._meta.bind Meta.spec, m._meta.bind Meta.group with
    | some spec, some group =>
      let s := { s with storer := { s.storer with currentTableName := _tableName spec group } }
      match cfg.preMsgProcessTables.lookup s.storer.currentTableName with
      | none => (.ok (), s)
      | some (fields, missingOk) =>
        let s := { s with storer := { s.storer with
          contextFields := fields, contextFieldsMissingOk := missingOk } }
        match prefetchParts cfg s.storer.currentTableName fields msg with
        | .error e => (.error e, s)
        | .ok parts => (.ok (), (cfg.order.order parts.items).foldl (prefetchPart cfg srv) s)
    | _, _ => (.error (.keyError "_meta"), s)

/-! ## Batches -/

def call (e : Event) (s : Session κ) : Except Exn Unit × Session κ :=
  match e with
  | .preMsg msg => pre_msg_process cfg srv msg s
  | .preBulk m context data => pre_bulk_process cfg srv m context data s
  | .save time m ctx data => saveItem cfg srv time m ctx data s
  | .postBulk time => post_bulk_process srv time s
  | .postMsg o => post_msg_process srv o s

/-- A call that raises does so for itself, and not for an aborted transaction that it met. -/
def ownFailure (log : List Attempt) : Bool :=
  match log.find? Attempt.failed with
  | some a => !a.aborted
  | none => true

/-- The calls without those of the last context. -/
def dropContext (es : List Event) : List Event :=
  ((es.reverse.dropWhile (fun e => match e with | .preBulk _ _ _ => false | _ => true)).drop 1).reverse

/-- The calls that stay after one more: a call that fails for itself is given up, and with the stamp
of a context the whole context. -/
def keep (e : Event) (ok : Bool) (log : List Attempt) (kept : List Event) : List Event :=
  if ok || !ownFailure log then kept ++ [e]
  else match e with
    | .preBulk _ _ _ => kept
    | .save _ _ _ _ => kept
    | .postBulk _ => dropContext kept
    | e => kept ++ [e]

/-- One call, whether it raises or not, with a new record of its statements. -/
def sessionStep (s : Session κ) (e : Event) : Session κ :=
  let r := call cfg srv e { s with log := [] }
  { r.2 with kept := keep e r.1.isOk r.2.log r.2.kept }

/-- The calls for a context: nothing follows a `pre_bulk_process` that raises. -/
def Round.calls (r : Round) (s : Session κ) : List Event :=
  .preBulk r.meta' r.context r.data ::
    match (call cfg srv (.preBulk r.meta' r.context r.data) { s with log := [] }).1 with
    | .ok _ => r.inner
    | .error _ => []

/-- The calls for several contexts. -/
def roundsCalls : List Round → Session κ → List Event
  | [], _ => []
  | r :: rs, s => r.calls cfg srv s
      ++ roundsCalls rs (Run.run (sessionStep cfg srv) s (r.calls cfg srv s))

/-! ## What a batch should leave -/

/-- The statement was sent in a transaction that was not aborted, and if it failed then no rows had
been written in it. -/
def Attempt.Harmless (a : Attempt) : Prop := a.aborted = false ∧ (a.failed = true → a.dirty = false)

/-- What was sent in a call is harmless, a context that is given up has put no rows into the cache,
and no stamp or deletion at the end of a context or of the batch fails. -/
def Calm (s : Session κ) (e : Event) : Prop :=
  (∀ a ∈ (sessionStep cfg srv s e).log, a.Harmless)
  ∧ match e with
    | .preBulk _ _ _ => (call cfg srv e { s with log := [] }).1 = .ok () ∨
        (sessionStep cfg srv s e).storer.cache = s.storer.cache
    | .postBulk _ => ∀ a ∈ (sessionStep cfg srv s e).log, a.failed = false
    | .postMsg _ => ∀ a ∈ (sessionStep cfg srv s e).log, a.failed = false
    | _ => True

/-- No ids are left over when a context begins. -/
def NoLeftovers (s : Session κ) : Event → Prop
  | .preBulk _ _ _ => s.storer.updateIds = []
  | _ => True

/-- Nothing is left of a transaction, and no call has been made. -/
structure Session.Fresh (s : Session κ) : Prop where
  aborted : s.aborted = false
  dirty : s.dirty = false
  durable : s.storer.db = s.durable
  kept : s.kept = []

/-- After a batch that `pre_msg_process` accepts, the durable rows are those of the storer without the
calls that were given up, and no ids that were collected in one context were left for another. -/
def Isolated (b : Batch) (s : Session κ) : Prop :=
  ∀ s₁, pre_msg_process cfg srv b.msg s = (.ok (), s₁) →
    let es := roundsCalls cfg srv b.rounds s₁ ++ [.postMsg b.order]
    let s' := Run.run (sessionStep cfg srv) s₁ es
    s'.durable = (Run.run (step cfg) s₁.storer s'.kept).db
      ∧ Run.Along (sessionStep cfg srv) NoLeftovers s₁ es

/-- All calls of a batch are calm. -/
def CalmBatch (b : Batch) (s : Session κ) : Prop :=
  ∀ s₁, pre_msg_process cfg srv b.msg s = (.ok (), s₁) →
    Run.Along (sessionStep cfg srv) (Calm cfg srv) s₁
      (roundsCalls cfg srv b.rounds s₁ ++ [.postMsg b.order])

/-! ## What the statements of a call leave alone -/

/-- Everything that was sent is harmless. -/
def Session.Good (s : Session κ) : Prop := ∀ a ∈ s.log, a.Harmless

/-- Where no rows have been written the transaction sees the durable ones, and in an aborted
transaction none have been written. -/
structure Session.Settled (s : Session κ) : Prop where
  clean : s.dirty = false → s.storer.db = s.durable
  aborted : s.aborted = true → s.dirty = false

/-- What is sent on the way from one session to another changes nothing but the connection. -/
def Session.Quiet (s s' : Session κ) : Prop :=
  s'.Good → s.Good ∧ s'.kept = s.kept ∧ (s.Settled → s'.Settled ∧ s'.storer = s.storer)

omit [DecidableEq κ] in
theorem Session.Quiet.refl (s : Session κ) : s.Quiet s := fun h => ⟨h, rfl, fun hs => ⟨hs, rfl⟩⟩

omit [DecidableEq κ] in
theorem Session.Quiet.trans {s s' s'' : Session κ} (h : s.Quiet s') (h' : s'.Quiet s'') :
    s.Quiet s'' := by
  intro hgood
  obtain ⟨hgood', hkept', hstorer'⟩ := h' hgood
  obtain ⟨hgood, hkept, hstorer⟩ := h hgood'
  refine ⟨hgood, hkept'.trans hkept, fun hs => ?_⟩
  obtain ⟨hs', heq⟩ := hstorer hs
  obtain ⟨hs'', heq'⟩ := hstorer' hs'
  exact ⟨hs'', heq'.trans heq⟩

omit [DecidableEq κ] in
theorem Session.good_append {s s' : Session κ} {a : Attempt} (hlog : s'.log = s.log ++ [a])
    (h : s'.Good) : s.Good ∧ a.Harmless := by
  unfold Session.Good at h ⊢
  rw [hlog] at h
  exact ⟨fun b hb => h b (List.mem_append_left _ hb),
    h a (List.mem_append_right _ (List.mem_singleton_self a))⟩

omit [DecidableEq κ] in
/-- A statement that does not fail. -/
theorem Session.execute_ok {s s' : Session κ} {st : Statement} {u : Unit}
    (h : s.execute srv st = (.ok u, s')) :
    s' = { s with
      storer := { s.storer with db := st.apply s.storer.db }, dirty := s.dirty || st.writes
      log := s.log ++ [⟨st, s.aborted, s.dirty, false⟩] } := by
  unfold Session.execute at h
  simp only at h
  split at h
  · cases h
  · rename_i hnone
    obtain ⟨-, rfl⟩ := Prod.mk.inj h
    rw [hnone]
    rfl

omit [DecidableEq κ] in
/-- A statement that fails. -/
theorem Session.execute_error {s s' : Session κ} {st : Statement} {f : Failure}
    (h : s.execute srv st = (.error f, s')) :
    s' = { s with aborted := true, log := s.log ++ [⟨st, s.aborted, s.dirty, true⟩] } := by
  unfold Session.execute at h
  simp only at h
  split at h
  · rename_i hsome
    obtain ⟨-, rfl⟩ := Prod.mk.inj h
    rw [hsome]
    rfl
  · cases h

omit [DecidableEq κ] in
/-- A harmless statement that does not fail changes the rows as it says. -/
theorem Session.wrote {s s' : Session κ} {st : Statement} {u : Unit}
    (h : s.execute srv st = (.ok u, s')) (hgood : s'.Good) :
    s.Good ∧ s'.kept = s.kept ∧ (s.Settled → s'.Settled
      ∧ s'.storer = { s.storer with db := st.apply s.storer.db }) := by
  have hs' := Session.execute_ok srv h
  subst hs'
  obtain ⟨hgood, hharmless⟩ := Session.good_append rfl hgood
  refine ⟨hgood, rfl, fun hs => ⟨⟨fun hdirty => ?_, fun haborted => ?_⟩, rfl⟩⟩
  · obtain ⟨hclean, hwrites⟩ := Bool.or_eq_false_iff.mp hdirty
    have happly : st.apply s.storer.db = s.storer.db := by
      cases st with
      | regclass t => rfl
      | createTable t => rfl
      | pgIndexes t k => rfl
      | createIndex t k => rfl
      | select t contexts => rfl
      | insert => cases hwrites
      | archive => cases hwrites
      | updateItem => cases hwrites
      | bulkUpdate => cases hwrites
      | bulkDelete => cases hwrites
    exact happly.trans (hs.clean hclean)
  · have hopen : s.aborted = false := hharmless.1
    have haborted' : s.aborted = true := haborted
    rw [hopen] at haborted'
    cases haborted'

omit [DecidableEq κ] in
theorem Session.quiet_of_read {s s' : Session κ} {st : Statement} {u : Unit}
    (hread : st.apply s.storer.db = s.storer.db) (h : s.execute srv st = (.ok u, s')) :
    s.Quiet s' := by
  intro hgood
  obtain ⟨hgood, hkept, hstorer⟩ := Session.wrote srv h hgood
  refine ⟨hgood, hkept, fun hs => ?_⟩
  obtain ⟨hs', heq⟩ := hstorer hs
  rw [hread] at heq
  exact ⟨hs', heq⟩

omit [DecidableEq κ] in
theorem Session.quiet_of_error {s s' : Session κ} {st : Statement} {f : Failure}
    (h : s.execute srv st = (.error f, s')) : s.Quiet s' := by
  intro hgood
  have hs' := Session.execute_error srv h
  subst hs'
  obtain ⟨hgood, hharmless⟩ := Session.good_append rfl hgood
  refine ⟨hgood, rfl, fun hs => ⟨⟨hs.clean, fun _ => ?_⟩, rfl⟩⟩
  exact hharmless.2 rfl

omit [DecidableEq κ] in
/-- A commit leaves a settled session as it is, and its rows become durable. -/
theorem Session.quiet_commit (s : Session κ) : s.Quiet s.commit := by
  intro hgood
  by_cases haborted : s.aborted = true
  · have hcommit : s.commit = s.rollback := if_pos haborted
    rw [hcommit] at hgood ⊢
    refine ⟨hgood, rfl, fun hs => ⟨⟨fun _ => rfl, fun h => (by cases h)⟩, ?_⟩⟩
    -- nothing had been written
    have hclean := hs.clean (hs.aborted haborted)
    show { s.storer with db := { s.durable with serial := s.storer.db.serial } } = s.storer
    rw [← hclean]
  · have hcommit : s.commit = { s with durable := s.storer.db, dirty := false } := if_neg haborted
    rw [hcommit] at hgood ⊢
    exact ⟨hgood, rfl, fun _ => ⟨⟨fun _ => rfl, fun _ => rfl⟩, rfl⟩⟩

omit [DecidableEq κ] in
theorem Session.commit_durable {s : Session κ} (hs : s.Settled) :
    s.commit.durable = s.storer.db := by
  by_cases haborted : s.aborted = true
  · have hcommit : s.commit = s.rollback := if_pos haborted
    have hclean := hs.clean (hs.aborted haborted)
    rw [hcommit]
    show { s.durable with serial := s.storer.db.serial } = s.storer.db
    rw [← hclean]
  · rw [show s.commit = { s with durable := s.storer.db, dirty := false } from if_neg haborted]

omit [DecidableEq κ] in
theorem Session.quiet_learn (s : Session κ) (t : String) : s.Quiet (s.learn t) :=
  fun h => ⟨h, rfl, fun hs => ⟨⟨hs.clean, hs.aborted⟩, rfl⟩⟩

omit [DecidableEq κ] in
theorem Session.quiet_learnIndex (s : Session κ) (t k : String) : s.Quiet (s.learnIndex t k) :=
  fun h => ⟨h, rfl, fun hs => ⟨⟨hs.clean, hs.aborted⟩, rfl⟩⟩

/-! ## The tables and indexes -/

omit [DecidableEq κ] in
theorem quiet_ensureKnown {t : String} {accepted : List Failure} {s s' : Session κ}
    {r : Except Exn Unit} (h : ensureKnown srv t accepted s = (r, s')) : s.Quiet s' := by
  unfold ensureKnown at h
  split_ifs at h
  · cases h
    exact Session.Quiet.refl _
  · split at h
    · rename_i u s₁ hfound
      cases h
      exact (Session.quiet_of_read srv rfl hfound).trans (Session.quiet_learn s₁ t)
    · rename_i f s₁ hmissing
      have hcommit := (Session.quiet_of_error srv hmissing).trans (Session.quiet_commit s₁)
      split at h
      · rename_i u s₂ hcreated
        cases h
        exact ((hcommit.trans (Session.quiet_of_read srv rfl hcreated)).trans
          (Session.quiet_learn s₂ t)).trans (Session.quiet_commit _)
      · rename_i s₂ hexists
        cases h
        exact ((hcommit.trans (Session.quiet_of_error srv hexists)).trans
          (Session.quiet_learn s₂ t)).trans (Session.quiet_commit _)
      · rename_i f' s₂ _ hfailed
        have hquiet := hcommit.trans (Session.quiet_of_error srv hfailed)
        split_ifs at h
        · cases h
          exact hquiet.trans (Session.quiet_commit _)
        · cases h
          exact hquiet

omit [DecidableEq κ] in
theorem quiet_ensureTables {name : String} {inherited : Option String} {s s' : Session κ}
    {r : Except Exn String} (h : ensureTables srv name inherited s = (r, s')) :
    s.Quiet s' ∧ ∀ table, r = .ok table → table = name := by
  unfold ensureTables at h
  split at h
  · rename_i e s₁ hknown
    cases h
    exact ⟨quiet_ensureKnown srv hknown, fun _ hr => (by cases hr)⟩
  · rename_i u s₁ hknown
    have hquiet := quiet_ensureKnown srv hknown
    split at h
    · cases h
      exact ⟨hquiet, fun _ hr => (by cases hr; rfl)⟩
    · split at h
      · rename_i e s₂ hpart
        cases h
        exact ⟨hquiet.trans (quiet_ensureKnown srv hpart), fun _ hr => (by cases hr)⟩
      · rename_i u s₂ hpart
        cases h
        exact ⟨hquiet.trans (quiet_ensureKnown srv hpart), fun _ hr => (by cases hr; rfl)⟩

omit [DecidableEq κ] in
theorem quiet_ensure_table {spec group : String} {context : Context} {data : List Item}
    {archive : Bool} {s s' : Session κ} {r : Except Exn String}
    (h : ensure_table cfg srv spec group context data archive s = (r, s')) : s.Quiet s' := by
  unfold ensure_table at h
  split at h
  · cases h
    exact Session.Quiet.refl _
  · exact (quiet_ensureTables srv h).1

omit [DecidableEq κ] in
/-- The table that `ensure_table` returns, other than one for a history. -/
theorem ensure_table_ok {spec group : String} {context : Context} {data : List Item} {s s' : Session κ}
    {table : String} (h : ensure_table cfg srv spec group context data false s = (.ok table, s')) :
    ensureTable cfg spec group context data = .ok table := by
  unfold ensure_table at h
  unfold ensureTable
  split at h
  · cases h
  · rename_i name inherited htable
    have hname := (quiet_ensureTables srv h).2 table rfl
    rw [htable, hname]
    rfl

omit [DecidableEq κ] in
theorem quiet_ensureIndex {t k : String} {s s' : Session κ} {r : Except Failure Unit}
    (h : ensureIndex srv t k s = (r, s')) : s.Quiet s' := by
  unfold ensureIndex at h
  split at h
  · cases h
    exact Session.Quiet.refl _
  · split at h
    · rename_i f s₁ hfailed
      cases h
      exact Session.quiet_of_error srv hfailed
    · rename_i u s₁ hlooked
      have hquiet := Session.quiet_of_read srv rfl hlooked
      split at h
      · cases h
        exact hquiet
      · cases r with
        | error f => exact hquiet.trans (Session.quiet_of_error srv h)
        | ok u => exact hquiet.trans (Session.quiet_of_read srv rfl h)

omit [DecidableEq κ] in
theorem quiet_ensure_indexes {t : String} {ks : List String} {s s' : Session κ}
    {r : Except Exn Unit} (h : ensure_indexes srv t ks s = (r, s')) : s.Quiet s' := by
  induction ks generalizing s with
  | nil =>
    cases h
    exact Session.Quiet.refl _
  | cons k ks ih =>
    unfold ensure_indexes at h
    split at h
    · rename_i u s₁ hindex
      exact (((quiet_ensureIndex srv hindex).trans (Session.quiet_commit s₁)).trans
        (Session.quiet_learnIndex _ t k)).trans (ih h)
    · rename_i s₁ hindex
      exact (((quiet_ensureIndex srv hindex).trans (Session.quiet_commit s₁)).trans
        (Session.quiet_learnIndex _ t k)).trans (ih h)
    · rename_i f s₁ _ hindex
      cases h
      exact quiet_ensureIndex srv hindex

/-! ## The calls against those of the storer -/

/-- A call has taken the session from one storer to another. -/
def Session.Takes (s s' : Session κ) (storer : Storer κ) : Prop :=
  s'.Good → s.Good ∧ s'.kept = s.kept ∧ (s.Settled → s'.Settled ∧ s'.storer = storer)

omit [DecidableEq κ] in
theorem Session.Takes.of_wrote {s s' : Session κ} {st : Statement} {u : Unit}
    (h : s.execute srv st = (.ok u, s')) :
    s.Takes s' { s.storer with db := st.apply s.storer.db } := fun hgood => Session.wrote srv h hgood

omit [DecidableEq κ] in
/-- The history table, which has no partitions. -/
theorem ensure_table_archive {spec group : String} {s s' : Session κ} {table : String}
    (h : ensure_table cfg srv spec group ∅ [] true s = (.ok table, s')) :
    table = _tableName spec group ++ historyCollectionAppend := by
  have hname : tableName cfg spec group ∅ [] = .ok (_tableName spec group, none) := by
    unfold tableName
    simp only
    split
    · rfl
    · rfl
  unfold ensure_table at h
  rw [hname] at h
  exact (quiet_ensureTables srv h).2 table rfl

omit [DecidableEq κ] in
/-- Archiving: an insertion into the history that fails aborts the transaction of the update after
it, and an update that fails after the insertion has rows written before it. -/
theorem takes_archive {time : Int} {m : ItemMeta} {table : String} {doc : Row} {c : Change}
    {s s' : Session κ} {r : Except Exn Unit}
    (h : archive_and_update cfg srv time m table doc c s = (r, s')) :
    s.Takes s' (match r with
      | .ok _ => { s.storer with
          db := ((s.storer.db.archive (_tableName m.spec m.group ++ historyCollectionAppend) doc time
            c.context c.data).updateItem table doc.id time c.context c.data true) }
      | .error _ => s.storer) := by
  unfold archive_and_update at h
  split at h
  · rename_i e s₁ hensure
    cases h
    exact quiet_ensure_table cfg srv hensure
  · rename_i arch s₁ hensure
    have hquiet := quiet_ensure_table cfg srv hensure
    rw [ensure_table_archive cfg srv hensure] at h
    cases harchive : s₁.execute srv (.archive (_tableName m.spec m.group ++ historyCollectionAppend)
        doc time c.context c.data) with
    | mk r₂ s₂ =>
      rw [harchive] at h
      simp only at h
      intro hgood
      cases r₂ with
      | error f =>
        -- the update is sent in the aborted transaction
        exfalso
        have hs₂ := Session.execute_error srv harchive
        split at h
        · rename_i f' s₃ hupdate
          cases h
          have hs₃ := Session.execute_error srv hupdate
          subst hs₃
          have hopen := (Session.good_append rfl hgood).2.1
          rw [hs₂] at hopen
          cases hopen
        · rename_i u s₃ hupdate
          cases h
          have hs₃ := Session.execute_ok srv hupdate
          subst hs₃
          have hopen := (Session.good_append rfl hgood).2.1
          rw [hs₂] at hopen
          cases hopen
      | ok u =>
        have hs₂ := Session.execute_ok srv harchive
        split at h
        · rename_i f' s₃ hupdate
          cases h
          -- the insertion has been written
          exfalso
          have hs₃ := Session.execute_error srv hupdate
          subst hs₃
          have hclean := (Session.good_append rfl hgood).2.2 rfl
          rw [hs₂] at hclean
          simp [Statement.writes] at hclean
        · rename_i u' s₃ hupdate
          cases h
          obtain ⟨hgood₂, hkept₃, hstorer₃⟩ := Session.wrote srv hupdate hgood
          obtain ⟨hgood₁, hkept₂, hstorer₂⟩ := Session.wrote srv harchive hgood₂
          obtain ⟨hgood₀, hkept₁, hstorer₁⟩ := hquiet hgood₁
          refine ⟨hgood₀, hkept₃.trans (hkept₂.trans hkept₁), fun hs => ?_⟩
          obtain ⟨hset₁, heq₁⟩ := hstorer₁ hs
          obtain ⟨hset₂, heq₂⟩ := hstorer₂ hset₁
          obtain ⟨hset₃, heq₃⟩ := hstorer₃ hset₂
          refine ⟨hset₃, ?_⟩
          rw [heq₃, heq₂, heq₁]
          rfl

omit [DecidableEq κ] in
theorem takes_storeRow {time : Int} {m : ItemMeta} {table : String} {docs : List Row}
    {context data : Doc} {s s' : Session κ} {r : Except Exn Unit}
    (h : storeRow cfg srv time m table docs context data s = (r, s')) :
    s.Takes s' (match r with
      | .ok _ => store cfg time m table docs context data s.storer
      | .error _ => s.storer) := by
  unfold storeRow at h
  unfold store
  match docs with
  | [] =>
    simp only at h
    split at h
    · rename_i f s₁ hinsert
      cases h
      exact Session.quiet_of_error srv hinsert
    · rename_i u s₁ hinsert
      cases h
      exact Session.Takes.of_wrote srv hinsert
  | [doc] =>
    simp only at h
    simp only
    cases hc : (changeOf cfg m.flags doc context data).difference with
    | none =>
      rw [hc] at h
      simp only at h
      split at h
      · rename_i f s₁ hupdate
        cases h
        exact Session.quiet_of_error srv hupdate
      · rename_i u s₁ hupdate
        cases h
        exact Session.Takes.of_wrote srv hupdate
    | some d =>
      rw [hc] at h
      cases d with
      | true =>
        have harchive := takes_archive cfg srv h
        cases r with
        | error e => exact harchive
        | ok u => exact harchive
      | false =>
        cases h
        exact fun hgood => ⟨hgood, rfl, fun hs => ⟨⟨hs.clean, hs.aborted⟩, rfl⟩⟩
  | d₁ :: d₂ :: ds =>
    cases h
    exact fun hgood => ⟨hgood, rfl, fun hs => ⟨⟨hs.clean, hs.aborted⟩, rfl⟩⟩

/-- **One item**: a harmless `save` is that of the storer, or raises and changes nothing. -/
theorem takes_saveItem {time : Int} {m : ItemMeta} {ctx : Context} {data : Item} {s s' : Session κ}
    {r : Except Exn Unit} (h : saveItem cfg srv time m ctx data s = (r, s')) :
    s.Takes s' (match r with
      | .ok _ => (save cfg time m ctx data s.storer).2
      | .error _ => s.storer) := by
  unfold saveItem at h
  unfold save
  cases hsubnet : checkSubnet cfg m (flatten ctx) with
  | error e =>
    rw [hsubnet] at h
    cases h
    exact Session.Quiet.refl _
  | ok u =>
    rw [hsubnet] at h
    simp only at h ⊢
    cases hkey : cfg.dictToKv s.storer.contextFields s.storer.contextFieldsMissingOk (flatten ctx) with
    | error e =>
      rw [hkey] at h
      cases h
      exact Session.Quiet.refl _
    | ok key =>
      rw [hkey] at h
      simp only at h ⊢
      cases htable : s.storer.table with
      | none =>
        rw [htable] at h
        cases h
        exact Session.Quiet.refl _
      | some table =>
        rw [htable] at h
        simp only at h ⊢
        have hstore := takes_storeRow cfg srv h
        cases r with
        | error e => exact hstore
        | ok u => exact hstore

omit [DecidableEq κ] in
theorem query_ok {t : String} {contexts : List Doc} {s s' : Session κ} {rows : List Row}
    (h : query cfg srv t contexts s = (.ok rows, s')) :
    s.Quiet s' ∧ s'.storer.db.query cfg.order t contexts = .ok rows := by
  unfold query at h
  split at h
  · cases h
  · rename_i u s₁ hselect
    obtain ⟨hrows, rfl⟩ := Prod.mk.inj h
    exact ⟨Session.quiet_of_read srv rfl hselect, hrows⟩

omit [DecidableEq κ] in
theorem quiet_query {t : String} {contexts : List Doc} {s s' : Session κ}
    {r : Except Exn (List Row)} (h : query cfg srv t contexts s = (r, s')) : s.Quiet s' := by
  unfold query at h
  split at h
  · rename_i f s₁ hselect
    cases h
    exact Session.quiet_of_error srv hselect
  · rename_i u s₁ hselect
    obtain ⟨-, rfl⟩ := Prod.mk.inj h
    exact Session.quiet_of_read srv rfl hselect

/-- What a `pre_bulk_process` that raises may change. -/
def OnlyContext (t t' : Storer κ) : Prop :=
  t' = { t with table := t'.table, postMsgProcessing := t'.postMsgProcessing, cache := t'.cache }

theorem takes_lookUp {m : ItemMeta} {context : Context} {table : String} {s s' : Session κ}
    {r : Except Exn Unit} (h : lookUp cfg srv m context table s = (r, s')) (hgood : s'.Good) :
    s.Good ∧ s'.kept = s.kept ∧ (s.Settled → s'.Settled ∧ OnlyContext s.storer s'.storer
      ∧ (r = .ok () → s'.storer = if m.flags.justInsert || s.storer.preMsgQueried then s.storer
          else match s.storer.db.query cfg.order table [lookupContext m (flatten context)] with
            | .error _ => s.storer
            | .ok rows => { s.storer with cache := (cacheRows cfg s.storer.contextFields
                s.storer.contextFieldsMissingOk (if m.flags.updateRecent then Db.latest rows else rows)
                s.storer.cache).2 })) := by
  unfold lookUp at h
  split at h
  · rename_i hskip
    cases h
    exact ⟨hgood, rfl, fun hs => ⟨hs, rfl, fun _ => (if_pos hskip).symm⟩⟩
  · rename_i hlook
    split at h
    · rename_i e s₁ hquery
      cases h
      obtain ⟨hgood₀, hkept, hstorer⟩ := quiet_query cfg srv hquery hgood
      refine ⟨hgood₀, hkept, fun hs => ?_⟩
      obtain ⟨hset, heq⟩ := hstorer hs
      exact ⟨hset, by rw [heq]; rfl, fun hr => (by cases hr)⟩
    · rename_i rows s₁ hquery
      obtain ⟨hquiet, hrows⟩ := query_ok cfg srv hquery
      obtain ⟨hr, rfl⟩ := Prod.mk.inj h
      obtain ⟨hgood₀, hkept, hstorer⟩ := hquiet hgood
      refine ⟨hgood₀, hkept, fun hs => ?_⟩
      obtain ⟨hset, heq⟩ := hstorer hs
      refine ⟨⟨hset.clean, hset.aborted⟩, by rw [OnlyContext, heq], fun _ => ?_⟩
      rw [heq] at hrows
      rw [if_neg hlook, hrows, heq]

/-- **One context**: a harmless `pre_bulk_process` is that of the storer, or raises and changes only
what is known of the context and the cache. -/
theorem takes_pre_bulk_process {m : ItemMeta} {context : Context} {data : List Item}
    {s s' : Session κ} {r : Except Exn Unit}
    (h : pre_bulk_process cfg srv m context data s = (r, s')) (hgood : s'.Good) :
    s.Good ∧ s'.kept = s.kept ∧ (s.Settled → s'.Settled ∧ OnlyContext s.storer s'.storer
      ∧ (r = .ok () → s'.storer = (preBulkProcess cfg m context data s.storer).2
        ∧ ∃ table, ensureTable cfg m.spec m.group context data = .ok table)) := by
  unfold pre_bulk_process at h
  simp only at h
  split at h
  · rename_i e s₁ hensure
    cases h
    obtain ⟨hgood₀, hkept, hstorer⟩ := quiet_ensure_table cfg srv hensure hgood
    refine ⟨hgood₀, hkept, fun hs => ?_⟩
    obtain ⟨hset, heq⟩ := hstorer ⟨hs.clean, hs.aborted⟩
    exact ⟨hset, by rw [heq]; rfl, fun hr => (by cases hr)⟩
  · rename_i table s₁ hensure
    have hquiet₁ := quiet_ensure_table cfg srv hensure
    split at h
    · rename_i e s₂ hindexes
      cases h
      obtain ⟨hgood₁, hkept₂, hstorer₂⟩ := quiet_ensure_indexes srv hindexes hgood
      obtain ⟨hgood₀, hkept₁, hstorer₁⟩ := hquiet₁ hgood₁
      refine ⟨hgood₀, hkept₂.trans hkept₁, fun hs => ?_⟩
      obtain ⟨hset₁, heq₁⟩ := hstorer₁ ⟨hs.clean, hs.aborted⟩
      obtain ⟨hset₂, heq₂⟩ := hstorer₂ ⟨hset₁.clean, hset₁.aborted⟩
      refine ⟨hset₂, ?_, fun hr => (by cases hr)⟩
      rw [heq₂, Session.setTable, heq₁]
      rfl
    · rename_i u s₂ hindexes
      obtain ⟨hgood₂, hkept₃, hstorer₃⟩ := takes_lookUp cfg srv h hgood
      obtain ⟨hgood₁, hkept₂, hstorer₂⟩ := quiet_ensure_indexes srv hindexes hgood₂
      obtain ⟨hgood₀, hkept₁, hstorer₁⟩ := hquiet₁ hgood₁
      refine ⟨hgood₀, hkept₃.trans (hkept₂.trans hkept₁), fun hs => ?_⟩
      obtain ⟨hset₁, heq₁⟩ := hstorer₁ ⟨hs.clean, hs.aborted⟩
      obtain ⟨hset₂, heq₂⟩ := hstorer₂ ⟨hset₁.clean, hset₁.aborted⟩
      obtain ⟨hset₃, honly, hok⟩ := hstorer₃ hset₂
      -- the storer before the rows are looked up
      have heq : s₂.storer = { s.storer with
          postMsgProcessing := decide (_tableName m.spec m.group ∈ cfg.postMsgProcessTables)
          table := some table } := by
        rw [heq₂, Session.setTable, heq₁]
        rfl
      refine ⟨hset₃, ?_, fun hr => ?_⟩
      · unfold OnlyContext at honly ⊢
        rw [honly, heq]
      · refine ⟨?_, table, ensure_table_ok cfg srv hensure⟩
        rw [hok hr, heq]
        unfold preBulkProcess
        simp only [ensure_table_ok cfg srv hensure]
        by_cases hskip : (m.flags.justInsert || s.storer.preMsgQueried) = true
        · rw [if_pos hskip, if_pos hskip]
        · rw [if_neg hskip, if_neg hskip]
          cases s.storer.db.query cfg.order table [lookupContext m (flatten context)] with
          | error e => rfl
          | ok rows => rfl

/-! ### The end of a context and of a batch -/

omit [DecidableEq κ] in
theorem not_forall_failed {s s' : Session κ} {st : Statement} {f : Failure}
    (h : s.execute srv st = (.error f, s')) : ¬ ∀ a ∈ s'.log, a.failed = false := by
  intro hall
  have hs' := Session.execute_error srv h
  have hlast := hall ⟨st, s.aborted, s.dirty, true⟩
    (by rw [hs']; exact List.mem_append_right _ (List.mem_singleton_self _))
  cases hlast

omit [DecidableEq κ] in
/-- A harmless `post_bulk_process` whose stamp does not fail is that of the storer. -/
theorem takes_post_bulk_process {time : Int} {s s' : Session κ} {r : Except Exn Unit}
    (h : post_bulk_process srv time s = (r, s')) (hfailed : ∀ a ∈ s'.log, a.failed = false) :
    s.Takes s' (postBulkProcess time s.storer).2 ∧ (r = .ok () ∨ s.storer.table = none) := by
  unfold post_bulk_process at h
  unfold postBulkProcess
  split at h
  · rename_i hempty
    rw [if_pos hempty]
    cases h
    exact ⟨fun hgood => ⟨hgood, rfl, fun hs => ⟨⟨hs.clean, hs.aborted⟩, rfl⟩⟩, Or.inl rfl⟩
  · rename_i hids
    rw [if_neg hids]
    cases htable : s.storer.table with
    | none =>
      rw [htable] at h
      cases h
      exact ⟨Session.Quiet.refl _, Or.inr rfl⟩
    | some table =>
      rw [htable] at h
      simp only at h ⊢
      split at h
      · rename_i hdefer
        cases h
        refine ⟨fun hgood => ⟨hgood, rfl, fun hs => ⟨⟨hs.clean, hs.aborted⟩, ?_⟩⟩, Or.inl rfl⟩
        simp [hdefer]
      · rename_i hnow
        split at h
        · rename_i f s₁ hstamp
          cases h
          exact absurd hfailed (not_forall_failed srv hstamp)
        · rename_i u s₁ hstamp
          cases h
          refine ⟨fun hgood => ?_, Or.inl rfl⟩
          obtain ⟨hgood₀, hkept, hstorer⟩ := Session.wrote srv hstamp hgood
          refine ⟨hgood₀, hkept, fun hs => ?_⟩
          obtain ⟨hset, heq⟩ := hstorer hs
          refine ⟨⟨hset.clean, hset.aborted⟩, ?_⟩
          rw [if_neg hnow, heq]
          rfl

omit [DecidableEq κ] in
theorem takes_replayAll {l : List (String × Int × List Nat)} {s s' : Session κ}
    {r : Except Exn Unit} (h : replayAll srv l s = (r, s'))
    (hfailed : ∀ a ∈ s'.log, a.failed = false) :
    r = .ok () ∧ s.Takes s' { s.storer with db := l.foldl replay s.storer.db } := by
  induction l generalizing s with
  | nil =>
    cases h
    exact ⟨rfl, Session.Quiet.refl _⟩
  | cons p l ih =>
    unfold replayAll at h
    split at h
    · rename_i f s₁ hstamp
      cases h
      exact absurd hfailed (not_forall_failed srv hstamp)
    · rename_i u s₁ hstamp
      obtain ⟨hr, htakes⟩ := ih h
      refine ⟨hr, fun hgood => ?_⟩
      obtain ⟨hgood₁, hkept₂, hstorer₂⟩ := htakes hgood
      obtain ⟨hgood₀, hkept₁, hstorer₁⟩ := Session.wrote srv hstamp hgood₁
      refine ⟨hgood₀, hkept₂.trans hkept₁, fun hs => ?_⟩
      obtain ⟨hset₁, heq₁⟩ := hstorer₁ hs
      obtain ⟨hset₂, heq₂⟩ := hstorer₂ hset₁
      refine ⟨hset₂, ?_⟩
      rw [heq₂, heq₁]
      rfl

omit [DecidableEq κ] in
/-- **The end of a batch**: a harmless `post_msg_process` with no statement that fails is that of the
storer, and makes its rows durable. -/
theorem takes_post_msg_process {o : IterOrder} {s s' : Session κ} {r : Except Exn Unit}
    (h : post_msg_process srv o s = (r, s')) (hfailed : ∀ a ∈ s'.log, a.failed = false)
    (hgood : s'.Good) (hs : s.Settled) :
    r = .ok () ∧ s'.kept = s.kept ∧ s'.durable = (postMsgProcess o s.storer).db := by
  have hdeleted : ∀ r₁ s₁, deleteDuplicates srv s = (r₁, s₁) →
      (r₁ = .ok () ∨ ¬ ∀ a ∈ s₁.log, a.failed = false)
      ∧ s.Takes s₁ (match r₁ with
        | .ok _ => if s.storer.deleteIds.isEmpty then s.storer else { s.storer with
            db := (s.storer.db.bulkDelete s.storer.currentTableName s.storer.deleteIds), deleteIds := [] }
        | .error _ => s.storer) := by
    intro r₁ s₁ hdelete
    unfold deleteDuplicates at hdelete
    split at hdelete
    · rename_i hempty
      cases hdelete
      refine ⟨Or.inl rfl, ?_⟩
      simp only [hempty, if_true]
      exact Session.Quiet.refl _
    · rename_i hids
      split at hdelete
      · rename_i f s₂ hsent
        cases hdelete
        exact ⟨Or.inr (not_forall_failed srv hsent), Session.quiet_of_error srv hsent⟩
      · rename_i u s₂ hsent
        cases hdelete
        refine ⟨Or.inl rfl, fun hgood => ?_⟩
        obtain ⟨hgood₀, hkept, hstorer⟩ := Session.wrote srv hsent hgood
        refine ⟨hgood₀, hkept, fun hs => ?_⟩
        obtain ⟨hset, heq⟩ := hstorer hs
        refine ⟨⟨hset.clean, hset.aborted⟩, ?_⟩
        simp only [hids, heq]
        rfl
  unfold post_msg_process at h
  split at h
  · rename_i e s₁ hdelete
    cases h
    rcases (hdeleted _ _ hdelete).1 with hr | hnot
    · cases hr
    · exact absurd hfailed hnot
  · rename_i u s₁ hdelete
    have htakes₁ := (hdeleted _ _ hdelete).2
    split at h
    · rename_i e s₂ hreplay
      cases h
      cases (takes_replayAll srv hreplay hfailed).1
    · rename_i u s₂ hreplay
      cases h
      have hlog : s₂.commit.log = s₂.log := by
        unfold Session.commit
        split_ifs <;> rfl
      rw [hlog] at hfailed
      obtain ⟨-, htakes₂⟩ := takes_replayAll srv hreplay hfailed
      obtain ⟨hgood₂, hkept₃, -⟩ := Session.quiet_commit s₂ hgood
      obtain ⟨hgood₁, hkept₂, hstorer₂⟩ := htakes₂ hgood₂
      obtain ⟨-, hkept₁, hstorer₁⟩ := htakes₁ hgood₁
      obtain ⟨hset₁, heq₁⟩ := hstorer₁ hs
      obtain ⟨hset₂, heq₂⟩ := hstorer₂ hset₁
      refine ⟨rfl, hkept₃.trans (hkept₂.trans hkept₁), ?_⟩
      rw [Session.commit_durable hset₂, heq₂, heq₁]
      unfold postMsgProcess
      by_cases hempty : s.storer.deleteIds.isEmpty = true
      · simp [hempty]
      · simp [hempty]

/-! ## Rounds -/

/-- Two storers agree on all but what is known of the present context. -/
def SameOutside (t t' : Storer κ) : Prop :=
  t' = { t with table := t'.table, postMsgProcessing := t'.postMsgProcessing }

/-- Between two contexts: the storer without the calls that were given up, and no ids are left. -/
structure Session.Between (t₀ : Storer κ) (s : Session κ) : Prop where
  settled : s.Settled
  same : SameOutside (Run.run (step cfg) t₀ s.kept) s.storer
  ids : s.storer.updateIds = []

/-- Within a context: the storer without the calls that were given up, and a table. -/
structure Session.Within (t₀ : Storer κ) (s : Session κ) : Prop where
  settled : s.Settled
  same : s.storer = Run.run (step cfg) t₀ s.kept
  table : ∃ table, s.storer.table = some table

omit [DecidableEq κ] in
/-- A harmless call that raises is given up. -/
theorem ownFailure_of_good {s : Session κ} (h : s.Good) : ownFailure s.log = true := by
  unfold ownFailure
  split
  · rename_i a ha
    rw [(h a (List.mem_of_find?_eq_some ha)).1]
    rfl
  · rfl

theorem sessionStep_eq {s s' : Session κ} {e : Event} {r : Except Exn Unit}
    (hcall : call cfg srv e { s with log := [] } = (r, s')) :
    sessionStep cfg srv s e = { s' with kept := keep e r.isOk s'.log s'.kept } := by
  unfold sessionStep
  rw [hcall]

omit [DecidableEq κ] in
theorem keep_error {log : List Attempt} {kept : List Event} (h : ownFailure log = true) :
    (∀ time m ctx data, keep (.save time m ctx data) false log kept = kept)
      ∧ ∀ m context data, keep (.preBulk m context data) false log kept = kept := by
  unfold keep
  rw [h]
  exact ⟨fun _ _ _ _ => rfl, fun _ _ _ => rfl⟩

theorem run_keep {t₀ : Storer κ} {es : List Event} {e : Event} :
    Run.run (step cfg) t₀ (es ++ [e]) = step cfg (Run.run (step cfg) t₀ es) e := by
  rw [Run.run_append]
  rfl

omit [DecidableEq κ] in
theorem table_store (time : Int) (m : ItemMeta) (table : String) (docs : List Row)
    (context data : Doc) (s : Storer κ) :
    (store cfg time m table docs context data s).table = s.table := by
  unfold store
  split
  · rfl
  · simp only
    split <;> rfl
  · rfl

theorem table_save (time : Int) (m : ItemMeta) (ctx : Context) (data : Item) (s : Storer κ) :
    (save cfg time m ctx data s).2.table = s.table := by
  unfold save
  split
  · rfl
  · split
    · rfl
    · split
      · rfl
      · exact table_store cfg time m _ _ _ _ s

theorem within_save {t₀ : Storer κ} {s : Session κ} {time : Int} {m : ItemMeta} {ctx : Context}
    {data : Item} (hs : s.Within cfg t₀) (hcalm : Calm cfg srv s (.save time m ctx data)) :
    (sessionStep cfg srv s (.save time m ctx data)).Within cfg t₀ := by
  unfold Calm at hcalm
  cases hcall : call cfg srv (.save time m ctx data) { s with log := [] } with
  | mk r s' =>
    rw [sessionStep_eq cfg srv hcall] at hcalm ⊢
    have hgood : s'.Good := hcalm.1
    obtain ⟨-, hkept, hstorer⟩ := takes_saveItem cfg srv hcall hgood
    obtain ⟨hset, heq⟩ := hstorer ⟨hs.settled.clean, hs.settled.aborted⟩
    cases r with
    | ok u =>
      refine ⟨⟨hset.clean, hset.aborted⟩, ?_, ?_⟩
      · show s'.storer = Run.run (step cfg) t₀ (s'.kept ++ [_])
        rw [run_keep, heq, hkept]
        show (save cfg time m ctx data s.storer).2 = _
        rw [hs.same]
        rfl
      · show ∃ table, s'.storer.table = some table
        rw [heq]
        show ∃ table, (save cfg time m ctx data s.storer).2.table = some table
        rw [table_save]
        exact hs.table
    | error e =>
      refine ⟨⟨hset.clean, hset.aborted⟩, ?_, ?_⟩
      · show s'.storer = Run.run (step cfg) t₀ (keep (.save time m ctx data) false s'.log s'.kept)
        rw [(keep_error (ownFailure_of_good hgood)).1, heq, hkept]
        exact hs.same
      · show ∃ table, s'.storer.table = some table
        rw [heq]
        exact hs.table

theorem between_post_bulk {t₀ : Storer κ} {s : Session κ} {time : Int} (hs : s.Within cfg t₀)
    (hcalm : Calm cfg srv s (.postBulk time)) :
    (sessionStep cfg srv s (.postBulk time)).Between cfg t₀ := by
  unfold Calm at hcalm
  cases hcall : call cfg srv (.postBulk time) { s with log := [] } with
  | mk r s' =>
    rw [sessionStep_eq cfg srv hcall] at hcalm ⊢
    have hgood : s'.Good := hcalm.1
    obtain ⟨htakes, hr⟩ := takes_post_bulk_process srv hcall hcalm.2
    obtain ⟨-, hkept, hstorer⟩ := htakes hgood
    obtain ⟨hset, heq⟩ := hstorer ⟨hs.settled.clean, hs.settled.aborted⟩
    obtain ⟨table, htable⟩ := hs.table
    rcases hr with rfl | hnone
    · refine ⟨⟨hset.clean, hset.aborted⟩, ?_, ?_⟩
      · show SameOutside (Run.run (step cfg) t₀ (s'.kept ++ [_])) s'.storer
        rw [run_keep, heq, hkept]
        show SameOutside (step cfg (Run.run (step cfg) t₀ s.kept) _) (postBulkProcess time s.storer).2
        rw [hs.same]
        rfl
      · show s'.storer.updateIds = []
        rw [heq]
        show (postBulkProcess time s.storer).2.updateIds = []
        unfold postBulkProcess
        split
        · rename_i hempty
          exact List.isEmpty_iff.mp hempty
        · rw [htable]
    · have hnone' : s.storer.table = none := hnone
      rw [htable] at hnone'
      cases hnone'

/-- What a context starts from does not depend on the context before. -/
theorem preBulkProcess_congr {t t' : Storer κ} (h : SameOutside t t') {m : ItemMeta}
    {context : Context} {data : List Item} {table : String}
    (hensure : ensureTable cfg m.spec m.group context data = .ok table) :
    (preBulkProcess cfg m context data t').2 = (preBulkProcess cfg m context data t).2 := by
  rw [h]
  unfold preBulkProcess
  simp only [hensure]

theorem table_of_preBulkProcess {t : Storer κ} {m : ItemMeta} {context : Context} {data : List Item}
    {table : String} (hensure : ensureTable cfg m.spec m.group context data = .ok table) :
    (preBulkProcess cfg m context data t).2.table = some table := by
  unfold preBulkProcess
  simp only [hensure]
  split
  · rfl
  · split <;> rfl

theorem within_pre_bulk {t₀ : Storer κ} {s : Session κ} {m : ItemMeta} {context : Context}
    {data : List Item} (hs : s.Between cfg t₀) (hcalm : Calm cfg srv s (.preBulk m context data)) :
    ((call cfg srv (.preBulk m context data) { s with log := [] }).1 = .ok () →
      (sessionStep cfg srv s (.preBulk m context data)).Within cfg t₀)
    ∧ ((call cfg srv (.preBulk m context data) { s with log := [] }).1 ≠ .ok () →
      (sessionStep cfg srv s (.preBulk m context data)).Between cfg t₀) := by
  unfold Calm at hcalm
  cases hcall : call cfg srv (.preBulk m context data) { s with log := [] } with
  | mk r s' =>
    rw [sessionStep_eq cfg srv hcall, hcall] at hcalm
    rw [sessionStep_eq cfg srv hcall]
    have hgood : s'.Good := hcalm.1
    obtain ⟨-, hkept, hstorer⟩ := takes_pre_bulk_process cfg srv hcall hgood
    obtain ⟨hset, honly, hok⟩ := hstorer ⟨hs.settled.clean, hs.settled.aborted⟩
    constructor
    · intro hr
      have hr' : r = .ok () := hr
      obtain ⟨heq, table, hensure⟩ := hok hr'
      subst hr'
      refine ⟨⟨hset.clean, hset.aborted⟩, ?_, table, ?_⟩
      · show s'.storer = Run.run (step cfg) t₀ (s'.kept ++ [_])
        rw [run_keep, heq, hkept]
        exact preBulkProcess_congr cfg hs.same hensure
      · show s'.storer.table = some table
        rw [heq]
        exact table_of_preBulkProcess cfg hensure
    · intro hr
      cases r with
      | ok u => exact absurd rfl hr
      | error e =>
        have hcache : s'.storer.cache = s.storer.cache := by
          rcases hcalm.2 with hr' | hcache
          · cases hr'
          · exact hcache
        have hsame : s'.storer = { s.storer with
            table := s'.storer.table, postMsgProcessing := s'.storer.postMsgProcessing } := by
          unfold OnlyContext at honly
          rw [hcache] at honly
          exact honly
        refine ⟨⟨hset.clean, hset.aborted⟩, ?_, ?_⟩
        · show SameOutside (Run.run (step cfg) t₀ (keep (.preBulk m context data) false s'.log s'.kept))
            s'.storer
          rw [(keep_error (ownFailure_of_good hgood)).2, hkept]
          show SameOutside (Run.run (step cfg) t₀ s.kept) s'.storer
          unfold SameOutside
          have hprev := hs.same
          unfold SameOutside at hprev
          rw [hprev] at hsame
          exact hsame
        · show s'.storer.updateIds = []
          rw [hsame]
          exact hs.ids

/-- The items of a context, and its end. -/
theorem between_inner {t₀ : Storer κ} {r : Round} {s : Session κ} (hs : s.Within cfg t₀)
    (hcalm : Run.Along (sessionStep cfg srv) (Calm cfg srv) s r.inner) :
    (Run.run (sessionStep cfg srv) s r.inner).Between cfg t₀
      ∧ Run.Along (sessionStep cfg srv) NoLeftovers s r.inner := by
  unfold Round.inner at hcalm ⊢
  generalize r.saves = saves at hcalm ⊢
  induction saves generalizing s with
  | nil => exact ⟨between_post_bulk cfg srv hs hcalm.1, trivial, trivial⟩
  | cons p ps ih =>
    rw [List.map_cons, List.cons_append] at hcalm ⊢
    obtain ⟨hend, hleft⟩ := ih (within_save cfg srv hs hcalm.1) hcalm.2
    exact ⟨hend, trivial, hleft⟩

theorem clean_round {t₀ : Storer κ} {r : Round} {s : Session κ} (hs : s.Between cfg t₀)
    (hcalm : Run.Along (sessionStep cfg srv) (Calm cfg srv) s (r.calls cfg srv s)) :
    (Run.run (sessionStep cfg srv) s (r.calls cfg srv s)).Between cfg t₀
      ∧ Run.Along (sessionStep cfg srv) NoLeftovers s (r.calls cfg srv s) := by
  unfold Round.calls at hcalm ⊢
  obtain ⟨hok, herror⟩ := within_pre_bulk cfg srv hs hcalm.1
  cases hr : (call cfg srv (.preBulk r.meta' r.context r.data) { s with log := [] }).1 with
  | ok u =>
    rw [hr] at hcalm
    obtain ⟨hend, hleft⟩ := between_inner cfg srv (hok hr) hcalm.2
    exact ⟨hend, hs.ids, hleft⟩
  | error e => exact ⟨herror (by rw [hr]; simp), hs.ids, trivial⟩

theorem clean_rounds {t₀ : Storer κ} {rs : List Round} {s : Session κ} (hs : s.Between cfg t₀)
    (hcalm : Run.Along (sessionStep cfg srv) (Calm cfg srv) s (roundsCalls cfg srv rs s)) :
    (Run.run (sessionStep cfg srv) s (roundsCalls cfg srv rs s)).Between cfg t₀
      ∧ Run.Along (sessionStep cfg srv) NoLeftovers s (roundsCalls cfg srv rs s) := by
  induction rs generalizing s with
  | nil => exact ⟨hs, trivial⟩
  | cons r rs ih =>
    unfold roundsCalls at hcalm ⊢
    obtain ⟨hfirst, hrest⟩ := Run.along_append.mp hcalm
    obtain ⟨hend, hleft⟩ := clean_round cfg srv hs hfirst
    obtain ⟨hend', hleft'⟩ := ih hend hrest
    rw [Run.run_append]
    exact ⟨hend', Run.along_append.mpr ⟨hleft, hleft'⟩⟩

/-! ## Batches -/

omit [DecidableEq κ] in
theorem fresh_query {t : String} {contexts : List Doc} {s s' : Session κ} {r : Except Exn (List Row)}
    (hs : s.Fresh) (h : query cfg srv t contexts s = (r, s')) :
    s'.rollback.Fresh ∧ s'.rollback.storer = s.storer
      ∧ ∀ rows, r = .ok rows → s'.Fresh ∧ s'.storer = s.storer := by
  unfold query at h
  split at h
  · rename_i f s₁ hsent
    cases h
    have hs₁ := Session.execute_error srv hsent
    refine ⟨⟨rfl, rfl, rfl, by rw [hs₁]; exact hs.kept⟩, ?_, fun _ hr => (by cases hr)⟩
    rw [hs₁]
    show { s.storer with db := { s.durable with serial := s.storer.db.serial } } = s.storer
    rw [← hs.durable]
  · rename_i u s₁ hsent
    have hs₁ := Session.execute_ok srv hsent
    obtain ⟨-, rfl⟩ := Prod.mk.inj h
    have hfresh : s₁.Fresh := by
      rw [hs₁]
      exact ⟨hs.aborted, by simp [hs.dirty, Statement.writes], hs.durable, hs.kept⟩
    have hsame : s₁.storer = s.storer := by
      rw [hs₁]
      rfl
    refine ⟨⟨rfl, rfl, rfl, hfresh.kept⟩, ?_, fun _ _ => ⟨hfresh, hsame⟩⟩
    show { s₁.storer with db := { s₁.durable with serial := s₁.storer.db.serial } } = s.storer
    rw [← hfresh.durable, hsame]

theorem fresh_prefetchPart {s : Session κ} (hs : s.Fresh) (p : String × List Doc) :
    (prefetchPart cfg srv s p).Fresh
      ∧ (prefetchPart cfg srv s p).storer.updateIds = s.storer.updateIds := by
  unfold prefetchPart
  cases hquery : query cfg srv p.1 p.2 s with
  | mk r s' =>
    obtain ⟨hrolled, hsame, hok⟩ := fresh_query cfg srv hs hquery
    have hempty : ∀ b : Bool, (⟨{ s'.rollback.storer with cache := ∅, preMsgQueried := b },
        s'.rollback.durable, s'.rollback.aborted, s'.rollback.dirty, s'.rollback.knownTables,
        s'.rollback.log, s'.rollback.kept⟩ : Session κ).Fresh :=
      fun _ => ⟨hrolled.aborted, hrolled.dirty, hrolled.durable, hrolled.kept⟩
    have hids : s'.rollback.storer.updateIds = s.storer.updateIds := by rw [hsame]
    cases r with
    | error e => exact ⟨hempty false, hids⟩
    | ok rows =>
      obtain ⟨hfresh, hstorer⟩ := hok rows rfl
      simp only
      split
      · exact ⟨hempty false, hids⟩
      · refine ⟨⟨hfresh.aborted, hfresh.dirty, hfresh.durable, hfresh.kept⟩, ?_⟩
        show s'.storer.updateIds = _
        rw [hstorer]

/-- After `pre_msg_process` nothing is left of the batch before. -/
theorem fresh_pre_msg_process {msg : List Message} {s s' : Session κ} (hs : s.Fresh)
    (h : pre_msg_process cfg srv msg s = (.ok (), s')) :
    s'.Fresh ∧ s'.storer.updateIds = [] := by
  have hfold : ∀ (l : List (String × List Doc)) (s : Session κ), s.Fresh → s.storer.updateIds = [] →
      (l.foldl (prefetchPart cfg srv) s).Fresh
        ∧ (l.foldl (prefetchPart cfg srv) s).storer.updateIds = [] := by
    intro l
    induction l with
    | nil => exact fun s hs hids => ⟨hs, hids⟩
    | cons p l ih =>
      intro s hs hids
      obtain ⟨hfresh, hsame⟩ := fresh_prefetchPart cfg srv hs p
      exact ih _ hfresh (hsame.trans hids)
  unfold pre_msg_process at h
  simp only at h
  split at h
  · cases h
  · split at h
    · split at h
      · cases h
        exact ⟨⟨hs.aborted, hs.dirty, hs.durable, hs.kept⟩, rfl⟩
      · split at h
        · cases h
        · cases h
          exact hfold _ _ ⟨hs.aborted, hs.dirty, hs.durable, hs.kept⟩ rfl
    · cases h

instance (a : Attempt) : Decidable a.Harmless := inferInstanceAs (Decidable (_ ∧ (_ → _)))

deriving instance DecidableEq for Row

instance (s : Session κ) (e : Event) : Decidable (NoLeftovers s e) :=
  match e with
  | .preMsg _ => inferInstanceAs (Decidable True)
  | .preBulk _ _ _ => inferInstanceAs (Decidable (_ = _))
  | .save _ _ _ _ => inferInstanceAs (Decidable True)
  | .postBulk _ => inferInstanceAs (Decidable True)
  | .postMsg _ => inferInstanceAs (Decidable True)

instance (s : Session κ) (e : Event) : Decidable (Calm cfg srv s e) :=
  match e with
  | .preMsg _ => inferInstanceAs (Decidable ((∀ a ∈ _, Attempt.Harmless a) ∧ True))
  | .preBulk _ _ _ => inferInstanceAs (Decidable ((∀ a ∈ _, Attempt.Harmless a) ∧ (_ ∨ _)))
  | .save _ _ _ _ => inferInstanceAs (Decidable ((∀ a ∈ _, Attempt.Harmless a) ∧ True))
  | .postBulk _ => inferInstanceAs (Decidable ((∀ a ∈ _, Attempt.Harmless a) ∧ ∀ a ∈ _, Attempt.failed a = false))
  | .postMsg _ => inferInstanceAs (Decidable ((∀ a ∈ _, Attempt.Harmless a) ∧ ∀ a ∈ _, Attempt.failed a = false))

/-- A server with all indexes that takes no status `?`, and no stamps of the ports of `rtr-core1`. -/
def pickyServer : Server where
  fails := fun _ st => match st with
    | .insert _ _ _ data => if data.lookup "status" = some "?" then some .other else none
    | .bulkUpdate t _ _ => if t = "ports__status__devicertr-core1" then some .other else none
    | _ => none
  hasIndex := fun _ _ => true

/-- A session with given rows, which knows the tables of ports. -/
def portSession (rows : List Row) : Session (List (String × Option String)) where
  storer := sampleStorer rows 2
  durable := (sampleStorer rows 2).db
  knownTables := Dict.ofList [("ports__status", ["device", "port"]),
    ("ports__status__devicertr-core1", ["device", "port"]),
    ("ports__status__devicertr-core2", ["device", "port"])]

/-- The status of a port. -/
def status (v : String) : Item := Dict.ofList [("status", .str v)]

/-- The context of one port of another device. -/
def otherContext : Context := Dict.ofList [("device", .str "rtr-core2"), ("port", .str "1/1")]

/-- A status for the other port. -/
def otherRound (v : String) : Round where
  time := 100
  meta' := portMeta
  context := otherContext
  data := [status v]
  saves := [(otherContext, status v)]

/-- The row of the first port. -/
def upRow : Row :=
  ⟨1, 50, 50, flatten portContext, flatten (status "up"), "ports__status__devicertr-core1"⟩

end Postgres
