/-
# Live rows: one for each key, and stamps that do not go back

`save` inserts when its cache has no row for a key.  The cache is filled before the
loop over the items and never updated inside it, so that two items of one batch
with a new key make two rows: a run keeps the keys unique exactly when no row is
written whose key another live row has (`uniqueKeys_iff`).

The stamps of unchanged rows may be deferred to the end of a batch, and they are
never forgotten.  A row's `updated_at` does not go back as long as no deferred stamp
is older than the row it is for (`stampsKept_of_stampsFresh`).
-/
import Ptolemy.PostgresSteps

namespace Postgres

variable {κ : Type} [DecidableEq κ] (cfg : Config κ)

/-! ## One live row for each key -/

/-- The fields that make the key of a table. -/
def keyFields (root : String) : List String × Bool :=
  (cfg.preMsgProcessTables.lookup root).getD ([], false)

/-- The key that a context has in a table. -/
def rowKey (root : String) (context : Doc) : Option κ :=
  (cfg.dictToKv (keyFields cfg root).1 (keyFields cfg root).2 context).toOption

/-- Two contexts with one key. -/
def SameKey (root : String) (c c' : Doc) : Prop :=
  ∃ k, rowKey cfg root c = some k ∧ rowKey cfg root c' = some k

omit [DecidableEq κ] in
theorem SameKey.symm {root : String} {c c' : Doc} (h : SameKey cfg root c c') :
    SameKey cfg root c' c := by
  obtain ⟨k, hk, hk'⟩ := h
  exact ⟨k, hk', hk⟩

/-- **At most one live row for each key**, in the table `root` and its partitions. -/
def UniqueKeys (root : String) (db : Db) : Prop :=
  ∀ r ∈ db.rows, ∀ r' ∈ db.rows, db.schema.parent r.table = root →
    db.schema.parent r'.table = root → SameKey cfg root r.context r'.context → r.id = r'.id

/-- `save` writes no row whose key another live row of the table has: neither where the cache
has no row for the key, nor over the one row found. -/
structure FreshWrite (root : String) (m : ItemMeta) (s : Storer κ) (w : Saving κ) : Prop where
  insert : w.docs = [] → ∀ r ∈ s.db.rows, s.db.schema.parent r.table = root →
    ¬ SameKey cfg root r.context w.context
  update : ∀ doc c, overwrite cfg m w = some (doc, c) →
    ∀ r₀ ∈ s.db.rows, s.db.isIn w.table r₀ → r₀.id = doc.id →
    ∀ r ∈ s.db.rows, s.db.schema.parent r.table = root → r.id ≠ doc.id →
      ¬ SameKey cfg root r.context c.context

/-- The step is no `save` into the table, or one that writes fresh keys. -/
def FreshKeys (root : String) (s : Storer κ) : Event → Prop
  | .save _ m ctx data => ∀ w, saving cfg m ctx data s = some w →
      s.db.schema.parent w.table = root → FreshWrite cfg root m s w
  | _ => True

section Db

variable {db : Db} {root : String}

omit [DecidableEq κ] in
/-- Inserting a row keeps the keys unique just when its key is new. -/
theorem uniqueKeys_insert (hwf : db.WellFormed) (hu : UniqueKeys cfg root db) {t : String}
    (ht : db.schema.parent t = root) (time : Int) (context data : Doc) :
    UniqueKeys cfg root (db.insert t time context data)
      ↔ ∀ r ∈ db.rows, db.schema.parent r.table = root → ¬ SameKey cfg root r.context context := by
  have hnew : ∀ r ∈ db.rows, db.schema.parent r.table = root → r.id ≠ db.serial root := by
    intro r hr hroot hc
    have hlt := hwf.fresh r hr
    rw [hroot] at hlt
    omega
  have hmem : ∀ r, r ∈ (db.insert t time context data).rows ↔ r ∈ db.rows
      ∨ r = ⟨db.serial (db.schema.parent t), time, time, context, data, t⟩ := by
    intro r
    show r ∈ db.rows ++ [_] ↔ _
    rw [List.mem_append, List.mem_singleton]
  constructor
  · intro h r hr hroot hkey
    have hid := h r ((hmem r).mpr (Or.inl hr)) _ ((hmem _).mpr (Or.inr rfl)) hroot ht hkey
    rw [ht] at hid
    exact hnew r hr hroot hid
  · intro h r hr r' hr' hroot hroot' hkey
    rcases (hmem r).mp hr with hr | rfl
    · rcases (hmem r').mp hr' with hr' | rfl
      · exact hu r hr r' hr' hroot hroot' hkey
      · exact absurd hkey (h r hr hroot)
    · rcases (hmem r').mp hr' with hr' | rfl
      · exact absurd (SameKey.symm cfg hkey) (h r' hr' hroot')
      · rfl

omit [DecidableEq κ] in
/-- Writing over a row keeps the keys unique just when no other row has the new key. -/
theorem uniqueKeys_updateItem (hu : UniqueKeys cfg root db) {t : String}
    (ht : db.schema.parent t = root) (id : Nat) (time : Int) (context data : Doc) (u : Bool) :
    UniqueKeys cfg root (db.updateItem t id time context data u)
      ↔ ∀ r₀ ∈ db.rows, db.isIn t r₀ → r₀.id = id → ∀ r ∈ db.rows,
        db.schema.parent r.table = root → r.id ≠ id → ¬ SameKey cfg root r.context context := by
  set f : Row → Row := fun r =>
    if db.isIn t r ∧ r.id = id then r.write time context data u else r with hf
  have hhit : ∀ r, db.isIn t r → r.id = id → f r = r.write time context data u := by
    intro r hin hid
    rw [hf]
    exact if_pos ⟨hin, hid⟩
  have hmiss : ∀ r, r.id ≠ id → f r = r := by
    intro r hid
    rw [hf]
    exact if_neg (fun hc => hid hc.2)
  have hfid : ∀ r, (f r).id = r.id := by
    intro r
    rw [hf]
    simp only
    split_ifs <;> rfl
  have hftable : ∀ r, (f r).table = r.table := by
    intro r
    rw [hf]
    simp only
    split_ifs <;> rfl
  constructor
  · intro h r₀ hr₀ hin hid r hr hroot hne hkey
    have heq := h (f r) (List.mem_map_of_mem hr) (f r₀) (List.mem_map_of_mem hr₀)
      (by rw [hftable]; exact hroot)
      (by rw [hftable]; exact (Db.parent_of_isIn hin).trans ht)
      (by rw [hmiss r hne, hhit r₀ hin hid]; exact hkey)
    rw [hfid, hfid, hid] at heq
    exact hne heq
  · intro h r' hr' r'' hr'' hroot' hroot'' hkey
    obtain ⟨r, hr, rfl⟩ := List.mem_map.mp hr'
    obtain ⟨q, hq, rfl⟩ := List.mem_map.mp hr''
    change db.schema.parent (f r).table = root at hroot'
    change db.schema.parent (f q).table = root at hroot''
    change SameKey cfg root (f r).context (f q).context at hkey
    rw [hftable] at hroot' hroot''
    show (f r).id = (f q).id
    rw [hfid, hfid]
    -- either row may be the one written over
    have hother : ∀ r₁ ∈ db.rows, ∀ r₂ ∈ db.rows, db.schema.parent r₁.table = root →
        db.schema.parent r₂.table = root → db.isIn t r₁ → r₁.id = id → r₁.id ≠ r₂.id →
        ¬ SameKey cfg root (f r₂).context (f r₁).context := by
      intro r₁ hr₁ r₂ hr₂ _ hroot₂ hin hid hne
      have hne' : r₂.id ≠ id := fun hc => hne (hid.trans hc.symm)
      rw [hhit r₁ hin hid, hmiss r₂ hne']
      exact h r₁ hr₁ hin hid r₂ hr₂ hroot₂ hne'
    by_contra hne
    by_cases hr₁ : db.isIn t r ∧ r.id = id
    · exact hother r hr q hq hroot' hroot'' hr₁.1 hr₁.2 hne (SameKey.symm cfg hkey)
    · by_cases hq₁ : db.isIn t q ∧ q.id = id
      · exact hother q hq r hr hroot'' hroot' hq₁.1 hq₁.2 (fun hc => hne hc.symm) hkey
      · have hfr : f r = r := by rw [hf]; exact if_neg hr₁
        have hfq : f q = q := by rw [hf]; exact if_neg hq₁
        rw [hfr, hfq] at hkey
        exact hne (hu r hr q hq hroot' hroot'' hkey)

omit [DecidableEq κ] in
/-- Rows of other tables do not matter. -/
theorem UniqueKeys.congr (hu : UniqueKeys cfg root db) {db' : Db}
    (hschema : db'.schema = db.schema)
    (hrows : ∀ r ∈ db'.rows, db.schema.parent r.table = root →
      ∃ r₀ ∈ db.rows, r₀.table = r.table ∧ r₀.id = r.id ∧ r₀.context = r.context) :
    UniqueKeys cfg root db' := by
  intro r hr r' hr' hroot hroot' hkey
  rw [hschema] at hroot hroot'
  obtain ⟨q, hq, htable, hid, hctx⟩ := hrows r hr hroot
  obtain ⟨q', hq', htable', hid', hctx'⟩ := hrows r' hr' hroot'
  rw [← hid, ← hid']
  rw [← htable] at hroot
  rw [← htable'] at hroot'
  rw [← hctx, ← hctx'] at hkey
  exact hu q hq q' hq' hroot hroot' hkey

end Db

/-- Only `save` changes contexts or adds rows. -/
theorem exists_same_of_not_save {s : Storer κ} {e : Event}
    (he : ∀ time m ctx data, e ≠ .save time m ctx data) {r' : Row}
    (hr' : r' ∈ (step cfg s e).db.rows) :
    ∃ r ∈ s.db.rows, r.table = r'.table ∧ r.id = r'.id ∧ r.context = r'.context := by
  cases e with
  | preMsg msg =>
    have hdb : (step cfg s (.preMsg msg)).db = s.db := preMsgProcess_db cfg msg s
    rw [hdb] at hr'
    exact ⟨r', hr', rfl, rfl, rfl⟩
  | preBulk m context data =>
    have hdb : (step cfg s (.preBulk m context data)).db = s.db :=
      preBulkProcess_db cfg m context data s
    rw [hdb] at hr'
    exact ⟨r', hr', rfl, rfl, rfl⟩
  | save time m ctx data => exact absurd rfl (he time m ctx data)
  | postBulk time =>
    have hdb := postBulkProcess_db time s
    rcases hdb with hdb | ⟨table, -, -, hdb⟩
    · change r' ∈ (postBulkProcess time s).2.db.rows at hr'
      rw [hdb] at hr'
      exact ⟨r', hr', rfl, rfl, rfl⟩
    · change r' ∈ (postBulkProcess time s).2.db.rows at hr'
      rw [hdb] at hr'
      obtain ⟨r, hr, rfl⟩ := List.mem_map.mp hr'
      refine ⟨r, hr, ?_⟩
      split_ifs <;> exact ⟨rfl, rfl, rfl⟩
  | postMsg o =>
    change r' ∈ (postMsgProcess o s).db.rows at hr'
    rw [postMsgProcess_db, foldl_replay_rows] at hr'
    obtain ⟨r, hr, rfl⟩ := List.mem_map.mp hr'
    refine ⟨r, ?_, rfl, rfl, rfl⟩
    unfold afterDelete at hr
    split_ifs at hr
    · exact hr
    · exact List.mem_of_mem_filter hr

/-- **One step keeps the keys unique exactly when it writes fresh keys.** -/
theorem uniqueKeys_step {root : String} {s : Storer κ} (hwf : s.db.WellFormed)
    (hu : UniqueKeys cfg root s.db) (e : Event) :
    UniqueKeys cfg root (step cfg s e).db ↔ FreshKeys cfg root s e := by
  have hother : (∀ time m ctx data, e ≠ .save time m ctx data) →
      UniqueKeys cfg root (step cfg s e).db := fun he =>
    hu.congr cfg (keeps_step cfg s e).schema_eq
      (fun r' hr' _ => exists_same_of_not_save cfg he hr')
  cases e with
  | save time m ctx data =>
    have hstep : step cfg s (.save time m ctx data) = (save cfg time m ctx data s).2 := rfl
    unfold FreshKeys
    rw [hstep, save_eq]
    cases hw : saving cfg m ctx data s with
    | none => exact ⟨fun _ w h => (by rw [hw] at h; cases h), fun _ => hu⟩
    | some w =>
      simp only
      have hfresh : (∀ w', saving cfg m ctx data s = some w' →
            s.db.schema.parent w'.table = root → FreshWrite cfg root m s w')
          ↔ (s.db.schema.parent w.table = root → FreshWrite cfg root m s w) := by
        rw [hw]
        constructor
        · exact fun h => h w rfl
        · intro h w' hw'
          cases hw'
          exact h
      rw [hfresh]
      have hschema : (store cfg time m w.table w.docs w.context w.data s).db.schema
          = s.db.schema := (keeps_store cfg time m w.table w.docs w.context w.data s).schema_eq
      -- unique keys depend on the schema and the rows only
      have hrows : ∀ db : Db, db.schema = s.db.schema →
          (store cfg time m w.table w.docs w.context w.data s).db.rows = db.rows →
          (UniqueKeys cfg root (store cfg time m w.table w.docs w.context w.data s).db
            ↔ UniqueKeys cfg root db) := by
        intro db hdb h
        unfold UniqueKeys
        rw [h, hschema, hdb]
      -- the three outcomes of a store: a new row, none, or a row written over
      rcases store_rows cfg time m w s with
        ⟨hdocs, h⟩ | ⟨hdocs, hover, h⟩ | ⟨doc, c, u, hover, h⟩
      · rw [hrows (s.db.insert w.table time w.context w.data) rfl h]
        have hover : overwrite cfg m w = none := by unfold overwrite; rw [hdocs]
        by_cases ht : s.db.schema.parent w.table = root
        · rw [uniqueKeys_insert cfg hwf hu ht]
          refine ⟨fun h' _ => ⟨fun _ => h', fun doc c hc => ?_⟩, fun h' => (h' ht).insert hdocs⟩
          rw [hover] at hc
          cases hc
        · refine ⟨fun _ hc => absurd hc ht, fun _ => hu.congr cfg rfl (fun r hr hroot => ?_)⟩
          rcases List.mem_append.mp hr with hr | hr
          · exact ⟨r, hr, rfl, rfl, rfl⟩
          · rw [List.mem_singleton.mp hr] at hroot
            exact absurd hroot ht
      · rw [hrows s.db rfl h]
        refine ⟨fun _ _ => ⟨fun hc => absurd hc hdocs, fun doc c hc => ?_⟩, fun _ => hu⟩
        rw [hover] at hc
        cases hc
      · rw [hrows (s.db.updateItem w.table doc.id time c.context c.data u) rfl h]
        have hdocs : w.docs ≠ [] := by
          intro hc
          unfold overwrite at hover
          rw [hc] at hover
          cases hover
        by_cases ht : s.db.schema.parent w.table = root
        · rw [uniqueKeys_updateItem cfg hu ht]
          refine ⟨fun h' _ => ⟨fun hc => absurd hc hdocs, fun doc' c' hc => ?_⟩,
            fun h' => (h' ht).update doc c hover⟩
          rw [hover] at hc
          cases hc
          exact h'
        · refine ⟨fun _ hc => absurd hc ht, fun _ => hu.congr cfg rfl (fun r hr hroot => ?_)⟩
          obtain ⟨r₀, hr₀, rfl⟩ := List.mem_map.mp hr
          refine ⟨r₀, hr₀, ?_⟩
          split_ifs at hroot ⊢ with hit
          · exact absurd ((Db.parent_of_isIn hit.1).symm.trans hroot) ht
          · exact ⟨rfl, rfl, rfl⟩
  | preMsg msg => exact ⟨fun _ => trivial, fun _ => hother (by simp)⟩
  | preBulk m context data => exact ⟨fun _ => trivial, fun _ => hother (by simp)⟩
  | postBulk time => exact ⟨fun _ => trivial, fun _ => hother (by simp)⟩
  | postMsg o => exact ⟨fun _ => trivial, fun _ => hother (by simp)⟩

/-- **Uniqueness of live rows**: a run from a table with unique keys keeps them unique in every
state exactly when each of its steps writes fresh keys. -/
theorem uniqueKeys_iff {root : String} {s : Storer κ} (hwf : s.db.WellFormed)
    (hu : UniqueKeys cfg root s.db) (es : List Event) :
    Run.Always (step cfg) (fun s => UniqueKeys cfg root s.db) s es
      ↔ Run.Along (step cfg) (FreshKeys cfg root) s es :=
  Run.always_iff_along (J := fun s : Storer κ => s.db.WellFormed)
    (fun s e h => step_wellFormed cfg s e h) (fun _ e hwf hu => uniqueKeys_step cfg hwf hu e)
    hwf hu

/-- Two items of one message for a port that has no row yet. -/
def newPortBatches : List Batch :=
  [⟨[portMessage], [portRound 100 [Dict.ofList [("errors", .int 1)],
    Dict.ofList [("errors", .int 2)]]], IterOrder.stored⟩]

/-- The row of one port. -/
def firstPortRow : Row :=
  ⟨1, 50, 50, flatten portContext, flatten (Dict.ofList [("errors", .int 0)]), "ports__status"⟩

/-- Two messages, the first one about a port that has a row, and the second one about another port
that has none. -/
def knownPortBatches : List Batch :=
  [⟨[portMessage], [portRound 100 [Dict.ofList [("errors", .int 1)]]], IterOrder.stored⟩,
    ⟨[portMessage], [{ portRound 200 [] with
      saves := [(Dict.ofList [("device", .str "rtr-core1"), ("port", .str "1/2")],
        Dict.ofList [("errors", .int 1)])] }], IterOrder.stored⟩]

theorem freshKeys_knownPort : Run.Along (step sampleConfig) (FreshKeys sampleConfig "ports__status")
    (sampleStorer [firstPortRow] 2)
    (batchesEvents sampleConfig knownPortBatches (sampleStorer [firstPortRow] 2)) := by
  refine ⟨trivial, trivial, fun w hw _ => ?_, trivial, trivial, trivial, trivial,
    fun w hw _ => ?_, trivial, trivial, trivial⟩
  · -- the row that was there is written over
    obtain rfl : _ = w := Option.some.inj hw
    refine ⟨fun hdocs => (by cases hdocs), fun doc c hover r₀ hr₀ _ _ r hr _ hne => ?_⟩
    obtain rfl : firstPortRow = doc := congrArg Prod.fst (Option.some.inj hover)
    exact absurd (congrArg Row.id (List.mem_singleton.mp hr)) hne
  · -- the row of the first port has another key
    obtain rfl : _ = w := Option.some.inj hw
    refine ⟨fun _ r hr _ hsame => ?_, fun doc c hover => (by cases hover)⟩
    obtain rfl := List.mem_singleton.mp hr
    obtain ⟨k, hk, hk'⟩ := hsame
    exact absurd (hk.trans hk'.symm) (by decide)

/-- The first port keeps its row, and the second one gets one. -/
theorem uniqueKeys_knownPort :
    Run.Always (step sampleConfig) (fun s => UniqueKeys sampleConfig "ports__status" s.db)
      (sampleStorer [firstPortRow] 2)
      (batchesEvents sampleConfig knownPortBatches (sampleStorer [firstPortRow] 2)) := by
  have hwf : (sampleStorer [firstPortRow] 2).db.WellFormed := by
    refine ⟨List.nodup_singleton _, fun r hr => ?_⟩
    rw [List.mem_singleton.mp hr]
    decide
  refine (uniqueKeys_iff sampleConfig hwf (fun r hr r' hr' _ _ _ => ?_) _).mpr freshKeys_knownPort
  rw [List.mem_singleton.mp hr, List.mem_singleton.mp hr']

/-- Both items are inserted. -/
theorem not_uniqueKeys_newPort :
    UniqueKeys sampleConfig "ports__status" (sampleStorer [] 1).db
      ∧ ¬ UniqueKeys sampleConfig "ports__status" (Run.run (step sampleConfig) (sampleStorer [] 1)
        (batchesEvents sampleConfig newPortBatches (sampleStorer [] 1))).db := by
  refine ⟨fun _ h => absurd h List.not_mem_nil, fun hu => ?_⟩
  have hid := hu
    ⟨1, 100, 100, flatten portContext, flatten (Dict.ofList [("errors", .int 1)]), "ports__status"⟩
    List.mem_cons_self
    ⟨2, 100, 100, flatten portContext, flatten (Dict.ofList [("errors", .int 2)]), "ports__status"⟩
    (List.mem_cons_of_mem _ List.mem_cons_self) rfl rfl ⟨_, rfl, rfl⟩
  cases hid

/-! ## Stamps -/

/-- **Stamps are kept by a step**: no live row is stamped earlier than it was. -/
def StampsKept (s : Storer κ) (e : Event) : Prop :=
  ∀ r ∈ s.db.rows, ∀ r' ∈ (step cfg s e).db.rows, s.db.rowId r = s.db.rowId r' →
    r.updatedAt ≤ r'.updatedAt

/-- The stamps that a step replays are no older than the rows they are for. -/
def StampsFresh (s : Storer κ) : Event → Prop
  | .postMsg o => ∀ p ∈ deferred o s.postMsgData, ∀ r ∈ (afterDelete s).rows,
      s.db.isIn p.1 r → r.id ∈ p.2.2 → r.updatedAt ≤ p.2.1
  | _ => True

/-- Nothing that is stored or deferred has a stamp after `t`. -/
structure StampedBy (t : Int) (s : Storer κ) : Prop where
  rows : ∀ r ∈ s.db.rows, r.updatedAt ≤ t
  deferred : ∀ p ∈ deferred IterOrder.stored s.postMsgData, p.2.1 ≤ t

omit [DecidableEq κ] in
theorem StampedBy.mono {t t' : Int} {s : Storer κ} (h : StampedBy t s) (ht : t ≤ t') :
    StampedBy t' s :=
  ⟨fun r hr => le_trans (h.rows r hr) ht, fun p hp => le_trans (h.deferred p hp) ht⟩

omit [DecidableEq κ] in
theorem StampedBy.deferred_le {t : Int} {s : Storer κ} (h : StampedBy t s) {o : IterOrder}
    {p : String × Int × List Nat} (hp : p ∈ Postgres.deferred o s.postMsgData) : p.2.1 ≤ t :=
  h.deferred p (mem_deferred.mpr (mem_deferred.mp hp))

omit [DecidableEq κ] in
theorem StampedBy.congr {t : Int} {s s' : Storer κ} (h : StampedBy t s) (hs : SameTables s s') :
    StampedBy t s' := by
  refine ⟨fun r hr => h.rows r ?_, fun p hp => h.deferred p ?_⟩
  · rwa [hs.1] at hr
  · rwa [hs.2] at hp

/-- The stamps after a call are those of before or its own time. -/
theorem stampedBy_step {t : Int} {s : Storer κ} (h : StampedBy t s) {e : Event}
    (he : ∀ t', e.time? = some t' → t ≤ t') : StampedBy (e.time?.getD t) (step cfg s e) := by
  cases e with
  | preMsg msg => exact h.congr (sameTables_preMsgProcess cfg msg s)
  | preBulk m context data => exact h.congr (sameTables_preBulkProcess cfg m context data s)
  | save time m ctx data =>
    have h' : StampedBy time s := h.mono (he time rfl)
    show StampedBy time (save cfg time m ctx data s).2
    rw [save_eq]
    cases saving cfg m ctx data s with
    | none => exact h'
    | some w =>
      refine ⟨fun r hr => ?_, fun p hp => ?_⟩
      · rcases store_rows cfg time m w s with ⟨-, hrows⟩ | ⟨-, -, hrows⟩ | ⟨doc, c, u, -, hrows⟩
        · rw [hrows] at hr
          rcases List.mem_append.mp hr with hr | hr
          · exact h'.rows r hr
          · rw [List.mem_singleton.mp hr]
        · rw [hrows] at hr
          exact h'.rows r hr
        · rw [hrows] at hr
          obtain ⟨r₀, hr₀, rfl⟩ := List.mem_map.mp hr
          split_ifs
          · exact le_refl time
          · exact h'.rows r₀ hr₀
      · have hpost : (store cfg time m w.table w.docs w.context w.data s).postMsgData
            = s.postMsgData := by
          unfold store
          rcases w.docs with _ | ⟨doc, _ | ⟨doc', docs⟩⟩
          · rfl
          · simp only
            rcases (changeOf cfg m.flags doc w.context w.data).difference with _ | _ | _ <;> rfl
          · rfl
        rw [hpost] at hp
        exact h'.deferred p hp
  | postBulk time =>
    have h' : StampedBy time s := h.mono (he time rfl)
    refine ⟨fun r hr => ?_, fun p hp => ?_⟩
    · change r ∈ (postBulkProcess time s).2.db.rows at hr
      rcases postBulkProcess_db time s with hdb | ⟨table, -, -, hdb⟩
      · rw [hdb] at hr
        exact h'.rows r hr
      · rw [hdb] at hr
        obtain ⟨r₀, hr₀, rfl⟩ := List.mem_map.mp hr
        split_ifs
        · exact le_refl time
        · exact h'.rows r₀ hr₀
    · change p ∈ deferred IterOrder.stored (postBulkProcess time s).2.postMsgData at hp
      have hpost : (postBulkProcess time s).2.postMsgData = s.postMsgData
          ∨ ∃ table, (postBulkProcess time s).2.postMsgData
            = deferIds table time s.updateIds s.postMsgData := by
        unfold postBulkProcess
        split_ifs with hids hpost
        · exact Or.inl rfl
        · cases s.table with
          | none => exact Or.inl rfl
          | some table => exact Or.inr ⟨table, rfl⟩
        · cases s.table <;> exact Or.inl rfl
      rcases hpost with hpost | ⟨table, hpost⟩
      · rw [hpost] at hp
        exact h'.deferred p hp
      · rw [hpost] at hp
        rcases mem_deferred_deferIds hp with hp | ⟨-, htime⟩
        · exact h'.deferred p hp
        · exact le_of_eq htime
  | postMsg o =>
    have hpost : (postMsgProcess o s).postMsgData = s.postMsgData := by
      unfold postMsgProcess
      simp only
      split_ifs <;> rfl
    refine ⟨fun r hr => ?_, fun p hp => ?_⟩
    · change r ∈ (postMsgProcess o s).db.rows at hr
      rw [postMsgProcess_db, foldl_replay_rows] at hr
      obtain ⟨r₀, hr₀, rfl⟩ := List.mem_map.mp hr
      show lastStamp (afterDelete s) (deferred o s.postMsgData) r₀ ≤ t
      rcases lastStamp_mem (afterDelete s) (deferred o s.postMsgData) r₀ with
        hlast | ⟨p, hp, -, -, hlast⟩
      · rw [hlast]
        refine h.rows r₀ ?_
        unfold afterDelete at hr₀
        split_ifs at hr₀
        · exact hr₀
        · exact List.mem_of_mem_filter hr₀
      · rw [hlast]
        exact h.deferred_le hp
    · change p ∈ deferred IterOrder.stored (postMsgProcess o s).postMsgData at hp
      rw [hpost] at hp
      exact h.deferred p hp

/-- **One step stamps no row earlier**, if what it replays is fresh. -/
theorem stampsKept_step {t : Int} {s : Storer κ} (hwf : s.db.WellFormed) (h : StampedBy t s)
    {e : Event} (he : ∀ t', e.time? = some t' → t ≤ t') (hfresh : StampsFresh s e) :
    StampsKept cfg s e := by
  intro r hr r' hr' hid
  have hrt := h.rows r hr
  -- an event that stamps rows does so with its own time, a replay with the deferred one
  cases e with
  | preMsg msg =>
    have hdb : (step cfg s (.preMsg msg)).db = s.db := preMsgProcess_db cfg msg s
    rw [hdb] at hr'
    rw [hwf.eq_of_rowId hr hr' hid]
  | preBulk m context data =>
    have hdb : (step cfg s (.preBulk m context data)).db = s.db :=
      preBulkProcess_db cfg m context data s
    rw [hdb] at hr'
    rw [hwf.eq_of_rowId hr hr' hid]
  | save time m ctx data =>
    have htime := he time rfl
    change r' ∈ (save cfg time m ctx data s).2.db.rows at hr'
    rw [save_eq] at hr'
    cases hw : saving cfg m ctx data s with
    | none =>
      rw [hw] at hr'
      rw [hwf.eq_of_rowId hr hr' hid]
    | some w =>
      rw [hw] at hr'
      rcases store_later cfg hwf time m w hr hr' hid with rfl | ⟨doc, c, u, -, -, -, rfl⟩
      · exact le_refl _
      · show r.updatedAt ≤ time
        omega
  | postBulk time =>
    have htime := he time rfl
    rcases postBulkProcess_later hwf time hr hr' hid with rfl | ⟨table, -, -, rfl⟩
    · exact le_refl _
    · split_ifs
      · show r.updatedAt ≤ time
        omega
      · exact le_refl _
  | postMsg o =>
    obtain ⟨hdel, rfl⟩ := postMsgProcess_later hwf o hr hr' hid
    show r.updatedAt ≤ lastStamp s.db (deferred o s.postMsgData) r
    rcases lastStamp_mem s.db (deferred o s.postMsgData) r with hlast | ⟨p, hp, hin, hids, hlast⟩
    · rw [hlast]
    · rw [hlast]
      exact hfresh p hp r hdel hin hids

/-- **Monotone last-seen times**: in a run whose calls come in the order of their times, after
everything stored so far, no live row is stamped earlier than it was, if the stamps
replayed at the end of each batch are no older than the rows they are for.  This
holds for every order in which they are replayed. -/
theorem stampsKept_of_stampsFresh {t : Int} {s : Storer κ} (hwf : s.db.WellFormed)
    (hs : StampedBy t s) {es : List Event}
    (htimes : (t :: es.filterMap Event.time?).Pairwise (· ≤ ·))
    (hfresh : Run.Along (step cfg) StampsFresh s es) :
    Run.Along (step cfg) (StampsKept cfg) s es := by
  induction es generalizing s t with
  | nil => trivial
  | cons e es ih =>
    have he : ∀ t', e.time? = some t' → t ≤ t' := by
      intro t' ht'
      refine List.rel_of_pairwise_cons htimes ?_
      rw [List.filterMap_cons, ht']
      exact List.mem_cons_self
    refine ⟨stampsKept_step cfg hwf hs he hfresh.1,
      ih (step_wellFormed cfg s e hwf) (stampedBy_step cfg hs he) ?_ hfresh.2⟩
    rw [List.filterMap_cons] at htimes
    cases ht : e.time? with
    | none =>
      rw [ht] at htimes
      exact htimes
    | some t' =>
      rw [ht] at htimes
      exact (List.pairwise_cons.mp htimes).2

/-- A host is seen unchanged, and then at another port. -/
def movingHostBatches : List Batch :=
  [⟨[hostMessage], [hostRound 100 [Dict.ofList [("physical_port", .str "Gi1/0/20")]]],
      IterOrder.stored⟩,
    ⟨[hostMessage], [hostRound 200 [Dict.ofList [("physical_port", .str "Gi1/0/21")]]],
      IterOrder.stored⟩]

theorem stampedBy_hostRow : StampedBy 50 (sampleStorer [hostRow 50] 2) := by
  refine ⟨fun r hr => ?_, fun p hp => absurd hp List.not_mem_nil⟩
  have hr' : r ∈ [hostRow 50] := hr
  rw [List.mem_singleton.mp hr']
  exact le_refl _

/-- The stamps are kept while the host is only seen. -/
theorem stampsKept_seenHost :
    Run.Along (step sampleConfig) (StampsKept sampleConfig) (sampleStorer [hostRow 50] 2)
      (batchesEvents sampleConfig (movingHostBatches.take 1) (sampleStorer [hostRow 50] 2)) := by
  refine stampsKept_of_stampsFresh sampleConfig (wellFormed_hostRow 50) stampedBy_hostRow
    (by decide) ⟨trivial, trivial, trivial, trivial, fun p hp r hr _ _ => ?_, trivial⟩
  have hp' : p ∈ [("caching__hosts__mac_address15", (100 : Int), [1])] := hp
  have hr' : r ∈ [hostRow 50] := hr
  rw [List.mem_singleton.mp hp', List.mem_singleton.mp hr']
  decide

/-- When the host has moved, the stamp of the first batch is replayed over that of the
second, although the calls come in the order of their times. -/
theorem not_stampsKept_movingHost :
    ((batchesEvents sampleConfig movingHostBatches (sampleStorer [hostRow 50] 2)).filterMap
        Event.time?).Pairwise (· ≤ ·)
      ∧ ¬ Run.Along (step sampleConfig) (StampsKept sampleConfig) (sampleStorer [hostRow 50] 2)
        (batchesEvents sampleConfig movingHostBatches (sampleStorer [hostRow 50] 2)) := by
  refine ⟨by decide, fun h => ?_⟩
  have hcut : batchesEvents sampleConfig movingHostBatches (sampleStorer [hostRow 50] 2)
      = (batchesEvents sampleConfig movingHostBatches (sampleStorer [hostRow 50] 2)).take 9
        ++ [.postMsg IterOrder.stored] := rfl
  have hstep := h.at hcut
  have hle := hstep
    ((hostRow 50).write 200 (flatten hostContext)
      (flatten (Dict.ofList [("physical_port", .str "Gi1/0/21")])) true) List.mem_cons_self
    { (hostRow 50).write 200 (flatten hostContext)
      (flatten (Dict.ofList [("physical_port", .str "Gi1/0/21")])) true with updatedAt := 100 }
    List.mem_cons_self rfl
  exact absurd hle (by decide)

end Postgres
