/-
# What one call does to the tables

One spec lemma for each operation of `PostgresStorer`.  Only `save`,
`post_bulk_process` and `post_msg_process` write: `save` inserts a row, writes over
the one row found, or leaves the tables alone; the other two stamp or delete rows.
No call changes the identity of a row, and ids stay unique in each sequence
(`step_wellFormed`), so that a row of a later state is a later version of at most
one row of an earlier state.
-/
import Ptolemy.Postgres

namespace Postgres

variable {κ : Type} (cfg : Config κ)

/-! ## `save` -/

/-- What `save` has found out when it reaches its branches. -/
structure Saving (κ : Type) : Type where
  table : String
  key : κ
  docs : List Row
  context : Doc
  data : Doc

/-- The flags that make `save` write something else than the datum are unset. -/
structure Plain (flags : Flags) : Prop where
  ignoreData : flags.ignoreData = false
  mergeData : flags.mergeData = false
  mergeContext : flags.mergeContext = false

theorem changeOf_plain {flags : Flags} (h : Plain flags) (doc : Row) (context data : Doc) :
    changeOf cfg flags doc context data
      = ⟨different cfg.order doc.data data false, context, data, true⟩ := by
  unfold changeOf
  simp only [h.ignoreData, h.mergeData, h.mergeContext, Bool.false_eq_true, if_false]

/-! ## Identity of rows -/

namespace Db

/-- The sequence that a row's id comes from, and the id. -/
def rowId (db : Db) (r : Row) : String × Nat := (db.schema.parent r.table, r.id)

/-- Ids are given out once in each sequence. -/
structure WellFormed (db : Db) : Prop where
  nodup : (db.rows.map db.rowId).Nodup
  fresh : ∀ r ∈ db.rows, r.id < db.serial (db.schema.parent r.table)

/-- All rows that a statement on `t` reaches share one sequence, that of `t`. -/
theorem parent_of_isIn {db : Db} {t : String} {r : Row} (h : db.isIn t r = true) :
    db.schema.parent r.table = db.schema.parent t := by
  unfold isIn at h
  rcases Bool.or_eq_true_iff.mp h with h | h
  · rw [of_decide_eq_true h]
  · rw [← of_decide_eq_true h, db.schema.parent_parent]

variable {db : Db}

theorem WellFormed.eq_of_rowId (h : db.WellFormed) {r r' : Row} (hr : r ∈ db.rows)
    (hr' : r' ∈ db.rows) (hid : db.rowId r = db.rowId r') : r = r' :=
  List.inj_on_of_nodup_map h.nodup hr hr' hid

/-- Of the rows that a statement reaches, at most one has a given id. -/
theorem WellFormed.eq_of_isIn (h : db.WellFormed) {t : String} {r r' : Row} (hr : r ∈ db.rows)
    (hr' : r' ∈ db.rows) (ht : db.isIn t r = true) (ht' : db.isIn t r' = true)
    (hid : r.id = r'.id) : r = r' := by
  refine h.eq_of_rowId hr hr' ?_
  rw [rowId, rowId, parent_of_isIn ht, parent_of_isIn ht', hid]

/-- A change of rows that keeps their identity. -/
theorem WellFormed.map (h : db.WellFormed) {f : Row → Row} (hid : ∀ r, (f r).id = r.id)
    (htable : ∀ r, (f r).table = r.table) :
    WellFormed { db with rows := db.rows.map f } where
  nodup := by
    have hmap : (db.rows.map f).map db.rowId = db.rows.map db.rowId := by
      rw [List.map_map]
      apply List.map_congr_left
      intro r _
      show db.rowId (f r) = db.rowId r
      rw [rowId, rowId, hid, htable]
    show ((db.rows.map f).map db.rowId).Nodup
    rw [hmap]
    exact h.nodup
  fresh := by
    intro r hr
    obtain ⟨r₀, hr₀, rfl⟩ := List.mem_map.mp hr
    show (f r₀).id < db.serial (db.schema.parent (f r₀).table)
    rw [hid, htable]
    exact h.fresh r₀ hr₀

theorem WellFormed.updateItem (h : db.WellFormed) (t : String) (id : Nat) (time : Int)
    (context data : Doc) (u : Bool) : (db.updateItem t id time context data u).WellFormed := by
  refine h.map (fun r => ?_) (fun r => ?_)
  all_goals split_ifs <;> rfl

theorem WellFormed.bulkUpdate (h : db.WellFormed) (t : String) (time : Int) (ids : List Nat) :
    (db.bulkUpdate t time ids).WellFormed := by
  refine h.map (fun r => ?_) (fun r => ?_)
  all_goals split_ifs <;> rfl

theorem WellFormed.bulkDelete (h : db.WellFormed) (t : String) (ids : List Nat) :
    (db.bulkDelete t ids).WellFormed where
  nodup := h.nodup.sublist (List.filter_sublist.map _)
  fresh := fun r hr => h.fresh r (List.mem_of_mem_filter hr)

theorem WellFormed.archive (h : db.WellFormed) (t : String) (row : Row) (time : Int)
    (context data : Doc) : (db.archive t row time context data).WellFormed :=
  ⟨h.nodup, h.fresh⟩

theorem WellFormed.insert (h : db.WellFormed) (t : String) (time : Int) (context data : Doc) :
    (db.insert t time context data).WellFormed where
  nodup := by
    show ((db.rows ++ [_]).map db.rowId).Nodup
    rw [List.map_append, List.map_singleton, List.nodup_append]
    refine ⟨h.nodup, List.nodup_singleton _, ?_⟩
    intro i hi j hj heq
    rw [List.mem_singleton] at hj
    obtain ⟨r, hr, rfl⟩ := List.mem_map.mp hi
    -- an id given out earlier is below the next one
    rw [hj, rowId, rowId, Prod.mk.injEq] at heq
    have hlt := h.fresh r hr
    rw [heq.1, heq.2] at hlt
    exact absurd hlt (lt_irrefl _)
  fresh := by
    intro r hr
    show r.id < Function.update db.serial (db.schema.parent t) _ (db.schema.parent r.table)
    rcases List.mem_append.mp hr with hr | hr
    · have hlt := h.fresh r hr
      by_cases hp : db.schema.parent r.table = db.schema.parent t
      · rw [hp, Function.update_self]
        rw [hp] at hlt
        omega
      · rw [Function.update_of_ne hp]
        exact hlt
    · rw [List.mem_singleton.mp hr, Function.update_self]
      show db.serial _ < _
      omega

/-- After a change of rows that keeps their identity, a row is the changed former row. -/
theorem WellFormed.later_map (h : db.WellFormed) {f : Row → Row} (hid : ∀ r, (f r).id = r.id)
    (htable : ∀ r, (f r).table = r.table) {r r' : Row} (hr : r ∈ db.rows)
    (hr' : r' ∈ db.rows.map f) (heq : db.rowId r = db.rowId r') : r' = f r := by
  obtain ⟨r₀, hr₀, rfl⟩ := List.mem_map.mp hr'
  have hsame : r = r₀ := h.eq_of_rowId hr hr₀ (by rw [heq, rowId, rowId, hid, htable])
  rw [hsame]

/-- An inserted row is no later version of any row. -/
theorem WellFormed.later_insert (h : db.WellFormed) {t : String} {time : Int} {context data : Doc}
    {r r' : Row} (hr : r ∈ db.rows) (hr' : r' ∈ (db.insert t time context data).rows)
    (heq : db.rowId r = db.rowId r') : r' = r := by
  rcases List.mem_append.mp hr' with hr' | hr'
  · exact (h.eq_of_rowId hr hr' heq).symm
  · rw [List.mem_singleton] at hr'
    have hlt := h.fresh r hr
    rw [hr', rowId, rowId, Prod.mk.injEq] at heq
    rw [heq.1, heq.2] at hlt
    exact absurd hlt (lt_irrefl _)

theorem WellFormed.later_updateItem (h : db.WellFormed) {t : String} {id : Nat} {time : Int}
    {context data : Doc} {u : Bool} {r r' : Row} (hr : r ∈ db.rows)
    (hr' : r' ∈ (db.updateItem t id time context data u).rows) (heq : db.rowId r = db.rowId r') :
    r' = if db.isIn t r ∧ r.id = id then r.write time context data u else r :=
  h.later_map (f := fun r => if db.isIn t r ∧ r.id = id then r.write time context data u else r)
    (fun r => by split_ifs <;> rfl) (fun r => by split_ifs <;> rfl) hr hr' heq

theorem WellFormed.later_bulkUpdate (h : db.WellFormed) {t : String} {time : Int}
    {ids : List Nat} {r r' : Row} (hr : r ∈ db.rows)
    (hr' : r' ∈ (db.bulkUpdate t time ids).rows) (heq : db.rowId r = db.rowId r') :
    r' = if db.isIn t r ∧ r.id ∈ ids then { r with updatedAt := time } else r :=
  h.later_map (f := fun r => if db.isIn t r ∧ r.id ∈ ids then { r with updatedAt := time } else r)
    (fun r => by split_ifs <;> rfl) (fun r => by split_ifs <;> rfl) hr hr' heq

theorem WellFormed.foldl_replay (h : db.WellFormed) (l : List (String × Int × List Nat)) :
    (l.foldl replay db).WellFormed := by
  induction l generalizing db with
  | nil => exact h
  | cons p l ih => exact ih (h.bulkUpdate p.1 p.2.1 p.2.2)

end Db

/-! ## `store` and the three writing calls -/

/-- What `save` writes, by the rows found. -/
theorem store_db (time : Int) (m : ItemMeta) (table : String) (docs : List Row)
    (context data : Doc) (s : Storer κ) :
    (store cfg time m table docs context data s).db = match docs with
      | [] => s.db.insert table time context data
      | [doc] =>
        let c := changeOf cfg m.flags doc context data
        match c.difference with
        | some true => (s.db.archive (_tableName m.spec m.group ++ historyCollectionAppend)
            doc time c.context c.data).updateItem table doc.id time c.context c.data true
        | some false => s.db
        | none => s.db.updateItem table doc.id time c.context c.data c.updateCreatedAt
      | _ => s.db := by
  unfold store
  rcases docs with _ | ⟨doc, _ | ⟨doc', docs⟩⟩
  · rfl
  · simp only
    rcases (changeOf cfg m.flags doc context data).difference with _ | _ | _ <;> rfl
  · rfl

theorem store_wellFormed (time : Int) (m : ItemMeta) (table : String) (docs : List Row)
    (context data : Doc) {s : Storer κ} (h : s.db.WellFormed) :
    (store cfg time m table docs context data s).db.WellFormed := by
  rw [store_db]
  rcases docs with _ | ⟨doc, _ | ⟨doc', docs⟩⟩
  · exact h.insert table time context data
  · simp only
    rcases (changeOf cfg m.flags doc context data).difference with _ | _ | _
    · exact h.updateItem _ _ _ _ _ _
    · exact h
    · exact (h.archive _ _ _ _ _).updateItem _ _ _ _ _ _
  · exact h

theorem postBulkProcess_db (time : Int) (s : Storer κ) :
    (postBulkProcess time s).2.db = s.db
      ∨ ∃ table, s.table = some table ∧ s.postMsgProcessing = false
        ∧ (postBulkProcess time s).2.db = s.db.bulkUpdate table time s.updateIds := by
  unfold postBulkProcess
  split_ifs with hids hpost
  · exact Or.inl rfl
  · left
    cases s.table <;> rfl
  · cases ht : s.table with
    | none => exact Or.inl rfl
    | some table => exact Or.inr ⟨table, rfl, by simpa using hpost, rfl⟩

/-- The rows that `post_msg_process` leaves before it replays the deferred stamps. -/
def afterDelete (s : Storer κ) : Db :=
  if s.deleteIds.isEmpty then s.db else s.db.bulkDelete s.currentTableName s.deleteIds

theorem postMsgProcess_db (o : IterOrder) (s : Storer κ) :
    (postMsgProcess o s).db = (deferred o s.postMsgData).foldl replay (afterDelete s) := by
  unfold postMsgProcess afterDelete
  simp only
  split_ifs <;> rfl

theorem afterDelete_wellFormed {s : Storer κ} (h : s.db.WellFormed) :
    (afterDelete s).WellFormed := by
  unfold afterDelete
  split_ifs
  · exact h
  · exact h.bulkDelete _ _

/-! ## Replaying the deferred stamps -/

/-- The stamp of a row after the stamps `l` are replayed. -/
def lastStamp (db : Db) (l : List (String × Int × List Nat)) (r : Row) : Int :=
  l.foldl (fun t p => if db.isIn p.1 r ∧ r.id ∈ p.2.2 then p.2.1 else t) r.updatedAt

theorem foldl_replay_rows (db : Db) (l : List (String × Int × List Nat)) :
    (l.foldl replay db).rows = db.rows.map (fun r => { r with updatedAt := lastStamp db l r }) := by
  induction l generalizing db with
  | nil => exact (List.map_id _).symm
  | cons p l ih =>
    rw [List.foldl_cons, ih]
    show (db.rows.map _).map _ = _
    rw [List.map_map]
    apply List.map_congr_left
    intro r _
    show _ = { r with updatedAt := lastStamp db (p :: l) r }
    unfold lastStamp
    rw [List.foldl_cons]
    by_cases h : db.isIn p.1 r ∧ r.id ∈ p.2.2
    · simp only [Function.comp, if_pos h]
      rfl
    · simp only [Function.comp, if_neg h]
      rfl

/-- The deferred stamps, whatever the order. -/
theorem mem_deferred {o : IterOrder} {d : Dict String (Dict Int (List Nat))}
    {p : String × Int × List Nat} :
    p ∈ deferred o d ↔ ∃ times, d.lookup p.1 = some times ∧ times.lookup p.2.1 = some p.2.2 := by
  obtain ⟨table, time, ids⟩ := p
  unfold deferred
  simp only [List.mem_flatMap, List.mem_map, IterOrder.mem_order]
  constructor
  · rintro ⟨⟨table', times⟩, htable, ⟨time', ids'⟩, htime, heq⟩
    cases heq
    exact ⟨times, Dict.mem_items.mp htable, Dict.mem_items.mp htime⟩
  · rintro ⟨times, htable, htime⟩
    exact ⟨(table, times), Dict.mem_items.mpr htable, (time, ids), Dict.mem_items.mpr htime, rfl⟩

/-- A stamp deferred after `deferIds` was so before, or it is for the new time. -/
theorem mem_deferred_deferIds {o : IterOrder} {table : String} {time : Int} {ids : List Nat}
    {d : Dict String (Dict Int (List Nat))} {p : String × Int × List Nat}
    (hp : p ∈ deferred o (deferIds table time ids d)) :
    p ∈ deferred o d ∨ (p.1 = table ∧ p.2.1 = time) := by
  obtain ⟨times, htable, htime⟩ := mem_deferred.mp hp
  unfold deferIds at htable
  rw [Dict.lookup_insert_eq] at htable
  split_ifs at htable with ht
  · cases htable
    rw [Dict.lookup_insert_eq] at htime
    split_ifs at htime with hq
    · exact Or.inr ⟨ht, hq⟩
    · cases hd : d.lookup table with
      | none =>
        rw [hd] at htime
        cases htime
      | some times =>
        rw [hd] at htime
        exact Or.inl (mem_deferred.mpr ⟨times, ht ▸ hd, htime⟩)
  · exact Or.inl (mem_deferred.mpr ⟨times, htable, htime⟩)

/-- The stamp that remains is the old one or one of those replayed for the row. -/
theorem lastStamp_mem (db : Db) (l : List (String × Int × List Nat)) (r : Row) :
    lastStamp db l r = r.updatedAt
      ∨ ∃ p ∈ l, db.isIn p.1 r ∧ r.id ∈ p.2.2 ∧ lastStamp db l r = p.2.1 := by
  unfold lastStamp
  induction l using List.reverseRecOn with
  | nil => exact Or.inl rfl
  | append_singleton l p ih =>
    rw [List.foldl_append, List.foldl_cons, List.foldl_nil]
    by_cases h : db.isIn p.1 r ∧ r.id ∈ p.2.2
    · rw [if_pos h]
      exact Or.inr ⟨p, by simp, h.1, h.2, rfl⟩
    · rw [if_neg h]
      rcases ih with ih | ⟨q, hq, hin, hid, heq⟩
      · exact Or.inl ih
      · exact Or.inr ⟨q, List.mem_append_left _ hq, hin, hid, heq⟩

/-- What a row has become after `post_msg_process`: it was not deleted, and it has the last
stamp replayed for it. -/
theorem postMsgProcess_later {s : Storer κ} (hwf : s.db.WellFormed) (o : IterOrder) {r r' : Row}
    (hr : r ∈ s.db.rows) (hr' : r' ∈ (postMsgProcess o s).db.rows)
    (heq : s.db.rowId r = s.db.rowId r') :
    r ∈ (afterDelete s).rows
      ∧ r' = { r with updatedAt := lastStamp s.db (deferred o s.postMsgData) r } := by
  rw [postMsgProcess_db, foldl_replay_rows] at hr'
  obtain ⟨r₀, hr₀, rfl⟩ := List.mem_map.mp hr'
  have hschema : (afterDelete s).schema = s.db.schema := by
    unfold afterDelete
    split_ifs <;> rfl
  have hmem : r₀ ∈ s.db.rows := by
    unfold afterDelete at hr₀
    split_ifs at hr₀
    · exact hr₀
    · exact List.mem_of_mem_filter hr₀
  have hsame : r = r₀ := hwf.eq_of_rowId hr hmem heq
  subst hsame
  refine ⟨hr₀, ?_⟩
  have hstamp : lastStamp (afterDelete s) (deferred o s.postMsgData) r
      = lastStamp s.db (deferred o s.postMsgData) r := by
    unfold lastStamp Db.isIn
    rw [hschema]
  rw [hstamp]

/-- What a row has become after `post_bulk_process`. -/
theorem postBulkProcess_later {s : Storer κ} (hwf : s.db.WellFormed) (time : Int) {r r' : Row}
    (hr : r ∈ s.db.rows) (hr' : r' ∈ (postBulkProcess time s).2.db.rows)
    (heq : s.db.rowId r = s.db.rowId r') :
    r' = r ∨ ∃ table, s.table = some table ∧ s.postMsgProcessing = false
      ∧ r' = if s.db.isIn table r ∧ r.id ∈ s.updateIds then { r with updatedAt := time }
        else r := by
  rcases postBulkProcess_db time s with h | ⟨table, ht, hp, h⟩
  · rw [h] at hr'
    exact Or.inl (hwf.eq_of_rowId hr hr' heq).symm
  · rw [h] at hr'
    exact Or.inr ⟨table, ht, hp, hwf.later_bulkUpdate hr hr' heq⟩

/-! ## What a row becomes, and what no statement undoes -/

/-- The row and the change that `save` makes of it, where it writes over one. -/
def overwrite (m : ItemMeta) (w : Saving κ) : Option (Row × Change) :=
  match w.docs with
  | [doc] => if (changeOf cfg m.flags doc w.context w.data).difference = some false then none
      else some (doc, changeOf cfg m.flags doc w.context w.data)
  | _ => none

/-- **What `save` does to the rows**: it inserts one, writes over the one it found, or leaves
them as they are. -/
theorem store_rows (time : Int) (m : ItemMeta) (w : Saving κ) (s : Storer κ) :
    (w.docs = [] ∧ (store cfg time m w.table w.docs w.context w.data s).db.rows
        = (s.db.insert w.table time w.context w.data).rows)
      ∨ (w.docs ≠ [] ∧ overwrite cfg m w = none
        ∧ (store cfg time m w.table w.docs w.context w.data s).db.rows = s.db.rows)
      ∨ ∃ doc c u, overwrite cfg m w = some (doc, c)
        ∧ (store cfg time m w.table w.docs w.context w.data s).db.rows
          = (s.db.updateItem w.table doc.id time c.context c.data u).rows := by
  rw [store_db]
  unfold overwrite
  rcases w.docs with _ | ⟨doc, _ | ⟨doc', docs⟩⟩
  · exact Or.inl ⟨rfl, rfl⟩
  · right
    simp only
    rcases hd : (changeOf cfg m.flags doc w.context w.data).difference with _ | _ | _
    · rw [if_neg (by simp)]
      exact Or.inr ⟨doc, _, _, rfl, rfl⟩
    · rw [if_pos rfl]
      exact Or.inl ⟨List.cons_ne_nil _ _, rfl, rfl⟩
    · rw [if_neg (by simp)]
      exact Or.inr ⟨doc, _, true, rfl, rfl⟩
  · exact Or.inr (Or.inl ⟨List.cons_ne_nil _ _, rfl, rfl⟩)

/-- What a row has become after `save`: it is written over where `save` found it, and stays
as it is otherwise. -/
theorem store_later {s : Storer κ} (hwf : s.db.WellFormed) (time : Int) (m : ItemMeta)
    (w : Saving κ) {r r' : Row} (hr : r ∈ s.db.rows)
    (hr' : r' ∈ (store cfg time m w.table w.docs w.context w.data s).db.rows)
    (heq : s.db.rowId r = s.db.rowId r') :
    r' = r ∨ ∃ doc c u, overwrite cfg m w = some (doc, c) ∧ s.db.isIn w.table r ∧ r.id = doc.id
      ∧ r' = r.write time c.context c.data u := by
  rcases store_rows cfg time m w s with ⟨-, hrows⟩ | ⟨-, -, hrows⟩ | ⟨doc, c, u, hover, hrows⟩
  · rw [hrows] at hr'
    exact Or.inl (hwf.later_insert hr hr' heq)
  · rw [hrows] at hr'
    exact Or.inl (hwf.eq_of_rowId hr hr' heq).symm
  · rw [hrows] at hr'
    have hlater := hwf.later_updateItem hr hr' heq
    by_cases hit : s.db.isIn w.table r ∧ r.id = doc.id
    · rw [if_pos hit] at hlater
      exact Or.inr ⟨doc, c, u, hover, hit.1, hit.2, hlater⟩
    · rw [if_neg hit] at hlater
      exact Or.inl hlater

/-- What no statement undoes: the schema, the rows of the history tables and the ids given
out.  A row is a later version of a former one, or its id is new. -/
structure Db.Keeps (db db' : Db) : Prop where
  schema_eq : db'.schema = db.schema
  history_sub : ∀ h ∈ db.history, h ∈ db'.history
  serial_le : ∀ t, db.serial t ≤ db'.serial t
  origin : ∀ r' ∈ db'.rows, (∃ r ∈ db.rows, db.rowId r = db.rowId r')
    ∨ db.serial (db.schema.parent r'.table) ≤ r'.id

namespace Db.Keeps

theorem refl (db : Db) : db.Keeps db :=
  ⟨rfl, fun _ h => h, fun _ => le_refl _, fun r' hr' => Or.inl ⟨r', hr', rfl⟩⟩

theorem trans {a b c : Db} (h : a.Keeps b) (h' : b.Keeps c) : a.Keeps c where
  schema_eq := h'.schema_eq.trans h.schema_eq
  history_sub := fun r hr => h'.history_sub r (h.history_sub r hr)
  serial_le := fun t => le_trans (h.serial_le t) (h'.serial_le t)
  origin := by
    intro r' hr'
    rcases h'.origin r' hr' with ⟨r, hr, heq⟩ | hnew
    · rw [rowId, rowId, Prod.mk.injEq, h.schema_eq] at heq
      rcases h.origin r hr with ⟨r₀, hr₀, heq₀⟩ | hnew
      · refine Or.inl ⟨r₀, hr₀, heq₀.trans ?_⟩
        rw [rowId, rowId, heq.1, heq.2]
      · rw [heq.1, heq.2] at hnew
        exact Or.inr hnew
    · rw [h.schema_eq] at hnew
      exact Or.inr (le_trans (h.serial_le _) hnew)

theorem map {db : Db} {f : Row → Row} (hid : ∀ r, (f r).id = r.id)
    (htable : ∀ r, (f r).table = r.table) : db.Keeps { db with rows := db.rows.map f } := by
  refine ⟨rfl, fun _ h => h, fun _ => le_refl _, fun r' hr' => Or.inl ?_⟩
  obtain ⟨r, hr, rfl⟩ := List.mem_map.mp hr'
  exact ⟨r, hr, by rw [rowId, rowId, hid, htable]⟩

theorem updateItem (db : Db) (t : String) (id : Nat) (time : Int) (context data : Doc)
    (u : Bool) : db.Keeps (db.updateItem t id time context data u) :=
  map (fun r => by split_ifs <;> rfl) (fun r => by split_ifs <;> rfl)

theorem bulkUpdate (db : Db) (t : String) (time : Int) (ids : List Nat) :
    db.Keeps (db.bulkUpdate t time ids) :=
  map (fun r => by split_ifs <;> rfl) (fun r => by split_ifs <;> rfl)

theorem bulkDelete (db : Db) (t : String) (ids : List Nat) : db.Keeps (db.bulkDelete t ids) :=
  ⟨rfl, fun _ h => h, fun _ => le_refl _,
    fun r' hr' => Or.inl ⟨r', List.mem_of_mem_filter hr', rfl⟩⟩

theorem archive (db : Db) (t : String) (row : Row) (time : Int) (context data : Doc) :
    db.Keeps (db.archive t row time context data) :=
  ⟨rfl, fun _ h => List.mem_append_left _ h, fun _ => le_refl _,
    fun r' hr' => Or.inl ⟨r', hr', rfl⟩⟩

theorem insert (db : Db) (t : String) (time : Int) (context data : Doc) :
    db.Keeps (db.insert t time context data) := by
  refine ⟨rfl, fun _ h => h, fun t' => ?_, fun r' hr' => ?_⟩
  · show db.serial t' ≤ Function.update db.serial (db.schema.parent t) _ t'
    by_cases h : t' = db.schema.parent t
    · rw [h, Function.update_self]
      omega
    · rw [Function.update_of_ne h]
  · rcases List.mem_append.mp hr' with hr' | hr'
    · exact Or.inl ⟨r', hr', rfl⟩
    · rw [List.mem_singleton] at hr'
      rw [hr']
      exact Or.inr (le_refl _)

theorem foldl_replay (db : Db) (l : List (String × Int × List Nat)) :
    db.Keeps (l.foldl replay db) := by
  induction l generalizing db with
  | nil => exact refl db
  | cons p l ih => exact (bulkUpdate db p.1 p.2.1 p.2.2).trans (ih (replay db p))

end Db.Keeps

theorem keeps_store (time : Int) (m : ItemMeta) (table : String) (docs : List Row)
    (context data : Doc) (s : Storer κ) :
    s.db.Keeps (store cfg time m table docs context data s).db := by
  rw [store_db]
  rcases docs with _ | ⟨doc, _ | ⟨doc', docs⟩⟩
  · exact .insert s.db table time context data
  · simp only
    rcases (changeOf cfg m.flags doc context data).difference with _ | _ | _
    · exact .updateItem s.db _ _ _ _ _ _
    · exact .refl s.db
    · exact (Db.Keeps.archive s.db _ _ _ _ _).trans (.updateItem _ _ _ _ _ _ _)
  · exact .refl s.db

theorem keeps_afterDelete (s : Storer κ) : s.db.Keeps (afterDelete s) := by
  unfold afterDelete
  split_ifs
  · exact .refl s.db
  · exact .bulkDelete s.db _ _

/-! ## All calls -/

/-- The parts of a storer that `pre_msg_process` and `pre_bulk_process` leave alone. -/
def SameTables (s s' : Storer κ) : Prop := s'.db = s.db ∧ s'.postMsgData = s.postMsgData

theorem SameTables.refl (s : Storer κ) : SameTables s s := ⟨rfl, rfl⟩

theorem sameTables_foldl {α : Type} {f : Storer κ → α → Storer κ}
    (hf : ∀ s a, SameTables s (f s a)) (l : List α) (s : Storer κ) :
    SameTables s (l.foldl f s) := by
  induction l generalizing s with
  | nil => exact .refl s
  | cons a l ih =>
    have h := hf s a
    have hl := ih (f s a)
    exact ⟨hl.1.trans h.1, hl.2.trans h.2⟩

section Step

variable [DecidableEq κ]

/-- What `save` finds out; nothing where it raises. -/
def saving (m : ItemMeta) (ctx : Context) (data : Item) (s : Storer κ) : Option (Saving κ) :=
  match checkSubnet cfg m (flatten ctx),
      cfg.dictToKv s.contextFields s.contextFieldsMissingOk (flatten ctx), s.table with
  | .ok (), .ok key, some table =>
    let p := delayContext m.flags.delayedContext (flatten ctx) (flatten data)
    some ⟨table, key, (s.cache.lookup key).getD [], p.1, p.2⟩
  | _, _, _ => none

theorem save_eq (time : Int) (m : ItemMeta) (ctx : Context) (data : Item) (s : Storer κ) :
    (save cfg time m ctx data s).2 = match saving cfg m ctx data s with
      | some w => store cfg time m w.table w.docs w.context w.data s
      | none => s := by
  unfold save saving
  cases checkSubnet cfg m (flatten ctx) with
  | error e => rfl
  | ok u =>
    cases cfg.dictToKv s.contextFields s.contextFieldsMissingOk (flatten ctx) with
    | error e => rfl
    | ok key => cases s.table <;> rfl

theorem sameTables_prefetchTable (s : Storer κ) (p : String × List Doc) :
    SameTables s (prefetchTable cfg s p) := by
  unfold prefetchTable
  cases s.db.query cfg.order p.1 p.2 with
  | error e => exact ⟨rfl, rfl⟩
  | ok rows =>
    simp only
    split <;> exact ⟨rfl, rfl⟩

theorem sameTables_preMsgProcess (msg : List Message) (s : Storer κ) :
    SameTables s (preMsgProcess cfg msg s).2 := by
  unfold preMsgProcess
  cases msg with
  | nil => exact ⟨rfl, rfl⟩
  | cons m ms =>
    simp only
    cases m._meta.bind Meta.spec with
    | none => exact ⟨rfl, rfl⟩
    | some spec =>
      cases m._meta.bind Meta.group with
      | none => exact ⟨rfl, rfl⟩
      | some group =>
        simp only
        cases cfg.preMsgProcessTables.lookup (_tableName spec group) with
        | none => exact ⟨rfl, rfl⟩
        | some p =>
          obtain ⟨fields, missingOk⟩ := p
          simp only
          cases prefetchParts cfg (_tableName spec group) fields (m :: ms) with
          | error e => exact ⟨rfl, rfl⟩
          | ok parts => exact sameTables_foldl (sameTables_prefetchTable cfg) _ _

theorem sameTables_preBulkProcess (m : ItemMeta) (context : Context) (data : List Item)
    (s : Storer κ) : SameTables s (preBulkProcess cfg m context data s).2 := by
  unfold preBulkProcess
  simp only
  cases ensureTable cfg m.spec m.group context data with
  | error e => exact ⟨rfl, rfl⟩
  | ok table =>
    simp only
    split
    · exact ⟨rfl, rfl⟩
    · cases s.db.query cfg.order table [lookupContext m (flatten context)] with
      | error e => exact ⟨rfl, rfl⟩
      | ok rows => exact ⟨rfl, rfl⟩

theorem preMsgProcess_db (msg : List Message) (s : Storer κ) :
    (preMsgProcess cfg msg s).2.db = s.db := (sameTables_preMsgProcess cfg msg s).1

theorem preBulkProcess_db (m : ItemMeta) (context : Context) (data : List Item) (s : Storer κ) :
    (preBulkProcess cfg m context data s).2.db = s.db :=
  (sameTables_preBulkProcess cfg m context data s).1

theorem keeps_step (s : Storer κ) (e : Event) : s.db.Keeps (step cfg s e).db := by
  cases e with
  | preMsg msg =>
    show s.db.Keeps (preMsgProcess cfg msg s).2.db
    rw [preMsgProcess_db]
    exact .refl s.db
  | preBulk m context data =>
    show s.db.Keeps (preBulkProcess cfg m context data s).2.db
    rw [preBulkProcess_db]
    exact .refl s.db
  | save time m ctx data =>
    show s.db.Keeps (save cfg time m ctx data s).2.db
    rw [save_eq]
    cases saving cfg m ctx data s with
    | none => exact .refl s.db
    | some w => exact keeps_store cfg _ _ _ _ _ _ s
  | postBulk time =>
    show s.db.Keeps (postBulkProcess time s).2.db
    rcases postBulkProcess_db time s with heq | ⟨table, -, -, heq⟩
    · rw [heq]
      exact .refl s.db
    · rw [heq]
      exact .bulkUpdate s.db _ _ _
  | postMsg o =>
    show s.db.Keeps (postMsgProcess o s).db
    rw [postMsgProcess_db]
    exact (keeps_afterDelete s).trans (.foldl_replay _ _)

theorem keeps_run (s : Storer κ) (es : List Event) :
    s.db.Keeps (Run.run (step cfg) s es).db := by
  induction es generalizing s with
  | nil => exact .refl s.db
  | cons e es ih => exact (keeps_step cfg s e).trans (ih (step cfg s e))

/-- **Ids stay unique** whatever call is made. -/
theorem step_wellFormed (s : Storer κ) (e : Event) (h : s.db.WellFormed) :
    (step cfg s e).db.WellFormed := by
  cases e with
  | preMsg msg =>
    show (preMsgProcess cfg msg s).2.db.WellFormed
    rw [preMsgProcess_db]
    exact h
  | preBulk m context data =>
    show (preBulkProcess cfg m context data s).2.db.WellFormed
    rw [preBulkProcess_db]
    exact h
  | save time m ctx data =>
    show (save cfg time m ctx data s).2.db.WellFormed
    rw [save_eq]
    cases saving cfg m ctx data s with
    | none => exact h
    | some w => exact store_wellFormed cfg _ _ _ _ _ _ h
  | postBulk time =>
    show (postBulkProcess time s).2.db.WellFormed
    rcases postBulkProcess_db time s with heq | ⟨table, -, -, heq⟩
    · rw [heq]
      exact h
    · rw [heq]
      exact h.bulkUpdate _ _ _
  | postMsg o =>
    show (postMsgProcess o s).db.WellFormed
    rw [postMsgProcess_db]
    exact (afterDelete_wellFormed h).foldl_replay _

end Step

/-! ## A concrete storer -/

/-- An injective text of the fields asked for, or of all. -/
def docKey (fields : List String) (missingOk : Bool) (d : Doc) :
    Except Exn (List (String × Option String)) :=
  if fields.isEmpty then pure ((Dict.sortedKeys d).map (fun k => (k, d.lookup k)))
  else if missingOk || fields.all (fun k => decide (k ∈ d)) then
    pure (fields.map (fun k => (k, d.lookup k)))
  else throw (.exception "missing field")

/-- The partition of the hosts that `sampleConfig` uses. -/
def sampleSchema : Schema where
  parent := fun t => if t = "caching__hosts__mac_address15" then "caching__hosts" else t
  parent_parent := by
    intro t
    by_cases h : t = "caching__hosts__mac_address15"
    · rw [if_pos h]
      rfl
    · rw [if_neg h, if_neg h]

/-- A storer of port states, and of hosts, which are partitioned, prefetched and stamped in
bulk. -/
def sampleConfig : Config (List (String × Option String)) where
  partitions := Dict.ofList [("caching__hosts", "mac_address")]
  partitionsModulo := Dict.ofList [("caching__hosts", 128)]
  preMsgProcessTables := Dict.ofList [("caching__hosts", (["mac_address", "vlan"], true))]
  postMsgProcessTables := ["caching__hosts"]
  stamp := fun v => match v with
    | .int n => n
    | _ => 0
  overlaps := fun _ => .ok true
  md5 := fun _ => 15
  dictToKv := docKey

/-- Config for ports whose tables are partitioned by device. -/
def partitionedConfig : Config (List (String × Option String)) :=
  { sampleConfig with partitions := Dict.ofList [("ports__status", "device")] }

/-- The sample storer with given rows. -/
def sampleStorer (rows : List Row) (next : Nat) : Storer (List (String × Option String)) where
  db := ⟨sampleSchema, rows, [], fun _ => next⟩

theorem wellFormed_sampleStorer : (sampleStorer [] 1).db.WellFormed :=
  ⟨List.nodup_nil, fun _ h => absurd h List.not_mem_nil⟩

/-- The metadata of port states. -/
def portMeta : ItemMeta := ⟨"status", "ports", ["device", "port"], {}⟩

/-- The context of one port. -/
def portContext : Context := Dict.ofList [("device", .str "rtr-core1"), ("port", .str "1/1")]

/-- A message about ports. -/
def portMessage : Message where
  _meta := some { group := some "status", spec := some "ports" }
  context := some portContext

/-- One message with data for one port. -/
def portRound (time : Int) (data : List Item) : Round where
  time := time
  meta' := portMeta
  context := portContext
  data := data
  saves := data.map (fun d => (portContext, d))

/-- The metadata of hosts. -/
def hostMeta : ItemMeta := ⟨"hosts", "caching", ["mac_address", "vlan"], {}⟩

/-- The context of one host. -/
def hostContext : Context :=
  Dict.ofList [("mac_address", .str "d4be.d951.2cd0"), ("vlan", .int 32)]

/-- A message about hosts. -/
def hostMessage : Message where
  _meta := some { group := some "hosts", spec := some "caching" }
  context := some hostContext

/-- One message with data for one host. -/
def hostRound (time : Int) (data : List Item) : Round where
  time := time
  meta' := hostMeta
  context := hostContext
  data := data
  saves := data.map (fun d => (hostContext, d))

/-- The row of the host, last seen at a time. -/
def hostRow (updatedAt : Int) : Row :=
  ⟨1, 50, updatedAt, flatten hostContext, flatten (Dict.ofList [("physical_port", .str "Gi1/0/20")]),
    "caching__hosts__mac_address15"⟩

theorem wellFormed_hostRow (updatedAt : Int) :
    (sampleStorer [hostRow updatedAt] 2).db.WellFormed := by
  refine ⟨List.nodup_singleton _, fun r hr => ?_⟩
  have hr' : r ∈ [hostRow updatedAt] := hr
  rw [List.mem_singleton.mp hr']
  show 1 < 2
  omega

end Postgres
