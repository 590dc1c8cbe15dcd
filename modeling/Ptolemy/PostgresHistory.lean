/-
# The history of a row

When `save` writes over a live row, the history table should receive what the row
held.  `archive_and_update` inserts the new context and data instead, and the
minor updates of `save` insert nothing.  Hence a run keeps the history exactly when
no `save` writes over a row a datum that lacks one of its values
(`historyKept_iff`).
-/
import Ptolemy.PostgresSteps

namespace Postgres

variable {κ : Type} [DecidableEq κ] (cfg : Config κ)

/-! ## What should hold of a step -/

/-- The new data have every value of the old data. -/
def Covers (old new : Doc) : Prop := ∀ k v, old.lookup k = some v → new.lookup k = some v

theorem Covers.trans {a b c : Doc} (h : Covers a b) (h' : Covers b c) : Covers a c :=
  fun k v hk => h' k v (h k v hk)

/-- A history row for the row `r`, as it was up to the time `t`. -/
structure IsHistory (db : Db) (t : Int) (r h : Row) : Prop where
  table_eq : h.table = db.schema.parent r.table ++ historyCollectionAppend
  id_eq : h.id = r.id
  createdAt_eq : h.createdAt = r.createdAt
  updatedAt_eq : h.updatedAt = t
  data_same : Dict.Same h.data r.data

/-- **History is kept by a step**: a live row that loses a value has its former data and the
period of their validity in the history. -/
def HistoryKept (s : Storer κ) (e : Event) : Prop :=
  ∀ r ∈ s.db.rows, ∀ r' ∈ (step cfg s e).db.rows, s.db.rowId r = s.db.rowId r' →
    Covers r.data r'.data
      ∨ ∃ h ∈ (step cfg s e).db.history, ∃ t, e.time? = some t ∧ IsHistory s.db t r h

/-- The step writes over no row a datum that lacks one of its values, unless the history has
that row already. -/
def NoLoss (s : Storer κ) : Event → Prop
  | .save time m ctx data => ∀ w, saving cfg m ctx data s = some w →
      ∀ doc, w.docs = [doc] → different cfg.order doc.data w.data false ≠ some false →
      ∀ r ∈ s.db.rows, s.db.isIn w.table r → r.id = doc.id →
        Covers r.data w.data ∨ ∃ h ∈ s.db.history, IsHistory s.db time r h
  | _ => True

/-- The flags of a call of `save` leave the datum as it is. -/
def PlainSave : Event → Prop
  | .save _ m _ _ => Plain m.flags
  | _ => True

/-! ## One step -/

/-- Only `save` changes data. -/
theorem data_eq_of_not_save {s : Storer κ} (hwf : s.db.WellFormed) {e : Event}
    (he : ∀ time m ctx data, e ≠ .save time m ctx data) {r r' : Row} (hr : r ∈ s.db.rows)
    (hr' : r' ∈ (step cfg s e).db.rows) (hid : s.db.rowId r = s.db.rowId r') :
    r'.data = r.data := by
  cases e with
  | preMsg msg =>
    have hdb : (step cfg s (.preMsg msg)).db = s.db := preMsgProcess_db cfg msg s
    rw [hdb] at hr'
    rw [hwf.eq_of_rowId hr hr' hid]
  | preBulk m context data =>
    have hdb : (step cfg s (.preBulk m context data)).db = s.db :=
      preBulkProcess_db cfg m context data s
    rw [hdb] at hr'
    rw [hwf.eq_of_rowId hr hr' hid]
  | save time m ctx data => exact absurd rfl (he time m ctx data)
  | postBulk time =>
    rcases postBulkProcess_later hwf time hr hr' hid with rfl | ⟨table, -, -, rfl⟩
    · rfl
    · split_ifs <;> rfl
  | postMsg o =>
    rw [(postMsgProcess_later hwf o hr hr' hid).2]

theorem historyKept_of_not_save {s : Storer κ} (hwf : s.db.WellFormed) {e : Event}
    (he : ∀ time m ctx data, e ≠ .save time m ctx data) : HistoryKept cfg s e := by
  intro r hr r' hr' hid
  left
  rw [data_eq_of_not_save cfg hwf he hr hr' hid]
  exact fun _ _ h => h

omit [DecidableEq κ] in
/-- What `overwrite` is for a datum stored as it is. -/
theorem overwrite_plain {m : ItemMeta} (hm : Plain m.flags) {w : Saving κ} {doc : Row} {c : Change} :
    overwrite cfg m w = some (doc, c) ↔ w.docs = [doc]
      ∧ different cfg.order doc.data w.data false ≠ some false
      ∧ c = ⟨different cfg.order doc.data w.data false, w.context, w.data, true⟩ := by
  unfold overwrite
  rcases w.docs with _ | ⟨doc', _ | ⟨doc'', docs⟩⟩
  · simp
  · simp only [changeOf_plain cfg hm]
    split_ifs with hd
    · refine ⟨fun h => (by cases h), ?_⟩
      rintro ⟨h₁, h₂, -⟩
      cases h₁
      exact absurd hd h₂
    · constructor
      · intro h
        cases h
        exact ⟨rfl, hd, rfl⟩
      · rintro ⟨h₁, -, rfl⟩
        cases h₁
        rfl
  · simp

omit [DecidableEq κ] in
/-- The history row that `save` inserts, if any, holds the new data. -/
theorem history_store {time : Int} {m : ItemMeta} (hm : Plain m.flags) {w : Saving κ}
    {s : Storer κ} {h : Row}
    (hh : h ∈ (store cfg time m w.table w.docs w.context w.data s).db.history) :
    h ∈ s.db.history ∨ h.data = w.data := by
  rw [store_db] at hh
  rcases hdocs : w.docs with _ | ⟨doc, _ | ⟨doc', docs⟩⟩
  · rw [hdocs] at hh
    exact Or.inl hh
  · rw [hdocs] at hh
    simp only [changeOf_plain cfg hm] at hh
    rcases hd : different cfg.order doc.data w.data false with _ | _ | _
    all_goals rw [hd] at hh
    · exact Or.inl hh
    · exact Or.inl hh
    · rcases List.mem_append.mp hh with hh | hh
      · exact Or.inl hh
      · rw [List.mem_singleton] at hh
        exact Or.inr (by rw [hh])
  · rw [hdocs] at hh
    exact Or.inl hh

omit [DecidableEq κ] in
/-- One row of a table that `save` writes over is still there afterwards, with the datum as
its data. -/
theorem exists_written {time : Int} {m : ItemMeta} (hm : Plain m.flags) {w : Saving κ}
    {s : Storer κ} {doc : Row} (hdocs : w.docs = [doc])
    (hd : different cfg.order doc.data w.data false ≠ some false) {r : Row} (hr : r ∈ s.db.rows)
    (hin : s.db.isIn w.table r) (hid : r.id = doc.id) :
    ∃ r' ∈ (store cfg time m w.table w.docs w.context w.data s).db.rows,
      s.db.rowId r = s.db.rowId r' ∧ r'.data = w.data := by
  have hmem : ∀ (db : Db) (u : Bool), r ∈ db.rows → db.isIn w.table r →
      r.write time w.context w.data u
        ∈ (db.updateItem w.table doc.id time w.context w.data u).rows := by
    intro db u hr hin
    refine List.mem_map.mpr ⟨r, hr, ?_⟩
    rw [if_pos ⟨hin, hid⟩]
  refine ⟨r.write time w.context w.data true, ?_, rfl, rfl⟩
  rw [store_db, hdocs]
  simp only [changeOf_plain cfg hm]
  rcases hdiff : different cfg.order doc.data w.data false with _ | _ | _
  · exact hmem s.db true hr hin
  · exact absurd hdiff hd
  · exact hmem (s.db.archive _ _ _ _ _) true hr hin

/-- **One step keeps the history exactly when it loses nothing.** -/
theorem historyKept_iff_noLoss {s : Storer κ} (hwf : s.db.WellFormed) {e : Event}
    (he : PlainSave e) : HistoryKept cfg s e ↔ NoLoss cfg s e := by
  cases e with
  | save time m ctx data =>
    have hm : Plain m.flags := he
    have hstep : step cfg s (.save time m ctx data) = (save cfg time m ctx data s).2 := rfl
    unfold HistoryKept NoLoss
    rw [hstep, save_eq]
    cases hw : saving cfg m ctx data s with
    | none =>
      refine ⟨fun _ w h => (by rw [hw] at h; cases h), fun _ r hr r' hr' hid => Or.inl ?_⟩
      rw [hwf.eq_of_rowId hr hr' hid]
      exact fun _ _ h => h
    | some w =>
      simp only
      constructor
      · intro hkept w' hw' doc hdocs hd r hr hin hid
        rw [hw] at hw'
        cases hw'
        obtain ⟨r', hr', hrow, hdata⟩ := @exists_written κ cfg time _ hm w s doc hdocs hd r hr hin hid
        rcases hkept r hr r' hr' hrow with hcov | ⟨h, hh, t, ht, hist⟩
        · exact Or.inl (hdata ▸ hcov)
        · have ht' : t = time := (Option.some.inj ht).symm
          subst ht'
          rcases history_store cfg hm hh with hold | hnew
          · exact Or.inr ⟨h, hold, hist⟩
          · refine Or.inl (fun k v hk => ?_)
            rw [← hnew, hist.data_same k, hk]
      · intro hloss r hr r' hr' hid
        rcases store_later cfg hwf time m w hr hr' hid with
          rfl | ⟨doc, c, u, hover, hin, hdoc, rfl⟩
        · exact Or.inl (fun _ _ h => h)
        · obtain ⟨hdocs, hd, rfl⟩ := (overwrite_plain cfg hm).mp hover
          rcases hloss w hw doc hdocs hd r hr hin hdoc with hcov | ⟨h, hh, hist⟩
          · exact Or.inl hcov
          · exact Or.inr ⟨h, (keeps_store cfg time m w.table w.docs w.context w.data s).history_sub
              h hh, time, rfl, hist⟩
  | preMsg msg => exact ⟨fun _ => trivial, fun _ => historyKept_of_not_save cfg hwf (by simp)⟩
  | preBulk m context data =>
    exact ⟨fun _ => trivial, fun _ => historyKept_of_not_save cfg hwf (by simp)⟩
  | postBulk time => exact ⟨fun _ => trivial, fun _ => historyKept_of_not_save cfg hwf (by simp)⟩
  | postMsg o => exact ⟨fun _ => trivial, fun _ => historyKept_of_not_save cfg hwf (by simp)⟩

/-! ## Runs -/

/-- Every datum that a row had during a run is part of what the row has at the end or of a
history row. -/
def Reconstructs (s : Storer κ) (es : List Event) : Prop :=
  ∀ es₁ es₂, es = es₁ ++ es₂ → ∀ r ∈ (Run.run (step cfg) s es₁).db.rows,
    ∀ r' ∈ (Run.run (step cfg) s es).db.rows, s.db.rowId r = s.db.rowId r' →
      Covers r.data r'.data ∨ ∃ h ∈ (Run.run (step cfg) s es).db.history,
        h.table = s.db.schema.parent r.table ++ historyCollectionAppend ∧ h.id = r.id
          ∧ Covers r.data h.data

/-- The data of a row at the start of a run that keeps the history. -/
theorem covers_of_historyKept {s : Storer κ} (hwf : s.db.WellFormed) {es : List Event}
    (h : Run.Along (step cfg) (HistoryKept cfg) s es) {r r' : Row} (hr : r ∈ s.db.rows)
    (hr' : r' ∈ (Run.run (step cfg) s es).db.rows) (hid : s.db.rowId r = s.db.rowId r') :
    Covers r.data r'.data ∨ ∃ h ∈ (Run.run (step cfg) s es).db.history,
      h.table = s.db.schema.parent r.table ++ historyCollectionAppend ∧ h.id = r.id
        ∧ Covers r.data h.data := by
  induction es generalizing s r with
  | nil =>
    rw [hwf.eq_of_rowId hr hr' hid]
    exact Or.inl (fun _ _ h => h)
  | cons e es ih =>
    have hkeep := keeps_step cfg s e
    have hrun := keeps_run cfg (step cfg s e) es
    have hschema : (step cfg s e).db.schema = s.db.schema := hkeep.schema_eq
    obtain ⟨hpar, hrid⟩ := Prod.mk.inj hid
    -- the row is there after the first step: its id is not given out again
    obtain ⟨r₁, hr₁, hid₁⟩ : ∃ r₁ ∈ (step cfg s e).db.rows,
        (step cfg s e).db.rowId r₁ = (step cfg s e).db.rowId r' := by
      rcases hrun.origin r' hr' with horigin | hnew
      · exact horigin
      · have hlt := hwf.fresh r hr
        have hle := hkeep.serial_le (s.db.schema.parent r'.table)
        rw [hschema] at hnew
        rw [hpar, hrid] at hlt
        omega
    obtain ⟨hpar₁, hrid₁⟩ := Prod.mk.inj hid₁
    rw [hschema] at hpar₁
    have hid₀ : s.db.rowId r = s.db.rowId r₁ := by
      rw [Db.rowId, Db.rowId, hpar, hpar₁, hrid, hrid₁]
    rcases h.1 r hr r₁ hr₁ hid₀ with hcov | ⟨h₀, hh₀, t, -, hist⟩
    · rcases ih (step_wellFormed cfg s e hwf) h.2 hr₁ hr' hid₁ with hcov' | ⟨h₀, hh₀, ht, hi, hcov'⟩
      · exact Or.inl (hcov.trans hcov')
      · rw [hschema, hpar₁, ← hpar] at ht
        rw [hrid₁, ← hrid] at hi
        exact Or.inr ⟨h₀, hh₀, ht, hi, hcov.trans hcov'⟩
    · refine Or.inr ⟨h₀, hrun.history_sub h₀ hh₀, hist.table_eq, hist.id_eq, fun k v hk => ?_⟩
      rw [hist.data_same k, hk]

theorem run_wellFormed {s : Storer κ} (hwf : s.db.WellFormed) (es : List Event) :
    (Run.run (step cfg) s es).db.WellFormed :=
  (Run.Always.of_step (I := fun s : Storer κ => s.db.WellFormed)
    (fun s e h => step_wellFormed cfg s e h) hwf es).last

/-- **History preservation**: a run keeps the history exactly when none of its steps loses a
value, and then the live rows and the history have all data of the run. -/
theorem historyKept_iff {s : Storer κ} (hwf : s.db.WellFormed) {es : List Event}
    (hplain : ∀ e ∈ es, PlainSave e) :
    (Run.Along (step cfg) (HistoryKept cfg) s es ↔ Run.Along (step cfg) (NoLoss cfg) s es)
      ∧ (Run.Along (step cfg) (NoLoss cfg) s es → Reconstructs cfg s es) := by
  have hiff : Run.Along (step cfg) (HistoryKept cfg) s es
      ↔ Run.Along (step cfg) (NoLoss cfg) s es :=
    Run.along_congr (I := fun s : Storer κ => s.db.WellFormed)
      (fun s e h => step_wellFormed cfg s e h) hwf
      (fun e he s h => historyKept_iff_noLoss cfg h (hplain e he))
  refine ⟨hiff, fun hloss es₁ es₂ hes r hr r' hr' hid => ?_⟩
  have hkept := hiff.mpr hloss
  subst hes
  rw [Run.run_append] at hr' ⊢
  have hschema : (Run.run (step cfg) s es₁).db.schema = s.db.schema :=
    (keeps_run cfg s es₁).schema_eq
  have hrest := covers_of_historyKept cfg (run_wellFormed cfg hwf es₁)
    (Run.along_append.mp hkept).2 hr hr' (by
      rw [Db.rowId, Db.rowId, hschema]
      exact hid)
  rwa [hschema] at hrest

/-! ## A port whose error count changes -/

/-- Two batches of one message each: the port has one error, and then a speed too. -/
def speedBatches : List Batch :=
  [⟨[portMessage], [portRound 100 [Dict.ofList [("errors", .int 1)]]], IterOrder.stored⟩,
    ⟨[portMessage], [portRound 200 [Dict.ofList [("errors", .int 1), ("speed", .int 1000)]]],
      IterOrder.stored⟩]

/-- The port has one error, and then two. -/
def errorBatches : List Batch :=
  [⟨[portMessage], [portRound 100 [Dict.ofList [("errors", .int 1)]]], IterOrder.stored⟩,
    ⟨[portMessage], [portRound 200 [Dict.ofList [("errors", .int 2)]]], IterOrder.stored⟩]

/-- The row of the port after the first batch. -/
def errorRow : Row :=
  ⟨1, 100, 100, flatten portContext, Dict.ofList [("errors", "1")], "ports__status"⟩

theorem plainSave_speedBatches :
    ∀ e ∈ batchesEvents sampleConfig speedBatches (sampleStorer [] 1), PlainSave e := by
  have hevents : batchesEvents sampleConfig speedBatches (sampleStorer [] 1)
      = [.preMsg [portMessage],
        .preBulk portMeta portContext [Dict.ofList [("errors", .int 1)]],
        .save 100 portMeta portContext (Dict.ofList [("errors", .int 1)]), .postBulk 100,
        .postMsg IterOrder.stored, .preMsg [portMessage],
        .preBulk portMeta portContext [Dict.ofList [("errors", .int 1), ("speed", .int 1000)]],
        .save 200 portMeta portContext (Dict.ofList [("errors", .int 1), ("speed", .int 1000)]),
        .postBulk 200, .postMsg IterOrder.stored] := rfl
  have hplain : Plain portMeta.flags := ⟨rfl, rfl, rfl⟩
  rw [hevents]
  simp [PlainSave, hplain]

theorem noLoss_speedBatches : Run.Along (step sampleConfig) (NoLoss sampleConfig)
    (sampleStorer [] 1) (batchesEvents sampleConfig speedBatches (sampleStorer [] 1)) := by
  refine ⟨trivial, trivial, fun w _ doc _ _ r hr => absurd hr List.not_mem_nil, trivial, trivial,
    trivial, trivial, fun w hw doc _ _ r hr _ _ => ?_, trivial, trivial, trivial⟩
  -- the second datum has the errors of the first one
  obtain rfl : _ = w := Option.some.inj hw
  obtain rfl : r = errorRow := List.mem_singleton.mp hr
  have hcovers : ∀ p ∈ errorRow.data.items,
      (flatten (Dict.ofList [("errors", .int 1), ("speed", .int 1000)])).lookup p.1
        = some p.2 := by
    decide
  exact Or.inl (fun k v hk => hcovers (k, v) (Dict.mem_items.mpr hk))

/-- The port with a speed keeps its history. -/
theorem historyKept_speedBatches :
    Run.Along (step sampleConfig) (HistoryKept sampleConfig) (sampleStorer [] 1)
        (batchesEvents sampleConfig speedBatches (sampleStorer [] 1))
      ∧ Reconstructs sampleConfig (sampleStorer [] 1)
        (batchesEvents sampleConfig speedBatches (sampleStorer [] 1)) := by
  obtain ⟨hiff, hreconstructs⟩ :=
    historyKept_iff sampleConfig wellFormed_sampleStorer plainSave_speedBatches
  exact ⟨hiff.mpr noLoss_speedBatches, hreconstructs noLoss_speedBatches⟩

/-- The second batch writes over the first count, and the history row that it inserts has the
second. -/
theorem not_historyKept_errorBatches :
    ¬ Run.Along (step sampleConfig) (HistoryKept sampleConfig) (sampleStorer [] 1)
      (batchesEvents sampleConfig errorBatches (sampleStorer [] 1)) := by
  intro h
  have hcut : batchesEvents sampleConfig errorBatches (sampleStorer [] 1)
      = (batchesEvents sampleConfig errorBatches (sampleStorer [] 1)).take 7
        ++ .save 200 portMeta portContext (Dict.ofList [("errors", .int 2)])
          :: [.postBulk 200, .postMsg IterOrder.stored] := rfl
  have hstep := h.at hcut
  rcases hstep errorRow List.mem_cons_self
      (errorRow.write 200 (flatten portContext) (flatten (Dict.ofList [("errors", .int 2)])) true)
      List.mem_cons_self rfl with hcov | ⟨h₀, hh₀, t, -, hist⟩
  · exact absurd (hcov "errors" "1" rfl) (by decide)
  · have hh : h₀ ∈ [(⟨1, 100, 200, flatten portContext, flatten (Dict.ofList [("errors", .int 2)]),
        "ports__status_history"⟩ : Row)] := hh₀
    rw [List.mem_singleton] at hh
    have hdata := hist.data_same "errors"
    rw [hh] at hdata
    exact absurd hdata (by decide)

end Postgres
