/-
# Merged data

With `merge_data` a datum is put over the data of its row, and what it does not say stays as it is.
But `different` knows nothing of that: it takes a datum with fewer fields than the row for a large
change, and nothing corrects it where all these fields agree with the row.  Then the row goes into
the history and begins anew although nothing has changed.  `merge_context` keeps it out of the
history, but sets its `created_at` all the same.

`save` looks at the row as it was when the cache was filled, which is not what is stored once the
same row has been written in the batch.
-/
import Ptolemy.PostgresHistory

namespace Postgres

variable {κ : Type} (cfg : Config κ)

/-! ## The law, and when it holds -/

/-- **A datum is merged into a row**: it stands over the data of the row, and where the row has all
of it already, there is no history of this and the row does not begin anew. -/
def Merged (before after : Db) (r : Row) (data : Doc) : Prop :=
  ∃ r' ∈ after.rows, before.rowId r = before.rowId r' ∧ Dict.Same r'.data (r.data.overlay data)
    ∧ (Covers data r.data → after.history = before.history ∧ r'.createdAt = r.createdAt)

/-- Nothing is written: no flag is in the way, and the datum is all that was stored. -/
structure Unwritten (flags : Flags) (doc data : Doc) : Prop where
  ignoreData : flags.ignoreData = false
  mergeContext : flags.mergeContext = false
  same : Dict.Same data doc

/-- The row is archived: no flag is in the way, and the datum is a part of what was stored. -/
structure Archived (flags : Flags) (doc data : Doc) : Prop where
  ignoreData : flags.ignoreData = false
  mergeContext : flags.mergeContext = false
  covers : Covers data doc
  not_same : ¬ Dict.Same data doc

/-- A datum fits a row and what the cache has of it: where something is written the cache is right
about the fields that the datum does not say, and else the row still has the datum; and where the
row has the datum, it keeps its `created_at` for one of three reasons. -/
structure Fits (flags : Flags) (time : Int) (doc : Doc) (r : Row) (data : Doc) : Prop where
  written : ¬ Unwritten flags doc data → ∀ k, k ∉ data → doc.lookup k = r.data.lookup k
  unwritten : Unwritten flags doc data → Covers data r.data
  kept : Covers data r.data → flags.ignoreData = true ∨ Unwritten flags doc data
    ∨ ¬ Archived flags doc data ∧ time = r.createdAt

/-! ## What `different` finds -/

/-- A part of some data is all of them if it has as many fields. -/
theorem same_iff_of_covers {doc data : Doc} (h : Covers data doc) :
    Dict.Same data doc ↔ doc.items.length ≤ data.items.length := by
  have hlength : ∀ d : Doc, d.items.length = d.keys.length := fun d => by
    rw [← Dict.items_map_fst, List.length_map]
  have hkeys : data.keys ⊆ doc.keys := by
    intro k hk
    obtain ⟨v, hv⟩ := Dict.mem_iff_lookup.mp (AList.mem_keys.mpr hk)
    exact AList.mem_keys.mp (Dict.mem_iff_lookup.mpr ⟨v, h k v hv⟩)
  have hsub := data.keys_nodup.subperm hkeys
  rw [hlength, hlength]
  constructor
  · intro hsame
    have hback : doc.keys ⊆ data.keys := fun k hk =>
      AList.mem_keys.mp ((hsame.mem_iff k).mpr (AList.mem_keys.mpr hk))
    exact (doc.keys_nodup.subperm hback).length_le
  · intro hle k
    have hperm := hsub.perm_of_length_le hle
    cases hk : data.lookup k with
    | some v => exact (h k v hk).symm
    | none =>
      have hnot : k ∉ doc := fun hmem => AList.lookup_eq_none.mp hk
        (AList.mem_keys.mpr (hperm.mem_iff.mpr (AList.mem_keys.mp hmem)))
      exact (AList.lookup_eq_none.mpr hnot).symm

theorem differentLoop_of_forall {row : Doc} {l : List (String × String)} {d : Option Bool}
    (h : ∀ p ∈ l, row.lookup p.1 = some p.2) : differentLoop row l d = d := by
  induction l with
  | nil => rfl
  | cons p l ih =>
    rw [differentLoop, h p List.mem_cons_self]
    simp only [if_true]
    exact ih (fun q hq => h q (List.mem_cons_of_mem p hq))

/-- A part of the data is much of a change unless it is all of them. -/
theorem different_of_covers {o : IterOrder} {doc data : Doc} (h : Covers data doc) :
    different o doc data false = some (decide (data.items.length < doc.items.length)) := by
  unfold different
  rw [differentLoop_of_forall (fun p hp => h p.1 p.2 (Dict.mem_items.mp (o.mem_order.mp hp)))]
  simp

/-! ## The change -/

section Change

variable {cfg} {flags : Flags} {doc : Row} {context data : Doc}

theorem covers_iff_all : Covers data doc.data
    ↔ data.items.all (fun p => doc.data.lookup p.1 = some p.2) = true := by
  rw [List.all_eq_true]
  constructor
  · exact fun h p hp => decide_eq_true (h p.1 p.2 (Dict.mem_items.mp hp))
  · exact fun h k v hk => of_decide_eq_true (h (k, v) (Dict.mem_items.mpr hk))

/-- Whatever the other flags are, the datum stands over what was stored. -/
theorem data_changeOf (hm : flags.mergeData = true) :
    Dict.Same (changeOf cfg flags doc context data).data (doc.data.overlay data) := by
  have hempty : data.items.isEmpty = true → Dict.Same doc.data (doc.data.overlay data) := by
    intro h k
    have hnone : data.lookup k = none := by
      cases hk : data.lookup k with
      | none => rfl
      | some v =>
        have hmem := Dict.mem_items.mpr hk
        rw [List.isEmpty_iff.mp h] at hmem
        exact absurd hmem List.not_mem_nil
    rw [Dict.lookup_overlay, hnone, Option.none_or]
  unfold changeOf
  rw [if_pos hm]
  split_ifs with h₁ h₂ h₃ h₄ h₅ h₆
  all_goals first | exact Dict.Same.refl _ | exact hempty (by assumption)

theorem updateCreatedAt_changeOf (hm : flags.mergeData = true) :
    (changeOf cfg flags doc context data).updateCreatedAt = !flags.ignoreData := by
  unfold changeOf
  rw [if_pos hm]
  split_ifs with h₁ h₂ h₃
  all_goals simp_all

/-- The other flags, and a field that is new or differs, make a small change of it. -/
theorem difference_changeOf (hm : flags.mergeData = true) :
    (changeOf cfg flags doc context data).difference
      = if flags.ignoreData = true ∨ flags.mergeContext = true
            ∨ data.items.all (fun p => doc.data.lookup p.1 = some p.2) = false then none
        else different cfg.order doc.data data false := by
  have hempty : data.items.isEmpty = true →
      data.items.all (fun p => doc.data.lookup p.1 = some p.2) = true := by
    intro h
    rw [List.isEmpty_iff.mp h]
    rfl
  unfold changeOf
  rw [if_pos hm]
  cases flags.ignoreData <;> cases flags.mergeContext
  all_goals
    simp only [Bool.false_eq_true, if_false, if_true]
    generalize data.items.all _ = b at hempty ⊢
    cases b <;> cases he : data.items.isEmpty <;> simp_all

theorem unwritten_iff (hm : flags.mergeData = true) :
    (changeOf cfg flags doc context data).difference = some false
      ↔ Unwritten flags doc.data data := by
  rw [difference_changeOf hm]
  constructor
  · intro h
    split_ifs at h with hflags
    simp only [not_or, Bool.not_eq_true, Bool.not_eq_false] at hflags
    obtain ⟨hi, hc, hall⟩ := hflags
    have hcovers := covers_iff_all.mpr hall
    rw [different_of_covers hcovers] at h
    exact ⟨hi, hc, (same_iff_of_covers hcovers).mpr
      (not_lt.mp (of_decide_eq_false (Option.some.inj h)))⟩
  · rintro ⟨hi, hc, hsame⟩
    have hcovers : Covers data doc.data := fun k v hk => (hsame k).symm.trans hk
    rw [if_neg (by simp [hi, hc, covers_iff_all.mp hcovers]), different_of_covers hcovers,
      decide_eq_false (not_lt.mpr ((same_iff_of_covers hcovers).mp hsame))]

theorem archived_iff (hm : flags.mergeData = true) :
    (changeOf cfg flags doc context data).difference = some true
      ↔ Archived flags doc.data data := by
  rw [difference_changeOf hm]
  constructor
  · intro h
    split_ifs at h with hflags
    simp only [not_or, Bool.not_eq_true, Bool.not_eq_false] at hflags
    obtain ⟨hi, hc, hall⟩ := hflags
    have hcovers := covers_iff_all.mpr hall
    rw [different_of_covers hcovers] at h
    refine ⟨hi, hc, hcovers, fun hsame => ?_⟩
    exact absurd ((same_iff_of_covers hcovers).mp hsame)
      (not_le.mpr (of_decide_eq_true (Option.some.inj h)))
  · rintro ⟨hi, hc, hcovers, hnot⟩
    rw [if_neg (by simp [hi, hc, covers_iff_all.mp hcovers]), different_of_covers hcovers,
      decide_eq_true (not_le.mp (fun hle => hnot ((same_iff_of_covers hcovers).mpr hle)))]

end Change

/-! ## The row afterwards -/

/-- The law speaks of the one row that is still the same. -/
theorem merged_iff_row {before after : Db} {r r' : Row} {data : Doc} (hr' : r' ∈ after.rows)
    (hid : before.rowId r = before.rowId r')
    (hone : ∀ r'' ∈ after.rows, before.rowId r = before.rowId r'' → r'' = r') :
    Merged before after r data ↔ Dict.Same r'.data (r.data.overlay data)
      ∧ (Covers data r.data → after.history = before.history ∧ r'.createdAt = r.createdAt) := by
  constructor
  · rintro ⟨r'', hr'', hid', h⟩
    rw [hone r'' hr'' hid'] at h
    exact h
  · exact fun h => ⟨r', hr', hid, h⟩

/-- Both data stand under the same datum: they agree about what it does not say. -/
theorem same_overlay_iff {d e data : Doc} :
    Dict.Same (d.overlay data) (e.overlay data)
      ↔ ∀ k, k ∉ data → d.lookup k = e.lookup k := by
  constructor
  · intro h k hk
    have hk' := h k
    rwa [Dict.lookup_overlay, Dict.lookup_overlay, AList.lookup_eq_none.mpr hk, Option.none_or,
      Option.none_or] at hk'
  · intro h k
    rw [Dict.lookup_overlay, Dict.lookup_overlay]
    by_cases hk : k ∈ data
    · obtain ⟨v, hv⟩ := Dict.mem_iff_lookup.mp hk
      rw [hv, Option.some_or, Option.some_or]
    · rw [h k hk]

theorem same_overlay_self_iff {d data : Doc} :
    Dict.Same d (d.overlay data) ↔ Covers data d := by
  constructor
  · intro h k v hk
    rw [h k, Dict.lookup_overlay, hk, Option.some_or]
  · intro h k
    rw [Dict.lookup_overlay]
    cases hk : data.lookup k with
    | none => rw [Option.none_or]
    | some v => rw [h k v hk, Option.some_or]

section Store

variable {cfg} {m : ItemMeta} {s : Storer κ} {w : Saving κ} {doc r : Row} {time : Int}

/-- The row that `update_item` writes over. -/
theorem merged_updateItem_iff (before : Db) {db : Db} (hwf : db.WellFormed)
    (hschema : before.schema = db.schema) {t : String} (hr : r ∈ db.rows)
    (hin : db.isIn t r = true) (hid : r.id = doc.id) {context data new : Doc} {u : Bool} :
    Merged before (db.updateItem t doc.id time context new u) r data
      ↔ Dict.Same new (r.data.overlay data)
        ∧ (Covers data r.data → db.history = before.history
          ∧ (if u then time else r.createdAt) = r.createdAt) := by
  have hrow : ∀ r' : Row, before.rowId r' = db.rowId r' := fun r' => by
    rw [Db.rowId, Db.rowId, hschema]
  have hmem : r.write time context new u ∈ (db.updateItem t doc.id time context new u).rows :=
    List.mem_map.mpr ⟨r, hr, if_pos ⟨hin, hid⟩⟩
  refine merged_iff_row hmem rfl (fun r'' hr'' heq => ?_)
  rw [hrow, hrow] at heq
  rw [hwf.later_updateItem hr hr'' heq, if_pos ⟨hin, hid⟩]

/-- **The law of merged data**, when `save` has found one row. -/
theorem merged_store_iff (hwf : s.db.WellFormed) (hm : m.flags.mergeData = true)
    (hdocs : w.docs = [doc]) (hr : r ∈ s.db.rows) (hin : s.db.isIn w.table r = true)
    (hid : r.id = doc.id) :
    Merged s.db (store cfg time m w.table w.docs w.context w.data s).db r w.data
      ↔ Fits m.flags time doc.data r w.data := by
  have hdata : Dict.Same (changeOf cfg m.flags doc w.context w.data).data
      (doc.data.overlay w.data) := data_changeOf hm
  have hover : Dict.Same (changeOf cfg m.flags doc w.context w.data).data (r.data.overlay w.data)
      ↔ ∀ k, k ∉ w.data → doc.data.lookup k = r.data.lookup k :=
    ⟨fun h => same_overlay_iff.mp (hdata.symm.trans h),
      fun h => hdata.trans (same_overlay_iff.mpr h)⟩
  rw [store_db, hdocs]
  simp only
  cases hd : (changeOf cfg m.flags doc w.context w.data).difference with
  | none =>
    have hnotU : ¬ Unwritten m.flags doc.data w.data := fun h => by
      rw [(unwritten_iff hm).mpr h] at hd
      cases hd
    have hnotA : ¬ Archived m.flags doc.data w.data := fun h => by
      rw [(archived_iff hm).mpr h] at hd
      cases hd
    rw [merged_updateItem_iff s.db hwf rfl hr hin hid, hover, updateCreatedAt_changeOf hm]
    constructor
    · rintro ⟨hout, hkept⟩
      refine ⟨fun _ => hout, fun h => absurd h hnotU, fun hcovers => ?_⟩
      have htime := (hkept hcovers).2
      cases hi : m.flags.ignoreData with
      | true => exact Or.inl rfl
      | false =>
        rw [hi] at htime
        exact Or.inr (Or.inr ⟨hnotA, htime⟩)
    · rintro ⟨hout, -, hkept⟩
      refine ⟨hout hnotU, fun hcovers => ⟨rfl, ?_⟩⟩
      rcases hkept hcovers with hi | hU | ⟨-, htime⟩
      · rw [hi]
        rfl
      · exact absurd hU hnotU
      · rw [htime, ite_self]
  | some b =>
    cases b with
    | false =>
      have hU := (unwritten_iff hm).mp hd
      rw [merged_iff_row hr rfl (fun r'' hr'' heq => (hwf.eq_of_rowId hr hr'' heq).symm),
        same_overlay_self_iff]
      exact ⟨fun h => ⟨fun hnot => absurd hU hnot, fun _ => h.1, fun _ => Or.inr (Or.inl hU)⟩,
        fun h => ⟨h.unwritten hU, fun _ => ⟨rfl, rfl⟩⟩⟩
    | true =>
      have hA := (archived_iff hm).mp hd
      have hnotU : ¬ Unwritten m.flags doc.data w.data := fun h => hA.not_same h.same
      simp only
      rw [merged_updateItem_iff s.db (hwf.archive _ _ _ _ _) rfl hr hin hid, hover]
      constructor
      · rintro ⟨hout, hkept⟩
        refine ⟨fun _ => hout, fun h => absurd h hnotU, fun hcovers => ?_⟩
        -- the history has one more row
        have hlength := congrArg List.length (hkept hcovers).1
        rw [Db.archive, List.length_append, List.length_singleton] at hlength
        omega
      · rintro ⟨hout, -, hkept⟩
        refine ⟨hout hnotU, fun hcovers => ?_⟩
        rcases hkept hcovers with hi | hU | ⟨hnotA, -⟩
        · rw [hA.ignoreData] at hi
          cases hi
        · exact absurd hU hnotU
        · exact absurd hA hnotA

end Store

/-- **Merged data**: what `save` makes of a stored row with `merge_data`, whatever the other flags
are, is the row with the datum over it, and nothing of it is archived or begun anew for a datum that
the row has already, if and only if the datum fits. -/
theorem merged_iff_fits [DecidableEq κ] {m : ItemMeta} (hm : m.flags.mergeData = true)
    {ctx : Context} {data : Item} {s : Storer κ} (hwf : s.db.WellFormed) {w : Saving κ}
    (hw : saving cfg m ctx data s = some w) {doc r : Row} (hdocs : w.docs = [doc])
    (hr : r ∈ s.db.rows) (hin : s.db.isIn w.table r = true) (hid : r.id = doc.id) (time : Int) :
    Merged s.db (save cfg time m ctx data s).2.db r w.data
      ↔ Fits m.flags time doc.data r w.data := by
  rw [save_eq, hw]
  exact merged_store_iff hwf hm hdocs hr hin hid

/-- Where the cache is right about the row, the datum is always put over it.  A datum that the row
has already does no harm if the code is told to ignore it or it is the whole of the row; with
`merge_context` it does none in the moment when the row began. -/
theorem fits_iff_of_same {flags : Flags} {time : Int} {doc data : Doc} {r : Row}
    (hsame : Dict.Same doc r.data) :
    Fits flags time doc r data ↔ (Covers data r.data → flags.ignoreData = true
      ∨ (if flags.mergeContext then time = r.createdAt else Dict.Same data r.data)) := by
  have hcovers : Covers data r.data ↔ Covers data doc :=
    ⟨fun h k v hk => (hsame k).trans (h k v hk), fun h k v hk => (hsame k).symm.trans (h k v hk)⟩
  constructor
  · intro h hc
    rcases h.kept hc with hi | hU | ⟨hnotA, htime⟩
    · exact Or.inl hi
    · right
      rw [hU.mergeContext]
      exact hU.same.trans hsame
    · cases hi : flags.ignoreData with
      | true => exact Or.inl rfl
      | false =>
        right
        cases hmc : flags.mergeContext with
        | true => exact htime
        | false =>
          by_contra hnot
          exact hnotA ⟨hi, hmc, hcovers.mp hc, fun h => hnot (h.trans hsame)⟩
  · intro h
    refine ⟨fun _ k _ => hsame k, fun hU k v hk => (hU.same.trans hsame k).symm.trans hk,
      fun hc => ?_⟩
    rcases h hc with hi | hrest
    · exact Or.inl hi
    · cases hi : flags.ignoreData with
      | true => exact Or.inl rfl
      | false =>
        right
        cases hmc : flags.mergeContext with
        | true =>
          rw [hmc, if_pos rfl] at hrest
          refine Or.inr ⟨fun hA => ?_, hrest⟩
          rw [hA.mergeContext] at hmc
          cases hmc
        | false =>
          rw [hmc] at hrest
          exact Or.inl ⟨hi, hmc, Dict.Same.trans hrest hsame.symm⟩

/-! ### The speed of a port -/

/-- Data of ports that are merged. -/
def mergedMeta : ItemMeta := { portMeta with flags := { mergeData := true } }

/-- A port whose status and speed are stored. -/
def speedRow : Row :=
  ⟨1, 50, 50, flatten portContext, Dict.ofList [("status", "up"), ("speed", "1000")],
    "ports__status"⟩

/-- The storer when it has looked for the port. -/
def speedStorer : Storer (List (String × Option String)) :=
  (preBulkProcess sampleConfig mergedMeta portContext []
    (preMsgProcess sampleConfig [portMessage] (sampleStorer [speedRow] 2)).2).2

/-- What it finds out about a status. -/
def statusSaving (status : String) : Saving (List (String × Option String)) where
  table := "ports__status"
  key := [("device", some "rtr-core1"), ("port", some "1/1")]
  docs := [speedRow]
  context := flatten portContext
  data := Dict.ofList [("status", status)]

theorem wellFormed_speedStorer : speedStorer.db.WellFormed :=
  ⟨List.nodup_singleton _, fun r hr => by rw [List.mem_singleton.mp hr]; decide⟩

/-- The port goes down. -/
theorem merged_down : Merged speedStorer.db
    (save sampleConfig 100 mergedMeta portContext (Dict.ofList [("status", .str "down")])
      speedStorer).2.db
    speedRow (statusSaving "down").data :=
  (merged_iff_fits sampleConfig (m := mergedMeta) rfl wellFormed_speedStorer
    (w := statusSaving "down") rfl rfl (List.mem_singleton.mpr rfl) (by decide) rfl 100).mpr
      ((fits_iff_of_same (Dict.Same.refl _)).mpr
        (fun h => absurd (h "status" "down" (by decide)) (by decide)))

/-- The port is still up, as far as it is known: it is archived all the same. -/
theorem not_merged_up : ¬ Merged speedStorer.db
    (save sampleConfig 100 mergedMeta portContext (Dict.ofList [("status", .str "up")])
      speedStorer).2.db
    speedRow (statusSaving "up").data := by
  rintro ⟨r', -, -, -, hkept⟩
  have hcovers : Covers (statusSaving "up").data speedRow.data := covers_iff_all.mpr (by decide)
  exact absurd (congrArg List.length (hkept hcovers).1) (by decide)

end Postgres
