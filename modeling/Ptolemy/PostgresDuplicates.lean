/-
# Duplicates

Where the cache has several rows for a key, `save` marks all of them for deletion but the oldest,
and `post_msg_process` deletes what is marked.  The marks of all keys of a batch are in one list.  A
row that is kept for one key may therefore be marked for another one, or the other way round, when
the cache has it for both: it is cached again, under its new key, after its context has changed.

A ghost state remembers what `save` has found for each key.
-/
import Ptolemy.PostgresObservations

namespace Postgres

variable {κ : Type} [DecidableEq κ] (cfg : Config κ)

/-! ## What should be marked -/

/-- The rows that `save` has found last for each key, where there were several. -/
abbrev Doubles (κ : Type) : Type := κ → Option (List Row)

/-- What a call adds to them.  With the batch they are forgotten. -/
def double (s : Storer κ) (e : Event) (doubles : Doubles κ) : Doubles κ :=
  match e with
  | .save _ m ctx data => match saving cfg m ctx data s with
    | some w => if 1 < w.docs.length then Function.update doubles w.key (some w.docs) else doubles
    | none => doubles
  | .preMsg _ => fun _ => none
  | .postMsg _ => fun _ => none
  | _ => doubles

/-- The storer, with what was found. -/
def doubling (p : Storer κ × Doubles κ) (e : Event) : Storer κ × Doubles κ :=
  (step cfg p.1 e, double cfg p.1 e p.2)

/-- All rows are marked but one, which has the least `created_at`. -/
def AllButOne (ids : List Nat) (docs : List Row) : Prop :=
  ∃ r ∈ docs, (∀ d ∈ docs, r.createdAt ≤ d.createdAt) ∧ r.id ∉ ids
    ∧ ∀ d ∈ docs, d.id = r.id ∨ d.id ∈ ids

/-- **Duplicates are resolved**: no id is marked twice, and all rows of each key but one are. -/
structure Resolved (p : Storer κ × Doubles κ) : Prop where
  nodup : p.1.deleteIds.Nodup
  marked : ∀ key docs, p.2 key = some docs → AllButOne p.1.deleteIds docs

/-- Rows that are marked do not spoil those of another key: the row that is kept of these is among
them just when the oldest of them is one of these, and then it is also the oldest there. -/
def Compatible (ids : List Nat) (docs docs' : List Row) : Prop :=
  ∀ r, oldest docs = some r →
    ((∃ d ∈ docs', d.id ∉ ids ∧ ∃ e ∈ docs, e.id = d.id) ↔ ∃ d ∈ docs', d.id = r.id)
      ∧ ((∃ d ∈ docs', d.id = r.id) →
        ∃ d ∈ docs', d.id = r.id ∧ ∀ e ∈ docs', d.createdAt ≤ e.createdAt)

/-- A `save` that finds several rows is compatible with what was found for all other keys. -/
def KeysApart (p : Storer κ × Doubles κ) : Event → Prop
  | .save _ m ctx data => ∀ w, saving cfg m ctx data p.1 = some w → 1 < w.docs.length →
      ∀ key docs, key ≠ w.key → p.2 key = some docs → Compatible p.1.deleteIds w.docs docs
  | _ => True

/-! ## The oldest row -/

theorem exists_oldest {docs : List Row} (h : docs ≠ []) :
    ∃ r, oldest docs = some r ∧ r ∈ docs ∧ ∀ d ∈ docs, r.createdAt ≤ d.createdAt := by
  induction docs with
  | nil => exact absurd rfl h
  | cons d ds ih =>
    rw [oldest]
    cases ds with
    | nil =>
      refine ⟨d, rfl, List.mem_cons_self, fun d' hd' => ?_⟩
      rw [List.mem_singleton.mp hd']
    | cons d₁ ds =>
      obtain ⟨r, hr, hmem, hleast⟩ := ih (List.cons_ne_nil _ _)
      rw [hr]
      simp only
      split_ifs with hlt
      · refine ⟨r, rfl, List.mem_cons_of_mem d hmem, fun d' hd' => ?_⟩
        rcases List.mem_cons.mp hd' with rfl | hd'
        · exact hlt.le
        · exact hleast d' hd'
      · refine ⟨d, rfl, List.mem_cons_self, fun d' hd' => ?_⟩
        rcases List.mem_cons.mp hd' with rfl | hd'
        · exact le_rfl
        · exact (not_lt.mp hlt).trans (hleast d' hd')

/-! ## One `save` -/

section Mark

variable {ids : List Nat} {docs docs' : List Row} {r : Row} {x : Nat}

/-- The ids of all rows, before the oldest one is taken out. -/
theorem mem_foldl_mark : x ∈ docs.foldl (fun ids d => if d.id ∈ ids then ids else ids ++ [d.id]) ids
    ↔ x ∈ ids ∨ ∃ d ∈ docs, d.id = x := by
  induction docs generalizing ids with
  | nil => simp
  | cons d ds ih =>
    rw [List.foldl_cons, ih]
    split_ifs with hmem
    · constructor
      · rintro (hx | ⟨e, he, rfl⟩)
        · exact Or.inl hx
        · exact Or.inr ⟨e, List.mem_cons_of_mem d he, rfl⟩
      · rintro (hx | ⟨e, he, rfl⟩)
        · exact Or.inl hx
        · rcases List.mem_cons.mp he with rfl | he
          · exact Or.inl hmem
          · exact Or.inr ⟨e, he, rfl⟩
    · rw [List.mem_append, List.mem_singleton, or_assoc]
      constructor
      · rintro (hx | rfl | ⟨e, he, rfl⟩)
        · exact Or.inl hx
        · exact Or.inr ⟨d, List.mem_cons_self, rfl⟩
        · exact Or.inr ⟨e, List.mem_cons_of_mem d he, rfl⟩
      · rintro (hx | ⟨e, he, rfl⟩)
        · exact Or.inl hx
        · rcases List.mem_cons.mp he with rfl | he
          · exact Or.inr (Or.inl rfl)
          · exact Or.inr (Or.inr ⟨e, he, rfl⟩)

theorem nodup_foldl_mark (h : ids.Nodup) :
    (docs.foldl (fun ids d => if d.id ∈ ids then ids else ids ++ [d.id]) ids).Nodup := by
  refine List.foldlRecOn docs _ h (fun ids hids d _ => ?_)
  split_ifs with hmem
  · exact hids
  · exact List.Nodup.append hids (List.nodup_singleton _)
      (List.disjoint_singleton.mpr hmem)

theorem mem_markDuplicates (h : ids.Nodup) (hr : oldest docs = some r) :
    x ∈ markDuplicates docs ids ↔ (x ∈ ids ∨ ∃ d ∈ docs, d.id = x) ∧ x ≠ r.id := by
  unfold markDuplicates
  simp only [hr]
  rw [(nodup_foldl_mark h).mem_erase_iff, mem_foldl_mark, and_comm]

theorem nodup_markDuplicates (h : ids.Nodup) : (markDuplicates docs ids).Nodup := by
  unfold markDuplicates
  cases oldest docs with
  | none => exact nodup_foldl_mark h
  | some r => exact (nodup_foldl_mark h).erase _

/-- Of the rows that are found, all but one are marked. -/
theorem allButOne_markDuplicates (h : ids.Nodup) (hne : docs ≠ []) :
    AllButOne (markDuplicates docs ids) docs := by
  obtain ⟨r, hr, hmem, hleast⟩ := exists_oldest hne
  refine ⟨r, hmem, hleast, fun hin => ((mem_markDuplicates h hr).mp hin).2 rfl, fun d hd => ?_⟩
  by_cases heq : d.id = r.id
  · exact Or.inl heq
  · exact Or.inr ((mem_markDuplicates h hr).mpr ⟨Or.inr ⟨d, hd, rfl⟩, heq⟩)

/-- **The rows of another key** are still marked but for one if and only if they are compatible. -/
theorem allButOne_iff_compatible (h : ids.Nodup) (hne : docs ≠ []) (hother : AllButOne ids docs') :
    AllButOne (markDuplicates docs ids) docs' ↔ Compatible ids docs docs' := by
  obtain ⟨r, hr, hrmem, -⟩ := exists_oldest hne
  obtain ⟨k, hk, hkleast, hkid, hrest⟩ := hother
  have hmark : ∀ x, x ∈ markDuplicates docs ids ↔ (x ∈ ids ∨ ∃ d ∈ docs, d.id = x) ∧ x ≠ r.id :=
    fun x => mem_markDuplicates h hr
  constructor
  · rintro ⟨q, hq, hqleast, hqid, hqrest⟩ r' hr'
    obtain rfl : r = r' := Option.some.inj (hr.symm.trans hr')
    -- what was marked or is now, and is not marked in the end, has been taken out
    have hout : (q.id ∈ ids ∨ ∃ d ∈ docs, d.id = q.id) → q.id = r.id := by
      intro hin
      by_contra hnot
      exact hqid ((hmark q.id).mpr ⟨hin, hnot⟩)
    have hkept : ∀ d ∈ docs', d.id = r.id → d.id = q.id := by
      intro d hd heq
      refine (hqrest d hd).resolve_right (fun hin => ?_)
      exact ((hmark d.id).mp hin).2 heq
    refine ⟨⟨?_, ?_⟩, ?_⟩
    · rintro ⟨d, hd, hdid, e, he, hed⟩
      have hdk : d.id = k.id := (hrest d hd).resolve_right hdid
      refine ⟨q, hq, hout ?_⟩
      rcases hrest q hq with hqk | hqin
      · exact Or.inr ⟨e, he, by rw [hed, hdk, hqk]⟩
      · exact Or.inl hqin
    · rintro ⟨d, hd, hdr⟩
      have hdq := hkept d hd hdr
      by_cases hqin : q.id ∈ ids
      · -- the row that was kept is another one, and has been marked
        refine ⟨k, hk, hkid, ?_⟩
        rcases hqrest k hk with hkq | hkin
        · exact absurd (hkq ▸ hqin) hkid
        · exact ((hmark k.id).mp hkin).1.resolve_left hkid
      · exact ⟨q, hq, hqin, r, hrmem, hdr.symm.trans hdq⟩
    · rintro ⟨d, hd, hdr⟩
      exact ⟨q, hq, (hkept d hd hdr).symm.trans hdr, hqleast⟩
  · intro hcompatible
    obtain ⟨hiff, hleast⟩ := hcompatible r hr
    by_cases hshared : ∃ d ∈ docs', d.id = r.id
    · obtain ⟨q, hq, hqr, hqleast⟩ := hleast hshared
      obtain ⟨d, hd, hdid, e, he, hed⟩ := hiff.mpr hshared
      have hdk : d.id = k.id := (hrest d hd).resolve_right hdid
      refine ⟨q, hq, hqleast, fun hin => ((hmark q.id).mp hin).2 hqr, fun d' hd' => ?_⟩
      by_cases heq : d'.id = r.id
      · exact Or.inl (heq.trans hqr.symm)
      · refine Or.inr ((hmark d'.id).mpr ⟨?_, heq⟩)
        rcases hrest d' hd' with hk' | hin
        · exact Or.inr ⟨e, he, by rw [hed, hdk, hk']⟩
        · exact Or.inl hin
    · refine ⟨k, hk, hkleast, fun hin => ?_, fun d hd => ?_⟩
      · obtain ⟨hfound, -⟩ := (hmark k.id).mp hin
        exact hshared (hiff.mp ⟨k, hk, hkid, hfound.resolve_left hkid⟩)
      · refine (hrest d hd).imp_right (fun hin => (hmark d.id).mpr ⟨Or.inl hin, fun heq => ?_⟩)
        exact hshared ⟨d, hd, heq⟩

end Mark

/-! ## One call -/

variable {cfg} {s : Storer κ} {p : Storer κ × Doubles κ}

variable (cfg) in
omit [DecidableEq κ] in
theorem deleteIds_store (time : Int) (m : ItemMeta) (table : String) (docs : List Row)
    (context data : Doc) (s : Storer κ) :
    (store cfg time m table docs context data s).deleteIds
      = if 1 < docs.length then markDuplicates docs s.deleteIds else s.deleteIds := by
  unfold store
  rcases docs with _ | ⟨doc, _ | ⟨doc', docs⟩⟩
  · rfl
  · simp only
    rcases (changeOf cfg m.flags doc context data).difference with _ | _ | _ <;> rfl
  · exact (if_pos (by simp)).symm

omit [DecidableEq κ] in
theorem deleteIds_postBulkProcess (time : Int) (s : Storer κ) :
    (postBulkProcess time s).2.deleteIds = s.deleteIds := by
  unfold postBulkProcess
  split_ifs with hids hpost
  · rfl
  · cases s.table <;> rfl
  · cases s.table <;> rfl

omit [DecidableEq κ] in
/-- Nothing is marked after a batch. -/
theorem deleteIds_postMsgProcess (o : IterOrder) (s : Storer κ) :
    (postMsgProcess o s).deleteIds = [] := by
  unfold postMsgProcess
  split_ifs with h
  · exact List.isEmpty_iff.mp h
  · rfl

omit [DecidableEq κ] in
/-- Nothing has been found, and nothing is marked. -/
theorem resolved_of_nil (h : s.deleteIds = []) : Resolved (s, fun _ => none) where
  nodup := by
    rw [h]
    exact List.nodup_nil
  marked := fun _ _ hnone => by cases hnone

omit [DecidableEq κ] in
/-- A call that marks nothing and finds no duplicates. -/
theorem Resolved.congr (h : Resolved p) {s' : Storer κ} (hids : s'.deleteIds = p.1.deleteIds) :
    Resolved (s', p.2) where
  nodup := by
    rw [hids]
    exact h.nodup
  marked := fun key docs hdocs => by
    rw [hids]
    exact h.marked key docs hdocs

/-- A `save` that finds several rows leaves the duplicates resolved if and only if it is compatible
with the other keys. -/
theorem resolved_mark_iff (h : Resolved p) {key : κ} {docs : List Row} (hdocs : 1 < docs.length)
    {s' : Storer κ} (hids : s'.deleteIds = markDuplicates docs p.1.deleteIds) :
    Resolved (s', Function.update p.2 key (some docs))
      ↔ ∀ key' docs', key' ≠ key → p.2 key' = some docs'
        → Compatible p.1.deleteIds docs docs' := by
  have hne : docs ≠ [] := by
    rintro rfl
    exact absurd hdocs (by simp)
  constructor
  · intro h' key' docs' hkey hdocs'
    have hmarked := h'.marked key' docs' ((Function.update_of_ne hkey _ _).trans hdocs')
    rw [hids] at hmarked
    exact (allButOne_iff_compatible h.nodup hne (h.marked key' docs' hdocs')).mp hmarked
  · intro hothers
    constructor
    · rw [hids]
      exact nodup_markDuplicates h.nodup
    · intro key' docs' hdocs'
      rw [hids]
      by_cases hkey : key' = key
      · subst hkey
        obtain rfl : docs = docs' :=
          Option.some.inj ((Function.update_self key' (some docs) p.2).symm.trans hdocs')
        exact allButOne_markDuplicates h.nodup hne
      · replace hdocs' := (Function.update_of_ne hkey _ _).symm.trans hdocs'
        exact (allButOne_iff_compatible h.nodup hne (h.marked key' docs' hdocs')).mpr
          (hothers key' docs' hkey hdocs')

theorem doubling_save_none {time : Int} {m : ItemMeta} {ctx : Context} {data : Item}
    (hw : saving cfg m ctx data p.1 = none) : doubling cfg p (.save time m ctx data) = p := by
  refine Prod.ext ?_ ?_
  · refine (save_eq cfg time m ctx data p.1).trans ?_
    rw [hw]
  · show (match saving cfg m ctx data p.1 with
      | some w => if 1 < w.docs.length then Function.update p.2 w.key (some w.docs) else p.2
      | none => p.2) = p.2
    rw [hw]

theorem doubling_save {time : Int} {m : ItemMeta} {ctx : Context} {data : Item} {w : Saving κ}
    (hw : saving cfg m ctx data p.1 = some w) : doubling cfg p (.save time m ctx data)
      = (store cfg time m w.table w.docs w.context w.data p.1,
        if 1 < w.docs.length then Function.update p.2 w.key (some w.docs) else p.2) := by
  refine Prod.ext ?_ ?_
  · refine (save_eq cfg time m ctx data p.1).trans ?_
    rw [hw]
  · show (match saving cfg m ctx data p.1 with
      | some w => if 1 < w.docs.length then Function.update p.2 w.key (some w.docs) else p.2
      | none => p.2) = _
    rw [hw]

/-- **One call**: duplicates stay resolved if and only if the keys stay apart. -/
theorem resolved_step_iff (h : Resolved p) (e : Event) :
    Resolved (doubling cfg p e) ↔ KeysApart cfg p e := by
  cases e with
  | preMsg msg => exact iff_of_true (resolved_of_nil (ids_preMsgProcess cfg msg p.1).1) trivial
  | preBulk m context data =>
    exact iff_of_true (h.congr (sameRound_preBulkProcess cfg m context data p.1).deleteIds) trivial
  | postBulk time => exact iff_of_true (h.congr (deleteIds_postBulkProcess time p.1)) trivial
  | postMsg o => exact iff_of_true (resolved_of_nil (deleteIds_postMsgProcess o p.1)) trivial
  | save time m ctx data =>
    cases hw : saving cfg m ctx data p.1 with
    | none =>
      rw [doubling_save_none hw]
      refine iff_of_true h (fun w hsome => ?_)
      rw [hw] at hsome
      cases hsome
    | some w =>
      rw [doubling_save hw]
      have hids := deleteIds_store cfg time m w.table w.docs w.context w.data p.1
      have hone : KeysApart cfg p (.save time m ctx data) ↔ (1 < w.docs.length →
          ∀ key docs, key ≠ w.key → p.2 key = some docs → Compatible p.1.deleteIds w.docs docs) :=
        ⟨fun hall => hall w hw,
          fun hall w' hw' => Option.some.inj (hw.symm.trans hw') ▸ hall⟩
      rw [hone]
      by_cases hdocs : 1 < w.docs.length
      · rw [if_pos hdocs] at hids ⊢
        rw [resolved_mark_iff h hdocs hids]
        exact ⟨fun hothers _ => hothers, fun hothers => hothers hdocs⟩
      · rw [if_neg hdocs] at hids ⊢
        exact iff_of_true (h.congr hids) (fun hdocs' => absurd hdocs' hdocs)

/-! ## A batch -/

variable (cfg) in
/-- **Duplicates in a batch**: whatever is saved after `pre_msg_process`, and in whatever order, the
duplicates of all keys are resolved in every state if and only if the keys are apart in every
call. -/
theorem resolved_iff_keysApart (msg : List Message) (s : Storer κ) (es : List Event) :
    Run.Always (doubling cfg) Resolved ((preMsgProcess cfg msg s).2, fun _ => none) es
      ↔ Run.Along (doubling cfg) (KeysApart cfg) ((preMsgProcess cfg msg s).2, fun _ => none) es :=
  Run.always_iff_along (I := Resolved) (J := fun _ => True) (fun _ _ _ => trivial)
    (fun _ e _ h => resolved_step_iff h e) trivial
    (resolved_of_nil (ids_preMsgProcess cfg msg s).1)

/-! ### A station that gets a vlan -/

/-- The context of a station, with what is known of it. -/
def stationContext (more : List (String × Value)) : Context :=
  Dict.ofList (("device", .str "swh-b050") :: more)

/-- A station as it was found first, and later with its vlan. -/
def stationRows : List Row :=
  [⟨1, 10, 10, flatten (stationContext [("mac", .str "00aa")]), Dict.ofList [("port", "4")],
      "ports__status"⟩,
    ⟨2, 5, 5, flatten (stationContext [("mac", .str "00aa"), ("vlan", .int 32)]),
      Dict.ofList [("port", "5")], "ports__status"⟩]

/-- One datum about the station. -/
def stationRound (time : Int) (delayed : List String) (more : List (String × Value)) (d : Item) :
    Round where
  time := time
  meta' := { portMeta with flags := { delayedContext := delayed } }
  context := stationContext more
  data := [d]
  saves := [(stationContext more, d)]

/-- The first row gets the vlan, so that the station without one is new; then both are seen. -/
def stationRounds : List Round :=
  [stationRound 100 ["vlan"] [("mac", .str "00aa")]
      (Dict.ofList [("vlan", .int 32), ("port", .str "6")]),
    stationRound 101 ["mac"] [] (Dict.ofList [("mac", .str "00aa")]),
    stationRound 102 [] [("mac", .str "00aa")] (Dict.ofList [("port", .str "7")]),
    stationRound 103 [] [("mac", .str "00aa"), ("vlan", .int 32)]
      (Dict.ofList [("port", .str "8")])]

/-- The storer when the batch begins. -/
def stationStorer : Storer (List (String × Option String)) :=
  (preMsgProcess sampleConfig [portMessage] (sampleStorer stationRows 3)).2

/-- Both rows of the station without a vlan are deleted. -/
theorem not_resolved_stations :
    ¬ Run.Always (doubling sampleConfig) Resolved (stationStorer, fun _ => none)
      (roundsEvents sampleConfig stationRounds stationStorer) := by
  intro h
  have hids : (Run.run (doubling sampleConfig) (stationStorer, fun _ => none)
      (roundsEvents sampleConfig stationRounds stationStorer)).1.deleteIds = [3, 1] := by
    decide
  have hfound : ((Run.run (doubling sampleConfig) (stationStorer, fun _ => none)
      (roundsEvents sampleConfig stationRounds stationStorer)).2
        [("device", some "swh-b050"), ("mac", some "00aa")]).map (List.map Row.id)
          = some [1, 3] := by
    decide
  obtain ⟨docs, hdocs, hdocsid⟩ := Option.map_eq_some_iff.mp hfound
  obtain ⟨r, hr, -, hkept, -⟩ := h.last.marked _ docs hdocs
  have hid : r.id ∈ docs.map Row.id := List.mem_map_of_mem hr
  rw [hdocsid] at hid
  rw [hids] at hkept
  simp only [List.mem_cons, List.not_mem_nil, or_false] at hid hkept
  omega

end Postgres
