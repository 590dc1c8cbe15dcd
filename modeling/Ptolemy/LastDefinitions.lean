/-
# The last definitions of a group

The output of a group shows what its last definitions have made of the columns, when nothing
behind them touches these: `process_last`.  Some of them have a function make their column of the
whole group (`processDef_function`).

A map that puts a list in the place of the dataset ends the output: no definition makes a dataset
of a list again, and a list is not pivoted.
-/
import Ptolemy.GathererSteps
import Ptolemy.GathererPivot

namespace DriverMaps

/-! ## Lists -/

/-- A call that leaves a list. -/
def Call.LeavesArray (c : Call) : Prop :=
  (∃ l, c.given = .array l) ∧ ∀ d, c.result = .ok (some d) → ∃ l, d = .array l

theorem leavesArray_same (l : List Value) : (Call.same (.array l)).LeavesArray :=
  ⟨⟨l, rfl⟩, fun _ h => nomatch h⟩

theorem leavesArray_raised (l : List Value) (e : Exn) :
    Call.LeavesArray ⟨.array l, .error e⟩ :=
  ⟨⟨l, rfl⟩, fun _ h => nomatch h⟩

theorem Call.LeavesArray.andThen {c : Call} {f : Data → Call} (hc : c.LeavesArray)
    (hf : ∀ l, (f (.array l)).LeavesArray) : (c.andThen f).LeavesArray := by
  obtain ⟨⟨l, hgiven⟩, hresult⟩ := hc
  unfold Call.andThen
  cases hr : c.result with
  | error e => exact ⟨⟨l, hgiven⟩, fun _ h => nomatch h⟩
  | ok new =>
    cases new with
    | none =>
      dsimp only
      rw [hgiven]
      exact hf l
    | some d =>
      obtain ⟨l', rfl⟩ := hresult d hr
      obtain ⟨⟨l₂, hgiven₂⟩, hresult₂⟩ := hf l'
      refine ⟨⟨l, hgiven⟩, fun d h => ?_⟩
      dsimp only at h
      cases hr₂ : (f (.array l')).result with
      | error e =>
        rw [hr₂] at h
        cases h
      | ok new₂ =>
        rw [hr₂] at h
        cases new₂ with
        | none =>
          cases h
          exact ⟨l₂, hgiven₂⟩
        | some d₂ =>
          cases h
          exact hresult₂ d₂ hr₂

theorem processArray_leavesArray (parent : Results) (name : String) (l : List Value) (m : MapDef) :
    (processArray parent name l m).LeavesArray := by
  unfold processArray
  dsimp only
  repeat' split
  all_goals first
    | exact leavesArray_same l
    | exact leavesArray_raised l _

section array

variable {env : Env}

mutual

theorem _remap_leavesArray (i : Maps) (parent : Results) (field : String) (l : List Value) :
    (_remap env i parent field (.array l)).LeavesArray := by
  cases i with
  | list is =>
    unfold _remap
    exact _remapList_leavesArray is field l
  | dict entries =>
    unfold _remap
    refine List.foldlRecOn entries _ (leavesArray_same l) (fun c hc m _ => ?_)
    exact hc.andThen (fun l' => processArray_leavesArray parent field l' m)
  | other =>
    unfold _remap
    exact leavesArray_same l

theorem _remapList_leavesArray (is : List Maps) (field : String) (l : List Value) :
    (_remapList env is field (.array l)).LeavesArray := by
  cases is with
  | nil =>
    unfold _remapList
    exact leavesArray_same l
  | cons i is =>
    unfold _remapList
    exact (_remap_leavesArray i ∅ field l).andThen (fun l' => _remapList_leavesArray is field l')

end

theorem remapLoop_array (parent : Results) (field : String) (is : List Maps) (l : List Value) :
    ∃ l', (remapLoop env parent field is (.array l)).1 = .array l' := by
  induction is generalizing l with
  | nil => exact ⟨l, rfl⟩
  | cons i is ih =>
    obtain ⟨⟨l', hgiven⟩, hresult⟩ := @_remap_leavesArray env i parent field l
    unfold remapLoop
    cases hr : (_remap env i parent field (.array l)).result with
    | error e => exact ⟨l', hgiven⟩
    | ok new =>
      cases new with
      | none =>
        dsimp only [Option.getD_none]
        rw [hgiven]
        exact ih l'
      | some d =>
        obtain ⟨l₂, rfl⟩ := hresult d hr
        exact ih l₂

/-- A definition makes no dataset of a list. -/
theorem remap_array {parent : Results} {field : String} {item : Item} {l : List Value} {out : Data}
    (h : remap env parent (.array l) field item = .ok out) : ∃ l', out = .array l' := by
  have htake : ∀ {taken}, takeRef (.array l) field item = .ok taken → taken = .array l := by
    intro taken htaken
    unfold takeRef at htaken
    cases href : item.ref with
    | none =>
      rw [href] at htaken
      exact (Except.ok.inj htaken).symm
    | some ref =>
      rw [href] at htaken
      obtain ⟨c, -, htaken⟩ := Except.bind_eq_ok.mp htaken
      split_ifs at htaken
      · exact (Except.ok.inj htaken).symm
      · exact (Except.ok.inj htaken).symm
  unfold remap at h
  obtain ⟨taken, htaken, h⟩ := Except.bind_eq_ok.mp h
  obtain rfl := htake htaken
  obtain ⟨l', hl'⟩ := @remapLoop_array env parent field item.opened l
  cases hloop : remapLoop env parent field item.opened (.array l) with
  | mk data e =>
    rw [hloop] at h hl'
    cases hl'
    cases e with
    | none => exact ⟨l', (Except.ok.inj h).symm⟩
    | some e =>
      cases e with
      | keyError key => exact ⟨l', (Except.ok.inj h).symm⟩
      | _ => cases h

end array

end DriverMaps

namespace Gatherer

open DriverMaps

variable {env : Env} {parent : Results} {ignore : List String}

/-! ## The last definitions of a group -/

/-- A list stays a list. -/
theorem processDef_array {w w' : Work} {d : String × DriverMaps.Item} {l : List Value}
    (hw : w.result = .array l) (h : processDef env parent w d = .ok w') :
    ∃ l', w'.result = .array l' := by
  unfold processDef at h
  obtain ⟨out, hout, h⟩ := Except.bind_eq_ok.mp h
  rw [hw] at hout
  obtain ⟨l', rfl⟩ := remap_array hout
  split at h
  · cases h
    exact ⟨l', rfl⟩
  · unfold countDown at h
    dsimp only at h
    split_ifs at h
    · split at h
      · cases h
      · unfold giveBack at h
        dsimp only at h
        split_ifs at h
        · cases h
          exact ⟨l', rfl⟩
        · cases h
    · cases h
      exact ⟨l', rfl⟩

theorem foldlM_processDef_array {defs : List (String × DriverMaps.Item)} {w w' : Work}
    {l : List Value} (hw : w.result = .array l)
    (h : defs.foldlM (processDef env parent) w = .ok w') : ∃ l', w'.result = .array l' :=
  Except.foldlM_rest (I := fun _ w => ∃ l, w.result = .array l)
    (fun _ _ _ _ ⟨_, hl⟩ hstep => processDef_array hl hstep) ⟨l, hw⟩ h

theorem copyRefs_result {w w' : Work} (h : copyRefs env w = .ok w') : w'.result = w.result := by
  unfold copyRefs at h
  refine Except.foldlM_rest (I := fun _ w₁ => w₁.result = w.result) ?_ rfl h
  rintro p l w₁ w₂ hw₁ hstep
  split_ifs at hstep
  · obtain ⟨o, -, hstep⟩ := Except.bind_eq_ok.mp hstep
    cases o with
    | none => cases hstep
    | some c =>
      cases hstep
      exact hw₁
  · cases hstep
    exact hw₁

theorem foldlM_processGroup_array {gs : List (String × Group)} {w w' : Work} {l : List Value}
    (hw : w.result = .array l) (h : gs.foldlM (processGroup env parent ignore) w = .ok w') :
    ∃ l', w'.result = .array l' := by
  refine Except.foldlM_rest (I := fun _ w => ∃ l, w.result = .array l) ?_ ⟨l, hw⟩ h
  rintro g gs w₁ w₂ ⟨l₁, hl₁⟩ hstep
  unfold processGroup at hstep
  split_ifs at hstep
  · cases hstep
    exact ⟨l₁, hl₁⟩
  · obtain ⟨w₀, hcopy, hstep⟩ := Except.bind_eq_ok.mp hstep
    exact foldlM_processDef_array ((copyRefs_result hcopy).trans hl₁) hstep

/-- A dataset after definitions and groups was one before. -/
theorem exists_dataset_before {defs : List (String × DriverMaps.Item)}
    {gs : List (String × Group)} {w w₁ w₂ : Work} {d : Dataset}
    (hdefs : defs.foldlM (processDef env parent) w = .ok w₁)
    (hgs : gs.foldlM (processGroup env parent ignore) w₁ = .ok w₂) (hd : w₂.result = .dataset d) :
    ∃ d₀, w.result = .dataset d₀ := by
  cases hw : w.result with
  | dataset d₀ => exact ⟨d₀, rfl⟩
  | array l =>
    obtain ⟨l₁, hl₁⟩ := foldlM_processDef_array hw hdefs
    obtain ⟨l₂, hl₂⟩ := foldlM_processGroup_array hl₁ hgs
    rw [hl₂] at hd
    cases hd

/-- A field without a column shows nothing, and neither does what is no field of the group. -/
theorem cell_pivotGroup_none {G : Group} {result : Dataset} {rows : Dict Value Column} {f : String}
    (hclean : ∀ d ∈ G.defs, d.1 = f → d.2.clean = false)
    (hnone : f ∈ G.defs.map Prod.fst → result.lookup f = none)
    (h : pivotGroup env G result = .ok rows) (k : Value) : cell G.groupByKey rows f k = none := by
  rw [cell_pivotGroup_eq_pivot hclean h]
  unfold pivot
  refine (foldl_keep (fun out => cell G.groupByKey out f k) (fun out p hp => ?_) ∅).trans cell_empty
  split_ifs with hfield
  · rw [cell_column, if_neg]
    rintro rfl
    have hlook := Dict.mem_items.mp (env.order.mem_order.mp (show (p.1, p.2) ∈ _ from hp))
    rw [hnone hfield] at hlook
    cases hlook
  · rfl

/-- What the output of a group shows of a column. -/
theorem cell_eq {G : Group} {result : Dataset} {rows : Dict Value Column} {f : String}
    (hf : f ∈ G.defs.map Prod.fst) (hclean : ∀ d ∈ G.defs, d.1 = f → d.2.clean = false)
    (h : pivotGroup env G result = .ok rows) (k : Value) :
    cell G.groupByKey rows f k
      = (((result.lookup f).getD ∅).lookup k).map (shown G.groupByKey) := by
  cases hcolumn : result.lookup f with
  | none => exact cell_pivotGroup_none hclean (fun _ => hcolumn) h k
  | some column => exact cell_pivotGroup hf hclean hcolumn h

/-- **The last definitions of a group** work on a dataset, and the output of the group shows what
they have left of the columns that the groups behind do not touch. -/
theorem process_last {driver : Driver} {result : Dataset} {results : Results}
    {before after : List (String × Group)} {g : String} {G : Group}
    {earlier later : List (String × DriverMaps.Item)}
    (hgroups : env.order.order driver.items = before ++ (g, G) :: after)
    (hdefs : G.defs = earlier ++ later) (hg : g ∉ ignore)
    (h : process env parent ignore driver result = .ok results) :
    ∃ w w' rows d d', w.result = .dataset d ∧ w'.result = .dataset d'
      ∧ later.foldlM (processDef env parent) w = .ok w' ∧ results.lookup g = some rows
      ∧ (∀ f ∈ G.defs.map Prod.fst, (∀ d ∈ G.defs, d.1 = f → d.2.clean = false) →
        (∀ p ∈ after, p.1 ∉ ignore → ∀ d ∈ p.2.defs, ¬ Touches env d f) →
        ∀ k, cell G.groupByKey rows f k
          = (((d'.lookup f).getD ∅).lookup k).map (shown G.groupByKey))
      ∧ (∀ f ∉ G.defs.map Prod.fst, ∀ k, cell G.groupByKey rows f k = none)
      ∧ ∀ f, (∀ p ∈ before, p.1 ∉ ignore → ∀ d ∈ p.2.defs, ¬ Touches env d f) →
        (∀ d ∈ earlier, ¬ Touches env d f) → d.lookup f = result.lookup f
          ∧ (w.wantedRefsCount.lookup f).getD 0 = wanted later f := by
  obtain ⟨w₂, hrun, hpivot⟩ := Except.bind_eq_ok.mp h
  rw [hgroups, List.foldlM_append] at hrun
  obtain ⟨w₁, hbefore, hrun⟩ := Except.bind_eq_ok.mp hrun
  rw [List.foldlM_cons] at hrun
  obtain ⟨w', hgroup, hafter⟩ := Except.bind_eq_ok.mp hrun
  unfold processGroup at hgroup
  rw [if_neg hg] at hgroup
  obtain ⟨w₀, hcopy, hgroup⟩ := Except.bind_eq_ok.mp hgroup
  rw [hdefs, List.foldlM_append] at hgroup
  obtain ⟨w, hearlier, hlater⟩ := Except.bind_eq_ok.mp hgroup
  cases hend : w₂.result with
  | array l =>
    rw [hend] at hpivot
    cases hpivot
  | dataset d₂ =>
    obtain ⟨d, hd⟩ := exists_dataset_before hlater hafter hend
    have hnothing : ([] : List (String × DriverMaps.Item)).foldlM (processDef env parent) w'
        = .ok w' := rfl
    obtain ⟨d', hd'⟩ := exists_dataset_before hnothing hafter hend
    have hmem : (g, G) ∈ env.order.order driver.items := by
      rw [hgroups]
      exact List.mem_append_right _ List.mem_cons_self
    rw [hend] at hpivot
    obtain ⟨rows, hrows, hcells⟩ := lookup_pivotGroups (driver.nodup_order_keys env.order) hmem hpivot
    refine ⟨w, w', rows, d, d', hd, hd', hlater, hrows, fun f hf hclean huntouched k => ?_,
      fun f hf k => ?_, fun f huntouched huntouched' => ?_⟩
    · have hwanted : f ∈ wantedFields ignore (env.order.order driver.items) :=
        List.mem_flatMap.mpr ⟨(g, G), List.mem_filter.mpr ⟨hmem, decide_eq_true hg⟩, hf⟩
      obtain ⟨d₃, hd₃, hlook, -⟩ := foldlM_processGroup_frame huntouched hd' hafter
      rw [hend] at hd₃
      cases hd₃
      rw [cell_eq hf hclean hcells, Dict.lookup_restrict, if_pos (decide_eq_true hwanted), hlook]
    · exact cell_pivotGroup_none
        (fun d hd heq => absurd (heq ▸ List.mem_map_of_mem hd) hf) (fun hmem => absurd hmem hf)
        hcells k
    · obtain ⟨d₁, hd₁, hlook₁, hcount₁⟩ := foldlM_processGroup_frame huntouched rfl hbefore
      obtain ⟨hresult, hcount, -⟩ := copyRefs_spec (w := { w₁ with
        wantedRefsCount := countRefs G.defs w₁.wantedRefsCount }) hd₁ hcopy
      obtain ⟨d₂, hd₂, hlook₂, hcount₂⟩ :=
        foldlM_processDef_frame huntouched' (hresult.trans hd₁) hearlier
      rw [hd] at hd₂
      cases hd₂
      have hnone : wanted earlier f = 0 :=
        wanted_eq_zero (fun d hd href => huntouched' d hd (Or.inr (Or.inl href)))
      refine ⟨hlook₂.trans hlook₁, ?_⟩
      rw [hcount₂, hcount, lookup_countRefs, hcount₁, hdefs]
      unfold wanted at hnone ⊢
      rw [List.countP_append, hnone, Nat.zero_add]
      exact zero_add _

/-! ## Columns that a function makes -/

/-- A definition whose column a function makes of the group. -/
def groupItem (func : String) : DriverMaps.Item where
  maps := [.dict [.function "group" func]]

theorem processDef_groupItem {w : Work} {d : Dataset} (hd : w.result = .dataset d)
    (field func : String) : processDef env parent w (field, groupItem func)
      = .ok { w with result := .dataset (match env.groupCall func d with
        | (given, some c) => AList.insert field c given
        | (given, none) => given) } := by
  unfold processDef
  rw [hd]
  unfold remap takeRef groupItem Item.opened
  simp only [Except.ok_bind, List.flatMap_cons, List.flatMap_nil, List.append_nil]
  unfold remapLoop _remap
  simp only [List.foldl_cons, List.foldl_nil, Call.andThen, Call.same, processByMap, processDataset]
  unfold _process_by_function
  rw [if_neg (by decide), if_neg (by decide), if_neg (by decide), if_neg (by decide),
    if_neg (by decide), if_pos rfl]
  cases env.groupCall func d with
  | mk given c =>
    cases c with
    | none => rfl
    | some c => rfl

/-- A dataset with the column that a function returns. -/
def withColumn (field : String) (r : Except Exn Column) (d : Dataset) : Dataset :=
  match r with
  | .ok c => AList.insert field c d
  | .error _ => d

theorem lookup_withColumn {field f : String} (hf : f ≠ field) (r : Except Exn Column)
    (d : Dataset) : (withColumn field r d).lookup f = d.lookup f := by
  cases r with
  | ok c => exact AList.lookup_insert_ne hf
  | error e => rfl

/-- A function that leaves the data alone. -/
theorem processDef_function {w : Work} {d : Dataset} (hd : w.result = .dataset d) {func : String}
    {r : Except Exn Column} (hfunc : env.groupCall func d = (d, r.toOption)) (field : String) :
    processDef env parent w (field, groupItem func)
      = .ok { w with result := .dataset (withColumn field r d) } := by
  rw [processDef_groupItem hd, hfunc]
  cases r with
  | ok c => rfl
  | error e => rfl

end Gatherer
