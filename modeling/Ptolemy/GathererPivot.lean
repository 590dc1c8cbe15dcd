/-
# The pivoted groups

The output of a group is read through its cells, the values of a field at an index:
`cell_pivot` says what the pivot shows, and `cell_cleanField` what cleaning leaves.
-/
import Ptolemy.GathererProcess

namespace Gatherer

open DriverMaps

variable {env : Env} {parent : Results} {ignore : List String}

/-! ## Cells -/

/-- The value of a field at an index in the output of a group. -/
def cell (byKey : Bool) (rows : Dict Value Column) (f : String) (k : Value) : Option Value :=
  if byKey then (rows.lookup k).bind (fun row => row.lookup (.str f))
  else (rows.lookup (.str f)).bind (fun column => column.lookup k)

/-- A value as it is shown in the output: in rows the text `None` is null. -/
def shown (byKey : Bool) (v : Value) : Value :=
  if byKey ∧ v = .str "None" then .none else v

section pivot

variable {byKey : Bool} {f : String} {k : Value}

theorem cell_empty : cell byKey ∅ f k = none := by
  unfold cell
  split_ifs
  · rfl
  · rfl

theorem cell_pivotValue (f' : String) (out : Dict Value Column) (k' v : Value) :
    cell byKey (pivotValue byKey f' out k' v) f k
      = if f = f' ∧ k = k' then some (shown byKey v) else cell byKey out f k := by
  unfold cell pivotValue shown
  cases byKey with
  | true =>
    simp only [if_true, true_and, Dict.lookup_insert_eq]
    by_cases hk : k = k'
    · subst hk
      simp only [if_true, and_true, Option.bind_some, Dict.lookup_insert_eq, Value.str.injEq]
      by_cases hf : f = f'
      · simp only [hf, if_true]
      · simp only [hf, if_false]
        cases AList.lookup k out <;> rfl
    · simp only [hk, if_false, and_false]
  | false =>
    simp only [Bool.false_eq_true, if_false, false_and, Dict.lookup_insert_eq, Value.str.injEq]
    by_cases hf : f = f'
    · subst hf
      simp only [if_true, true_and, Option.bind_some, Dict.lookup_insert_eq]
      split_ifs
      · rfl
      · cases AList.lookup (Value.str f) out <;> rfl
    · simp only [hf, if_false, false_and]

/-- The column of a field, pivoted. -/
theorem cell_column (f' : String) (column : Column) (out : Dict Value Column) :
    cell byKey ((env.order.order column.items).foldl
        (fun out q => pivotValue byKey f' out q.1 q.2) out) f k
      = if f = f' then ((column.lookup k).map (shown byKey)).or (cell byKey out f k)
        else cell byKey out f k := by
  split_ifs with hf
  · cases hk : column.lookup k with
    | none =>
      rw [Option.map_none, Option.none_or]
      refine foldl_keep (fun out => cell byKey out f k) (fun out q hq => ?_) out
      rw [cell_pivotValue, if_neg]
      rintro ⟨-, hkq⟩
      have hlook := Dict.mem_items.mp (env.order.mem_order.mp hq)
      rw [← hkq, hk] at hlook
      cases hlook
    | some v =>
      rw [Option.map_some, Option.some_or]
      refine foldl_set (fun out => cell byKey out f k)
        (env.order.mem_order.mpr (Dict.mem_items.mpr hk)) (fun out => ?_) (fun out q hq hne => ?_)
        out
      · rw [cell_pivotValue, if_pos ⟨hf, rfl⟩]
      · rw [cell_pivotValue, if_neg]
        rintro ⟨-, hkq⟩
        have hlook := Dict.mem_items.mp (env.order.mem_order.mp hq)
        rw [← hkq, hk] at hlook
        exact hne (Prod.ext hkq.symm (Option.some.inj hlook).symm)
  · refine foldl_keep (fun out => cell byKey out f k) (fun out q _ => ?_) out
    rw [cell_pivotValue, if_neg (fun h => hf h.1)]

variable (env) in
/-- **The pivot**: a field of the group shows its column. -/
theorem cell_pivot {fields : List String} (hf : f ∈ fields) {result : Dataset} {column : Column}
    (hcolumn : result.lookup f = some column) :
    cell byKey (pivot env byKey fields result) f k = (column.lookup k).map (shown byKey) := by
  -- the columns of other names do not show here
  have hother : ∀ (out : Dict Value Column), ∀ p ∈ env.order.order result.items,
      p ≠ (f, column) → cell byKey (if p.1 ∈ fields then
        (env.order.order p.2.items).foldl (fun out q => pivotValue byKey p.1 out q.1 q.2) out
        else out) f k = cell byKey out f k := by
    intro out p hp hne
    have hname : f ≠ p.1 := by
      intro heq
      have hlook := Dict.mem_items.mp (env.order.mem_order.mp hp)
      rw [← heq, hcolumn] at hlook
      exact hne (Prod.ext heq.symm (Option.some.inj hlook).symm)
    split_ifs
    · rw [cell_column, if_neg hname]
    · rfl
  have hmem : (f, column) ∈ env.order.order result.items :=
    env.order.mem_order.mpr (Dict.mem_items.mpr hcolumn)
  unfold pivot
  cases hk : column.lookup k with
  | some v =>
    refine foldl_set (fun out => cell byKey out f k) hmem (fun out => ?_) hother ∅
    simp only
    rw [if_pos hf, cell_column, if_pos rfl, hk]
    rfl
  | none =>
    rw [Option.map_none, ← cell_empty]
    refine foldl_keep (fun out => cell byKey out f k) (fun out p hp => ?_) ∅
    by_cases hp' : p = (f, column)
    · subst hp'
      simp only
      rw [if_pos hf, cell_column, if_pos rfl, hk]
      rfl
    · exact hother out p hp hp'

/-- Cleaning a row leaves the other fields of the row. -/
theorem cell_cleanRow {f' : String} (hne : f ≠ f') {rows out : Dict Value Column}
    {p : Value × Column} (hp : rows.lookup p.1 = some p.2)
    (hout : cell true out f k = cell true rows f k) :
    cell true (cleanRow f' out p) f k = cell true rows f k := by
  have hrow : (AList.erase (.str f') p.2).lookup (.str f) = p.2.lookup (.str f) :=
    AList.lookup_erase_ne (fun h => hne (Value.str.inj h))
  unfold cell at hout ⊢
  simp only [if_true] at hout ⊢
  unfold cleanRow
  by_cases hk : k = p.1
  · rw [hk, hp, Option.bind_some]
    split_ifs with hempty
    · have hnone : (AList.erase (.str f') p.2).lookup (Value.str f) = none := by
        rw [AList.lookup_eq_none, AList.mem_keys, List.isEmpty_iff.mp hempty]
        exact List.not_mem_nil
      rw [AList.lookup_erase, Option.bind_none, ← hrow, hnone]
    · rw [AList.lookup_insert, Option.bind_some, hrow]
  · split_ifs
    · rw [AList.lookup_erase_ne hk, hout]
    · rw [AList.lookup_insert_ne hk, hout]

/-- Removing a field that is marked to be cleaned leaves the others. -/
theorem cell_cleanField {f' : String} (hne : f ≠ f') {rows rows' : Dict Value Column}
    (h : cleanField env byKey rows f' = .ok rows') :
    cell byKey rows' f k = cell byKey rows f k := by
  unfold cleanField at h
  split_ifs at h with hkey hmem
  · cases h
    rw [hkey]
    have hrows : ∀ p ∈ env.order.order rows.items, rows.lookup p.1 = some p.2 :=
      fun p hp => Dict.mem_items.mp (env.order.mem_order.mp hp)
    have hfold : ∀ (l : List (Value × Column)) (out : Dict Value Column),
        (∀ p ∈ l, rows.lookup p.1 = some p.2) → cell true out f k = cell true rows f k →
          cell true (l.foldl (cleanRow f') out) f k = cell true rows f k := by
      intro l
      induction l with
      | nil => exact fun out _ hout => hout
      | cons p l ih =>
        intro out hl hout
        exact ih _ (fun q hq => hl q (List.mem_cons_of_mem p hq))
          (cell_cleanRow hne (hl p List.mem_cons_self) hout)
    exact hfold _ rows hrows rfl
  · cases h
    unfold cell
    rw [if_neg hkey, if_neg hkey, AList.lookup_erase_ne (fun h => hne (Value.str.inj h))]

/-- Cleaning leaves what the pivot shows of a field that no definition marks to be cleaned. -/
theorem cell_pivotGroup_eq_pivot {G : Group} {result : Dataset} {rows : Dict Value Column}
    (hclean : ∀ d ∈ G.defs, d.1 = f → d.2.clean = false)
    (h : pivotGroup env G result = .ok rows) :
    cell G.groupByKey rows f k
      = cell G.groupByKey (pivot env G.groupByKey (G.defs.map Prod.fst) result) f k := by
  have hmarked : ∀ f' ∈ (G.defs.filter (fun d => d.2.clean)).map Prod.fst, f ≠ f' := by
    intro f' hf' heq
    obtain ⟨d, hd, rfl⟩ := List.mem_map.mp hf'
    obtain ⟨hmem, hmark⟩ := List.mem_filter.mp hd
    rw [hclean d hmem heq.symm] at hmark
    cases hmark
  unfold pivotGroup at h
  refine (Except.foldlM_rest (I := fun l out => (∀ f' ∈ l, f ≠ f')
    ∧ cell G.groupByKey out f k = _) ?_ ⟨hmarked, rfl⟩ h).2
  rintro f' l out out' ⟨hl, hout⟩ hstep
  exact ⟨fun x hx => hl x (List.mem_cons_of_mem f' hx),
    (cell_cleanField (hl f' List.mem_cons_self) hstep).trans hout⟩

/-- The output of a group for a field that is not cleaned. -/
theorem cell_pivotGroup {G : Group} {result : Dataset} {rows : Dict Value Column}
    {column : Column} (hf : f ∈ G.defs.map Prod.fst)
    (hclean : ∀ d ∈ G.defs, d.1 = f → d.2.clean = false)
    (hcolumn : result.lookup f = some column) (h : pivotGroup env G result = .ok rows) :
    cell G.groupByKey rows f k = (column.lookup k).map (shown G.groupByKey) := by
  rw [cell_pivotGroup_eq_pivot hclean h]
  exact cell_pivot env hf hcolumn

end pivot

/-! ## The groups -/

/-- Each group has the output that is made of its own definitions. -/
theorem lookup_pivotGroups {groups : List (String × Group)} (hnames : (groups.map Prod.fst).Nodup)
    {g : String} {G : Group} (hmem : (g, G) ∈ groups) {d : Dataset} {results : Results}
    (h : pivotGroups env ignore groups (.dataset d) = .ok results) :
    ∃ rows, results.lookup g = some rows ∧ pivotGroup env G
      (Dict.restrict (fun f => decide (f ∈ wantedFields ignore groups)) d) = .ok rows := by
  unfold pivotGroups at h
  simp only at h
  generalize Dict.restrict (fun f => decide (f ∈ wantedFields ignore groups)) d = left at h
  suffices hfold : ∀ (l : List (String × Group)) (out : Results), (l.map Prod.fst).Nodup →
      (∃ rows, out.lookup g = some rows ∧ pivotGroup env G left = .ok rows)
        ∧ g ∉ l.map Prod.fst ∨ (g, G) ∈ l →
      l.foldlM (fun out g => (pivotGroup env g.2 left).map (fun r => AList.insert g.1 r out)) out
        = .ok results → ∃ rows, results.lookup g = some rows ∧ pivotGroup env G left = .ok rows by
    exact hfold groups ∅ hnames (Or.inr hmem) h
  intro l
  induction l with
  | nil =>
    rintro out - (⟨hout, -⟩ | hmem) hfold
    · cases hfold
      exact hout
    · cases hmem
  | cons p l ih =>
    intro out hnodup hcases hfold
    rw [List.map_cons, List.nodup_cons] at hnodup
    rw [List.foldlM_cons] at hfold
    obtain ⟨out', hstep, hfold⟩ := Except.bind_eq_ok.mp hfold
    cases hrows : pivotGroup env p.2 left with
    | error e =>
      rw [hrows] at hstep
      cases hstep
    | ok rows =>
      rw [hrows] at hstep
      cases hstep
      refine ih _ hnodup.2 ?_ hfold
      rcases hcases with ⟨⟨rows', hlook, hpivot⟩, hnot⟩ | hmem
      · rw [List.map_cons, List.mem_cons, not_or] at hnot
        exact Or.inl ⟨⟨rows', (AList.lookup_insert_ne hnot.1).trans hlook, hpivot⟩, hnot.2⟩
      · rcases List.mem_cons.mp hmem with heq | hmem
        · subst heq
          exact Or.inl ⟨⟨rows, AList.lookup_insert _, hrows⟩, hnodup.1⟩
        · exact Or.inr hmem

end Gatherer
