/-
# The three answers of `different`

`different` compares the data of a stored row with new data: `True` where a lot has changed,
`None` where there is something new, `False` where all is the same.  Its loop meets the new fields
in any order, a field that differs ends it, and only after it the number of fields is looked at.

What it answers does not depend on the order: it is a comparison of two maps.  The values are those
of any type with an `==`; the documents of the storer have texts.
-/
import Ptolemy.PostgresMerge

namespace Postgres

variable {ν : Type} [BEq ν]

/-! ## Any values -/

/-- The loop of `different` over values of any kind. -/
def differentValuesLoop (row : Dict String ν) : List (String × ν) → Option Bool → Option Bool
  | [], d => d
  | (k, v) :: l, d => match row.lookup k with
    | some w => if w == v then differentValuesLoop row l d else some true
    | none => differentValuesLoop row l none

/-- `different` over values of any kind. -/
def differentValues (o : IterOrder) (row data : Dict String ν) (partial' : Bool) : Option Bool :=
  match differentValuesLoop row (o.order data.items) (some false) with
  | some false => some (!partial' && decide (row.items.length > data.items.length))
  | d => d

theorem differentLoop_eq (row : Doc) (l : List (String × String)) (d : Option Bool) :
    differentLoop row l d = differentValuesLoop row l d := by
  induction l generalizing d with
  | nil => rfl
  | cons p l ih =>
    obtain ⟨k, v⟩ := p
    rw [differentLoop, differentValuesLoop]
    cases row.lookup k with
    | none => exact ih none
    | some w => simp only [beq_iff_eq, ih]

/-- The storer's own function is the one over texts. -/
theorem different_eq (o : IterOrder) (row data : Doc) (partial' : Bool) :
    different o row data partial' = differentValues o row data partial' := by
  rw [different, differentLoop_eq]
  rfl

/-! ## Two maps compared -/

variable (row data : Dict String ν)

/-- Some common field has another value. -/
def Changed : Prop := ∃ k v w, data.lookup k = some v ∧ row.lookup k = some w ∧ (w == v) = false

/-- Some new field is not stored. -/
def Extended : Prop := ∃ k, k ∈ data ∧ k ∉ row

/-- The new fields are stored with equal values, and not all stored fields are among them. -/
def Reduced : Prop :=
  (∀ k v, data.lookup k = some v → ∃ w, row.lookup k = some w ∧ (w == v) = true)
    ∧ ∃ k, k ∈ row ∧ k ∉ data

/-- The same fields, with equal values. -/
def Agreeing : Prop :=
  (∀ k v, data.lookup k = some v → ∃ w, row.lookup k = some w ∧ (w == v) = true)
    ∧ ∀ k, k ∈ row → k ∈ data

/-! ## The loop -/

variable {row data}

/-- A field that differs decides, wherever it stands. -/
theorem differentValuesLoop_of_changed {l : List (String × ν)} {k : String} {v w : ν}
    (hmem : (k, v) ∈ l) (hw : row.lookup k = some w) (hne : (w == v) = false) (d : Option Bool) :
    differentValuesLoop row l d = some true := by
  induction l generalizing d with
  | nil => cases hmem
  | cons p l ih =>
    rcases List.mem_cons.mp hmem with rfl | hrest
    · simp [differentValuesLoop, hw, hne]
    · obtain ⟨k', v'⟩ := p
      rw [differentValuesLoop]
      cases row.lookup k' with
      | none => exact ih hrest none
      | some w' => cases hb : w' == v' with
        | false => simp [hb]
        | true => simp only [hb, if_true, ih hrest d]

/-- With no such field, one that is not stored makes it `None`. -/
theorem differentValuesLoop_of_unchanged {l : List (String × ν)}
    (h : ∀ k v w, (k, v) ∈ l → row.lookup k = some w → (w == v) = true) (d : Option Bool) :
    differentValuesLoop row l d = if ∃ p ∈ l, p.1 ∉ row then none else d := by
  induction l generalizing d with
  | nil => simp [differentValuesLoop]
  | cons p l ih =>
    obtain ⟨k, v⟩ := p
    have ih := ih (fun k' v' w' hmem => h k' v' w' (List.mem_cons_of_mem _ hmem))
    rw [differentValuesLoop]
    cases hw : row.lookup k with
    | none =>
      have hk : k ∉ row := AList.lookup_eq_none.mp hw
      simp only [ih none, ite_self]
      rw [if_pos ⟨(k, v), List.mem_cons_self, hk⟩]
    | some w =>
      have hk : ¬ k ∉ row := not_not_intro (Dict.mem_iff_lookup.mpr ⟨w, hw⟩)
      have heq := h k v w List.mem_cons_self hw
      simp only [heq, if_true, ih d, List.exists_mem_cons_iff, hk, false_or]

omit [BEq ν] in
/-- Where all new fields are stored, the row has more of them just when one is not new. -/
theorem length_lt_iff (hsub : ∀ k, k ∈ data → k ∈ row) :
    data.items.length < row.items.length ↔ ∃ k, k ∈ row ∧ k ∉ data := by
  have hlength : ∀ d : Dict String ν, d.items.length = d.keys.length := fun d => by
    rw [← Dict.items_map_fst, List.length_map]
  have hperm : data.keys.Subperm row.keys := data.keys_nodup.subperm
    (fun k hk => AList.mem_keys.mp (hsub k (AList.mem_keys.mpr hk)))
  rw [hlength, hlength]
  constructor
  · intro hlt
    by_contra hall
    push Not at hall
    have hback : row.keys.Subperm data.keys := row.keys_nodup.subperm
      (fun k hk => AList.mem_keys.mp (hall k (AList.mem_keys.mpr hk)))
    exact absurd hback.length_le (by omega)
  · rintro ⟨k, hk, hnot⟩
    by_contra hle
    have hsame := hperm.perm_of_length_le (by omega)
    exact hnot (AList.mem_keys.mpr (hsame.mem_iff.mpr (AList.mem_keys.mp hk)))

/-! ## The answer -/

theorem differentValues_of_changed (h : Changed row data) (o : IterOrder) (partial' : Bool) :
    differentValues o row data partial' = some true := by
  obtain ⟨k, v, w, hv, hw, hne⟩ := h
  rw [differentValues,
    differentValuesLoop_of_changed (o.mem_order.mpr (Dict.mem_items.mpr hv)) hw hne]

/-- The loop over data that change nothing. -/
theorem loop_of_not_changed (h : ¬ Changed row data) (o : IterOrder) :
    differentValuesLoop row (o.order data.items) (some false)
      = if ∃ p ∈ o.order data.items, p.1 ∉ row then none else some false := by
  apply differentValuesLoop_of_unchanged
  intro k v w hmem hw
  by_contra hne
  exact h ⟨k, v, w, Dict.mem_items.mp (o.mem_order.mp hmem), hw, by simpa using hne⟩

omit [BEq ν] in
theorem exists_order_iff (o : IterOrder) :
    (∃ p ∈ o.order data.items, p.1 ∉ row) ↔ Extended row data := by
  constructor
  · rintro ⟨⟨k, v⟩, hmem, hnot⟩
    exact ⟨k, Dict.mem_iff_lookup.mpr ⟨v, Dict.mem_items.mp (o.mem_order.mp hmem)⟩, hnot⟩
  · rintro ⟨k, hk, hnot⟩
    obtain ⟨v, hv⟩ := Dict.mem_iff_lookup.mp hk
    exact ⟨(k, v), o.mem_order.mpr (Dict.mem_items.mpr hv), hnot⟩

theorem differentValues_of_extended (h : ¬ Changed row data) (hext : Extended row data)
    (o : IterOrder) (partial' : Bool) : differentValues o row data partial' = none := by
  rw [differentValues, loop_of_not_changed h o, if_pos ((exists_order_iff o).mpr hext)]

/-- Data that neither change nor extend a row are stored in it. -/
theorem stored_of_not (h : ¬ Changed row data) (hext : ¬ Extended row data) {k : String} {v : ν}
    (hv : data.lookup k = some v) : ∃ w, row.lookup k = some w ∧ (w == v) = true := by
  have hk : k ∈ row := by
    by_contra hnot
    exact hext ⟨k, Dict.mem_iff_lookup.mpr ⟨v, hv⟩, hnot⟩
  obtain ⟨w, hw⟩ := Dict.mem_iff_lookup.mp hk
  refine ⟨w, hw, ?_⟩
  by_contra hne
  exact h ⟨k, v, w, hv, hw, by simpa using hne⟩

theorem differentValues_of_stored (h : ¬ Changed row data) (hext : ¬ Extended row data)
    (o : IterOrder) (partial' : Bool) :
    differentValues o row data partial' = some true ↔ partial' = false ∧ Reduced row data := by
  have hsub : ∀ k, k ∈ data → k ∈ row := fun k hk => by
    by_contra hnot
    exact hext ⟨k, hk, hnot⟩
  rw [differentValues, loop_of_not_changed h o, if_neg (fun hc => hext ((exists_order_iff o).mp hc))]
  simp only [Option.some.injEq, Bool.and_eq_true, Bool.not_eq_true', decide_eq_true_eq, gt_iff_lt,
    length_lt_iff hsub]
  exact and_congr_right (fun _ => ⟨fun hk => ⟨fun k v => stored_of_not h hext, hk⟩, And.right⟩)

theorem not_changed_of_stored
    (h : ∀ k v, data.lookup k = some v → ∃ w, row.lookup k = some w ∧ (w == v) = true) :
    ¬ Changed row data ∧ ¬ Extended row data := by
  constructor
  · rintro ⟨k, v, w, hv, hw, hne⟩
    obtain ⟨w', hw', heq⟩ := h k v hv
    rw [hw, Option.some.injEq] at hw'
    rw [hw', heq] at hne
    cases hne
  · rintro ⟨k, hk, hnot⟩
    obtain ⟨v, hv⟩ := Dict.mem_iff_lookup.mp hk
    obtain ⟨w, hw, _⟩ := h k v hv
    exact hnot (Dict.mem_iff_lookup.mpr ⟨w, hw⟩)

/-- It answers `None` or a truth value by the loop, never `None` from the comparison of sizes. -/
theorem differentValues_ne_none (h : ¬ Changed row data) (hext : ¬ Extended row data)
    (o : IterOrder) (partial' : Bool) : differentValues o row data partial' ≠ none := by
  rw [differentValues, loop_of_not_changed h o, if_neg (fun hc => hext ((exists_order_iff o).mp hc))]
  exact fun hc => nomatch hc

theorem differentValues_eq_true_iff (o : IterOrder) (row data : Dict String ν) (partial' : Bool) :
    differentValues o row data partial' = some true
      ↔ Changed row data ∨ partial' = false ∧ Reduced row data := by
  by_cases h : Changed row data
  · exact iff_of_true (differentValues_of_changed h o partial') (Or.inl h)
  by_cases hext : Extended row data
  · rw [differentValues_of_extended h hext]
    refine iff_of_false (fun hc => nomatch hc) ?_
    rintro (hc | ⟨_, hred, _⟩)
    · exact h hc
    · exact (not_changed_of_stored hred).2 hext
  · rw [differentValues_of_stored h hext]
    exact ⟨Or.inr, fun hc => hc.resolve_left h⟩

theorem differentValues_eq_none_iff (o : IterOrder) (row data : Dict String ν) (partial' : Bool) :
    differentValues o row data partial' = none ↔ ¬ Changed row data ∧ Extended row data := by
  by_cases h : Changed row data
  · rw [differentValues_of_changed h]
    exact iff_of_false (fun hc => nomatch hc) (fun hc => hc.1 h)
  by_cases hext : Extended row data
  · exact iff_of_true (differentValues_of_extended h hext o partial') ⟨h, hext⟩
  · exact iff_of_false (differentValues_ne_none h hext o partial') (fun hc => hext hc.2)

/-- **The three answers**, in every order of the fields: `True` where a common field has another
value or, unless partial data are expected, the row has more than these fields; `None` where there
is a new field and no other value; `False` in all other cases, as when the maps are equal. -/
theorem differentValues_spec (o : IterOrder) (row data : Dict String ν) (partial' : Bool) :
    (differentValues o row data partial' = some true
        ↔ Changed row data ∨ partial' = false ∧ Reduced row data)
      ∧ (differentValues o row data partial' = none ↔ ¬ Changed row data ∧ Extended row data)
      ∧ (differentValues o row data partial' = some false
        ↔ ¬ (Changed row data ∨ partial' = false ∧ Reduced row data)
          ∧ ¬ (¬ Changed row data ∧ Extended row data))
      ∧ (Agreeing row data → differentValues o row data partial' = some false) := by
  have htrue := differentValues_eq_true_iff o row data partial'
  have hnone := differentValues_eq_none_iff o row data partial'
  have hfalse : differentValues o row data partial' = some false
      ↔ differentValues o row data partial' ≠ some true
        ∧ differentValues o row data partial' ≠ none := by
    rcases differentValues o row data partial' with _ | _ | _ <;> simp
  refine ⟨htrue, hnone, by rw [hfalse, ne_eq, ne_eq, htrue, hnone], ?_⟩
  rintro ⟨hstored, hback⟩
  obtain ⟨h, hext⟩ := not_changed_of_stored hstored
  rw [hfalse, ne_eq, ne_eq, htrue, hnone]
  refine ⟨?_, fun hc => hext hc.2⟩
  rintro (hc | ⟨_, _, k, hk, hnot⟩)
  · exact h hc
  · exact hnot (hback k hk)

end Postgres
