/-
# Finite maps with an unspecified iteration order

A dictionary is an association list without repeated keys (`AList`), read only
through `lookup`.  Two dictionaries are the *same* (`Dict.Same`) when every key
has the same value in both, whatever the order of their entries: this is the
equality of the dictionaries of a language whose iteration order is
unspecified, and `IterOrder` is one choice of that order.

The operations below complete the ones Mathlib has for `AList`: overlaying,
restricting and mapping over the values, each with its `lookup` law.
-/
import Mathlib

/-! ## Dictionaries -/

/-- A finite map from `κ` to `ν`. -/
abbrev Dict (κ ν : Type) : Type := AList (fun _ : κ => ν)

/-- One iteration order: a permutation of the entries of each dictionary. -/
structure IterOrder where
  /-- The order in which a loop meets the entries. -/
  order : ∀ {α : Type}, List α → List α
  perm : ∀ {α : Type} (l : List α), (order l).Perm l

namespace IterOrder

/-- The order in which the entries are stored. -/
def stored : IterOrder := ⟨fun l => l, fun l => List.Perm.refl l⟩

/-- The reverse of the stored order. -/
def reversed : IterOrder := ⟨fun l => l.reverse, fun l => List.reverse_perm l⟩

theorem mem_order (o : IterOrder) {α : Type} {l : List α} {a : α} :
    a ∈ o.order l ↔ a ∈ l :=
  (o.perm l).mem_iff

end IterOrder

namespace Dict

variable {κ ν μ : Type} [DecidableEq κ]

/-- The key-value pairs, in stored order. -/
def items (d : Dict κ ν) : List (κ × ν) := d.entries.map (fun e => (e.1, e.2))

/-- The dictionary of a list of pairs; of two pairs with one key the later one
stays. -/
def ofList (l : List (κ × ν)) : Dict κ ν :=
  l.foldl (fun d p => AList.insert p.1 p.2 d) ∅

/-- `e` laid over `d`: the value of `e` where `e` has one, else that of `d`. -/
def overlay (d e : Dict κ ν) : Dict κ ν := e ∪ d

/-- The entries whose key satisfies `p`. -/
def restrict (p : κ → Bool) (d : Dict κ ν) : Dict κ ν :=
  ⟨d.entries.filter (fun e => p e.1), d.nodupKeys.sublist List.filter_sublist⟩

/-- The dictionary with every value replaced by its image. -/
def mapVals (f : ν → μ) (d : Dict κ ν) : Dict κ μ :=
  ⟨d.entries.map (fun e => ⟨e.1, f e.2⟩), by
    have h := d.nodupKeys
    unfold List.NodupKeys at h ⊢
    have hkeys : List.keys (d.entries.map
        (fun e => (⟨e.1, f e.2⟩ : Sigma fun _ : κ => μ))) = d.entries.keys := by
      simp [List.keys, Function.comp_def]
    rwa [hkeys]⟩

/-- Equality of dictionaries: the same value, or none, at every key. -/
def Same (d e : Dict κ ν) : Prop := ∀ k, d.lookup k = e.lookup k

@[refl] theorem Same.refl (d : Dict κ ν) : Same d d := fun _ => rfl

theorem Same.symm {d e : Dict κ ν} (h : Same d e) : Same e d := fun k => (h k).symm

theorem Same.trans {d e f : Dict κ ν} (h : Same d e) (h' : Same e f) : Same d f :=
  fun k => (h k).trans (h' k)

/-! ## Lookup laws -/

theorem mem_iff_lookup {k : κ} {d : Dict κ ν} : k ∈ d ↔ ∃ v, d.lookup k = some v := by
  rw [← AList.lookup_isSome, Option.isSome_iff_exists]

theorem Same.mem_iff {d e : Dict κ ν} (h : Same d e) (k : κ) : k ∈ d ↔ k ∈ e := by
  rw [mem_iff_lookup, mem_iff_lookup, h k]

theorem mem_items {d : Dict κ ν} {k : κ} {v : ν} :
    (k, v) ∈ d.items ↔ d.lookup k = some v := by
  rw [← Option.mem_def, AList.mem_lookup_iff, items, List.mem_map]
  constructor
  · rintro ⟨⟨k', v'⟩, hmem, heq⟩
    obtain ⟨rfl, rfl⟩ := Prod.mk.inj heq
    exact hmem
  · exact fun hmem => ⟨⟨k, v⟩, hmem, rfl⟩

omit [DecidableEq κ] in
theorem items_map_fst (d : Dict κ ν) : d.items.map Prod.fst = d.keys := by
  simp [items, AList.keys, List.keys, Function.comp_def]

omit [DecidableEq κ] in
/-- A loop over the entries meets each key once. -/
theorem nodup_order_keys (o : IterOrder) (d : Dict κ ν) :
    ((o.order d.items).map Prod.fst).Nodup := by
  rw [((o.perm d.items).map Prod.fst).nodup_iff, items_map_fst]
  exact d.keys_nodup

omit [DecidableEq κ] in
theorem mem_order_keys (o : IterOrder) {d : Dict κ ν} {k : κ} :
    k ∈ (o.order d.items).map Prod.fst ↔ k ∈ d := by
  rw [((o.perm d.items).map Prod.fst).mem_iff, items_map_fst, AList.mem_keys]

theorem lookup_insert_eq (d : Dict κ ν) (k k' : κ) (v : ν) :
    (AList.insert k' v d).lookup k = if k = k' then some v else d.lookup k := by
  by_cases h : k = k'
  · subst h
    rw [AList.lookup_insert, if_pos rfl]
  · rw [AList.lookup_insert_ne h, if_neg h]

theorem lookup_erase_eq (d : Dict κ ν) (k k' : κ) :
    (AList.erase k' d).lookup k = if k = k' then none else d.lookup k := by
  by_cases h : k = k'
  · subst h
    rw [AList.lookup_erase, if_pos rfl]
  · rw [AList.lookup_erase_ne h, if_neg h]

@[simp] theorem lookup_overlay (d e : Dict κ ν) (k : κ) :
    (overlay d e).lookup k = (e.lookup k).or (d.lookup k) := by
  unfold overlay
  by_cases h : k ∈ e
  · obtain ⟨v, hv⟩ := mem_iff_lookup.mp h
    rw [AList.lookup_union_left h, hv, Option.some_or]
  · rw [AList.lookup_union_right h, AList.lookup_eq_none.mpr h, Option.none_or]

theorem mem_overlay {d e : Dict κ ν} {k : κ} : k ∈ overlay d e ↔ k ∈ d ∨ k ∈ e := by
  rw [overlay, AList.mem_union, or_comm]

@[simp] theorem lookup_restrict (p : κ → Bool) (d : Dict κ ν) (k : κ) :
    (restrict p d).lookup k = if p k then d.lookup k else none := by
  apply Option.ext
  intro v
  rw [← Option.mem_def, AList.mem_lookup_iff]
  by_cases hp : p k
  · simp only [restrict, List.mem_filter, hp, and_true, if_true]
    rw [← AList.mem_lookup_iff, Option.mem_def]
  · simp [restrict, hp]

theorem mem_restrict {p : κ → Bool} {d : Dict κ ν} {k : κ} :
    k ∈ restrict p d ↔ p k ∧ k ∈ d := by
  rw [mem_iff_lookup, lookup_restrict, mem_iff_lookup]
  by_cases hp : p k <;> simp [hp]

@[simp] theorem lookup_mapVals (f : ν → μ) (d : Dict κ ν) (k : κ) :
    (mapVals f d).lookup k = (d.lookup k).map f := by
  apply Option.ext
  intro v
  rw [← Option.mem_def, AList.mem_lookup_iff]
  simp only [mapVals, List.mem_map, Option.map_eq_some_iff]
  constructor
  · rintro ⟨⟨k', u⟩, hmem, heq⟩
    obtain ⟨rfl, hv⟩ := Sigma.mk.inj_iff.mp heq
    exact ⟨u, AList.mem_lookup_iff.mpr hmem, eq_of_heq hv⟩
  · rintro ⟨u, hu, rfl⟩
    exact ⟨⟨k, u⟩, AList.mem_lookup_iff.mp hu, rfl⟩

/-- A dictionary equal to one with a single entry has just that entry. -/
theorem items_eq_singleton {d : Dict κ ν} {k : κ} {v : ν}
    (h : ∀ k', d.lookup k' = if k' = k then some v else none) : d.items = [(k, v)] := by
  have hnodup : d.items.Nodup := by
    have hkeys : (d.items.map Prod.fst).Nodup := by
      rw [items_map_fst]
      exact d.keys_nodup
    exact hkeys.of_map
  have hperm : d.items.Perm [(k, v)] := by
    rw [List.perm_ext_iff_of_nodup hnodup (List.nodup_singleton _)]
    rintro ⟨k', v'⟩
    rw [mem_items, h, List.mem_singleton, Prod.mk.injEq]
    by_cases hk : k' = k
    · simp [hk, eq_comm]
    · simp [hk]
  exact List.perm_singleton.mp hperm

/-- Folding insertions: the last pair with a key decides its value. -/
theorem lookup_foldl_insert (l : List (κ × ν)) (d : Dict κ ν) (k : κ) :
    (l.foldl (fun d p => AList.insert p.1 p.2 d) d).lookup k
      = ((l.reverse.find? (fun p => p.1 = k)).map Prod.snd).or (d.lookup k) := by
  induction l generalizing d with
  | nil => simp
  | cons p l ih =>
    rw [List.foldl_cons, ih, List.reverse_cons, List.find?_append, lookup_insert_eq]
    by_cases h : k = p.1
    · subst h
      cases l.reverse.find? (fun q => q.1 = p.1) <;> simp
    · have h' : ¬ p.1 = k := fun hc => h hc.symm
      cases l.reverse.find? (fun q => q.1 = k) <;> simp [h, h']

/-- Folding insertions: a key has the value of one of its pairs, or its old one where it has
none. -/
theorem lookup_foldl_insert_cases (l : List (κ × ν)) (d : Dict κ ν) (k : κ) :
    (∃ v, (k, v) ∈ l ∧ (l.foldl (fun d p => AList.insert p.1 p.2 d) d).lookup k = some v)
      ∨ (∀ v, (k, v) ∉ l)
        ∧ (l.foldl (fun d p => AList.insert p.1 p.2 d) d).lookup k = d.lookup k := by
  rw [lookup_foldl_insert]
  cases hfind : l.reverse.find? (fun p => p.1 = k) with
  | none =>
    refine Or.inr ⟨fun v hv => ?_, rfl⟩
    have hnot := List.find?_eq_none.mp hfind (k, v) (List.mem_reverse.mpr hv)
    exact absurd (decide_eq_true rfl) hnot
  | some p =>
    have hk : p.1 = k := by simpa using List.find?_some hfind
    refine Or.inl ⟨p.2, ?_, rfl⟩
    rw [← hk]
    exact List.mem_reverse.mp (List.mem_of_find?_eq_some hfind)

/-- The dictionary of pairs of which no two give one key different values has just these pairs. -/
theorem lookup_ofList_of_unique {l : List (κ × ν)}
    (h : ∀ k v v', (k, v) ∈ l → (k, v') ∈ l → v = v') {k : κ} {v : ν} :
    (ofList l).lookup k = some v ↔ (k, v) ∈ l := by
  unfold ofList
  rcases lookup_foldl_insert_cases l ∅ k with ⟨w, hw, hlook⟩ | ⟨hnot, hlook⟩
  · rw [hlook, Option.some.injEq]
    constructor
    · rintro rfl
      exact hw
    · exact fun hv => h k w v hw hv
  · rw [hlook, AList.lookup_empty]
    exact iff_of_false (fun h => nomatch h) (hnot v)

/-- The dictionary of pairs with distinct keys has just these pairs. -/
theorem lookup_ofList {l : List (κ × ν)} (hl : (l.map Prod.fst).Nodup) {k : κ} {v : ν} :
    (ofList l).lookup k = some v ↔ (k, v) ∈ l :=
  lookup_ofList_of_unique
    (fun _ _ _ hw hv => (Prod.mk.inj (List.inj_on_of_nodup_map hl hw hv rfl)).2)

/-! ## Keys in sorted order -/

/-- The keys, in increasing order. -/
def sortedKeys [LinearOrder κ] (d : Dict κ ν) : List κ := d.keys.insertionSort (· ≤ ·)

omit [DecidableEq κ] in
theorem mem_sortedKeys [LinearOrder κ] {d : Dict κ ν} {k : κ} : k ∈ sortedKeys d ↔ k ∈ d := by
  rw [sortedKeys, List.mem_insertionSort, AList.mem_keys]

omit [DecidableEq κ] in
/-- Dictionaries with the same keys have the same sorted keys. -/
theorem sortedKeys_congr [LinearOrder κ] {d : Dict κ ν} {e : Dict κ μ}
    (h : ∀ k, k ∈ d ↔ k ∈ e) : sortedKeys d = sortedKeys e := by
  have hperm : d.keys.Perm e.keys := by
    rw [List.perm_ext_iff_of_nodup d.keys_nodup e.keys_nodup]
    intro k
    rw [← AList.mem_keys, ← AList.mem_keys, h]
  exact List.Perm.eq_of_sortedLE (List.sortedLE_insertionSort) (List.sortedLE_insertionSort)
    (((List.perm_insertionSort (· ≤ ·) d.keys).trans hperm).trans
      (List.perm_insertionSort (· ≤ ·) e.keys).symm)

theorem Same.sortedKeys_eq [LinearOrder κ] {d e : Dict κ ν} (h : Same d e) :
    sortedKeys d = sortedKeys e := sortedKeys_congr h.mem_iff

/-! ## Grouping by a key -/

/-- Splitting a list into its key classes and concatenating them permutes it. -/
theorem flatMap_filter_perm {α : Type} (key : α → κ) (qs : List κ) (hqs : qs.Nodup) :
    ∀ l : List α, (∀ x ∈ l, key x ∈ qs) →
      (qs.flatMap (fun q => l.filter (fun x => decide (key x = q)))).Perm l := by
  induction qs with
  | nil =>
    intro l hl
    have hnil : l = [] := List.eq_nil_iff_forall_not_mem.mpr
      (fun x hx => absurd (hl x hx) List.not_mem_nil)
    simp [hnil]
  | cons q qs ih =>
    intro l hl
    obtain ⟨hq, hqs'⟩ := List.nodup_cons.mp hqs
    have hrest : qs.flatMap (fun q' => l.filter (fun x => decide (key x = q')))
        = qs.flatMap (fun q' => (l.filter (fun x => !decide (key x = q))).filter
            (fun x => decide (key x = q'))) := by
      apply List.flatMap_congr
      intro q' hq'
      rw [List.filter_filter]
      apply List.filter_congr
      intro x _
      have hne : q' ≠ q := fun hc => hq (hc ▸ hq')
      by_cases hx : key x = q'
      · simp [hx, hne]
      · simp [hx]
    rw [List.flatMap_cons, hrest]
    have hperm := ih hqs' (l.filter (fun x => !decide (key x = q))) (by
      intro x hx
      obtain ⟨hmem, hne⟩ := List.mem_filter.mp hx
      rcases List.mem_cons.mp (hl x hmem) with h | h
      · simp [h] at hne
      · exact h)
    exact (hperm.append_left _).trans (List.filter_append_perm _ l)

/-- A property that only one key class has is met in the order of the list. -/
theorem filter_flatMap_filter {α : Type} (key : α → κ) (P : α → Bool) (q₀ : κ)
    (qs : List κ) (hqs : qs.Nodup) (l : List α) (hl : ∀ x ∈ l, key x ∈ qs)
    (hP : ∀ x ∈ l, P x = true → key x = q₀) :
    (qs.flatMap (fun q => l.filter (fun x => decide (key x = q)))).filter P = l.filter P := by
  have hclass : ∀ q, (l.filter (fun x => decide (key x = q))).filter P
      = if q = q₀ then l.filter P else [] := by
    intro q
    rw [List.filter_filter]
    split_ifs with h
    · apply List.filter_congr
      intro x hx
      cases hPx : P x with
      | false => rfl
      | true => simp [h, hP x hx hPx]
    · rw [List.filter_eq_nil_iff]
      intro x hx hc
      obtain ⟨hPx, hk⟩ := Bool.and_eq_true_iff.mp hc
      exact h ((of_decide_eq_true hk).symm.trans (hP x hx hPx))
  rw [List.filter_flatMap]
  simp only [hclass]
  by_cases hmem : q₀ ∈ qs
  · clear hl
    induction qs with
    | nil => exact absurd hmem List.not_mem_nil
    | cons q qs ih =>
      obtain ⟨hq, hqs'⟩ := List.nodup_cons.mp hqs
      rw [List.flatMap_cons]
      rcases List.mem_cons.mp hmem with h | h
      · subst h
        have hnil : qs.flatMap (fun q => if q = q₀ then l.filter P else []) = [] := by
          rw [List.flatMap_eq_nil_iff]
          intro q' hq'
          rw [if_neg (fun hc : q' = q₀ => hq (hc ▸ hq'))]
        rw [if_pos rfl, hnil, List.append_nil]
      · rw [if_neg (fun hc : q = q₀ => hq (hc ▸ h)), List.nil_append, ih hqs' h]
  · have hnone : l.filter P = [] := by
      rw [List.filter_eq_nil_iff]
      intro x hx hPx
      exact hmem (hP x hx hPx ▸ hl x hx)
    rw [hnone, List.flatMap_eq_nil_iff]
    simp

/-! ## Deciding equality -/

/-- Executable equality: the same keys, and the same value at each. -/
def same [DecidableEq ν] (d e : Dict κ ν) : Bool :=
  (d.keys ++ e.keys).all (fun k => decide (d.lookup k = e.lookup k))

theorem same_iff [DecidableEq ν] (d e : Dict κ ν) : same d e = true ↔ Same d e := by
  unfold same Same
  simp only [List.all_eq_true, List.mem_append, decide_eq_true_eq]
  constructor
  · intro h k
    by_cases hk : k ∈ d ∨ k ∈ e
    · exact h k (by simpa [AList.mem_keys] using hk)
    · push Not at hk
      rw [AList.lookup_eq_none.mpr hk.1, AList.lookup_eq_none.mpr hk.2]
  · exact fun h k _ => h k

instance [DecidableEq ν] (d e : Dict κ ν) : Decidable (Same d e) :=
  decidable_of_iff _ (same_iff d e)

end Dict
