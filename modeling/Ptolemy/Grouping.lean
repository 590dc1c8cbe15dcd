/-
# Grouping

Values collected under the keys that they belong to, by the loop that begins the list of a key at
its first value.  What a key has in the end are its own values in the order in which they came
(`lookup_group`), so that another order gives each key the same values in another order
(`column_perm`).
-/
import Ptolemy.Value

namespace Dict

variable {κ α β ε : Type} [DecidableEq κ]

/-! ## The loop -/

/-- `if not k in d: d[k] = []`, and `d[k].append(v)`. -/
def append (d : Dict κ (List α)) (k : κ) (v : α) : Dict κ (List α) :=
  AList.insert k ((d.lookup k).getD [] ++ [v]) d

def appendAll (d : Dict κ (List α)) (l : List (κ × α)) : Dict κ (List α) :=
  l.foldl (fun d p => append d p.1 p.2) d

def group (l : List (κ × α)) : Dict κ (List α) := appendAll ∅ l

/-- The values of a key, in their order. -/
def column (l : List (κ × α)) (k : κ) : List α := (l.filter (fun p => p.1 = k)).map Prod.snd

/-! ## The values of a key -/

theorem mem_column {l : List (κ × α)} {k : κ} {v : α} : v ∈ column l k ↔ (k, v) ∈ l := by
  unfold column
  rw [List.mem_map]
  constructor
  · rintro ⟨⟨k', v'⟩, hmem, rfl⟩
    obtain ⟨hp, hk⟩ := List.mem_filter.mp hmem
    rwa [← of_decide_eq_true hk]
  · intro h
    exact ⟨(k, v), List.mem_filter.mpr ⟨h, decide_eq_true rfl⟩, rfl⟩

theorem column_perm {l l' : List (κ × α)} (h : l.Perm l') (k : κ) :
    (column l k).Perm (column l' k) := (h.filter _).map _

theorem column_cons (p : κ × α) (l : List (κ × α)) (k : κ) :
    column (p :: l) k = if p.1 = k then p.2 :: column l k else column l k := by
  unfold column
  rw [List.filter_cons]
  split_ifs with hdec hk hk
  · rw [List.map_cons]
  · exact absurd (of_decide_eq_true hdec) hk
  · exact absurd (decide_eq_true hk) hdec
  · rfl

theorem lookup_append (d : Dict κ (List α)) (k k' : κ) (v : α) :
    (append d k v).lookup k'
      = if k = k' then some ((d.lookup k).getD [] ++ [v]) else d.lookup k' := by
  unfold append
  rw [lookup_insert_eq]
  by_cases h : k = k'
  · rw [if_pos h, if_pos h.symm]
  · rw [if_neg h, if_neg (Ne.symm h)]

/-- The loop adds the values of a key behind those that it has. -/
theorem lookup_appendAll (d : Dict κ (List α)) (l : List (κ × α)) (k : κ) :
    (appendAll d l).lookup k
      = if column l k = [] then d.lookup k else some ((d.lookup k).getD [] ++ column l k) := by
  induction l generalizing d with
  | nil => exact (if_pos rfl).symm
  | cons p l ih =>
    show (appendAll (append d p.1 p.2) l).lookup k = _
    rw [ih, lookup_append, column_cons]
    by_cases hp : p.1 = k
    · rw [if_pos hp, if_pos hp, if_neg (List.cons_ne_nil _ _), hp, Option.getD_some,
        List.append_assoc, List.singleton_append]
      split_ifs with hnil
      · rw [hnil]
      · rfl
    · rw [if_neg hp, if_neg hp]

/-- **Grouping**: a key that no value belongs to has no list, and any other one has its values. -/
theorem lookup_group (l : List (κ × α)) (k : κ) :
    (group l).lookup k = if column l k = [] then none else some (column l k) := by
  unfold group
  rw [lookup_appendAll, AList.lookup_empty, Option.getD_none, List.nil_append]

/-! ## Values from elements -/

theorem flatMap_filter_ne_nil {γ : Type} (f : α → List γ) (l : List α) :
    (l.filter (fun a => ¬ (f a).isEmpty)).flatMap f = l.flatMap f := by
  induction l with
  | nil => rfl
  | cons a l ih =>
    rw [List.filter_cons, List.flatMap_cons]
    by_cases ha : (f a).isEmpty
    · rw [if_neg (by simpa using ha), ih, List.isEmpty_iff.mp ha, List.nil_append]
    · rw [if_pos (by simpa using ha), List.flatMap_cons, ih]

/-- Two lists give the same values, if each element that gives one is in both. -/
theorem flatMap_perm {γ : Type} {f : α → List γ} {l l' : List α} (hl : l.Nodup) (hl' : l'.Nodup)
    (h : ∀ a, f a ≠ [] → (a ∈ l ↔ a ∈ l')) : (l.flatMap f).Perm (l'.flatMap f) := by
  rw [← flatMap_filter_ne_nil f l, ← flatMap_filter_ne_nil f l']
  refine List.Perm.flatMap_right f ?_
  rw [List.perm_ext_iff_of_nodup (hl.filter _) (hl'.filter _)]
  intro a
  rw [List.mem_filter, List.mem_filter]
  refine and_congr_left (fun ha => h a ?_)
  simpa using ha

/-! ## Loops that may raise -/

/-- A loop whose turns each collect some values collects them all. -/
theorem foldlM_appendAll {step : Dict κ (List α) → β → Except ε (Dict κ (List α))}
    {out : β → List (κ × α)} {l : List β} (h : ∀ b ∈ l, ∀ d, step d b = .ok (appendAll d (out b)))
    (d : Dict κ (List α)) : l.foldlM step d = .ok (appendAll d (l.flatMap out)) := by
  induction l generalizing d with
  | nil => rfl
  | cons b l ih =>
    rw [List.foldlM_cons, h b List.mem_cons_self, Except.ok_bind,
      ih (fun b' hb' => h b' (List.mem_cons_of_mem b hb')), List.flatMap_cons]
    unfold appendAll
    rw [List.foldl_append]

end Dict
