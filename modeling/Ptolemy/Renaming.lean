/-
# Renaming the keys of a dictionary in place

A loop over the entries that a dictionary has when it begins moves each to a new key.  The
dictionary changes under it, so that what is left depends on the order in which the entries
are met, although the new keys are all distinct.

* `Dict.renamed`   : the dictionary with every key replaced by its new one;
* `Moves`          : one turn of the loop;
* `same_renamed_iff` : the loop ends with the renamed dictionary exactly where no entry is moved
  to the key of one that is met later.
-/
import Ptolemy.Dict

namespace Dict

variable {κ ν : Type} [DecidableEq κ]

/-- The entries under their new keys. -/
def renamed (new : κ → κ) (d : Dict κ ν) : Dict κ ν :=
  ofList (d.items.map (fun p => (new p.1, p.2)))

theorem lookup_renamed {new : κ → κ} {d : Dict κ ν} (hnew : Set.InjOn new {k | k ∈ d}) {x : κ}
    {v : ν} : (renamed new d).lookup x = some v ↔ ∃ k, d.lookup k = some v ∧ new k = x := by
  have hnodup : ((d.items.map (fun p => (new p.1, p.2))).map Prod.fst).Nodup := by
    have hkeys : (d.items.map (fun p => (new p.1, p.2))).map Prod.fst = d.keys.map new := by
      rw [List.map_map, ← items_map_fst, List.map_map]
      rfl
    rw [hkeys]
    exact d.keys_nodup.map_on (fun a ha b hb hab => hnew ha hb hab)
  rw [renamed, lookup_ofList hnodup, List.mem_map]
  constructor
  · rintro ⟨⟨k, w⟩, hmem, heq⟩
    obtain ⟨rfl, rfl⟩ := Prod.mk.inj heq
    exact ⟨k, mem_items.mp hmem, rfl⟩
  · rintro ⟨k, hk, rfl⟩
    exact ⟨(k, v), mem_items.mpr hk, rfl⟩

end Dict

namespace Renaming

open Dict

variable {κ ν : Type} [DecidableEq κ] {new : κ → κ} {step : Dict κ ν → κ → ν → Dict κ ν}
  {c : Dict κ ν} {l : List (κ × ν)}

/-- One turn: the value goes to the new key, and the old key goes.  An entry that keeps its key
has to be there still. -/
def Moves (new : κ → κ) (step : Dict κ ν → κ → ν → Dict κ ν) : Prop :=
  ∀ c k v, (new k = k → c.lookup k = some v) →
    ∀ x, (step c k v).lookup x = if x = new k then some v else if x = k then none else c.lookup x

/-- A turn that moves the entry, or leaves the dictionary where the entry keeps its key. -/
theorem moves_of_turn (h : ∀ c k v, (new k = k ∧ step c k v = c)
      ∨ Same (step c k v) (AList.insert (new k) v (AList.erase k c))) : Moves new step := by
  intro c k v hstay x
  rcases h c k v with ⟨hself, hc⟩ | hmove
  · rw [hc, hself]
    by_cases hx : x = k
    · rw [if_pos hx, hx, hstay hself]
    · rw [if_neg hx, if_neg hx]
  · rw [hmove x, lookup_insert_eq, lookup_erase_eq]

/-- The entries still to be met that keep their keys are there. -/
def Kept (new : κ → κ) (c : Dict κ ν) (l : List (κ × ν)) : Prop :=
  ∀ p ∈ l, new p.1 = p.1 → c.lookup p.1 = some p.2

/-- What the loop may suppose of the entries: distinct keys, and distinct new keys. -/
structure Distinct (new : κ → κ) (l : List (κ × ν)) : Prop where
  keys : (l.map Prod.fst).Nodup
  news : (l.map (fun p => new p.1)).Nodup

section turn

variable {p : κ × ν}

omit [DecidableEq κ] in
theorem Distinct.tail (h : Distinct new (p :: l)) : Distinct new l :=
  ⟨(List.nodup_cons.mp h.keys).2, (List.nodup_cons.mp h.news).2⟩

omit [DecidableEq κ] in
theorem Distinct.key_notMem (h : Distinct new (p :: l)) : p.1 ∉ l.map Prod.fst :=
  (List.nodup_cons.mp h.keys).1

omit [DecidableEq κ] in
theorem Distinct.new_notMem (h : Distinct new (p :: l)) : new p.1 ∉ l.map (fun q => new q.1) :=
  (List.nodup_cons.mp h.news).1

/-- A turn leaves the entries that keep their keys. -/
theorem Kept.after (hstep : Moves new step) (hl : Distinct new (p :: l)) (h : Kept new c (p :: l)) :
    Kept new (step c p.1 p.2) l := by
  intro q hq hself
  rw [hstep c p.1 p.2 (h p List.mem_cons_self)]
  have hkey : q.1 ≠ p.1 := fun heq => hl.key_notMem (heq ▸ List.mem_map_of_mem hq)
  have hnew : q.1 ≠ new p.1 := by
    intro heq
    apply hl.new_notMem
    rw [← heq, ← hself]
    exact List.mem_map_of_mem (f := fun q => new q.1) hq
  rw [if_neg hnew, if_neg hkey]
  exact h q (List.mem_cons_of_mem p hq) hself

end turn

/-- What the loop leaves at a key that is no new one. -/
theorem lookup_loop_of_notMem (hstep : Moves new step) (hl : Distinct new l) (h : Kept new c l)
    {x : κ} (hx : x ∉ l.map (fun p => new p.1)) :
    (l.foldl (fun c p => step c p.1 p.2) c).lookup x
      = if x ∈ l.map Prod.fst then none else c.lookup x := by
  induction l generalizing c with
  | nil => rw [List.map_nil, if_neg List.not_mem_nil, List.foldl_nil]
  | cons p l ih =>
    rw [List.map_cons, List.mem_cons, not_or] at hx
    rw [List.foldl_cons, ih hl.tail (h.after hstep hl) hx.2,
      hstep c p.1 p.2 (h p List.mem_cons_self), if_neg hx.1, List.map_cons]
    by_cases hp : x = p.1
    · rw [if_pos hp, ite_self, if_pos (List.mem_cons.mpr (Or.inl hp))]
    · rw [if_neg hp]
      exact if_congr (by rw [List.mem_cons, or_iff_right hp]) rfl rfl

/-- **Where the entries arrive**: each has its value under its new key in the end exactly where
no entry is moved to the key of one that is met later. -/
theorem forall_lookup_loop_iff (hstep : Moves new step) (hl : Distinct new l)
    (h : Kept new c l) :
    (∀ p ∈ l, (l.foldl (fun c p => step c p.1 p.2) c).lookup (new p.1) = some p.2)
      ↔ l.Pairwise (fun p q => new p.1 ≠ q.1) := by
  induction l generalizing c with
  | nil => exact iff_of_true (fun p hp => absurd hp List.not_mem_nil) List.Pairwise.nil
  | cons p l ih =>
    have hhead : (l.foldl (fun c p => step c p.1 p.2) (step c p.1 p.2)).lookup (new p.1) = some p.2
        ↔ ∀ q ∈ l, new p.1 ≠ q.1 := by
      rw [lookup_loop_of_notMem hstep hl.tail (h.after hstep hl) hl.new_notMem,
        hstep c p.1 p.2 (h p List.mem_cons_self), if_pos rfl]
      constructor
      · intro hlook q hq heq
        rw [heq, if_pos (List.mem_map_of_mem hq)] at hlook
        cases hlook
      · intro hne
        rw [if_neg]
        intro hmem
        obtain ⟨q, hq, heq⟩ := List.mem_map.mp hmem
        exact hne q hq heq.symm
    rw [List.forall_mem_cons, List.foldl_cons, List.pairwise_cons, hhead,
      ih hl.tail (h.after hstep hl)]

/-- **Renaming in place**: the loop leaves the renamed dictionary exactly where no entry is
moved to the key of one that is met later. -/
theorem same_renamed_iff (hstep : Moves new step) (hnew : Set.InjOn new {k | k ∈ c})
    (hl : l.Perm c.items) :
    Same (l.foldl (fun c p => step c p.1 p.2) c) (c.renamed new)
      ↔ l.Pairwise (fun p q => new p.1 ≠ q.1) := by
  have hkeys : (l.map Prod.fst).Perm c.keys := items_map_fst c ▸ hl.map Prod.fst
  have hmem : ∀ p, p ∈ l ↔ c.lookup p.1 = some p.2 := fun p => hl.mem_iff.trans mem_items
  have hdistinct : Distinct new l := by
    refine ⟨hkeys.nodup_iff.mpr c.keys_nodup, ?_⟩
    have hmap : l.map (fun p => new p.1) = (l.map Prod.fst).map new := by
      rw [List.map_map]
      rfl
    rw [hmap]
    exact (hkeys.nodup_iff.mpr c.keys_nodup).map_on
      (fun a ha b hb hab => hnew (hkeys.mem_iff.mp ha) (hkeys.mem_iff.mp hb) hab)
  have hkept : Kept new c l := fun p hp _ => (hmem p).mp hp
  rw [← forall_lookup_loop_iff hstep hdistinct hkept]
  constructor
  · intro hsame p hp
    rw [hsame (new p.1), lookup_renamed hnew]
    exact ⟨p.1, (hmem p).mp hp, rfl⟩
  · intro hall x
    by_cases hx : x ∈ l.map (fun p => new p.1)
    · obtain ⟨p, hp, rfl⟩ := List.mem_map.mp hx
      rw [hall p hp]
      exact (lookup_renamed hnew |>.mpr ⟨p.1, (hmem p).mp hp, rfl⟩).symm
    · -- nothing is left at a key that is no new one
      have hleft : (c.renamed new).lookup x = none := by
        cases hlook : (c.renamed new).lookup x with
        | none => rfl
        | some v =>
          obtain ⟨k, hk, rfl⟩ := (lookup_renamed hnew).mp hlook
          exact absurd (List.mem_map_of_mem (f := fun p : κ × ν => new p.1)
            ((hmem (k, v)).mpr hk)) hx
      rw [lookup_loop_of_notMem hstep hdistinct hkept hx, hleft]
      by_cases hold : x ∈ l.map Prod.fst
      · rw [if_pos hold]
      · rw [if_neg hold]
        exact AList.lookup_eq_none.mpr (fun hxc => hold (hkeys.mem_iff.mpr (AList.mem_keys.mp hxc)))

end Renaming
