/-
# Binary heaps in a list

A list holds a binary tree in level order: the parent of position `i` is
position `(i - 1) / 2`.  The list is *ordered* when no item is below its parent,
so that the first item is a least one.

`heappush` appends the new item and sifts it towards the root; `heappop` puts the
last item at the root, moves it along the lesser children down to a leaf and
sifts it back from there.  Both sifts move their item by swaps along one path of
the tree.  Main results:

* `heappush_perm`, `ordered_heappush` : the items after a push, and their order;
* `heappop_perm`, `ordered_heappop`   : the same for a pop;
* `heappop_le`                        : what a pop returns is a least item.
-/
import Mathlib

namespace Heapq

variable {α : Type} [LinearOrder α]

/-! ## The operations -/

/-- The position above `i`. -/
def parent (i : Nat) : Nat := (i - 1) / 2

/-- Exchange the items at `i` and `j`. -/
def swap (heap : List α) (i j : Nat) : List α :=
  match heap[i]?, heap[j]? with
  | some a, some b => (heap.set i b).set j a
  | _, _ => heap

/-- Move the item at `pos` towards the root while it is below its parent; `pos` steps are
enough. -/
def siftdown : Nat → List α → Nat → List α
  | 0, heap, _ => heap
  | fuel + 1, heap, pos =>
      match heap[pos]?, heap[parent pos]? with
      | some newitem, some above =>
          if newitem < above then siftdown fuel (swap heap pos (parent pos)) (parent pos)
          else heap
      | _, _ => heap

/-- The lesser child of `pos`, the right one of two equal ones; `none` at a leaf. -/
def lesserChild (heap : List α) (pos : Nat) : Option Nat :=
  match heap[2 * pos + 1]?, heap[2 * pos + 2]? with
  | none, _ => none
  | some _, none => some (2 * pos + 1)
  | some l, some r => if l < r then some (2 * pos + 1) else some (2 * pos + 2)

/-- Move the item at `pos` down to a leaf, along the lesser children, and back towards the
root. -/
def siftup : Nat → List α → Nat → List α
  | 0, heap, pos => siftdown pos heap pos
  | fuel + 1, heap, pos =>
      match lesserChild heap pos with
      | some c => siftup fuel (swap heap pos c) c
      | none => siftdown pos heap pos

/-- Add an item. -/
def heappush (heap : List α) (item : α) : List α :=
  siftdown heap.length (heap ++ [item]) heap.length

/-- Take the first item; `none` where there is none. -/
def heappop (heap : List α) : Option (α × List α) :=
  match heap.getLast?, heap.dropLast with
  | none, _ => none
  | some lastelt, [] => some (lastelt, [])
  | some lastelt, returnitem :: rest =>
      some (returnitem, siftup heap.length (lastelt :: rest) 0)

/-- No item is below its parent. -/
def Ordered (heap : List α) : Prop :=
  ∀ i a b, heap[i]? = some a → heap[parent i]? = some b → b ≤ a

/-! ## Positions and swaps -/

omit [LinearOrder α] in
/-- The items after a swap of two positions of the list. -/
theorem getElem?_swap {heap : List α} {i j : Nat} {a b : α} (hi : heap[i]? = some a)
    (hj : heap[j]? = some b) (k : Nat) :
    (swap heap i j)[k]? = if k = j then some a else if k = i then some b else heap[k]? := by
  have hil : i < heap.length := (List.getElem?_eq_some_iff.mp hi).1
  have hjl : j < heap.length := (List.getElem?_eq_some_iff.mp hj).1
  simp only [swap, hi, hj]
  by_cases hkj : k = j
  · rw [if_pos hkj, hkj, List.getElem?_set_self (by rw [List.length_set]; omega)]
  · rw [if_neg hkj, List.getElem?_set_ne (Ne.symm hkj)]
    by_cases hki : k = i
    · rw [if_pos hki, hki, List.getElem?_set_self hil]
    · rw [if_neg hki, List.getElem?_set_ne (Ne.symm hki)]

omit [LinearOrder α] in
theorem swap_perm (heap : List α) (i j : Nat) : (swap heap i j).Perm heap := by
  unfold swap
  split
  · rename_i a b hi hj
    obtain ⟨hil, rfl⟩ := List.getElem?_eq_some_iff.mp hi
    obtain ⟨hjl, rfl⟩ := List.getElem?_eq_some_iff.mp hj
    exact List.set_set_perm hil hjl
  · exact List.Perm.refl heap

theorem lesserChild_eq_some {heap : List α} {pos c : Nat} (h : lesserChild heap pos = some c) :
    parent c = pos ∧ pos < c ∧ ∃ m, heap[c]? = some m
      ∧ ∀ i a, parent i = pos → i ≠ pos → heap[i]? = some a → m ≤ a := by
  unfold lesserChild at h
  have hchild : ∀ i, parent i = pos → i ≠ pos → i = 2 * pos + 1 ∨ i = 2 * pos + 2 := by
    intro i hi hne
    unfold parent at hi
    omega
  split at h
  · cases h
  · rename_i l hl hr
    cases h
    refine ⟨by unfold parent; omega, by omega, l, hl, fun i a hi hne ha => ?_⟩
    rcases hchild i hi hne with rfl | rfl
    · exact le_of_eq (Option.some.inj (hl.symm.trans ha))
    · rw [hr] at ha
      cases ha
  · rename_i l r hl hr
    split_ifs at h with hlt
    · cases h
      refine ⟨by unfold parent; omega, by omega, l, hl, fun i a hi hne ha => ?_⟩
      rcases hchild i hi hne with rfl | rfl
      · exact le_of_eq (Option.some.inj (hl.symm.trans ha))
      · exact le_of_lt (hlt.trans_eq (Option.some.inj (hr.symm.trans ha)))
    · cases h
      refine ⟨by unfold parent; omega, by omega, r, hr, fun i a hi hne ha => ?_⟩
      rcases hchild i hi hne with rfl | rfl
      · exact (not_lt.mp hlt).trans (le_of_eq (Option.some.inj (hl.symm.trans ha)))
      · exact le_of_eq (Option.some.inj (hr.symm.trans ha))

theorem lesserChild_eq_none {heap : List α} {pos i : Nat} {a : α}
    (h : lesserChild heap pos = none) (hi : parent i = pos) (hne : i ≠ pos) :
    heap[i]? ≠ some a := by
  intro ha
  have hil : i < heap.length := (List.getElem?_eq_some_iff.mp ha).1
  have hleft : 2 * pos + 1 < heap.length := by
    unfold parent at hi
    omega
  unfold lesserChild at h
  rw [List.getElem?_eq_getElem hleft] at h
  split at h
  · simp_all
  · cases h
  · split_ifs at h

/-! ## Sifting towards the root -/

/-- Only the item at `pos` may be below its parent, and the items under it are not below that
parent. -/
structure UpReady (heap : List α) (pos : Nat) : Prop where
  except : ∀ i a b, i ≠ pos → heap[i]? = some a → heap[parent i]? = some b → b ≤ a
  grand : ∀ i a b, parent i = pos → heap[i]? = some a → heap[parent pos]? = some b → i ≠ pos →
    b ≤ a

theorem UpReady.ordered_of_le {heap : List α} {pos : Nat} (h : UpReady heap pos)
    (hle : ∀ a b, heap[pos]? = some a → heap[parent pos]? = some b → b ≤ a) : Ordered heap := by
  intro i a b ha hb
  by_cases hi : i = pos
  · subst hi
    exact hle a b ha hb
  · exact h.except i a b hi ha hb

/-- One swap with the parent. -/
theorem UpReady.swap {heap : List α} {pos : Nat} (h : UpReady heap pos) (hpos : pos ≠ 0)
    {x y : α} (hx : heap[pos]? = some x) (hy : heap[parent pos]? = some y) (hlt : x < y) :
    UpReady (Heapq.swap heap pos (parent pos)) (parent pos) := by
  have hget := getElem?_swap hx hy
  have hne : parent pos ≠ pos := by unfold parent; omega
  constructor
  · intro i a b hi ha hb
    rw [hget, if_neg hi] at ha
    rw [hget] at hb
    by_cases hip : i = pos
    · rw [if_pos hip] at ha
      rw [hip, if_pos rfl] at hb
      cases ha
      cases hb
      exact le_of_lt hlt
    · rw [if_neg hip] at ha
      -- a sibling of the item now stands below it, a child of it below its old parent
      by_cases hpar : parent i = parent pos
      · rw [if_pos hpar] at hb
        cases hb
        exact (le_of_lt hlt).trans (h.except i a y hip ha (hpar ▸ hy))
      · rw [if_neg hpar] at hb
        by_cases hpp : parent i = pos
        · rw [if_pos hpp] at hb
          cases hb
          exact h.grand i a y hpp ha hy hip
        · rw [if_neg hpp] at hb
          exact h.except i a b hip ha hb
  · intro i a b hi ha hb hne'
    rw [hget] at ha hb
    have hin : i ≠ parent pos := hne'
    rw [if_neg hin] at ha
    by_cases hroot : parent (parent pos) = parent pos
    · -- the parent is the root: the item moved there is below all of its children
      rw [if_pos hroot] at hb
      cases hb
      by_cases hip : i = pos
      · rw [if_pos hip] at ha
        cases ha
        exact le_of_lt hlt
      · rw [if_neg hip] at ha
        exact (le_of_lt hlt).trans (h.except i a y hip ha (hi ▸ hy))
    · have hpp : parent (parent pos) ≠ pos := by
        unfold parent at hne hroot ⊢
        omega
      rw [if_neg hroot, if_neg hpp] at hb
      have hyb : b ≤ y := h.except (parent pos) y b hne hy hb
      by_cases hip : i = pos
      · rw [if_pos hip] at ha
        cases ha
        exact hyb
      · rw [if_neg hip] at ha
        exact hyb.trans (h.except i a y hip ha (hi ▸ hy))

theorem siftdown_perm (fuel : Nat) (heap : List α) (pos : Nat) :
    (siftdown fuel heap pos).Perm heap := by
  induction fuel generalizing heap pos with
  | zero => exact List.Perm.refl heap
  | succ fuel ih =>
    unfold siftdown
    split
    · split_ifs
      · exact (ih _ _).trans (swap_perm heap pos (parent pos))
      · exact List.Perm.refl heap
    · exact List.Perm.refl heap

theorem ordered_siftdown {fuel : Nat} {heap : List α} {pos : Nat} (hfuel : pos ≤ fuel)
    (h : UpReady heap pos) : Ordered (siftdown fuel heap pos) := by
  induction fuel generalizing heap pos with
  | zero =>
    have hpos : pos = 0 := by omega
    subst hpos
    exact h.ordered_of_le (fun a b ha hb => le_of_eq (Option.some.inj (hb.symm.trans ha)))
  | succ fuel ih =>
    unfold siftdown
    split
    · rename_i x y hx hy
      split_ifs with hlt
      · have hpos : pos ≠ 0 := by
          intro hpos
          subst hpos
          exact absurd hlt (by rw [Option.some.inj (hx.symm.trans hy)]; exact lt_irrefl y)
        exact ih (by unfold parent; omega) (h.swap hpos hx hy hlt)
      · refine h.ordered_of_le (fun a b ha hb => ?_)
        rw [← Option.some.inj (hx.symm.trans ha), ← Option.some.inj (hy.symm.trans hb)]
        exact not_lt.mp hlt
    · rename_i hnone
      exact h.ordered_of_le (fun a b ha hb => (hnone a b ha hb).elim)

/-! ## Moving an item down to a leaf -/

/-- Only the items under `pos` may be below it, and they are not below its parent. -/
structure DownReady (heap : List α) (pos : Nat) : Prop where
  except : ∀ i a b, i ≠ pos → parent i ≠ pos → heap[i]? = some a → heap[parent i]? = some b → b ≤ a
  grand : ∀ i a b, parent i = pos → heap[i]? = some a → heap[parent pos]? = some b → pos ≠ 0 →
    b ≤ a

/-- One swap with the lesser child. -/
theorem DownReady.swap {heap : List α} {pos c : Nat} (h : DownReady heap pos) {x m : α}
    (hx : heap[pos]? = some x) (hc : parent c = pos) (hlt : pos < c) (hm : heap[c]? = some m)
    (hle : ∀ i a, parent i = pos → i ≠ pos → heap[i]? = some a → m ≤ a) :
    DownReady (Heapq.swap heap pos c) c := by
  have hget := getElem?_swap hx hm
  constructor
  · intro i a b hi hpi ha hb
    rw [hget, if_neg hi] at ha
    rw [hget, if_neg hpi] at hb
    by_cases hip : i = pos
    · rw [if_pos hip] at ha
      cases ha
      -- the lesser child is at the top of its siblings now
      by_cases hpp : parent i = pos
      · rw [if_pos hpp] at hb
        cases hb
        exact le_refl _
      · rw [if_neg hpp] at hb
        have hpos : pos ≠ 0 := by
          intro hpos
          subst hpos
          subst hip
          exact hpp rfl
        exact h.grand c _ b hc hm (hip ▸ hb) hpos
    · rw [if_neg hip] at ha
      by_cases hpp : parent i = pos
      · rw [if_pos hpp] at hb
        cases hb
        exact hle i a hpp hip ha
      · rw [if_neg hpp] at hb
        exact h.except i a b hip hpp ha hb
  · intro i a b hi ha hb _
    have hci : c ≠ i := by
      intro hci
      rw [← hci] at hi
      omega
    have hip : i ≠ pos := by
      intro hip
      rw [hip] at hi
      unfold parent at hi
      omega
    rw [hget, if_neg (Ne.symm hci), if_neg hip] at ha
    rw [hget, hc, if_neg (by omega), if_pos rfl] at hb
    cases hb
    exact h.except i a _ hip (by omega) ha (hi ▸ hm)

/-- At a leaf the item is ready to be sifted back. -/
theorem DownReady.upReady {heap : List α} {pos : Nat} (h : DownReady heap pos)
    (hleaf : lesserChild heap pos = none) : UpReady heap pos := by
  constructor
  · intro i a b hi ha hb
    by_cases hp : parent i = pos
    · exact absurd ha (lesserChild_eq_none hleaf hp hi)
    · exact h.except i a b hi hp ha hb
  · intro i a b hi ha _ hne
    exact absurd ha (lesserChild_eq_none hleaf hi hne)

theorem siftup_perm (fuel : Nat) (heap : List α) (pos : Nat) :
    (siftup fuel heap pos).Perm heap := by
  induction fuel generalizing heap pos with
  | zero => exact siftdown_perm pos heap pos
  | succ fuel ih =>
    unfold siftup
    split
    · exact (ih _ _).trans (swap_perm heap pos _)
    · exact siftdown_perm pos heap pos

theorem ordered_siftup {fuel : Nat} {heap : List α} {pos : Nat} (hpos : pos < heap.length)
    (hfuel : heap.length ≤ pos + fuel) (h : DownReady heap pos) :
    Ordered (siftup fuel heap pos) := by
  induction fuel generalizing heap pos with
  | zero => omega
  | succ fuel ih =>
    unfold siftup
    split
    · rename_i c hc
      obtain ⟨hpar, hlt, m, hm, hle⟩ := lesserChild_eq_some hc
      have hlen : (Heapq.swap heap pos c).length = heap.length := (swap_perm heap pos c).length_eq
      have hcl : c < heap.length := (List.getElem?_eq_some_iff.mp hm).1
      exact ih (by omega) (by omega)
        (h.swap (List.getElem?_eq_getElem hpos) hpar hlt hm hle)
    · rename_i hleaf
      exact ordered_siftdown (le_refl pos) (h.upReady hleaf)

/-! ## Push and pop -/

theorem heappush_perm (heap : List α) (item : α) : (heappush heap item).Perm (item :: heap) :=
  (siftdown_perm _ _ _).trans List.perm_append_comm

theorem ordered_heappush {heap : List α} (h : Ordered heap) (item : α) :
    Ordered (heappush heap item) := by
  apply ordered_siftdown (le_refl heap.length)
  have hold : ∀ i a, i ≠ heap.length → (heap ++ [item])[i]? = some a → heap[i]? = some a := by
    intro i a hi ha
    have hil := (List.getElem?_eq_some_iff.mp ha).1
    rw [List.length_append, List.length_singleton] at hil
    rwa [List.getElem?_append_left (by omega)] at ha
  constructor
  · intro i a b hi ha hb
    have ha' := hold i a hi ha
    have hil := (List.getElem?_eq_some_iff.mp ha').1
    exact h i a b ha' (hold _ b (by unfold parent; omega) hb)
  · intro i a b hi ha _ hne
    have hil := (List.getElem?_eq_some_iff.mp ha).1
    rw [List.length_append, List.length_singleton] at hil
    unfold parent at hi
    omega

omit [LinearOrder α] in
theorem perm_of_getLast? {heap : List α} {x : α} (h : heap.getLast? = some x) :
    heap.Perm (x :: heap.dropLast) := by
  obtain ⟨l, rfl⟩ := List.getLast?_eq_some_iff.mp h
  rw [List.dropLast_concat]
  exact List.perm_append_comm

theorem heappop_eq_none {heap : List α} : heappop heap = none ↔ heap = [] := by
  unfold heappop
  split
  · rename_i h
    exact iff_of_true rfl (List.getLast?_eq_none_iff.mp h)
  all_goals
    rename_i h _
    refine iff_of_false (by simp) ?_
    rintro rfl
    cases h

/-- The items before a pop are the one returned and those after it. -/
theorem heappop_perm {heap rest : List α} {x : α} (h : heappop heap = some (x, rest)) :
    heap.Perm (x :: rest) := by
  unfold heappop at h
  split at h
  · cases h
  · rename_i lastelt hlast hinit
    cases h
    exact hinit ▸ perm_of_getLast? hlast
  · rename_i lastelt first rest' hlast hinit
    cases h
    have hperm := perm_of_getLast? hlast
    rw [hinit] at hperm
    exact (hperm.trans (List.Perm.swap _ _ _)).trans ((siftup_perm _ _ _).symm.cons _)

theorem ordered_heappop {heap rest : List α} {x : α} (ho : Ordered heap)
    (h : heappop heap = some (x, rest)) : Ordered rest := by
  unfold heappop at h
  split at h
  · cases h
  · cases h
    intro i a b ha
    cases ha
  · rename_i lastelt first rest' hlast hinit
    cases h
    have hlen : heap.length = (lastelt :: rest').length + 1 := by
      have hperm := perm_of_getLast? hlast
      rw [hinit] at hperm
      rw [hperm.length_eq]
      simp
    refine ordered_siftup (by simp) (by omega) ?_
    -- below the root the items are those of the heap
    have hold : ∀ i a, i ≠ 0 → (lastelt :: rest')[i]? = some a → heap[i]? = some a := by
      intro i a hi ha
      have hil := (List.getElem?_eq_some_iff.mp ha).1
      have hinit' : heap.dropLast[i]? = some a := by
        rw [hinit]
        obtain ⟨j, rfl⟩ := Nat.exists_eq_succ_of_ne_zero hi
        simpa using ha
      rwa [List.getElem?_dropLast, if_pos (by omega)] at hinit'
    constructor
    · intro i a b hi hpi ha hb
      exact ho i a b (hold i a hi ha) (hold _ b hpi hb)
    · intro i a b _ _ _ hne
      exact absurd rfl hne

/-- The root of an ordered heap is a least item. -/
theorem Ordered.root_le {heap : List α} (ho : Ordered heap) {x : α} (hx : heap[0]? = some x)
    (i : Nat) {a : α} (ha : heap[i]? = some a) : x ≤ a := by
  induction i using Nat.strong_induction_on generalizing a with
  | _ i ih =>
    by_cases hi : i = 0
    · subst hi
      exact le_of_eq (Option.some.inj (hx.symm.trans ha))
    · have hlt : parent i < i := by unfold parent; omega
      have hil := (List.getElem?_eq_some_iff.mp ha).1
      have hb : heap[parent i]? = some heap[parent i] := List.getElem?_eq_getElem (by omega)
      exact (ih (parent i) hlt hb).trans (ho i a _ ha hb)

/-- **A pop returns a least item.** -/
theorem heappop_le {heap rest : List α} {x : α} (ho : Ordered heap)
    (h : heappop heap = some (x, rest)) {y : α} (hy : y ∈ heap) : x ≤ y := by
  obtain ⟨i, hi, rfl⟩ := List.mem_iff_getElem.mp hy
  have hx : heap[0]? = some x := by
    unfold heappop at h
    split at h
    · cases h
    · rename_i lastelt hlast hinit
      cases h
      have hlen : heap.length = 1 := by
        have hperm := perm_of_getLast? hlast
        rw [hinit] at hperm
        exact hperm.length_eq
      rw [List.getLast?_eq_getElem?, hlen] at hlast
      exact hlast
    · rename_i lastelt first rest' hlast hinit
      cases h
      have hfirst : heap.dropLast[0]? = some x := by rw [hinit]; rfl
      rw [List.getElem?_dropLast] at hfirst
      split_ifs at hfirst
      exact hfirst
  exact ho.root_le hx i (List.getElem?_eq_getElem hi)

end Heapq
