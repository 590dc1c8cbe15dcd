/-
# Statistics of values

The mean, the median, the least and the greatest of the numbers among some values, and what the
slots of a report make of them.  The greatest value is always right.  The least one is taken anew
after each `None`, and the median is that of the values with `None` below all of them.
-/
import Ptolemy.SubnetScanner

namespace SubnetScanner

/-! ## Numbers among the values -/

def number? : Value → Option ℚ
  | ⊥ => none
  | (q : ℚ) => some q

/-- The values that are not `None`. -/
def numbers (vs : List Value) : List ℚ := vs.filterMap number?

@[simp] theorem numbers_nil : numbers [] = [] := rfl

@[simp] theorem numbers_bot (vs : List Value) : numbers (⊥ :: vs) = numbers vs := rfl

@[simp] theorem numbers_coe (q : ℚ) (vs : List Value) :
    numbers ((q : Value) :: vs) = q :: numbers vs := rfl

theorem numbers_append (vs ws : List Value) : numbers (vs ++ ws) = numbers vs ++ numbers ws :=
  List.filterMap_append

theorem mem_numbers {q : ℚ} {vs : List Value} : q ∈ numbers vs ↔ (q : Value) ∈ vs := by
  induction vs with
  | nil => simp
  | cons n vs ih =>
    induction n using WithBot.recBotCoe with
    | bot => simp [ih]
    | coe x => simp [ih]

/-- The values are the nulls and the numbers. -/
theorem perm_numbers (vs : List Value) :
    vs.Perm (List.replicate (vs.count ⊥) (⊥ : Value) ++ (numbers vs).map ((↑) : ℚ → Value)) := by
  induction vs with
  | nil => simp
  | cons n vs ih =>
    induction n using WithBot.recBotCoe with
    | bot =>
      rw [List.count_cons_self, List.replicate_succ, numbers_bot]
      exact ih.cons ⊥
    | coe x =>
      rw [List.count_cons_of_ne WithBot.coe_ne_bot, numbers_coe, List.map_cons]
      exact (ih.cons (x : Value)).trans List.perm_middle.symm

theorem length_eq_count_add (vs : List Value) : vs.length = vs.count ⊥ + (numbers vs).length := by
  have h := (perm_numbers vs).length_eq
  rwa [List.length_append, List.length_replicate, List.length_map] at h

/-! ## Statistics -/

/-- The mean of the two middle elements of the sorted list. -/
def IsMedian (l : List ℚ) (q : ℚ) : Prop :=
  ∃ s : List ℚ, s.Perm l ∧ s.Pairwise (· ≤ ·) ∧ ∃ a b, s[(s.length - 1) / 2]? = some a
    ∧ s[s.length / 2]? = some b ∧ q = (a + b) / 2

/-- A report of the mean of some numbers. -/
def MeanOf (l : List ℚ) (o : Option Slot) : Prop :=
  if l = [] then o = none else o = some (.number (l.sum / l.length))

/-- A report of a median, for two numbers or more. -/
def MedianOf (l : List ℚ) (o : Option Slot) : Prop :=
  if l.length < 2 then o = none else ∃ q, IsMedian l q ∧ o = some (.number q)

def LeastOf (l : List ℚ) (o : Option Slot) : Prop :=
  if l = [] then o = none else ∃ q, IsLeast {x | x ∈ l} q ∧ o = some (.number q)

def GreatestOf (l : List ℚ) (o : Option Slot) : Prop :=
  if l = [] then o = none else ∃ q, IsGreatest {x | x ∈ l} q ∧ o = some (.number q)

/-! ## Values with nulls -/

/-- Without as many of its greatest numbers as there are nulls, the list has the same numbers in
its middle. -/
def MiddleStays (vs : List Value) : Prop :=
  let s := (numbers vs).insertionSort (· ≤ ·)
  let k := vs.count ⊥
  s.length < 2 ∨ k < s.length ∧ s[(s.length - k - 1) / 2]? = s[(s.length - 1) / 2]?
    ∧ s[(s.length - k) / 2]? = s[s.length / 2]?

/-- There is a least number after each null. -/
def LeastFollows (vs : List Value) : Prop :=
  numbers vs = [] ∨ ∀ pre post, vs = pre ++ ⊥ :: post →
    ∃ q ∈ numbers post, ∀ x ∈ numbers vs, q ≤ x

/-! ## Slots -/

/-- What the deletion loop leaves of a slot. -/
def kept (v : Slot) : Option Slot := (some v).filter (fun v => !v.isEmpty)

theorem kept_null : kept .null = none := rfl

theorem kept_number (q : ℚ) : kept (.number q) = some (.number q) := rfl

theorem foldlM_add {vs : List Value} {q : ℚ} {v : Slot} :
    vs.foldlM Slot.add (.number q) = .ok v ↔ ⊥ ∉ vs ∧ v = .number (q + (numbers vs).sum) := by
  induction vs generalizing q with
  | nil =>
    rw [List.foldlM_nil]
    constructor
    · intro h
      exact ⟨List.not_mem_nil, by rw [← Except.ok.inj h]; simp⟩
    · rintro ⟨-, rfl⟩
      simp [pure, Except.pure]
  | cons n vs ih =>
    rw [List.foldlM_cons]
    induction n using WithBot.recBotCoe with
    | bot => exact iff_of_false (fun h => nomatch h) (fun h => h.1 List.mem_cons_self)
    | coe x =>
      have hadd : Slot.add (.number q) (x : Value) = .ok (.number (q + x)) := rfl
      rw [hadd, Except.ok_bind, ih, numbers_coe, List.sum_cons, add_assoc]
      simp

theorem foldlM_append (l vs : List Value) :
    vs.foldlM Slot.append (.values l) = .ok (.values (l ++ vs)) := by
  induction vs generalizing l with
  | nil => simp [pure, Except.pure]
  | cons n vs ih =>
    rw [List.foldlM_cons, Slot.append, Except.ok_bind, ih]
    simp

/-- The lesser of a slot's value, if there is one, and a value. -/
def lesser (v n : Value) : Value := if v = ⊥ ∨ n < v then n else v

theorem lesser_bot (v : Value) : lesser v ⊥ = ⊥ := by
  unfold lesser
  by_cases hv : v = ⊥
  · rw [if_pos (Or.inl hv)]
  · rw [if_pos (Or.inr (bot_lt_iff_ne_bot.mpr hv))]

theorem least_ofValue (v n : Value) :
    Slot.least (.ofValue v) n = .ok (.ofValue (lesser v n)) := by
  induction v using WithBot.recBotCoe with
  | bot => rfl
  | coe q =>
    have hne : ¬ (q : Value) = ⊥ := WithBot.coe_ne_bot
    simp only [Slot.ofValue, Slot.least, lesser, hne, false_or]
    split_ifs <;> rfl

theorem greatest_ofValue (v n : Value) :
    Slot.greatest (.ofValue v) n = .ok (.ofValue (max v n)) := by
  induction v using WithBot.recBotCoe with
  | bot =>
    rw [max_eq_right bot_le]
    rfl
  | coe q =>
    simp only [Slot.ofValue, Slot.greatest]
    split_ifs with hlt
    · rw [max_eq_right hlt.le]
    · exact congrArg (fun x => Except.ok (Slot.ofValue x)) (max_eq_left (not_lt.mp hlt)).symm

theorem kept_ofValue (v : Value) : kept (.ofValue v) = (number? v).map Slot.number := by
  induction v using WithBot.recBotCoe with
  | bot => rfl
  | coe q => rfl

/-! ## Greatest and least values -/

theorem foldl_max_eq (vs : List Value) : vs.foldl max ⊥ = (numbers vs).maximum := by
  rw [List.foldl_eq_foldr]
  induction vs with
  | nil => rfl
  | cons n vs ih =>
    rw [List.foldr_cons, ih]
    induction n using WithBot.recBotCoe with
    | bot => exact max_eq_right bot_le
    | coe q => exact (List.maximum_cons q (numbers vs)).symm

/-- A maximum is always true. -/
theorem greatestOf_foldl (vs : List Value) :
    GreatestOf (numbers vs) (kept (.ofValue (vs.foldl max ⊥))) := by
  rw [kept_ofValue, foldl_max_eq, GreatestOf]
  split_ifs with hnil
  · rw [hnil]
    rfl
  · cases hmax : (numbers vs).maximum using WithBot.recBotCoe with
    | bot => exact absurd (List.maximum_eq_bot.mp hmax) hnil
    | coe q =>
      obtain ⟨hmem, hle⟩ := List.maximum_eq_coe_iff.mp hmax
      exact ⟨q, ⟨hmem, hle⟩, rfl⟩

/-- The value that is kept is one of those seen. -/
theorem foldl_lesser_mem (v : Value) (vs : List Value) : vs.foldl lesser v ∈ v :: vs := by
  induction vs generalizing v with
  | nil => exact List.mem_cons_self
  | cons n vs ih =>
    have hstep : lesser v n = n ∨ lesser v n = v := by
      unfold lesser
      split_ifs
      · exact Or.inl rfl
      · exact Or.inr rfl
    rw [List.foldl_cons]
    rcases List.mem_cons.mp (ih (lesser v n)) with heq | hmem
    · rw [heq]
      rcases hstep with hn | hv
      · simp [hn]
      · simp [hv]
    · exact List.mem_cons_of_mem v (List.mem_cons_of_mem n hmem)

/-- Without nulls, it is the least one. -/
theorem foldl_lesser_le {v : Value} {vs : List Value} (hv : v ≠ ⊥) (hvs : ⊥ ∉ vs) :
    ∀ n ∈ v :: vs, vs.foldl lesser v ≤ n := by
  induction vs generalizing v with
  | nil => simp
  | cons n vs ih =>
    obtain ⟨hn, hvs⟩ := not_or.mp (fun h => hvs (List.mem_cons.mpr h))
    have hstep : lesser v n ≠ ⊥ ∧ lesser v n ≤ v ∧ lesser v n ≤ n := by
      unfold lesser
      split_ifs with h
      · exact ⟨Ne.symm hn, (h.resolve_left hv).le, le_rfl⟩
      · exact ⟨hv, le_rfl, not_lt.mp (fun hlt => h (Or.inr hlt))⟩
    obtain ⟨hne, hlev, hlen⟩ := hstep
    have hrest := ih hne hvs
    have hhead := hrest _ List.mem_cons_self
    intro x hx
    rw [List.foldl_cons]
    rcases List.mem_cons.mp hx with rfl | hx
    · exact hhead.trans hlev
    rcases List.mem_cons.mp hx with rfl | hx
    · exact hhead.trans hlen
    · exact hrest x (List.mem_cons_of_mem _ hx)

/-- A null forgets what was kept. -/
theorem foldl_lesser_null (v : Value) (pre post : List Value) :
    (pre ++ ⊥ :: post).foldl lesser v = post.foldl lesser ⊥ := by
  rw [List.foldl_append, List.foldl_cons, lesser_bot]

/-- The number that is kept of values without a null. -/
theorem foldl_lesser_bot {vs : List Value} (hvs : ⊥ ∉ vs) {x : ℚ} (hx : x ∈ numbers vs) :
    ∃ q ∈ numbers vs, vs.foldl lesser ⊥ = (q : Value) ∧ ∀ y ∈ numbers vs, q ≤ y := by
  cases vs with
  | nil => cases hx
  | cons n vs =>
    have hn : n ≠ ⊥ := fun h => hvs (h ▸ List.mem_cons_self)
    have hfirst : (n :: vs).foldl lesser ⊥ = vs.foldl lesser n := by
      rw [List.foldl_cons, lesser, if_pos (Or.inl rfl)]
    have hle := foldl_lesser_le hn (fun h => hvs (List.mem_cons_of_mem n h))
    have hmem := foldl_lesser_mem n vs
    rw [hfirst]
    cases hkept : vs.foldl lesser n using WithBot.recBotCoe with
    | bot => exact absurd (hkept ▸ hmem) hvs
    | coe q =>
      rw [hkept] at hle hmem
      exact ⟨q, mem_numbers.mpr hmem, rfl,
        fun y hy => WithBot.coe_le_coe.mp (hle y (mem_numbers.mp hy))⟩

/-- The last null of a list. -/
theorem exists_last_null {vs : List Value} (h : ⊥ ∈ vs) :
    ∃ pre post, vs = pre ++ ⊥ :: post ∧ ⊥ ∉ post := by
  obtain ⟨as, bs, hrev, has⟩ := List.eq_append_cons_of_mem (List.mem_reverse.mpr h)
  refine ⟨bs.reverse, as.reverse, ?_, fun hmem => has (List.mem_reverse.mp hmem)⟩
  rw [← List.reverse_reverse vs, hrev]
  simp

/-- **When a minimum is true**. -/
theorem leastOf_foldl_iff (vs : List Value) :
    LeastOf (numbers vs) (kept (.ofValue (vs.foldl lesser ⊥))) ↔ LeastFollows vs := by
  rw [kept_ofValue, LeastOf, LeastFollows]
  by_cases hnil : numbers vs = []
  · rw [if_pos hnil]
    refine iff_of_true ?_ (Or.inl hnil)
    cases hkept : vs.foldl lesser ⊥ using WithBot.recBotCoe with
    | bot => rfl
    | coe q =>
      have hmem := foldl_lesser_mem ⊥ vs
      rw [hkept] at hmem
      have hq := mem_numbers.mpr ((List.mem_cons.mp hmem).resolve_left WithBot.coe_ne_bot)
      rw [hnil] at hq
      cases hq
  · rw [if_neg hnil]
    constructor
    · rintro ⟨q, ⟨-, hle⟩, hq⟩
      refine Or.inr (fun pre post hsplit => ⟨q, ?_, hle⟩)
      rw [hsplit, foldl_lesser_null] at hq
      have hmem := foldl_lesser_mem ⊥ post
      cases hkept : post.foldl lesser ⊥ using WithBot.recBotCoe with
      | bot =>
        rw [hkept] at hq
        cases hq
      | coe q' =>
        rw [hkept] at hq hmem
        obtain rfl := Slot.number.inj (Option.some.inj hq)
        exact mem_numbers.mpr ((List.mem_cons.mp hmem).resolve_left WithBot.coe_ne_bot)
    · intro h
      have hfollows := h.resolve_left hnil
      by_cases hnull : ⊥ ∈ vs
      · obtain ⟨pre, post, hsplit, hpost⟩ := exists_last_null hnull
        obtain ⟨x, hx, hxle⟩ := hfollows pre post hsplit
        obtain ⟨q, hq, hkept, hqle⟩ := foldl_lesser_bot hpost hx
        have hmem : q ∈ numbers vs := by
          rw [hsplit, numbers_append, numbers_bot]
          exact List.mem_append_right _ hq
        refine ⟨q, ⟨hmem, fun y hy => (hqle x hx).trans (hxle y hy)⟩, ?_⟩
        rw [hsplit, foldl_lesser_null, hkept]
        rfl
      · obtain ⟨x, hx⟩ := List.exists_mem_of_ne_nil _ hnil
        obtain ⟨q, hq, hkept, hqle⟩ := foldl_lesser_bot hnull hx
        exact ⟨q, ⟨hq, hqle⟩, by rw [hkept]; rfl⟩

/-! ## Medians -/

/-- The sorted numbers. -/
def sorted (vs : List Value) : List ℚ := (numbers vs).insertionSort (· ≤ ·)

theorem length_sorted (vs : List Value) : (sorted vs).length = (numbers vs).length :=
  List.length_insertionSort _ _

theorem sorted_pairwise (vs : List Value) : (sorted vs).Pairwise (· ≤ ·) :=
  List.pairwise_insertionSort _ _

/-- Python 2 sorts the nulls to the front. -/
theorem insertionSort_eq (vs : List Value) : vs.insertionSort (· ≤ ·)
    = List.replicate (vs.count ⊥) (⊥ : Value) ++ (sorted vs).map ((↑) : ℚ → Value) := by
  refine List.Perm.eq_of_pairwise (fun a b _ _ hab hba => le_antisymm hab hba)
    (List.pairwise_insertionSort _ _) ?_ ((List.perm_insertionSort _ _).trans ?_)
  · rw [List.pairwise_append]
    refine ⟨List.pairwise_replicate.mpr (Or.inr le_rfl), ?_, fun a ha b _ => ?_⟩
    · rw [List.pairwise_map]
      exact (sorted_pairwise vs).imp (fun hab => WithBot.coe_le_coe.mpr hab)
    · rw [(List.mem_replicate.mp ha).2]
      exact bot_le
  · exact (perm_numbers vs).trans
      (((List.perm_insertionSort _ _).symm.map _).append_left _)

/-- What stands at a place of the sorted values. -/
theorem insertionSort_getElem? (vs : List Value) (i : ℕ) : (vs.insertionSort (· ≤ ·))[i]?
    = if i < vs.count ⊥ then some ⊥
      else ((sorted vs)[i - vs.count ⊥]?).map ((↑) : ℚ → Value) := by
  rw [insertionSort_eq, List.getElem?_append, List.length_replicate]
  split_ifs with hi
  · rw [List.getElem?_replicate, if_pos hi]
  · rw [List.getElem?_map]

/-- More nulls than numbers, or as many: a null stands in the middle. -/
theorem middle_of_le {vs : List Value} (h : 1 < vs.length)
    (hle : (sorted vs).length ≤ vs.count ⊥) : Slot.middle vs = .null := by
  have hlen := length_eq_count_add vs
  rw [← length_sorted] at hlen
  have hnull : (vs.insertionSort (· ≤ ·))[(vs.length - 1) / 2]? = some ⊥ := by
    rw [insertionSort_getElem?, if_pos (by omega)]
  unfold Slot.middle
  simp only [hnull]

/-- Fewer nulls than numbers: the numbers stand as many places nearer to the front. -/
theorem middle_of_lt {vs : List Value} (hlt : vs.count ⊥ < (sorted vs).length) {a b : ℚ}
    (ha : (sorted vs)[((sorted vs).length - vs.count ⊥ - 1) / 2]? = some a)
    (hb : (sorted vs)[((sorted vs).length - vs.count ⊥) / 2]? = some b) :
    Slot.middle vs = .number ((a + b) / 2) := by
  have hlen := length_eq_count_add vs
  rw [← length_sorted] at hlen
  have hleft : (vs.insertionSort (· ≤ ·))[(vs.length - 1) / 2]? = some (a : Value) := by
    rw [insertionSort_getElem?, if_neg (by omega),
      show (vs.length - 1) / 2 - vs.count ⊥ = ((sorted vs).length - vs.count ⊥ - 1) / 2 by omega,
      ha]
    rfl
  have hright : (vs.insertionSort (· ≤ ·))[vs.length / 2]? = some (b : Value) := by
    rw [insertionSort_getElem?, if_neg (by omega),
      show vs.length / 2 - vs.count ⊥ = ((sorted vs).length - vs.count ⊥) / 2 by omega, hb]
    rfl
  unfold Slot.middle
  simp only [hleft, hright]
  congr 1
  ring

/-- There is one sorted list of some numbers. -/
theorem isMedian_iff {vs : List Value} {q : ℚ} : IsMedian (numbers vs) q
    ↔ ∃ a b, (sorted vs)[((sorted vs).length - 1) / 2]? = some a
      ∧ (sorted vs)[(sorted vs).length / 2]? = some b ∧ q = (a + b) / 2 := by
  constructor
  · rintro ⟨s, hperm, hsorted, hmid⟩
    have heq : s = sorted vs := List.Perm.eq_of_pairwise
      (fun a b _ _ hab hba => le_antisymm hab hba) hsorted (sorted_pairwise vs)
      (hperm.trans (List.perm_insertionSort _ _).symm)
    rwa [heq] at hmid
  · exact fun h => ⟨sorted vs, List.perm_insertionSort _ _, sorted_pairwise vs, h⟩

/-- Places of a sorted list. -/
theorem sorted_le {vs : List Value} {i j : ℕ} (hij : i ≤ j) {a b : ℚ}
    (ha : (sorted vs)[i]? = some a) (hb : (sorted vs)[j]? = some b) : a ≤ b := by
  obtain ⟨hi, rfl⟩ := List.getElem?_eq_some_iff.mp ha
  obtain ⟨hj, rfl⟩ := List.getElem?_eq_some_iff.mp hb
  rcases hij.lt_or_eq with hlt | rfl
  · exact List.pairwise_iff_getElem.mp (sorted_pairwise vs) i j hi hj hlt
  · exact le_rfl

theorem sorted_getElem? (vs : List Value) {i : ℕ} (hi : i < (sorted vs).length) :
    ∃ a, (sorted vs)[i]? = some a := ⟨_, List.getElem?_eq_getElem hi⟩

/-- **When a median is true**. -/
theorem medianOf_iff (vs : List Value) :
    MedianOf (numbers vs) (kept (if 1 < vs.length then Slot.middle vs else .null))
      ↔ MiddleStays vs := by
  have hlen := length_eq_count_add vs
  rw [← length_sorted] at hlen
  have hstays : MiddleStays vs ↔ (sorted vs).length < 2 ∨ vs.count ⊥ < (sorted vs).length
      ∧ (sorted vs)[((sorted vs).length - vs.count ⊥ - 1) / 2]?
        = (sorted vs)[((sorted vs).length - 1) / 2]?
      ∧ (sorted vs)[((sorted vs).length - vs.count ⊥) / 2]?
        = (sorted vs)[(sorted vs).length / 2]? := Iff.rfl
  rw [hstays, MedianOf, ← length_sorted]
  by_cases hshort : (sorted vs).length < 2
  · rw [if_pos hshort]
    refine iff_of_true ?_ (Or.inl hshort)
    split_ifs with h
    · rw [middle_of_le h (by omega), kept_null]
    · exact kept_null
  · rw [if_neg hshort, if_pos (by omega : 1 < vs.length)]
    obtain ⟨a', ha'⟩ := sorted_getElem? vs (i := ((sorted vs).length - 1) / 2) (by omega)
    obtain ⟨b', hb'⟩ := sorted_getElem? vs (i := (sorted vs).length / 2) (by omega)
    by_cases hlt : vs.count ⊥ < (sorted vs).length
    · obtain ⟨a, ha⟩ := sorted_getElem? vs
        (i := ((sorted vs).length - vs.count ⊥ - 1) / 2) (by omega)
      obtain ⟨b, hb⟩ := sorted_getElem? vs
        (i := ((sorted vs).length - vs.count ⊥) / 2) (by omega)
      have hle := sorted_le (by omega) ha ha'
      have hle' := sorted_le (by omega) hb hb'
      rw [middle_of_lt hlt ha hb, kept_number, ha, hb, ha', hb']
      constructor
      · rintro ⟨q, hq, heq⟩
        obtain ⟨x, y, hx, hy, rfl⟩ := isMedian_iff.mp hq
        obtain rfl := Option.some.inj (ha'.symm.trans hx)
        obtain rfl := Option.some.inj (hb'.symm.trans hy)
        have hsum := Slot.number.inj (Option.some.inj heq)
        have ha_eq : a = a' := by linarith
        have hb_eq : b = b' := by linarith
        exact Or.inr ⟨hlt, congrArg some ha_eq, congrArg some hb_eq⟩
      · intro h
        obtain ⟨-, ha_eq, hb_eq⟩ := h.resolve_left hshort
        obtain rfl := Option.some.inj ha_eq
        obtain rfl := Option.some.inj hb_eq
        exact ⟨_, isMedian_iff.mpr ⟨a, b, ha', hb', rfl⟩, rfl⟩
    · rw [middle_of_le (by omega) (by omega), kept_null]
      refine iff_of_false ?_ (fun h => hlt (h.resolve_left hshort).1)
      rintro ⟨q, -, heq⟩
      cases heq

/-! ## Least and greatest values of several lists -/

theorem foldl_max_eq_max (vs : List Value) (v : Value) :
    vs.foldl max v = max v (vs.foldl max ⊥) := by
  induction vs generalizing v with
  | nil => exact (max_eq_left bot_le).symm
  | cons n vs ih =>
    have hn : max ⊥ n = n := max_eq_right bot_le
    rw [List.foldl_cons, List.foldl_cons, ih, ih (max ⊥ n), hn, max_assoc]

theorem foldl_max_self (vs : List Value) (v : Value) :
    vs.foldl max (vs.foldl max v) = vs.foldl max v := by
  rw [foldl_max_eq_max vs (vs.foldl max v), foldl_max_eq_max vs v, max_assoc, max_self]

/-- A value that none is below stays. -/
theorem foldl_lesser_of_le {v : Value} {vs : List Value} (hv : v ≠ ⊥) (h : ∀ n ∈ vs, v ≤ n) :
    vs.foldl lesser v = v := by
  induction vs with
  | nil => rfl
  | cons n vs ih =>
    have hkeep : lesser v n = v :=
      if_neg (not_or.mpr ⟨hv, not_lt.mpr (h n List.mem_cons_self)⟩)
    rw [List.foldl_cons, hkeep]
    exact ih (fun n' hn' => h n' (List.mem_cons_of_mem n hn'))

theorem foldl_lesser_self (vs : List Value) (v : Value) :
    vs.foldl lesser (vs.foldl lesser v) = vs.foldl lesser v := by
  by_cases hnull : ⊥ ∈ vs
  · obtain ⟨pre, post, rfl, -⟩ := exists_last_null hnull
    rw [foldl_lesser_null, foldl_lesser_null]
  · have hself : ∀ w : Value, w ≠ ⊥ → ∀ l : List Value, ⊥ ∉ l →
        l.foldl lesser (l.foldl lesser w) = l.foldl lesser w := by
      intro w hw l hl
      have hle := foldl_lesser_le hw hl
      refine foldl_lesser_of_le (fun hbot => ?_)
        (fun n hn => hle n (List.mem_cons_of_mem w hn))
      have hmem := foldl_lesser_mem w l
      rw [hbot] at hmem
      exact (List.mem_cons.mp hmem).elim (fun heq => hw heq.symm) hl
    by_cases hv : v = ⊥
    · cases vs with
      | nil => rfl
      | cons n vs =>
        obtain ⟨hn, hvs⟩ := not_or.mp (fun h => hnull (List.mem_cons.mpr h))
        have hfirst : (n :: vs).foldl lesser v = (n :: vs).foldl lesser n := by
          rw [List.foldl_cons, List.foldl_cons, lesser, if_pos (Or.inl hv),
            lesser, ite_self]
        rw [hfirst]
        exact hself n (Ne.symm hn) (n :: vs) hnull
    · exact hself v hv vs hnull

/-- The last value bounds the least one. -/
theorem foldl_lesser_le_max {vs : List Value} (hvs : vs ≠ []) (v : Value) :
    vs.foldl lesser v ≤ vs.foldl max ⊥ := by
  have hlast : ∀ w n : Value, lesser w n ≤ n := by
    intro w n
    unfold lesser
    split_ifs with h
    · exact le_rfl
    · exact not_lt.mp (fun hlt => h (Or.inr hlt))
  induction vs using List.reverseRecOn with
  | nil => exact absurd rfl hvs
  | append_singleton l n _ =>
    rw [List.foldl_append, List.foldl_append, List.foldl_cons, List.foldl_nil, List.foldl_cons,
      List.foldl_nil]
    exact (hlast _ n).trans (le_max_right _ n)

/-- What is kept where both are asked for: the greatest value of the list. -/
theorem foldl_max_lesser {vs : List Value} (hvs : vs ≠ []) (v : Value) :
    vs.foldl max (vs.foldl lesser v) = vs.foldl max ⊥ := by
  rw [foldl_max_eq_max, max_eq_right (foldl_lesser_le_max hvs v)]

/-- The last of the lists that has values. -/
def lastValues (hs : List (List Value)) : List Value := ((hs.filter (· ≠ [])).getLast?).getD []

theorem numbers_lastValues_subset (hs : List (List Value)) :
    numbers (lastValues hs) ⊆ numbers hs.flatten := by
  intro x hx
  rw [mem_numbers] at hx ⊢
  unfold lastValues at hx
  cases hlast : (hs.filter (· ≠ [])).getLast? with
  | none =>
    rw [hlast] at hx
    cases hx
  | some vs =>
    rw [hlast] at hx
    exact List.mem_flatten.mpr ⟨vs, (List.mem_filter.mp (List.mem_of_getLast? hlast)).1, hx⟩

theorem foldl_both (hs : List (List Value)) :
    hs.foldl (fun v vs => vs.foldl max (vs.foldl lesser v)) ⊥
      = (numbers (lastValues hs)).maximum := by
  rw [← foldl_max_eq]
  induction hs using List.reverseRecOn with
  | nil => rfl
  | append_singleton hs vs ih =>
    rw [List.foldl_append, List.foldl_cons, List.foldl_nil, lastValues, List.filter_append]
    by_cases hvs : vs = []
    · subst hvs
      rw [List.foldl_nil, List.foldl_nil, ih, lastValues]
      simp
    · rw [foldl_max_lesser hvs]
      simp [hvs]

/-- **When a least and a greatest value are both true**: all numbers are one, and the last list with
values has it. -/
theorem both_iff (hs : List (List Value)) :
    (kept (.ofValue (numbers (lastValues hs)).maximum) ≠ none
        ∧ LeastOf (numbers hs.flatten) (kept (.ofValue (numbers (lastValues hs)).maximum))
        ∧ GreatestOf (numbers hs.flatten) (kept (.ofValue (numbers (lastValues hs)).maximum)))
      ↔ numbers (lastValues hs) ≠ []
        ∧ ∀ x ∈ numbers hs.flatten, ∀ y ∈ numbers hs.flatten, x = y := by
  rw [kept_ofValue]
  cases hmax : (numbers (lastValues hs)).maximum using WithBot.recBotCoe with
  | bot =>
    rw [List.maximum_eq_bot] at hmax
    exact iff_of_false (fun h => h.1 rfl) (fun h => h.1 hmax)
  | coe q =>
    obtain ⟨hmem, -⟩ := List.maximum_eq_coe_iff.mp hmax
    have hne : numbers hs.flatten ≠ [] := List.ne_nil_of_mem (numbers_lastValues_subset hs hmem)
    rw [LeastOf, GreatestOf, if_neg hne, if_neg hne]
    constructor
    · rintro ⟨-, ⟨a, ⟨-, hle⟩, ha⟩, b, ⟨-, hge⟩, hb⟩
      obtain rfl := Slot.number.inj (Option.some.inj ha)
      obtain rfl := Slot.number.inj (Option.some.inj hb)
      have hall : ∀ x ∈ numbers hs.flatten, x = q := fun x hx => le_antisymm (hge hx) (hle hx)
      exact ⟨List.ne_nil_of_mem hmem, fun x hx y hy => (hall x hx).trans (hall y hy).symm⟩
    · rintro ⟨-, hall⟩
      have hq := numbers_lastValues_subset hs hmem
      exact ⟨Option.some_ne_none _, ⟨q, ⟨hq, fun x hx => (hall q hq x hx).le⟩, rfl⟩,
        q, ⟨hq, fun x hx => (hall x hx q hq).le⟩, rfl⟩

end SubnetScanner
