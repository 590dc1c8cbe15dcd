/-
# What a subnet's report says

When `SubnetScanner.do` reports the statistics that are asked for.  A mean is divided by the number
of values of all metrics for which means are asked, and raises on `None`.  A metric has one slot,
and so it cannot be asked for as a mean or a median and in another way; as a minimum and a maximum
only the greatest value of the last record with values is left of it.
-/
import Ptolemy.SubnetStatistics

namespace SubnetScanner

/-! ## The ways in which a metric is asked for -/

theorem map_snd_filter (κ : Kind) (ts : List String) (k : String) :
    ((ts.map (fun t => (t, κ))).filter (fun q => q.1 = k)).map Prod.snd
      = List.replicate (ts.count k) κ := by
  induction ts with
  | nil => rfl
  | cons t ts ih =>
    rw [List.map_cons, List.filter_cons, List.count_cons]
    by_cases ht : t = k
    · simp only [ht, decide_true, if_true, List.map_cons, ih, beq_self_eq_true]
      rfl
    · simp only [ht, decide_false, Bool.false_eq_true, if_false, ih, beq_iff_eq, Nat.add_zero]

/-- The slot of a metric that is asked for a number of times in each way. -/
def ways (a b c d : ℕ) : List Kind :=
  List.replicate a .mean ++ List.replicate b .median ++ List.replicate c .least
    ++ List.replicate d .greatest

theorem waysOf_eq (m : Metrics) (k : String) : m.waysOf k
    = ways (m.mean.count k) (m.median.count k) (m.mins.count k) (m.maxs.count k) := by
  simp only [Metrics.waysOf, Metrics.kinds, List.filter_append, List.map_append, map_snd_filter]
  rfl

theorem startOf_replicate (κs : List Kind) (κ : Kind) (n : ℕ) :
    startOf (κs ++ List.replicate n κ) = if n = 0 then startOf κs else κ.start := by
  unfold startOf
  split_ifs with hn
  · rw [hn, List.replicate_zero, List.append_nil]
  · rw [List.getLast?_append, List.getLast?_replicate, if_neg hn]
    rfl

/-- The last way decides. -/
theorem startOf_ways (a b c d : ℕ) : startOf (ways a b c d)
    = if d = 0 ∧ c = 0 then if b = 0 then if a = 0 then .null else .number 0 else .values []
      else .null := by
  have hmean : startOf (List.replicate a Kind.mean) = if a = 0 then .null else .number 0 :=
    startOf_replicate [] Kind.mean a
  rw [ways, startOf_replicate, startOf_replicate, startOf_replicate, hmean]
  by_cases hd : d = 0 <;> by_cases hc : c = 0 <;> simp [hd, hc, Kind.median, Kind.least,
    Kind.greatest]

/-! ## A value that is asked for more than once -/

/-- The values of a record, as often as a kind is asked for. -/
def copies (n : ℕ) (vs : List Value) : List Value := (List.replicate n vs).flatten

theorem copies_one (vs : List Value) : copies 1 vs = vs := List.flatten_singleton

theorem foldlM_copies (κ : Kind) (n : ℕ) (vs : List Value) (v : Slot) :
    (List.replicate n κ).foldlM (fun v κ => vs.foldlM κ.change v) v
      = (copies n vs).foldlM κ.change v := by
  unfold copies
  induction n generalizing v with
  | zero => rfl
  | succ n ih =>
    rw [List.replicate_succ, List.replicate_succ, List.foldlM_cons, List.flatten_cons,
      List.foldlM_append]
    exact congrArg _ (funext ih)

/-- A metric that is asked for in one way only. -/
theorem visitSlot_replicate (κ : Kind) (n : ℕ) (hs : List (List Value)) (v : Slot) :
    visitSlot (List.replicate n κ) hs v = (hs.flatMap (copies n)).foldlM κ.change v := by
  rw [visitSlot, foldlM_flatMap]
  exact congrArg (fun f => hs.foldlM f v) (funext fun v => funext fun vs => foldlM_copies κ n vs v)

/-- What does nothing the second time. -/
theorem foldl_copies {f : Value → Value → Value} {vs : List Value}
    (hf : ∀ v, vs.foldl f (vs.foldl f v) = vs.foldl f v) {n : ℕ} (hn : n ≠ 0) (v : Value) :
    (copies n vs).foldl f v = vs.foldl f v := by
  obtain ⟨n, rfl⟩ := Nat.exists_eq_succ_of_ne_zero hn
  clear hn
  unfold copies
  induction n generalizing v with
  | zero => rw [List.replicate_one, List.flatten_singleton]
  | succ n ih => rw [List.replicate_succ, List.flatten_cons, List.foldl_append, ih, hf]

theorem sum_copies (n : ℕ) (hs : List (List Value)) :
    (numbers (hs.flatMap (copies n))).sum = n * (numbers hs.flatten).sum := by
  have hone : ∀ vs, (numbers (copies n vs)).sum = n * (numbers vs).sum := by
    intro vs
    unfold copies
    induction n with
    | zero => simp
    | succ n ih =>
      rw [List.replicate_succ, List.flatten_cons, numbers_append, List.sum_append, ih]
      push_cast
      ring
  induction hs with
  | nil => simp
  | cons vs hs ih =>
    rw [List.flatMap_cons, List.flatten_cons, numbers_append, numbers_append, List.sum_append,
      List.sum_append, ih, hone, mul_add]

theorem bot_mem_copies {n : ℕ} (hn : n ≠ 0) (hs : List (List Value)) :
    ⊥ ∈ hs.flatMap (copies n) ↔ ⊥ ∈ hs.flatten := by
  simp [copies, List.mem_flatMap, List.mem_flatten, List.mem_replicate, hn]

/-! ## Slots of each kind -/

/-- The slot of a metric does not raise, it is left in the report where it is asked for twice, and
what is reported is as it should be. -/
def Told (κs : List Kind) (cn : ℕ) (hs : List (List Value)) (P : Option Slot → Prop) : Prop :=
  ∃ v, result κs cn hs = .ok v ∧ (1 < κs.length → v.isEmpty = false) ∧ P (kept v)

variable {cn : ℕ} {hs : List (List Value)}

/-! ### Means -/

theorem apply_mean (n : ℕ) (q : ℚ) :
    apply (List.replicate n (Slot.mean cn)) (.number q) = .ok (.number (q / (cn : ℚ) ^ n)) := by
  unfold apply
  induction n generalizing q with
  | zero => simp [pure, Except.pure]
  | succ n ih =>
    rw [List.replicate_succ, List.foldlM_cons, Slot.mean, Except.ok_bind, ih, div_div, pow_succ']

theorem finish_mean (n : ℕ) : (List.replicate n Kind.mean).flatMap (fun κ => κ.finish cn)
    = if 0 < cn then List.replicate n (Slot.mean cn) else [] := by
  rw [List.flatMap_replicate]
  simp only [Kind.mean]
  split_ifs
  · exact List.flatten_replicate_singleton
  · exact List.flatten_replicate_nil

theorem ways_mean (a : ℕ) : ways a 0 0 0 = List.replicate a .mean := by
  simp [ways]

/-- Each time it is asked for, the sum and the divisor are taken again. -/
theorem result_mean {a : ℕ} (ha : a ≠ 0) (hcn : a * hs.flatten.length ≤ cn) {v : Slot} :
    result (ways a 0 0 0) cn hs = .ok v
      ↔ ⊥ ∉ hs.flatten ∧ v = .number (a * (numbers hs.flatten).sum / (cn : ℚ) ^ a) := by
  have hfinish : ∀ q : ℚ, (cn = 0 → q = 0) →
      apply ((List.replicate a Kind.mean).flatMap (fun κ => κ.finish cn)) (.number q)
        = .ok (.number (q / (cn : ℚ) ^ a)) := by
    intro q hq
    rw [finish_mean]
    split_ifs with hpos
    · exact apply_mean a q
    · rw [hq (Nat.eq_zero_of_not_pos hpos), zero_div]
      rfl
  have hzero : cn = 0 → (a : ℚ) * (numbers hs.flatten).sum = 0 := by
    intro hcn0
    rw [hcn0, Nat.le_zero, Nat.mul_eq_zero] at hcn
    rw [List.length_eq_zero_iff.mp (hcn.resolve_left ha), numbers_nil, List.sum_nil, mul_zero]
  have hstart : startOf (ways a 0 0 0) = .number 0 := by
    rw [startOf_ways]
    simp [ha]
  rw [result, hstart, ways_mean, visitSlot_replicate, Except.bind_eq_ok]
  constructor
  · rintro ⟨w, hw, happ⟩
    obtain ⟨hvs, rfl⟩ := foldlM_add.mp hw
    rw [sum_copies, zero_add, hfinish _ hzero] at happ
    exact ⟨fun hbot => hvs ((bot_mem_copies ha hs).mpr hbot), (Except.ok.inj happ).symm⟩
  · rintro ⟨hvs, rfl⟩
    refine ⟨_, foldlM_add.mpr ⟨fun hbot => hvs ((bot_mem_copies ha hs).mp hbot), rfl⟩, ?_⟩
    rw [sum_copies, zero_add, hfinish _ hzero]

theorem length_numbers {vs : List Value} (hvs : ⊥ ∉ vs) : (numbers vs).length = vs.length := by
  rw [length_eq_count_add vs, List.count_eq_zero.mpr hvs, Nat.zero_add]

/-- The division is the right one, or nothing is divided. -/
theorem mean_eq_iff {a n : ℕ} (ha : a ≠ 0) (hn : n ≠ 0) (hcn : a * n ≤ cn) (q : ℚ) :
    a * q / (cn : ℚ) ^ a = q / n ↔ q = 0 ∨ a = 1 ∧ cn = n := by
  have hle : a ≤ a * n := Nat.le_mul_of_pos_right a (Nat.pos_of_ne_zero hn)
  have hpos : 0 < cn := by omega
  have hcn' : (cn : ℚ) ^ a ≠ 0 := pow_ne_zero a (Nat.cast_ne_zero.mpr hpos.ne')
  rw [div_eq_div_iff hcn' (Nat.cast_ne_zero.mpr hn)]
  constructor
  · intro h
    refine or_iff_not_imp_left.mpr (fun hq => ?_)
    have hcast : ((a * n : ℕ) : ℚ) = ((cn ^ a : ℕ) : ℚ) := by
      push_cast
      apply mul_left_cancel₀ hq
      linarith
    have hpow : a * n = cn ^ a := by exact_mod_cast hcast
    have hone : a = 1 := by
      by_contra hne
      have hsq : cn * cn ≤ cn ^ a := by
        rw [← pow_two]
        exact Nat.pow_le_pow_right hpos (by omega)
      have hcn1 : cn = 1 := by nlinarith
      omega
    subst hone
    exact ⟨rfl, by rw [pow_one, one_mul] at hpow; exact hpow.symm⟩
  · rintro (rfl | ⟨rfl, rfl⟩)
    · ring
    · ring

/-- **When a mean is true**: the values are there, and are all that is counted, or their sum is
zero. -/
theorem told_mean {a : ℕ} (ha : a ≠ 0) (hcn : a * hs.flatten.length ≤ cn) :
    Told (ways a 0 0 0) cn hs (MeanOf (numbers hs.flatten))
      ↔ hs.flatten ≠ [] ∧ ⊥ ∉ hs.flatten
        ∧ ((numbers hs.flatten).sum = 0 ∨ a = 1 ∧ cn = hs.flatten.length) := by
  have hmean : ⊥ ∉ hs.flatten → ∀ q : ℚ,
      MeanOf (numbers hs.flatten) (kept (.number q))
        ↔ hs.flatten ≠ [] ∧ q = (numbers hs.flatten).sum / hs.flatten.length := by
    intro hvs q
    have hempty : numbers hs.flatten = [] ↔ hs.flatten = [] := by
      rw [← List.length_eq_zero_iff, length_numbers hvs, List.length_eq_zero_iff]
    rw [MeanOf, kept_number, length_numbers hvs]
    by_cases hnil : hs.flatten = []
    · rw [if_pos (hempty.mpr hnil)]
      exact iff_of_false (fun h => nomatch h) (fun h => h.1 hnil)
    · rw [if_neg (mt hempty.mp hnil)]
      simp [hnil]
  constructor
  · rintro ⟨v, hv, -, htrue⟩
    obtain ⟨hvs, rfl⟩ := (result_mean ha hcn).mp hv
    obtain ⟨hne, heq⟩ := (hmean hvs _).mp htrue
    exact ⟨hne, hvs, (mean_eq_iff ha (mt List.length_eq_zero_iff.mp hne) hcn _).mp heq⟩
  · rintro ⟨hne, hvs, hdiv⟩
    refine ⟨_, (result_mean ha hcn).mpr ⟨hvs, rfl⟩, fun _ => rfl, (hmean hvs _).mpr ⟨hne, ?_⟩⟩
    exact (mean_eq_iff ha (mt List.length_eq_zero_iff.mp hne) hcn _).mpr hdiv

/-! ### Medians -/

theorem ways_median (b : ℕ) : ways 0 b 0 0 = List.replicate b .median := by
  simp [ways]

theorem result_median (b : ℕ) (hb : b ≠ 0) : result (ways 0 b 0 0) cn hs
    = apply (List.replicate b Slot.median) (.values (hs.flatMap (copies b))) := by
  have hstart : startOf (ways 0 b 0 0) = .values [] := by
    rw [startOf_ways]
    simp [hb]
  have hfinish : (List.replicate b Kind.median).flatMap (fun κ => κ.finish cn)
      = List.replicate b Slot.median := by
    rw [List.flatMap_replicate]
    exact List.flatten_replicate_singleton
  rw [result, hstart, ways_median, visitSlot_replicate, hfinish]
  have happend := foldlM_append [] (hs.flatMap (copies b))
  rw [List.nil_append] at happend
  rw [show Kind.median.change = Slot.append from rfl, happend, Except.ok_bind]

/-- There is no median of a median. -/
theorem median_middle (l : List Value) (w : Slot) : (Slot.middle l).median ≠ .ok w := by
  intro h
  unfold Slot.middle at h
  dsimp only at h
  split at h
  · cases h
  · cases h

/-- **When a median is true**: it is not taken of a median. -/
theorem told_median {b : ℕ} (hb : b ≠ 0) :
    Told (ways 0 b 0 0) cn hs (MedianOf (numbers hs.flatten))
      ↔ b = 1 ∧ MiddleStays hs.flatten := by
  unfold Told
  rw [result_median b hb]
  by_cases hone : b = 1
  · subst hone
    have hflat : hs.flatMap (copies 1) = hs.flatten := by
      rw [List.flatMap_def, show copies 1 = id from funext copies_one, List.map_id]
    have hresult : apply (List.replicate 1 Slot.median) (.values (hs.flatMap (copies 1)))
        = .ok (if 1 < hs.flatten.length then Slot.middle hs.flatten else .null) := by
      rw [hflat]
      exact bind_pure _
    rw [hresult, ← medianOf_iff]
    constructor
    · rintro ⟨v, hv, -, htrue⟩
      rw [← Except.ok.inj hv] at htrue
      exact ⟨rfl, htrue⟩
    · rintro ⟨-, htrue⟩
      exact ⟨_, rfl, fun h => absurd h (lt_irrefl 1), htrue⟩
  · refine iff_of_false ?_ (fun h => hone h.1)
    rintro ⟨v, hv, -⟩
    obtain ⟨n, rfl⟩ : ∃ n, b = n + 1 + 1 := ⟨b - 2, by omega⟩
    rw [List.replicate_succ, List.replicate_succ, apply, List.foldlM_cons, Slot.median,
      Except.ok_bind, List.foldlM_cons] at hv
    obtain ⟨w, hw, -⟩ := Except.bind_eq_ok.mp hv
    split_ifs at hw
    · exact median_middle _ w hw
    · cases hw

/-! ### Minima and maxima -/

/-- What the values of a record make of the slot of a minimum and maximum. -/
def bounds (c d : ℕ) (x : Value) (vs : List Value) : Value :=
  (copies d vs).foldl max ((copies c vs).foldl lesser x)

theorem foldlM_ofValue {β : Type} {f : Slot → β → Except Exn Slot} {F : Value → β → Value}
    (hF : ∀ x b, f (.ofValue x) b = .ok (.ofValue (F x b))) (l : List β) (x : Value) :
    l.foldlM f (.ofValue x) = .ok (.ofValue (l.foldl F x)) := by
  induction l generalizing x with
  | nil => rfl
  | cons b l ih =>
    rw [List.foldlM_cons, hF, Except.ok_bind, ih]
    rfl

theorem result_bounds (c d : ℕ) :
    result (ways 0 0 c d) cn hs = .ok (.ofValue (hs.foldl (bounds c d) ⊥)) := by
  have hrecord : ∀ (x : Value) (vs : List Value),
      (ways 0 0 c d).foldlM (fun v κ => vs.foldlM κ.change v) (.ofValue x)
        = .ok (.ofValue (bounds c d x vs)) := by
    intro x vs
    rw [show ways 0 0 c d = List.replicate c Kind.least ++ List.replicate d Kind.greatest from rfl,
      List.foldlM_append, foldlM_copies, show Kind.least.change = Slot.least from rfl,
      foldlM_ofValue least_ofValue, Except.ok_bind, foldlM_copies,
      show Kind.greatest.change = Slot.greatest from rfl, foldlM_ofValue greatest_ofValue]
    rfl
  have hstart : startOf (ways 0 0 c d) = .ofValue ⊥ := by
    rw [startOf_ways]
    simp [Slot.ofValue]
  have hfinish : (ways 0 0 c d).flatMap (fun κ => κ.finish cn) = [] := by
    simp [ways, List.flatMap_append, List.flatMap_replicate, Kind.least, Kind.greatest]
  rw [result, hstart, visitSlot, foldlM_ofValue hrecord, Except.ok_bind, hfinish]
  rfl

theorem isEmpty_ofValue (x : Value) :
    (Slot.ofValue x).isEmpty = false ↔ kept (.ofValue x) ≠ none := by
  induction x using WithBot.recBotCoe with
  | bot => exact iff_of_false (fun h => nomatch h) (fun h => h rfl)
  | coe q => exact iff_of_true rfl (Option.some_ne_none _)

theorem length_ways (a b c d : ℕ) : (ways a b c d).length = a + b + c + d := by
  simp [ways, Nat.add_assoc]

theorem leastOf_ne_none {l : List ℚ} {o : Option Slot} (h : LeastOf l o) : o ≠ none ↔ l ≠ [] := by
  unfold LeastOf at h
  split_ifs at h with hnil
  · exact iff_of_false (fun hne => hne h) (fun hne => hne hnil)
  · obtain ⟨q, -, rfl⟩ := h
    exact iff_of_true (Option.some_ne_none _) hnil

theorem greatestOf_ne_none {l : List ℚ} {o : Option Slot} (h : GreatestOf l o) :
    o ≠ none ↔ l ≠ [] := by
  unfold GreatestOf at h
  split_ifs at h with hnil
  · exact iff_of_false (fun hne => hne h) (fun hne => hne hnil)
  · obtain ⟨q, -, rfl⟩ := h
    exact iff_of_true (Option.some_ne_none _) hnil

theorem told_bounds {c d : ℕ} {P : Option Slot → Prop} : Told (ways 0 0 c d) cn hs P
    ↔ (1 < c + d → kept (.ofValue (hs.foldl (bounds c d) ⊥)) ≠ none)
      ∧ P (kept (.ofValue (hs.foldl (bounds c d) ⊥))) := by
  unfold Told
  simp only [result_bounds, length_ways, Nat.zero_add]
  constructor
  · rintro ⟨v, hv, htwice, htrue⟩
    obtain rfl := Except.ok.inj hv
    exact ⟨fun h => (isEmpty_ofValue _).mp (htwice h), htrue⟩
  · rintro ⟨htwice, htrue⟩
    exact ⟨_, rfl, fun h => (isEmpty_ofValue _).mpr (htwice h), htrue⟩

/-- **When a minimum is true**. -/
theorem told_least {c : ℕ} (hc : c ≠ 0) :
    Told (ways 0 0 c 0) cn hs (LeastOf (numbers hs.flatten))
      ↔ (1 < c → numbers hs.flatten ≠ []) ∧ LeastFollows hs.flatten := by
  have hfold : hs.foldl (bounds c 0) ⊥ = hs.flatten.foldl lesser ⊥ := by
    rw [List.foldl_flatten]
    exact congrArg (fun f => hs.foldl f ⊥)
      (funext fun x => funext fun vs => foldl_copies (foldl_lesser_self vs) hc x)
  rw [told_bounds, hfold, ← leastOf_foldl_iff]
  exact and_congr_left (fun h => imp_congr_right (fun _ => leastOf_ne_none h))

/-- **A maximum is true**, where the metric has numbers or is asked for once. -/
theorem told_greatest {d : ℕ} (hd : d ≠ 0) :
    Told (ways 0 0 0 d) cn hs (GreatestOf (numbers hs.flatten))
      ↔ (1 < d → numbers hs.flatten ≠ []) := by
  have hfold : hs.foldl (bounds 0 d) ⊥ = hs.flatten.foldl max ⊥ := by
    rw [List.foldl_flatten]
    exact congrArg (fun f => hs.foldl f ⊥)
      (funext fun x => funext fun vs => foldl_copies (foldl_max_self vs) hd x)
  have htrue := greatestOf_foldl hs.flatten
  rw [told_bounds, hfold, Nat.zero_add, and_iff_left htrue]
  exact imp_congr_right (fun _ => greatestOf_ne_none htrue)

/-- **When both are true**. -/
theorem told_both {c d : ℕ} (hc : c ≠ 0) (hd : d ≠ 0) :
    Told (ways 0 0 c d) cn hs
        (fun o => LeastOf (numbers hs.flatten) o ∧ GreatestOf (numbers hs.flatten) o)
      ↔ numbers (lastValues hs) ≠ []
        ∧ ∀ x ∈ numbers hs.flatten, ∀ y ∈ numbers hs.flatten, x = y := by
  have hbounds : bounds c d = fun x vs => vs.foldl max (vs.foldl lesser x) := by
    funext x vs
    rw [bounds, foldl_copies (foldl_max_self vs) hd, foldl_copies (foldl_lesser_self vs) hc]
  rw [told_bounds, hbounds, foldl_both, ← both_iff]
  exact and_congr_left (fun _ => imp_iff_right (by omega))

/-! ### Kinds that do not go together -/

/-- The first value raises, so that there is none. -/
theorem visitSlot_of_raises {κ : Kind} {κs : List Kind} {v w : Slot}
    (hraise : ∀ n u, κ.change v n ≠ .ok u) (h : visitSlot (κ :: κs) hs v = .ok w) : w = v := by
  induction hs with
  | nil => exact (Except.ok.inj h).symm
  | cons vs hs ih =>
    obtain ⟨u, hu, h⟩ := Except.bind_eq_ok.mp ((List.foldlM_cons ..).symm.trans h)
    cases vs with
    | nil =>
      have hnone : ∀ l : List Kind, l.foldlM (fun v κ => [].foldlM κ.change v) v = .ok v := by
        intro l
        induction l with
        | nil => rfl
        | cons κ' l ih' => exact ih'
      obtain rfl := Except.ok.inj ((hnone _).symm.trans hu)
      exact ih h
    | cons n vs =>
      rw [List.foldlM_cons, List.foldlM_cons] at hu
      obtain ⟨u', hu', -⟩ := Except.bind_eq_ok.mp hu
      obtain ⟨u'', hu'', -⟩ := Except.bind_eq_ok.mp hu'
      exact absurd hu'' (hraise n u'')

/-- The means and medians of empty slots. -/
theorem apply_isEmpty {fs : List (Slot → Except Exn Slot)}
    (hfs : ∀ f ∈ fs, f = Slot.mean cn ∨ f = Slot.median) {v w : Slot} (hv : v.isEmpty = true)
    (h : apply fs v = .ok w) : w.isEmpty = true := by
  have hstep : ∀ f ∈ fs, ∀ v w : Slot, v.isEmpty = true → f v = .ok w → w.isEmpty = true := by
    intro f hf v w hv hw
    rcases hfs f hf with rfl | rfl
    · cases v with
      | number q => cases hv
      | null => cases hw
      | values l => cases hw
    · cases v with
      | number q => cases hv
      | null => cases hw
      | values l =>
        cases l with
        | nil => exact Except.ok.inj hw ▸ rfl
        | cons n l => cases hv
  clear hfs
  induction fs generalizing v with
  | nil => exact Except.ok.inj h ▸ hv
  | cons f fs ih =>
    obtain ⟨u, hu, h⟩ := Except.bind_eq_ok.mp ((List.foldlM_cons ..).symm.trans h)
    exact ih (hstep f List.mem_cons_self v u hv hu) h
      (fun f' hf' => hstep f' (List.mem_cons_of_mem f hf'))

theorem mem_finish_ways {a b c d : ℕ} {f : Slot → Except Exn Slot}
    (hf : f ∈ (ways a b c d).flatMap (fun κ => κ.finish cn)) :
    f = Slot.mean cn ∨ f = Slot.median := by
  obtain ⟨κ, hκ, hf⟩ := List.mem_flatMap.mp hf
  simp only [ways, List.mem_append, List.mem_replicate] at hκ
  rcases hκ with ((⟨-, rfl⟩ | ⟨-, rfl⟩) | ⟨-, rfl⟩) | ⟨-, rfl⟩
  · unfold Kind.mean at hf
    dsimp only at hf
    split_ifs at hf
    · exact Or.inl (List.mem_singleton.mp hf)
    · cases hf
  · exact Or.inr (List.mem_singleton.mp hf)
  · cases hf
  · cases hf

/-- A slot that the first kind cannot begin with is empty in the end, and is met again. -/
theorem not_told_of_raises {a b c d : ℕ} {κ : Kind} {κs : List Kind}
    (hways : ways a b c d = κ :: κs) (hlen : κs ≠ []) (hempty : (startOf (κ :: κs)).isEmpty = true)
    (hraise : ∀ n u, κ.change (startOf (κ :: κs)) n ≠ .ok u) (P : Option Slot → Prop) :
    ¬ Told (ways a b c d) cn hs P := by
  rintro ⟨v, hv, htwice, -⟩
  have hfinish : ∀ f ∈ (κ :: κs).flatMap (fun κ => κ.finish cn),
      f = Slot.mean cn ∨ f = Slot.median := fun f hf => mem_finish_ways (hways ▸ hf)
  rw [hways] at hv htwice
  obtain ⟨w, hw, happ⟩ := Except.bind_eq_ok.mp hv
  rw [visitSlot_of_raises hraise hw] at happ
  have hlong : 1 < (κ :: κs).length := by
    have := List.length_pos_iff.mpr hlen
    rw [List.length_cons]
    omega
  exact Bool.false_ne_true ((htwice hlong).symm.trans (apply_isEmpty hfinish hempty happ))

/-- **Means in another way too**. -/
theorem not_told_mean {a b c d : ℕ} (ha : a ≠ 0) (hother : b + c + d ≠ 0)
    (P : Option Slot → Prop) : ¬ Told (ways a b c d) cn hs P := by
  obtain ⟨a, rfl⟩ := Nat.exists_eq_succ_of_ne_zero ha
  have hways : ways (a + 1) b c d = .mean :: ways a b c d := rfl
  have hstart : startOf (.mean :: ways a b c d) = .null
      ∨ startOf (.mean :: ways a b c d) = .values [] := by
    rw [← hways, startOf_ways]
    by_cases hcd : d = 0 ∧ c = 0
    · rw [if_pos hcd, if_neg (by omega)]
      exact Or.inr rfl
    · rw [if_neg hcd]
      exact Or.inl rfl
  refine not_told_of_raises hways (fun hnil => ?_) ?_ (fun n u hu => ?_) P
  · have := congrArg List.length hnil
    rw [length_ways, List.length_nil] at this
    omega
  · rcases hstart with h | h <;> rw [h] <;> rfl
  · rcases hstart with h | h <;> rw [h] at hu <;> cases hu

/-- **Medians as a minimum or maximum too**. -/
theorem not_told_median {b c d : ℕ} (hb : b ≠ 0) (hother : c + d ≠ 0) (P : Option Slot → Prop) :
    ¬ Told (ways 0 b c d) cn hs P := by
  obtain ⟨b, rfl⟩ := Nat.exists_eq_succ_of_ne_zero hb
  have hways : ways 0 (b + 1) c d = .median :: ways 0 b c d := rfl
  have hstart : startOf (.median :: ways 0 b c d) = .null := by
    rw [← hways, startOf_ways, if_neg (by omega)]
  refine not_told_of_raises hways (fun hnil => ?_) ?_ (fun n u hu => ?_) P
  · have := congrArg List.length hnil
    rw [length_ways, List.length_nil] at this
    omega
  · rw [hstart]
    rfl
  · rw [hstart] at hu
    cases hu

/-! ## When a report is true -/

variable {R : Type} (arrayify : R → String → List Value) (m : Metrics) (data : List R)

/-- **A true report** of the records of some hosts. -/
structure Reported (s : Summary) : Prop where
  mean : ∀ t ∈ m.mean, MeanOf (numbers (values arrayify data t)) (s.lookup t)
  median : ∀ t ∈ m.median, MedianOf (numbers (values arrayify data t)) (s.lookup t)
  mins : ∀ t ∈ m.mins, LeastOf (numbers (values arrayify data t)) (s.lookup t)
  maxs : ∀ t ∈ m.maxs, GreatestOf (numbers (values arrayify data t)) (s.lookup t)
  count : s.lookup "count" = some (.number data.length)
  others : ∀ k, k ≠ "count" → k ∉ m.keys → s.lookup k = none

/-- **All but the first and the last record are reported**. -/
def Correct (records : List R) : Prop :=
  ∃ s, report arrayify m records = .ok s ∧ Reported arrayify m records.tail.dropLast s

/-- What the metrics must be like. -/
structure Sound : Prop where
  mean : ∀ t ∈ m.mean, values arrayify data t ≠ [] ∧ ⊥ ∉ values arrayify data t
    ∧ t ∉ m.median ++ m.mins ++ m.maxs
  alone : (∃ t, m.mean = [t]) ∨ ∀ t ∈ m.mean, (numbers (values arrayify data t)).sum = 0
  median : ∀ t ∈ m.median, MiddleStays (values arrayify data t) ∧ m.median.count t = 1
    ∧ t ∉ m.mins ++ m.maxs
  mins : ∀ t ∈ m.mins, t ∉ m.maxs → LeastFollows (values arrayify data t)
  both : ∀ t ∈ m.mins, t ∈ m.maxs → numbers (lastValues (lists arrayify data t)) ≠ []
    ∧ ∀ x ∈ numbers (values arrayify data t), ∀ y ∈ numbers (values arrayify data t), x = y
  twice : ∀ t, 1 < (m.mins ++ m.maxs).count t → numbers (values arrayify data t) ≠ []

/-! ### One metric -/

/-- What the report of a metric is asked to be. -/
structure TrueAt (t : String) (o : Option Slot) : Prop where
  mean : t ∈ m.mean → MeanOf (numbers (values arrayify data t)) o
  median : t ∈ m.median → MedianOf (numbers (values arrayify data t)) o
  mins : t ∈ m.mins → LeastOf (numbers (values arrayify data t)) o
  maxs : t ∈ m.maxs → GreatestOf (numbers (values arrayify data t)) o

/-- What a metric must be like. -/
structure SoundAt (t : String) : Prop where
  mean : t ∈ m.mean → values arrayify data t ≠ [] ∧ ⊥ ∉ values arrayify data t
    ∧ t ∉ m.median ++ m.mins ++ m.maxs
  alone : t ∈ m.mean → (numbers (values arrayify data t)).sum = 0
    ∨ m.mean.count t = 1 ∧ total arrayify m data = (values arrayify data t).length
  median : t ∈ m.median → MiddleStays (values arrayify data t) ∧ m.median.count t = 1
    ∧ t ∉ m.mins ++ m.maxs
  mins : t ∈ m.mins → t ∉ m.maxs → LeastFollows (values arrayify data t)
  both : t ∈ m.mins → t ∈ m.maxs → numbers (lastValues (lists arrayify data t)) ≠ []
    ∧ ∀ x ∈ numbers (values arrayify data t), ∀ y ∈ numbers (values arrayify data t), x = y
  twice : 1 < (m.mins ++ m.maxs).count t → numbers (values arrayify data t) ≠ []

theorem told_congr {κs : List Kind} {P Q : Option Slot → Prop} (h : ∀ o, P o ↔ Q o) :
    Told κs cn hs P ↔ Told κs cn hs Q := by
  rw [show P = Q from funext fun o => propext (h o)]

variable {arrayify m data}

/-- A metric is counted as often as its mean is asked for. -/
theorem count_mul_length_le (t : String) :
    m.mean.count t * (values arrayify data t).length ≤ total arrayify m data := by
  have hle : ∀ ts : List String, ts.count t * (values arrayify data t).length
      ≤ (ts.map (fun t => (values arrayify data t).length)).sum := by
    intro ts
    induction ts with
    | nil => simp
    | cons u ts ih =>
      rw [List.map_cons, List.sum_cons]
      by_cases hu : u = t
      · subst hu
        rw [List.count_cons_self, Nat.add_mul, one_mul, Nat.add_comm]
        exact Nat.add_le_add_left ih _
      · rw [List.count_cons_of_ne hu]
        exact ih.trans (Nat.le_add_left _ _)
  exact hle m.mean

section Metric

variable {t : String}

theorem told_iff_mean (hmean : t ∈ m.mean) :
    Told (m.waysOf t) (total arrayify m data) (lists arrayify data t) (TrueAt arrayify m data t)
      ↔ SoundAt arrayify m data t := by
  have ha : m.mean.count t ≠ 0 := (List.count_pos_iff.mpr hmean).ne'
  rw [waysOf_eq]
  by_cases hother : t ∈ m.median ++ m.mins ++ m.maxs
  · refine iff_of_false (not_told_mean ha ?_ _) (fun h => (h.mean hmean).2.2 hother)
    rw [← List.count_append, ← List.count_append]
    exact (List.count_pos_iff.mpr hother).ne'
  · obtain ⟨hmedian, hmins, hmaxs⟩ : t ∉ m.median ∧ t ∉ m.mins ∧ t ∉ m.maxs := by
      simpa [not_or] using hother
    have htrue : ∀ o, TrueAt arrayify m data t o ↔ MeanOf (numbers (values arrayify data t)) o :=
      fun o => ⟨fun h => h.mean hmean, fun h => ⟨fun _ => h, fun h' => absurd h' hmedian,
        fun h' => absurd h' hmins, fun h' => absurd h' hmaxs⟩⟩
    have hnone : (m.mins ++ m.maxs).count t = 0 := by
      rw [List.count_append, List.count_eq_zero.mpr hmins, List.count_eq_zero.mpr hmaxs]
    rw [List.count_eq_zero.mpr hmedian, List.count_eq_zero.mpr hmins,
      List.count_eq_zero.mpr hmaxs, told_congr htrue]
    refine (told_mean ha (count_mul_length_le t)).trans ⟨?_, fun h => ?_⟩
    · rintro ⟨hne, hvs, hdiv⟩
      exact
        { mean := fun _ => ⟨hne, hvs, hother⟩
          alone := fun _ => hdiv
          median := fun h => absurd h hmedian
          mins := fun h => absurd h hmins
          both := fun h => absurd h hmins
          twice := fun h => by omega }
    · obtain ⟨hne, hvs, -⟩ := h.mean hmean
      exact ⟨hne, hvs, h.alone hmean⟩

theorem told_iff_median (hmean : t ∉ m.mean) (hmedian : t ∈ m.median) :
    Told (m.waysOf t) (total arrayify m data) (lists arrayify data t) (TrueAt arrayify m data t)
      ↔ SoundAt arrayify m data t := by
  have hb : m.median.count t ≠ 0 := (List.count_pos_iff.mpr hmedian).ne'
  rw [waysOf_eq, List.count_eq_zero.mpr hmean]
  by_cases hother : t ∈ m.mins ++ m.maxs
  · refine iff_of_false (not_told_median hb ?_ _) (fun h => (h.median hmedian).2.2 hother)
    rw [← List.count_append]
    exact (List.count_pos_iff.mpr hother).ne'
  · obtain ⟨hmins, hmaxs⟩ : t ∉ m.mins ∧ t ∉ m.maxs := by
      simpa [not_or] using hother
    have htrue : ∀ o, TrueAt arrayify m data t o
        ↔ MedianOf (numbers (values arrayify data t)) o :=
      fun o => ⟨fun h => h.median hmedian, fun h => ⟨fun h' => absurd h' hmean, fun _ => h,
        fun h' => absurd h' hmins, fun h' => absurd h' hmaxs⟩⟩
    have hnone : (m.mins ++ m.maxs).count t = 0 := List.count_eq_zero.mpr hother
    rw [List.count_eq_zero.mpr hmins, List.count_eq_zero.mpr hmaxs, told_congr htrue]
    refine (told_median hb).trans ⟨?_, fun h => ?_⟩
    · rintro ⟨hone, hmiddle⟩
      exact
        { mean := fun h => absurd h hmean
          alone := fun h => absurd h hmean
          median := fun _ => ⟨hmiddle, hone, hother⟩
          mins := fun h => absurd h hmins
          both := fun h => absurd h hmins
          twice := fun h => by omega }
    · obtain ⟨hmiddle, hone, -⟩ := h.median hmedian
      exact ⟨hone, hmiddle⟩

theorem told_iff_bounds (hmean : t ∉ m.mean) (hmedian : t ∉ m.median) (ht : t ∈ m.keys) :
    Told (m.waysOf t) (total arrayify m data) (lists arrayify data t) (TrueAt arrayify m data t)
      ↔ SoundAt arrayify m data t := by
  have hcount : (m.mins ++ m.maxs).count t = m.mins.count t + m.maxs.count t :=
    List.count_append
  rw [waysOf_eq, List.count_eq_zero.mpr hmean, List.count_eq_zero.mpr hmedian]
  by_cases hmins : t ∈ m.mins
  · have hc : m.mins.count t ≠ 0 := (List.count_pos_iff.mpr hmins).ne'
    by_cases hmaxs : t ∈ m.maxs
    · have hd : m.maxs.count t ≠ 0 := (List.count_pos_iff.mpr hmaxs).ne'
      have htrue : ∀ o, TrueAt arrayify m data t o ↔ LeastOf (numbers (values arrayify data t)) o
          ∧ GreatestOf (numbers (values arrayify data t)) o :=
        fun o => ⟨fun h => ⟨h.mins hmins, h.maxs hmaxs⟩, fun h => ⟨fun h' => absurd h' hmean,
          fun h' => absurd h' hmedian, fun _ => h.1, fun _ => h.2⟩⟩
      rw [told_congr htrue]
      refine (told_both hc hd).trans ⟨fun h => ?_, fun h => h.both hmins hmaxs⟩
      exact
        { mean := fun h' => absurd h' hmean
          alone := fun h' => absurd h' hmean
          median := fun h' => absurd h' hmedian
          mins := fun _ h' => absurd hmaxs h'
          both := fun _ _ => h
          twice := fun _ hnil => h.1 (List.eq_nil_iff_forall_not_mem.mpr (fun x hx => by
            have hmem : x ∈ numbers (values arrayify data t) := numbers_lastValues_subset _ hx
            rw [hnil] at hmem
            cases hmem)) }
    · have htrue : ∀ o, TrueAt arrayify m data t o ↔ LeastOf (numbers (values arrayify data t)) o :=
        fun o => ⟨fun h => h.mins hmins, fun h => ⟨fun h' => absurd h' hmean,
          fun h' => absurd h' hmedian, fun _ => h, fun h' => absurd h' hmaxs⟩⟩
      rw [List.count_eq_zero.mpr hmaxs, Nat.add_zero] at hcount
      rw [List.count_eq_zero.mpr hmaxs, told_congr htrue]
      refine (told_least hc).trans ⟨?_, fun h => ⟨hcount ▸ h.twice, h.mins hmins hmaxs⟩⟩
      rintro ⟨htwice, hfollows⟩
      exact
        { mean := fun h => absurd h hmean
          alone := fun h => absurd h hmean
          median := fun h => absurd h hmedian
          mins := fun _ _ => hfollows
          both := fun _ h => absurd h hmaxs
          twice := fun h => htwice (hcount ▸ h) }
  · have hmaxs : t ∈ m.maxs := by
      simpa [Metrics.keys, hmean, hmedian, hmins] using ht
    have hd : m.maxs.count t ≠ 0 := (List.count_pos_iff.mpr hmaxs).ne'
    have htrue : ∀ o, TrueAt arrayify m data t o
        ↔ GreatestOf (numbers (values arrayify data t)) o :=
      fun o => ⟨fun h => h.maxs hmaxs, fun h => ⟨fun h' => absurd h' hmean,
        fun h' => absurd h' hmedian, fun h' => absurd h' hmins, fun _ => h⟩⟩
    rw [List.count_eq_zero.mpr hmins, Nat.zero_add] at hcount
    rw [List.count_eq_zero.mpr hmins, told_congr htrue]
    refine (told_greatest hd).trans ⟨fun htwice => ?_, fun h => hcount ▸ h.twice⟩
    exact
      { mean := fun h => absurd h hmean
        alone := fun h => absurd h hmean
        median := fun h => absurd h hmedian
        mins := fun h => absurd h hmins
        both := fun h => absurd h hmins
        twice := fun h => htwice (hcount ▸ h) }

/-- **When a metric is reported as it should be**. -/
theorem told_iff (ht : t ∈ m.keys) :
    Told (m.waysOf t) (total arrayify m data) (lists arrayify data t) (TrueAt arrayify m data t)
      ↔ SoundAt arrayify m data t := by
  by_cases hmean : t ∈ m.mean
  · exact told_iff_mean hmean
  by_cases hmedian : t ∈ m.median
  · exact told_iff_median hmean hmedian
  · exact told_iff_bounds hmean hmedian ht

end Metric

/-! ### All metrics -/

/-- Every mean is divided by the number of its own values, or is zero anyway. -/
theorem alone_iff (hvals : ∀ t ∈ m.mean, values arrayify data t ≠ []) :
    (∀ t ∈ m.mean, (numbers (values arrayify data t)).sum = 0
        ∨ m.mean.count t = 1 ∧ total arrayify m data = (values arrayify data t).length)
      ↔ (∃ t, m.mean = [t]) ∨ ∀ t ∈ m.mean, (numbers (values arrayify data t)).sum = 0 := by
  constructor
  · intro h
    refine or_iff_not_imp_right.mpr (fun hsum => ?_)
    push Not at hsum
    obtain ⟨t, ht, hne⟩ := hsum
    obtain ⟨-, htotal⟩ := (h t ht).resolve_left hne
    have hperm := List.perm_cons_erase ht
    have hrest : ((m.mean.erase t).map (fun t => (values arrayify data t).length)).sum = 0 := by
      rw [total, (hperm.map (fun t => (values arrayify data t).length)).sum_eq, List.map_cons,
        List.sum_cons] at htotal
      omega
    have herase : m.mean.erase t = [] := by
      refine List.eq_nil_iff_forall_not_mem.mpr (fun t' ht' => ?_)
      have hzero := List.sum_eq_zero_iff.mp hrest _ (List.mem_map_of_mem ht')
      exact hvals t' (List.mem_of_mem_erase ht') (List.length_eq_zero_iff.mp hzero)
    rw [herase] at hperm
    exact ⟨t, List.perm_singleton.mp hperm⟩
  · rintro (⟨t, ht⟩ | hsum)
    · intro t' ht'
      rw [ht, List.mem_singleton] at ht'
      subst ht'
      exact Or.inr ⟨by simp [ht], by simp [total, ht]⟩
    · exact fun t ht => Or.inl (hsum t ht)

theorem sound_iff : Sound arrayify m data ↔ ∀ t ∈ m.keys, SoundAt arrayify m data t := by
  have hmean : ∀ t ∈ m.mean, t ∈ m.keys := fun t ht => by simp [Metrics.keys, ht]
  have hmedian : ∀ t ∈ m.median, t ∈ m.keys := fun t ht => by simp [Metrics.keys, ht]
  have hmins : ∀ t ∈ m.mins, t ∈ m.keys := fun t ht => by simp [Metrics.keys, ht]
  constructor
  · intro h t ht
    exact ⟨h.mean t, (alone_iff (fun t ht => (h.mean t ht).1)).mpr h.alone t, h.median t, h.mins t,
      h.both t, h.twice t⟩
  · intro h
    refine ⟨fun t ht => (h t (hmean t ht)).mean ht, ?_,
      fun t ht => (h t (hmedian t ht)).median ht, fun t ht => (h t (hmins t ht)).mins ht,
      fun t ht => (h t (hmins t ht)).both ht, fun t ht => ?_⟩
    · exact (alone_iff (fun t ht => ((h t (hmean t ht)).mean ht).1)).mp
        (fun t ht => (h t (hmean t ht)).alone ht)
    · have hmem : t ∈ m.mins ++ m.maxs := List.count_pos_iff.mp (by omega)
      exact (h t (by simpa [Metrics.keys] using Or.inr (Or.inr (List.mem_append.mp hmem)))).twice ht

theorem hosts_eq {records : List R} (h : 4 ≤ records.length) :
    hosts records = records.tail.dropLast := by
  rw [hosts, if_pos (by omega), List.tail_dropLast]

/-- Of each metric that is asked for, there is what is asked. -/
theorem reported_iff {records : List R} (h : 4 ≤ records.length) {s : Summary}
    (hs : report arrayify m records = .ok s) : Reported arrayify m records.tail.dropLast s
      ↔ ∀ t ∈ m.keys, TrueAt arrayify m records.tail.dropLast t (s.lookup t) := by
  constructor
  · exact fun hrep t _ => ⟨hrep.mean t, hrep.median t, hrep.mins t, hrep.maxs t⟩
  · intro htrue
    obtain ⟨hcount, hothers⟩ := report_others h hs
    refine ⟨fun t ht => (htrue t ?_).mean ht, fun t ht => (htrue t ?_).median ht,
      fun t ht => (htrue t ?_).mins ht, fun t ht => (htrue t ?_).maxs ht, ?_, hothers⟩
    · simp [Metrics.keys, ht]
    · simp [Metrics.keys, ht]
    · simp [Metrics.keys, ht]
    · simp [Metrics.keys, ht]
    · rw [hcount, hosts_eq h]

/-- The values of a field of a record. -/
def fieldValues (i : Dict String Slot) (t : String) : List Value :=
  match i.lookup t with
  | none => []
  | some .null => [⊥]
  | some (.number q) => [(q : Value)]
  | some (.values l) => l

/-- The record of a host that has replied twice. -/
def replied (r1 r2 : ℚ) : Dict String Slot :=
  Dict.ofList [("ipdv", .number (r2 - r1)), ("loss", .number 0), ("rtt", .values [r1, r2])]

/-- **When a subnet's report is true**. -/
theorem correct_iff {R : Type} (arrayify : R → String → List Value) (m : Metrics)
    {records : List R} (h : 4 ≤ records.length) :
    Correct arrayify m records ↔ Sound arrayify m records.tail.dropLast := by
  rw [sound_iff]
  constructor
  · rintro ⟨s, hs, hrep⟩ t ht
    obtain ⟨v, hv, htwice, hlook⟩ := report_lookup h hs ht
    have htrue := (reported_iff h hs).mp hrep t ht
    rw [hlook] at htrue
    rw [hosts_eq h] at hv
    exact (told_iff ht).mp ⟨v, hv, htwice, htrue⟩
  · intro hsound
    have htold : ∀ t ∈ m.keys, Told (m.waysOf t) (total arrayify m (hosts records))
        (lists arrayify (hosts records) t) (TrueAt arrayify m (hosts records) t) := by
      intro t ht
      rw [hosts_eq h]
      exact (told_iff ht).mpr (hsound t ht)
    obtain ⟨s, hs⟩ : ∃ s, report arrayify m records = .ok s := report_total h (fun t ht => by
      obtain ⟨v, hv, htwice, -⟩ := htold t ht
      exact ⟨v, hv, htwice⟩)
    refine ⟨s, hs, (reported_iff h hs).mpr (fun t ht => ?_)⟩
    obtain ⟨v, hv, -, htrue⟩ := htold t ht
    obtain ⟨w, hw, -, hlook⟩ := report_lookup h hs ht
    obtain rfl := Except.ok.inj (hv.symm.trans hw)
    rw [hlook, ← hosts_eq h]
    exact htrue

/-- The records of a subnet of four addresses. -/
def subnet : List (Dict String Slot) := [replied 1 1, replied 5 6, replied 8 7, replied 1 1]

theorem correct_default : Correct fieldValues Metrics.default subnet :=
  (correct_iff fieldValues Metrics.default (by decide)).mpr
    { mean := by decide +kernel
      alone := Or.inl ⟨"loss", rfl⟩
      median := fun t ht => (by
        rw [List.mem_singleton.mp ht]
        exact ⟨Or.inr ⟨by decide +kernel, by decide +kernel, by decide +kernel⟩, rfl, by decide⟩)
      mins := fun t ht _ => Or.inr (fun pre post hsplit => (by
        have hnull : ⊥ ∈ values fieldValues subnet.tail.dropLast t :=
          hsplit ▸ List.mem_append_right pre List.mem_cons_self
        rw [List.mem_singleton.mp ht] at hnull
        exact absurd hnull (by decide +kernel)))
      both := fun t _ ht => nomatch ht
      twice := fun t ht => absurd ht (by
        rw [not_lt]
        exact List.count_le_length) }

/-- Two means, of which one is divided by the number of values of both. -/
theorem not_correct_means :
    ¬ Correct fieldValues ⟨["loss", "rtt"], ["ipdv"], [], [], by decide⟩ subnet := by
  rintro ⟨s, hs, hrep⟩
  have hmean := hrep.mean "rtt" (by decide)
  have hlook : (report fieldValues ⟨["loss", "rtt"], ["ipdv"], [], [], by decide⟩
      subnet).toOption.bind (fun s => s.lookup "rtt") = some (.number (13 / 3)) := by
    decide +kernel
  rw [hs] at hlook
  have hnumbers : numbers (values fieldValues subnet.tail.dropLast "rtt") = [5, 6, 8, 7] := by
    decide +kernel
  rw [hnumbers, MeanOf, if_neg (by decide)] at hmean
  have heq := Slot.number.inj (Option.some.inj (hlook.symm.trans hmean))
  norm_num at heq

end SubnetScanner
