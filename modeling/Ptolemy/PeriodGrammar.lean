/-
# The grammar of periods

A period is a number, or a number and a spread behind one of the signs `+-`, `+` and `-`.  `_delta`
reads whole numbers only and gives no sign back, so that `delta` spreads to both sides whatever
the sign says: with `+` or `-` it keeps to its side in half of the draws.

A number with a fraction ends the search at its point.  The spread behind it is not read, and the
period is its whole part, which is none at all below one.
-/
import Ptolemy.SchedulerLoop

namespace Scheduler

/-! ## Numbers and periods -/

/-- A number in decimal digits, with or without a fraction. -/
structure Numeral where
  whole : ℕ
  fraction : List (Fin 10)

namespace Numeral

/-- The value of the digits behind the point. -/
def fractionValue : List (Fin 10) → ℚ
  | [] => 0
  | d :: ds => ((d.val : ℚ) + fractionValue ds) / 10

def value (n : Numeral) : ℚ := n.whole + fractionValue n.fraction

/-- The point and the digits behind it, if there are any. -/
def fractionText : List (Fin 10) → List Char
  | [] => []
  | d :: ds => '.' :: (d :: ds).map (fun d => Nat.digitChar d.val)

def text (n : Numeral) : List Char := Nat.toDigits 10 n.whole ++ fractionText n.fraction

theorem fractionValue_bounds (ds : List (Fin 10)) :
    0 ≤ fractionValue ds ∧ fractionValue ds < 1 := by
  induction ds with
  | nil => exact ⟨le_refl 0, zero_lt_one⟩
  | cons d ds ih =>
    have hd : (d.val : ℚ) ≤ 9 := by
      have := d.isLt
      exact_mod_cast (by omega : d.val ≤ 9)
    have hd0 : (0 : ℚ) ≤ d.val := Nat.cast_nonneg _
    unfold fractionValue
    constructor
    · have := ih.1
      positivity
    · rw [div_lt_one (by norm_num)]
      linarith [ih.2]

theorem whole_le_value (n : Numeral) : (n.whole : ℚ) ≤ n.value := by
  have := (fractionValue_bounds n.fraction).1
  unfold value
  linarith

theorem value_eq_whole {n : Numeral} (h : n.fraction = []) : n.value = n.whole := by
  rw [value, h, fractionValue, add_zero]

end Numeral

/-- What stands around a sign. -/
abbrev Blanks : Type := { l : List Char // ∀ c ∈ l, Text.isSpace c = true }

inductive Sign where
  | plusMinus
  | plus
  | minus
  deriving DecidableEq

def Sign.text : Sign → List Char
  | plusMinus => ['+', '-']
  | plus => ['+']
  | minus => ['-']

/-- A positive number, or one with a smaller positive spread. -/
inductive Period where
  | single (p : Numeral) (hp : 0 < p.value)
  | spread (p : Numeral) (l : Blanks) (sign : Sign) (r : Blanks) (q : Numeral)
      (hq : 0 < q.value) (hpq : q.value < p.value)

namespace Period

/-- The number of a period. -/
def number : Period → Numeral
  | single p _ => p
  | spread p _ _ _ _ _ _ => p

def text : Period → List Char
  | single p _ => p.text
  | spread p l sign r q _ _ => p.text ++ (l.val ++ (sign.text ++ (r.val ++ q.text)))

/-- The least value of a period. -/
def low : Period → ℚ
  | single p _ => p.value
  | spread p _ .plus _ _ _ _ => p.value
  | spread p _ _ _ q _ _ => p.value - q.value

/-- The greatest value of a period. -/
def high : Period → ℚ
  | single p _ => p.value
  | spread p _ .minus _ _ _ _ => p.value
  | spread p _ _ _ q _ _ => p.value + q.value

/-- The spread that is read: none behind a fraction. -/
def readSpread : Period → Option ℕ
  | single _ _ => none
  | spread p _ _ _ q _ _ => if p.fraction = [] then some q.whole else none

end Period

/-! ## What is read -/

theorem isDigit_fractionText {ds : List (Fin 10)} {m : List Char}
    (hm : ∀ c ∈ m.head?, c.isDigit = false) :
    ∀ c ∈ (Numeral.fractionText ds ++ m).head?, c.isDigit = false := by
  cases ds with
  | nil => exact hm
  | cons d ds =>
    intro c hc
    obtain rfl := Option.some.inj hc
    decide

/-- The digits of a numeral, whatever is behind it. -/
theorem span_text (n : Numeral) {m : List Char} (hm : ∀ c ∈ m.head?, c.isDigit = false) :
    (n.text ++ m).takeWhile Char.isDigit = Nat.toDigits 10 n.whole
      ∧ (n.text ++ m).dropWhile Char.isDigit = Numeral.fractionText n.fraction ++ m := by
  rw [Numeral.text, List.append_assoc]
  exact span_append isDigit_of_mem (isDigit_fractionText hm)

/-- A period is read from its first digit on. -/
theorem searchDelta_text (n : Numeral) {m : List Char} (hm : ∀ c ∈ m.head?, c.isDigit = false) :
    searchDelta (n.text ++ m)
      = some (n.whole, spreadOf (Numeral.fractionText n.fraction ++ m)) := by
  obtain ⟨c, cs, hcons, hdigit⟩ := isDigit_head_toDigits n.whole
    (Numeral.fractionText n.fraction ++ m)
  have hdrop := List.dropWhile_cons_of_neg (p := fun c : Char => !c.isDigit) (a := c) (l := cs)
    (by simp [hdigit])
  rw [← hcons, ← List.append_assoc] at hdrop
  obtain ⟨htake, hrest⟩ := span_text n hm
  rw [Numeral.text] at htake hrest ⊢
  unfold searchDelta
  simp only [hdrop, htake, hrest, Text.nat?_toDigits, Option.map_some]

/-- A fraction is no sign. -/
theorem spreadOf_fraction {ds : List (Fin 10)} (h : ds ≠ []) (m : List Char) :
    spreadOf (Numeral.fractionText ds ++ m) = none := by
  cases ds with
  | nil => exact absurd rfl h
  | cons d ds => rfl

/-- Whatever the sign is and whatever stands around it, the whole part behind it is read. -/
theorem spreadOf_sign (l : Blanks) (sign : Sign) (r : Blanks) (q : Numeral) :
    spreadOf (l.val ++ (sign.text ++ (r.val ++ q.text))) = some q.whole := by
  have hq : ∀ c ∈ q.text.head?, Text.isSpace c = false := by
    obtain ⟨c, cs, hcons, hdigit⟩ := isDigit_head_toDigits q.whole (Numeral.fractionText q.fraction)
    intro d hd
    rw [Numeral.text, hcons] at hd
    obtain rfl := Option.some.inj hd
    exact Text.isSpace_of_isDigit hdigit
  have hdigits := (span_append r.property hq).2
  have htake := (span_text q (m := []) (by simp)).1
  rw [List.append_nil] at htake
  have hsign : (l.val ++ (sign.text ++ (r.val ++ q.text))).dropWhile Text.isSpace
      = sign.text ++ (r.val ++ q.text) := by
    refine (span_append l.property ?_).2
    intro c hc
    cases sign <;> (obtain rfl := Option.some.inj hc; decide)
  have hminus : ∀ s, r.val ++ q.text ≠ '-' :: s := by
    intro s hs
    obtain ⟨c, cs, hcons, hdigit⟩ := isDigit_head_toDigits q.whole (Numeral.fractionText q.fraction)
    cases hr : r.val with
    | nil =>
      rw [hr, List.nil_append, Numeral.text, hcons] at hs
      rw [(List.cons.inj hs).1] at hdigit
      revert hdigit
      decide
    | cons d ds =>
      rw [hr] at hs
      have hspace := r.property d (hr ▸ List.mem_cons_self)
      rw [(List.cons.inj hs).1] at hspace
      revert hspace
      decide
  unfold spreadOf
  rw [hsign]
  -- the sign `+` is not taken for the sign `+-`, as no minus follows it
  cases sign <;> simp only [Sign.text, List.cons_append, List.nil_append, hdigits, htake,
    Option.bind_some, Text.nat?_toDigits]

/-- What is read of a period: the whole part of its number, and the spread where the number has no
fraction. -/
theorem searchDelta_period (period : Period) :
    searchDelta period.text = some (period.number.whole, period.readSpread) := by
  cases period with
  | single p hp =>
    have hread := searchDelta_text p (m := []) (by simp)
    rw [List.append_nil, List.append_nil] at hread
    rw [Period.text, hread]
    by_cases hfraction : p.fraction = []
    · rw [hfraction]
      rfl
    · have hnone := spreadOf_fraction hfraction []
      rw [List.append_nil] at hnone
      rw [hnone]
      rfl
  | spread p l sign r q hq hpq =>
    have hhead : ∀ c ∈ (l.val ++ (sign.text ++ (r.val ++ q.text))).head?, c.isDigit = false := by
      intro c hc
      cases hl : l.val with
      | nil =>
        rw [hl] at hc
        cases sign <;> (obtain rfl := Option.some.inj hc; decide)
      | cons d ds =>
        rw [hl] at hc
        obtain rfl := Option.some.inj hc
        have hspace := l.property d (hl ▸ List.mem_cons_self)
        cases hdigit : d.isDigit with
        | false => rfl
        | true =>
          rw [Text.isSpace_of_isDigit hdigit] at hspace
          cases hspace
    rw [Period.text, searchDelta_text p hhead, Period.readSpread]
    split_ifs with hfraction
    · rw [hfraction, Numeral.fractionText, List.nil_append, spreadOf_sign]
      rfl
    · rw [spreadOf_fraction hfraction]
      rfl

theorem ascii_of_isSpace {c : Char} (h : Text.isSpace c = true) : c.toNat < 128 := by
  simp only [Text.isSpace, Bool.or_eq_true, Bool.and_eq_true, decide_eq_true_eq] at h
  rcases h with rfl | ⟨-, h⟩
  · decide
  · have hle : c.toNat ≤ 13 := h
    omega

theorem ascii_numeral (n : Numeral) : ∀ c ∈ n.text, c.toNat < 128 := by
  have hdigit : ∀ d < 10, (Nat.digitChar d).toNat < 128 := by decide
  intro c hc
  rcases List.mem_append.mp hc with hc | hc
  · exact ascii_of_isDigit (isDigit_of_mem c hc)
  · cases hf : n.fraction with
    | nil =>
      rw [hf] at hc
      cases hc
    | cons d ds =>
      rw [hf] at hc
      rcases List.mem_cons.mp hc with rfl | hc
      · decide
      · obtain ⟨d', -, rfl⟩ := List.mem_map.mp hc
        exact hdigit d' d'.isLt

theorem ascii_period (period : Period) : ∀ c ∈ period.text, c.toNat < 128 := by
  cases period with
  | single p hp => exact ascii_numeral p
  | spread p l sign r q hq hpq =>
    intro c hc
    simp only [Period.text, List.mem_append] at hc
    rcases hc with hc | hc | hc | hc | hc
    · exact ascii_numeral p c hc
    · exact ascii_of_isSpace (l.property c hc)
    · cases sign <;> (simp only [Sign.text, List.mem_cons, List.not_mem_nil, or_false] at hc)
      · rcases hc with rfl | rfl <;> decide
      · subst hc
        decide
      · subst hc
        decide
    · exact ascii_of_isSpace (r.property c hc)
    · exact ascii_numeral q c hc

theorem _delta_period (period : Period) : _delta (.str (String.ofList period.text))
    = .ok ((period.number.whole : ℚ), (period.readSpread.getD 0 : ℕ)) := by
  have hascii : ∀ c ∈ (String.ofList period.text).toList, c.toNat < 128 := by
    rw [String.toList_ofList]
    exact ascii_period period
  have hsearch : searchDelta (String.ofList period.text).toList
      = some (period.number.whole, period.readSpread) := by
    rw [String.toList_ofList, searchDelta_period]
  exact _delta_of_searchDelta hascii hsearch

/-! ## What is returned -/

theorem delta_period (period : Period) (r : Draw) : delta (.str (String.ofList period.text)) r
    = .ok (if period.number.whole = 0 then none
      else some (period.number.whole + (period.readSpread.getD 0 : ℕ) * (2 * r.value - 1))) := by
  rw [delta, _delta_period, Except.ok_bind]
  simp only [Nat.cast_eq_zero]
  split_ifs with hwhole hspread
  · rfl
  · have hval : uniform (-1 * ((period.readSpread.getD 0 : ℕ) : ℚ)) (period.readSpread.getD 0 : ℕ) r
        = (period.readSpread.getD 0 : ℕ) * (2 * r.value - 1) := by
      rw [uniform]
      ring
    rw [hval]
  · have hzero : ((period.readSpread.getD 0 : ℕ) : ℚ) = 0 :=
      le_antisymm (not_lt.mp hspread) (Nat.cast_nonneg _)
    rw [hzero, zero_mul, add_zero]

/-- **The sign reaches the range**: a period gives a value within its range. -/
def Ranged (period : Period) (r : Draw) : Prop :=
  ∃ x, delta (.str (String.ofList period.text)) r = .ok (some x)
    ∧ period.low ≤ x ∧ x ≤ period.high

/-- The whole part of the number is in the range, or the number is whole and the draw is on the
side of the sign. -/
def OnItsSide (r : Draw) : Period → Prop
  | .single p _ => p.value = p.whole
  | .spread p _ sign _ q _ _ =>
      if p.fraction = [] then match sign with
        | .plusMinus => True
        | .plus => q.whole = 0 ∨ 1 / 2 ≤ r.value
        | .minus => q.whole = 0 ∨ r.value ≤ 1 / 2
      else p.whole ≠ 0 ∧ match sign with
        | .plus => p.value = p.whole
        | _ => p.value - q.value ≤ p.whole

theorem ranged_iff_value (period : Period) (r : Draw) : Ranged period r
    ↔ period.number.whole ≠ 0
      ∧ period.low ≤ period.number.whole + (period.readSpread.getD 0 : ℕ) * (2 * r.value - 1)
      ∧ period.number.whole + (period.readSpread.getD 0 : ℕ) * (2 * r.value - 1)
        ≤ period.high := by
  unfold Ranged
  rw [delta_period]
  split_ifs with hwhole
  · exact iff_of_false (fun ⟨x, h, _⟩ => nomatch h) (fun h => h.1 hwhole)
  · simp only [Except.ok.injEq, Option.some.injEq]
    constructor
    · rintro ⟨x, rfl, h⟩
      exact ⟨hwhole, h⟩
    · rintro ⟨-, h⟩
      exact ⟨_, rfl, h⟩

/-- The draw decides the side. -/
theorem deviation_nonneg_iff (n : ℕ) (r : ℚ) : 0 ≤ (n : ℚ) * (2 * r - 1) ↔ n = 0 ∨ 1 / 2 ≤ r := by
  rcases Nat.eq_zero_or_pos n with rfl | hn
  · simp
  · rw [mul_nonneg_iff_of_pos_left (Nat.cast_pos.mpr hn)]
    constructor
    · exact fun h => Or.inr (by linarith)
    · rintro (h | h)
      · omega
      · linarith

theorem deviation_nonpos_iff (n : ℕ) (r : ℚ) : (n : ℚ) * (2 * r - 1) ≤ 0 ↔ n = 0 ∨ r ≤ 1 / 2 := by
  rcases Nat.eq_zero_or_pos n with rfl | hn
  · simp
  · rw [mul_nonpos_iff_pos_imp_nonpos]
    constructor
    · exact fun h => Or.inr (by linarith [h.1 (Nat.cast_pos.mpr hn)])
    · rintro (h | h)
      · omega
      · exact ⟨fun _ => by linarith, fun hpos => by linarith⟩

/-- A number without a fraction: the sign and the draw decide. -/
theorem ranged_spread_whole {p q : Numeral} {sign : Sign} {l r : Blanks} {hq : 0 < q.value}
    {hpq : q.value < p.value} (h : p.fraction = []) (d : Draw) :
    Ranged (.spread p l sign r q hq hpq) d ↔ OnItsSide d (.spread p l sign r q hq hpq) := by
  have hvalue := Numeral.value_eq_whole h
  have hwhole := q.whole_le_value
  have hne : p.whole ≠ 0 := by
    intro hzero
    rw [hzero, Nat.cast_zero] at hvalue
    linarith
  have hq₀ : (0 : ℚ) ≤ q.whole := Nat.cast_nonneg _
  have hlow : -(q.whole : ℚ) ≤ q.whole * (2 * d.value - 1) := by nlinarith [d.nonneg]
  have hhigh : (q.whole : ℚ) * (2 * d.value - 1) ≤ q.whole := by nlinarith [d.le_one]
  rw [ranged_iff_value, Period.readSpread, if_pos h, Option.getD_some]
  cases sign with
  | plusMinus =>
    simp only [Period.number, Period.low, Period.high, hvalue, OnItsSide, if_pos h]
    exact iff_of_true ⟨hne, by linarith, by linarith⟩ trivial
  | plus =>
    simp only [Period.number, Period.low, Period.high, hvalue, OnItsSide, if_pos h]
    rw [← deviation_nonneg_iff]
    exact ⟨fun ⟨_, h₁, _⟩ => by linarith, fun h₁ => ⟨hne, by linarith, by linarith⟩⟩
  | minus =>
    simp only [Period.number, Period.low, Period.high, hvalue, OnItsSide, if_pos h]
    rw [← deviation_nonpos_iff]
    exact ⟨fun ⟨_, _, h₁⟩ => by linarith, fun h₁ => ⟨hne, by linarith, by linarith⟩⟩

/-- A number with a fraction: the whole part is all that is read. -/
theorem ranged_spread_fraction {p q : Numeral} {sign : Sign} {l r : Blanks} {hq : 0 < q.value}
    {hpq : q.value < p.value} (h : p.fraction ≠ []) (d : Draw) :
    Ranged (.spread p l sign r q hq hpq) d ↔ OnItsSide d (.spread p l sign r q hq hpq) := by
  have hle := p.whole_le_value
  rw [ranged_iff_value, Period.readSpread, if_neg h, Option.getD_none, Nat.cast_zero, zero_mul,
    add_zero]
  cases sign with
  | plusMinus =>
    simp only [Period.number, Period.low, Period.high, OnItsSide, if_neg h]
    exact and_congr_right (fun _ => ⟨fun h₁ => h₁.1, fun h₁ => ⟨h₁, by linarith⟩⟩)
  | plus =>
    simp only [Period.number, Period.low, Period.high, OnItsSide, if_neg h]
    exact and_congr_right (fun _ =>
      ⟨fun h₁ => le_antisymm h₁.1 hle, fun h₁ => ⟨le_of_eq h₁, by linarith⟩⟩)
  | minus =>
    simp only [Period.number, Period.low, Period.high, OnItsSide, if_neg h]
    exact and_congr_right (fun _ => ⟨fun h₁ => h₁.1, fun h₁ => ⟨h₁, hle⟩⟩)

/-- **When the range is met**: the number has no fraction, and the sign is `+-` or the draw is on
its side; or what is read of a number with a fraction is in the range all the same. -/
theorem ranged_iff (period : Period) (r : Draw) : Ranged period r ↔ OnItsSide r period := by
  cases period with
  | single p hp =>
    have hle := p.whole_le_value
    rw [ranged_iff_value]
    simp only [Period.number, Period.low, Period.high, Period.readSpread, Option.getD_none,
      OnItsSide, Nat.cast_zero, zero_mul, add_zero]
    constructor
    · rintro ⟨-, h, -⟩
      exact le_antisymm h hle
    · intro h
      refine ⟨fun hzero => ?_, le_of_eq h, hle⟩
      rw [hzero, Nat.cast_zero] at h
      linarith
  | spread p l sign _ q hq hpq =>
    by_cases hfraction : p.fraction = []
    · exact ranged_spread_whole hfraction r
    · exact ranged_spread_fraction hfraction r

/-- The least draw. -/
def leastDraw : Draw := ⟨0, by decide, by decide⟩

/-- Sixty seconds and up to five more. -/
def sixtyPlusFive : Period :=
  .spread ⟨60, []⟩ ⟨[' '], by simp [Text.isSpace]⟩ .plus ⟨[' '], by simp [Text.isSpace]⟩ ⟨5, []⟩
    (by norm_num [Numeral.value, Numeral.fractionValue])
    (by norm_num [Numeral.value, Numeral.fractionValue])

/-- They come out as 55 with the least draw. -/
theorem not_ranged_plus : ¬ Ranged sixtyPlusFive leastDraw := by
  rintro ⟨x, hx, hlow, -⟩
  rw [delta_period] at hx
  norm_num [sixtyPlusFive, Period.number, Period.readSpread, leastDraw] at hx
  norm_num [sixtyPlusFive, Period.low, Numeral.value, Numeral.fractionValue, ← hx] at hlow

end Scheduler
