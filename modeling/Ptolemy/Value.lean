/-
# Values, texts and exceptions

The dynamically typed data that the daemons exchange: the values a poll
returns, a message carries and a table stores, the few text operations the
code applies to them, and the exceptions it raises.

Regular expressions, floating point arithmetic and the functions a driver
names are not computed here: where a result depends on them they are
parameters of the definitions that use them.
-/
import Ptolemy.Dict

/-! ## Values -/

/-- A value of the collected, stored or transmitted data. -/
inductive Value : Type where
  | none : Value
  | bool (b : Bool) : Value
  | int (n : Int) : Value
  /-- A float, identified by its text. -/
  | float (text : String) : Value
  | str (s : String) : Value
  /-- A list, kept as the texts of its items. -/
  | list (items : List String) : Value
  deriving DecidableEq, Repr, Inhabited

/-- What the code raises. -/
inductive Exn : Type where
  | assertionError (msg : String) : Exn
  | attributeError (msg : String) : Exn
  | keyError (key : String) : Exn
  | typeError (msg : String) : Exn
  | valueError (msg : String) : Exn
  | syntaxError (msg : String) : Exn
  | userWarning (msg : String) : Exn
  | notImplemented (msg : String) : Exn
  | refNotFound (msg : String) : Exn
  | exception (msg : String) : Exn
  deriving DecidableEq, Repr, Inhabited

/-- Going on after a step that did not raise. -/
@[simp] theorem Except.ok_bind {ε α β : Type} (a : α) (f : α → Except ε β) :
    ((Except.ok a : Except ε α) >>= f) = f a := rfl

/-- A sequence of two steps that did not raise: neither step did. -/
theorem Except.bind_eq_ok {ε α β : Type} {x : Except ε α} {f : α → Except ε β} {b : β} :
    (x >>= f) = Except.ok b ↔ ∃ a, x = Except.ok a ∧ f a = Except.ok b := by
  cases x with
  | error e => exact ⟨fun h => (by cases h), fun ⟨_, h, _⟩ => (by cases h)⟩
  | ok a => exact ⟨fun h => ⟨a, rfl, h⟩, fun ⟨_, h, h'⟩ => (by cases h; exact h')⟩

/-- Mapping a step that does not raise over a list. -/
theorem Except.mapM_eq_map {ε α β : Type} {f : α → Except ε β} {g : α → β} {l : List α}
    (h : ∀ a ∈ l, f a = .ok (g a)) : l.mapM f = .ok (l.map g) := by
  induction l with
  | nil => rfl
  | cons a l ih =>
    rw [List.mapM_cons, h a List.mem_cons_self, Except.ok_bind,
      ih (fun b hb => h b (List.mem_cons_of_mem a hb)), Except.ok_bind]
    rfl

/-- **Invariant rule for loops**: what every turn preserves, said of the items that are left and
of the state, holds when the loop ends. -/
theorem Except.foldlM_rest {ε α β : Type} {f : β → α → Except ε β} {I : List α → β → Prop}
    (hstep : ∀ a l b b', I (a :: l) b → f b a = .ok b' → I l b') {l : List α} {b b' : β}
    (hb : I l b) (h : l.foldlM f b = .ok b') : I [] b' := by
  induction l generalizing b with
  | nil =>
    cases h
    exact hb
  | cons a l ih =>
    rw [List.foldlM_cons] at h
    obtain ⟨t, ht, h⟩ := Except.bind_eq_ok.mp h
    exact ih (hstep a l b t hb ht) h

/-- **Total invariant rule for loops**: where the invariant lets no turn raise, the loop ends. -/
theorem Except.foldlM_total {ε α β : Type} {f : β → α → Except ε β} {I : List α → β → Prop}
    (hstep : ∀ a l b, I (a :: l) b → ∃ b', f b a = .ok b' ∧ I l b') {l : List α} {b : β}
    (hb : I l b) : ∃ b', l.foldlM f b = .ok b' ∧ I [] b' := by
  induction l generalizing b with
  | nil => exact ⟨b, rfl, hb⟩
  | cons a l ih =>
    obtain ⟨t, ht, hI⟩ := hstep a l b hb
    rw [List.foldlM_cons, ht, Except.ok_bind]
    exact ih hI

/-- What no turn of a loop changes. -/
theorem foldl_keep {σ α β : Type} {t : σ → α → σ} (obs : σ → β) {l : List α}
    (h : ∀ s, ∀ a ∈ l, obs (t s a) = obs s) (s : σ) : obs (l.foldl t s) = obs s := by
  induction l generalizing s with
  | nil => rfl
  | cons a l ih =>
    rw [List.foldl_cons, ih (fun s b hb => h s b (List.mem_cons_of_mem a hb)),
      h s a List.mem_cons_self]

/-- What one turn of a loop sets, and no other one changes. -/
theorem foldl_set {σ α β : Type} {t : σ → α → σ} (obs : σ → β) {b : β} {l : List α} {a : α}
    (ha : a ∈ l) (hset : ∀ s, obs (t s a) = b)
    (hkeep : ∀ s, ∀ a' ∈ l, a' ≠ a → obs (t s a') = obs s) (s : σ) : obs (l.foldl t s) = b := by
  induction l generalizing s with
  | nil => cases ha
  | cons x l ih =>
    rw [List.foldl_cons]
    by_cases hmem : a ∈ l
    · exact ih hmem (fun s a' ha' => hkeep s a' (List.mem_cons_of_mem x ha')) _
    · obtain rfl := (List.mem_cons.mp ha).resolve_right hmem
      rw [foldl_keep obs (fun s a' ha' => hkeep s a' (List.mem_cons_of_mem _ ha')
        (fun heq => hmem (heq ▸ ha')))]
      exact hset s

/-- An element of one of two related lists has a partner in the other. -/
theorem exists_of_forall₂ {α β : Type} {R : α → β → Prop} {l : List α} {r : List β}
    (h : List.Forall₂ R l r) {b : β} (hb : b ∈ r) : ∃ a ∈ l, R a b := by
  induction h with
  | nil => exact absurd hb List.not_mem_nil
  | cons hab _ ih =>
    rcases List.mem_cons.mp hb with rfl | hb
    · exact ⟨_, List.mem_cons_self, hab⟩
    · obtain ⟨a, ha, hR⟩ := ih hb
      exact ⟨a, List.mem_cons_of_mem _ ha, hR⟩

/-! ## Texts -/

namespace Text

/-- `s.partition(c)`: what stands before the first `c`, whether there is one, and
what stands after it. -/
def partition (c : Char) (s : String) : String × Bool × String :=
  (String.ofList (s.toList.takeWhile (· ≠ c)),
    s.toList.contains c,
    String.ofList ((s.toList.dropWhile (· ≠ c)).drop 1))

/-- The pieces between the occurrences of `c` in a list of characters. -/
def splitChars (c : Char) : List Char → List (List Char)
  | [] => [[]]
  | x :: xs =>
      if x = c then [] :: splitChars c xs
      else match splitChars c xs with
        | [] => [[x]]
        | p :: ps => (x :: p) :: ps

/-- `s.split(c)`. -/
def split (c : Char) (s : String) : List String :=
  (splitChars c s.toList).map String.ofList

/-- `c.join(l)`. -/
def join (c : String) : List String → String
  | [] => ""
  | [s] => s
  | s :: t :: l => s ++ (c ++ join c (t :: l))

/-- `s.replace(a, b)` for single characters. -/
def replaceChar (a b : Char) (s : String) : String :=
  String.ofList (s.toList.map (fun x => if x = a then b else x))

/-- The value of a decimal digit. -/
def digit? (c : Char) : Option Nat :=
  if '0' ≤ c ∧ c ≤ '9' then some (c.toNat - '0'.toNat) else none

/-- The number a list of decimal digits denotes, most significant first. -/
def digits? (acc : Nat) : List Char → Option Nat
  | [] => some acc
  | c :: cs => (digit? c).bind (fun d => digits? (10 * acc + d) cs)

/-- A non-empty run of decimal digits. -/
def nat? : List Char → Option Nat
  | [] => none
  | c :: cs => digits? 0 (c :: cs)

def isSpace (c : Char) : Bool := c = ' ' || ('\t' ≤ c && c ≤ '\r')

/-- `s.strip()`, on characters. -/
def strip (l : List Char) : List Char :=
  ((l.dropWhile isSpace).reverse.dropWhile isSpace).reverse

/-- `int(s)`: a decimal integer with an optional sign, surrounding white space
ignored; `none` where Python raises `ValueError`. -/
def int? (s : String) : Option Int :=
  match strip s.toList with
  | '-' :: cs => (nat? cs).map (fun n => -Int.ofNat n)
  | '+' :: cs => (nat? cs).map Int.ofNat
  | cs => (nat? cs).map Int.ofNat

theorem splitChars_ne_nil (c : Char) (l : List Char) : splitChars c l ≠ [] := by
  induction l with
  | nil => simp [splitChars]
  | cons x xs ih =>
    unfold splitChars
    split_ifs with h
    · simp
    · cases hs : splitChars c xs with
      | nil => exact absurd hs ih
      | cons p ps => simp

/-- A text without the separator is its only piece. -/
theorem splitChars_of_notMem {c : Char} {l : List Char} (h : c ∉ l) :
    splitChars c l = [l] := by
  induction l with
  | nil => rfl
  | cons x xs ih =>
    have hx : x ≠ c := fun hc => h (hc ▸ List.mem_cons_self)
    have hxs : c ∉ xs := fun hc => h (List.mem_cons_of_mem x hc)
    rw [splitChars, if_neg hx, ih hxs]

/-- The first piece of a text is what stands before the first separator. -/
theorem splitChars_append_cons {c : Char} {l : List Char} (r : List Char) (h : c ∉ l) :
    splitChars c (l ++ c :: r) = l :: splitChars c r := by
  induction l with
  | nil => rw [List.nil_append, splitChars, if_pos rfl]
  | cons x xs ih =>
    have hx : x ≠ c := fun hc => h (hc ▸ List.mem_cons_self)
    have hxs : c ∉ xs := fun hc => h (List.mem_cons_of_mem x hc)
    rw [List.cons_append, splitChars, if_neg hx, ih hxs]

theorem digits?_of_isDigit {cs : List Char} (h : ∀ c ∈ cs, c.isDigit = true) (acc : Nat) :
    digits? acc cs = some (Nat.ofDigitChars 10 cs acc) := by
  induction cs generalizing acc with
  | nil => simp [digits?]
  | cons c cs ih =>
    have hc := h c List.mem_cons_self
    have hdigit : digit? c = some (c.toNat - '0'.toNat) := by
      unfold digit?
      rw [if_pos]
      simpa [Char.isDigit, Char.le_def] using hc
    rw [digits?, hdigit, Option.bind_some, ih (fun d hd => h d (List.mem_cons_of_mem c hd)),
      Nat.ofDigitChars_cons]

theorem isSpace_of_isDigit {c : Char} (h : c.isDigit = true) : isSpace c = false := by
  have hc : 48 ≤ c.toNat := by
    simp [Char.isDigit, UInt32.le_iff_toNat_le] at h
    exact h.1
  unfold isSpace
  rw [Bool.or_eq_false_iff, Bool.and_eq_false_iff]
  constructor
  · rw [decide_eq_false_iff_not]
    rintro rfl
    revert hc
    decide
  · right
    rw [decide_eq_false_iff_not, Char.le_def, UInt32.le_iff_toNat_le]
    show ¬ c.toNat ≤ 13
    omega

/-- Stripping leaves a text alone whose first and last characters are no spaces. -/
theorem strip_of_forall {l : List Char} (h : ∀ c ∈ l, isSpace c = false) : strip l = l := by
  have hdrop : ∀ m : List Char, (∀ c ∈ m, isSpace c = false) → m.dropWhile isSpace = m := by
    intro m hm
    cases m with
    | nil => rfl
    | cons c cs => rw [List.dropWhile_cons, hm c List.mem_cons_self, if_neg (by simp)]
  unfold strip
  rw [hdrop l h, hdrop l.reverse (fun c hc => h c (List.mem_reverse.mp hc)), List.reverse_reverse]

theorem nat?_toDigits (n : Nat) : nat? (Nat.toDigits 10 n) = some n := by
  have hdigits : digits? 0 (Nat.toDigits 10 n) = some n := by
    rw [digits?_of_isDigit
      (fun c hc => Nat.isDigit_of_mem_toDigits (by decide) (by decide) hc),
      Nat.ofDigitChars_ten_toDigits]
  cases hd : Nat.toDigits 10 n with
  | nil => exact absurd hd Nat.toDigits_ne_nil
  | cons c cs => rw [nat?, ← hd, hdigits]

/-- **Round trip**: the text of an integer reads back as that integer. -/
theorem int?_toString (z : Int) : int? (toString z) = some z := by
  have hspace : ∀ n, ∀ c ∈ Nat.toDigits 10 n, isSpace c = false := fun n c hc =>
    isSpace_of_isDigit (Nat.isDigit_of_mem_toDigits (by decide) (by decide) hc)
  rw [Int.toString_eq_repr, Int.repr_eq_if]
  unfold int?
  by_cases hz : 0 ≤ z
  · rw [if_pos hz, Nat.toList_repr, strip_of_forall (hspace _)]
    have hn := nat?_toDigits z.toNat
    have hback : ((z.toNat : Nat) : Int) = z := Int.toNat_of_nonneg hz
    cases hd : Nat.toDigits 10 z.toNat with
    | nil => exact absurd hd Nat.toDigits_ne_nil
    | cons c cs =>
      have hc : c.isDigit = true := Nat.isDigit_of_mem_toDigits (by decide) (by decide)
        (hd ▸ List.mem_cons_self : c ∈ Nat.toDigits 10 z.toNat)
      rw [hd] at hn
      split
      · rename_i h; cases h; exact absurd hc (by decide)
      · rename_i h; cases h; exact absurd hc (by decide)
      · rename_i h; rw [hn, Option.map_some, Int.ofNat_eq_natCast, hback]
  · have hlist : ("-" ++ (-z).toNat.repr).toList = '-' :: Nat.toDigits 10 (-z).toNat := by
      rw [String.toList_append, Nat.toList_repr]
      rfl
    have hback : -(((-z).toNat : Nat) : Int) = z := by omega
    rw [if_neg hz, hlist, strip_of_forall]
    · simp only [nat?_toDigits, Option.map_some, Int.ofNat_eq_natCast, hback]
    · intro c hc
      rcases List.mem_cons.mp hc with rfl | hc
      · decide
      · exact hspace _ c hc

/-- The text of an integer has digits and a minus sign only. -/
theorem notMem_toString {c : Char} (hminus : c ≠ '-') (hdigit : c.isDigit = false) (z : Int) :
    c ∉ (toString z).toList := by
  have hdigits : ∀ n, c ∉ Nat.toDigits 10 n := by
    intro n hc
    rw [Nat.isDigit_of_mem_toDigits (by decide) (by decide) hc] at hdigit
    cases hdigit
  rw [Int.toString_eq_repr, Int.repr_eq_if]
  split_ifs with hz
  · rw [Nat.toList_repr]
    exact hdigits _
  · rw [String.toList_append, Nat.toList_repr, List.mem_append, not_or]
    exact ⟨by simpa using hminus, hdigits _⟩

/-- The pieces of a text joined from pieces without the separator are these pieces. -/
theorem split_join (c : Char) (l : List String) (hne : l ≠ [])
    (h : ∀ s ∈ l, c ∉ s.toList) : split c (join (String.ofList [c]) l) = l := by
  induction l with
  | nil => exact absurd rfl hne
  | cons s l ih =>
    have hs := h s List.mem_cons_self
    cases l with
    | nil =>
      rw [join, split, splitChars_of_notMem hs, List.map_singleton, String.ofList_toList]
    | cons t l =>
      have ih' := ih (by simp) (fun x hx => h x (List.mem_cons_of_mem s hx))
      unfold split at ih' ⊢
      rw [join, String.toList_append, String.toList_append, String.toList_ofList,
        List.singleton_append, splitChars_append_cons _ hs, List.map_cons,
        String.ofList_toList, ih']

end Text

/-- `str(v)`. -/
def Value.toText : Value → String
  | .none => "None"
  | .bool true => "True"
  | .bool false => "False"
  | .int n => toString n
  | .float t => t
  | .str s => s
  | .list l => "[" ++ Text.join ", " l ++ "]"

/-- `int(v)` of a text, kept as a text where it is not an integer. -/
def Value.ofText (s : String) : Value :=
  match Text.int? s with
  | Option.some n => .int n
  | Option.none => .str s
