/-
# The output of fping

`FPing.parse` makes a record of each line of `fping -C`: the last two round trip times, how much
of the two was lost, and their difference.  A null field is deleted from the record while the loop
goes over it, and a dictionary whose size has changed raises at the next turn, the last one
included.  The line is discarded then, so that a host that has lost a reply has no record.

A line of two words is read as well, its first word being taken for the host and for a time.
-/
import Ptolemy.Value

namespace FPing

variable {φ : Type} [Sub φ] (float : String → Option φ)

/-! ## The functions -/

/-- A field of a record. -/
inductive Field (φ : Type) : Type where
  | none : Field φ
  | number (a : φ) : Field φ
  | share (q : ℚ) : Field φ
  | pair (r1 r2 : Option φ) : Field φ
  deriving DecidableEq

/-- `v == None`. -/
def Field.isNull : Field φ → Bool
  | .none => true
  | _ => false

abbrev Record (φ : Type) : Type := Dict String (Field φ)

def normalise (i : String) : Except Exn (Option φ) :=
  if i = "-" then .ok none
  else match float i with
    | some a => .ok (some a)
    | none => .error (.valueError ("could not convert string to float: " ++ i))

def ipdv : Option φ → Option φ → Option φ
  | some r1, some r2 => some (r2 - r1)
  | _, _ => none

def loss (r1 r2 : Option φ) : ℚ :=
  [r1, r2].foldl (fun i r => if r.isNone then i + 1 / 2 else i) 0

/-- `s.split()`. -/
def words (s : String) : List String :=
  ((s.toList.splitOnP Text.isSpace).filter (· ≠ [])).map String.ofList

/-- `items[-n - 1]`. -/
def fromEnd (items : List String) (n : ℕ) : Except Exn String :=
  match items.reverse[n]? with
  | some i => .ok i
  | none => .error (.exception "list index out of range")

/-- The next turn of a loop over a dictionary that had a size: it raises if this has changed. -/
def checkSize (size : ℕ) (this : Record φ) : Except Exn Unit :=
  if this.keys.length = size then .ok ()
  else .error (.exception "dictionary changed size during iteration")

/-- The loop that deletes null fields. -/
def deleteNulls (size : ℕ) : List String → Record φ → Except Exn (Record φ)
  | [], this => do
      checkSize size this
      pure this
  | t :: ts, this => do
      checkSize size this
      if (this.lookup t).any Field.isNull then deleteNulls size ts (this.erase t)
      else deleteNulls size ts this

/-- The record of two times, before its null fields are deleted. -/
def thisOf (r1 r2 : Option φ) : Record φ :=
  Dict.ofList
    [("ipdv", (ipdv r1 r2).elim Field.none Field.number), ("loss", .share (loss r1 r2)),
      ("rtt", .pair r1 r2)]

/-- What is done with one line. -/
def parseLine (o : IterOrder) (line : String) : Except Exn (Record φ) := do
  let items := words line
  let _ip ← match items with
    | [] => .error (.exception "list index out of range")
    | ip :: _ => pure ip
  let r1 ← normalise float (← fromEnd items 1)
  let r2 ← normalise float (← fromEnd items 0)
  let record := thisOf r1 r2
  deleteNulls record.keys.length (o.order record.keys) record

/-- `FPing.parse`: a line that raises gives nothing. -/
def parse (o : IterOrder) (output : List String) : List (Record φ) :=
  output.filterMap (fun line => (parseLine float o line).toOption)

/-! ## What a line stands for -/

/-- The times of a line: its last two words, of three at least. -/
def times (line : String) : Option (Option φ × Option φ) :=
  match (words line).reverse with
  | y :: x :: _ :: _ => match normalise float x, normalise float y with
    | .ok r1, .ok r2 => some (r1, r2)
    | _, _ => none
  | _ => none

/-- The record of two times: half of the lost ones, the pair, and the difference if there is one. -/
def record (r1 r2 : Option φ) : Record φ :=
  Dict.ofList (((ipdv r1 r2).toList.map (fun d => ("ipdv", Field.number d)))
    ++ [("loss", .share (([r1, r2].filter Option.isNone).length / 2)), ("rtt", .pair r1 r2)])

/-- **Each line with times has its record**, in order, and no other line has one. -/
def Parsed (o : IterOrder) (output : List String) : Prop :=
  List.Forall₂ Dict.Same (parse float o output)
    (output.filterMap (fun line => (times float line).map (fun r => record r.1 r.2)))

/-- Nothing is lost in a line of three words or more, and a line of two words has no two times. -/
def Clear (line : String) : Prop :=
  match (words line).reverse with
  | [y, x] => ¬ ∃ a b, normalise float x = .ok (some a) ∧ normalise float y = .ok (some b)
  | y :: x :: _ :: _ => ∀ r1 r2, normalise float x = .ok r1 → normalise float y = .ok r2 →
      r1 ≠ none ∧ r2 ≠ none
  | _ => True

/-! ## The loop -/

omit [Sub φ] in
theorem deleteNulls_of_forall {ts : List String} {d : Record φ} {size : ℕ}
    (hsize : d.keys.length = size) (h : ∀ t ∈ ts, (d.lookup t).any Field.isNull = false) :
    deleteNulls size ts d = .ok d := by
  induction ts with
  | nil => simp [deleteNulls, checkSize, hsize]
  | cons t ts ih =>
    rw [deleteNulls, checkSize, if_pos hsize, Except.ok_bind, h t List.mem_cons_self]
    exact ih (fun t' ht' => h t' (List.mem_cons_of_mem t ht'))

omit [Sub φ] in
/-- A null field raises, wherever it stands. -/
theorem deleteNulls_of_mem {ts : List String} {d : Record φ} {size : ℕ} {t : String}
    (hsize : d.keys.length = size) (ht : t ∈ ts) (hnull : (d.lookup t).any Field.isNull = true) :
    ∃ e, deleteNulls size ts d = .error e := by
  induction ts with
  | nil => cases ht
  | cons t' ts ih =>
    rw [deleteNulls, checkSize, if_pos hsize, Except.ok_bind]
    split_ifs with hnull'
    · -- the size has changed, and whatever comes next looks at it
      have hmem : t' ∈ d := by
        rw [← AList.lookup_isSome]
        cases hlook : d.lookup t' with
        | none => simp [hlook] at hnull'
        | some f => rfl
      have hlen : (d.erase t').keys.length ≠ size := by
        rw [AList.keys_erase, List.length_erase_of_mem (AList.mem_keys.mp hmem), hsize]
        have hpos := List.length_pos_of_mem (AList.mem_keys.mp hmem)
        omega
      cases ts with
      | nil =>
        rw [deleteNulls, checkSize, if_neg hlen]
        exact ⟨_, rfl⟩
      | cons u us =>
        rw [deleteNulls, checkSize, if_neg hlen]
        exact ⟨_, rfl⟩
    · rcases List.mem_cons.mp ht with rfl | ht
      · exact absurd hnull hnull'
      · exact ih ht

/-! ## One line -/

theorem keys_this (r1 r2 : Option φ) : (thisOf r1 r2).keys = ["rtt", "loss", "ipdv"] := rfl

theorem lookup_ipdv_this (r1 r2 : Option φ) :
    (thisOf r1 r2).lookup "ipdv" = some ((ipdv r1 r2).elim Field.none Field.number) := rfl

theorem lookup_ipdv_record_none {r1 r2 : Option φ} (h : ipdv r1 r2 = none) :
    (record r1 r2).lookup "ipdv" = none := by
  rw [record, h]
  rfl

/-- Two times that came back. -/
theorem this_some (a b : φ) : thisOf (some a) (some b) = record (some a) (some b) := by
  have hloss : loss (some a) (some b)
      = (([some a, some b].filter Option.isNone).length / 2 : ℚ) := by
    simp [loss]
  rw [thisOf, record, hloss]
  rfl

variable {float} {o : IterOrder} {line : String}

/-- A line of at least two words. -/
theorem parseLine_of_reverse {x y : String} {l : List String}
    (h : (words line).reverse = y :: x :: l) : parseLine float o line
      = (do
        let r1 ← normalise float x
        let r2 ← normalise float y
        deleteNulls (thisOf r1 r2).keys.length (o.order (thisOf r1 r2).keys) (thisOf r1 r2)) := by
  have hne : words line ≠ [] := by
    rintro hnil
    rw [hnil] at h
    cases h
  have hx : fromEnd (words line) 1 = .ok x := by
    rw [fromEnd, h]
    rfl
  have hy : fromEnd (words line) 0 = .ok y := by
    rw [fromEnd, h]
    rfl
  unfold parseLine
  cases hwords : words line with
  | nil => exact absurd hwords hne
  | cons ip items =>
    rw [hwords] at hx hy
    simp only [hx, hy]
    rfl

variable (float o) in
theorem parseLine_short (h : ∀ y x l, (words line).reverse ≠ y :: x :: l) :
    ∃ e, parseLine float o line = .error e := by
  unfold parseLine
  cases hwords : words line with
  | nil => exact ⟨_, rfl⟩
  | cons ip items =>
    have hshort : (ip :: items).reverse[1]? = none := by
      rw [← hwords]
      cases hrev : (words line).reverse with
      | nil => rfl
      | cons y l => cases l with
        | nil => rfl
        | cons x l => exact absurd hrev (h y x l)
    have hend : fromEnd (ip :: items) 1 = .error (.exception "list index out of range") := by
      rw [fromEnd, hshort]
    simp only [hend]
    exact ⟨_, rfl⟩

section Words

variable {x y : String} {l : List String} (h : (words line).reverse = y :: x :: l)
include h

theorem parseLine_some {a b : φ} (hx : normalise float x = .ok (some a))
    (hy : normalise float y = .ok (some b)) :
    parseLine float o line = .ok (record (some a) (some b)) := by
  rw [parseLine_of_reverse h, hx, hy, Except.ok_bind, Except.ok_bind, ← this_some]
  refine deleteNulls_of_forall rfl (fun t ht => ?_)
  rw [o.mem_order, keys_this] at ht
  simp only [List.mem_cons, List.not_mem_nil, or_false] at ht
  rcases ht with rfl | rfl | rfl <;> rfl

theorem parseLine_null {r1 r2 : Option φ} (hx : normalise float x = .ok r1)
    (hy : normalise float y = .ok r2) (hnull : r1 = none ∨ r2 = none) :
    ∃ e, parseLine float o line = .error e := by
  have hipdv : ipdv r1 r2 = none := by
    rcases hnull with rfl | rfl
    · rfl
    · cases r1 <;> rfl
  rw [parseLine_of_reverse h, hx, hy, Except.ok_bind, Except.ok_bind]
  refine deleteNulls_of_mem rfl (o.mem_order.mpr (?_ : "ipdv" ∈ (thisOf r1 r2).keys)) ?_
  · rw [keys_this]
    simp
  · rw [lookup_ipdv_this, hipdv]
    rfl

theorem parseLine_unread
    (hxy : (∃ e, normalise float x = .error e) ∨ ∃ e, normalise float y = .error e) :
    ∃ e, parseLine float o line = .error e := by
  rw [parseLine_of_reverse h]
  cases hx : normalise float x with
  | error e => exact ⟨e, rfl⟩
  | ok r1 =>
    rcases hxy with ⟨e, he⟩ | ⟨e, hy⟩
    · rw [hx] at he
      cases he
    · rw [hy]
      exact ⟨e, rfl⟩

end Words

/-! ## What a line gives, and what it stands for -/

omit [Sub φ] in
theorem times_of_reverse {x y z : String} {l : List String}
    (h : (words line).reverse = y :: x :: z :: l) {r1 r2 : Option φ}
    (hx : normalise float x = .ok r1) (hy : normalise float y = .ok r2) :
    times float line = some (r1, r2) := by
  rw [times, h]
  simp only [hx, hy]

omit [Sub φ] in
theorem times_eq_some {r : Option φ × Option φ} (h : times float line = some r) :
    ∃ x y z l, (words line).reverse = y :: x :: z :: l
      ∧ normalise float x = .ok r.1 ∧ normalise float y = .ok r.2 := by
  unfold times at h
  split at h
  · rename_i y x z l hrev
    split at h
    · rename_i r1 r2 hx hy
      obtain rfl := Option.some.inj h
      exact ⟨x, y, z, l, hrev, hx, hy⟩
    · cases h
  · cases h

/-- A record that a line gives has a difference. -/
theorem parseLine_eq_ok {r : Record φ} (h : parseLine float o line = .ok r) :
    ∃ x y l a b, (words line).reverse = y :: x :: l ∧ normalise float x = .ok (some a)
      ∧ normalise float y = .ok (some b) ∧ r = record (some a) (some b) := by
  by_cases hshort : ∀ y x l, (words line).reverse ≠ y :: x :: l
  · obtain ⟨e, he⟩ := parseLine_short float o hshort
    rw [he] at h
    cases h
  · push Not at hshort
    obtain ⟨y, x, l, hrev⟩ := hshort
    have hraise : ∀ e, parseLine float o line ≠ .error e := by
      intro e he
      rw [he] at h
      cases h
    cases hx : normalise float x with
    | error e =>
      obtain ⟨e', he'⟩ := parseLine_unread (o := o) hrev (Or.inl ⟨e, hx⟩)
      exact absurd he' (hraise e')
    | ok r1 => cases hy : normalise float y with
      | error e =>
        obtain ⟨e', he'⟩ := parseLine_unread (o := o) hrev (Or.inr ⟨e, hy⟩)
        exact absurd he' (hraise e')
      | ok r2 =>
        cases r1 with
        | none =>
          obtain ⟨e', he'⟩ := parseLine_null (o := o) hrev hx hy (Or.inl rfl)
          exact absurd he' (hraise e')
        | some a => cases r2 with
          | none =>
            obtain ⟨e', he'⟩ := parseLine_null (o := o) hrev hx hy (Or.inr rfl)
            exact absurd he' (hraise e')
          | some b =>
            rw [parseLine_some hrev hx hy] at h
            exact ⟨x, y, l, a, b, hrev, hx, hy, (Except.ok.inj h).symm⟩

/-- What a line stands for. -/
def denoted (float : String → Option φ) (line : String) : Option (Record φ) :=
  (times float line).map (fun r => record r.1 r.2)

omit [Sub φ] in
theorem clear_of_reverse {x y z : String} {l : List String}
    (h : (words line).reverse = y :: x :: z :: l) : Clear float line
      ↔ ∀ r1 r2, normalise float x = .ok r1 → normalise float y = .ok r2
        → r1 ≠ none ∧ r2 ≠ none := by
  rw [Clear, h]

theorem toOption_of_clear (h : Clear float line) :
    (parseLine float o line).toOption = denoted float line := by
  cases hparse : parseLine float o line with
  | ok r =>
    obtain ⟨x, y, l, a, b, hrev, hx, hy, rfl⟩ := parseLine_eq_ok hparse
    cases l with
    | nil =>
      rw [Clear, hrev] at h
      exact absurd ⟨a, b, hx, hy⟩ h
    | cons z l =>
      rw [denoted, times_of_reverse hrev hx hy]
      rfl
  | error e =>
    cases htimes : times float line with
    | none =>
      rw [denoted, htimes]
      rfl
    | some r =>
      obtain ⟨x, y, z, l, hrev, hx, hy⟩ := times_eq_some htimes
      obtain ⟨h1, h2⟩ := (clear_of_reverse hrev).mp h _ _ hx hy
      obtain ⟨a, ha⟩ := Option.ne_none_iff_exists'.mp h1
      obtain ⟨b, hb⟩ := Option.ne_none_iff_exists'.mp h2
      rw [ha] at hx
      rw [hb] at hy
      rw [parseLine_some hrev hx hy] at hparse
      cases hparse

/-- A line that is not clear: something is lost in it and it gives nothing, or it has two words and
gives a record that it does not stand for. -/
theorem of_not_clear (h : ¬ Clear float line) :
    (∃ r, denoted float line = some r ∧ r.lookup "ipdv" = none)
      ∨ denoted float line = none ∧ (parseLine float o line).toOption.isSome = true := by
  unfold Clear at h
  split at h
  · rename_i y x hrev
    obtain ⟨a, b, hx, hy⟩ := not_not.mp h
    refine Or.inr ⟨?_, by rw [parseLine_some hrev hx hy]; rfl⟩
    rw [denoted, times, hrev]
    rfl
  · rename_i y x z l hrev
    push Not at h
    obtain ⟨r1, r2, hx, hy, hnone⟩ := h
    refine Or.inl ⟨record r1 r2, by rw [denoted, times_of_reverse hrev hx hy]; rfl,
      lookup_ipdv_record_none ?_⟩
    cases r1 with
    | none => rfl
    | some a => rw [hnone (by simp)]; rfl
  · exact absurd trivial h

/-! ## The output -/

/-- Of two readings of a list, of which one reads all that the other one reads, the other one reads
less unless both read the same. -/
theorem isSome_of_length_le {α β γ : Type} {f : α → Option β} {g : α → Option γ} {l : List α}
    (hsub : ∀ a ∈ l, (f a).isSome = true → (g a).isSome = true)
    (hlen : (l.filterMap g).length ≤ (l.filterMap f).length) :
    ∀ a ∈ l, (g a).isSome = true → (f a).isSome = true := by
  rw [List.length_filterMap_eq_countP, List.length_filterMap_eq_countP] at hlen
  induction l with
  | nil => simp
  | cons a l ih =>
    have hrest := List.countP_mono_left (p := fun a => (f a).isSome) (q := fun a => (g a).isSome)
      (fun b hb => hsub b (List.mem_cons_of_mem a hb))
    have ha := hsub a List.mem_cons_self
    rw [List.countP_cons, List.countP_cons] at hlen
    rw [List.forall_mem_cons]
    cases hf : (f a).isSome with
    | true =>
      refine ⟨fun _ => rfl, ih (fun b hb => hsub b (List.mem_cons_of_mem a hb)) ?_⟩
      simp only [hf, ha hf, if_true] at hlen
      omega
    | false =>
      cases hg : (g a).isSome with
      | true =>
        simp only [hf, hg, if_true, Bool.false_eq_true, if_false] at hlen
        omega
      | false =>
        refine ⟨fun hc => (by cases hc), ih (fun b hb => hsub b (List.mem_cons_of_mem a hb)) ?_⟩
        simp only [hf, hg, Bool.false_eq_true, if_false] at hlen
        omega

variable (float o) in
/-- **When the output is parsed**: when no line with times has lost one, and no line has two times
only. -/
theorem parsed_iff (output : List String) :
    Parsed float o output ↔ ∀ line ∈ output, Clear float line := by
  constructor
  · intro h line hline
    by_contra hclear
    -- every record that is expected has a difference, as every record that is given has one
    have hfull : ∀ line ∈ output, ∀ r, denoted float line = some r → r.lookup "ipdv" ≠ none := by
      intro line hline r hr hnone
      obtain ⟨r', hr', hsame⟩ := exists_of_forall₂ h (List.mem_filterMap.mpr ⟨line, hline, hr⟩)
      obtain ⟨line', -, hparse⟩ := List.mem_filterMap.mp hr'
      cases hok : parseLine float o line' with
      | error e =>
        rw [hok] at hparse
        cases hparse
      | ok r'' =>
        rw [hok] at hparse
        obtain rfl := Option.some.inj hparse
        obtain ⟨x, y, l, a, b, -, -, -, rfl⟩ := parseLine_eq_ok hok
        have hlook := hsame "ipdv"
        rw [hnone] at hlook
        cases hlook
    have hsub : ∀ line ∈ output, (denoted float line).isSome = true →
        ((parseLine float o line).toOption).isSome = true := by
      intro line hline hsome
      by_cases hc : Clear float line
      · rwa [toOption_of_clear hc]
      · rcases of_not_clear (o := o) hc with ⟨r, hr, hnone⟩ | ⟨-, hgiven⟩
        · exact absurd hnone (hfull line hline r hr)
        · exact hgiven
    rcases of_not_clear (o := o) hclear with ⟨r, hr, hnone⟩ | ⟨hnone, hgiven⟩
    · exact hfull line hline r hr hnone
    · have hsome := isSome_of_length_le hsub (le_of_eq h.length_eq) line hline hgiven
      rw [hnone] at hsome
      cases hsome
  · intro h
    have heq : parse float o output = output.filterMap (denoted float) :=
      List.filterMap_congr (fun line hline => toOption_of_clear (h line hline))
    rw [Parsed, heq]
    exact List.forall₂_same.mpr (fun r _ => Dict.Same.refl r)

/-- Whole numbers as times. -/
def whole (s : String) : Option ℤ := Text.int? s

/-- A host that has lost its second reply has no record. -/
theorem not_parsed_lost : ¬ Parsed whole .stored ["192.0.2.7 : 7 -"] := by
  intro h
  have hlen := h.length_eq
  revert hlen
  decide +kernel

end FPing
