/-
# Reading the string constants of SQL

A string constant stands between quotes.  Within it two quotes stand for one, and a
backslash is a character like any other.  A constant goes on where nothing but
white space with a line break in it stands between its closing quote and a further
quote.  `scan` reads the characters behind an opening quote in one pass; what
follows a quote decides whether it closed the constant.

The main result (`scan_text_iff`) says which texts may be put between two quotes as
they are: those without a quote.  Others are never read as themselves, whatever
follows them.
-/
import Mathlib

namespace Sql

/-! ## The reader -/

def isWhite (c : Char) : Bool := c ∈ [' ', '\t', '\n', '\r', '\x0c']

def isNewline (c : Char) : Bool := c = '\n' ∨ c = '\r'

/-- Where the reader is: within the constant, just behind a quote, or in white space behind a
quote, with or without a line break so far.  `rest` is what follows this quote. -/
inductive Mode : Type where
  | inside : Mode
  | quote (rest : List Char) : Mode
  | gap (rest : List Char) (newline : Bool) : Mode

/-- The constant, and the text behind it; there is none where no quote closes it. -/
def scan : Mode → List Char → Option (List Char × List Char)
  | .inside, [] => none
  | .inside, c :: cs =>
      if c = '\'' then scan (.quote cs) cs
      else (scan .inside cs).map (fun p => (c :: p.1, p.2))
  | .quote rest, [] => some ([], rest)
  | .quote rest, c :: cs =>
      if c = '\'' then (scan .inside cs).map (fun p => ('\'' :: p.1, p.2))
      else if isWhite c then scan (.gap rest (isNewline c)) cs
      else some ([], rest)
  | .gap rest _, [] => some ([], rest)
  | .gap rest newline, c :: cs =>
      if c = '\'' then (if newline then scan .inside cs else some ([], rest))
      else if isWhite c then scan (.gap rest (newline || isNewline c)) cs
      else some ([], rest)

/-- A text behind which no constant goes on: something else than a quote comes first in it, after
white space. -/
def Closes (rest : List Char) : Prop :=
  ∃ (s : List Char) (z : Char) (t : List Char), rest = s ++ z :: t
    ∧ (∀ c ∈ s, isWhite c = true) ∧ isWhite z = false ∧ z ≠ '\''

variable {rest : List Char}

theorem isWhite_quote : isWhite '\'' = false := by decide

theorem ne_quote_of_isWhite {c : Char} (h : isWhite c = true) : c ≠ '\'' := by
  rintro rfl
  rw [isWhite_quote] at h
  cases h

theorem closes_cons {z : Char} (hz : isWhite z = false) (hq : z ≠ '\'') (t : List Char) :
    Closes (z :: t) :=
  ⟨[], z, t, rfl, fun _ hc => absurd hc List.not_mem_nil, hz, hq⟩

theorem closes_white {c : Char} (hc : isWhite c = true) {t : List Char} (h : Closes t) :
    Closes (c :: t) := by
  obtain ⟨s, z, t, rfl, hs, hz, hq⟩ := h
  refine ⟨c :: s, z, t, rfl, ?_, hz, hq⟩
  intro d hd
  rcases List.mem_cons.mp hd with rfl | hd
  · exact hc
  · exact hs d hd

/-! ## Where a constant ends -/

theorem scan_gap {s t : List Char} {z : Char} (hs : ∀ c ∈ s, isWhite c = true)
    (hz : isWhite z = false) (hq : z ≠ '\'') (newline : Bool) :
    scan (.gap rest newline) (s ++ z :: t) = some ([], rest) := by
  induction s generalizing newline with
  | nil => simp [scan, hz, hq]
  | cons c s ih =>
    have hc := hs c List.mem_cons_self
    rw [List.cons_append, scan, if_neg (ne_quote_of_isWhite hc), if_pos hc]
    exact ih (fun d hd => hs d (List.mem_cons_of_mem c hd)) _

/-- The quote before such a text closes the constant. -/
theorem scan_quote (h : Closes rest) : scan (.quote rest) rest = some ([], rest) := by
  obtain ⟨s, z, t, hrest, hs, hz, hq⟩ := h
  have hgap : ∀ r, scan (.quote r) (s ++ z :: t) = some ([], r) := by
    intro r
    cases s with
    | nil => simp [scan, hz, hq]
    | cons c s =>
      have hc := hs c List.mem_cons_self
      rw [List.cons_append, scan, if_neg (ne_quote_of_isWhite hc), if_pos hc]
      exact scan_gap (fun d hd => hs d (List.mem_cons_of_mem c hd)) hz hq _
  calc scan (.quote rest) rest = scan (.quote rest) (s ++ z :: t) := by rw [← hrest]
    _ = some ([], rest) := hgap rest

/-- Characters other than quotes stand for themselves. -/
theorem scan_plain {a : List Char} (ha : '\'' ∉ a) (t : List Char) :
    scan .inside (a ++ '\'' :: t) = (scan (.quote t) t).map (fun p => (a ++ p.1, p.2)) := by
  induction a with
  | nil => simp [scan]
  | cons c a ih =>
    obtain ⟨hc, ha⟩ := not_or.mp (fun h => ha (List.mem_cons.mpr h))
    rw [List.cons_append, scan, if_neg (fun h => hc h.symm), ih ha, Option.map_map]
    rfl

/-- A constant that is read from such a text has more than quotes and white space in it. -/
theorem exists_mem_of_scan (h : Closes rest) {p : List Char × List Char}
    (hp : scan .inside rest = some p) : ∃ z ∈ p.1, isWhite z = false ∧ z ≠ '\'' := by
  obtain ⟨s, z, t, rfl, hs, hz, hq⟩ := h
  refine ⟨z, ?_, hz, hq⟩
  clear hz
  induction s generalizing p with
  | nil =>
    rw [List.nil_append, scan, if_neg hq, Option.map_eq_some_iff] at hp
    obtain ⟨p', -, rfl⟩ := hp
    exact List.mem_cons_self
  | cons c s ih =>
    rw [List.cons_append, scan, if_neg (ne_quote_of_isWhite (hs c List.mem_cons_self)),
      Option.map_eq_some_iff] at hp
    obtain ⟨p', hp', rfl⟩ := hp
    exact List.mem_cons_of_mem c (ih hp' (fun d hd => hs d (List.mem_cons_of_mem c hd)))

/-! ## A text with quotes is not read as itself -/

/-- Quotes and white space only. -/
def Blank (w : List Char) : Prop := ∀ c ∈ w, isWhite c = true ∨ c = '\''

theorem Blank.append {w w' : List Char} (h : Blank w) (h' : Blank w') : Blank (w ++ w') := by
  intro c hc
  rcases List.mem_append.mp hc with hc | hc
  · exact h c hc
  · exact h' c hc

theorem blank_quote : Blank ['\''] := by
  intro c hc
  right
  exact List.mem_singleton.mp hc

theorem blank_of_white {g : List Char} (hg : ∀ c ∈ g, isWhite c = true) : Blank g :=
  fun c hc => Or.inl (hg c hc)

theorem not_blank_of_scan (h : Closes rest) {p : List Char × List Char}
    (hp : scan .inside rest = some p) {w : List Char} (hw : Blank w) :
    ∀ u v : List Char, u ++ p.1 ++ v ≠ w := by
  intro u v hpw
  obtain ⟨z, hz, hwhite, hq⟩ := exists_mem_of_scan h hp
  have hmem : z ∈ w := by
    rw [← hpw]
    exact List.mem_append_left v (List.mem_append_right u hz)
  rcases hw z hmem with h | h
  · rw [hwhite] at h
    cases h
  · exact hq h

/-- What is read behind a text is not this text with quotes and white space before it: in no
place can the reader make up for what it has lost. -/
theorem scan_ne (hrest : Closes rest) : ∀ b w : List Char, Blank w →
    (w ≠ [] → ∀ r, scan .inside (b ++ '\'' :: rest) ≠ some (w ++ b, r))
    ∧ (∀ R r, scan (.quote R) (b ++ '\'' :: rest) ≠ some (w ++ '\'' :: b, r))
    ∧ (∀ g, (∀ c ∈ g, isWhite c = true) → ∀ R newline r,
        scan (.gap R newline) (b ++ '\'' :: rest) ≠ some (w ++ '\'' :: (g ++ b), r)) := by
  intro b
  induction b with
  | nil =>
    intro w hw
    refine ⟨?_, ?_, ?_⟩
    · -- the quote behind the text closes the constant
      intro hne r h
      rw [List.nil_append, scan, if_pos rfl, scan_quote hrest, List.append_nil,
        Option.some_inj, Prod.mk.injEq] at h
      exact hne h.1.symm
    · -- it is the second of two, and the constant goes on behind it
      intro R r h
      rw [List.nil_append, scan, if_pos rfl, Option.map_eq_some_iff] at h
      obtain ⟨p, hp, heq⟩ := h
      exact not_blank_of_scan hrest hp (hw.append blank_quote) ['\''] []
        (by simpa using congrArg Prod.fst heq)
    · -- it opens the constant anew
      intro g hg R newline r h
      rw [List.nil_append, scan, if_pos rfl] at h
      split_ifs at h
      · exact not_blank_of_scan hrest h
          (hw.append (blank_quote.append (blank_of_white hg))) [] [] (by simp)
      · have := congrArg Prod.fst (Option.some.inj h)
        simp at this
  | cons c b ih =>
    intro w hw
    refine ⟨?_, ?_, ?_⟩
    · intro hne r h
      rw [List.cons_append, scan] at h
      split_ifs at h with hc
      · subst hc
        exact (ih w hw).2.1 _ r h
      · -- the character leaves the front of the lead, and joins its end
        obtain ⟨p, hp, heq⟩ := Option.map_eq_some_iff.mp h
        obtain ⟨d, w', rfl⟩ := List.exists_cons_of_ne_nil hne
        obtain ⟨hhead, hp1⟩ := List.cons.inj (congrArg Prod.fst heq)
        refine (ih (w' ++ [c]) ?_).1 (by simp) p.2 ?_
        · apply Blank.append (fun x hx => hw x (List.mem_cons_of_mem d hx))
          intro x hx
          rw [List.mem_singleton.mp hx, hhead]
          exact hw d List.mem_cons_self
        · rw [hp, ← Prod.eta p, hp1]
          simp
    · intro R r h
      rw [List.cons_append, scan] at h
      split_ifs at h with hc hwhite
      · subst hc
        obtain ⟨p, hp, heq⟩ := Option.map_eq_some_iff.mp h
        have hp1 : '\'' :: p.1 = w ++ ['\''] ++ '\'' :: b := by
          rw [List.append_assoc]
          exact congrArg Prod.fst heq
        cases w with
        | nil =>
          refine (ih ['\''] blank_quote).1 (by simp) p.2 ?_
          rw [hp, ← Prod.eta p, (List.cons.inj hp1).2]
          rfl
        | cons d w' =>
          refine (ih (w' ++ ['\'', '\'']) ?_).1 (by simp) p.2 ?_
          · exact Blank.append (fun x hx => hw x (List.mem_cons_of_mem d hx))
              (blank_quote.append blank_quote)
          · rw [hp, ← Prod.eta p, (List.cons.inj hp1).2]
            simp
      · refine (ih w hw).2.2 [c] ?_ R _ r h
        intro x hx
        rw [List.mem_singleton.mp hx]
        exact hwhite
      · have := congrArg Prod.fst (Option.some.inj h)
        simp at this
    · intro g hg R newline r h
      rw [List.cons_append, scan] at h
      split_ifs at h with hc hnl hwhite
      · subst hc
        refine (ih (w ++ '\'' :: (g ++ ['\''])) ?_).1 (by simp) r ?_
        · exact hw.append (blank_quote.append ((blank_of_white hg).append blank_quote))
        · rw [h]
          simp
      · have := congrArg Prod.fst (Option.some.inj h)
        simp at this
      · refine (ih w hw).2.2 (g ++ [c]) ?_ R (newline || isNewline c) r ?_
        · intro x hx
          rcases List.mem_append.mp hx with hx | hx
          · exact hg x hx
          · rw [List.mem_singleton.mp hx]
            exact hwhite
        · rw [h]
          simp
      · have := congrArg Prod.fst (Option.some.inj h)
        simp at this

/-- **A text between quotes is read as itself exactly if it has no quote**, and then the reader
stops behind it. -/
theorem scan_text_iff (hrest : Closes rest) (v r : List Char) :
    scan .inside (v ++ '\'' :: rest) = some (v, r) ↔ '\'' ∉ v ∧ r = rest := by
  constructor
  · intro h
    by_cases hv : '\'' ∈ v
    · obtain ⟨a, b, rfl, ha⟩ := List.eq_append_cons_of_mem hv
      rw [List.append_assoc, List.cons_append, scan_plain ha, Option.map_eq_some_iff] at h
      obtain ⟨p, hp, heq⟩ := h
      have hp1 : p.1 = [] ++ '\'' :: b := List.append_cancel_left (congrArg Prod.fst heq)
      refine absurd ?_ ((scan_ne hrest b [] (fun _ hc => absurd hc List.not_mem_nil)).2.1
        (b ++ '\'' :: rest) p.2)
      rw [hp, ← hp1]
    · refine ⟨hv, ?_⟩
      rw [scan_plain hv, scan_quote hrest] at h
      simpa using (congrArg Prod.snd (Option.some.inj h)).symm
  · rintro ⟨hv, rfl⟩
    rw [scan_plain hv, scan_quote hrest]
    simp

end Sql
