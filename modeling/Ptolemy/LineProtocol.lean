/-
# The line protocol

One point of a time series as a line of text: a measurement, tags behind commas, a space, fields
between commas, and behind another space the time.  A backslash takes the comma, the equals sign or
the space behind it as a part of a name, and the quote or the backslash behind it as a part of a
text between quotes; before any other character it stands for itself.

A line that is written without any backslashes of its own reads back as the point it is written
for just when nothing in it needs them (`read_line_iff`).

How the text of a number is read is a parameter.
-/
import Ptolemy.Value

namespace LineProtocol

/-! ## Pieces -/

/-- What stands before the first stop, without the backslashes before characters of `esc`, and
what is left. -/
def piece (stop esc : Char → Bool) : List Char → List Char × List Char
  | [] => ([], [])
  | c :: cs =>
      if stop c then ([], c :: cs)
      else match cs with
        | [] => ([c], [])
        | d :: ds =>
            if c = '\\' && esc d then (d :: (piece stop esc ds).1, (piece stop esc ds).2)
            else (c :: (piece stop esc (d :: ds)).1, (piece stop esc (d :: ds)).2)

/-- A piece in which nothing stops the reader before `sep`, and no backslash is taken away. -/
def Verbatim (stop esc : Char → Bool) (sep : Char) : List Char → Prop
  | [] => True
  | c :: cs => stop c = false ∧ ¬ (c = '\\' ∧ esc (cs.headD sep) = true) ∧ Verbatim stop esc sep cs

instance Verbatim.decidable (stop esc : Char → Bool) (sep : Char) :
    (l : List Char) → Decidable (Verbatim stop esc sep l)
  | [] => inferInstanceAs (Decidable True)
  | c :: cs =>
    have := Verbatim.decidable stop esc sep cs
    inferInstanceAs (Decidable (stop c = false
      ∧ ¬ (c = '\\' ∧ esc (cs.headD sep) = true) ∧ Verbatim stop esc sep cs))

section Piece

variable {stop esc : Char → Bool} {sep : Char}

theorem piece_stop (h : stop sep = true) (r : List Char) :
    piece stop esc (sep :: r) = ([], sep :: r) := by
  rw [piece.eq_def]
  exact if_pos h

/-- A backslash that is taken away. -/
theorem piece_escape {d : Char} (h : ¬ stop '\\' = true) (hd : esc d = true) (r : List Char) :
    piece stop esc ('\\' :: d :: r) = (d :: (piece stop esc r).1, (piece stop esc r).2) := by
  rw [piece, if_neg h]
  exact if_pos (by simp [hd])

/-- A character that is read as it is. -/
theorem piece_cons {c : Char} {cs : List Char} (hc : stop c = false)
    (hesc : ¬ (c = '\\' ∧ esc (cs.headD sep) = true)) (r : List Char) :
    piece stop esc (c :: (cs ++ sep :: r))
      = (c :: (piece stop esc (cs ++ sep :: r)).1, (piece stop esc (cs ++ sep :: r)).2) := by
  cases cs with
  | nil =>
    rw [List.nil_append, piece, if_neg (by simp [hc])]
    simp only [List.headD_nil] at hesc
    exact if_neg (by simpa using hesc)
  | cons d ds =>
    rw [List.cons_append, piece, if_neg (by simp [hc])]
    simp only [List.headD_cons] at hesc
    exact if_neg (by simpa using hesc)

theorem piece_verbatim (hsep : stop sep = true) {x : List Char} (h : Verbatim stop esc sep x)
    (r : List Char) : piece stop esc (x ++ sep :: r) = (x, sep :: r) := by
  induction x with
  | nil => exact piece_stop hsep r
  | cons c cs ih =>
    obtain ⟨hc, hesc, hcs⟩ := h
    rw [List.cons_append, piece_cons hc hesc, ih hcs]

/-- Behind a backslash that was taken away the reader is ahead of the text, and never falls back:
what it still reads is not longer. -/
theorem piece_ne_replicate (hsep : stop sep = true) (hback : sep ≠ '\\') (r : List Char) :
    ∀ (x : List Char) (n : ℕ), (piece stop esc (x ++ sep :: r)).1 ≠ List.replicate (n + 1) '\\' ++ x
  | [], n => by
    rw [List.nil_append, piece_stop hsep]
    simp [List.replicate_succ]
  | [c], n => by
    intro h
    by_cases hc : stop c = true
    · rw [List.cons_append, piece_stop hc] at h
      simp [List.replicate_succ] at h
    · by_cases hesc : c = '\\' ∧ esc sep = true
      · obtain ⟨rfl, hsepesc⟩ := hesc
        rw [List.cons_append, List.nil_append, piece_escape hc hsepesc, List.replicate_succ] at h
        exact hback (List.cons.inj h).1
      · rw [List.cons_append, piece_cons (by simpa using hc) hesc, List.nil_append,
          piece_stop hsep] at h
        have hlen := congrArg List.length h
        simp at hlen
  | c :: d :: ds, n => by
    intro h
    by_cases hc : stop c = true
    · rw [List.cons_append, piece_stop hc] at h
      simp [List.replicate_succ] at h
    · by_cases hesc : c = '\\' ∧ esc d = true
      · obtain ⟨rfl, hd⟩ := hesc
        rw [List.cons_append, List.cons_append, piece_escape hc hd, List.replicate_succ] at h
        obtain ⟨rfl, htail⟩ := List.cons.inj h
        refine piece_ne_replicate hsep hback r ds (n + 1) (htail.trans ?_)
        rw [List.replicate_succ', List.replicate_succ']
        simp
      · rw [List.cons_append, piece_cons (by simpa using hc) hesc] at h
        obtain ⟨rfl, htail⟩ := List.cons.inj h
        refine piece_ne_replicate hsep hback r (d :: ds) n (htail.trans ?_)
        rw [List.replicate_succ']
        simp

/-- **Only what is verbatim reads back as it stands.** -/
theorem verbatim_of_piece (hsep : stop sep = true) (hback : sep ≠ '\\') {x r : List Char}
    (h : (piece stop esc (x ++ sep :: r)).1 = x) : Verbatim stop esc sep x := by
  induction x with
  | nil => trivial
  | cons c cs ih =>
    by_cases hc : stop c = true
    · rw [List.cons_append, piece_stop hc] at h
      cases h
    by_cases hesc : c = '\\' ∧ esc (cs.headD sep) = true
    · exfalso
      obtain ⟨rfl, hd⟩ := hesc
      cases cs with
      | nil =>
        rw [List.cons_append, List.nil_append, piece_escape (d := sep) hc hd] at h
        exact hback (List.cons.inj h).1
      | cons d ds =>
        rw [List.cons_append, List.cons_append, piece_escape (d := d) hc hd] at h
        obtain ⟨rfl, htail⟩ := List.cons.inj h
        exact piece_ne_replicate hsep hback r ds 0 htail
    · rw [List.cons_append, piece_cons (by simpa using hc) hesc] at h
      exact ⟨by simpa using hc, hesc, ih (List.cons.inj h).2⟩

end Piece

/-! ## Names -/

/-- What ends a measurement. -/
def measurementStop (c : Char) : Bool := c = ',' || c = ' ' || c = '\n'

/-- What a backslash takes into a measurement. -/
def measurementEsc (c : Char) : Bool := c = ',' || c = ' '

/-- What ends the key of a tag or a field, or the value of a tag. -/
def nameStop (c : Char) : Bool := c = ',' || c = '=' || c = ' ' || c = '\n'

/-- What a backslash takes into such a name. -/
def nameEsc (c : Char) : Bool := c = ',' || c = '=' || c = ' '

/-- What ends a text between quotes. -/
def quoteStop (c : Char) : Bool := c = '"'

/-- What a backslash takes into such a text. -/
def quoteEsc (c : Char) : Bool := c = '"' || c = '\\'

/-- What ends any other value of a field. -/
def literalStop (c : Char) : Bool := c = ',' || c = ' ' || c = '\n'

/-- A name that nothing ends, and that ends with no backslash. -/
structure Bare (stop : Char → Bool) (x : List Char) : Prop where
  ne_nil : x ≠ []
  stop : ∀ c ∈ x, stop c = false
  last : x.getLast? ≠ some '\\'

instance Bare.decidable (stop : Char → Bool) (x : List Char) : Decidable (Bare stop x) :=
  decidable_of_iff (x ≠ [] ∧ (∀ c ∈ x, stop c = false) ∧ x.getLast? ≠ some '\\')
    ⟨fun h => ⟨h.1, h.2.1, h.2.2⟩, fun h => ⟨h.ne_nil, h.stop, h.last⟩⟩

/-- Where a backslash takes along what would be a stop, only the last one matters. -/
theorem verbatim_iff {stop esc : Char → Bool} {sep : Char} (hesc : ∀ c, esc c = true → stop c = true)
    (hsep : esc sep = true) (x : List Char) : Verbatim stop esc sep x
      ↔ (∀ c ∈ x, stop c = false) ∧ x.getLast? ≠ some '\\' := by
  induction x with
  | nil => simp [Verbatim]
  | cons c cs ih =>
    rw [Verbatim, ih, List.forall_mem_cons]
    cases cs with
    | nil => simp [hsep]
    | cons d ds =>
      rw [List.headD_cons, List.getLast?_cons_cons]
      constructor
      · rintro ⟨hc, -, hall, hlast⟩
        exact ⟨⟨hc, hall⟩, hlast⟩
      · rintro ⟨⟨hc, hall⟩, hlast⟩
        refine ⟨hc, ?_, hall, hlast⟩
        rintro ⟨-, hd⟩
        have hstop := hesc d hd
        rw [hall d List.mem_cons_self] at hstop
        cases hstop

/-- What a backslash takes along ends a name otherwise, and is no backslash itself. -/
structure Escapes (stop esc : Char → Bool) : Prop where
  stop : ∀ c, esc c = true → stop c = true
  back : esc '\\' = false

theorem measurement_escapes : Escapes measurementStop measurementEsc where
  stop := by simp [measurementStop, measurementEsc]
  back := by decide

theorem name_escapes : Escapes nameStop nameEsc where
  stop := by simp [nameStop, nameEsc]; tauto
  back := by decide

section Names

variable {stop esc : Char → Bool} {sep : Char} (he : Escapes stop esc) (hsep : esc sep = true)
include he hsep

theorem piece_bare {x : List Char} (h : Bare stop x) (r : List Char) :
    piece stop esc (x ++ sep :: r) = (x, sep :: r) :=
  piece_verbatim (he.stop sep hsep) ((verbatim_iff he.stop hsep x).mpr ⟨h.stop, h.last⟩) r

/-- A name that is read as it stands is bare. -/
theorem bare_of_piece {x r : List Char} (hx : x ≠ [])
    (h : (piece stop esc (x ++ sep :: r)).1 = x) : Bare stop x := by
  have hback : sep ≠ '\\' := by
    rintro rfl
    rw [he.back] at hsep
    cases hsep
  obtain ⟨hstop, hlast⟩ := (verbatim_iff he.stop hsep x).mp
    (verbatim_of_piece (he.stop sep hsep) hback h)
  exact ⟨hx, hstop, hlast⟩

end Names

/-! ## The grammar -/

/-- The value of a field. -/
inductive FieldValue (φ : Type) : Type where
  | string (s : String) : FieldValue φ
  | bool (b : Bool) : FieldValue φ
  | integer (n : ℤ) : FieldValue φ
  | number (a : φ) : FieldValue φ
  deriving DecidableEq, Repr

/-- A point of a time series. -/
structure Point (φ : Type) : Type where
  measurement : String
  tags : List (String × String)
  fields : List (String × FieldValue φ)
  time : Option ℤ
  deriving DecidableEq, Repr

variable {φ : Type} (number : String → Option φ)

/-- A value without quotes. -/
def literal (t : String) : Option (FieldValue φ) :=
  if t ∈ ["t", "T", "true", "True", "TRUE"] then some (.bool true)
  else if t ∈ ["f", "F", "false", "False", "FALSE"] then some (.bool false)
  else if t.toList.getLast? = some 'i' then
    (Text.int? (String.ofList t.toList.dropLast)).map FieldValue.integer
  else (number t).map FieldValue.number

/-- The value of a field, and what is left. -/
def readValue : List Char → Option (FieldValue φ × List Char)
  | '"' :: s => match piece quoteStop quoteEsc s with
    | (v, '"' :: r) => some (.string (String.ofList v), r)
    | _ => none
  | s =>
    let p := piece literalStop (fun _ => false) s
    (literal number (String.ofList p.1)).map (fun v => (v, p.2))

/-- Tags, up to the space. -/
def readTags : ℕ → List Char → Option (List (String × String) × List Char)
  | n + 1, ',' :: s => match piece nameStop nameEsc s with
    | (k, '=' :: r) =>
        let p := piece nameStop nameEsc r
        if k = [] ∨ p.1 = [] then none
        else (readTags n p.2).map
          (fun q => ((String.ofList k, String.ofList p.1) :: q.1, q.2))
    | _ => none
  | _ + 1, ' ' :: s => some ([], s)
  | _, _ => none

/-- The time. -/
def readTime (s : List Char) : Option ℤ :=
  if s.any Text.isSpace then none else Text.int? (String.ofList s)

/-- Fields and, behind a space, the time. -/
def readFields : ℕ → List Char → Option (List (String × FieldValue φ) × Option ℤ)
  | 0, _ => none
  | n + 1, s => match piece nameStop nameEsc s with
    | (k, '=' :: r) =>
        if k = [] then none
        else match readValue number r with
          | some (v, ',' :: r) => (readFields n r).map
              (fun q => ((String.ofList k, v) :: q.1, q.2))
          | some (v, ' ' :: r) => (readTime r).map (fun t => ([(String.ofList k, v)], some t))
          | some (v, []) => some ([(String.ofList k, v)], none)
          | _ => none
    | _ => none

/-- The point of a line, if it is one and no comment. -/
def read (text : String) : Option (Point φ) :=
  let l := text.toList
  if l.head? = some '#' then none
  else
    let p := piece measurementStop measurementEsc l
    if p.1 = [] then none
    else (readTags l.length p.2).bind (fun q => (readFields number l.length q.2).map
      (fun f => ⟨String.ofList p.1, q.1, f.1, f.2⟩))

/-! ## Lines without backslashes of their own -/

variable {number} (str : φ → String)

/-- The text of a value. -/
def FieldValue.text : FieldValue φ → String
  | .string s => "\"" ++ s ++ "\""
  | .bool b => if b then "true" else "false"
  | .integer n => toString n ++ "i"
  | .number a => str a

def tagsText (tags : List (String × String)) : List Char :=
  tags.flatMap (fun p => ',' :: (p.1.toList ++ '=' :: p.2.toList))

def fieldsText : List (String × FieldValue φ) → List Char
  | [] => []
  | [p] => p.1.toList ++ '=' :: (p.2.text str).toList
  | p :: ps => p.1.toList ++ '=' :: ((p.2.text str).toList ++ ',' :: fieldsText ps)

def lineText (m : String) (tags : List (String × String)) (fields : List (String × FieldValue φ))
    (t : ℤ) : List Char :=
  m.toList ++ (tagsText tags ++ ' ' :: (fieldsText str fields ++ ' ' :: (toString t).toList))

theorem fieldsText_cons_cons (p q : String × FieldValue φ) (ps : List (String × FieldValue φ)) :
    fieldsText str (p :: q :: ps)
      = p.1.toList ++ '=' :: ((p.2.text str).toList ++ ',' :: fieldsText str (q :: ps)) := rfl

/-! ### Tags -/

/-- What follows a tag or a measurement. -/
theorem exists_tagsText (tags : List (String × String)) (r : List Char) :
    ∃ sep r', tagsText tags ++ ' ' :: r = sep :: r' ∧ measurementEsc sep = true
      ∧ nameEsc sep = true := by
  cases tags with
  | nil => exact ⟨' ', r, rfl, by decide, by decide⟩
  | cons p ps => exact ⟨',', _, rfl, by decide, by decide⟩

theorem tagsText_cons (p : String × String) (ps : List (String × String)) (r : List Char) :
    tagsText (p :: ps) ++ r = ',' :: (p.1.toList ++ '=' :: (p.2.toList ++ (tagsText ps ++ r))) := by
  simp [tagsText]

theorem readTags_tagsText {tags : List (String × String)}
    (h : ∀ p ∈ tags, Bare nameStop p.1.toList ∧ Bare nameStop p.2.toList) (r : List Char) {n : ℕ}
    (hn : tags.length < n) : readTags n (tagsText tags ++ ' ' :: r) = some (tags, r) := by
  induction tags generalizing n with
  | nil =>
    obtain ⟨n, rfl⟩ := Nat.exists_eq_succ_of_ne_zero (by omega : n ≠ 0)
    rfl
  | cons p ps ih =>
    obtain ⟨n, rfl⟩ := Nat.exists_eq_succ_of_ne_zero (by omega : n ≠ 0)
    obtain ⟨hkey, hvalue⟩ := h p List.mem_cons_self
    have ih := ih (fun q hq => h q (List.mem_cons_of_mem p hq)) (n := n) (by simpa using hn)
    obtain ⟨sep, r', hsep, -, hesc⟩ := exists_tagsText ps r
    rw [tagsText_cons, readTags, piece_bare name_escapes (by decide) hkey]
    simp only
    rw [hsep, piece_bare name_escapes hesc hvalue, ← hsep, ih,
      if_neg (not_or.mpr ⟨hkey.ne_nil, hvalue.ne_nil⟩)]
    simp

/-- A tag that was read. -/
theorem readTags_eq_some {n : ℕ} {s r' : List Char} {p : String × String}
    {ps : List (String × String)} (h : readTags n (',' :: s) = some (p :: ps, r')) :
    ∃ m r, piece nameStop nameEsc s = (p.1.toList, '=' :: r)
      ∧ (piece nameStop nameEsc r).1 = p.2.toList ∧ p.1.toList ≠ [] ∧ p.2.toList ≠ []
      ∧ readTags m (piece nameStop nameEsc r).2 = some (ps, r') := by
  cases n with
  | zero => cases h
  | succ n =>
    rw [readTags] at h
    split at h
    · rename_i k r hpiece
      simp only at h
      split_ifs at h with hne
      obtain ⟨q, hq, heq⟩ := Option.map_eq_some_iff.mp h
      obtain ⟨hp, hr⟩ := Prod.mk.inj heq
      obtain ⟨rfl, rfl⟩ := List.cons.inj hp
      obtain ⟨hk, hv⟩ := not_or.mp hne
      refine ⟨n, r, by rw [hpiece, String.toList_ofList], by rw [String.toList_ofList],
        by rwa [String.toList_ofList], by rwa [String.toList_ofList], ?_⟩
      rw [hq, ← hr]
    · cases h

theorem bare_of_readTags {tags : List (String × String)} {n : ℕ} {r r' : List Char}
    (h : readTags n (tagsText tags ++ ' ' :: r) = some (tags, r')) :
    (∀ p ∈ tags, Bare nameStop p.1.toList ∧ Bare nameStop p.2.toList) := by
  induction tags generalizing n with
  | nil => simp
  | cons p ps ih =>
    rw [tagsText_cons] at h
    obtain ⟨m, r₁, hkey, hvalue, hk, hv, hrest⟩ := readTags_eq_some h
    have hbare := bare_of_piece name_escapes (by decide) hk (congrArg Prod.fst hkey)
    rw [piece_bare name_escapes (by decide) hbare] at hkey
    obtain ⟨-, rfl⟩ := List.cons.inj (Prod.mk.inj hkey).2
    obtain ⟨sep, r₂, hsep, -, hesc⟩ := exists_tagsText ps r
    rw [hsep] at hvalue hrest
    have hbare' := bare_of_piece name_escapes hesc hv hvalue
    rw [piece_bare name_escapes hesc hbare', ← hsep] at hrest
    exact List.forall_mem_cons.mpr ⟨⟨hbare, hbare'⟩, ih hrest⟩

/-! ### Values -/

/-- A value whose text reads back as it. -/
def Faithful (number : String → Option φ) : FieldValue φ → Prop
  | .string s => Verbatim quoteStop quoteEsc '"' s.toList
  | v => literal number (v.text str) = some v

/-- The texts of numbers have no stops and no quotes. -/
def Unquoted (str : φ → String) : Prop :=
  ∀ a, ∀ c ∈ (str a).toList, literalStop c = false ∧ c ≠ '"'

variable {str}

/-- A value that is not put between quotes. -/
theorem text_unquoted (hstr : Unquoted str) {v : FieldValue φ} (hv : ∀ s, v ≠ .string s) :
    ∀ c ∈ (v.text str).toList, literalStop c = false ∧ c ≠ '"' := by
  cases v with
  | string s => exact absurd rfl (hv s)
  | bool b => cases b <;> simp [FieldValue.text, literalStop]
  | number a => exact hstr a
  | integer n =>
    intro c hc
    rw [FieldValue.text, String.toList_append, List.mem_append] at hc
    have hnot : ∀ d : Char, d ≠ '-' → d.isDigit = false → d ≠ 'i' → c ≠ d := by
      rintro d hminus hdigit hi rfl
      rcases hc with hc | hc
      · exact Text.notMem_toString hminus hdigit n hc
      · exact hi (by simpa using hc)
    refine ⟨?_, hnot _ (by decide) (by decide) (by decide)⟩
    have hcomma := hnot ',' (by decide) (by decide) (by decide)
    have hspace := hnot ' ' (by decide) (by decide) (by decide)
    have hline := hnot '\n' (by decide) (by decide) (by decide)
    simp [literalStop, hcomma, hspace, hline]

theorem readValue_unquoted {w : List Char} (hw : ∀ c ∈ w, literalStop c = false ∧ c ≠ '"')
    {sep : Char} (hsep : literalStop sep = true) (r : List Char) :
    readValue number (w ++ sep :: r)
      = (literal number (String.ofList w)).map (fun v => (v, sep :: r)) := by
  have hverbatim : Verbatim literalStop (fun _ => false) sep w := by
    clear hsep
    induction w with
    | nil => trivial
    | cons c cs ih =>
      obtain ⟨⟨hc, -⟩, hcs⟩ := List.forall_mem_cons.mp hw
      exact ⟨hc, by simp, ih hcs⟩
  have hread : ∀ s : List Char, s.head? ≠ some '"' → readValue number s
      = (literal number (String.ofList (piece literalStop (fun _ => false) s).1)).map
        (fun v => (v, (piece literalStop (fun _ => false) s).2)) := by
    intro s hs
    unfold readValue
    split
    · exact absurd rfl hs
    · rfl
  rw [hread, piece_verbatim hsep hverbatim]
  cases w with
  | nil =>
    rintro h
    obtain rfl := Option.some.inj h
    revert hsep
    decide
  | cons c cs =>
    intro h
    exact (hw c List.mem_cons_self).2 (Option.some.inj h)

theorem readValue_string {s : List Char} (h : Verbatim quoteStop quoteEsc '"' s) (r : List Char) :
    readValue number ('"' :: (s ++ '"' :: r)) = some (.string (String.ofList s), r) := by
  rw [readValue, piece_verbatim (by decide) h]
  rfl

theorem eq_string_of_readValue {s r : List Char} {v : FieldValue φ}
    (h : readValue number ('"' :: s) = some (v, r)) :
    v = .string (String.ofList (piece quoteStop quoteEsc s).1) := by
  rw [readValue] at h
  split at h
  · rename_i v' r' hpiece
    rw [hpiece]
    exact (Prod.mk.inj (Option.some.inj h)).1.symm
  · cases h

theorem toList_text_string (s : String) (r : List Char) :
    ((FieldValue.string s).text str).toList ++ r = '"' :: (s.toList ++ '"' :: r) := by
  simp [FieldValue.text]

theorem readValue_text (hstr : Unquoted str) {v : FieldValue φ} (h : Faithful str number v)
    {sep : Char} (hsep : literalStop sep = true) (r : List Char) :
    readValue number ((v.text str).toList ++ sep :: r) = some (v, sep :: r) := by
  by_cases hv : ∃ s, v = .string s
  · obtain ⟨s, rfl⟩ := hv
    rw [toList_text_string, readValue_string h, String.ofList_toList]
  · have hv : ∀ s, v ≠ .string s := fun s hs => hv ⟨s, hs⟩
    have hliteral : literal number (v.text str) = some v := by
      cases v with
      | string s => exact absurd rfl (hv s)
      | _ => exact h
    rw [readValue_unquoted (text_unquoted hstr hv) hsep, String.ofList_toList, hliteral,
      Option.map_some]

theorem faithful_of_readValue (hstr : Unquoted str) {v : FieldValue φ} {sep : Char}
    (hsep : literalStop sep = true) {r r' : List Char}
    (h : readValue number ((v.text str).toList ++ sep :: r) = some (v, r')) :
    Faithful str number v := by
  by_cases hv : ∃ s, v = .string s
  · obtain ⟨s, rfl⟩ := hv
    rw [toList_text_string] at h
    have heq := FieldValue.string.inj (eq_string_of_readValue h)
    refine verbatim_of_piece (r := sep :: r) (by decide) (by decide) ?_
    rw [← String.toList_ofList (l := (piece quoteStop quoteEsc _).1), ← heq]
  · have hv : ∀ s, v ≠ .string s := fun s hs => hv ⟨s, hs⟩
    rw [readValue_unquoted (text_unquoted hstr hv) hsep, String.ofList_toList] at h
    obtain ⟨v', hv', heq⟩ := Option.map_eq_some_iff.mp h
    obtain rfl := (Prod.mk.inj heq).1
    cases v' with
    | string s => exact absurd rfl (hv s)
    | _ => exact hv'

/-! ### Fields and time -/

theorem readTime_toString (t : ℤ) : readTime (toString t).toList = some t := by
  have hspace : (toString t).toList.any Text.isSpace = false := by
    rw [List.any_eq_false]
    intro c hc hspace
    have hminus : c ≠ '-' := by
      rintro rfl
      revert hspace
      decide
    have hdigit : c.isDigit = false := by
      cases h : c.isDigit with
      | false => rfl
      | true =>
        rw [Text.isSpace_of_isDigit h] at hspace
        cases hspace
    exact Text.notMem_toString hminus hdigit t hc
  rw [readTime, hspace, if_neg (by decide), String.ofList_toList, Text.int?_toString]

theorem readFields_fieldsText (hstr : Unquoted str) {fields : List (String × FieldValue φ)}
    (hne : fields ≠ [])
    (h : ∀ p ∈ fields, Bare nameStop p.1.toList ∧ Faithful str number p.2) (t : ℤ) {n : ℕ}
    (hn : fields.length ≤ n) :
    readFields number n (fieldsText str fields ++ ' ' :: (toString t).toList)
      = some (fields, some t) := by
  induction fields generalizing n with
  | nil => exact absurd rfl hne
  | cons p ps ih =>
    obtain ⟨n, rfl⟩ := Nat.exists_eq_succ_of_ne_zero (by simp at hn; omega : n ≠ 0)
    obtain ⟨hkey, hvalue⟩ := h p List.mem_cons_self
    cases ps with
    | nil =>
      rw [fieldsText, List.append_assoc, List.cons_append, readFields,
        piece_bare name_escapes (by decide) hkey]
      simp only
      rw [if_neg hkey.ne_nil, readValue_text hstr hvalue (by decide)]
      simp only [readTime_toString, Option.map_some, String.ofList_toList]
    | cons q ps =>
      have ih := ih (by simp) (fun q hq => h q (List.mem_cons_of_mem p hq)) (n := n)
        (by simpa using hn)
      rw [fieldsText_cons_cons, List.append_assoc, List.cons_append, List.append_assoc,
        List.cons_append, readFields, piece_bare name_escapes (by decide) hkey]
      simp only
      rw [if_neg hkey.ne_nil, readValue_text hstr hvalue (by decide)]
      simp only [ih, Option.map_some, String.ofList_toList]

/-- A field that was read. -/
theorem readFields_eq_some {n : ℕ} {s : List Char} {p : String × FieldValue φ}
    {ps : List (String × FieldValue φ)} {t : Option ℤ}
    (h : readFields number n s = some (p :: ps, t)) :
    ∃ m r r', piece nameStop nameEsc s = (p.1.toList, '=' :: r) ∧ p.1.toList ≠ []
      ∧ readValue number r = some (p.2, r')
      ∧ (ps ≠ [] → ∃ r'', r' = ',' :: r'' ∧ readFields number m r'' = some (ps, t)) := by
  cases n with
  | zero => cases h
  | succ n =>
    rw [readFields] at h
    split at h
    · rename_i k r hpiece
      split_ifs at h with hk
      split at h
      · rename_i v r' hvalue
        obtain ⟨q, hq, heq⟩ := Option.map_eq_some_iff.mp h
        obtain ⟨hp, ht⟩ := Prod.mk.inj heq
        obtain ⟨rfl, rfl⟩ := List.cons.inj hp
        refine ⟨n, r, _, by rw [hpiece, String.toList_ofList], by rwa [String.toList_ofList],
          hvalue, fun _ => ⟨r', rfl, ?_⟩⟩
        rw [hq, ← ht]
      · rename_i v r' hvalue
        obtain ⟨q, hq, heq⟩ := Option.map_eq_some_iff.mp h
        obtain ⟨rfl, rfl⟩ := List.cons.inj (Prod.mk.inj heq).1
        exact ⟨n, r, _, by rw [hpiece, String.toList_ofList], by rwa [String.toList_ofList],
          hvalue, fun hne => absurd rfl hne⟩
      · rename_i v hvalue
        obtain ⟨rfl, rfl⟩ := List.cons.inj (Prod.mk.inj (Option.some.inj h)).1
        exact ⟨n, r, _, by rw [hpiece, String.toList_ofList], by rwa [String.toList_ofList],
          hvalue, fun hne => absurd rfl hne⟩
      · cases h
    · cases h

theorem faithful_of_readFields (hstr : Unquoted str) {fields : List (String × FieldValue φ)}
    {n : ℕ} {r : List Char} {t : Option ℤ}
    (h : readFields number n (fieldsText str fields ++ ' ' :: r) = some (fields, t)) :
    ∀ p ∈ fields, Bare nameStop p.1.toList ∧ Faithful str number p.2 := by
  induction fields generalizing n with
  | nil => simp
  | cons p ps ih =>
    obtain ⟨m, r₁, r₂, hkey, hk, hvalue, hrest⟩ := readFields_eq_some h
    cases ps with
    | nil =>
      rw [fieldsText, List.append_assoc, List.cons_append] at hkey
      have hbare := bare_of_piece name_escapes (by decide) hk (congrArg Prod.fst hkey)
      rw [piece_bare name_escapes (by decide) hbare] at hkey
      obtain ⟨-, rfl⟩ := List.cons.inj (Prod.mk.inj hkey).2
      have hfaithful := faithful_of_readValue hstr (by decide) hvalue
      exact List.forall_mem_singleton.mpr ⟨hbare, hfaithful⟩
    | cons q ps =>
      rw [fieldsText_cons_cons, List.append_assoc, List.cons_append, List.append_assoc,
        List.cons_append] at hkey
      have hbare := bare_of_piece name_escapes (by decide) hk (congrArg Prod.fst hkey)
      rw [piece_bare name_escapes (by decide) hbare] at hkey
      obtain ⟨-, rfl⟩ := List.cons.inj (Prod.mk.inj hkey).2
      have hfaithful := faithful_of_readValue hstr (by decide) hvalue
      rw [readValue_text hstr hfaithful (by decide)] at hvalue
      obtain ⟨r₃, hcomma, hfields⟩ := hrest (by simp)
      rw [← (Prod.mk.inj (Option.some.inj hvalue)).2] at hcomma
      obtain ⟨-, rfl⟩ := List.cons.inj hcomma
      exact List.forall_mem_cons.mpr ⟨⟨hbare, hfaithful⟩, ih hfields⟩

theorem readFields_ne_nil {n : ℕ} {s : List Char} {t : Option ℤ} :
    readFields number n s ≠ some ([], t) := by
  intro h
  cases n with
  | zero => cases h
  | succ n =>
    rw [readFields] at h
    split at h
    · split_ifs at h
      split at h
      · simp at h
      · simp at h
      · simp at h
      · cases h
    · cases h

/-! ### Lines -/

/-- Nothing in a point needs a backslash, and there is enough of it for a line. -/
structure Plain (str : φ → String) (number : String → Option φ) (m : String)
    (tags : List (String × String)) (fields : List (String × FieldValue φ)) : Prop where
  measurement : Bare measurementStop m.toList
  comment : m.toList.head? ≠ some '#'
  tags : ∀ p ∈ tags, Bare nameStop p.1.toList ∧ Bare nameStop p.2.toList
  fields_ne_nil : fields ≠ []
  fields : ∀ p ∈ fields, Bare nameStop p.1.toList ∧ Faithful str number p.2

theorem length_tagsText (tags : List (String × String)) :
    tags.length ≤ (tagsText tags).length := by
  induction tags with
  | nil => simp
  | cons p ps ih =>
    have hcons := congrArg List.length (tagsText_cons p ps [])
    simp only [List.append_nil, List.length_cons, List.length_append] at hcons ⊢
    omega

theorem length_fieldsText (str : φ → String) (fields : List (String × FieldValue φ)) :
    fields.length ≤ (fieldsText str fields).length := by
  induction fields with
  | nil => simp
  | cons p ps ih => cases ps with
    | nil =>
      simp only [fieldsText, List.length_cons, List.length_nil, List.length_append]
      omega
    | cons q ps =>
      rw [fieldsText_cons_cons]
      simp only [List.length_cons, List.length_append] at ih ⊢
      omega

section Line

variable (m : String) (tags : List (String × String)) (fields : List (String × FieldValue φ))
  (t : ℤ)

/-- There is fuel enough for all tags and all fields. -/
theorem length_lineText (str : φ → String) : tags.length < (lineText str m tags fields t).length
    ∧ fields.length ≤ (lineText str m tags fields t).length := by
  have htags := length_tagsText tags
  have hfields := length_fieldsText str fields
  simp only [lineText, List.length_append, List.length_cons]
  omega

/-- How the line of a bare measurement is read. -/
theorem read_lineText (hm : Bare measurementStop m.toList) (hcomment : m.toList.head? ≠ some '#') :
    read number (String.ofList (lineText str m tags fields t))
      = (readTags (lineText str m tags fields t).length (tagsText tags
          ++ ' ' :: (fieldsText str fields ++ ' ' :: (toString t).toList))).bind
        (fun q => (readFields number (lineText str m tags fields t).length q.2).map
          (fun f => ⟨m, q.1, f.1, f.2⟩)) := by
  obtain ⟨sep, r, hsep, hesc, -⟩ := exists_tagsText tags
    (fieldsText str fields ++ ' ' :: (toString t).toList)
  have hpiece : piece measurementStop measurementEsc (lineText str m tags fields t)
      = (m.toList, sep :: r) := by
    rw [lineText, hsep, piece_bare measurement_escapes hesc hm]
  have hhead : (lineText str m tags fields t).head? ≠ some '#' := by
    rw [lineText, List.head?_append_of_ne_nil _ hm.ne_nil]
    exact hcomment
  rw [read, String.toList_ofList]
  simp only [hpiece, if_neg hhead, if_neg hm.ne_nil, String.ofList_toList, hsep]

/-- The measurement of a line that reads back. -/
theorem bare_of_read {p : Point φ}
    (h : read number (String.ofList (lineText str m tags fields t)) = some p)
    (hp : p.measurement = m) : Bare measurementStop m.toList ∧ m.toList.head? ≠ some '#' := by
  obtain ⟨sep, r, hsep, hesc, -⟩ := exists_tagsText tags
    (fieldsText str fields ++ ' ' :: (toString t).toList)
  unfold read at h
  simp only [String.toList_ofList] at h
  split_ifs at h with hcomment hne
  obtain ⟨q, -, h⟩ := Option.bind_eq_some_iff.mp h
  obtain ⟨f, -, rfl⟩ := Option.map_eq_some_iff.mp h
  have hm : (piece measurementStop measurementEsc (lineText str m tags fields t)).1 = m.toList := by
    simpa using congrArg String.toList hp
  rw [hm] at hne
  rw [lineText, List.head?_append_of_ne_nil _ hne] at hcomment
  rw [lineText, hsep] at hm
  exact ⟨bare_of_piece measurement_escapes hesc hne hm, hcomment⟩

/-- **When a line reads back** as the point it is written for. -/
theorem read_line_iff (hstr : Unquoted str) :
    read number (String.ofList (lineText str m tags fields t)) = some ⟨m, tags, fields, some t⟩
      ↔ Plain str number m tags fields := by
  obtain ⟨htagsfuel, hfieldsfuel⟩ := length_lineText m tags fields t str
  constructor
  · intro h
    obtain ⟨hm, hcomment⟩ := bare_of_read m tags fields t h rfl
    rw [read_lineText m tags fields t hm hcomment] at h
    obtain ⟨⟨tags', r⟩, htags, h⟩ := Option.bind_eq_some_iff.mp h
    obtain ⟨⟨fields', t'⟩, hfields, h⟩ := Option.map_eq_some_iff.mp h
    simp only [Point.mk.injEq] at h
    obtain ⟨-, rfl, rfl, rfl⟩ := h
    have hbare := bare_of_readTags htags
    rw [readTags_tagsText hbare _ htagsfuel] at htags
    rw [← (Prod.mk.inj (Option.some.inj htags)).2] at hfields
    exact ⟨hm, hcomment, hbare, fun hnil => readFields_ne_nil (hnil ▸ hfields),
      faithful_of_readFields hstr hfields⟩
  · intro h
    rw [read_lineText m tags fields t h.measurement h.comment,
      readTags_tagsText h.tags _ htagsfuel, Option.bind_some,
      readFields_fieldsText hstr h.fields_ne_nil h.fields t hfieldsfuel, Option.map_some]

end Line

end LineProtocol
