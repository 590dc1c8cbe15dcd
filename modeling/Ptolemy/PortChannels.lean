/-
# The members of a port channel

`clagAggPortListPorts` is a row of words of two octets: two words of header, and one for each
member, whose slot is multiplied by 128.  `decode_port_channels` writes all octets in hexadecimal
digits between points, cuts this text into words by a regular expression, whose match takes the
point behind the word along if there is one, and divides.
-/
import Ptolemy.Neighbours

namespace PortChannel

/-! ## The functions -/

/-- `\w`, of the characters of a dotted text. -/
def isWord (c : Char) : Bool := c.isAlphanum || c = '_'

/-- `finditer(r'(\w\w\.\w\w\.?)')`: the matches from the left, none of which overlap. -/
def finditer : List Char → List (List Char)
  | [] => []
  | a :: l => match l with
    | b :: p :: c :: d :: rest =>
        if isWord a && isWord b && p = '.' && isWord c && isWord d then
          match rest with
          | '.' :: rest => [a, b, p, c, d, '.'] :: finditer rest
          | rest => [a, b, p, c, d] :: finditer rest
        else finditer (b :: p :: c :: d :: rest)
    | l => finditer l

/-- One match: the first two are the header. -/
def readGroup (st : List String × ℕ) (i : List Char) : Except Exn (List String × ℕ) := do
  let v := Text.splitChars '.' i
  -- get rid of last entry if not at end
  let v := if v.length = 3 then v.take 2 else v
  if st.2 > 1 then
    let digits := "0x" ++ (String.ofList (v.getD 0 []) ++ String.ofList (v.getD 1 []))
    match Driver.hexInt? digits with
    | none => throw (.valueError ("invalid literal for int() with base 16: '" ++ digits ++ "'"))
    | some h => pure (st.1 ++ [toString (h / 128) ++ "/" ++ toString (h % 128)], st.2 + 1)
  else pure (st.1, st.2 + 1)

/-- `decode_port_channels`. -/
def decode_port_channels (value : List UInt8) : Except Exn (List String) := do
  let (members, _) ← (finditer (Mac.binary_to_hex value).toList).foldlM readGroup ([], 0)
  pure members

/-! ## Words -/

/-- A member of a port channel. -/
structure Member : Type where
  slot : Fin 512
  port : Fin 128

/-- The word of a member. -/
def Member.word (m : Member) : UInt16 := UInt16.ofNat (m.slot * 128 + m.port)

/-- The text of a member. -/
def Member.text (m : Member) : String := toString m.slot.val ++ "/" ++ toString m.port.val

/-- The higher octet of a word. -/
def high (w : UInt16) : UInt8 := UInt8.ofNat (w.toNat / 256)

/-- The lower octet of a word. -/
def low (w : UInt16) : UInt8 := UInt8.ofNat (w.toNat % 256)

/-- Words as octets, the higher one of each first. -/
def bigEndian (ws : List UInt16) : List UInt8 := ws.flatMap (fun w => [high w, low w])

theorem toNat_high (w : UInt16) : (high w).toNat = w.toNat / 256 := by
  have h := w.toNat_lt
  rw [high, UInt8.toNat_ofNat']
  omega

theorem toNat_low (w : UInt16) : (low w).toNat = w.toNat % 256 := by
  rw [low, UInt8.toNat_ofNat']
  omega

theorem Member.toNat_word (m : Member) : m.word.toNat = m.slot * 128 + m.port := by
  have hslot := m.slot.isLt
  have hport := m.port.isLt
  rw [Member.word, UInt16.toNat_ofNat']
  omega

/-! ## The matches -/

/-- The text of a word, as the expression matches it: with the point behind it, if there is one. -/
def group (w : UInt16) (point : List Char) : List Char :=
  Hex.octet (high w) ++ '.' :: (Hex.octet (low w) ++ point)

/-- The matches in the text of some words. -/
def groups : List UInt16 → List (List Char)
  | [] => []
  | [w] => [group w []]
  | w :: ws => group w ['.'] :: groups ws

/-- The text of some words. -/
def text : List UInt16 → List Char
  | [] => []
  | [w] => group w []
  | w :: ws => group w ['.'] ++ text ws

theorem text_cons_cons (w w' : UInt16) (ws : List UInt16) :
    text (w :: w' :: ws) = group w ['.'] ++ text (w' :: ws) := rfl

theorem groups_cons_cons (w w' : UInt16) (ws : List UInt16) :
    groups (w :: w' :: ws) = group w ['.'] :: groups (w' :: ws) := rfl

theorem binary_to_hex_bigEndian (ws : List UInt16) :
    (Mac.binary_to_hex (bigEndian ws)).toList = text ws := by
  induction ws with
  | nil => rfl
  | cons w ws ih => cases ws with
    | nil => simp [bigEndian, Mac.binary_to_hex, Text.join, text, group]
    | cons w' ws =>
      unfold Mac.binary_to_hex bigEndian at ih ⊢
      simp only [List.flatMap_cons, List.cons_append, List.nil_append, List.map_cons,
        Text.join, String.toList_append, text, group] at ih ⊢
      rw [← ih]
      simp

theorem isWord_digitChar {n : ℕ} (h : n < 16) : isWord (Nat.digitChar n) = true := by
  revert n
  decide

/-- At a word the expression matches, and takes the point behind it along. -/
theorem finditer_point (w : UInt16) (rest : List Char) :
    finditer (group w ['.'] ++ rest) = group w ['.'] :: finditer rest := by
  have hmatch : ∀ a b c d, finditer (a :: b :: '.' :: c :: d :: '.' :: rest)
      = if isWord a && isWord b && '.' = '.' && isWord c && isWord d then
          [a, b, '.', c, d, '.'] :: finditer rest
        else finditer (b :: '.' :: c :: d :: '.' :: rest) := fun a b c d => rfl
  simp [group, Hex.octet, hmatch, isWord_digitChar, Hex.div_lt, Hex.mod_lt]

theorem finditer_last (w : UInt16) : finditer (group w []) = [group w []] := by
  have hmatch : ∀ a b c d, finditer [a, b, '.', c, d]
      = if isWord a && isWord b && '.' = '.' && isWord c && isWord d then [[a, b, '.', c, d]]
        else finditer [b, '.', c, d] := fun a b c d => rfl
  simp [group, Hex.octet, hmatch, isWord_digitChar, Hex.div_lt, Hex.mod_lt]

/-- The matches are aligned with the words. -/
theorem finditer_text (ws : List UInt16) : finditer (text ws) = groups ws := by
  induction ws with
  | nil => rfl
  | cons w ws ih => cases ws with
    | nil => exact finditer_last w
    | cons w' ws => rw [text_cons_cons, finditer_point, ih, groups_cons_cons]

/-! ## A match as a number -/

/-- What the match of a word is cut into. -/
theorem pieces_group (w : UInt16) {point : List Char} (h : point = [] ∨ point = ['.']) :
    (let v := Text.splitChars '.' (group w point)
      if v.length = 3 then v.take 2 else v) = [Hex.octet (high w), Hex.octet (low w)] := by
  have hpoint : ∀ b, '.' ∉ Hex.octet b := fun b hmem =>
    Hex.forall_mem_octet (P := (· ≠ '.')) (by decide) b '.' hmem rfl
  rw [group, Text.splitChars_append_cons _ (hpoint _)]
  rcases h with rfl | rfl
  · rw [List.append_nil, Text.splitChars_of_notMem (hpoint _)]
    rfl
  · rw [Text.splitChars_append_cons _ (hpoint _)]
    rfl

/-- Four digits denote the word. -/
theorem hexInt?_word (w : UInt16) :
    Driver.hexInt? ("0x" ++ (String.ofList (Hex.octet (high w)) ++ String.ofList (Hex.octet (low w))))
      = some (w.toNat : ℤ) := by
  have hlist : ("0x" ++ (String.ofList (Hex.octet (high w))
        ++ String.ofList (Hex.octet (low w)))).toList
      = '0' :: 'x' :: (Hex.octet (high w) ++ Hex.octet (low w)) := by
    simp
  have hstrip : Text.strip ('0' :: 'x' :: (Hex.octet (high w) ++ Hex.octet (low w)))
      = '0' :: 'x' :: (Hex.octet (high w) ++ Hex.octet (low w)) := by
    have hoctet := Hex.forall_mem_octet (P := fun c => Text.isSpace c = false) (by decide)
    apply Text.strip_of_forall
    intro c hc
    simp only [List.mem_cons, List.mem_append] at hc
    rcases hc with rfl | rfl | hc | hc
    · rfl
    · rfl
    · exact hoctet _ c hc
    · exact hoctet _ c hc
  have hread : Driver.hexDigits? ('0' :: 'x' :: (Hex.octet (high w) ++ Hex.octet (low w)))
      = some w.toNat := by
    show (if Hex.octet (high w) ++ Hex.octet (low w) = [] then none
      else (Hex.octet (high w) ++ Hex.octet (low w)).foldlM
        (fun n c => (Hex.value? c).map (fun d => 16 * n + d)) 0) = _
    rw [if_neg (by simp [Hex.octet])]
    simp only [Hex.octet, List.cons_append, List.nil_append, List.foldlM_cons, List.foldlM_nil,
      Hex.value?_digitChar (Hex.div_lt _), Hex.value?_digitChar (Hex.mod_lt _), Option.map_some,
      Option.bind_eq_bind, Option.bind_some, Option.pure_def, Option.some.injEq]
    have hhigh := toNat_high w
    have hlow := toNat_low w
    omega
  rw [Driver.hexInt?, hlist, hstrip]
  simp [hread]

/-! ## The loop -/

/-- A match of the header. -/
theorem readGroup_header (w : UInt16) {point : List Char} (members : List String) {count : ℕ}
    (hcount : ¬ count > 1) : readGroup (members, count) (group w point) = .ok (members, count + 1) := by
  rw [readGroup, if_neg hcount]
  rfl

/-- A match behind the header. -/
theorem readGroup_member (m : Member) {point : List Char} (hpoint : point = [] ∨ point = ['.'])
    (members : List String) {count : ℕ} (hcount : count > 1) :
    readGroup (members, count) (group m.word point) = .ok (members ++ [m.text], count + 1) := by
  have hpieces := pieces_group m.word hpoint
  have hslot : (m.word.toNat : ℤ) / 128 = (m.slot.val : ℤ) := by
    have := m.port.isLt
    rw [m.toNat_word]
    omega
  have hport : (m.word.toNat : ℤ) % 128 = (m.port.val : ℤ) := by
    have := m.port.isLt
    rw [m.toNat_word]
    omega
  have hdigits := hexInt?_word m.word
  rw [readGroup, if_pos hcount]
  simp only at hpieces ⊢
  rw [hpieces]
  simp only [List.getD_cons_zero, List.getD_cons_succ, hdigits, hslot, hport]
  rfl

theorem foldlM_members (ms : List Member) (members : List String) {count : ℕ} (hcount : count > 1) :
    (groups (ms.map Member.word)).foldlM readGroup (members, count)
      = .ok (members ++ ms.map Member.text, count + ms.length) := by
  induction ms generalizing members count with
  | nil =>
    rw [List.map_nil, List.map_nil, List.append_nil]
    rfl
  | cons m ms ih => cases ms with
    | nil =>
      rw [List.map_singleton, groups, List.foldlM_cons,
        readGroup_member m (Or.inl rfl) members hcount]
      rfl
    | cons m' ms =>
      have ih := ih (members ++ [m.text]) (by omega : count + 1 > 1)
      rw [List.map_cons] at ih
      rw [List.map_cons, List.map_cons, groups_cons_cons, List.foldlM_cons,
        readGroup_member m (Or.inr rfl) members hcount, Except.ok_bind, ih, List.map_cons]
      simp
      omega

/-- **The members come out as they are**: behind two words of any header, whatever their number. -/
theorem decode_port_channels_bigEndian (h₁ h₂ : UInt16) (ms : List Member) :
    decode_port_channels (bigEndian (h₁ :: h₂ :: ms.map Member.word))
      = .ok (ms.map Member.text) := by
  rw [decode_port_channels, binary_to_hex_bigEndian, finditer_text, groups_cons_cons,
    List.foldlM_cons, readGroup_header h₁ [] (by decide), Except.ok_bind]
  cases ms with
  | nil =>
    rw [List.map_nil, groups, List.foldlM_cons, readGroup_header h₂ [] (by decide)]
    rfl
  | cons m ms =>
    have hrest := foldlM_members (m :: ms) [] (by decide : 2 > 1)
    rw [List.map_cons] at hrest
    rw [List.map_cons, groups_cons_cons, List.foldlM_cons, readGroup_header h₂ [] (by decide),
      Except.ok_bind, hrest]
    rfl

end PortChannel
