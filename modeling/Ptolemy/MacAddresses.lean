/-
# MAC addresses

The tables for ARP, bridges and neighbours are joined by MAC addresses as texts, which three
functions make of what the devices say: `normalise_mac_address` of hexadecimal octets between
colons or points, and `pretty_print_mac_address` of what `integers_to_hex` and `binary_to_hex`
give.  All three give the text `canonical`, which determines the octets.
-/
import Ptolemy.HexText
import Ptolemy.PostRemap

namespace Mac

/-! ## The functions -/

/-- `s.zfill(n)`, on characters: a sign stays in front. -/
def zfill (n : ℕ) (s : List Char) : List Char :=
  match s with
  | [] => List.replicate n '0'
  | c :: cs =>
      if c = '+' ∨ c = '-' then c :: (List.replicate (n - s.length) '0' ++ cs)
      else List.replicate (n - s.length) '0' ++ s

def _normalise_mac_address (v : List Char) : List Char :=
  let v := if ['0', 'x'].isPrefixOf v then Driver.replaceChars ['0', 'x'] 0 v else v
  zfill 2 (v.map Char.toLower)

/-- Two octets each, between points. -/
def format (mac_addr : List (List Char)) : List Char :=
  [0, 2, 4].foldl (fun m i =>
    let m := m ++ mac_addr.getD i [] ++ mac_addr.getD (i + 1) []
    if i % 2 = 0 ∧ i < 4 then m ++ ['.'] else m) []

/-- What stands between octets becomes a space. -/
def separate (c : Char) : Char := if c = '"' ∨ c = ':' ∨ c = '.' then ' ' else c

/-- One character: the octets that are finished, and the characters of the next one. -/
def readChar (st : List (List Char) × List Char) (d : Char) : List (List Char) × List Char :=
  if d = ' ' then (st.1 ++ [_normalise_mac_address st.2], []) else (st.1, st.2 ++ [d])

def normalise_mac_address (v : Option String) : Option String :=
  match v with
  | none => none
  | some v =>
    let st := ((Text.strip (v.toList.map Char.toLower)).map separate).foldl readChar ([], [])
    let mac_addr := st.1 ++ [_normalise_mac_address st.2]
    if mac_addr.length = 6 then some (String.ofList (format mac_addr)) else none

/-- `split(r'(\\.|\\:)', v)`: the pieces, and between them what separates them. -/
def splitKeeping : List Char → List (List Char)
  | [] => [[]]
  | c :: cs =>
      if c = '.' ∨ c = ':' then [] :: [c] :: splitKeeping cs
      else match splitKeeping cs with
        | [] => [[c]]
        | p :: ps => (c :: p) :: ps

/-- The items at even places. -/
def evens : List (List Char) → List (List Char)
  | [] => []
  | [a] => [a]
  | a :: _ :: l => a :: evens l

def _pretty_print_mac_address (array : List (List Char)) : Option String :=
  if array.length = 6 then some (String.ofList (format (array.map _normalise_mac_address)))
  else none

def pretty_print_mac_address (v : String) : Option String :=
  _pretty_print_mac_address (evens (splitKeeping v.toList))

def binary_to_hex (v : List UInt8) : String :=
  Text.join "." (v.map (fun i => String.ofList (Hex.octet i)))

/-- `hex(n)`; a number that needs more than 64 bits is marked. -/
def hex (n : ℤ) : String :=
  (if n < 0 then "-0x" else "0x") ++ String.ofList (Nat.toDigits 16 n.natAbs)
    ++ (if -2 ^ 63 ≤ n ∧ n < 2 ^ 63 then "" else "L")

/-- `hex(int(i))`. -/
def hexOfText (i : String) : Except Exn String :=
  match Text.int? i with
  | none => .error (.valueError ("invalid literal for int() with base 10: '" ++ i ++ "'"))
  | some n => .ok (hex n)

def integers_to_hex (v : String) : Except Exn String :=
  ((Text.split '.' v).mapM hexOfText).map (Text.join ".")

/-! ## One octet -/

/-- The texts in lower case for an octet: with or without a prefix or a leading zero. -/
def Lower (b : UInt8) (t : List Char) : Prop :=
  ∃ d, (t = d ∨ t = '0' :: 'x' :: d)
    ∧ (d = Hex.octet b ∨ b.toNat < 16 ∧ d = [Nat.digitChar b.toNat])

/-- The texts for an octet, each letter in either case. -/
def Spells (b : UInt8) (t : List Char) : Prop := Lower b (t.map Char.toLower)

/-- What holds of digits and of `x` holds of each character of a text for an octet. -/
theorem Lower.forall_mem {P : Char → Prop} (hdigit : ∀ n < 16, P (Nat.digitChar n)) (hx : P 'x')
    {b : UInt8} {t : List Char} (h : Lower b t) : ∀ c ∈ t, P c := by
  obtain ⟨d, ht, hd⟩ := h
  have hd' : ∀ c ∈ d, P c := by
    rcases hd with rfl | ⟨hb, rfl⟩
    · exact Hex.forall_mem_octet hdigit b
    · intro c hc
      rw [List.mem_singleton.mp hc]
      exact hdigit _ hb
  rcases ht with rfl | rfl
  · exact hd'
  · intro c hc
    rcases List.mem_cons.mp hc with rfl | hc
    · exact hdigit 0 (by decide)
    · rcases List.mem_cons.mp hc with rfl | hc
      · exact hx
      · exact hd' c hc

/-- Nothing is left out of a text without the letter of the prefix. -/
theorem replaceChars_of_notMem {l : List Char} (h : 'x' ∉ l) :
    Driver.replaceChars ['0', 'x'] 0 l = l :=
  Driver.replaceChars_of_not_prefix
    (fun _ hsuffix hstart => h (hsuffix.subset (hstart.subset (by decide))))

/-- **One octet**: every text for it becomes its two digits. -/
theorem normalise_lower {b : UInt8} {t : List Char} (h : Lower b t) :
    _normalise_mac_address t = Hex.octet b := by
  obtain ⟨d, ht, hd⟩ := h
  have hx : 'x' ∉ d := by
    have hdigit : ∀ n < 16, Nat.digitChar n ≠ 'x' := by decide
    rcases hd with rfl | ⟨hb, rfl⟩
    · exact fun hmem => Hex.forall_mem_octet (P := fun c => c ≠ 'x') hdigit b 'x' hmem rfl
    · exact fun hmem => hdigit _ hb (List.mem_singleton.mp hmem).symm
  -- the prefix goes
  have hplain : (if ['0', 'x'].isPrefixOf t then Driver.replaceChars ['0', 'x'] 0 t else t) = d := by
    rcases ht with rfl | rfl
    · rw [if_neg]
      intro hprefix
      exact hx ((List.isPrefixOf_iff_prefix.mp hprefix).subset (by decide))
    · have hprefix : ['0', 'x'].isPrefixOf ('0' :: 'x' :: d) = true :=
        List.isPrefixOf_iff_prefix.mpr ⟨d, rfl⟩
      rw [if_pos hprefix]
      unfold Driver.replaceChars
      rw [if_pos ⟨List.cons_ne_nil _ _, hprefix⟩]
      exact replaceChars_of_notMem hx
  -- the leading zero comes
  have hfill : ∀ n < 16, zfill 2 [(Nat.digitChar n).toLower] = ['0', Nat.digitChar n] := by decide
  have hpair : ∀ n < 16, ∀ m < 16, zfill 2 [(Nat.digitChar n).toLower, (Nat.digitChar m).toLower]
      = [Nat.digitChar n, Nat.digitChar m] := by decide
  unfold _normalise_mac_address
  dsimp only
  rw [hplain]
  rcases hd with rfl | ⟨hb, rfl⟩
  · exact hpair _ (Hex.div_lt b) _ (Hex.mod_lt b)
  · have hdiv : b.toNat / 16 = 0 := Nat.div_eq_of_lt hb
    have hmod : b.toNat % 16 = b.toNat := Nat.mod_eq_of_lt hb
    rw [Hex.octet, hdiv, hmod]
    exact hfill _ hb

/-! ## Octets between separators -/

/-- The first piece, and the others behind their separators. -/
def joined (first : List Char) (rest : List (Char × List Char)) : List Char :=
  first ++ rest.flatMap (fun p => p.1 :: p.2)

theorem joined_cons (first : List Char) (p : Char × List Char) (rest : List (Char × List Char)) :
    joined first (p :: rest) = first ++ p.1 :: joined p.2 rest := rfl

/-- The octets that are read from pieces without spaces between spaces. -/
theorem foldl_readChar {first : List Char} {rest : List (Char × List Char)}
    (hfirst : ' ' ∉ first) (hrest : ∀ p ∈ rest, p.1 = ' ' ∧ ' ' ∉ p.2) (acc : List (List Char)) :
    ((joined first rest).foldl readChar (acc, [])).1
        ++ [_normalise_mac_address ((joined first rest).foldl readChar (acc, [])).2]
      = acc ++ (first :: rest.map Prod.snd).map _normalise_mac_address := by
  have hpiece : ∀ (t : List Char), ' ' ∉ t → ∀ (acc : List (List Char)) this,
      t.foldl readChar (acc, this) = (acc, this ++ t) := by
    intro t ht acc this
    induction t generalizing this with
    | nil => rw [List.foldl_nil, List.append_nil]
    | cons c t ih =>
      have hc : c ≠ ' ' := fun hc => ht (hc ▸ List.mem_cons_self)
      have hturn : readChar (acc, this) c = (acc, this ++ [c]) := if_neg hc
      rw [List.foldl_cons, hturn, ih (fun hmem => ht (List.mem_cons_of_mem c hmem)),
        List.append_assoc, List.singleton_append]
  induction rest generalizing first acc with
  | nil =>
    rw [joined, List.flatMap_nil, List.append_nil, hpiece first hfirst]
    rfl
  | cons p rest ih =>
    obtain ⟨hp, hp2⟩ := hrest p List.mem_cons_self
    have hturn : readChar (acc, [] ++ first) p.1 = (acc ++ [_normalise_mac_address first], []) := by
      rw [hp]
      rfl
    rw [joined_cons, List.foldl_append, hpiece first hfirst, List.foldl_cons, hturn,
      ih hp2 (fun q hq => hrest q (List.mem_cons_of_mem p hq)), List.append_assoc]
    rfl

/-- The pieces that points or colons separate. -/
theorem evens_splitKeeping {first : List Char} {rest : List (Char × List Char)}
    (hfirst : ∀ c ∈ first, c ≠ '.' ∧ c ≠ ':')
    (hrest : ∀ p ∈ rest, (p.1 = '.' ∨ p.1 = ':') ∧ ∀ c ∈ p.2, c ≠ '.' ∧ c ≠ ':') :
    evens (splitKeeping (joined first rest)) = first :: rest.map Prod.snd := by
  have hpiece : ∀ (t : List Char), (∀ c ∈ t, c ≠ '.' ∧ c ≠ ':') → ∀ l p ps,
      splitKeeping l = p :: ps → splitKeeping (t ++ l) = (t ++ p) :: ps := by
    intro t ht l p ps hl
    induction t with
    | nil => exact hl
    | cons c t ih =>
      obtain ⟨hdot, hcolon⟩ := ht c List.mem_cons_self
      rw [List.cons_append, splitKeeping, if_neg (not_or.mpr ⟨hdot, hcolon⟩),
        ih (fun c hc => ht c (List.mem_cons_of_mem _ hc))]
      rfl
  induction rest generalizing first with
  | nil =>
    have hsplit := hpiece first hfirst [] [] [] rfl
    rw [joined, List.flatMap_nil, hsplit, List.append_nil]
    rfl
  | cons p rest ih =>
    obtain ⟨hp, hp2⟩ := hrest p List.mem_cons_self
    have hhead : splitKeeping (p.1 :: joined p.2 rest)
        = [] :: [p.1] :: splitKeeping (joined p.2 rest) := by
      rw [splitKeeping, if_pos hp]
    rw [joined_cons, hpiece first hfirst _ _ _ hhead, List.append_nil, evens,
      ih hp2 (fun q hq => hrest q (List.mem_cons_of_mem p hq))]
    rfl

/-! ## Six octets -/

abbrev Octets : Type := Fin 6 → UInt8

/-- `xxxx.xxxx.xxxx`, in lower case. -/
def canonical (o : Octets) : String :=
  String.ofList (Hex.octet (o 0) ++ Hex.octet (o 1) ++ '.' :: (Hex.octet (o 2) ++ Hex.octet (o 3)
    ++ '.' :: (Hex.octet (o 4) ++ Hex.octet (o 5))))

/-- A text for each octet, between colons or points. -/
def Written (o : Octets) (text : String) : Prop :=
  ∃ first rest, text.toList = joined first rest ∧ (∀ p ∈ rest, p.1 = ':' ∨ p.1 = '.')
    ∧ List.Forall₂ Spells (List.ofFn o) (first :: rest.map Prod.snd)

/-- The octets in decimal numbers, between points. -/
def dottedDecimal (o : Octets) : String :=
  Text.join "." ((List.ofFn o).map (fun b => toString (b.toNat : ℤ)))

theorem format_octets (o : Octets) :
    String.ofList (format ((List.ofFn o).map Hex.octet)) = canonical o := by
  rfl

/-- Every list of texts for octets becomes their digits. -/
theorem map_normalise {l : List UInt8} {ts : List (List Char)} (h : List.Forall₂ Lower l ts) :
    ts.map _normalise_mac_address = l.map Hex.octet := by
  induction h with
  | nil => rfl
  | cons hb _ ih => rw [List.map_cons, List.map_cons, normalise_lower hb, ih]

theorem map_joined (f : Char → Char) (first : List Char) (rest : List (Char × List Char)) :
    (joined first rest).map f = joined (first.map f) (rest.map (fun p => (f p.1, p.2.map f))) := by
  induction rest generalizing first with
  | nil => simp only [joined, List.flatMap_nil, List.append_nil, List.map_nil]
  | cons p rest ih =>
    rw [joined_cons, List.map_append, List.map_cons, List.map_cons, ih, joined_cons]

theorem forall_mem_joined {P : Char → Prop} {first : List Char} {rest : List (Char × List Char)}
    (hseparator : ∀ p ∈ rest, P p.1) (hpiece : ∀ t ∈ first :: rest.map Prod.snd, ∀ c ∈ t, P c) :
    ∀ c ∈ joined first rest, P c := by
  intro c hc
  rcases List.mem_append.mp hc with hc | hc
  · exact hpiece first List.mem_cons_self c hc
  · obtain ⟨p, hp, hc⟩ := List.mem_flatMap.mp hc
    rcases List.mem_cons.mp hc with rfl | hc
    · exact hseparator p hp
    · exact hpiece p.2 (List.mem_cons_of_mem _ (List.mem_map_of_mem hp)) c hc

/-- **Hexadecimal octets between colons or points.** -/
theorem normalise_written {o : Octets} {text : String} (h : Written o text) :
    normalise_mac_address (some text) = some (canonical o) := by
  obtain ⟨first, rest, htext, hseparators, hspells⟩ := h
  have hlower : ∀ {P : Char → Prop}, (∀ n < 16, P (Nat.digitChar n)) → P 'x' →
      ∀ t ∈ first :: rest.map Prod.snd, ∀ c ∈ t, P c.toLower := by
    intro P hdigit hx t ht c hc
    obtain ⟨b, -, hb⟩ := exists_of_forall₂ hspells ht
    exact Lower.forall_mem hdigit hx hb _ (List.mem_map_of_mem hc)
  -- there is no space to strip
  have hspace : ∀ c ∈ (joined first rest).map Char.toLower, Text.isSpace c = false := by
    intro c hc
    obtain ⟨c', hc', rfl⟩ := List.mem_map.mp hc
    refine forall_mem_joined (P := fun c => Text.isSpace c.toLower = false) (fun p hp => ?_)
      (hlower (P := fun c => Text.isSpace c = false) (by decide) (by decide)) c' hc'
    rcases hseparators p hp with hp | hp <;> rw [hp] <;> decide
  -- only what stands between the octets becomes a space
  have hpieces : List.Forall₂ Lower (List.ofFn o)
      ((first :: rest.map Prod.snd).map (List.map (separate ∘ Char.toLower))) := by
    have hsame : ∀ t ∈ first :: rest.map Prod.snd,
        t.map (separate ∘ Char.toLower) = t.map Char.toLower := fun t ht =>
      List.map_congr_left (hlower (P := fun c => separate c = c) (by decide) (by decide) t ht)
    rw [List.map_congr_left hsame]
    exact List.forall₂_map_right_iff.mpr hspells
  have hread : ((Text.strip (text.toList.map Char.toLower)).map separate).foldl readChar ([], [])
      = (joined (first.map (separate ∘ Char.toLower)) (rest.map (fun p =>
        ((separate ∘ Char.toLower) p.1, p.2.map (separate ∘ Char.toLower))))).foldl readChar
          ([], []) := by
    rw [htext, Text.strip_of_forall hspace, List.map_map, map_joined]
  have hmac : ∀ st : List (List Char) × List Char, st = (joined (first.map (separate ∘ Char.toLower))
      (rest.map (fun p => ((separate ∘ Char.toLower) p.1,
        p.2.map (separate ∘ Char.toLower))))).foldl readChar ([], []) →
      st.1 ++ [_normalise_mac_address st.2] = (List.ofFn o).map Hex.octet := by
    rintro st rfl
    have hnospace : ∀ t ∈ first :: rest.map Prod.snd,
        ' ' ∉ t.map (separate ∘ Char.toLower) := by
      intro t ht hmem
      obtain ⟨c, hc, hspace⟩ := List.mem_map.mp hmem
      exact hlower (P := fun c => separate c ≠ ' ') (by decide) (by decide) t ht c hc hspace
    rw [foldl_readChar (hnospace first List.mem_cons_self), List.nil_append, ← map_normalise hpieces]
    · simp only [List.map_cons, List.map_map]
      rfl
    · intro p hp
      obtain ⟨q, hq, rfl⟩ := List.mem_map.mp hp
      refine ⟨?_, hnospace q.2 (List.mem_cons_of_mem _ (List.mem_map_of_mem hq))⟩
      rcases hseparators q hq with hq | hq <;> simp only [Function.comp_apply, hq] <;> decide
  unfold normalise_mac_address
  dsimp only
  rw [hmac _ hread, if_pos (by simp), format_octets]

theorem toList_join (s : String) (l : List String) :
    (Text.join "." (s :: l)).toList = joined s.toList (l.map (fun t => ('.', t.toList))) := by
  induction l generalizing s with
  | nil => exact (List.append_nil _).symm
  | cons t l ih =>
    rw [Text.join, String.toList_append, String.toList_append, ih, List.map_cons, joined_cons]
    rfl

/-- **Hexadecimal octets in lower case, between points.** -/
theorem pretty_print_join {o : Octets} {ts : List String}
    (h : List.Forall₂ Lower (List.ofFn o) (ts.map String.toList)) :
    pretty_print_mac_address (Text.join "." ts) = some (canonical o) := by
  cases ts with
  | nil => cases h
  | cons s l =>
    have hpiece : ∀ t ∈ (s :: l).map String.toList, ∀ c ∈ t, c ≠ '.' ∧ c ≠ ':' := by
      intro t ht
      obtain ⟨b, -, hb⟩ := exists_of_forall₂ h ht
      exact hb.forall_mem (by decide) (by decide)
    have hevens : evens (splitKeeping (Text.join "." (s :: l)).toList)
        = (s :: l).map String.toList := by
      rw [toList_join, evens_splitKeeping (hpiece _ List.mem_cons_self)]
      · simp only [List.map_map, List.map_cons]
        rfl
      · intro p hp
        obtain ⟨t, ht, rfl⟩ := List.mem_map.mp hp
        exact ⟨Or.inl rfl, hpiece t.toList (List.mem_map_of_mem (List.mem_cons_of_mem s ht))⟩
    have hlen : ((s :: l).map String.toList).length = 6 := by
      rw [← h.length_eq, List.length_ofFn]
    unfold pretty_print_mac_address _pretty_print_mac_address
    rw [hevens, if_pos hlen, map_normalise h, format_octets]

theorem pretty_print_binary (o : Octets) :
    pretty_print_mac_address (binary_to_hex (List.ofFn o)) = some (canonical o) := by
  unfold binary_to_hex
  apply pretty_print_join
  rw [List.map_map, List.forall₂_map_right_iff, List.forall₂_same]
  intro b _
  rw [Function.comp_apply, String.toList_ofList]
  exact ⟨Hex.octet b, Or.inl rfl, Or.inl rfl⟩

/-- The hexadecimal text of an octet as a number. -/
theorem lower_hex (b : UInt8) : Lower b (hex (b.toNat : ℤ)).toList := by
  have hlt := b.toNat_lt
  have hlist : (hex (b.toNat : ℤ)).toList = '0' :: 'x' :: Nat.toDigits 16 b.toNat := by
    unfold hex
    rw [if_neg (by omega), if_pos (by omega), Int.natAbs_natCast, String.append_empty,
      String.toList_append]
    exact congrArg (['0', 'x'] ++ ·) String.toList_ofList
  refine ⟨Nat.toDigits 16 b.toNat, Or.inr hlist, ?_⟩
  by_cases hb : b.toNat < 16
  · exact Or.inr ⟨hb, Nat.toDigits_of_lt_base hb⟩
  · left
    rw [Nat.toDigits_of_base_le (by decide) (by omega), Nat.toDigits_of_lt_base (Hex.div_lt b)]
    rfl

theorem integers_to_hex_dotted (o : Octets) : integers_to_hex (dottedDecimal o)
    = .ok (Text.join "." ((List.ofFn o).map (fun b => hex (b.toNat : ℤ)))) := by
  have hsplit : Text.split '.' (dottedDecimal o)
      = (List.ofFn o).map (fun b => toString (b.toNat : ℤ)) := by
    refine Text.split_join '.' _ (by simp) (fun s hs => ?_)
    obtain ⟨b, -, rfl⟩ := List.mem_map.mp hs
    exact Text.notMem_toString (by decide) (by decide) _
  have hmap : ((List.ofFn o).map (fun b => toString (b.toNat : ℤ))).mapM hexOfText
      = .ok ((List.ofFn o).map (fun b => hex (b.toNat : ℤ))) := by
    rw [List.mapM_map]
    refine Except.mapM_eq_map (fun b _ => ?_)
    rw [Function.comp_apply, hexOfText, Text.int?_toString]
  unfold integers_to_hex
  rw [hsplit, hmap]
  rfl

theorem pretty_print_integers (o : Octets) : ∃ t, integers_to_hex (dottedDecimal o) = .ok t
    ∧ pretty_print_mac_address t = some (canonical o) := by
  refine ⟨_, integers_to_hex_dotted o, ?_⟩
  apply pretty_print_join
  rw [List.map_map, List.forall₂_map_right_iff, List.forall₂_same]
  exact fun b _ => lower_hex b

/-- **The text determines the octets.** -/
theorem canonical_injective : Function.Injective canonical := by
  intro o o' h
  have hlist := congrArg String.toList h
  unfold canonical at hlist
  rw [String.toList_ofList, String.toList_ofList] at hlist
  simp only [Hex.octet, List.cons_append, List.nil_append, List.cons.injEq, and_true,
    true_and] at hlist
  obtain ⟨h0, h0', h1, h1', h2, h2', h3, h3', h4, h4', h5, h5'⟩ := hlist
  have hpair : ∀ a b : UInt8, Nat.digitChar (a.toNat / 16) = Nat.digitChar (b.toNat / 16) →
      Nat.digitChar (a.toNat % 16) = Nat.digitChar (b.toNat % 16) → a = b := by
    intro a b hdiv hmod
    apply Hex.octet_injective
    rw [Hex.octet, Hex.octet, hdiv, hmod]
  funext i
  fin_cases i
  · exact hpair _ _ h0 h0'
  · exact hpair _ _ h1 h1'
  · exact hpair _ _ h2 h2'
  · exact hpair _ _ h3 h3'
  · exact hpair _ _ h4 h4'
  · exact hpair _ _ h5 h5'

/-- **The formatters agree**: decimal numbers, raw octets and hexadecimal octets in any spelling
all become the same text, and other octets another one. -/
theorem formatters_agree (o : Octets) :
    (∃ t, integers_to_hex (dottedDecimal o) = .ok t
        ∧ pretty_print_mac_address t = some (canonical o))
      ∧ pretty_print_mac_address (binary_to_hex (List.ofFn o)) = some (canonical o)
      ∧ (∀ text, Written o text → normalise_mac_address (some text) = some (canonical o))
      ∧ ∀ o', o' ≠ o → canonical o' ≠ canonical o :=
  ⟨pretty_print_integers o, pretty_print_binary o, fun _ h => normalise_written h,
    fun _ hne h => hne (canonical_injective h)⟩

end Mac
