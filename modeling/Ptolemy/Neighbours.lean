/-
# Neighbours

Devices report their neighbours by LLDP or CDP, each with its own optional fields.
`post_normalise_layer1_peer` turns the record of a neighbour into one form: the address goes
under the name of its kind, and the string of capability bits becomes a field for each bit.

The function changes the record in place, field by field, so that a statement that raises
leaves a record that is half changed.  `normalisesPeer_iff` says which records are normalised.
-/
import Ptolemy.MacAddresses
import Ptolemy.AccessPoints

namespace Driver

/-! ## Statements that change a record -/

/-- Statements that change a record in place: what was changed before one raises stays. -/
abbrev Edit : Type → Type := EStateM Exn Record

namespace Edit

def getItem (f : String) : Edit Value := fun r =>
  match r.lookup f with
  | none => .error (.keyError f) r
  | some v => .ok v r

def setItem (f : String) (v : Value) : Edit Unit := fun r => .ok () (r.insert f v)

def delItem (f : String) : Edit Unit := fun r =>
  if f ∈ r then .ok () (r.erase f) else .error (.keyError f) r

/-- A value that is computed, or an exception. -/
def lift {α : Type} (x : Except Exn α) : Edit α := fun r =>
  match x with
  | .error e => .error e r
  | .ok a => .ok a r

/-- A sequence that does not raise: neither part did. -/
theorem bind_eq_ok {α β : Type} {x : Edit α} {f : α → Edit β} {r r' : Record} {b : β} :
    (x >>= f) r = .ok b r' ↔ ∃ a s, x r = .ok a s ∧ f a s = .ok b r' := by
  show EStateM.bind x f r = _ ↔ _
  rw [EStateM.bind]
  cases h : x r with
  | ok a s => exact ⟨fun h' => ⟨a, s, rfl, h'⟩, fun ⟨_, _, hx, hf⟩ => by cases hx; exact hf⟩
  | error e s => exact ⟨fun h' => (by cases h'), fun ⟨_, _, hx, _⟩ => (by cases hx)⟩

theorem getItem_eq_ok {f : String} {r r' : Record} {v : Value} :
    getItem f r = .ok v r' ↔ r.lookup f = some v ∧ r' = r := by
  unfold getItem
  cases r.lookup f with
  | none => exact ⟨fun h => (by cases h), fun h => (by cases h.1)⟩
  | some u => exact ⟨fun h => (by cases h; exact ⟨rfl, rfl⟩),
      fun ⟨h, hr⟩ => by cases h; rw [hr]⟩

theorem setItem_eq_ok {f : String} {v : Value} {r r' : Record} {u : Unit} :
    setItem f v r = .ok u r' ↔ r' = r.insert f v :=
  ⟨fun h => (by cases h; rfl), fun h => (by rw [h]; rfl)⟩

theorem delItem_eq_ok {f : String} {r r' : Record} {u : Unit} :
    delItem f r = .ok u r' ↔ f ∈ r ∧ r' = r.erase f := by
  unfold delItem
  split_ifs with h
  · exact ⟨fun heq => (by cases heq; exact ⟨h, rfl⟩), fun ⟨_, heq⟩ => (by rw [heq])⟩
  · exact ⟨fun heq => (by cases heq), fun ⟨hmem, _⟩ => absurd hmem h⟩

theorem lift_eq_ok {α : Type} {x : Except Exn α} {r r' : Record} {a : α} :
    lift x r = .ok a r' ↔ x = .ok a ∧ r' = r := by
  unfold lift
  cases x with
  | error e => exact ⟨fun h => (by cases h), fun h => (by cases h.1)⟩
  | ok b => exact ⟨fun h => (by cases h; exact ⟨rfl, rfl⟩), fun ⟨h, hr⟩ => by cases h; rw [hr]⟩

end Edit

/-! ## Addresses -/

/-- The octets of a text, whose characters stand for them. -/
def octets (s : List Char) : Except Exn (List UInt8) :=
  s.mapM (fun c => if c.toNat < 256 then .ok (UInt8.ofNat c.toNat)
    else .error (.valueError "ordinal not in range(256)"))

/-- `binary_to_hex`, of a text or of a list of texts. -/
def binaryToHex : Value → Except Exn String
  | .str s => (octets s.toList).map Mac.binary_to_hex
  | .list l => (l.mapM (fun i => octets i.toList)).map
      (fun bs => Text.join "." (bs.map (fun b => String.ofList (Hex.encode b))))
  | .none => .error (.typeError "'NoneType' object is not iterable")
  | _ => .error (.typeError "object is not iterable")

/-- The number of hexadecimal digits, behind an optional prefix. -/
def hexDigits? (l : List Char) : Option ℕ :=
  let digits := match l with
    | '0' :: 'x' :: l => l
    | '0' :: 'X' :: l => l
    | l => l
  if digits = [] then none
  else digits.foldlM (fun n c => (Hex.value? c).map (fun d => 16 * n + d)) 0

/-- `int(s, 16)`. -/
def hexInt? (s : String) : Option ℤ :=
  match Text.strip s.toList with
  | '-' :: l => (hexDigits? l).map (fun n => -(n : ℤ))
  | '+' :: l => (hexDigits? l).map (fun n => (n : ℤ))
  | l => (hexDigits? l).map (fun n => (n : ℤ))

/-- `str(int(i, 16))`. -/
def decimalOfHex (i : String) : Except Exn String :=
  match hexInt? i with
  | none => .error (.valueError ("invalid literal for int() with base 16: '" ++ i ++ "'"))
  | some n => .ok (toString n)

def normaliseIpAddress : Value → Except Exn (Option String)
  | .list l =>
      if l.length = 4 then (l.mapM decimalOfHex).map (fun this => some (Text.join "." this))
      else .ok none
  | _ => .ok none

/-- A text, or `None`. -/
def ofText : Option String → Value
  | none => .none
  | some s => .str s

/-- `v.split('.')`. -/
def splitDots : Value → Except Exn (List String)
  | .str s => .ok (Text.split '.' s)
  | _ => .error (.attributeError "split")

/-! ## The function -/

open Edit

def LLDP_CAPABILITY : List String :=
  ["other", "repeater", "bridge", "access_point", "router", "telephone", "docsis", "station"]

def convertNetworkAddress : Edit Unit := do
  let port ← getItem "peer_physical_port"
  let hex ← lift (binaryToHex port)
  setItem "peer_mac_address" (ofText (Mac.normalise_mac_address (some hex)))
  let address ← getItem "peer_address"
  let pieces ← lift (splitDots address)
  let hex ← lift (binaryToHex (.list (pieces.drop 1)))
  let ip ← lift (normaliseIpAddress (.str hex))
  setItem "peer_ip_address" (ofText ip)
  delItem "peer_physical_port"
  delItem "peer_address"

/-- The address, under the name of its kind. -/
def convertAddress (type : Value) : Edit Unit := fun r =>
  if type = .str "networkAddress" then convertNetworkAddress r
  else if type = .str "macAddress" then delItem "peer_address" r
  else if type = .str "ip" ∧ "peer_address" ∈ r then
    (do
      let address ← getItem "peer_address"
      setItem "peer_ip_address" address
      delItem "peer_address") r
  else .ok () r

/-- The name of the field for a capability. -/
def capabilityField (c : String) : String := "capability_" ++ c

/-- The fields for the bits from the `x`th on. -/
def setCapabilities : ℕ → List String → Edit Unit
  | _, [] => pure ()
  | x, b :: bits => do
    if b = "1" then
      match LLDP_CAPABILITY[x]? with
      | none => throw (.exception "list index out of range")
      | some c => setItem (capabilityField c) (.bool true)
    setCapabilities (x + 1) bits

/-- The characters of a text, or the elements of a list; the fields that the loop sets are
others. -/
def bitsOf : Value → Except Exn (List String)
  | .str s => .ok (s.toList.map String.singleton)
  | .list l => .ok l
  | _ => .error (.typeError "object has no len()")

def convertCapabilities : Edit Unit := fun r =>
  if "peer_capabilities_lldp" ∈ r then
    (do
      let v ← getItem "peer_capabilities_lldp"
      let bits ← lift (bitsOf v)
      setCapabilities 0 bits
      delItem "peer_capabilities_lldp") r
  else .ok () r

/-- What is done where the kind of the address is there. -/
def convertKind : Edit Unit := fun r =>
  match r.lookup "peer_address_type" with
  | none => .ok () r
  | some type => convertAddress type r

/-- What is done to the record of a neighbour; its kind is deleted also where it is not there. -/
def normalisePeer : Edit Unit := do
  convertKind
  delItem "peer_address_type"
  convertCapabilities

def postNormaliseLayer1Peer (g : String) (d : Ref) (w : World) : Yields :=
  if g = "neighbour" then
    match normalisePeer (w.records d) with
    | .ok _ r => ⟨[some (g, d)], w.set d r, none⟩
    | .error e r => Yields.raise (w.set d r) e
  else ⟨[some (g, d)], w, none⟩

/-! ## The normal form -/

/-- The fields that the address of a kind goes through. -/
def addressFields (type : Value) : List String :=
  if type = .str "networkAddress" then
    ["peer_mac_address", "peer_ip_address", "peer_physical_port", "peer_address"]
  else if type = .str "macAddress" then ["peer_address"]
  else if type = .str "ip" then ["peer_ip_address", "peer_address"]
  else []

/-- The `x`th bit of the capabilities is 1. -/
def HasBit (r : Record) (x : ℕ) : Prop :=
  ∃ s, r.lookup "peer_capabilities_lldp" = some (.str s) ∧ s.toList[x]? = some '1'

/-- **The record of a neighbour in its form**: no field is left that only tells how to read
others, each capability has a field just if its bit is 1, and unrelated fields are kept. -/
structure Normalised (r r' : Record) : Prop where
  type : "peer_address_type" ∉ r'
  capabilities : "peer_capabilities_lldp" ∉ r'
  bit : ∀ x c, LLDP_CAPABILITY[x]? = some c → HasBit r x →
    r'.lookup (capabilityField c) = some (.bool true)
  noBit : ∀ x c, LLDP_CAPABILITY[x]? = some c → ¬ HasBit r x → capabilityField c ∉ r'
  rest : ∀ f, f ≠ "peer_address_type" → f ≠ "peer_capabilities_lldp" →
    (∀ c ∈ LLDP_CAPABILITY, f ≠ capabilityField c) →
    (∀ type, r.lookup "peer_address_type" = some type → f ∉ addressFields type) →
    r'.lookup f = r.lookup f

/-- The characters of a text are octets. -/
def Octets (s : List Char) : Prop := ∀ c ∈ s, c.toNat < 256

/-- What `binary_to_hex` reads. -/
def Encodable : Value → Prop
  | .str s => Octets s.toList
  | .list l => ∀ i ∈ l, Octets i.toList
  | _ => False

/-- The fields are there that the address of a kind is read from. -/
def Addressed (type : Value) (r : Record) : Prop :=
  (type = .str "networkAddress" → (∃ port, r.lookup "peer_physical_port" = some port ∧ Encodable port)
      ∧ ∃ a, r.lookup "peer_address" = some (.str a)
        ∧ ∀ s ∈ (Text.split '.' a).drop 1, Octets s.toList)
    ∧ (type = .str "macAddress" → "peer_address" ∈ r)

/-- The kind of the address is there, the address can be read, and no capability is there
before, unless its bit is 1. -/
def Normalisable (r : Record) : Prop :=
  (∃ type, r.lookup "peer_address_type" = some type ∧ Addressed type r)
    ∧ ∀ x c, LLDP_CAPABILITY[x]? = some c → capabilityField c ∈ r → HasBit r x

/-! ## Addresses that can be read -/

theorem exists_mapM_eq_ok {ε α β : Type} {f : α → Except ε β} {l : List α} :
    (∃ ys, l.mapM f = .ok ys) ↔ ∀ a ∈ l, ∃ y, f a = .ok y := by
  induction l with
  | nil => exact ⟨fun _ a ha => absurd ha List.not_mem_nil, fun _ => ⟨[], rfl⟩⟩
  | cons a l ih =>
    rw [List.mapM_cons, List.forall_mem_cons, ← ih]
    constructor
    · rintro ⟨ys, h⟩
      obtain ⟨y, hy, h⟩ := Except.bind_eq_ok.mp h
      obtain ⟨zs, hzs, -⟩ := Except.bind_eq_ok.mp h
      exact ⟨⟨y, hy⟩, zs, hzs⟩
    · rintro ⟨⟨y, hy⟩, ys, hys⟩
      exact ⟨y :: ys, by rw [hy, Except.ok_bind, hys, Except.ok_bind]; rfl⟩

theorem exists_map_eq_ok {ε α β : Type} {f : α → β} {x : Except ε α} :
    (∃ b, x.map f = .ok b) ↔ ∃ a, x = .ok a := by
  cases x with
  | error e => exact ⟨fun ⟨_, h⟩ => (by cases h), fun ⟨_, h⟩ => (by cases h)⟩
  | ok a => exact ⟨fun _ => ⟨a, rfl⟩, fun _ => ⟨f a, rfl⟩⟩

theorem exists_octets_eq_ok {s : List Char} : (∃ bs, octets s = .ok bs) ↔ Octets s := by
  unfold octets Octets
  rw [exists_mapM_eq_ok]
  refine forall₂_congr (fun c _ => ?_)
  by_cases hc : c.toNat < 256
  · rw [if_pos hc]
    exact ⟨fun _ => hc, fun _ => ⟨_, rfl⟩⟩
  · rw [if_neg hc]
    exact ⟨fun ⟨_, h⟩ => (by cases h), fun h => absurd h hc⟩

theorem exists_binaryToHex {v : Value} : (∃ hex, binaryToHex v = .ok hex) ↔ Encodable v := by
  cases v with
  | str s => exact exists_map_eq_ok.trans exists_octets_eq_ok
  | list l =>
    exact exists_map_eq_ok.trans (exists_mapM_eq_ok.trans
      (forall₂_congr (fun i _ => exists_octets_eq_ok)))
  | none => exact ⟨fun ⟨_, h⟩ => (by cases h), False.elim⟩
  | bool b => exact ⟨fun ⟨_, h⟩ => (by cases h), False.elim⟩
  | int n => exact ⟨fun ⟨_, h⟩ => (by cases h), False.elim⟩
  | float t => exact ⟨fun ⟨_, h⟩ => (by cases h), False.elim⟩

theorem splitDots_eq_ok {v : Value} {l : List String} :
    splitDots v = .ok l ↔ ∃ s, v = .str s ∧ l = Text.split '.' s := by
  cases v with
  | str s => exact ⟨fun h => ⟨s, rfl, (Except.ok.inj h).symm⟩, fun ⟨_, h, hl⟩ => by cases h; rw [hl]; rfl⟩
  | _ => exact ⟨fun h => (by cases h), fun ⟨_, h, _⟩ => (by cases h)⟩

/-- **Network addresses**: where nothing is raised, both fields could be read. -/
theorem convertNetworkAddress_eq_ok {r r' : Record} {u : Unit} :
    convertNetworkAddress r = .ok u r' ↔
      ∃ port hex a hex', r.lookup "peer_physical_port" = some port ∧ binaryToHex port = .ok hex
        ∧ r.lookup "peer_address" = some (.str a)
        ∧ binaryToHex (.list ((Text.split '.' a).drop 1)) = .ok hex'
        ∧ r' = ((((r.insert "peer_mac_address" (ofText (Mac.normalise_mac_address (some hex)))).insert
          "peer_ip_address" .none).erase "peer_physical_port").erase "peer_address") := by
  unfold convertNetworkAddress
  simp only [bind_eq_ok, getItem_eq_ok, lift_eq_ok, setItem_eq_ok, delItem_eq_ok, splitDots_eq_ok]
  constructor
  · rintro ⟨port, s, ⟨hport, rfl⟩, hex, s, ⟨hhex, rfl⟩, _, s, rfl, _, t, ⟨ha, rfl⟩, _, t,
      ⟨⟨a, rfl, rfl⟩, rfl⟩, hex', t, ⟨hhex', rfl⟩, ip, t, ⟨hip, rfl⟩, _, t', rfl, _, v,
      ⟨-, rfl⟩, -, rfl⟩
    rw [AList.lookup_insert_ne (by decide)] at ha
    cases hip
    exact ⟨port, hex, a, hex', hport, hhex, ha, hhex', rfl⟩
  · rintro ⟨port, hex, a, hex', hport, hhex, ha, hhex', rfl⟩
    have hmem : ∀ {f : String} {v : Value}, r.lookup f = some v → ∀ (k k' : String) (u u' : Value),
        f ∈ (r.insert k u).insert k' u' := fun h k k' u u' =>
      (AList.mem_insert _).mpr (Or.inr ((AList.mem_insert _).mpr (Or.inr
        (Dict.mem_iff_lookup.mpr ⟨_, h⟩))))
    exact ⟨port, r, ⟨hport, rfl⟩, hex, r, ⟨hhex, rfl⟩, (), _, rfl, .str a, _,
      ⟨(AList.lookup_insert_ne (by decide)).trans ha, rfl⟩, Text.split '.' a, _,
      ⟨⟨a, rfl, rfl⟩, rfl⟩, hex', _, ⟨hhex', rfl⟩, none, _, ⟨rfl, rfl⟩, (), _, rfl, (), _,
      ⟨hmem hport _ _ _ _, rfl⟩, AList.mem_erase.mpr ⟨by decide, hmem ha _ _ _ _⟩, rfl⟩

/-- The address of a kind is converted just when its fields are there. -/
theorem exists_convertAddress {type : Value} {r : Record} :
    (∃ r', convertAddress type r = .ok () r') ↔ Addressed type r := by
  unfold convertAddress Addressed
  by_cases hnet : type = .str "networkAddress"
  · subst hnet
    rw [if_pos rfl]
    simp only [convertNetworkAddress_eq_ok]
    constructor
    · rintro ⟨r', port, hex, a, hex', hport, hhex, ha, hhex', -⟩
      refine ⟨fun _ => ⟨⟨port, hport, exists_binaryToHex.mp ⟨hex, hhex⟩⟩, a, ha,
        exists_binaryToHex.mp ⟨hex', hhex'⟩⟩, fun h => ?_⟩
      exact absurd h (by decide)
    · rintro ⟨h, -⟩
      obtain ⟨⟨port, hport, henc⟩, a, ha, hbytes⟩ := h trivial
      obtain ⟨hex, hhex⟩ := exists_binaryToHex.mpr henc
      obtain ⟨hex', hhex'⟩ := exists_binaryToHex (v := .list ((Text.split '.' a).drop 1)).mpr hbytes
      exact ⟨_, port, hex, a, hex', hport, hhex, ha, hhex', rfl⟩
  · rw [if_neg hnet]
    by_cases hmac : type = .str "macAddress"
    · subst hmac
      rw [if_pos rfl]
      simp only [delItem_eq_ok]
      exact ⟨fun ⟨_, h, _⟩ => ⟨fun heq => absurd heq (by decide), fun _ => h⟩,
        fun ⟨_, h⟩ => ⟨_, h trivial, rfl⟩⟩
    · rw [if_neg hmac]
      refine iff_of_true ?_ ⟨fun h => absurd h hnet, fun h => absurd h hmac⟩
      split_ifs with hip
      · obtain ⟨a, ha⟩ := Dict.mem_iff_lookup.mp hip.2
        simp only [bind_eq_ok, getItem_eq_ok, setItem_eq_ok, delItem_eq_ok]
        exact ⟨_, a, r, ⟨ha, rfl⟩, (), _, rfl, (AList.mem_insert _).mpr (Or.inr hip.2), rfl⟩
      · exact ⟨r, rfl⟩

/-- Fields that the address of a kind does not go through are kept. -/
theorem lookup_convertAddress {type : Value} {r r' : Record} {u : Unit}
    (h : convertAddress type r = .ok u r') {f : String} (hf : f ∉ addressFields type) :
    r'.lookup f = r.lookup f := by
  unfold convertAddress at h
  unfold addressFields at hf
  by_cases hnet : type = .str "networkAddress"
  · rw [if_pos hnet] at h hf
    obtain ⟨port, hex, a, hex', -, -, -, -, rfl⟩ := convertNetworkAddress_eq_ok.mp h
    simp only [List.mem_cons, List.not_mem_nil, or_false, not_or] at hf
    obtain ⟨hmac, hip, hport, ha⟩ := hf
    rw [AList.lookup_erase_ne ha, AList.lookup_erase_ne hport, AList.lookup_insert_ne hip,
      AList.lookup_insert_ne hmac]
  · rw [if_neg hnet] at h hf
    by_cases hmac : type = .str "macAddress"
    · rw [if_pos hmac] at h hf
      obtain ⟨-, rfl⟩ := delItem_eq_ok.mp h
      exact AList.lookup_erase_ne (fun heq => hf (List.mem_singleton.mpr heq))
    · rw [if_neg hmac] at h hf
      by_cases hip : type = .str "ip" ∧ "peer_address" ∈ r
      · rw [if_pos hip] at h
        rw [if_pos hip.1] at hf
        simp only [bind_eq_ok, getItem_eq_ok, setItem_eq_ok, delItem_eq_ok] at h
        obtain ⟨a, s, ⟨-, rfl⟩, _, t, rfl, -, rfl⟩ := h
        simp only [List.mem_cons, List.not_mem_nil, or_false, not_or] at hf
        rw [AList.lookup_erase_ne hf.2, AList.lookup_insert_ne hf.1]
      · rw [if_neg hip] at h
        cases h
        rfl

/-! ## Capability bits -/

/-- `f` is the field of a bit that is 1, where the first of the bits is the `x`th. -/
def Sets (x : ℕ) (bits : List String) (f : String) : Prop :=
  ∃ i c, bits[i]? = some "1" ∧ LLDP_CAPABILITY[x + i]? = some c ∧ f = capabilityField c

theorem sets_cons {x : ℕ} {b : String} {bits : List String} {f : String} :
    Sets x (b :: bits) f ↔ (b = "1" ∧ ∃ c, LLDP_CAPABILITY[x]? = some c ∧ f = capabilityField c)
      ∨ Sets (x + 1) bits f := by
  constructor
  · rintro ⟨i, c, hi, hc, hf⟩
    cases i with
    | zero => exact Or.inl ⟨Option.some.inj hi, c, hc, hf⟩
    | succ i => exact Or.inr ⟨i, c, hi, by rw [show x + 1 + i = x + (i + 1) by omega]; exact hc, hf⟩
  · rintro (⟨rfl, c, hc, hf⟩ | ⟨i, c, hi, hc, hf⟩)
    · exact ⟨0, c, rfl, hc, hf⟩
    · exact ⟨i + 1, c, hi, by rw [show x + (i + 1) = x + 1 + i by omega]; exact hc, hf⟩

/-- **The loop over the bits**: eight have a name, and each that is 1 sets its field. -/
theorem setCapabilities_spec {bits : List String} {x : ℕ} (h : x + bits.length ≤ 8) (r : Record) :
    ∃ r', setCapabilities x bits r = .ok () r'
      ∧ (∀ f, Sets x bits f → r'.lookup f = some (.bool true))
      ∧ ∀ f, ¬ Sets x bits f → r'.lookup f = r.lookup f := by
  induction bits generalizing x r with
  | nil => exact ⟨r, rfl, fun f ⟨i, _, hi, _⟩ => (by cases hi), fun f _ => rfl⟩
  | cons b bits ih =>
    rw [List.length_cons] at h
    by_cases hb : b = "1"
    · have hlt : x < LLDP_CAPABILITY.length := by
        show x < 8
        omega
      obtain ⟨r', hr', hset, hkeep⟩ := ih (x := x + 1) (by omega)
        (r.insert (capabilityField LLDP_CAPABILITY[x]) (.bool true))
      have hc : LLDP_CAPABILITY[x]? = some LLDP_CAPABILITY[x] := List.getElem?_eq_getElem hlt
      refine ⟨r', ?_, fun f hf => ?_, fun f hf => ?_⟩
      · rw [setCapabilities, if_pos hb, hc]
        exact hr'
      · by_cases hmore : Sets (x + 1) bits f
        · exact hset f hmore
        · obtain ⟨-, c, hc', rfl⟩ := (sets_cons.mp hf).resolve_right hmore
          rw [hc] at hc'
          obtain rfl := Option.some.inj hc'
          rw [hkeep _ hmore, AList.lookup_insert]
      · rw [sets_cons, not_or] at hf
        rw [hkeep f hf.2, AList.lookup_insert_ne (fun heq => hf.1 ⟨hb, _, hc, heq⟩)]
    · obtain ⟨r', hr', hset, hkeep⟩ := ih (x := x + 1) (by omega) r
      refine ⟨r', ?_, fun f hf => ?_, fun f hf => ?_⟩
      · rw [setCapabilities, if_neg hb]
        exact hr'
      · exact hset f ((sets_cons.mp hf).resolve_left (fun hc => hb hc.1))
      · exact hkeep f (fun hmore => hf (sets_cons.mpr (Or.inr hmore)))

theorem capabilityField_injective : Function.Injective capabilityField := by
  intro c c' h
  have hlist := congrArg String.toList h
  unfold capabilityField at hlist
  rw [String.toList_append, String.toList_append] at hlist
  exact String.toList_inj.mp (List.append_cancel_left hlist)

/-- A capability has its own field. -/
theorem capabilityField_ne {f : String} (hf : f.toList.head? ≠ some 'c') (c : String) :
    f ≠ capabilityField c := by
  rintro rfl
  apply hf
  unfold capabilityField
  rw [String.toList_append]
  rfl

/-- The `x`th capability has its field set just if the `x`th bit is 1. -/
theorem sets_iff {bits : List String} {x : ℕ} {c : String} (hc : LLDP_CAPABILITY[x]? = some c) :
    Sets 0 bits (capabilityField c) ↔ bits[x]? = some "1" := by
  constructor
  · rintro ⟨i, c', hi, hc', heq⟩
    obtain rfl := capabilityField_injective heq
    have hnodup : LLDP_CAPABILITY.Nodup := by decide
    have hlt : x < LLDP_CAPABILITY.length := (List.getElem?_eq_some_iff.mp hc).1
    rw [Nat.zero_add] at hc'
    rw [(List.getElem?_inj hlt hnodup).mp (hc.trans hc'.symm)]
    exact hi
  · intro hx
    exact ⟨x, c, hx, by rw [Nat.zero_add]; exact hc, rfl⟩

/-- The string of the bits, where it is there, is a text of at most eight. -/
def EightBits (r : Record) : Prop :=
  ∀ v, r.lookup "peer_capabilities_lldp" = some v → ∃ s, v = .str s ∧ s.length ≤ 8

theorem eightBits_of_lookup {r : Record} {s : String}
    (h : r.lookup "peer_capabilities_lldp" = some (.str s)) (hs : s.length ≤ 8) : EightBits r := by
  intro v hv
  rw [h] at hv
  exact ⟨s, (Option.some.inj hv).symm, hs⟩

/-- The characters of a text as texts. -/
theorem getElem?_singletons {s : List Char} {x : ℕ} {c : Char} :
    (s.map String.singleton)[x]? = some (String.singleton c) ↔ s[x]? = some c := by
  rw [List.getElem?_map, Option.map_eq_some_iff]
  constructor
  · rintro ⟨c', hc', heq⟩
    rw [hc', String.singleton_inj.mp heq]
  · exact fun h => ⟨c, h, rfl⟩

/-- **Capabilities**: at most eight bits are converted without an exception. -/
theorem convertCapabilities_spec {r : Record} (h : EightBits r) :
    ∃ r', convertCapabilities r = .ok () r' ∧ "peer_capabilities_lldp" ∉ r'
      ∧ (∀ x c, LLDP_CAPABILITY[x]? = some c →
        (HasBit r x → r'.lookup (capabilityField c) = some (.bool true))
          ∧ (¬ HasBit r x → r'.lookup (capabilityField c) = r.lookup (capabilityField c)))
      ∧ ∀ f, f ≠ "peer_capabilities_lldp" → (∀ c ∈ LLDP_CAPABILITY, f ≠ capabilityField c) →
        r'.lookup f = r.lookup f := by
  unfold convertCapabilities
  by_cases hmem : "peer_capabilities_lldp" ∈ r
  · obtain ⟨v, hv⟩ := Dict.mem_iff_lookup.mp hmem
    obtain ⟨s, rfl, hs⟩ := h v hv
    have hlen : 0 + (s.toList.map String.singleton).length ≤ 8 := by
      rw [List.length_map, String.length_toList]
      omega
    obtain ⟨r₁, hr₁, hset, hkeep⟩ := setCapabilities_spec hlen r
    have hnot : ¬ Sets 0 (s.toList.map String.singleton) "peer_capabilities_lldp" := fun ⟨_, c, _, _, heq⟩ =>
      capabilityField_ne (by decide) c heq
    have hmem₁ : "peer_capabilities_lldp" ∈ r₁ :=
      Dict.mem_iff_lookup.mpr ⟨_, (hkeep _ hnot).trans hv⟩
    have hhas : ∀ x, HasBit r x ↔ (s.toList.map String.singleton)[x]? = some "1" := by
      intro x
      rw [show "1" = String.singleton '1' from rfl, getElem?_singletons]
      exact ⟨fun ⟨t, ht, hx⟩ => by rw [hv] at ht; cases ht; exact hx, fun hx => ⟨s, hv, hx⟩⟩
    have hfield : ∀ c, (r₁.erase "peer_capabilities_lldp").lookup (capabilityField c)
        = r₁.lookup (capabilityField c) := fun c =>
      AList.lookup_erase_ne (capabilityField_ne (f := "peer_capabilities_lldp") (by decide) c).symm
    refine ⟨r₁.erase "peer_capabilities_lldp", ?_, ?_, fun x c hc => ⟨fun hx => ?_, fun hx => ?_⟩,
      fun f hf hother => ?_⟩
    · rw [if_pos hmem]
      simp only [bind_eq_ok, getItem_eq_ok, lift_eq_ok, delItem_eq_ok]
      exact ⟨_, r, ⟨hv, rfl⟩, s.toList.map String.singleton, r, ⟨rfl, rfl⟩, (), r₁, hr₁,
        hmem₁, rfl⟩
    · rw [AList.mem_erase]
      exact fun hc => hc.1 rfl
    · rw [hfield, hset _ ((sets_iff hc).mpr ((hhas x).mp hx))]
    · rw [hfield, hkeep _ (fun hsets => hx ((hhas x).mpr ((sets_iff hc).mp hsets)))]
    · rw [AList.lookup_erase_ne hf]
      refine hkeep f (fun ⟨_, c, _, hc, heq⟩ => hother c (List.mem_of_getElem? hc) heq)
  · rw [if_neg hmem]
    refine ⟨r, rfl, hmem, fun x c hc => ⟨fun ⟨s, hs, _⟩ => ?_, fun _ => rfl⟩, fun f _ _ => rfl⟩
    exact absurd (Dict.mem_iff_lookup.mpr ⟨_, hs⟩) hmem

/-! ## The whole record -/

theorem normalisePeer_eq_ok {r r' : Record} {u : Unit} :
    normalisePeer r = .ok u r' ↔ ∃ type r₁, r.lookup "peer_address_type" = some type
      ∧ convertAddress type r = .ok () r₁ ∧ "peer_address_type" ∈ r₁
      ∧ convertCapabilities (r₁.erase "peer_address_type") = .ok u r' := by
  unfold normalisePeer
  simp only [bind_eq_ok, delItem_eq_ok]
  unfold convertKind
  cases htype : r.lookup "peer_address_type" with
  | none =>
    constructor
    · rintro ⟨_, s, hs, _, t, ⟨hmem, -⟩, -⟩
      cases hs
      exact absurd hmem (AList.lookup_eq_none.mp htype)
    · rintro ⟨_, _, h, -⟩
      cases h
  | some type =>
    constructor
    · rintro ⟨_, s, hs, _, t, ⟨hmem, rfl⟩, h⟩
      exact ⟨type, s, rfl, hs, hmem, h⟩
    · rintro ⟨_, s, ht, hs, hmem, h⟩
      cases ht
      exact ⟨(), s, hs, (), _, ⟨hmem, rfl⟩, h⟩

/-- The fields of addresses are none that the conversion reads later. -/
theorem notMem_addressFields {f : String} (type : Value)
    (hf : f ∉ ["peer_mac_address", "peer_ip_address", "peer_physical_port", "peer_address"]) :
    f ∉ addressFields type := by
  intro hmem
  apply hf
  unfold addressFields at hmem
  split_ifs at hmem
  · exact hmem
  · rw [List.mem_singleton.mp hmem]
    decide
  · rcases List.mem_cons.mp hmem with rfl | hmem
    · decide
    · rw [List.mem_singleton.mp hmem]
      decide
  · exact absurd hmem List.not_mem_nil

theorem capabilityField_notMem (type : Value) (c : String) :
    capabilityField c ∉ addressFields type := by
  refine notMem_addressFields type (fun hmem => ?_)
  simp only [List.mem_cons, List.not_mem_nil, or_false] at hmem
  rcases hmem with h | h | h | h <;> exact capabilityField_ne (by decide) c h.symm

/-- Where nothing is raised, the record is in its form, but for capabilities that were there. -/
theorem normalisePeer_spec {r : Record} (h : EightBits r) {type : Value}
    (htype : r.lookup "peer_address_type" = some type) (haddr : Addressed type r) :
    ∃ r', normalisePeer r = .ok () r' ∧ "peer_address_type" ∉ r' ∧ "peer_capabilities_lldp" ∉ r'
      ∧ (∀ x c, LLDP_CAPABILITY[x]? = some c →
        (HasBit r x → r'.lookup (capabilityField c) = some (.bool true))
          ∧ (¬ HasBit r x → r'.lookup (capabilityField c) = r.lookup (capabilityField c)))
      ∧ ∀ f, f ≠ "peer_address_type" → f ≠ "peer_capabilities_lldp" →
        (∀ c ∈ LLDP_CAPABILITY, f ≠ capabilityField c) → f ∉ addressFields type →
        r'.lookup f = r.lookup f := by
  obtain ⟨r₁, hr₁⟩ := exists_convertAddress.mpr haddr
  have hkeep := fun {f} (hf : f ∉ addressFields type) => lookup_convertAddress hr₁ hf
  have htype₁ : "peer_address_type" ∈ r₁ := Dict.mem_iff_lookup.mpr
    ⟨type, (hkeep (notMem_addressFields type (by decide))).trans htype⟩
  have herase : ∀ f, f ≠ "peer_address_type" → f ∉ addressFields type →
      (r₁.erase "peer_address_type").lookup f = r.lookup f := fun f hne hf => by
    rw [AList.lookup_erase_ne hne, hkeep hf]
  have hcaps := herase "peer_capabilities_lldp" (by decide) (notMem_addressFields type (by decide))
  have hhas : ∀ x, HasBit (r₁.erase "peer_address_type") x ↔ HasBit r x := fun x => by
    unfold HasBit
    rw [hcaps]
  obtain ⟨r', hr', hnot, hfields, hrest⟩ := convertCapabilities_spec
    (r := r₁.erase "peer_address_type") (fun v hv => h v (hcaps ▸ hv))
  refine ⟨r', normalisePeer_eq_ok.mpr ⟨type, r₁, htype, hr₁, htype₁, hr'⟩, ?_, hnot,
    fun x c hc => ⟨fun hx => (hfields x c hc).1 ((hhas x).mpr hx), fun hx => ?_⟩, ?_⟩
  · rw [← AList.lookup_eq_none, hrest _ (by decide) (fun c _ => capabilityField_ne (by decide) c),
      AList.lookup_erase]
  · rw [(hfields x c hc).2 (fun hx' => hx ((hhas x).mp hx')),
      herase _ (capabilityField_ne (by decide) c).symm (capabilityField_notMem type c)]
  · intro f hf hf' hother haddress
    rw [hrest f hf' hother, herase f hf haddress]

/-- **When a neighbour is normalised**: the call yields the record in its form if and only if
the kind of the address is there, with the fields that this kind is read from. -/
theorem normalisesPeer_iff (d : Ref) (w : World) (h : EightBits (w.records d)) :
    ((postNormaliseLayer1Peer "neighbour" d w).raised = none
        ∧ (postNormaliseLayer1Peer "neighbour" d w).ys = [some ("neighbour", d)]
        ∧ Normalised (w.records d) ((postNormaliseLayer1Peer "neighbour" d w).world.records d))
      ↔ Normalisable (w.records d) := by
  unfold postNormaliseLayer1Peer
  rw [if_pos rfl]
  constructor
  · intro hall
    cases hr : normalisePeer (w.records d) with
    | error e r =>
      rw [hr] at hall
      exact absurd hall.1 (Option.some_ne_none e)
    | ok u r =>
      rw [hr] at hall
      obtain ⟨-, -, hnorm⟩ := hall
      obtain ⟨type, r₁, htype, hr₁, -, -⟩ := normalisePeer_eq_ok.mp hr
      have haddr := exists_convertAddress.mp ⟨r₁, hr₁⟩
      refine ⟨⟨type, htype, haddr⟩, fun x c hc hmem => ?_⟩
      by_contra hbit
      obtain ⟨r', hr', -, -, hfields, -⟩ := normalisePeer_spec h htype haddr
      rw [hr] at hr'
      cases hr'
      apply hnorm.noBit x c hc hbit
      have hnow : ((w.set d r).records d) = r := Function.update_self _ _ _
      rw [hnow, Dict.mem_iff_lookup, (hfields x c hc).2 hbit]
      exact Dict.mem_iff_lookup.mp hmem
  · rintro ⟨⟨type, htype, haddr⟩, hbefore⟩
    obtain ⟨r', hr', htype', hcaps', hfields, hrest⟩ := normalisePeer_spec h htype haddr
    rw [hr']
    have hnow : ((w.set d r').records d) = r' := Function.update_self _ _ _
    refine ⟨rfl, rfl, ?_⟩
    rw [hnow]
    refine ⟨htype', hcaps', fun x c hc hx => (hfields x c hc).1 hx, fun x c hc hx => ?_, ?_⟩
    · rw [← AList.lookup_eq_none, (hfields x c hc).2 hx, AList.lookup_eq_none]
      exact fun hmem => hx (hbefore x c hc hmem)
    · exact fun f hf hf' hother haddress => hrest f hf hf' hother (haddress type htype)

/-- A neighbour with the given fields. -/
def peerWorld (l : List (String × Value)) : World where
  records := fun _ => Dict.ofList l
  next := 1
  data := ∅

/-- A bridge and router, by its MAC address. -/
def routerFields : List (String × Value) :=
  [("peer_device", .str "rtr1"), ("peer_physical_port", .str "Gi1/1"),
    ("peer_address_type", .str "macAddress"), ("peer_address", .str "00:11:22:33:44:55"),
    ("peer_capabilities_lldp", .str "00101000")]

/-- Its address is read as it is, and it has no capabilities before. -/
theorem normalisable_router : Normalisable ((peerWorld routerFields).records 0) := by
  refine ⟨⟨.str "macAddress", by rfl, fun h => absurd h (by decide), fun _ => by decide⟩, ?_⟩
  have hnone : ∀ c ∈ LLDP_CAPABILITY,
      capabilityField c ∉ (peerWorld routerFields).records 0 := by
    decide
  exact fun x c hc hmem => absurd hmem (hnone c (List.mem_of_getElem? hc))

theorem normalisesPeer_iff_router :
    (postNormaliseLayer1Peer "neighbour" 0 (peerWorld routerFields)).raised = none
      ∧ (postNormaliseLayer1Peer "neighbour" 0 (peerWorld routerFields)).ys
        = [some ("neighbour", 0)]
      ∧ Normalised ((peerWorld routerFields).records 0)
        ((postNormaliseLayer1Peer "neighbour" 0 (peerWorld routerFields)).world.records 0) := by
  have hbits : EightBits ((peerWorld routerFields).records 0) :=
    eightBits_of_lookup (s := "00101000") (by decide) (by decide)
  exact (normalisesPeer_iff 0 _ hbits).mpr normalisable_router

/-- A device that does not tell the kind of the address. -/
def untypedFields : List (String × Value) :=
  [("peer_device", .str "rtr1"), ("peer_capabilities_lldp", .str "00101000")]

/-- Nothing is yielded, and the bits stay; a network address that is missing leaves a record
that is half converted. -/
theorem not_normalised_untyped :
    EightBits ((peerWorld untypedFields).records 0)
      ∧ (postNormaliseLayer1Peer "neighbour" 0 (peerWorld untypedFields)).ys = []
      ∧ (postNormaliseLayer1Peer "neighbour" 0 (peerWorld untypedFields)).raised
        = some (.keyError "peer_address_type")
      ∧ "peer_capabilities_lldp"
        ∈ (postNormaliseLayer1Peer "neighbour" 0 (peerWorld untypedFields)).world.records 0
      ∧ ((postNormaliseLayer1Peer "neighbour" 0 (peerWorld
        [("peer_address_type", .str "networkAddress"),
          ("peer_physical_port", .str "port")])).world.records 0).lookup "peer_mac_address"
          = some .none := by
  exact ⟨eightBits_of_lookup (s := "00101000") (by decide) (by decide), by decide⟩

end Driver
