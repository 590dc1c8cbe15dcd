/-
# Trunked VLANs

A switch says in four bitmaps of 128 octets which of 4096 VLANs a port carries.
`decode_vlanVlansOnPort` lists the bits that are set in one of them, and `merge_trunking_vlans`
puts the lists of the four together, each moved by its offset.  The reserved VLANs are left
out where the bits are counted, before the offset is known: in the second to the fourth
bitmap other VLANs are left out in their place (`vlansOf_iff`).
-/
import Ptolemy.HexText
import Ptolemy.Dict

namespace Vlans

/-! ## Decoding -/

def HEXTAB : List String :=
  ["0000", "0001", "0010", "0011", "0100", "0101", "0110", "0111",
    "1000", "1001", "1010", "1011", "1100", "1101", "1110", "1111"]

def IGNORE_VLANS : List ℕ := [1001, 1002, 1003, 1004]

/-- `\\w` of a regular expression. -/
def isWord (c : Char) : Bool := c.isAlphanum || c = '_'

/-- One binary digit: the numbers found so far, and the position. -/
def countBit (found : Dict ℕ Bool × ℕ) (j : Char) : Dict ℕ Bool × ℕ :=
  (if j = '1' ∧ found.2 ∉ IGNORE_VLANS then AList.insert found.2 true found.1 else found.1,
    found.2 + 1)

/-- The binary digits of a hexadecimal one. -/
def nibble (c : Char) : List Char := (HEXTAB.getD ((Hex.value? c).getD 0) "").toList

/-- The text that the digits are taken from. -/
def digitsOf (v : List UInt8) : List Char :=
  (Text.strip ((Hex.encode v).filter isWord)).map Char.toLower

/-- A long run of set bits stands for no choice of VLANs, but for a text of 64 octets. -/
def decode_vlanVlansOnPort (v : Option (List UInt8)) : List ℕ :=
  match v with
  | none => []
  | some v => Dict.sortedKeys
      (if ¬ List.replicate 24 'f' <:+: digitsOf v ∨ (digitsOf v).length = 128 then
        ((digitsOf v).foldl (fun found i => (nibble i).foldl countBit found) (∅, 0)).1
      else ∅)

/-- The bit at a position, the highest one of each octet first. -/
def BitSet (v : List UInt8) (c : ℕ) : Prop :=
  ∃ b, v[c / 8]? = some b ∧ b.toNat.testBit (7 - c % 8) = true

theorem digitsOf_eq (v : List UInt8) : digitsOf v = Hex.encode v := by
  have hword : ∀ c ∈ Hex.encode v, isWord c = true := Hex.forall_mem_encode (by decide) v
  have hspace : ∀ c ∈ Hex.encode v, Text.isSpace c = false := Hex.forall_mem_encode (by decide) v
  have hlower : ∀ c ∈ Hex.encode v, c.toLower = c := Hex.forall_mem_encode (by decide) v
  unfold digitsOf
  rw [List.filter_eq_self.mpr hword, Text.strip_of_forall hspace, List.map_congr_left hlower,
    List.map_id']

/-- The binary digits of all octets. -/
def binary (v : List UInt8) : List Char := v.flatMap (fun b => (Hex.octet b).flatMap nibble)

theorem nibble_eq {n : ℕ} (h : n < 16) : nibble (Nat.digitChar n)
    = [3, 2, 1, 0].map (fun i => if n.testBit i then '1' else '0') := by
  revert n
  decide

/-- The binary digits of an octet are its bits. -/
theorem octet_binary (b : UInt8) : (Hex.octet b).flatMap nibble
    = [7, 6, 5, 4, 3, 2, 1, 0].map (fun i => if b.toNat.testBit i then '1' else '0') := by
  have hhigh : ∀ i, (b.toNat / 16).testBit i = b.toNat.testBit (i + 4) := by
    intro i
    rw [show (16 : ℕ) = 2 ^ 4 from rfl, Nat.testBit_div_two_pow]
  have hlow : ∀ i < 4, (b.toNat % 16).testBit i = b.toNat.testBit i := by
    intro i hi
    have hmod := Nat.testBit_mod_two_pow b.toNat 4 i
    rw [decide_eq_true hi, Bool.true_and] at hmod
    exact hmod
  unfold Hex.octet
  rw [List.flatMap_cons, List.flatMap_singleton, nibble_eq (Hex.div_lt b),
    nibble_eq (Hex.mod_lt b)]
  simp only [List.map_cons, List.map_nil, List.cons_append, List.nil_append, hhigh,
    hlow 3 (by decide), hlow 2 (by decide), hlow 1 (by decide), hlow 0 (by decide)]

theorem binary_getElem? (v : List UInt8) (c : ℕ) : (binary v)[c]? = some '1' ↔ BitSet v c := by
  induction v generalizing c with
  | nil => simp [binary, BitSet]
  | cons b v ih =>
    have hcons : binary (b :: v)
        = [7, 6, 5, 4, 3, 2, 1, 0].map (fun i => if b.toNat.testBit i then '1' else '0')
          ++ binary v := by
      rw [binary, List.flatMap_cons, octet_binary]
      rfl
    rw [hcons]
    by_cases hc : c < 8
    · have hdiv : c / 8 = 0 := by omega
      have hmod : c % 8 = c := by omega
      have hget : ([7, 6, 5, 4, 3, 2, 1, 0].map
          (fun i => if b.toNat.testBit i then '1' else '0'))[c]?
          = some (if b.toNat.testBit (7 - c) then '1' else '0') := by
        interval_cases c <;> rfl
      rw [List.getElem?_append_left (by simpa using hc), hget, BitSet, hdiv, hmod]
      simp only [List.getElem?_cons_zero, Option.some.injEq, exists_eq_left']
      split_ifs with hbit
      · exact iff_of_true rfl hbit
      · exact iff_of_false (by decide) hbit
    · have hdiv : c / 8 = (c - 8) / 8 + 1 := by omega
      have hmod : c % 8 = (c - 8) % 8 := by omega
      rw [List.getElem?_append_right (by simpa using hc), List.length_map]
      show (binary v)[c - 8]? = some '1' ↔ _
      rw [ih, BitSet, BitSet, hdiv, hmod, List.getElem?_cons_succ]

/-- What the loop over the binary digits finds, from the position `c` on. -/
theorem mem_foldl_countBit (l : List Char) (found : Dict ℕ Bool × ℕ) (n : ℕ) :
    n ∈ (l.foldl countBit found).1
      ↔ n ∈ found.1 ∨ ∃ i, l[i]? = some '1' ∧ n = found.2 + i ∧ n ∉ IGNORE_VLANS := by
  induction l generalizing found with
  | nil => simp
  | cons j l ih =>
    rw [List.foldl_cons, ih]
    have hfirst : n ∈ (countBit found j).1
        ↔ n ∈ found.1 ∨ (j = '1' ∧ n = found.2 ∧ n ∉ IGNORE_VLANS) := by
      unfold countBit
      dsimp only
      split_ifs with hj
      · rw [AList.mem_insert, or_comm]
        refine or_congr_right ⟨?_, fun h => h.2.1⟩
        rintro rfl
        exact ⟨hj.1, rfl, hj.2⟩
      · refine ⟨Or.inl, fun h => h.resolve_right ?_⟩
        rintro ⟨hj', rfl, hn⟩
        exact hj ⟨hj', hn⟩
    have hnext : (countBit found j).2 = found.2 + 1 := rfl
    rw [hfirst, hnext, or_assoc]
    refine or_congr_right ?_
    constructor
    · rintro (⟨rfl, hn, hnot⟩ | ⟨i, hi, hn, hnot⟩)
      · exact ⟨0, rfl, hn, hnot⟩
      · exact ⟨i + 1, hi, by omega, hnot⟩
    · rintro ⟨i, hi, hn, hnot⟩
      cases i with
      | zero =>
        rw [List.getElem?_cons_zero] at hi
        exact Or.inl ⟨Option.some.inj hi, hn, hnot⟩
      | succ i => exact Or.inr ⟨i, hi, by omega, hnot⟩

/-- A bitmap that is not taken for no choice. -/
def Chosen (v : List UInt8) : Prop := ¬ List.replicate 24 'f' <:+: Hex.encode v

/-- **Decoding a bitmap**: the bits that are set, but for the reserved numbers. -/
theorem mem_decode {v : List UInt8} (hv : Chosen v) (n : ℕ) :
    n ∈ decode_vlanVlansOnPort (some v) ↔ BitSet v n ∧ n ∉ IGNORE_VLANS := by
  have hif : ¬ List.replicate 24 'f' <:+: Hex.encode v ∨ (Hex.encode v).length = 128 := Or.inl hv
  unfold decode_vlanVlansOnPort
  dsimp only
  rw [digitsOf_eq, if_pos hif, Dict.mem_sortedKeys, ← List.foldl_flatMap]
  have hbinary : (Hex.encode v).flatMap nibble = binary v := List.flatMap_assoc
  rw [hbinary, mem_foldl_countBit]
  constructor
  · rintro (hn | ⟨i, hi, hn, hnot⟩)
    · exact absurd hn (AList.notMem_empty n)
    · obtain rfl : n = i := by omega
      exact ⟨(binary_getElem? v n).mp hi, hnot⟩
  · rintro ⟨hbit, hnot⟩
    exact Or.inr ⟨n, (binary_getElem? v n).mpr hbit, (Nat.zero_add n).symm, hnot⟩

/-- The numbers are listed in increasing order. -/
theorem decode_sorted (v : Option (List UInt8)) :
    (decode_vlanVlansOnPort v).Pairwise (· < ·) := by
  cases v with
  | none => exact List.Pairwise.nil
  | some v =>
    unfold decode_vlanVlansOnPort
    dsimp only
    generalize (if ¬ List.replicate 24 'f' <:+: digitsOf v ∨ (digitsOf v).length = 128 then
      ((digitsOf v).foldl (fun found i => (nibble i).foldl countBit found) (∅, 0)).1
      else ∅) = found
    have hperm := List.perm_insertionSort (· ≤ ·) found.keys
    have hnodup := hperm.nodup_iff.mpr found.keys_nodup
    exact (List.sortedLE_insertionSort.sortedLT_of_nodup hnodup).pairwise

/-- A bit of a bitmap of 128 octets is one of 1024. -/
theorem BitSet.lt {v : List UInt8} (hv : v.length ≤ 128) {c : ℕ} (h : BitSet v c) : c < 1024 := by
  obtain ⟨b, hb, -⟩ := h
  have hlt := (List.getElem?_eq_some_iff.mp hb).1
  omega

/-! ## Merging -/

/-- What a column has for a port: numbers, or anything else. -/
inductive Entry : Type where
  | list (l : List ℕ)
  | other

def trunkFields : List String :=
  ["vlanTrunkPortVlansEnabled1k", "vlanTrunkPortVlansEnabled2k",
    "vlanTrunkPortVlansEnabled3k", "vlanTrunkPortVlansEnabled4k"]

section merge

variable {κ : Type} [DecidableEq κ] (order : IterOrder)

/-- The numbers of one port, moved by the offset, behind those that it has. -/
def appendNumbers (offset : ℕ) (this : Dict κ (List ℕ)) (p : κ × Entry) : Dict κ (List ℕ) :=
  match p.2 with
  | .list v => v.foldl (fun this n =>
      AList.insert p.1 ((this.lookup p.1).getD [] ++ [n + offset]) this) this
  | .other => this

/-- One field: what has been merged, and the offset. -/
def mergeField (group_data : Dict String (Dict κ Entry)) (st : Dict κ (List ℕ) × ℕ) (f : String) :
    Dict κ (List ℕ) × ℕ :=
  (match group_data.lookup f with
    | none => st.1
    | some column => (order.order column.items).foldl (appendNumbers st.2) st.1, st.2 + 1024)

def merge_trunking_vlans (group_data : Dict String (Dict κ Entry)) : Dict κ (List ℕ) :=
  (trunkFields.foldl (mergeField order group_data) (∅, 0)).1

/-- The numbers of a port in a field. -/
def numbers (group_data : Dict String (Dict κ Entry)) (f : String) (port : κ) : List ℕ :=
  match (group_data.lookup f).bind (fun column => column.lookup port) with
  | some (.list l) => l
  | _ => []

/-- The numbers of a port in several fields, each moved by its offset. -/
def blocks (group_data : Dict String (Dict κ Entry)) (port : κ) : List String → ℕ → List ℕ
  | [], _ => []
  | f :: fs, offset =>
      (numbers group_data f port).map (· + offset) ++ blocks group_data port fs (offset + 1024)

variable {order} {port : κ} {group_data : Dict String (Dict κ Entry)}

theorem appendNumbers_self (offset : ℕ) (this : Dict κ (List ℕ)) (v : List ℕ) :
    ((appendNumbers offset this (port, .list v)).lookup port).getD []
      = (this.lookup port).getD [] ++ v.map (· + offset) := by
  unfold appendNumbers
  dsimp only
  induction v generalizing this with
  | nil => rw [List.foldl_nil, List.map_nil, List.append_nil]
  | cons n v ih =>
    rw [List.foldl_cons, ih, AList.lookup_insert, Option.getD_some, List.map_cons,
      List.append_assoc, List.singleton_append]

theorem appendNumbers_ne (offset : ℕ) (this : Dict κ (List ℕ)) {p : κ × Entry} (h : p.1 ≠ port) :
    (appendNumbers offset this p).lookup port = this.lookup port := by
  unfold appendNumbers
  split
  · exact foldl_keep (fun this => AList.lookup port this)
      (fun this n _ => AList.lookup_insert_ne h.symm) this
  · rfl

/-- One field puts the numbers of the port behind those that it has. -/
theorem lookup_mergeField (st : Dict κ (List ℕ) × ℕ) (f : String) :
    ((mergeField order group_data st f).1.lookup port).getD []
      = (st.1.lookup port).getD [] ++ (numbers group_data f port).map (· + st.2) := by
  unfold mergeField numbers
  cases hcolumn : group_data.lookup f with
  | none => exact (List.append_nil _).symm
  | some column =>
    rw [Option.bind_some]
    have hothers : ∀ (l : List (κ × Entry)), (∀ p ∈ l, p.1 ≠ port) → ∀ this : Dict κ (List ℕ),
        (l.foldl (appendNumbers st.2) this).lookup port = this.lookup port := fun l hl this =>
      foldl_keep (fun this => AList.lookup port this)
        (fun this p hp => appendNumbers_ne st.2 this (hl p hp)) this
    have hnodup : ((order.order column.items).map Prod.fst).Nodup := by
      rw [((order.perm _).map Prod.fst).nodup_iff, Dict.items_map_fst]
      exact column.keys_nodup
    cases hport : column.lookup port with
    | none =>
      dsimp only
      rw [hothers, List.map_nil, List.append_nil]
      rintro ⟨k, v⟩ hp rfl
      have hk := Dict.mem_items.mp (order.mem_order.mp hp)
      rw [hport] at hk
      cases hk
    | some entry =>
      -- the items before the port's own one, and those after it
      obtain ⟨before, after, hsplit⟩ :=
        List.append_of_mem (order.mem_order.mpr (Dict.mem_items.mpr hport))
      rw [hsplit, List.map_append, List.map_cons] at hnodup
      obtain ⟨-, hrest, hapart⟩ := List.nodup_append.mp hnodup
      have hbefore : ∀ p ∈ before, p.1 ≠ port := fun p hp heq =>
        hapart p.1 (List.mem_map_of_mem hp) port List.mem_cons_self heq
      have hafter : ∀ p ∈ after, p.1 ≠ port := by
        rintro p hp rfl
        have hmem : p.1 ∈ after.map Prod.fst := List.mem_map_of_mem hp
        exact (List.nodup_cons.mp hrest).1 hmem
      dsimp only
      rw [hsplit, List.foldl_append, List.foldl_cons, hothers after hafter]
      cases entry with
      | list v =>
        rw [appendNumbers_self, hothers before hbefore]
      | other =>
        show ((before.foldl (appendNumbers st.2) st.1).lookup port).getD [] = _
        rw [hothers before hbefore, List.map_nil, List.append_nil]

theorem lookup_foldl_mergeField (fs : List String) (st : Dict κ (List ℕ) × ℕ) :
    ((fs.foldl (mergeField order group_data) st).1.lookup port).getD []
      = (st.1.lookup port).getD [] ++ blocks group_data port fs st.2 := by
  induction fs generalizing st with
  | nil => exact (List.append_nil _).symm
  | cons f fs ih =>
    rw [List.foldl_cons, ih, lookup_mergeField, List.append_assoc]
    rfl

/-- **Merging**: the numbers of a port are those of the four fields, each moved by its offset. -/
theorem lookup_merge_getD (order : IterOrder) (group_data : Dict String (Dict κ Entry)) (port : κ) :
    ((merge_trunking_vlans order group_data).lookup port).getD []
      = blocks group_data port trunkFields 0 := by
  unfold merge_trunking_vlans
  rw [lookup_foldl_mergeField, AList.lookup_empty]
  rfl

theorem mem_blocks {fs : List String} {offset n : ℕ} : n ∈ blocks group_data port fs offset
    ↔ ∃ b f m, fs[b]? = some f ∧ m ∈ numbers group_data f port ∧ n = m + (offset + 1024 * b) := by
  induction fs generalizing offset with
  | nil => simp [blocks]
  | cons f fs ih =>
    rw [blocks, List.mem_append, List.mem_map, ih]
    constructor
    · rintro (⟨m, hm, rfl⟩ | ⟨b, f', m, hf', hm, rfl⟩)
      · exact ⟨0, f, m, rfl, hm, rfl⟩
      · exact ⟨b + 1, f', m, hf', hm, by omega⟩
    · rintro ⟨b, f', m, hf', hm, rfl⟩
      cases b with
      | zero =>
        rw [List.getElem?_cons_zero] at hf'
        exact Or.inl ⟨m, Option.some.inj hf' ▸ hm, rfl⟩
      | succ b => exact Or.inr ⟨b, f', m, hf', hm, by omega⟩

/-- Lists of increasing numbers below the distance of the offsets stay increasing. -/
theorem blocks_sorted {fs : List String}
    (hsorted : ∀ f ∈ fs, (numbers group_data f port).Pairwise (· < ·))
    (hlt : ∀ f ∈ fs, ∀ m ∈ numbers group_data f port, m < 1024) (offset : ℕ) :
    (blocks group_data port fs offset).Pairwise (· < ·) := by
  induction fs generalizing offset with
  | nil => exact List.Pairwise.nil
  | cons f fs ih =>
    rw [blocks, List.pairwise_append]
    refine ⟨?_, ih (fun g hg => hsorted g (List.mem_cons_of_mem f hg))
      (fun g hg => hlt g (List.mem_cons_of_mem f hg)) _, ?_⟩
    · rw [List.pairwise_map]
      exact (hsorted f List.mem_cons_self).imp (fun h => by omega)
    · intro n hn n' hn'
      obtain ⟨m, hm, rfl⟩ := List.mem_map.mp hn
      obtain ⟨b, f', m', -, -, rfl⟩ := mem_blocks.mp hn'
      have hm' := hlt f List.mem_cons_self m hm
      omega

end merge

/-! ## The VLANs of a port -/

section vlansOf

variable {κ : Type} [DecidableEq κ]

/-- The bitmap of a port in a field, where there is one. -/
def bitmap (raw : Dict String (Dict κ (Option (List UInt8)))) (f : String) (port : κ) :
    Option (List UInt8) :=
  ((raw.lookup f).bind (fun column => column.lookup port)).join

/-- Each value is decoded. -/
def decoded (raw : Dict String (Dict κ (Option (List UInt8)))) : Dict String (Dict κ Entry) :=
  Dict.mapVals (Dict.mapVals (fun v => .list (decode_vlanVlansOnPort v))) raw

/-- The VLANs that are listed for a port in the end. -/
def vlansOf (order : IterOrder) (raw : Dict String (Dict κ (Option (List UInt8)))) (port : κ) :
    List ℕ :=
  ((merge_trunking_vlans order (decoded raw)).lookup port).getD []

/-- A VLAN whose bit is set in its bitmap, and which is not reserved. -/
def Carries (raw : Dict String (Dict κ (Option (List UInt8)))) (port : κ) (n : ℕ) : Prop :=
  ∃ b f v c, trunkFields[b]? = some f ∧ bitmap raw f port = some v ∧ BitSet v c
    ∧ n = 1024 * b + c ∧ n ∉ IGNORE_VLANS

/-- The list for a port is increasing, and has exactly the VLANs that the port carries. -/
structure Listed (order : IterOrder) (raw : Dict String (Dict κ (Option (List UInt8))))
    (port : κ) : Prop where
  sorted : (vlansOf order raw port).Pairwise (· < ·)
  mem : ∀ n, n ∈ vlansOf order raw port ↔ Carries raw port n

theorem numbers_decoded (raw : Dict String (Dict κ (Option (List UInt8)))) (f : String) (port : κ) :
    numbers (decoded raw) f port = decode_vlanVlansOnPort (bitmap raw f port) := by
  unfold numbers decoded bitmap
  rw [Dict.lookup_mapVals]
  cases raw.lookup f with
  | none => rfl
  | some column =>
    rw [Option.map_some, Option.bind_some, Option.bind_some, Dict.lookup_mapVals]
    cases column.lookup port <;> rfl

/-- The bitmaps of a port have 128 octets at most, and none stands for no choice. -/
def Bitmaps (raw : Dict String (Dict κ (Option (List UInt8)))) (port : κ) : Prop :=
  ∀ f ∈ trunkFields, ∀ v, bitmap raw f port = some v → v.length ≤ 128 ∧ Chosen v

theorem mem_numbers_decoded {raw : Dict String (Dict κ (Option (List UInt8)))} {port : κ}
    (hraw : Bitmaps raw port) {f : String} (hf : f ∈ trunkFields) (m : ℕ) :
    m ∈ numbers (decoded raw) f port
      ↔ ∃ v, bitmap raw f port = some v ∧ BitSet v m ∧ m ∉ IGNORE_VLANS := by
  rw [numbers_decoded]
  cases hv : bitmap raw f port with
  | none =>
    refine iff_of_false List.not_mem_nil ?_
    rintro ⟨v, h, -⟩
    cases h
  | some v =>
    rw [mem_decode (hraw f hf v hv).2]
    constructor
    · exact fun h => ⟨v, rfl, h⟩
    · rintro ⟨v', h, hm⟩
      exact Option.some.inj h ▸ hm

/-- What is listed: the bits that are set but for the reserved places, moved by the offset. -/
theorem mem_vlansOf (order : IterOrder) {raw : Dict String (Dict κ (Option (List UInt8)))}
    {port : κ} (hraw : Bitmaps raw port) (n : ℕ) : n ∈ vlansOf order raw port
      ↔ ∃ b f v c, trunkFields[b]? = some f ∧ bitmap raw f port = some v ∧ BitSet v c
        ∧ n = 1024 * b + c ∧ c ∉ IGNORE_VLANS := by
  unfold vlansOf
  rw [lookup_merge_getD, mem_blocks]
  constructor
  · rintro ⟨b, f, m, hf, hm, hn⟩
    obtain ⟨v, hv, hbit, hnot⟩ :=
      (mem_numbers_decoded hraw (List.mem_of_getElem? hf) m).mp hm
    exact ⟨b, f, v, m, hf, hv, hbit, by omega, hnot⟩
  · rintro ⟨b, f, v, c, hf, hv, hbit, hn, hnot⟩
    refine ⟨b, f, c, hf, ?_, by omega⟩
    exact (mem_numbers_decoded hraw (List.mem_of_getElem? hf) c).mpr ⟨v, hv, hbit, hnot⟩

theorem vlansOf_sorted (order : IterOrder) {raw : Dict String (Dict κ (Option (List UInt8)))}
    {port : κ} (hraw : Bitmaps raw port) : (vlansOf order raw port).Pairwise (· < ·) := by
  unfold vlansOf
  rw [lookup_merge_getD]
  refine blocks_sorted (fun f _ => ?_) (fun f hf m hm => ?_) 0
  · rw [numbers_decoded]
    exact decode_sorted _
  · obtain ⟨v, hv, hbit, -⟩ := (mem_numbers_decoded hraw hf m).mp hm
    exact hbit.lt (hraw f hf v hv).1

theorem reserved_bounds : ∀ c ∈ IGNORE_VLANS, 1001 ≤ c ∧ c < 1024 := by decide

/-- **The VLANs of a port**: the list is increasing and has exactly the VLANs that the port carries
where no bitmap but the first has a bit at the place of a reserved one. -/
theorem vlansOf_iff (order : IterOrder) {raw : Dict String (Dict κ (Option (List UInt8)))}
    {port : κ} (hraw : Bitmaps raw port) :
    Listed order raw port ↔ ∀ b f v, 1 ≤ b → trunkFields[b]? = some f →
      bitmap raw f port = some v → ∀ c ∈ IGNORE_VLANS, ¬ BitSet v c := by
  constructor
  · rintro ⟨-, hcarries⟩ b f v hb hf hv c hc hbit
    have hlow := reserved_bounds c hc
    have hn : 1024 * b + c ∉ IGNORE_VLANS := by
      intro h
      have hlow' := reserved_bounds _ h
      omega
    obtain ⟨b', f', v', c', hf', hv', hbit', heq, hnot⟩ :=
      (mem_vlansOf order hraw _).mp ((hcarries _).mpr ⟨b, f, v, c, hf, hv, hbit, rfl, hn⟩)
    -- both positions are below 1024, so that the number determines them
    have hlt := hbit'.lt (hraw f' (List.mem_of_getElem? hf') v' hv').1
    obtain rfl : c = c' := by omega
    exact hnot hc
  · intro hclear
    refine ⟨vlansOf_sorted order hraw, fun n => ?_⟩
    rw [mem_vlansOf order hraw]
    constructor
    · rintro ⟨b, f, v, c, hf, hv, hbit, rfl, hnot⟩
      refine ⟨b, f, v, c, hf, hv, hbit, rfl, fun h => ?_⟩
      have hlow := reserved_bounds _ h
      obtain rfl : b = 0 := by omega
      rw [Nat.mul_zero, Nat.zero_add] at h
      exact hnot h
    · rintro ⟨b, f, v, c, hf, hv, hbit, rfl, hnot⟩
      refine ⟨b, f, v, c, hf, hv, hbit, rfl, fun hc => ?_⟩
      cases b with
      | zero =>
        rw [Nat.mul_zero, Nat.zero_add] at hnot
        exact hnot hc
      | succ b => exact hclear (b + 1) f v (Nat.succ_pos b) hf hv c hc hbit

end vlansOf

/-- No octet has the digit in its text. -/
theorem chosen_of_octets {v : List UInt8} (h : ∀ b ∈ v, 'f' ∉ Hex.octet b) : Chosen v := by
  intro hrun
  obtain ⟨b, hb, hdigit⟩ := List.mem_flatMap.mp
    (hrun.subset (List.mem_replicate.mpr ⟨by decide, rfl⟩))
  exact h b hb hdigit

/-! Ports that carry one VLAN each, 2024 and 2025. -/

/-- The bit 1000 of the second bitmap. -/
def bitmap2024 : List UInt8 := List.replicate 125 0 ++ [128, 0, 0]

def raw2024 : Dict String (Dict ℕ (Option (List UInt8))) :=
  Dict.ofList [("vlanTrunkPortVlansEnabled2k", Dict.ofList [(1, some bitmap2024)])]

theorem bitmap_raw2024 {f : String} (hf : f ∈ trunkFields) {v : List UInt8}
    (hv : bitmap raw2024 f 1 = some v) : v = bitmap2024 := by
  have hfields : ∀ f ∈ trunkFields, bitmap raw2024 f 1 = none
      ∨ bitmap raw2024 f 1 = some bitmap2024 := by decide
  rcases hfields f hf with hnone | hsome
  · rw [hnone] at hv
    cases hv
  · exact Option.some.inj (hv.symm.trans hsome)

theorem bitmaps_raw2024 : Bitmaps raw2024 1 := by
  have hoctets : ∀ b ∈ bitmap2024, b = 0 ∨ b = 128 := by simp [bitmap2024]
  intro f hf v hv
  obtain rfl := bitmap_raw2024 hf hv
  refine ⟨by simp [bitmap2024], chosen_of_octets (fun b hb => ?_)⟩
  rcases hoctets b hb with rfl | rfl
  · decide
  · decide

theorem vlansOf_iff_2024 : Listed .stored raw2024 1 ∧ 2024 ∈ vlansOf .stored raw2024 1 := by
  have hbits : ∀ c ∈ IGNORE_VLANS, bitmap2024[c / 8]? = some 128
      ∧ (128 : UInt8).toNat.testBit (7 - c % 8) = false := by
    decide
  have hlisted : Listed .stored raw2024 1 := by
    refine (vlansOf_iff .stored bitmaps_raw2024).mpr fun b f v _ hf hv c hc => ?_
    obtain rfl := bitmap_raw2024 (List.mem_of_getElem? hf) hv
    rintro ⟨octet, hoctet, hbit⟩
    obtain rfl := Option.some.inj ((hbits c hc).1.symm.trans hoctet)
    rw [(hbits c hc).2] at hbit
    cases hbit
  exact ⟨hlisted, (hlisted.mem 2024).mpr
    ⟨1, _, bitmap2024, 1000, rfl, rfl, ⟨128, rfl, by decide⟩, rfl, by decide⟩⟩

/-- The bit 1001 of the second bitmap. -/
def bitmap2025 : List UInt8 := List.replicate 125 0 ++ [64, 0, 0]

def raw2025 : Dict String (Dict ℕ (Option (List UInt8))) :=
  Dict.ofList [("vlanTrunkPortVlansEnabled2k", Dict.ofList [(1, some bitmap2025)])]

theorem bitmaps_raw2025 : Bitmaps raw2025 1 := by
  have hfields : ∀ f ∈ trunkFields, bitmap raw2025 f 1 = none
      ∨ bitmap raw2025 f 1 = some bitmap2025 := by decide
  intro f hf v hv
  rcases hfields f hf with hnone | hsome
  · rw [hnone] at hv
    cases hv
  · obtain rfl := Option.some.inj (hsome.symm.trans hv)
    have hoctets : ∀ b ∈ bitmap2025, b = 0 ∨ b = 64 := by simp [bitmap2025]
    refine ⟨by simp [bitmap2025], chosen_of_octets (fun b hb => ?_)⟩
    rcases hoctets b hb with rfl | rfl
    · decide
    · decide

/-- The VLAN 2025 is not listed. -/
theorem not_listed_2025 : ¬ Listed .stored raw2025 1 := by
  rintro ⟨-, hmem⟩
  have hcarries : Carries raw2025 1 2025 :=
    ⟨1, _, bitmap2025, 1001, rfl, rfl, ⟨64, rfl, by decide⟩, rfl, by decide⟩
  obtain ⟨b, f, v, c, hf, hv, hbit, heq, hnot⟩ :=
    (mem_vlansOf .stored bitmaps_raw2025 2025).mp ((hmem 2025).mpr hcarries)
  have hlt := hbit.lt (bitmaps_raw2025 f (List.mem_of_getElem? hf) v hv).1
  obtain rfl : c = 1001 := by omega
  exact absurd hnot (by decide)

end Vlans
