/-
# Octets in hexadecimal digits

The text of an octet is its two digits, in lower case, the higher one first.  A digit reads
back as its value, so that the text determines the octets, and the bits of the octet are those
of its two digits in turn.
-/
import Ptolemy.Value

namespace Hex

/-- The value of a hexadecimal digit, in either case. -/
def value? (c : Char) : Option ℕ :=
  if '0' ≤ c ∧ c ≤ '9' then some (c.toNat - '0'.toNat)
  else if 'a' ≤ c ∧ c ≤ 'f' then some (c.toNat - 'a'.toNat + 10)
  else if 'A' ≤ c ∧ c ≤ 'F' then some (c.toNat - 'A'.toNat + 10)
  else none

/-- The two digits of an octet. -/
def octet (b : UInt8) : List Char := [Nat.digitChar (b.toNat / 16), Nat.digitChar (b.toNat % 16)]

/-- `s.encode('hex')`, on characters. -/
def encode (v : List UInt8) : List Char := v.flatMap octet

theorem value?_digitChar {n : ℕ} (h : n < 16) : value? (Nat.digitChar n) = some n := by
  revert n
  decide

theorem digitChar_inj {n m : ℕ} (hn : n < 16) (hm : m < 16)
    (h : Nat.digitChar n = Nat.digitChar m) : n = m := by
  have hvalue := congrArg value? h
  rw [value?_digitChar hn, value?_digitChar hm] at hvalue
  exact Option.some.inj hvalue

theorem div_lt (b : UInt8) : b.toNat / 16 < 16 := by
  have h := b.toNat_lt
  omega

theorem mod_lt (b : UInt8) : b.toNat % 16 < 16 := Nat.mod_lt _ (by decide)

/-- **The digits determine the octet.** -/
theorem octet_injective : Function.Injective octet := by
  intro a b h
  obtain ⟨hhigh, hrest⟩ := List.cons.inj h
  obtain ⟨hlow, -⟩ := List.cons.inj hrest
  have hdiv := digitChar_inj (div_lt a) (div_lt b) hhigh
  have hmod := digitChar_inj (mod_lt a) (mod_lt b) hlow
  apply UInt8.toNat_inj.mp
  omega

/-- What holds of each digit holds of each character of a text of octets. -/
theorem forall_mem_octet {P : Char → Prop} (h : ∀ n < 16, P (Nat.digitChar n)) (b : UInt8) :
    ∀ c ∈ octet b, P c := by
  intro c hc
  rcases List.mem_cons.mp hc with rfl | hc
  · exact h _ (div_lt b)
  · rw [List.mem_singleton.mp hc]
    exact h _ (mod_lt b)

theorem forall_mem_encode {P : Char → Prop} (h : ∀ n < 16, P (Nat.digitChar n)) (v : List UInt8) :
    ∀ c ∈ encode v, P c := by
  intro c hc
  obtain ⟨b, -, hb⟩ := List.mem_flatMap.mp hc
  exact forall_mem_octet h b c hb

end Hex
