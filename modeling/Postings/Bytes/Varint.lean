/-
Variable-length numbers: seven bits a byte, low bits first, the high bit set on
every byte but the last.

Decoding reads from the front of a byte string and ignores what follows.  It
accepts overlong forms, and refuses a number of 2^64 or more and a string that
ends before the last byte.

* `length_encode` — `encode` takes `encodedLength` bytes;
* `decode_encode` — decoding a written number gives it back, whatever follows.
-/
import Postings.Power

namespace Postings.Varint

/-- Numbers stay below this bound. -/
def bound : Nat := 2 ^ 64

/-- The bytes of a number, at least one. -/
def encode (value : Nat) : List UInt8 :=
  if value < 128 then [UInt8.ofNat value]
  else UInt8.ofNat (value % 128 + 128) :: encode (value / 128)
termination_by value

/-- The number of bytes that `encode` takes. -/
def encodedLength (value : Nat) : Nat :=
  if value < 128 then 1 else encodedLength (value / 128) + 1
termination_by value

/-- The value and the length of the number at the front, given that `index` bytes worth
`value` came before. -/
def decodeFrom (index value : Nat) : List UInt8 → Option (Nat × Nat)
  | [] => none
  | byte :: rest =>
    let value := value + byte.toNat % 128 * 128 ^ index
    if 9 < index ∨ (index = 9 ∧ 1 < byte.toNat) then none
    else if byte.toNat < 128 then some (value, index + 1)
    else decodeFrom (index + 1) value rest

/-- The value and the length of the number at the front. -/
def decode (bytes : List UInt8) : Option (Nat × Nat) :=
  decodeFrom 0 0 bytes

/-- No number takes more bytes. -/
def maxLength : Nat := 10

theorem length_encode (value : Nat) : (encode value).length = encodedLength value := by
  fun_induction encodedLength value with
  | case1 value h => rw [encode, if_pos h]; rfl
  | case2 value h ih => rw [encode, if_neg h, List.length_cons, ih]

theorem decodeFrom_encode (index value before : Nat) (rest : List UInt8)
    (h : value * 128 ^ index < bound) (hi : index ≤ 9) :
    decodeFrom index before (encode value ++ rest)
      = some (before + value * 128 ^ index, index + encodedLength value) := by
  induction value using Nat.strongRecOn generalizing index before with
  | _ value ih =>
    rw [encode, encodedLength]
    by_cases hv : value < 128
    · have ht : (UInt8.ofNat value).toNat = value := by
        rw [UInt8.toNat_ofNat']
        exact Nat.mod_eq_of_lt (by omega)
      have h9 : index = 9 → value ≤ 1 := by
        rintro rfl
        simp only [bound] at h
        omega
      simp only [if_pos hv, List.cons_append, List.nil_append, decodeFrom, ht,
        Nat.mod_eq_of_lt hv]
      rw [if_neg (by omega)]
    · have ht : (UInt8.ofNat (value % 128 + 128)).toNat = value % 128 + 128 := by
        rw [UInt8.toNat_ofNat']
        exact Nat.mod_eq_of_lt (by omega)
      have hlt : index < 9 := by
        refine Nat.lt_of_le_of_ne hi ?_
        rintro rfl
        simp only [bound] at h
        omega
      have hsplit : value * 128 ^ index
          = value % 128 * 128 ^ index + value / 128 * 128 ^ (index + 1) := by
        have := Nat.div_add_mod value 128
        calc value * 128 ^ index = (128 * (value / 128) + value % 128) * 128 ^ index := by rw [this]
          _ = _ := by rw [Nat.pow_succ, Nat.add_mul]; ac_rfl
      have hrec := ih (value / 128) (by omega) (index + 1)
        (before + value % 128 * 128 ^ index) (by omega) (by omega)
      simp only [if_neg hv, List.cons_append, decodeFrom, ht]
      rw [if_neg (by omega), if_neg (by omega)]
      simp only [Nat.add_mod_right, Nat.mod_mod]
      rw [hrec, hsplit]
      simp only [Option.some.injEq, Prod.mk.injEq]
      omega

theorem decode_encode {value : Nat} (rest : List UInt8) (h : value < bound) :
    decode (encode value ++ rest) = some (value, encodedLength value) := by
  have := decodeFrom_encode 0 value 0 rest (by simpa using h) (by omega)
  simpa [decode] using this

end Postings.Varint
