/-
Variable-length numbers as numerals to the base 128.

The low seven bits of a byte are a digit, and the first byte whose high bit is clear has the last
one.  A numeral is accepted exactly if that byte is among the first ten and the number stays below
2^64; leading zeros do no harm.  The digits may be gathered in a 64-bit word by shifts, since none
that is accepted has a bit beyond the word.

* `numeral` — the number of some digits, the least first;
* `decodeFrom_eq_some` — what is accepted, given the digits that came before;
* `gather`, `gather_eq_decode` — the digits in a 64-bit word;
* `encodedLength_le_iff`, `encodedLength_eq` — how many digits a number has;
* `decode_spec` — all of this about whole byte strings.
-/
import Mathlib.Data.Nat.Digits.Defs
import Postings.Proofs.Bytes.Packing
import Postings.Proofs.Bytes.Varints

namespace Postings.Varint

/-- The number whose digits to the base 128 are the low seven bits of bytes, the least first. -/
def numeral (bytes : List UInt8) : Nat :=
  Nat.ofDigits 128 (bytes.map (·.toNat % 128))

@[simp] theorem numeral_nil : numeral [] = 0 := rfl

theorem numeral_cons (byte : UInt8) (rest : List UInt8) :
    numeral (byte :: rest) = byte.toNat % 128 + 128 * numeral rest :=
  Nat.ofDigits_cons

theorem numeral_lt (bytes : List UInt8) : numeral bytes < 128 ^ bytes.length := by
  have hdigits : ∀ digit ∈ bytes.map (·.toNat % 128), digit < 128 := by
    intro digit hdigit
    obtain ⟨byte, -, rfl⟩ := List.mem_map.1 hdigit
    exact Nat.mod_lt _ (by decide)
  have hlt := Nat.ofDigits_lt_base_pow_length (by decide) hdigits
  rwa [List.length_map] at hlt

/-! ### What is accepted -/

theorem lt_128_iff {byte : UInt8} : byte < 128 ↔ byte.toNat < 128 :=
  UInt8.lt_iff_toNat_lt

variable {index before value length : Nat} {bytes : List UInt8}

/-- From the place `index` on, the bytes are those of a numeral that is complete at `length`, and
makes `before`, the number of the digits up to there, the value. -/
def Completes (index before : Nat) (bytes : List UInt8) (value length : Nat) : Prop :=
  ∃ last, bytes.findIdx? (· < 128) = some last ∧ length = index + last + 1 ∧
    length ≤ maxLength ∧ value = before + 128 ^ index * numeral (bytes.take (last + 1)) ∧
    value < bound

theorem completes_of_lt {byte : UInt8} {rest : List UInt8} (hbyte : byte.toNat < 128) :
    Completes index before (byte :: rest) value length ↔
      length = index + 1 ∧ length ≤ maxLength ∧ value = before + 128 ^ index * byte.toNat ∧
        value < bound := by
  have hfind : (byte :: rest).findIdx? (· < 128) = some 0 := by
    rw [List.findIdx?_cons, if_pos (decide_eq_true (lt_128_iff.2 hbyte))]
  have hdigit : numeral ((byte :: rest).take (0 + 1)) = byte.toNat := by
    rw [List.take_succ_cons, List.take_zero, numeral_cons, Nat.mod_eq_of_lt hbyte, numeral_nil,
      Nat.mul_zero, Nat.add_zero]
  simp only [Completes, hfind, Option.some.injEq, exists_eq_left', hdigit, Nat.add_zero]

/-- A digit that others follow is one of those that came before them. -/
theorem completes_of_ge {byte : UInt8} {rest : List UInt8} (hbyte : 128 ≤ byte.toNat) :
    Completes index before (byte :: rest) value length ↔
      Completes (index + 1) (before + byte.toNat % 128 * 128 ^ index) rest value length := by
  have hfind : (byte :: rest).findIdx? (· < 128) = (rest.findIdx? (· < 128)).map (· + 1) := by
    rw [List.findIdx?_cons, if_neg (by rw [decide_eq_true_iff, lt_128_iff]; omega)]
  have hsplit : ∀ last, before + 128 ^ index * numeral ((byte :: rest).take (last + 1 + 1))
      = before + byte.toNat % 128 * 128 ^ index
        + 128 ^ (index + 1) * numeral (rest.take (last + 1)) := by
    intro last
    rw [List.take_succ_cons, numeral_cons, Nat.mul_add, Nat.pow_succ, Nat.mul_assoc,
      Nat.mul_comm (byte.toNat % 128), Nat.add_assoc]
  constructor
  · rintro ⟨place, hplace, hlength, hshort, hvalue, hsmall⟩
    rw [hfind] at hplace
    obtain ⟨last, hlast, rfl⟩ := Option.map_eq_some_iff.1 hplace
    exact ⟨last, hlast, by omega, hshort, by rw [hvalue, hsplit], hsmall⟩
  · rintro ⟨last, hlast, hlength, hshort, hvalue, hsmall⟩
    exact ⟨last + 1, by rw [hfind, hlast]; rfl, by omega, hshort, by rw [hvalue, hsplit], hsmall⟩

/-- A numeral is not completed beyond the tenth place, nor by a tenth digit other than 0 or 1. -/
theorem not_completes_of_refused {byte : UInt8} {rest : List UInt8}
    (hrefused : 9 < index ∨ (index = 9 ∧ 1 < byte.toNat)) :
    ¬ Completes index before (byte :: rest) value length := by
  intro h
  by_cases hbyte : byte.toNat < 128
  · obtain ⟨hlength, hshort, hvalue, hsmall⟩ := (completes_of_lt hbyte).1 h
    rcases hrefused with hlate | ⟨rfl, hlarge⟩
    · rw [hlength, maxLength] at hshort
      omega
    · -- The tenth digit counts 2^63 times.
      have hmul : 128 ^ 9 * 2 ≤ 128 ^ 9 * byte.toNat := Nat.mul_le_mul_left _ hlarge
      rw [hvalue, bound] at hsmall
      omega
  · obtain ⟨last, -, hlength, hshort, -⟩ := (completes_of_ge (Nat.le_of_not_lt hbyte)).1 h
    rw [hlength, maxLength] at hshort
    omega

/-- Decoding accepts numerals that are complete in time and stay below the bound. -/
theorem decodeFrom_eq_some (hbefore : before < 128 ^ index) :
    decodeFrom index before bytes = some (value, length) ↔
      Completes index before bytes value length := by
  induction bytes generalizing index before with
  | nil => simp [decodeFrom, Completes]
  | cons byte rest ih =>
    by_cases hrefused : 9 < index ∨ (index = 9 ∧ 1 < byte.toNat)
    · rw [decodeFrom, if_pos hrefused]
      exact iff_of_false (by simp) (not_completes_of_refused hrefused)
    by_cases hbyte : byte.toNat < 128
    · have hdecode : decodeFrom index before (byte :: rest)
          = some (before + 128 ^ index * byte.toNat, index + 1) := by
        rw [decodeFrom, if_neg hrefused, if_pos hbyte, Nat.mod_eq_of_lt hbyte, Nat.mul_comm]
      have hlt := decodeFrom_lt hdecode hbefore
      have hle := (decodeFrom_length hdecode).2.2
      rw [completes_of_lt hbyte, hdecode, Option.some.injEq, Prod.mk.injEq]
      constructor
      · rintro ⟨rfl, rfl⟩
        exact ⟨rfl, hle, rfl, hlt⟩
      · rintro ⟨rfl, -, rfl, -⟩
        exact ⟨rfl, rfl⟩
    · rw [completes_of_ge (Nat.le_of_not_lt hbyte), decodeFrom, if_neg hrefused, if_neg hbyte,
        ih (add_digit_lt byte hbefore)]

theorem decode_eq_some : decode bytes = some (value, length) ↔
    ∃ last, bytes.findIdx? (· < 128) = some last ∧ length = last + 1 ∧ length ≤ maxLength ∧
      value = numeral (bytes.take length) ∧ value < bound := by
  rw [decode, decodeFrom_eq_some Nat.zero_lt_one]
  constructor
  · rintro ⟨last, hlast, hlength, hshort, hvalue, hsmall⟩
    rw [Nat.zero_add] at hlength
    rw [Nat.zero_add, Nat.pow_zero, Nat.one_mul, ← hlength] at hvalue
    exact ⟨last, hlast, hlength, hshort, hvalue, hsmall⟩
  · rintro ⟨last, hlast, hlength, hshort, hvalue, hsmall⟩
    refine ⟨last, hlast, by rw [hlength, Nat.zero_add], hshort, ?_, hsmall⟩
    rw [Nat.zero_add, Nat.pow_zero, Nat.one_mul, ← hlength, hvalue]

/-! ### Digits in a word -/

/-- Decoding with the digits gathered in a 64-bit word, each moved up by a shift. -/
def gatherFrom (shift : Nat) (word : UInt64) (count : Nat) : List UInt8 → Option (UInt64 × Nat)
  | [] => none
  | byte :: rest =>
    let gathered := word ||| (byte &&& 0x7F).toUInt64 <<< UInt64.ofNat shift
    if 64 ≤ shift ∨ (shift = 63 ∧ 1 < byte) then none
    else if byte &&& 0x80 = 0 then some (gathered, count + 1)
    else gatherFrom (shift + 7) gathered (count + 1) rest

/-- The word and the length of the number at the front. -/
def gather (bytes : List UInt8) : Option (UInt64 × Nat) :=
  gatherFrom 0 0 0 bytes

theorem and_high_eq_zero {byte : UInt8} : byte &&& 0x80 = 0 ↔ byte.toNat < 128 := by
  have hall : ∀ value < 256, value &&& 128 = 0 ↔ value < 128 := by decide +kernel
  rw [← UInt8.toNat_inj, UInt8.toNat_and]
  exact hall _ (UInt8.toNat_lt byte)

theorem toNat_and_low (byte : UInt8) : (byte &&& 0x7F).toNat = byte.toNat % 128 := by
  rw [UInt8.toNat_and]
  exact Nat.and_two_pow_sub_one_eq_mod byte.toNat 7

/-- A digit that is accepted has all its bits in the word, above those that are there. -/
theorem gathered_eq {byte : UInt8} (hin : ¬ (9 < index ∨ (index = 9 ∧ 1 < byte.toNat)))
    (hbefore : before < 128 ^ index) :
    UInt64.ofNat before ||| (byte &&& 0x7F).toUInt64 <<< UInt64.ofNat (7 * index)
      = UInt64.ofNat (before + byte.toNat % 128 * 128 ^ index) := by
  have hsum : before + byte.toNat % 128 * 128 ^ index < 2 ^ 64 := add_digit_lt_bound hin hbefore
  have hword : before < 2 ^ 64 := by omega
  have hmoved : byte.toNat % 128 * 128 ^ index < 2 ^ 64 := by omega
  have hpower : 128 ^ index = 2 ^ (7 * index) := by rw [Nat.pow_mul]
  have hshift : 7 * index % 2 ^ 64 % 64 = 7 * index := by omega
  apply UInt64.toNat_inj.1
  rw [UInt64.toNat_or, UInt64.toNat_shiftLeft, UInt8.toNat_toUInt64, toNat_and_low,
    UInt64.toNat_ofNat', UInt64.toNat_ofNat', UInt64.toNat_ofNat', Nat.mod_eq_of_lt hword,
    Nat.mod_eq_of_lt hsum, hshift, Nat.shiftLeft_eq, ← hpower, Nat.mod_eq_of_lt hmoved]
  rw [hpower] at hbefore ⊢
  rw [Nat.or_comm, ← Nat.shiftLeft_eq, ← Nat.shiftLeft_add_eq_or_of_lt hbefore, Nat.add_comm]

theorem gatherFrom_eq_decodeFrom (hbefore : before < 128 ^ index) :
    gatherFrom (7 * index) (UInt64.ofNat before) index bytes
      = (decodeFrom index before bytes).map fun (value, length) =>
          (UInt64.ofNat value, length) := by
  induction bytes generalizing index before with
  | nil => rfl
  | cons byte rest ih =>
    have hrefused : (64 ≤ 7 * index ∨ (7 * index = 63 ∧ 1 < byte)) ↔
        9 < index ∨ (index = 9 ∧ 1 < byte.toNat) := by
      rw [UInt8.lt_iff_toNat_lt]
      show (_ ∨ (_ ∧ 1 < _)) ↔ _
      omega
    rw [gatherFrom, decodeFrom]
    by_cases hguard : 9 < index ∨ (index = 9 ∧ 1 < byte.toNat)
    · rw [if_pos (hrefused.2 hguard), if_pos hguard]
      rfl
    · rw [if_neg (mt hrefused.1 hguard), if_neg hguard, gathered_eq hguard hbefore]
      by_cases hbyte : byte.toNat < 128
      · rw [if_pos (and_high_eq_zero.2 hbyte), if_pos hbyte]
        rfl
      · rw [if_neg (mt and_high_eq_zero.1 hbyte), if_neg hbyte]
        exact ih (add_digit_lt byte hbefore)

/-- In a 64-bit word no bit is lost. -/
theorem gather_eq_decode (bytes : List UInt8) :
    gather bytes = (decode bytes).map fun (value, length) => (UInt64.ofNat value, length) := by
  have hzero : (0 : Nat) < 128 ^ 0 := Nat.zero_lt_one
  exact gatherFrom_eq_decodeFrom hzero

/-! ### How many digits a number has -/

theorem encodedLength_pos (value : Nat) : 0 < encodedLength value := by
  rw [encodedLength]
  split
  · exact Nat.zero_lt_one
  · exact Nat.succ_pos _

/-- A number has no more digits than a power of the base that exceeds it has zeros. -/
theorem encodedLength_le_iff {count : Nat} (hcount : 0 < count) :
    encodedLength value ≤ count ↔ value < 128 ^ count := by
  fun_induction encodedLength value generalizing count with
  | case1 value hdigit =>
    have hle : 128 ^ 1 ≤ 128 ^ count := Nat.pow_le_pow_right (by decide) hcount
    exact iff_of_true hcount (by omega)
  | case2 value hmore ih =>
    obtain ⟨count, rfl⟩ := Nat.exists_eq_succ_of_ne_zero (Nat.ne_of_gt hcount)
    rw [Nat.succ_le_succ_iff, Nat.pow_succ]
    by_cases hone : count = 0
    · subst hone
      have hpos := encodedLength_pos (value / 128)
      exact iff_of_false (by omega) (by omega)
    · rw [ih (Nat.pos_of_ne_zero hone), Nat.div_lt_iff_lt_mul (by decide)]

/-- Seven bits a digit, and one digit at least. -/
theorem encodedLength_eq (value : Nat) :
    encodedLength value = (Packed.bitsNeeded value + 6) / 7 := by
  have hiff : ∀ count, 0 < count →
      (encodedLength value ≤ count ↔ (Packed.bitsNeeded value + 6) / 7 ≤ count) := by
    intro count hcount
    rw [encodedLength_le_iff hcount]
    have hpower : 128 ^ count = 2 ^ (7 * count) := by rw [Nat.pow_mul]
    constructor
    · intro hlt
      have hbits := Packed.bitsNeeded_le (hpower ▸ hlt) (by omega)
      omega
    · intro hle
      have hlt : value < 2 ^ Packed.bitsNeeded value :=
        Packed.lt_two_pow_bitsNeeded (Nat.le_refl _)
      rw [hpower]
      exact Nat.lt_of_lt_of_le hlt (Nat.pow_le_pow_right (by decide) (by omega))
  have hpos : 0 < (Packed.bitsNeeded value + 6) / 7 := by
    rw [Packed.bitsNeeded]
    omega
  exact Nat.le_antisymm ((hiff _ hpos).2 (Nat.le_refl _))
    ((hiff _ (encodedLength_pos value)).1 (Nat.le_refl _))

/-- No spelling of a number is shorter than the one that is written. -/
theorem encodedLength_le_of_decode (h : decode bytes = some (value, length)) :
    encodedLength value ≤ length := by
  obtain ⟨last, -, hlength, -, hvalue, -⟩ := decode_eq_some.1 h
  have htaken : (bytes.take length).length ≤ length := by
    rw [List.length_take]
    exact Nat.min_le_left ..
  rw [encodedLength_le_iff (by omega), hvalue]
  exact Nat.lt_of_lt_of_le (numeral_lt _) (Nat.pow_le_pow_right (by decide) htaken)

/-- A byte string is decoded exactly if the first byte whose high bit is clear is among the first
ten and the numeral up to it is below 2^64; a 64-bit word that takes the digits by shifts loses
none of its bits.  A number that is written is decoded whatever follows it, from as many bytes as
seven bits each take, and from fewer by no spelling. -/
theorem decode_spec :
    (∀ bytes value length, decode bytes = some (value, length) ↔
      ∃ last, bytes.findIdx? (· < 128) = some last ∧ length = last + 1 ∧ length ≤ maxLength ∧
        value = numeral (bytes.take length) ∧ value < bound) ∧
    (∀ bytes, gather bytes
      = (decode bytes).map fun (value, length) => (UInt64.ofNat value, length)) ∧
    ∀ value, value < bound →
      (∀ tail, decode (encode value ++ tail) = some (value, encodedLength value)) ∧
      encodedLength value = (Packed.bitsNeeded value + 6) / 7 ∧
      ∀ bytes length, decode bytes = some (value, length) → encodedLength value ≤ length := by
  refine ⟨fun bytes value length => decode_eq_some, gather_eq_decode, fun value hvalue => ?_⟩
  exact ⟨fun tail => decode_encode tail hvalue, encodedLength_eq value,
    fun bytes length h => encodedLength_le_of_decode h⟩

/-- Zeros behind the last digit do no harm, and bytes behind it are not looked at. -/
example : decode [0x85, 0x80, 0x00, 0xFF] = some (5, 3) ∧ encode 5 = [0x05] := by
  constructor
  · rfl
  · cbv

end Postings.Varint
