/-
What a decoded variable-length number depends on.

* `decode_append`, `decode_take` — only the bytes that it takes count, so a decoded
  number stays what it is when bytes follow or are cut off behind it;
* `add_digit_lt_bound` — a digit that is accepted leaves the number below 2^64;
* `decode_length_le`, `decode_lt` — it takes at most ten bytes and stays below 2^64;
* `decode_eq_none_of_prefix` — a number that is cut short is refused.
-/
import Postings.Bytes.Varint

namespace Postings.Varint

theorem decodeFrom_append {index before value length : Nat} {bytes : List UInt8}
    (h : decodeFrom index before bytes = some (value, length)) (more : List UInt8) :
    decodeFrom index before (bytes ++ more) = some (value, length) := by
  fun_induction decodeFrom index before bytes with
  | case1 => simp at h
  | case2 => simp at h
  | case3 index before byte rest value' hin hlast =>
    rw [List.cons_append, decodeFrom]
    simpa only [if_neg hin, if_pos hlast] using h
  | case4 index before byte rest value' hin hmore ih =>
    rw [List.cons_append, decodeFrom]
    simpa only [if_neg hin, if_neg hmore] using ih h

theorem decodeFrom_length {index before value length : Nat} {bytes : List UInt8}
    (h : decodeFrom index before bytes = some (value, length)) :
    index < length ∧ length ≤ index + bytes.length ∧ length ≤ maxLength := by
  fun_induction decodeFrom index before bytes with
  | case1 => simp at h
  | case2 => simp at h
  | case3 index before byte rest value' hin hlast =>
    simp only [Option.some.injEq, Prod.mk.injEq] at h
    rw [← h.2, List.length_cons, maxLength]
    omega
  | case4 index before byte rest value' hin hmore ih =>
    have := ih h
    rw [List.length_cons]
    omega

theorem decodeFrom_take {index before value length : Nat} {bytes : List UInt8}
    (h : decodeFrom index before bytes = some (value, length)) :
    decodeFrom index before (bytes.take (length - index)) = some (value, length) := by
  fun_induction decodeFrom index before bytes with
  | case1 => simp at h
  | case2 => simp at h
  | case3 index before byte rest value' hin hlast =>
    have hlength : length = index + 1 := by
      simp only [Option.some.injEq, Prod.mk.injEq] at h
      exact h.2.symm
    rw [hlength, Nat.add_sub_cancel_left, List.take_succ_cons, decodeFrom]
    simpa only [if_neg hin, if_pos hlast, hlength] using h
  | case4 index before byte rest value' hin hmore ih =>
    have hlength := (decodeFrom_length h).1
    have hsucc : length - index = length - (index + 1) + 1 := by omega
    rw [hsucc, List.take_succ_cons, decodeFrom]
    simpa only [if_neg hin, if_neg hmore] using ih h

/-- A digit more, one place up. -/
theorem add_digit_lt {index before : Nat} (byte : UInt8) (hbefore : before < 128 ^ index) :
    before + byte.toNat % 128 * 128 ^ index < 128 ^ (index + 1) := by
  have hdigit : byte.toNat % 128 + 1 ≤ 128 := Nat.mod_lt _ (by decide)
  have hmul := Nat.mul_le_mul_right (128 ^ index) hdigit
  rw [Nat.succ_mul] at hmul
  rw [Nat.pow_succ]
  omega

/-- Ten bytes of seven bits are too many by six; the last byte makes up for it. -/
theorem add_digit_lt_bound {index before : Nat} {byte : UInt8}
    (hin : ¬ (9 < index ∨ (index = 9 ∧ 1 < byte.toNat))) (hbefore : before < 128 ^ index) :
    before + byte.toNat % 128 * 128 ^ index < bound := by
  rw [bound]
  by_cases htenth : index = 9
  · -- After nine bytes, one bit is left below the bound.
    subst htenth
    omega
  · have hnext := add_digit_lt byte hbefore
    have hle : 128 ^ (index + 1) ≤ 128 ^ 9 := Nat.pow_le_pow_right (by decide) (by omega)
    omega

theorem decodeFrom_lt {index before value length : Nat} {bytes : List UInt8}
    (h : decodeFrom index before bytes = some (value, length)) (hbefore : before < 128 ^ index) :
    value < bound := by
  fun_induction decodeFrom index before bytes with
  | case1 => simp at h
  | case2 => simp at h
  | case3 index before byte rest value' hin hlast =>
    simp only [Option.some.injEq, Prod.mk.injEq] at h
    rw [← h.1]
    exact add_digit_lt_bound hin hbefore
  | case4 index before byte rest value' hin hmore ih => exact ih h (add_digit_lt byte hbefore)

variable {bytes : List UInt8} {value length : Nat}

theorem decode_encode_self (h : value < bound) :
    decode (encode value) = some (value, (encode value).length) := by
  have hdecode := decode_encode [] h
  rwa [List.append_nil, ← length_encode] at hdecode

theorem decode_append (h : decode bytes = some (value, length)) (more : List UInt8) :
    decode (bytes ++ more) = some (value, length) :=
  decodeFrom_append h more

theorem decode_take (h : decode bytes = some (value, length)) :
    decode (bytes.take length) = some (value, length) :=
  decodeFrom_take h

theorem decode_length_le (h : decode bytes = some (value, length)) :
    length ≤ bytes.length ∧ length ≤ maxLength := by
  have := decodeFrom_length h
  omega

theorem decode_lt (h : decode bytes = some (value, length)) : value < bound :=
  decodeFrom_lt h Nat.zero_lt_one

theorem decode_eq_none_of_prefix (h : decode bytes = some (value, bytes.length))
    {front : List UInt8} (hfront : front <+: bytes) (hne : front ≠ bytes) :
    decode front = none := by
  obtain ⟨back, rfl⟩ := hfront
  cases hd : decode front with
  | none => rfl
  | some answer =>
    obtain ⟨value', length'⟩ := answer
    have hle := (decode_length_le hd).1
    rw [decode_append hd back, Option.some.injEq, Prod.mk.injEq] at h
    -- The two answers are one, so that the part in front already had all bytes.
    have hback : back = [] := by
      rw [← List.length_eq_zero_iff]
      rw [h.2, List.length_append] at hle
      omega
    rw [hback, List.append_nil] at hne
    exact absurd rfl hne

end Postings.Varint
