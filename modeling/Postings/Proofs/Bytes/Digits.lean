/-
Byte strings as numbers to the base 256, least significant digit first.

* `number`, `digits` — the number that bytes stand for, and the low bytes of a number;
* `number_digits`, `digits_number` — each is told by the other;
* `leAt_eq_number` — reading a number sees the bytes that are there, zeros after them;
* `pushLE_eq` — writing a number appends its digits.
-/
import Postings.Bytes.Little

namespace Postings.Bytes

/-- The number that bytes stand for. -/
def number : List UInt8 → Nat
  | [] => 0
  | byte :: rest => byte.toNat + 256 * number rest

/-- The low `count` bytes of a number. -/
def digits (value : Nat) : (count : Nat) → List UInt8
  | 0 => []
  | count + 1 => UInt8.ofNat value :: digits (value / 256) count

@[simp] theorem number_nil : number [] = 0 := rfl

@[simp] theorem length_digits (value count : Nat) : (digits value count).length = count := by
  induction count generalizing value with
  | zero => rfl
  | succ count ih => rw [digits, List.length_cons, ih]

theorem number_append (front back : List UInt8) :
    number (front ++ back) = number front + 256 ^ front.length * number back := by
  induction front with
  | nil => simp
  | cons byte rest ih =>
    rw [List.cons_append, number, number, ih, List.length_cons, Nat.pow_succ, Nat.mul_add]
    rw [Nat.mul_comm (256 ^ rest.length) 256, Nat.mul_assoc]
    omega

theorem number_lt (bytes : List UInt8) : number bytes < 256 ^ bytes.length := by
  induction bytes with
  | nil => simp
  | cons byte rest ih =>
    have hb := UInt8.toNat_lt byte
    rw [number, List.length_cons, Nat.pow_succ]
    omega

theorem number_drop (bytes : List UInt8) (count : Nat) :
    number (bytes.drop count) = number bytes / 256 ^ count := by
  induction count generalizing bytes with
  | zero => simp
  | succ count ih =>
    cases bytes with
    | nil => simp
    | cons byte rest =>
      have hb := UInt8.toNat_lt byte
      rw [List.drop_succ_cons, ih, number, Nat.pow_succ', ← Nat.div_div_eq_div_mul]
      congr 1
      omega

theorem number_take (bytes : List UInt8) (count : Nat) :
    number (bytes.take count) = number bytes % 256 ^ count := by
  induction count generalizing bytes with
  | zero => simp [Nat.mod_one]
  | succ count ih =>
    cases bytes with
    | nil => simp
    | cons byte rest =>
      have hb := UInt8.toNat_lt byte
      rw [List.take_succ_cons, number, number, ih, Nat.pow_succ', Nat.mod_mul]
      have hmod : (byte.toNat + 256 * number rest) % 256 = byte.toNat := by omega
      have hdiv : (byte.toNat + 256 * number rest) / 256 = number rest := by omega
      rw [hmod, hdiv]

theorem number_digits (value count : Nat) : number (digits value count) = value % 256 ^ count := by
  induction count generalizing value with
  | zero => simp [digits, Nat.mod_one]
  | succ count ih =>
    rw [digits, number, ih, Nat.pow_succ', Nat.mod_mul, UInt8.toNat_ofNat']

theorem digits_number (bytes : List UInt8) : digits (number bytes) bytes.length = bytes := by
  induction bytes with
  | nil => rfl
  | cons byte rest ih =>
    have hbyte := UInt8.toNat_lt byte
    have hdiv : (byte.toNat + 256 * number rest) / 256 = number rest := by omega
    rw [number, List.length_cons, digits, hdiv, ih]
    congr 1
    apply UInt8.toNat_inj.1
    rw [UInt8.toNat_ofNat']
    omega

/-! ### Reading and writing -/

theorem byteAt_eq (bytes : ByteArray) (position : Nat) :
    byteAt bytes position = (bytes.data.toList[position]?.map UInt8.toNat).getD 0 := by
  unfold byteAt
  split
  next h =>
    rw [List.getElem?_eq_getElem (by simpa using h)]
    rfl
  next h =>
    rw [List.getElem?_eq_none (by simpa using Nat.le_of_not_lt h)]
    rfl

/-- Reading sees the bytes that are there; those past the end count as zero. -/
theorem leAt_eq_number (bytes : ByteArray) (start count : Nat) :
    leAt bytes start count = number ((bytes.data.toList.drop start).take count) := by
  induction count generalizing start with
  | zero => simp [leAt]
  | succ count ih =>
    rw [leAt, ih, byteAt_eq]
    by_cases h : start < bytes.data.toList.length
    · rw [List.drop_eq_getElem_cons h, List.take_succ_cons, number, List.getElem?_eq_getElem h]
      rfl
    · rw [List.drop_eq_nil_of_le (by omega), List.drop_eq_nil_of_le (by omega),
        List.getElem?_eq_none (by omega)]
      simp

theorem pushLE_eq (out : ByteArray) (value count : Nat) :
    pushLE out value count = out ++ (digits value count).toByteArray := by
  induction count generalizing out value with
  | zero => simp [pushLE, digits]
  | succ count ih =>
    rw [pushLE, ih, digits]
    apply ByteArray.ext
    simp [ByteArray.data_append, List.data_toByteArray]

end Postings.Bytes
