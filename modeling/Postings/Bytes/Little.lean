/-
Numbers in bytes, least significant byte first.

Reading is total: a byte past the end counts as zero, and `readLE?` refuses
where that would happen.  Writing keeps the low bytes of the number.

* `leAt_lt` — a number read from `n` bytes is below `256 ^ n`;
* `size_pushLE` — writing `n` bytes grows the output by `n`.
-/
import Postings.Power

namespace Postings.Bytes

/-- The byte at `position`, zero past the end. -/
def byteAt (bytes : ByteArray) (position : Nat) : Nat :=
  if h : position < bytes.size then bytes[position].toNat else 0

/-- The number in the `count` bytes from `start`. -/
def leAt (bytes : ByteArray) (start : Nat) : (count : Nat) → Nat
  | 0 => 0
  | count + 1 => byteAt bytes start + 256 * leAt bytes (start + 1) count

/-- The number in the `count` bytes from `start`, if there are as many. -/
def readLE? (bytes : ByteArray) (start count : Nat) : Option Nat :=
  if start + count ≤ bytes.size then some (leAt bytes start count) else none

/-- Appends the low `count` bytes of `value`. -/
def pushLE (out : ByteArray) (value : Nat) : (count : Nat) → ByteArray
  | 0 => out
  | count + 1 => pushLE (out.push (UInt8.ofNat value)) (value / 256) count

theorem byteAt_lt (bytes : ByteArray) (position : Nat) : byteAt bytes position < 256 := by
  unfold byteAt
  split
  · exact UInt8.toNat_lt _
  · decide

theorem leAt_lt (bytes : ByteArray) (start count : Nat) :
    leAt bytes start count < 256 ^ count := by
  induction count generalizing start with
  | zero => simp [leAt]
  | succ count ih =>
    have hb := byteAt_lt bytes start
    have ht := ih (start + 1)
    rw [leAt, Nat.pow_succ]
    omega

@[simp] theorem size_pushLE (out : ByteArray) (value count : Nat) :
    (pushLE out value count).size = out.size + count := by
  induction count generalizing out value with
  | zero => rfl
  | succ count ih => rw [pushLE, ih, ByteArray.size_push]; omega

end Postings.Bytes
