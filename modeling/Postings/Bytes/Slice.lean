/-
Parts of a byte string, cut out with a bounds check.

* `slice_eq_ok`, `sliceFrom_eq_ok` — a slice succeeds exactly inside the string.
-/
import Postings.Error

namespace Postings.Bytes

/-- The `length` bytes from `offset`. -/
def slice (bytes : ByteArray) (offset length : Nat) : Except Error ByteArray :=
  if offset + length ≤ bytes.size then
    .ok (bytes.extract offset (offset + length))
  else
    .error (.corrupt (.sliceOutside offset length bytes.size))

/-- The bytes from `offset` to the end. -/
def sliceFrom (bytes : ByteArray) (offset : Nat) : Except Error ByteArray :=
  if offset ≤ bytes.size then
    .ok (bytes.extract offset bytes.size)
  else
    .error (.corrupt (.offsetOutside offset bytes.size))

theorem slice_eq_ok {bytes part : ByteArray} {offset length : Nat} :
    slice bytes offset length = .ok part ↔
      offset + length ≤ bytes.size ∧ bytes.extract offset (offset + length) = part := by
  unfold slice
  split
  next h => simp [h]
  next h => simp [h]

theorem sliceFrom_eq_ok {bytes part : ByteArray} {offset : Nat} :
    sliceFrom bytes offset = .ok part ↔
      offset ≤ bytes.size ∧ bytes.extract offset bytes.size = part := by
  unfold sliceFrom
  split
  next h => simp [h]
  next h => simp [h]

/-- The one-line description of a byte region held in memory. -/
def describe (bytes : ByteArray) : String :=
  s!"SharedBytes \x7b len: {bytes.size}, mapped: false \x7d"

end Postings.Bytes
