/-
Fixed-width bit packing.

Element `i` of a packed array of width `w` takes the bits from `i * w` to
`(i + 1) * w`, counted from the low bit of the first byte.  Width 0 stores
nothing and every element reads back as 0; an element is at most 64 bits.

* `bitsNeeded` — the least width, at least 1, that holds a number;
* `pack` — appends a list of elements to the output, streaming through an
  accumulator of less than eight bits;
* `unpackAt` — one element; bytes past the end count as zero;
* `bitLength_eq` — bits are counted in 64-bit words, which is exact below `2 ^ 64`.

Design notes: `PackedArray` carries the exact length of its bytes as a field, so
that reading an element in range never leaves them.
-/
import Postings.Bytes.Reader
import Postings.Bytes.Slice

namespace Postings

namespace Packed

/-- The least width, at least 1, that holds `value`. -/
def bitsNeeded (value : Nat) : Nat :=
  value.log2 + 1

/-- The bits that `count` elements of width `bits` take, as a 64-bit word. -/
def bitLength (count bits : Nat) : Nat :=
  (UInt64.ofNat count * UInt64.ofNat bits).toNat

theorem bitLength_eq_mod (count bits : Nat) : bitLength count bits = count * bits % 2 ^ 64 := by
  rw [bitLength, UInt64.toNat_mul, UInt64.toNat_ofNat', UInt64.toNat_ofNat', ← Nat.mul_mod]

theorem bitLength_eq {count bits : Nat} (h : count * bits < 2 ^ 64) :
    bitLength count bits = count * bits := by
  rw [bitLength_eq_mod, Nat.mod_eq_of_lt h]

/-- The bytes that `count` elements of width `bits` take. -/
def byteLength (count bits : Nat) : Nat :=
  (bitLength count bits + 7) / 8

theorem byteLength_eq {count bits : Nat} (h : count * bits < 2 ^ 64) :
    byteLength count bits = (count * bits + 7) / 8 := by
  rw [byteLength, bitLength_eq h]

/-- Packed output under way: whole bytes, and the low `heldBits` bits of `held` after them. -/
structure Packer where
  out : ByteArray
  held : Nat
  heldBits : Nat

namespace Packer

/-- Moves whole bytes from the held bits to the output. -/
def flushBytes (out : ByteArray) (held : Nat) (heldBits : Nat) : Packer :=
  if 8 ≤ heldBits then
    flushBytes (out.push (UInt8.ofNat held)) (held / 256) (heldBits - 8)
  else ⟨out, held, heldBits⟩
termination_by heldBits

/-- Appends the low `bits` bits of one element. -/
def push (bits : Nat) (packer : Packer) (value : Nat) : Packer :=
  flushBytes packer.out (packer.held + value % 2 ^ min bits 64 * 2 ^ packer.heldBits)
    (packer.heldBits + bits)

/-- The output with the held bits in a last byte. -/
def finish (packer : Packer) : ByteArray :=
  if 0 < packer.heldBits then packer.out.push (UInt8.ofNat packer.held) else packer.out

end Packer

/-- Appends the elements at `bits` bits each. -/
def pack (values : List Nat) (bits : Nat) (out : ByteArray) : ByteArray :=
  if bits = 0 then out
  else (values.foldl (Packer.push bits) ⟨out, 0, 0⟩).finish

/-- The `bits` bits from bit `start` on, of which at most 64 are kept. -/
def bitsFrom (data : ByteArray) (bits start : Nat) : Nat :=
  let shift := start % 8
  Bytes.leAt data (start / 8) ((shift + bits + 7) / 8) / 2 ^ shift % 2 ^ min bits 64

/-- The element at `position` of an array packed at `bits` bits each. -/
def unpackAt (data : ByteArray) (bits position : Nat) : Nat :=
  bitsFrom data bits (bitLength position bits)

theorem unpackAt_eq {bits position : Nat} (data : ByteArray) (h : position * bits < 2 ^ 64) :
    unpackAt data bits position = bitsFrom data bits (position * bits) := by
  rw [unpackAt, bitLength_eq h]

end Packed

/-- An array of `size` elements of `bits` bits each. -/
structure PackedArray where
  data : ByteArray
  bits : Nat
  size : Nat
  data_size : data.size = Packed.byteLength size bits

namespace PackedArray

/-- The element at `position`. -/
def get (array : PackedArray) (position : Nat) : Nat :=
  Packed.unpackAt array.data array.bits position

/-- The array of `size` elements that starts at `offset` of `region`. -/
def ofRegion (region : ByteArray) (offset bits size : Nat) : Except Error PackedArray :=
  if 64 < bits then .error (.corrupt (.elementWidth bits))
  else
    let length := Packed.byteLength size bits
    if h : offset + length ≤ region.size then
      .ok ⟨region.extract offset (offset + length), bits, size, by
        rw [ByteArray.size_extract]; omega⟩
    else .error (.corrupt (.sliceOutside offset length region.size))

/-- Reads the array of `size` elements that comes next. -/
def read (size bits : Nat) (what : String) : Read PackedArray := do
  let ⟨data, h⟩ ← Read.take (Packed.byteLength size bits) what
  return ⟨data, bits, size, h⟩

/-- Every element, in order. -/
def toList (array : PackedArray) : List Nat :=
  (List.range array.size).map array.get

end PackedArray

end Postings
