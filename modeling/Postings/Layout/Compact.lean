/-
The compact layout: the number of items as a varint, a bit width in one byte,
then every item packed at that width.

The width written is that of the last item, the largest of an ascending list; a
width read may be any from 1 to 32.
-/
import Postings.Bytes.Packed
import Postings.Search

namespace Postings.Layout

/-- A list in the compact layout. -/
structure Compact where
  packed : PackedArray
  bits_pos : 1 ≤ packed.bits
  bits_le : packed.bits ≤ 32

namespace Compact

/-- Appends a list in the compact layout. -/
def encode (items : List Item) (out : ByteArray) : ByteArray :=
  let bits := Packed.bitsNeeded ((items.getLast?.map UInt32.toNat).getD 0)
  let head := (Varint.encode items.length).toByteArray
  Packed.pack (items.map UInt32.toNat) bits ((out ++ head).push (UInt8.ofNat bits))

/-- Reads a list. -/
def read : Read Compact := do
  let size ← Read.varint32 "compact size"
  let bits ← Read.byte "compact bit width"
  if h : 1 ≤ bits ∧ bits ≤ 32 then
    let ⟨data, hdata⟩ ← Read.take (Packed.byteLength size bits) "compact values"
    return ⟨⟨data, bits, size, hdata⟩, h.1, h.2⟩
  else throw (.corrupt (.compactWidth bits))

/-- The number of items. -/
def size (list : Compact) : Nat :=
  list.packed.size

/-- The item at a position. -/
def get (list : Compact) (position : Fin list.size) : Item :=
  UInt32.ofNat (list.packed.get position)

/-- The position of an item. -/
def find? (list : Compact) (item : Item) : Option Nat :=
  Search.bisect list.size list.get item

end Compact

end Postings.Layout
