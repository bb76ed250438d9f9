/-
The native layout: the number of items in four bytes, then every item in four
bytes, least significant byte first.

* `Native.encode` — appends a list in this layout; the count keeps its low 32 bits;
* `Native.read` — reads a list back; `values_size` says that all its items are there.
-/
import Postings.Bytes.Reader
import Postings.Search

namespace Postings.Layout

/-- A list in the native layout. -/
structure Native where
  values : ByteArray
  size : Nat
  values_size : values.size = 4 * size

namespace Native

/-- Appends every item in four bytes. -/
def encodeItems (items : List Item) (out : ByteArray) : ByteArray :=
  items.foldl (fun out item => Bytes.pushLE out item.toNat 4) out

/-- Appends a list in the native layout. -/
def encode (items : List Item) (out : ByteArray) : ByteArray :=
  encodeItems items (Bytes.pushLE out items.length 4)

/-- Reads a list. -/
def read : Read Native := do
  let size ← Read.word32 "native size"
  let ⟨values, h⟩ ← Read.take (4 * size) "native values"
  return ⟨values, size, h⟩

/-- The item at a position. -/
def get (list : Native) (position : Fin list.size) : Item :=
  UInt32.ofNat (Bytes.leAt list.values (4 * position) 4)

/-- The position of an item. -/
def find? (list : Native) (item : Item) : Option Nat :=
  Search.bisect list.size list.get item

/-- The bytes of the layout. -/
def byteLength (list : Native) : Nat :=
  4 + list.values.size

end Native

end Postings.Layout
