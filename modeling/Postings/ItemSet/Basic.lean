/-
Posting lists: strictly ascending lists of items, each held in some codec.

* `Form` — what a list looks like in memory, one form a codec;
* `ItemSet` — a form and, unless it is a vector, the bytes it was read from or
  written to, tag included;
* `ItemSet.get`, `ItemSet.find?` — the item at a position and the position of an item;
* `ItemSet.toBytes` — the tagged bytes, native for a vector.

Design notes: the size of a list is a 32-bit number.  A vector of 2^32 items, the
only list that could be longer, reports size 0.
-/
import Postings.Layout.Native
import Postings.Layout.Compact
import Postings.Layout.Progression
import Postings.Layout.Line
import Postings.Layout.Frame

namespace Postings

open Layout

/-- How a posting list is held. -/
inductive Form where
  | native (list : Native)
  | vector (items : Array Item)
  | range (list : Progression)
  | compact (list : Compact)
  | line (list : Ascent)
  | frame (list : Frame)

namespace Form

/-- The codec of a form. -/
def codec : Form → Codec
  | native _ => .native
  | vector _ => .vector
  | range _ => .range
  | compact _ => .compact
  | line _ => .line
  | frame _ => .frame

/-- The number of items. -/
def size : Form → Nat
  | native list => list.size
  | vector items => items.size % 2 ^ 32
  | range list => list.size
  | compact list => list.size
  | line list => list.size
  | frame list => list.size

/-- The item at a position. -/
def get : (form : Form) → Fin form.size → Item
  | native list, position => list.get position
  | vector items, position =>
    have h : position.val < items.size := Nat.lt_of_lt_of_le position.isLt (Nat.mod_le ..)
    items[position.val]
  | range list, position => list.get position
  | compact list, position => list.get position
  | line list, position => list.get position
  | frame list, position => list.get position

/-- The position of an item. -/
def find? (item : Item) : Form → Option Nat
  | native list => list.find? item
  | vector items => Search.locate items item
  | range list => list.find? item
  | compact list => list.find? item
  | line list => list.find? item
  | frame list => list.find? item

end Form

/-- A posting list. -/
structure ItemSet where
  form : Form
  /-- The exact tagged bytes; vectors have none. -/
  encoded : Option ByteArray

/-- Bits an item for `size` items in `bytes` bytes, 0 for no item. -/
def bitsPerItem (bytes size : Nat) : Float :=
  if size = 0 then 0.0
  else (UInt64.ofNat (bytes * 8)).toFloat / (UInt64.ofNat size).toFloat

namespace ItemSet

/-- The list held as a vector. -/
def ofAscending (items : Array Item) : ItemSet :=
  ⟨.vector items, none⟩

/-- The list without items. -/
def empty : ItemSet :=
  ofAscending #[]

/-- The list held as a vector, if it strictly ascends. -/
def ofList (items : List Item) : Except Error ItemSet :=
  match firstDescent? items with
  | some position => .error (.unsorted position)
  | none => .ok (ofAscending items.toArray)

/-- The byte that announces a codec, as the start of an output. -/
def tagByte (codec : Codec) : ByteArray :=
  [UInt8.ofNat codec.tag].toByteArray

/-- The items `begin`, `begin + stride`, … below `stop`. -/
def ofRange (begin : Item) (stop : Nat) (stride : UInt32) : Except Error ItemSet := do
  let range ← Progression.make begin stop stride
  return ⟨.range range, some (range.encode (tagByte .range))⟩

/-- The codec of a list. -/
def codec (set : ItemSet) : Codec :=
  set.form.codec

/-- The number of items. -/
def size (set : ItemSet) : Nat :=
  set.form.size

/-- Whether there is no item. -/
def isEmpty (set : ItemSet) : Bool :=
  set.size = 0

/-- The item at a position. -/
def get (set : ItemSet) (position : Nat) : Except Error Item :=
  if h : position < set.size then .ok (set.form.get ⟨position, h⟩)
  else .error (.outOfBounds position set.size)

/-- The least item. -/
def first (set : ItemSet) : Except Error Item :=
  set.get 0

/-- The greatest item. -/
def last (set : ItemSet) : Except Error Item :=
  set.get (set.size - 1)

/-- The position of an item. -/
def find? (set : ItemSet) (item : Item) : Option Nat :=
  set.form.find? item

/-- Whether an item is a member. -/
def contains (set : ItemSet) (item : Item) : Bool :=
  (set.find? item).isSome

/-- The number of tagged bytes. -/
def byteLength (set : ItemSet) : Nat :=
  match set.encoded with
  | some bytes => bytes.size
  | none => 1 + 4 + 4 * set.size

/-- Bits an item of the tagged bytes. -/
def bitsPerItem (set : ItemSet) : Float :=
  Postings.bitsPerItem set.byteLength set.size

end ItemSet

end Postings
