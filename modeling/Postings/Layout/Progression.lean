/-
Arithmetic progressions: `begin`, `begin + stride`, … below the end `stop`.

The layout is the three numbers as varints; nothing is stored per item.

* `Progression.make` — the only way to build one from numbers: the stride is positive, the end
  is neither below the begin nor above 2^32, and there are fewer than 2^32 items;
* `Progression.detect?` — the progression that enumerates a list, if the list is one.
-/
import Postings.Bytes.Reader
import Postings.Item

namespace Postings.Layout

/-- The items `begin`, `begin + stride`, … below `stop`. -/
structure Progression where
  begin : Item
  stop : Nat
  stride : UInt32
  stride_pos : 0 < stride.toNat
  begin_le : begin.toNat ≤ stop
  stop_le : stop ≤ 2 ^ 32
  size_lt : (stop - begin.toNat + stride.toNat - 1) / stride.toNat < 2 ^ 32
  deriving DecidableEq

namespace Progression

/-- The number of items. -/
def size (range : Progression) : Nat :=
  (range.stop - range.begin.toNat + range.stride.toNat - 1) / range.stride.toNat

/-- The progression with these numbers. -/
def make (begin : Item) (stop : Nat) (stride : UInt32) : Except Error Progression :=
  if hstride : stride.toNat = 0 then .error (.corrupt .zeroStride)
  else if hstop : 2 ^ 32 < stop then .error (.corrupt (.endOutside stop))
  else if hbegin : stop < begin.toNat then
    .error (.corrupt (.endBelowBegin stop begin.toNat))
  else
    let size := (stop - begin.toNat + stride.toNat - 1) / stride.toNat
    if hsize : size < 2 ^ 32 then
      .ok ⟨begin, stop, stride, Nat.pos_of_ne_zero hstride, Nat.le_of_not_lt hbegin,
        Nat.le_of_not_lt hstop, hsize⟩
    else .error (.overflow (.rangeSize size))

/-- The progression without items. -/
def empty : Progression :=
  ⟨0, 0, 1, by decide, by decide, by decide, by decide⟩

/-- Every item of `items` exceeds the one before it, starting from `previous`, by `stride`. -/
def isSteady (stride : UInt32) (previous : Item) : List Item → Bool
  | [] => true
  | item :: rest =>
    item.toNat = previous.toNat + stride.toNat && isSteady stride item rest

/-- The progression that enumerates a list. -/
def detect? : List Item → Option Progression
  | [] => some empty
  | [item] => (make item (item.toNat + 1) 1).toOption
  | first :: second :: rest =>
    let stride := second - first
    if first < second && isSteady stride second rest then
      let last := rest.getLast?.getD second
      (make first (last.toNat + 1) stride).toOption
    else none

/-- Appends the three numbers. -/
def encode (range : Progression) (out : ByteArray) : ByteArray :=
  out ++ (Varint.encode range.begin.toNat ++ Varint.encode range.stop
    ++ Varint.encode range.stride.toNat).toByteArray

/-- Reads the three numbers. -/
def read : Read Progression := do
  let begin ← Read.varint32 "range begin"
  let stop ← Read.varint "range end"
  let stride ← Read.varint32 "range stride"
  match make (UInt32.ofNat begin) stop (UInt32.ofNat stride) with
  | .ok range => return range
  | .error error => throw error

/-- The bytes that `encode` appends. -/
def byteLength (range : Progression) : Nat :=
  Varint.encodedLength range.begin.toNat + Varint.encodedLength range.stop
    + Varint.encodedLength range.stride.toNat

/-- The item at a position. -/
def get (range : Progression) (position : Nat) : Item :=
  UInt32.ofNat (range.begin.toNat + position * range.stride.toNat)

/-- The position of an item. -/
def find? (range : Progression) (item : Item) : Option Nat :=
  if item.toNat < range.begin.toNat ∨ range.stop ≤ item.toNat then none
  else
    let offset := item.toNat - range.begin.toNat
    if offset % range.stride.toNat = 0 then some (offset / range.stride.toNat) else none

end Progression

end Postings.Layout
