/-
Reading a posting list from its least item on.

A cursor is what is left of a list.  Lists with random access are read position
by position, progressions by adding the stride, and blocks of gaps are decoded
one whole block at a time.

* `Cursor.remaining` — exactly how many items are left;
* `ItemSet.cursor` — the start of a list;
* `ItemSet.items` — all items.
-/
import Postings.Source
import Postings.ItemSet.Basic

namespace Postings

open Layout

/-- What is left of a posting list. -/
inductive Cursor where
  /-- The items from a position on. -/
  | scan (size : Nat) (get : Fin size → Item) (position : Nat)
  /-- `count` items, `next` the first, `stride` apart. -/
  | steps (next stride count : Nat)
  /-- Decoded items, then blocks not decoded yet. -/
  | blocks (buffer : List Item) (blocks : List Block)

namespace Cursor

/-- The number of items left. -/
def remaining : Cursor → Nat
  | scan size _ position => size - position
  | steps _ _ count => count
  | blocks buffer rest =>
    buffer.length + rest.foldr (fun block count => block.size + count) 0

/-- The next item and what is left after it. -/
def next? : Cursor → Option (Item × Cursor)
  | scan size get position =>
    if h : position < size then some (get ⟨position, h⟩, scan size get (position + 1)) else none
  | steps _ _ 0 => none
  | steps next stride (count + 1) =>
    some (UInt32.ofNat next, steps (next + stride) stride count)
  | blocks (item :: buffer) rest => some (item, blocks buffer rest)
  -- A new block gives its first item at once and has its gaps decoded in one pass.
  | blocks [] (block :: rest) => some (block.first, blocks block.rest.toList rest)
  | blocks [] [] => none

theorem remaining_next? {cursor cursor' : Cursor} {item : Item}
    (h : cursor.next? = some (item, cursor')) : cursor'.remaining + 1 = cursor.remaining := by
  match cursor with
  | scan size get position =>
    simp only [next?] at h
    split at h
    next hlt =>
      simp only [Option.some.injEq, Prod.mk.injEq] at h
      rw [← h.2]
      simp only [remaining]
      omega
    next => simp at h
  | steps next stride 0 => simp [next?] at h
  | steps next stride (count + 1) =>
    simp only [next?, Option.some.injEq, Prod.mk.injEq] at h
    rw [← h.2]
    rfl
  | blocks (item :: buffer) rest =>
    simp only [next?, Option.some.injEq, Prod.mk.injEq] at h
    rw [← h.2]
    simp only [remaining, List.length_cons]
    omega
  | blocks [] (block :: rest) =>
    simp only [next?, Option.some.injEq, Prod.mk.injEq] at h
    rw [← h.2]
    simp only [remaining, List.foldr_cons, List.length_nil, Array.length_toList,
      Block.rest, size_runningSums, Block.size, List.size_toArray]
    omega
  | blocks [] [] => simp [next?] at h

end Cursor

/-- A cursor gives the items that are left. -/
instance : Source Cursor where
  next? := Cursor.next?
  left := Cursor.remaining
  left_lt h := by have := Cursor.remaining_next? h; omega

namespace Form

/-- The start of a list. -/
def cursor : Form → Cursor
  | native list => .scan list.size list.get 0
  | vector items => .scan items.size (fun position => getElem items position.val position.isLt) 0
  | range list => .steps list.begin.toNat list.stride.toNat list.size
  | compact list => .scan list.size list.get 0
  | line list => .scan list.size list.get 0
  | frame list => .blocks [] list.blocks.toList

end Form

namespace ItemSet

/-- The start of a list. -/
def cursor (set : ItemSet) : Cursor :=
  set.form.cursor

/-- All items. -/
def items (set : ItemSet) : List Item :=
  match set.form with
  | .vector items => items.toList
  | form => (Source.toArray form.cursor).toList

/-- Whether two lists have the same items. -/
def beq (left right : ItemSet) : Bool :=
  left.size = right.size && Source.beq left.cursor right.cursor

instance : BEq ItemSet := ⟨beq⟩

/-- The tagged bytes, native for a vector. -/
def toBytes (set : ItemSet) : ByteArray :=
  match set.encoded with
  | some bytes => bytes
  | none => Native.encode set.items (tagByte .native)

end ItemSet

end Postings
