/-
Collecting ascending items into a native posting list.

* `Writer.push` — appends an item;
* `Writer.finish` — seals the bytes behind a tag and the number of items;
* `Writer.collect` — everything that a walk gives.

Design notes: the number of items keeps its low 32 bits, and the sealed list has
as many items as that number says.
-/
import Postings.ItemSet.Basic
import Postings.Walk

namespace Postings

open Layout

/-- Items in native layout, without their number in front. -/
structure Writer where
  values : ByteArray
  count : Nat
  values_size : values.size = 4 * count

namespace Writer

/-- Nothing collected. -/
def empty : Writer :=
  ⟨ByteArray.empty, 0, rfl⟩

/-- Appends an item. -/
def push (writer : Writer) (item : Item) : Writer :=
  ⟨Bytes.pushLE writer.values item.toNat 4, writer.count + 1, by
    rw [Bytes.size_pushLE, writer.values_size]; omega⟩

/-- The number of items, in 32 bits. -/
def size (writer : Writer) : Nat :=
  writer.count % 2 ^ 32

/-- The collected items as a posting list. -/
def finish (writer : Writer) : ItemSet :=
  let head := Bytes.pushLE (ItemSet.tagByte .native) writer.size 4
  let values := writer.values.extract 0 (4 * writer.size)
  ⟨.native ⟨values, writer.size, by
      have := Nat.mod_le writer.count (2 ^ 32)
      rw [ByteArray.size_extract, writer.values_size]
      simp only [size]
      omega⟩,
    some (head ++ writer.values)⟩

/-- Everything that a walk gives, as a posting list. -/
def collect {σ : Type} [Walk σ] (s : σ) : ItemSet :=
  (Walk.run push empty s).finish

/-- The first `count` items that a walk gives and `filter` passes, as a posting list. -/
def collectFirst {σ : Type} [Walk σ] (count : Nat) (filter : Item → Bool) (s : σ) : ItemSet :=
  if count = 0 then empty.finish
  else
    let emit := fun (writer : Writer) (item : Item) =>
      let writer := if filter item then writer.push item else writer
      (writer, decide (writer.size < count))
    (Walk.runWhile emit empty s).finish

end Writer

end Postings
