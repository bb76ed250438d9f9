/-
The frame-of-reference layout: the number of items, the block size and the
number of blocks as varints, then a record for every block.  A record is the
block's first item as a varint, a bit width in one byte, and the gaps between
its items packed at that width.

* `Block.get` — an isolated item of a block, by a prefix sum over its gaps;
* `Block.rest` — all items of a block after the first, by one pass over its gaps;
* `Tiles` — every block is full but the last, which has what is left;
* `Frame.read` — reads the records; there are `ceil (size / blockSize)` of them.

Design notes: items are 32-bit words and the sums wrap, so bytes that were never
written by `Frame.encode` still read as something.
-/
import Postings.Bytes.Packed
import Postings.Search

namespace Postings.Layout

/-- The sums of the gaps from `position` on, `count` of them, added to `previous`; appended to
`out`. -/
def runningSums (data : ByteArray) (bits position : Nat) (previous : Item) :
    (count : Nat) → Array Item → Array Item
  | 0, out => out
  | count + 1, out =>
    let item := previous + UInt32.ofNat (Packed.unpackAt data bits position)
    runningSums data bits (position + 1) item count (out.push item)

@[simp] theorem size_runningSums (data : ByteArray) (bits position : Nat)
    (previous : Item) (count : Nat) (out : Array Item) :
    (runningSums data bits position previous count out).size = out.size + count := by
  induction count generalizing position previous out with
  | zero => rfl
  | succ count ih => rw [runningSums, ih, Array.size_push]; omega

/-- Packs gaps at `bits` bits each. -/
def packGaps (gaps : List Item) (bits : Nat) (out : ByteArray) : ByteArray :=
  Packed.pack (gaps.map UInt32.toNat) bits out

/-- A run of items: the first, and the gaps to the later ones. -/
structure Block where
  first : Item
  gaps : PackedArray

namespace Block

/-- The number of items. -/
def size (block : Block) : Nat :=
  block.gaps.size + 1

/-- The items after the first. -/
def rest (block : Block) : Array Item :=
  runningSums block.gaps.data block.gaps.bits 0 block.first block.gaps.size #[]

/-- The items. -/
def items (block : Block) : Array Item :=
  #[block.first] ++ block.rest

/-- The item at a position, by the sum of the gaps before it. -/
def get (block : Block) (position : Nat) : Item :=
  position.fold (fun i _ sum => sum + UInt32.ofNat (block.gaps.get i)) block.first

end Block

/-- The blocks stand at the front of a list of `size` items cut every `blockSize` items. -/
def Tiles (size blockSize : Nat) (blocks : Array Block) : Prop :=
  ∀ index (h : index < blocks.size),
    blocks[index].size = min blockSize (size - index * blockSize)

theorem Tiles.empty (size blockSize : Nat) : Tiles size blockSize #[] :=
  fun _ h => absurd h (Nat.not_lt_zero _)

theorem Tiles.push {size blockSize : Nat} {blocks : Array Block} {block : Block}
    (h : Tiles size blockSize blocks)
    (hblock : block.size = min blockSize (size - blocks.size * blockSize)) :
    Tiles size blockSize (blocks.push block) := by
  intro index hi
  rw [Array.size_push] at hi
  rw [Array.getElem_push]
  split
  next hlt => exact h index hlt
  next hge =>
    obtain rfl : index = blocks.size := by omega
    exact hblock

/-- A list in the frame-of-reference layout. -/
structure Frame where
  size : Nat
  blockSize : Nat
  blockSize_pos : 0 < blockSize
  blocks : Array Block
  blocks_size : blocks.size = (size + blockSize - 1) / blockSize
  tiles : Tiles size blockSize blocks

namespace Frame

/-- The gaps between neighbours of `previous :: items`. -/
def gapsFrom (previous : Item) (items : List Item) : List Item :=
  items.zipWith (fun item before => item - before) (previous :: items)

/-- The width of a block's gaps, 0 for a block without gaps. -/
def gapBits (gaps : List Item) : Nat :=
  match gaps with
  | [] => 0
  | gap :: rest => Packed.bitsNeeded (rest.foldl (fun most g => max most g.toNat) gap.toNat)

/-- Appends the record of the block `first :: items`. -/
def encodeBlock (first : Item) (items : List Item) (out : ByteArray) : ByteArray :=
  let gaps := gapsFrom first items
  let bits := gapBits gaps
  packGaps gaps bits
    ((out ++ (Varint.encode first.toNat).toByteArray).push (UInt8.ofNat bits))

/-- Appends the records of a list cut into blocks of `blockSize` items. -/
def encodeBlocks (blockSize : Nat) : List Item → ByteArray → ByteArray
  | [], out => out
  | item :: items, out =>
    encodeBlocks blockSize (items.drop (blockSize - 1))
      (encodeBlock item (items.take (blockSize - 1)) out)
termination_by items => items.length
decreasing_by simp only [List.length_drop, List.length_cons]; omega

/-- Appends a list in the frame-of-reference layout. -/
def encode (items : List Item) (blockSize : Nat) (out : ByteArray) : Except Error ByteArray :=
  if blockSize = 0 then .error (.unsupported .zeroBlockSize)
  else
    let head := Varint.encode items.length ++ Varint.encode blockSize
      ++ Varint.encode ((items.length + blockSize - 1) / blockSize)
    .ok (encodeBlocks blockSize items (out ++ head.toByteArray))

/-- Reads the record of a block of `size` items. -/
def readBlock (size : Nat) (hsize : 0 < size) : Read { block : Block // block.size = size } := do
  let first ← Read.varint32 "FoR block start"
  let bits ← Read.byte "FoR block width"
  if 32 < bits ∨ (bits = 0 ∧ 1 < size) then throw (.corrupt (.blockWidth bits size))
  else
    let ⟨data, h⟩ ← Read.take (Packed.byteLength (size - 1) bits) "FoR block deltas"
    return ⟨⟨UInt32.ofNat first, ⟨data, bits, size - 1, h⟩⟩, Nat.sub_add_cancel hsize⟩

/-- Before the last block there are items left. -/
theorem mul_lt_of_lt_ceil {size blockSize index : Nat} (hpos : 0 < blockSize)
    (h : index < (size + blockSize - 1) / blockSize) : index * blockSize < size := by
  have hle := (Nat.le_div_iff_mul_le hpos).1 (Nat.succ_le_of_lt h)
  rw [Nat.succ_mul] at hle
  omega

/-- Reads the last `count` records of a list, after the records in `blocks`. -/
def readBlocks (size blockSize : Nat) (hpos : 0 < blockSize) :
    (count : Nat) → (blocks : Array Block) → Tiles size blockSize blocks →
    blocks.size + count = (size + blockSize - 1) / blockSize →
    Read { blocks : Array Block //
      blocks.size = (size + blockSize - 1) / blockSize ∧ Tiles size blockSize blocks }
  | 0, blocks, htiles, hcount => return ⟨blocks, hcount, htiles⟩
  | count + 1, blocks, htiles, hcount => do
    have hleft : blocks.size * blockSize < size := mul_lt_of_lt_ceil hpos (by omega)
    let ⟨block, hblock⟩ ← readBlock (min blockSize (size - blocks.size * blockSize)) (by omega)
    readBlocks size blockSize hpos count (blocks.push block) (htiles.push hblock)
      (by rw [Array.size_push]; omega)

/-- Reads a list. -/
def read : Read Frame := do
  let size ← Read.varint32 "FoR size"
  let blockSize ← Read.varint32 "FoR block size"
  if hpos : 0 < blockSize then
    let declared ← Read.varint "FoR block count"
    let needed := (size + blockSize - 1) / blockSize
    if declared ≠ needed then throw (.corrupt (.blockCount declared needed size))
    else
      let ⟨blocks, hblocks, htiles⟩ ←
        readBlocks size blockSize hpos needed #[] (Tiles.empty size blockSize) (Nat.zero_add _)
      return ⟨size, blockSize, hpos, blocks, hblocks, htiles⟩
  else throw (.corrupt .zeroBlockSize)

theorem div_lt_blocks_size (list : Frame) {position : Nat} (h : position < list.size) :
    position / list.blockSize < list.blocks.size := by
  have hpos := list.blockSize_pos
  rw [list.blocks_size, Nat.div_lt_iff_lt_mul hpos]
  have := Nat.div_add_mod (list.size + list.blockSize - 1) list.blockSize
  have := Nat.mod_lt (list.size + list.blockSize - 1) hpos
  rw [Nat.mul_comm]
  omega

/-- The item at a position. -/
def get (list : Frame) (position : Fin list.size) : Item :=
  have h := list.div_lt_blocks_size position.isLt
  list.blocks[position.val / list.blockSize].get (position.val % list.blockSize)

/-- The position of an item: the last block that does not start above it, and the place in it. -/
def find? (list : Frame) (item : Item) : Option Nat :=
  match Search.partitionPoint (fun block => block.first ≤ item) list.blocks with
  | 0 => none
  | index + 1 => do
    let block ← list.blocks[index]?
    let within ← Search.locate block.items item
    return index * list.blockSize + within

end Frame

end Postings.Layout
