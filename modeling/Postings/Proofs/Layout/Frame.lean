/-
The frame-of-reference layout: its two ways to its items, and the way back from bytes.

A scan sums the gaps of a block in one pass, an isolated access sums those in
front of its position; both add in 32-bit words, so they agree on any gaps.

* `Block.toList_items` — a block scanned is the block accessed position by position;
* `flatMap_items` — the blocks scanned one after the other are the list accessed
  position by position;
* `Frame.find?_eq_some` — an item of an ascending list is found exactly where it stands;
* `Frame.delimited_read`, `Frame.reads_encode` — the bytes.
-/
import Postings.Layout.Frame
import Postings.Proofs.Bytes.Packing
import Postings.Proofs.Bytes.Reads
import Postings.Proofs.Search

namespace Postings.Layout

/-! ### Blocks -/

namespace Block

theorem get_zero (block : Block) : block.get 0 = block.first := rfl

theorem get_succ (block : Block) (position : Nat) :
    block.get (position + 1)
      = block.get position + UInt32.ofNat (block.gaps.get position) := by
  rw [get, Nat.fold_succ, ← get]

theorem toList_runningSums (block : Block) (position count : Nat) (out : Array Item) :
    (runningSums block.gaps.data block.gaps.bits position (block.get position) count out).toList
      = out.toList ++ (List.range count).map fun index => block.get (position + 1 + index) := by
  induction count generalizing position out with
  | zero => simp [runningSums]
  | succ count ih =>
    rw [runningSums]
    have hnext : block.get position
        + UInt32.ofNat (Packed.unpackAt block.gaps.data block.gaps.bits position)
          = block.get (position + 1) := (block.get_succ position).symm
    simp only [hnext]
    rw [ih, Array.toList_push, List.append_assoc, List.range_succ_eq_map, List.map_cons,
      List.map_map, List.singleton_append]
    simp only [Nat.add_zero, Function.comp_def, Nat.succ_eq_add_one, Nat.add_assoc, Nat.add_comm 1]

/-- A block scanned is the block accessed position by position. -/
theorem toList_items (block : Block) :
    block.items.toList = (List.range block.size).map block.get := by
  have hsums := block.toList_runningSums 0 block.gaps.size #[]
  rw [get_zero] at hsums
  rw [items, rest, Array.toList_append, hsums, size, List.range_succ_eq_map, List.map_cons,
    List.map_map, get_zero]
  simp only [List.nil_append, List.singleton_append, Function.comp_def, Nat.succ_eq_add_one,
    Nat.zero_add, Nat.add_comm 1]

theorem size_items (block : Block) : block.items.size = block.size := by
  rw [← Array.length_toList, toList_items, List.length_map, List.length_range]

theorem getElem_items (block : Block) {position : Nat} (h : position < block.items.size) :
    block.items[position] = block.get position := by
  have hrange : position < block.size := by rwa [← size_items]
  have hitem : block.items[position]? = some (block.get position) := by
    rw [← Array.getElem?_toList, toList_items, List.getElem?_map, List.getElem?_range hrange,
      Option.map_some]
  rw [Array.getElem?_eq_getElem h] at hitem
  exact Option.some.inj hitem

end Block

/-! ### Lists -/

/-- One block fewer is needed for `blockSize` items fewer. -/
theorem ceil_eq_succ {size blockSize : Nat} (hpos : 0 < blockSize) (hsize : 0 < size) :
    (size + blockSize - 1) / blockSize = (size - blockSize + blockSize - 1) / blockSize + 1 := by
  have hsum : size + blockSize - 1 = size - 1 + blockSize := by omega
  rw [hsum, Nat.add_div_right _ hpos]
  by_cases h : blockSize ≤ size
  · rw [Nat.sub_add_cancel h]
  · rw [Nat.div_eq_of_lt (by omega), Nat.div_eq_of_lt (by omega)]

theorem ceil_eq_zero {size blockSize : Nat} (hpos : 0 < blockSize)
    (h : (size + blockSize - 1) / blockSize = 0) : size = 0 := by
  rcases Nat.eq_zero_or_pos size with h0 | hsize
  · exact h0
  · rw [ceil_eq_succ hpos hsize] at h
    exact absurd h (Nat.succ_ne_zero _)

/-- The blocks of a list scanned one after the other are its items position by position. -/
theorem flatMap_items {blockSize : Nat} (hpos : 0 < blockSize) (blocks : List Block) {size : Nat}
    (hcount : blocks.length = (size + blockSize - 1) / blockSize)
    (htiles : ∀ index (h : index < blocks.length),
      blocks[index].size = min blockSize (size - index * blockSize)) :
    blocks.flatMap (·.items.toList) = (List.range size).map fun position =>
      (blocks[position / blockSize]?.map (·.get (position % blockSize))).getD 0 := by
  induction blocks generalizing size with
  | nil => rw [ceil_eq_zero hpos hcount.symm, List.flatMap_nil, List.range_zero, List.map_nil]
  | cons block rest ih =>
    have hsize : 0 < size := by
      refine Nat.pos_of_ne_zero ?_
      rintro rfl
      rw [Nat.zero_add, Nat.div_eq_of_lt (by omega)] at hcount
      exact absurd hcount (by simp)
    have hblock := htiles 0 (Nat.zero_lt_succ _)
    rw [List.getElem_cons_zero, Nat.zero_mul, Nat.sub_zero] at hblock
    have hrest : rest.length = (size - blockSize + blockSize - 1) / blockSize := by
      rw [List.length_cons, ceil_eq_succ hpos hsize] at hcount
      exact Nat.succ.inj hcount
    have htiles' : ∀ index (h : index < rest.length),
        rest[index].size = min blockSize (size - blockSize - index * blockSize) := by
      intro index h
      have := htiles (index + 1) (Nat.succ_lt_succ h)
      rw [List.getElem_cons_succ, Nat.succ_mul] at this
      rw [this]
      omega
    -- The first block has the positions below the block size, the others those one block up.
    have hsplit : List.range size = List.range (min blockSize size)
        ++ (List.range (size - blockSize)).map (min blockSize size + ·) := by
      rw [← List.range_add]
      congr 1
      omega
    rw [List.flatMap_cons, ih hrest htiles', Block.toList_items, hblock, hsplit, List.map_append,
      List.map_map]
    congr 1
    · apply List.map_congr_left
      intro position hp
      have hlt : position < blockSize := by
        have := List.mem_range.1 hp
        omega
      rw [Nat.div_eq_of_lt hlt, Nat.mod_eq_of_lt hlt]
      rfl
    · apply List.map_congr_left
      intro position hp
      have hfull : min blockSize size = blockSize := by
        have := List.mem_range.1 hp
        omega
      rw [Function.comp_apply, hfull, Nat.add_div_left _ hpos, Nat.add_mod_left,
        List.getElem?_cons_succ]

namespace Frame

/-- A list scanned block by block is the list accessed position by position. -/
theorem flatMap_blocks (list : Frame) :
    list.blocks.toList.flatMap (·.items.toList) = List.ofFn list.get := by
  rw [flatMap_items list.blockSize_pos list.blocks.toList
    (by rw [Array.length_toList]; exact list.blocks_size) (fun index h => list.tiles index h)]
  apply List.ext_getElem
  · rw [List.length_map, List.length_range, List.length_ofFn]
  · intro position h1 h2
    rw [List.length_ofFn] at h2
    have hblock := list.div_lt_blocks_size h2
    rw [List.getElem_map, List.getElem_range, List.getElem_ofFn,
      Array.getElem?_toList, Array.getElem?_eq_getElem hblock]
    rfl

/-! ### Finding -/

variable {list : Frame} {item : Item}

/-- The items of a block are those from its start in the list on. -/
theorem exists_get_eq {index within : Nat} (hindex : index < list.blocks.size)
    (hwithin : within < list.blocks[index].size) :
    ∃ h : index * list.blockSize + within < list.size,
      list.blocks[index].get within = list.get ⟨index * list.blockSize + within, h⟩ := by
  have htile := list.tiles index hindex
  have hdiv : (index * list.blockSize + within) / list.blockSize = index := by
    rw [Nat.mul_comm, Nat.mul_add_div list.blockSize_pos, Nat.div_eq_of_lt (by omega),
      Nat.add_zero]
  have hmod : (index * list.blockSize + within) % list.blockSize = within := by
    rw [Nat.mul_comm, Nat.mul_add_mod, Nat.mod_eq_of_lt (by omega)]
  refine ⟨by omega, ?_⟩
  simp only [get, hdiv, hmod]

theorem exists_first_eq {index : Nat} (hindex : index < list.blocks.size) :
    ∃ h : index * list.blockSize < list.size,
      list.blocks[index].first = list.get ⟨index * list.blockSize, h⟩ := by
  have hfirst : 0 < list.blocks[index].size := Nat.zero_lt_succ _
  exact exists_get_eq hindex hfirst

/-- The blocks that do not start above an item are the ones in front. -/
theorem first_le_iff (hascend : ∀ i j : Fin list.size, i < j → list.get i < list.get j)
    {index : Nat} (hindex : index < list.blocks.size) :
    list.blocks[index].first ≤ item ↔
      index < Search.partitionPoint (fun block : Block => block.first ≤ item) list.blocks := by
  rw [← Search.partitionPoint_spec _ hindex, decide_eq_true_eq]
  intro i j hi hj hij h
  rw [decide_eq_true_eq] at h ⊢
  rcases Nat.lt_or_eq_of_le hij with hij | rfl
  · obtain ⟨hi', hfirst⟩ := exists_first_eq hi
    obtain ⟨hj', hsecond⟩ := exists_first_eq hj
    have hlt := hascend ⟨_, hi'⟩ ⟨_, hj'⟩ (Nat.mul_lt_mul_of_pos_right hij list.blockSize_pos)
    rw [hsecond] at h
    rw [hfirst]
    exact UInt32.le_of_lt (UInt32.lt_of_lt_of_le hlt h)
  · exact h

/-- A block of an ascending list ascends. -/
theorem ascending_items (hascend : ∀ i j : Fin list.size, i < j → list.get i < list.get j)
    {index : Nat} (hindex : index < list.blocks.size) :
    Ascending list.blocks[index].items.toList := by
  rw [Ascending, List.pairwise_iff_getElem]
  intro i j hi hj hij
  rw [Array.length_toList] at hi hj
  rw [Array.getElem_toList, Array.getElem_toList, Block.getElem_items, Block.getElem_items]
  rw [Block.size_items] at hi hj
  obtain ⟨hi', hfirst⟩ := exists_get_eq hindex hi
  obtain ⟨hj', hsecond⟩ := exists_get_eq hindex hj
  rw [hfirst, hsecond]
  exact hascend ⟨_, hi'⟩ ⟨_, hj'⟩ (Nat.add_lt_add_left hij _)

/-- The block in which a position lies. -/
theorem exists_block {position : Nat} (hlt : position < list.size) :
    ∃ hindex : position / list.blockSize < list.blocks.size,
      position % list.blockSize < list.blocks[position / list.blockSize].size ∧
      list.blocks[position / list.blockSize].get (position % list.blockSize)
        = list.get ⟨position, hlt⟩ := by
  have hindex := list.div_lt_blocks_size hlt
  have hdiv := Nat.div_add_mod position list.blockSize
  have hmod := Nat.mod_lt position list.blockSize_pos
  rw [Nat.mul_comm] at hdiv
  refine ⟨hindex, ?_, rfl⟩
  rw [list.tiles _ hindex]
  omega

/-- The block of an item is the last that does not start above it. -/
theorem partitionPoint_eq (hascend : ∀ i j : Fin list.size, i < j → list.get i < list.get j)
    {position : Nat} (hlt : position < list.size) :
    Search.partitionPoint (fun block : Block => block.first ≤ list.get ⟨position, hlt⟩) list.blocks
      = position / list.blockSize + 1 := by
  obtain ⟨hindex, hwithin, hget⟩ := exists_block hlt
  have hdiv := Nat.div_add_mod position list.blockSize
  have hmod := Nat.mod_lt position list.blockSize_pos
  rw [Nat.mul_comm] at hdiv
  apply Nat.le_antisymm
  · -- Were the next block in front too, it would start at or below the item, behind which it lies.
    refine Nat.le_of_not_lt fun hmore => ?_
    have hsize := Search.partitionPoint_le
      (fun block : Block => block.first ≤ list.get ⟨position, hlt⟩) list.blocks
    have hnext : position / list.blockSize + 1 < list.blocks.size := by omega
    have hle := (first_le_iff hascend hnext).2 hmore
    obtain ⟨hstart, hfirst⟩ := exists_first_eq hnext
    rw [hfirst] at hle
    have hbefore : position < (position / list.blockSize + 1) * list.blockSize := by
      rw [Nat.succ_mul]
      omega
    have hless := hascend ⟨position, hlt⟩ ⟨_, hstart⟩ hbefore
    exact UInt32.not_lt.2 hle hless
  · apply Nat.succ_le_of_lt
    rw [← first_le_iff hascend hindex]
    obtain ⟨hstart, hfirst⟩ := exists_first_eq hindex
    rw [hfirst]
    rcases Nat.eq_or_lt_of_le (Nat.div_mul_le_self position list.blockSize) with heq | hless
    · simp only [heq]
      exact UInt32.le_refl _
    · exact UInt32.le_of_lt (hascend ⟨_, hstart⟩ ⟨position, hlt⟩ hless)

/-- An item of an ascending list is found exactly where it stands. -/
theorem find?_eq_some (hascend : ∀ i j : Fin list.size, i < j → list.get i < list.get j)
    {position : Nat} :
    list.find? item = some position ↔
      ∃ h : position < list.size, list.get ⟨position, h⟩ = item := by
  constructor
  · intro h
    rw [find?] at h
    split at h
    · exact absurd h (by simp)
    next index hpoint =>
      simp only [Option.bind_eq_bind, Option.bind_eq_some_iff] at h
      obtain ⟨block, hblock, within, hlocate, hposition⟩ := h
      obtain ⟨hindex, rfl⟩ := Array.getElem?_eq_some_iff.1 hblock
      obtain ⟨hwithin, hitem⟩ := Array.getElem?_eq_some_iff.1 (Search.locate_sound hlocate)
      rw [Block.getElem_items] at hitem
      rw [Block.size_items] at hwithin
      obtain ⟨hlt, hget⟩ := exists_get_eq hindex hwithin
      obtain rfl := Option.some.inj hposition
      exact ⟨hlt, by rw [← hget, hitem]⟩
  · rintro ⟨hlt, rfl⟩
    obtain ⟨hindex, hwithin, hget⟩ := exists_block hlt
    have hlocate : Search.locate list.blocks[position / list.blockSize].items
        (list.get ⟨position, hlt⟩) = some (position % list.blockSize) := by
      rw [Search.locate_eq_some (ascending_items hascend hindex),
        Array.getElem?_eq_getElem (by rwa [Block.size_items]), Block.getElem_items, hget]
    have hdiv := Nat.div_add_mod position list.blockSize
    rw [Nat.mul_comm] at hdiv
    rw [find?, partitionPoint_eq hascend hlt]
    simp only [Array.getElem?_eq_getElem hindex, Option.bind_eq_bind, Option.bind_some, hlocate,
      hdiv]
    rfl

/-! ### Bytes -/

theorem delimited_readBlock (size : Nat) (hsize : 0 < size) : Delimited (readBlock size hsize) := by
  refine Delimited.varint32.bind fun first => Delimited.byte.bind fun bits => ?_
  split
  · exact Delimited.throw _
  · exact (Delimited.take _).bind fun _ => Delimited.pure _

theorem delimited_readBlocks {size blockSize : Nat} (hpos : 0 < blockSize) (count : Nat)
    (blocks : Array Block) (htiles : Tiles size blockSize blocks)
    (hcount : blocks.size + count = (size + blockSize - 1) / blockSize) :
    Delimited (readBlocks size blockSize hpos count blocks htiles hcount) := by
  induction count generalizing blocks with
  | zero => exact Delimited.pure _
  | succ count ih => exact (delimited_readBlock _ _).bind fun _ => ih _ _ _

theorem delimited_read : Delimited read := by
  refine Delimited.varint32.bind fun size => Delimited.varint32.bind fun blockSize => ?_
  split
  · refine Delimited.varint.bind fun declared => ?_
    simp only
    split
    · exact Delimited.throw _
    · exact (delimited_readBlocks _ _ _ _ _).bind fun ⟨_, _, _⟩ => Delimited.pure _
  · exact Delimited.throw _

theorem yields_readBlock (size : Nat) (hsize : 0 < size) :
    Yields (readBlock size hsize) fun block => block.val.gaps.bits ≤ 32 := by
  refine (Yields.any _).bind fun first _ => (Yields.any _).bind fun bits _ => ?_
  split
  · exact Yields.throw _
  next hbits => exact (Yields.any _).bind fun _ _ => Yields.pure (by simp only; omega)

theorem yields_readBlocks {size blockSize : Nat} (hpos : 0 < blockSize) (count : Nat)
    (blocks : Array Block) (htiles : Tiles size blockSize blocks)
    (hcount : blocks.size + count = (size + blockSize - 1) / blockSize)
    (hblocks : ∀ block ∈ blocks, block.gaps.bits ≤ 32) :
    Yields (readBlocks size blockSize hpos count blocks htiles hcount)
      fun all => ∀ block ∈ all.val, block.gaps.bits ≤ 32 := by
  induction count generalizing blocks with
  | zero => exact Yields.pure hblocks
  | succ count ih =>
    refine (yields_readBlock _ _).bind fun block hblock => ih _ _ _ ?_
    intro other hother
    rcases Array.mem_push.1 hother with h | rfl
    · exact hblocks other h
    · exact hblock

theorem yields_read :
    Yields read fun list => list.size < 2 ^ 32 ∧ ∀ block ∈ list.blocks, block.gaps.bits ≤ 32 := by
  refine Yields.varint32.bind fun size hsize => (Yields.any _).bind fun blockSize _ => ?_
  split
  · refine (Yields.any _).bind fun declared _ => ?_
    simp only
    split
    · exact Yields.throw _
    · refine (yields_readBlocks _ _ _ _ _ (by simp)).bind fun ⟨_, _, _⟩ hblocks => ?_
      exact Yields.pure ⟨hsize, hblocks⟩
  · exact Yields.throw _

/-- No block starts behind the items, every item lies in a block, and every gap that it is summed
from is there and no wider than an item. -/
structure Inside (list : Frame) : Prop where
  blockSize_pos : 0 < list.blockSize
  bits_le : ∀ block ∈ list.blocks, block.gaps.bits ≤ 32
  start_lt : ∀ index < list.blocks.size, index * list.blockSize < list.size
  within : ∀ position < list.size, ∃ h : position / list.blockSize < list.blocks.size,
    position % list.blockSize < list.blocks[position / list.blockSize].size
  gaps : ∀ index (h : index < list.blocks.size), list.blocks[index].gaps.Inside

theorem inside (hsize : list.size < 2 ^ 32) (hbits : ∀ block ∈ list.blocks, block.gaps.bits ≤ 32) :
    list.Inside where
  blockSize_pos := list.blockSize_pos
  bits_le := hbits
  start_lt index h := (exists_first_eq h).1
  within position hlt := by
    obtain ⟨hindex, hwithin, -⟩ := exists_block hlt
    exact ⟨hindex, hwithin⟩
  gaps index h := by
    have htile := list.tiles index h
    have hle : list.blocks[index].gaps.size ≤ 2 ^ 32 := by
      rw [Block.size] at htile
      omega
    exact PackedArray.inside (Nat.lt_of_le_of_lt
      (Nat.mul_le_mul hle (hbits _ (Array.getElem_mem h))) (by decide))

/-! ### Writing -/

theorem length_gapsFrom (previous : Item) (items : List Item) :
    (gapsFrom previous items).length = items.length := by
  rw [gapsFrom, List.length_zipWith, List.length_cons]
  omega

theorem getElem?_gapsFrom {previous item before : Item} {items : List Item} {position : Nat}
    (hitem : items[position]? = some item)
    (hbefore : (previous :: items)[position]? = some before) :
    (gapsFrom previous items)[position]? = some (item - before) := by
  rw [gapsFrom, List.getElem?_zipWith, hitem, hbefore]

theorem gapBits_spec (gaps : List Item) :
    (∀ gap ∈ gaps, gap.toNat < 2 ^ gapBits gaps) ∧ gapBits gaps ≤ 32 ∧
      (gapBits gaps = 0 → gaps = []) := by
  cases gaps with
  | nil => simp [gapBits]
  | cons gap rest =>
    have hmost : rest.foldl (fun most g => max most g.toNat) gap.toNat
        = (rest.map UInt32.toNat).foldl max gap.toNat := List.foldl_map.symm
    rw [gapBits, hmost]
    refine ⟨?_, ?_, ?_⟩
    · intro g hg
      apply Packed.lt_two_pow_bitsNeeded
      apply Packed.le_foldl_max
      rw [← List.map_cons (f := UInt32.toNat)]
      exact List.mem_map.2 ⟨g, hg, rfl⟩
    · refine Packed.bitsNeeded_le (Packed.foldl_max_lt (UInt32.toNat_lt gap) ?_) (by decide)
      intro value hv
      obtain ⟨g, -, rfl⟩ := List.mem_map.1 hv
      exact UInt32.toNat_lt g
    · intro h
      exact absurd h (Nat.succ_ne_zero _)

/-- A block that holds the gaps between some items gives these items. -/
theorem items_of_gaps {block : Block} {first : Item} {items : List Item}
    (hfirst : block.first = first) (hsize : block.gaps.size = items.length)
    (hgaps : ∀ position gap, (gapsFrom first items)[position]? = some gap →
      block.gaps.get position = gap.toNat) :
    block.items.toList = first :: items := by
  have hget : ∀ position (h : position < (first :: items).length),
      block.get position = (first :: items)[position] := by
    intro position
    induction position with
    | zero =>
      intro h
      rw [Block.get_zero, hfirst, List.getElem_cons_zero]
    | succ position ih =>
      intro h
      have hp : position < items.length := Nat.lt_of_succ_lt_succ h
      have hgap := hgaps position _ (getElem?_gapsFrom (List.getElem?_eq_getElem hp)
        (List.getElem?_eq_getElem (Nat.lt_of_succ_lt h)))
      rw [Block.get_succ, ih (Nat.lt_of_succ_lt h), hgap, UInt32.ofNat_toNat,
        List.getElem_cons_succ, UInt32.add_comm, UInt32.sub_add_cancel]
  rw [Block.toList_items, Block.size, hsize]
  apply List.ext_getElem
  · rw [List.length_map, List.length_range, List.length_cons]
  · intro position h1 h2
    rw [List.getElem_map, List.getElem_range]
    exact hget position h2

/-- The record of a block: its first item, the width of its gaps and the packed gaps. -/
theorem encodeBlock_eq (first : Item) (items : List Item) (out : ByteArray) :
    ∃ bytes : List UInt8,
      encodeBlock first items out = out ++ (Varint.encode first.toNat
        ++ ([UInt8.ofNat (gapBits (gapsFrom first items))] ++ bytes)).toByteArray ∧
      bytes.length = (items.length * gapBits (gapsFrom first items) + 7) / 8 ∧
      Bytes.number bytes = Packed.packedNumber (gapBits (gapsFrom first items))
        ((gapsFrom first items).map UInt32.toNat) := by
  obtain ⟨-, hle, -⟩ := gapBits_spec (gapsFrom first items)
  obtain ⟨bytes, hpack, hcount, hnumber⟩ := Packed.pack_eq (Nat.le_trans hle (by decide))
    ((gapsFrom first items).map UInt32.toNat)
    ((out ++ (Varint.encode first.toNat).toByteArray).push
      (UInt8.ofNat (gapBits (gapsFrom first items))))
  rw [List.length_map, length_gapsFrom] at hcount
  refine ⟨bytes, ?_, hcount, hnumber⟩
  simp only [encodeBlock, packGaps, hpack]
  apply ByteArray.ext
  simp [ByteArray.data_append, List.data_toByteArray]

/-- The record of a block is read back. -/
theorem reads_encodeBlock (first : Item) (items : List Item) (hlength : items.length < 2 ^ 32)
    (out : ByteArray) {size : Nat} (hsize : size = items.length + 1) (hpos : 0 < size) :
    ∃ (front : List UInt8) (block : { block : Block // block.size = size }),
      encodeBlock first items out = out ++ front.toByteArray ∧
      Reads (readBlock size hpos) front block ∧ block.val.items.toList = first :: items := by
  obtain ⟨hfits, hle, hzero⟩ := gapBits_spec (gapsFrom first items)
  obtain ⟨bytes, hwrite, hcount, hnumber⟩ := encodeBlock_eq first items out
  obtain ⟨bits, hbits⟩ : ∃ bits, gapBits (gapsFrom first items) = bits := ⟨_, rfl⟩
  rw [hbits] at hfits hle hzero hwrite hcount hnumber
  have hwords : items.length * bits < 2 ^ 64 :=
    Nat.lt_of_le_of_lt (Nat.mul_le_mul (Nat.le_of_lt hlength) hle) (by decide)
  have hbytes : bytes.length = Packed.byteLength (size - 1) bits := by
    rw [hsize, Nat.add_sub_cancel, hcount, Packed.byteLength_eq hwords]
  refine ⟨Varint.encode first.toNat ++ ([UInt8.ofNat bits] ++ bytes),
    ⟨⟨first, ⟨bytes.toByteArray, bits, size - 1, by rw [List.size_toByteArray, hbytes]⟩⟩,
      Nat.sub_add_cancel hpos⟩, hwrite, ?_, ?_⟩
  · refine (Reads.encoded32 (UInt32.toNat_lt first)).bind ((Reads.byte (by omega)).bind ?_)
    -- A width of 0 is refused where there are gaps; it is written where there are none.
    have hgood : ¬ (32 < bits ∨ bits = 0 ∧ 1 < size) := by
      rintro (h | ⟨h, hmany⟩)
      · omega
      · have hnone := length_gapsFrom first items
        rw [hzero h, List.length_nil] at hnone
        omega
    rw [if_neg hgood]
    refine (Reads.take _ bytes hbytes).decide ?_
    simp only [UInt32.ofNat_toNat]
    exact Reads.pure _
  · apply items_of_gaps rfl
    · simp only [hsize, Nat.add_sub_cancel]
    · intro position gap hgap
      have hplace : ((gapsFrom first items).map UInt32.toNat)[position]? = some gap.toNat := by
        rw [List.getElem?_map, hgap, Option.map_some]
      have hsmall : ∀ value ∈ (gapsFrom first items).map UInt32.toNat, value < 2 ^ bits := by
        intro value hv
        obtain ⟨gap, hgap, rfl⟩ := List.mem_map.1 hv
        exact hfits gap hgap
      have hsame : ((gapsFrom first items).map UInt32.toNat).length = items.length := by
        rw [List.length_map, length_gapsFrom]
      rw [← hsame] at hcount hwords
      exact PackedArray.get_eq (Nat.le_trans hle (by decide)) hwords hsmall rfl hcount hnumber
        hplace

/-- The records of the blocks a list is cut into are read back, after the records in `blocks`. -/
theorem reads_encodeBlocks {size blockSize : Nat} (hpos : 0 < blockSize) (items : List Item)
    (hlength : items.length < 2 ^ 32) (out : ByteArray) (count : Nat) (blocks : Array Block)
    (htiles : Tiles size blockSize blocks)
    (hcount : blocks.size + count = (size + blockSize - 1) / blockSize)
    (hleft : size - blocks.size * blockSize = items.length) :
    ∃ (front : List UInt8) (all : { all : Array Block //
        all.size = (size + blockSize - 1) / blockSize ∧ Tiles size blockSize all }),
      encodeBlocks blockSize items out = out ++ front.toByteArray ∧
      Reads (readBlocks size blockSize hpos count blocks htiles hcount) front all ∧
      all.val.toList.flatMap (·.items.toList)
        = blocks.toList.flatMap (·.items.toList) ++ items := by
  fun_induction encodeBlocks blockSize items out generalizing count blocks with
  | case1 out =>
    -- Nothing is left, so no block is missing.
    obtain rfl : count = 0 := by
      refine Nat.eq_zero_of_not_pos fun hmore => ?_
      have hless : blocks.size * blockSize < size := mul_lt_of_lt_ceil hpos (by omega)
      rw [List.length_nil] at hleft
      omega
    refine ⟨[], ⟨blocks, hcount, htiles⟩, ?_, Reads.pure _, by rw [List.append_nil]⟩
    simp
  | case2 item items out ih =>
    rw [List.length_cons] at hleft hlength
    have hmore : blocks.size < (size + blockSize - 1) / blockSize := by
      rw [← Nat.succ_le_iff, Nat.le_div_iff_mul_le hpos, Nat.succ_mul]
      omega
    obtain ⟨count, rfl⟩ : ∃ rest, count = rest + 1 := ⟨count - 1, by omega⟩
    have htake : min blockSize (size - blocks.size * blockSize)
        = (items.take (blockSize - 1)).length + 1 := by
      rw [List.length_take]
      omega
    -- One record, and then the others behind one block more.
    obtain ⟨record, block, hrecord, hreads, hitems⟩ :=
      reads_encodeBlock item (items.take (blockSize - 1)) (by rw [List.length_take]; omega) out
        htake (by omega)
    obtain ⟨front, all, hfront, hrest, hall⟩ := ih (by rw [List.length_drop]; omega) count
      (blocks.push block.val) (htiles.push block.property) (by rw [Array.size_push]; omega)
      (by rw [Array.size_push, Nat.succ_mul, List.length_drop]; omega)
    refine ⟨record ++ front, all, ?_, hreads.bind hrest, ?_⟩
    · rw [hfront, hrecord, ByteArray.append_assoc, ← List.toByteArray_append]
    · rw [hall, Array.toList_push, List.flatMap_append, List.flatMap_singleton, hitems,
        List.append_assoc, List.cons_append, List.take_append_drop]

theorem exists_encodeBlocks_eq (blockSize : Nat) (items : List Item) (out : ByteArray) :
    ∃ back : List UInt8, encodeBlocks blockSize items out = out ++ back.toByteArray := by
  fun_induction encodeBlocks blockSize items out with
  | case1 out => exact ⟨[], ByteArray.append_empty.symm⟩
  | case2 item items out ih =>
    obtain ⟨bytes, hrecord, -⟩ := encodeBlock_eq item (items.take (blockSize - 1)) out
    obtain ⟨back, hback⟩ := ih
    rw [hback, hrecord, ByteArray.append_assoc, ← List.toByteArray_append]
    exact ⟨_, rfl⟩

/-- What encoding appends begins with the length. -/
theorem exists_encode_eq {items : List Item} {blockSize : Nat} {out bytes : ByteArray}
    (h : encode items blockSize out = .ok bytes) :
    ∃ back : List UInt8, bytes = out ++ (Varint.encode items.length ++ back).toByteArray := by
  rw [encode] at h
  split at h
  · exact absurd h (by simp)
  · obtain rfl := Except.ok.inj h
    obtain ⟨back, hback⟩ := exists_encodeBlocks_eq blockSize items (out
      ++ (Varint.encode items.length ++ Varint.encode blockSize
        ++ Varint.encode ((items.length + blockSize - 1) / blockSize)).toByteArray)
    rw [hback, ByteArray.append_assoc, ← List.toByteArray_append, List.append_assoc,
      List.append_assoc]
    exact ⟨_, rfl⟩

/-- A list of fewer than `2 ^ 32` items cut into blocks is read back. -/
theorem reads_encode {items : List Item} (hlength : items.length < 2 ^ 32) {blockSize : Nat}
    (hpos : 0 < blockSize) (hblock : blockSize < 2 ^ 32) (out : ByteArray) :
    ∃ (front : List UInt8) (list : Frame),
      encode items blockSize out = .ok (out ++ front.toByteArray) ∧
      Reads read front list ∧ list.size = items.length ∧ List.ofFn list.get = items := by
  have hneeded : (items.length + blockSize - 1) / blockSize < 2 ^ 64 :=
    Nat.lt_of_le_of_lt (Nat.div_le_self _ _) (by omega)
  have hleft : items.length - (#[] : Array Block).size * blockSize = items.length := by
    rw [Array.size_empty, Nat.zero_mul, Nat.sub_zero]
  obtain ⟨front, ⟨all, hsize, htiles⟩, hfront, hreads, hall⟩ := reads_encodeBlocks hpos items
    hlength (out ++ (Varint.encode items.length ++ Varint.encode blockSize
      ++ Varint.encode ((items.length + blockSize - 1) / blockSize)).toByteArray)
    ((items.length + blockSize - 1) / blockSize) #[] (Tiles.empty _ _) (Nat.zero_add _) hleft
  refine ⟨Varint.encode items.length ++ (Varint.encode blockSize
    ++ (Varint.encode ((items.length + blockSize - 1) / blockSize) ++ front)),
    ⟨items.length, blockSize, hpos, all, hsize, htiles⟩, ?_, ?_, rfl, ?_⟩
  · rw [encode, if_neg (Nat.ne_of_gt hpos)]
    simp only
    rw [hfront, ByteArray.append_assoc, ← List.toByteArray_append]
    simp only [List.append_assoc]
  · refine (Reads.encoded32 hlength).bind ((Reads.encoded32 hblock).bind ?_)
    rw [dif_pos hpos]
    refine (Reads.encoded hneeded).bind ?_
    simp only [ne_eq, not_true_eq_false, if_false]
    rw [← List.append_nil front]
    exact hreads.bind (Reads.pure _)
  · rw [← flatMap_blocks]
    exact hall

end Frame

end Postings.Layout
