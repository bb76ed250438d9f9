/-
Payloads in the frame-of-reference layout, as a whole.

Whatever payload is accepted, its front is three numbers and a record for every block, and
nothing else was read.  The gaps of a block may be looked up in bytes that go on behind them.
A scan decodes block after block and an isolated access sums up the gaps in front of it; they
agree whether or not the items ascend, since both add in 32-bit words.

* `PackedArray.unpackAt_append`, `Block.seen_append` — what follows the gaps is not seen;
* `Block.Recorded`, `Frame.Recorded` — the records, and `Frame.takes_read`, that they are what is
  read;
* `Frame.read_spec` — an accepted payload, scanned, accessed and searched.
-/
import Postings.Proofs.ItemSet.Items

namespace Postings

/-! ### Gaps among other bytes -/

namespace PackedArray

/-- An element is the same where other bytes follow the array. -/
theorem unpackAt_append {array : PackedArray} (h : array.Inside) (tail : ByteArray) {position : Nat}
    (hposition : position < array.size) :
    Packed.unpackAt (array.data ++ tail) array.bits position = array.get position := by
  obtain ⟨hword, hend⟩ := h position hposition
  have hlength : array.data.data.toList.length = array.data.size := Array.length_toList
  rw [get, Packed.unpackAt_eq _ hword, Packed.unpackAt_eq _ hword, Packed.bitsFrom,
    Packed.bitsFrom, Bytes.leAt_eq_number, Bytes.leAt_eq_number, ByteArray.data_append,
    Array.toList_append, List.drop_append_of_le_length (by omega),
    List.take_append_of_le_length (by rw [List.length_drop]; omega)]

end PackedArray

namespace Layout

/-- Gaps that are looked up in some bytes give the items of a block, by a scan and one by one. -/
structure Block.Seen (block : Block) (view : ByteArray) : Prop where
  scan : runningSums view block.gaps.bits 0 block.first block.gaps.size #[] = block.rest
  access : ∀ position < block.size, position.fold
    (fun index _ sum => sum + UInt32.ofNat (Packed.unpackAt view block.gaps.bits index)) block.first
      = block.get position

theorem runningSums_congr {data view : ByteArray} {bits position count : Nat}
    (h : ∀ index < position + count,
      Packed.unpackAt view bits index = Packed.unpackAt data bits index)
    (previous : Item) (out : Array Item) :
    runningSums view bits position previous count out
      = runningSums data bits position previous count out := by
  induction count generalizing position previous out with
  | zero => rfl
  | succ count ih =>
    rw [runningSums, runningSums, h position (by omega)]
    exact ih (fun index hindex => h index (by omega)) _ _

/-- What follows the gaps of a block is not seen. -/
theorem Block.seen_append {block : Block} (h : block.gaps.Inside) (tail : ByteArray) :
    block.Seen (block.gaps.data ++ tail) where
  scan := by
    refine runningSums_congr (fun index hindex => ?_) _ _
    rw [Nat.zero_add] at hindex
    exact PackedArray.unpackAt_append h tail hindex
  access position hposition := by
    induction position with
    | zero => rfl
    | succ position ih =>
      have hgap : position < block.gaps.size := Nat.lt_of_succ_lt_succ hposition
      rw [Nat.fold_succ, ih (Nat.lt_of_succ_lt hposition), get_succ,
        PackedArray.unpackAt_append h tail hgap]

/-! ### Records -/

/-- The record of a block: its first item, the width of its gaps, and the gaps. -/
structure Block.Recorded (block : Block) (record : List UInt8) : Prop where
  width_le : block.gaps.bits ≤ 32
  width_pos : 1 < block.size → 0 < block.gaps.bits
  bytes : ∃ lead, Varint.decode lead = some (block.first.toNat, lead.length) ∧
    record = lead ++ [UInt8.ofNat block.gaps.bits] ++ block.gaps.data.data.toList

/-- The bytes of a list: its size, its block size and its number of blocks, then the records of the
blocks. -/
structure Frame.Recorded (list : Frame) (size blockSize count : List UInt8)
    (records : List (List UInt8)) : Prop where
  size_eq : Varint.decode size = some (list.size, size.length)
  blockSize_eq : Varint.decode blockSize = some (list.blockSize, blockSize.length)
  count_eq : Varint.decode count = some (list.blocks.size, count.length)
  records : List.Forall₂ Block.Recorded list.blocks.toList records

namespace Frame

theorem takes_readBlock (size : Nat) (hsize : 0 < size) :
    Takes (readBlock size hsize) fun block record => block.val.Recorded record := by
  refine Takes.varint32.bind fun first lead hlead => Takes.byte.bind fun bits width hwidth => ?_
  split
  next => exact Takes.throw _
  next hbits =>
    refine (Takes.take _).bind fun gaps data hdata => Takes.pure ?_
    have hfirst : (UInt32.ofNat first).toNat = first := UInt32.toNat_ofNat_of_lt' hlead.1
    refine ⟨Nat.le_of_not_lt fun hwide => hbits (.inl hwide), fun hgaps => ?_, lead, ?_, ?_⟩
    · refine Nat.pos_of_ne_zero fun hzero => hbits (.inr ⟨hzero, ?_⟩)
      rwa [Block.size, Nat.sub_add_cancel hsize] at hgaps
    · rw [hfirst]
      exact hlead.2
    · rw [hwidth, hdata, List.append_nil, List.append_assoc]

/-- Every step takes the record of one block more. -/
theorem takes_readBlocks {size blockSize : Nat} (hpos : 0 < blockSize) (count : Nat)
    (blocks : Array Block) (htiles : Tiles size blockSize blocks)
    (hcount : blocks.size + count = (size + blockSize - 1) / blockSize) :
    Takes (readBlocks size blockSize hpos count blocks htiles hcount) fun all front =>
      ∃ later records, all.val.toList = blocks.toList ++ later ∧ front = records.flatten ∧
        List.Forall₂ Block.Recorded later records := by
  induction count generalizing blocks with
  | zero => exact Takes.pure ⟨[], [], (List.append_nil _).symm, rfl, .nil⟩
  | succ count ih =>
    refine (takes_readBlock _ _).bind fun block record hrecord => (ih _ _ _).mono ?_
    rintro all front ⟨later, records, hall, rfl, hrecords⟩
    refine ⟨block.val :: later, record :: records, ?_, rfl, .cons hrecord hrecords⟩
    rw [hall, Array.toList_push, List.append_assoc, List.singleton_append]

/-- Nothing is read but the numbers in front and the records. -/
theorem takes_read : Takes read fun list front => ∃ size blockSize count records,
    list.Recorded size blockSize count records ∧
      front = size ++ blockSize ++ count ++ records.flatten := by
  refine Takes.varint32.bind fun size sizeBytes hsize =>
    Takes.varint32.bind fun blockSize blockSizeBytes hblockSize => ?_
  split
  next hpos =>
    refine Takes.varint.bind fun declared countBytes hcount => ?_
    simp only
    split
    next => exact Takes.throw _
    next hdeclared =>
      refine (takes_readBlocks _ _ _ _ _).bind fun all front hfront => ?_
      obtain ⟨blocks, hblocks, htiles⟩ := all
      obtain ⟨later, records, hlater, rfl, hrecords⟩ := hfront
      have hall : blocks.toList = later := hlater
      rw [Decidable.not_not.1 hdeclared, ← hblocks] at hcount
      refine Takes.pure ⟨sizeBytes, blockSizeBytes, countBytes, records,
        ⟨hsize.2, hblockSize.2, hcount, hall ▸ hrecords⟩, ?_⟩
      rw [List.append_nil, List.append_assoc, List.append_assoc]
  next => exact Takes.throw _

/-- An accepted payload, whatever is in it: the scan gives as many items as the payload declares,
each the one that an access gives, and nothing after them; there are as many blocks as these items
need; what was read is exactly the numbers in front and the records; and where the items ascend,
each is found where it stands and no other is. -/
theorem read_spec (payload : ByteArray) (list : Frame) (after : Reader)
    (h : Read.run read payload = .ok (list, after)) :
    (∀ count, Source.answers (Form.frame list).cursor count
      = ((List.ofFn list.get).take count).map some ++ List.replicate (count - list.size) none) ∧
    list.blocks.size = (list.size + list.blockSize - 1) / list.blockSize ∧
    (∀ block ∈ list.blocks, ∀ tail, block.Seen (block.gaps.data ++ tail)) ∧
    (∃ size blockSize count records, list.Recorded size blockSize count records ∧
      size ++ blockSize ++ count ++ records.flatten <+: payload.data.toList ∧
      after.position = (size ++ blockSize ++ count ++ records.flatten).length) ∧
    (Ascending (List.ofFn list.get) → ∀ item position, list.find? item = some position ↔
      ∃ h : position < list.size, list.get ⟨position, h⟩ = item) := by
  obtain ⟨hsize, hbits⟩ := yields_read _ _ _ (Read.run_eq_ok.1 h)
  have hinside := inside hsize hbits
  have hitems : Source.toList (Form.frame list).cursor = List.ofFn list.get :=
    ((Form.frame list).ofFn_get (by simp [Form.codec])).symm
  refine ⟨fun count => ?_, list.blocks_size, fun block hblock tail => ?_, ?_,
    fun hascend item _ => ?_⟩
  · rw [Source.answers_eq, hitems, List.length_ofFn]
  · obtain ⟨index, hindex, rfl⟩ := Array.mem_iff_getElem.1 hblock
    exact Block.seen_append (hinside.gaps index hindex) tail
  · obtain ⟨front, hlead, hposition, size, blockSize, count, records, hrecorded, rfl⟩ :=
      takes_read.run h
    exact ⟨size, blockSize, count, records, hrecorded, hlead, hposition⟩
  · refine find?_eq_some fun i j hij => ?_
    have hlt := List.pairwise_iff_getElem.1 hascend i j (by simp) (by simp) hij
    rwa [List.getElem_ofFn, List.getElem_ofFn] at hlt

/-- Reading a payload that is known, and its items. -/
theorem exists_run (payload : ByteArray) (size blockSize : Nat) (items : List Item)
    (h : ((Read.run read payload).toOption.map fun answer =>
        (answer.1.size, answer.1.blockSize, List.ofFn answer.1.get))
      = some (size, blockSize, items)) :
    ∃ list after, Read.run read payload = .ok (list, after) ∧ list.size = size ∧
      list.blockSize = blockSize ∧ List.ofFn list.get = items := by
  obtain ⟨⟨list, after⟩, hrun, hanswer⟩ := Option.map_eq_some_iff.1 h
  simp only [Prod.mk.injEq] at hanswer
  exact ⟨list, after, eq_ok_of_toOption hrun, hanswer⟩

/-- A gap of 32 bits that wraps, in front of a block of one item that has a width nevertheless and a
byte that is not read; and two items that are a wide gap apart, of which one is searched. -/
theorem read_spec_wide :
    (∃ list after, Read.run read ⟨#[3, 2, 2, 5, 32, 254, 255, 255, 255, 7, 9, 77]⟩
        = .ok (list, after) ∧ list.blocks.size = 2 ∧
      Source.answers (Form.frame list).cursor 5 = [some 5, some 3, some 7, none, none]) ∧
    ∃ list after, Read.run read ⟨#[2, 9, 1, 5, 32, 251, 39, 107, 238]⟩ = .ok (list, after) ∧
      Ascending (List.ofFn list.get) ∧ list.find? 4000000000 = some 1 := by
  constructor
  · obtain ⟨list, after, hrun, hsize, hblockSize, hitems⟩ :=
      exists_run ⟨#[3, 2, 2, 5, 32, 254, 255, 255, 255, 7, 9, 77]⟩ 3 2 [5, 3, 7]
        (by decide +kernel)
    obtain ⟨hanswers, hblocks, -⟩ := read_spec _ list after hrun
    refine ⟨list, after, hrun, ?_, ?_⟩
    · rw [hblocks, hsize, hblockSize]
    · rw [hanswers, hitems, hsize]
      rfl
  · obtain ⟨list, after, hrun, -, -, hitems⟩ :=
      exists_run ⟨#[2, 9, 1, 5, 32, 251, 39, 107, 238]⟩ 2 9 [5, 4000000000]
        (by decide +kernel)
    have hascend : Ascending (List.ofFn list.get) := hitems ▸ by decide
    obtain ⟨-, -, -, -, hfind⟩ := read_spec _ list after hrun
    have hitem : (List.ofFn list.get)[1]? = some 4000000000 := by rw [hitems]; rfl
    obtain ⟨hlt, hget⟩ := List.getElem?_eq_some_iff.1 hitem
    rw [List.length_ofFn] at hlt
    rw [List.getElem_ofFn] at hget
    exact ⟨list, after, hrun, hascend, (hfind hascend _ _).2 ⟨hlt, hget⟩⟩

end Frame

end Layout

end Postings
