/-
How much a few bytes can announce.

A size is read before the items are, so bytes could announce far more items than they hold.  They
cannot: every layout but that of a progression spends a bit on every item at least, since it
refuses elements of no width.  Blocks of gaps may have none, but only where a block is one item,
which has a record of two bytes.

The walk over these records is counted as well.  It moves two bytes on for every block that it
keeps, so bytes that are refused in the end make it keep no more blocks than bytes that are read.
A block is counted for every place where the walk reads a record and can.

* `PackedArray.size_le` — elements that have a width, in bytes;
* `Native.takes_dense`, `Compact.takes_dense`, `Line.takes_dense`, `Frame.takes_dense` — layouts;
* `Frame.readBlocksCounted`, `Frame.readCounted` — the walk, with the blocks it keeps counted;
* `Frame.places`, `Frame.run_readWith_congr` — the places where it reads a record, and that records
  elsewhere do not matter;
* `ItemSet.decoding_bounded` — lists, tables and walks.
-/
import Postings.Proofs.ItemSet.Decode
import Postings.Proofs.ItemSet.Records

namespace Postings

open Layout

/-- There are eight items a byte at most. -/
def Dense (size : Nat) (bytes : List UInt8) : Prop :=
  size ≤ 8 * bytes.length

theorem Dense.append_left {size : Nat} {front : List UInt8} (h : Dense size front)
    (lead : List UInt8) : Dense size (lead ++ front) := by
  rw [Dense, List.length_append, Nat.mul_add]
  exact Nat.le_trans h (Nat.le_add_left ..)

/-- Elements that have a width take a bit each. -/
theorem PackedArray.size_le {array : PackedArray} (hpos : 1 ≤ array.bits) (hle : array.bits ≤ 64)
    (hsize : array.size < 2 ^ 32) : array.size ≤ 8 * array.data.size := by
  have hwords : array.size * array.bits < 2 ^ 64 :=
    Nat.lt_of_le_of_lt (Nat.mul_le_mul (Nat.le_of_lt hsize) hle) (by decide)
  have hbits : array.size ≤ array.size * array.bits := Nat.le_mul_of_pos_right _ hpos
  rw [array.data_size, Packed.byteLength_eq hwords]
  omega

/-- A number takes a byte at least. -/
theorem Varint.length_pos {bytes : List UInt8} {value length : Nat}
    (h : Varint.decode bytes = some (value, length)) : 0 < length :=
  (Varint.decodeFrom_length h).1

/-! ### Layouts -/

namespace Layout

theorem Native.takes_dense : Takes Native.read fun list front => Dense list.size front := by
  refine Native.delimited_read.takes.mono fun list front hreads => ?_
  have hvalues := list.values_size
  rw [Native.eq_of_reads hreads, Dense, List.length_append, Array.length_toList]
  show list.size ≤ 8 * (_ + list.values.size)
  omega

theorem Compact.takes_dense : Takes Compact.read fun list front => Dense list.size front := by
  refine Takes.varint32.bind fun size lead hlead => Takes.byte.bind fun bits width _ => ?_
  split
  next hbits =>
    refine (Takes.take _).bind fun data back hback => Takes.pure ?_
    have hpacked : size ≤ 8 * data.val.size :=
      @PackedArray.size_le ⟨data.val, bits, size, data.property⟩ hbits.1
        (Nat.le_trans hbits.2 (by decide)) hlead.1
    have hdense : Dense size back := hback ▸ hpacked
    rw [List.append_nil]
    exact (hdense.append_left width).append_left lead
  next => exact Takes.throw _

theorem takes_packed {what : String} (size bits : Nat) :
    Takes (PackedArray.read size bits what) fun array front =>
      array.size = size ∧ array.bits = bits ∧ front = array.data.data.toList :=
  (Takes.take _).bind fun _ front hfront =>
    Takes.pure ⟨rfl, rfl, by rw [List.append_nil]; exact hfront⟩

theorem Line.takes_dense : Takes Line.read fun line front => Dense line.size front := by
  refine Takes.varint32.bind fun count lead hlead => ?_
  have hpos := Varint.length_pos hlead.2
  split
  · exact Takes.pure (Nat.zero_le _)
  · refine Takes.varint.bind fun value back _ => Takes.pure ?_
    rw [Dense, List.length_append]
    show 1 ≤ _
    omega
  · refine Takes.varint.bind fun slope first _ => Takes.varint.bind fun intercept second _ =>
      Takes.byte.bind fun bits width _ => ?_
    split
    · exact Takes.throw (.corrupt (.residualWidth bits))
    next hbits =>
      refine (takes_packed _ bits).bind fun residuals back hback => Takes.pure ?_
      obtain ⟨hsize, rfl, rfl⟩ := hback
      have hdense : Dense residuals.size residuals.data.data.toList :=
        PackedArray.size_le (by omega) (by omega) (hsize ▸ hlead.1)
      rw [List.append_nil]
      exact (((hdense.append_left width).append_left second).append_left first).append_left lead

theorem Ascent.takes_dense : Takes Ascent.read fun list front => Dense list.size front := by
  refine Line.takes_dense.bind fun line front hdense => ?_
  split
  · refine Takes.pure ?_
    rwa [List.append_nil]
  · exact Takes.throw _

/-! ### Blocks -/

/-- A record takes a byte for the first item and one for the width. -/
theorem Block.Recorded.two_le {block : Block} {record : List UInt8} (h : block.Recorded record) :
    2 ≤ record.length := by
  obtain ⟨lead, hlead, rfl⟩ := h.bytes
  have hpos := Varint.length_pos hlead
  simp only [List.length_append, List.length_singleton]
  omega

/-- The items after the first have gaps of some width. -/
theorem Block.Recorded.dense {block : Block} {record : List UInt8} (h : block.Recorded record)
    (hsize : block.size < 2 ^ 32) : Dense block.size record := by
  have hle := h.width_le
  obtain ⟨lead, -, rfl⟩ := h.bytes
  have hgaps : block.gaps.size ≤ 8 * block.gaps.data.size := by
    -- A block of one item has no gap, whatever its width is.
    rcases Nat.eq_zero_or_pos block.gaps.size with hnone | hsome
    · omega
    · exact PackedArray.size_le (h.width_pos (Nat.succ_lt_succ hsome)) (by omega)
        (Nat.lt_of_succ_lt hsize)
  rw [Dense, List.length_append, List.length_append, List.length_singleton, Array.length_toList]
  show block.gaps.size + 1 ≤ 8 * (_ + block.gaps.data.size)
  omega

/-- The items of blocks, in the bytes of their records. -/
theorem dense_flatten {blocks : List Block} {records : List (List UInt8)}
    (h : List.Forall₂ Block.Recorded blocks records)
    (hsize : ∀ block ∈ blocks, block.size < 2 ^ 32) :
    Dense (blocks.flatMap (·.items.toList)).length records.flatten := by
  induction h with
  | nil => exact Nat.zero_le _
  | cons hrecord _ ih =>
    obtain ⟨hfirst, hrest⟩ := List.forall_mem_cons.1 hsize
    have hblock := hrecord.dense hfirst
    have hblocks := ih hrest
    rw [Dense] at hblock hblocks
    rw [Dense, List.flatMap_cons, List.length_append, Array.length_toList, Block.size_items,
      List.flatten_cons, List.length_append]
    omega

namespace Frame

theorem takes_dense : Takes read fun list front => Dense list.size front := by
  refine (takes_read.and_yields yields_read).mono fun list front htaken => ?_
  obtain ⟨⟨size, blockSize, count, records, hrecorded, rfl⟩, hsize, -⟩ := htaken
  have hblocks : ∀ block ∈ list.blocks.toList, block.size < 2 ^ 32 := by
    intro block hblock
    obtain ⟨index, hindex, rfl⟩ := Array.mem_iff_getElem.1 (Array.mem_toList_iff.1 hblock)
    rw [list.tiles index hindex]
    omega
  have hdense := dense_flatten hrecorded.records hblocks
  rw [flatMap_blocks, List.length_ofFn] at hdense
  exact hdense.append_left _

/-! ### The walk over the records -/

/-- What a walk over the records of a list answers. -/
abbrev Walk (size blockSize : Nat) : Type :=
  { blocks : Array Block //
    blocks.size = (size + blockSize - 1) / blockSize ∧ Tiles size blockSize blocks }

section Walk

variable {size blockSize count : Nat} {blocks : Array Block} {block : Block}

/-- The walk ends when every block is kept. -/
theorem kept_all (hcount : blocks.size + 0 = (size + blockSize - 1) / blockSize)
    (htiles : Tiles size blockSize blocks) :
    blocks.size = (size + blockSize - 1) / blockSize ∧ Tiles size blockSize blocks :=
  ⟨hcount, htiles⟩

/-- A block that is still to come has an item. -/
theorem next_pos (hpos : 0 < blockSize)
    (hcount : blocks.size + (count + 1) = (size + blockSize - 1) / blockSize) :
    0 < min blockSize (size - blocks.size * blockSize) := by
  have hleft : blocks.size * blockSize < size := mul_lt_of_lt_ceil hpos (by omega)
  omega

theorem count_push (hcount : blocks.size + (count + 1) = (size + blockSize - 1) / blockSize) :
    (blocks.push block).size + count = (size + blockSize - 1) / blockSize := by
  rw [Array.size_push]
  omega

end Walk

/-- The numbers in front of the records: the size and the block size. -/
def readHead : Read { head : Nat × Nat // 0 < head.2 } := do
  let size ← Read.varint32 "FoR size"
  let blockSize ← Read.varint32 "FoR block size"
  if hpos : 0 < blockSize then
    let declared ← Read.varint "FoR block count"
    let needed := (size + blockSize - 1) / blockSize
    if declared ≠ needed then throw (.corrupt (.blockCount declared needed size))
    else return ⟨(size, blockSize), hpos⟩
  else throw (.corrupt .zeroBlockSize)

/-- Reads the last `count` records of a list as `readBlocks` does, and counts the blocks that are
kept until it succeeds or fails. -/
def readBlocksCounted (size blockSize : Nat) (hpos : 0 < blockSize) :
    (count : Nat) → (blocks : Array Block) → Tiles size blockSize blocks →
    blocks.size + count = (size + blockSize - 1) / blockSize → Reader →
    EStateM.Result Error Reader (Walk size blockSize) × Nat
  | 0, blocks, htiles, hcount, reader => (.ok ⟨blocks, kept_all hcount htiles⟩ reader, 0)
  | count + 1, blocks, htiles, hcount, reader =>
    match readBlock (min blockSize (size - blocks.size * blockSize)) (next_pos hpos hcount)
      reader with
    | .ok ⟨block, hblock⟩ after =>
      let later := readBlocksCounted size blockSize hpos count (blocks.push block)
        (htiles.push hblock) (count_push hcount) after
      (later.1, later.2 + 1)
    | .error error after => (.error error after, 0)

/-- Reads the records behind the numbers in front. -/
def readRecords (head : { head : Nat × Nat // 0 < head.2 }) : Read Frame := do
  let ⟨blocks, hblocks, htiles⟩ ← readBlocks head.val.1 head.val.2 head.property _ #[]
    (Tiles.empty _ _) (Nat.zero_add _)
  return ⟨head.val.1, head.val.2, head.property, blocks, hblocks, htiles⟩

/-- Reads a list as `read` does, and counts the blocks that are kept until it succeeds or fails. -/
def readCounted (payload : ByteArray) : Except Error (Frame × Reader) × Nat :=
  match readHead (Reader.ofBytes payload) with
  | .error error _ => (.error error, 0)
  | .ok ⟨(size, blockSize), hpos⟩ reader =>
    let walk := readBlocksCounted size blockSize hpos _ #[] (Tiles.empty size blockSize)
      (Nat.zero_add _) reader
    match walk.1 with
    | .ok ⟨blocks, hblocks, htiles⟩ after =>
      (.ok (⟨size, blockSize, hpos, blocks, hblocks, htiles⟩, after), walk.2)
    | .error error _ => (.error error, walk.2)

theorem read_eq : read = readHead >>= readRecords := by
  funext reader
  simp only [read, readHead, bind_assoc]
  refine congrFun (bind_congr fun size => bind_congr fun blockSize => ?_) reader
  split
  · rw [bind_assoc]
    refine bind_congr fun declared => ?_
    split
    · rfl
    · rw [pure_bind]
      refine bind_congr fun all => ?_
      obtain ⟨blocks, hblocks, htiles⟩ := all
      rfl
  · rfl

/-! ### Records that matter -/

/-- A place where a record is begun: the size of its block, and the reader in front of it. -/
abbrev Place : Type :=
  { size : Nat // 0 < size } × Reader

/-- What is done at a place to read the record. -/
def Place.result (place : Place) :
    EStateM.Result Error Reader { block : Block // block.size = place.1.val } :=
  readBlock place.1.val place.1.property place.2

/-- The block at a place is kept, since its record can be read. -/
def Place.isKept (place : Place) : Bool :=
  match place.result with
  | .ok _ _ => true
  | .error _ _ => false

/-- The places that a walk over the last `count` records of a list comes to. -/
def placesOf (size blockSize : Nat) (hpos : 0 < blockSize) :
    (count : Nat) → (blocks : Array Block) → Tiles size blockSize blocks →
    blocks.size + count = (size + blockSize - 1) / blockSize → Reader → List Place
  | 0, _, _, _, _ => []
  | count + 1, blocks, htiles, hcount, reader =>
    (⟨_, next_pos hpos hcount⟩, reader) ::
      match readBlock (min blockSize (size - blocks.size * blockSize)) (next_pos hpos hcount)
        reader with
      | .ok ⟨block, hblock⟩ after =>
        placesOf size blockSize hpos count (blocks.push block) (htiles.push hblock)
          (count_push hcount) after
      | .error _ _ => []

/-- The places that the walk over the records of a list comes to, until it succeeds or fails. -/
def places (payload : ByteArray) : List Place :=
  match readHead (Reader.ofBytes payload) with
  | .error _ _ => []
  | .ok ⟨(size, blockSize), hpos⟩ reader =>
    placesOf size blockSize hpos _ #[] (Tiles.empty size blockSize) (Nat.zero_add _) reader

/-- A way to read the record of a block of some size. -/
abbrev RecordReader : Type :=
  (size : Nat) → 0 < size → Read { block : Block // block.size = size }

/-- Reads the last `count` records of a list as `readBlocks` does, in any way. -/
def readBlocksWith (record : RecordReader) (size blockSize : Nat) (hpos : 0 < blockSize) :
    (count : Nat) → (blocks : Array Block) → Tiles size blockSize blocks →
    blocks.size + count = (size + blockSize - 1) / blockSize → Read (Walk size blockSize)
  | 0, blocks, htiles, hcount => return ⟨blocks, kept_all hcount htiles⟩
  | count + 1, blocks, htiles, hcount => do
    let ⟨block, hblock⟩ ← record _ (next_pos hpos hcount)
    readBlocksWith record size blockSize hpos count (blocks.push block) (htiles.push hblock)
      (count_push hcount)

/-- Reads a list as `read` does, with its records read in any way. -/
def readWith (record : RecordReader) : Read Frame := do
  let head ← readHead
  let ⟨blocks, hblocks, htiles⟩ ← readBlocksWith record head.val.1 head.val.2 head.property _ #[]
    (Tiles.empty _ _) (Nat.zero_add _)
  return ⟨head.val.1, head.val.2, head.property, blocks, hblocks, htiles⟩

/-- Nothing but the records at the places that a walk comes to decides what it answers. -/
theorem readBlocksWith_congr {record : RecordReader} {size blockSize : Nat} (hpos : 0 < blockSize)
    (count : Nat) (blocks : Array Block) (htiles : Tiles size blockSize blocks)
    (hcount : blocks.size + count = (size + blockSize - 1) / blockSize) (reader : Reader)
    (h : ∀ place ∈ placesOf size blockSize hpos count blocks htiles hcount reader,
      record place.1.val place.1.property place.2 = place.result) :
    readBlocksWith record size blockSize hpos count blocks htiles hcount reader
      = readBlocks size blockSize hpos count blocks htiles hcount reader := by
  induction count generalizing blocks reader with
  | zero => rfl
  | succ count ih =>
    -- The first place is where the walk stands, and the others are those of the walk behind it.
    obtain ⟨hfirst, hrest⟩ := List.forall_mem_cons.1 h
    have hfirst : record _ (next_pos hpos hcount) reader
      = readBlock _ (next_pos hpos hcount) reader := hfirst
    rw [readBlocksWith, readBlocks]
    split at hrest
    next block hblock after hok =>
      rw [Read.bind_ok hok, Read.bind_ok (hfirst.trans hok)]
      exact ih _ _ _ _ hrest
    next error after herror => rw [Read.bind_error herror, Read.bind_error (hfirst.trans herror)]

/-! ### Blocks that are kept -/

theorem fst_readBlocksCounted {size blockSize : Nat} (hpos : 0 < blockSize) (count : Nat)
    (blocks : Array Block) (htiles : Tiles size blockSize blocks)
    (hcount : blocks.size + count = (size + blockSize - 1) / blockSize) (reader : Reader) :
    (readBlocksCounted size blockSize hpos count blocks htiles hcount reader).1
      = readBlocks size blockSize hpos count blocks htiles hcount reader := by
  induction count generalizing blocks reader with
  | zero => rfl
  | succ count ih =>
    rw [readBlocksCounted, readBlocks]
    split
    next block hblock after hok =>
      rw [Read.bind_ok hok]
      exact ih _ _ _ _
    next error after herror => rw [Read.bind_error herror]

/-- A block is kept for two bytes that the reader moves on by, and on success every block is
counted. -/
theorem snd_readBlocksCounted {size blockSize : Nat} (hpos : 0 < blockSize) (count : Nat)
    (blocks : Array Block) (htiles : Tiles size blockSize blocks)
    (hcount : blocks.size + count = (size + blockSize - 1) / blockSize) (reader : Reader) :
    let walk := readBlocksCounted size blockSize hpos count blocks htiles hcount reader
    2 * walk.2 ≤ reader.rest.length ∧
      ∀ all after, walk.1 = .ok all after → blocks.size + walk.2 = all.val.size := by
  induction count generalizing blocks reader with
  | zero =>
    refine ⟨Nat.zero_le _, fun all after hok => ?_⟩
    obtain ⟨rfl, -⟩ := EStateM.Result.ok.inj hok
    rfl
  | succ count ih =>
    rw [readBlocksCounted]
    split
    next block hblock after hok =>
      obtain ⟨record, hrecord, rfl, hrecorded⟩ := takes_readBlock _ _ _ _ _ hok
      obtain ⟨hlater, hkept⟩ := ih (blocks.push block) (htiles.push hblock)
        (count_push hcount) (reader.forward record.length)
      -- The record pays for this block, and what is left of the bytes for the later ones.
      have htwo := hrecorded.two_le
      have hle := hrecord.length_le
      have hpush : (blocks.push block).size = blocks.size + 1 := Array.size_push block
      rw [Reader.rest_forward, List.length_drop] at hlater
      refine ⟨?_, fun all after hall => ?_⟩
      · simp only
        omega
      · have hsize := hkept all after hall
        simp only
        omega
    next error after herror => exact ⟨Nat.zero_le _, fun all after hall => by simp at hall⟩

/-- A block is counted for every place whose record can be read. -/
theorem snd_readBlocksCounted_eq {size blockSize : Nat} (hpos : 0 < blockSize) (count : Nat)
    (blocks : Array Block) (htiles : Tiles size blockSize blocks)
    (hcount : blocks.size + count = (size + blockSize - 1) / blockSize) (reader : Reader) :
    (readBlocksCounted size blockSize hpos count blocks htiles hcount reader).2
      = ((placesOf size blockSize hpos count blocks htiles hcount reader).filter
          Place.isKept).length := by
  induction count generalizing blocks reader with
  | zero => rfl
  | succ count ih =>
    rw [readBlocksCounted, placesOf]
    split
    next block hblock after hok =>
      rw [List.filter_cons_of_pos (by rw [Place.isKept, Place.result, hok]), List.length_cons,
        ← ih]
    next error after herror =>
      rw [List.filter_cons_of_neg (by rw [Place.isKept, Place.result, herror]; simp)]
      rfl

theorem snd_readCounted_eq (payload : ByteArray) :
    (readCounted payload).2 = ((places payload).filter Place.isKept).length := by
  rw [readCounted, places]
  split
  next => rfl
  next size blockSize hpos reader hhead =>
    rw [← snd_readBlocksCounted_eq]
    simp only
    split
    next => rfl
    next => rfl

theorem run_readWith_congr {record : RecordReader} {payload : ByteArray}
    (h : ∀ place ∈ places payload,
      record place.1.val place.1.property place.2 = place.result) :
    Read.run (readWith record) payload = Read.run read payload := by
  rw [places] at h
  rw [Read.run, Read.run, readWith, read_eq]
  split at h
  next error after herror => rw [Read.bind_error herror, Read.bind_error herror]
  next size blockSize hpos reader hhead =>
    have hblocks := readBlocksWith_congr hpos _ #[] (Tiles.empty size blockSize) (Nat.zero_add _)
      reader h
    rw [Read.bind_ok hhead, Read.bind_ok hhead, readRecords, Read.bind_of_eq hblocks]
    rfl

theorem takes_readHead : Takes readHead fun _ _ => True := by
  refine Takes.varint32.bind fun size _ _ => Takes.varint32.bind fun blockSize _ _ => ?_
  split
  · refine Takes.varint.bind fun declared _ _ => ?_
    simp only
    split
    · exact Takes.throw _
    · exact Takes.pure trivial
  · exact Takes.throw _

/-- Counting changes no answer. -/
theorem fst_readCounted (payload : ByteArray) :
    (readCounted payload).1 = Read.run read payload := by
  rw [Read.run, read_eq, readCounted]
  split
  next error after herror => rw [Read.bind_error herror]
  next size blockSize hpos reader hhead =>
    rw [Read.bind_ok hhead, readRecords]
    simp only [fst_readBlocksCounted]
    split
    next blocks hblocks htiles after hwalk => rw [Read.bind_ok hwalk]; rfl
    next error after hwalk => rw [Read.bind_error hwalk]

/-- No more blocks are kept than there are pairs of bytes. -/
theorem snd_readCounted (payload : ByteArray) :
    2 * (readCounted payload).2 ≤ payload.size ∧
      ∀ list after, (readCounted payload).1 = .ok (list, after) →
        (readCounted payload).2 = list.blocks.size := by
  rw [readCounted]
  split
  next error after herror => exact ⟨Nat.zero_le _, fun list after hok => by simp at hok⟩
  next size blockSize hpos reader hhead =>
    obtain ⟨front, hfront, rfl, -⟩ := takes_readHead _ _ _ hhead
    obtain ⟨hkept, hall⟩ := snd_readBlocksCounted hpos _ #[] (Tiles.empty size blockSize)
      (Nat.zero_add _) ((Reader.ofBytes payload).forward front.length)
    rw [Reader.rest_forward, List.length_drop, Reader.rest_ofBytes, Array.length_toList] at hkept
    have hbound := Nat.le_trans hkept (Nat.sub_le _ _)
    simp only
    split
    next blocks hblocks htiles after hwalk =>
      refine ⟨hbound, fun list after hok => ?_⟩
      have hsize := hall _ _ hwalk
      rw [Array.size_empty, Nat.zero_add] at hsize
      obtain ⟨rfl, -⟩ := Prod.mk.inj (Except.ok.inj hok)
      exact hsize
    next error after hwalk => exact ⟨hbound, fun list after hok => by simp at hok⟩

end Frame

end Layout

/-! ### Lists behind a tag -/

namespace Form

theorem takes_form {α : Type} {step : Read α} {form : α → Form}
    (h : Takes step fun list front => Dense (form list).size front) :
    Takes (do return form (← step)) fun form front => form.codec ≠ .range → Dense form.size front :=
  h.bind fun _ _ hdense => Takes.pure fun _ => by rwa [List.append_nil]

theorem takes_readAs (codec : Codec) :
    Takes (readAs codec) fun form front => form.codec ≠ .range → Dense form.size front := by
  cases codec with
  | native => exact takes_form Native.takes_dense
  | vector => exact takes_form Native.takes_dense
  | range => exact Progression.delimited_read.takes.bind fun _ _ _ => Takes.pure (absurd rfl)
  | compact => exact takes_form Compact.takes_dense
  | line => exact takes_form Ascent.takes_dense
  | frame => exact takes_form Frame.takes_dense

theorem takes_readAnnounced :
    Takes readAnnounced fun form front => form.codec ≠ .range → Dense form.size front := by
  refine Takes.byte.bind fun tag lead _ => ?_
  split
  · exact (takes_readAs _).mono fun form front hdense hcodec => (hdense hcodec).append_left lead
  · exact Takes.throw _

theorem takes_readTagged :
    Takes readTagged fun form front => form.codec ≠ .range → Dense form.size front :=
  fun reader form after h => takes_readAnnounced reader form after (readTagged_eq_ok.1 h)

end Form

namespace ItemSet

theorem dense_of_ofTrustedBytes {bytes : ByteArray} {set : ItemSet}
    (h : ofTrustedBytes bytes = .ok set) (hcodec : set.codec ≠ .range) :
    set.size ≤ 8 * set.byteLength ∧ set.byteLength ≤ bytes.size := by
  rw [ofTrustedBytes, bind_eq_ok] at h
  obtain ⟨⟨form, reader⟩, hrun, hset⟩ := h
  obtain rfl := Except.ok.inj hset
  obtain ⟨front, hfront, hposition, hdense⟩ := Form.takes_readTagged.run hrun
  have hle : front.length ≤ bytes.size := hfront.length_le
  have hlength : (ItemSet.mk form (some (bytes.extract 0 reader.position))).byteLength
      = front.length := by
    show (bytes.extract 0 reader.position).size = front.length
    rw [hposition, ByteArray.size_extract]
    omega
  rw [hlength]
  exact ⟨hdense hcodec, hle⟩

/-- Bytes that are read as a list other than a progression hold an item an eighth of a byte at
least, and so do those of a table.  Of any bytes at all, the walk over the records of blocks keeps
no more than a block for every two, whether it succeeds or not; if it does, it has kept them all.
It keeps a block at each place that it comes to and finds a record at, and other places do not
matter. -/
theorem decoding_bounded :
    (∀ bytes set, ofTrustedBytes bytes = .ok set → set.codec ≠ .range →
      set.size ≤ 8 * set.byteLength ∧ set.byteLength ≤ bytes.size) ∧
    (∀ table line after, Read.run Line.read table = .ok (line, after) →
      line.size ≤ 8 * after.position ∧ after.position ≤ table.size) ∧
    ∀ payload, (Frame.readCounted payload).1 = Read.run Frame.read payload ∧
      2 * (Frame.readCounted payload).2 ≤ payload.size ∧
      (∀ list after, Read.run Frame.read payload = .ok (list, after) →
        (Frame.readCounted payload).2 = list.blocks.size) ∧
      (Frame.readCounted payload).2
        = ((Frame.places payload).filter Frame.Place.isKept).length ∧
      ∀ record : Frame.RecordReader,
        (∀ place ∈ Frame.places payload,
          record place.1.val place.1.property place.2 = place.result) →
        Read.run (Frame.readWith record) payload = Read.run Frame.read payload := by
  refine ⟨fun bytes set => dense_of_ofTrustedBytes, fun table line after h => ?_,
    fun payload => ?_⟩
  · obtain ⟨front, hfront, hposition, hdense⟩ := Line.takes_dense.run h
    rw [hposition]
    exact ⟨hdense, hfront.length_le⟩
  · obtain ⟨htwo, hall⟩ := Frame.snd_readCounted payload
    rw [Frame.fst_readCounted] at hall
    exact ⟨Frame.fst_readCounted payload, htwo, hall, Frame.snd_readCounted_eq payload,
      fun record h => Frame.run_readWith_congr h⟩

/-- Sixteen items of a bit each; a table of three numbers; two blocks of one item; and bytes that
announce 2^32 - 1 such blocks and end behind the second. -/
theorem decoding_bounded_few :
    (∃ set, ofTrustedBytes ⟨#[2, 16, 1, 0, 0]⟩ = .ok set ∧ set.codec ≠ .range ∧ set.size = 16 ∧
      set.size ≤ 8 * set.byteLength) ∧
    (∃ line after, Read.run Line.read ⟨#[3, 6, 0, 2, 8]⟩ = .ok (line, after) ∧
      line.size ≤ 8 * after.position) ∧
    (∃ list after, Read.run Frame.read ⟨#[2, 1, 2, 7, 0, 9, 0]⟩ = .ok (list, after) ∧
      (Frame.readCounted ⟨#[2, 1, 2, 7, 0, 9, 0]⟩).2 = 2) ∧
    (Frame.readCounted
      ⟨#[255, 255, 255, 255, 15, 1, 255, 255, 255, 255, 15, 7, 0, 9, 0]⟩).2 = 2 := by
  obtain ⟨hlists, htables, hwalks⟩ := decoding_bounded
  obtain ⟨set, hset, hcodec, hsize⟩ : ∃ set, ofTrustedBytes ⟨#[2, 16, 1, 0, 0]⟩ = .ok set ∧
      set.codec = .compact ∧ set.size = 16 := ⟨_, rfl, rfl, rfl⟩
  have hother : set.codec ≠ .range := by
    rw [hcodec]
    decide
  obtain ⟨line, after, hline⟩ :
      ∃ line after, Read.run Line.read ⟨#[3, 6, 0, 2, 8]⟩ = .ok (line, after) := ⟨_, _, rfl⟩
  obtain ⟨list, rest, hlist, hlength, hblockSize, -⟩ :=
    Frame.exists_run ⟨#[2, 1, 2, 7, 0, 9, 0]⟩ 2 1 [7, 9] (by decide +kernel)
  have hblocks : list.blocks.size = 2 := by rw [list.blocks_size, hlength, hblockSize]
  refine ⟨⟨set, hset, hother, hsize, (hlists _ _ hset hother).1⟩,
    ⟨line, after, hline, (htables _ _ _ hline).1⟩,
    ⟨list, rest, hlist, ((hwalks _).2.2.1 _ _ hlist).trans hblocks⟩, by decide +kernel⟩

end ItemSet

end Postings
