/-
The layouts read with every access guarded.

A list is parsed field by field, a progression has its size worked out and a line has every number
checked while it is parsed; none of it strays, whatever the bytes are and whether they are refused
later or not.

* `Native.guards_read`, `Progression.guards_read`, `Compact.guards_read`, `Ascent.guards_read`,
  `Frame.guards_read` — parsing never strays;
* `Line.valueAt?_eq`, `Line.checkAscent?_eq` — nor does the check of a line;
* `Native.get?_eq`, `Compact.get?_eq`, `Block.items?_eq` — nor does an item that is asked for later.
-/
import Postings.Proofs.Bytes.Guarded
import Postings.Layout.Progression
import Postings.Proofs.Layout.Native
import Postings.Proofs.Layout.Compact
import Postings.Proofs.Layout.Line
import Postings.Proofs.Layout.Frame

namespace Postings.Layout

namespace Native

/-- Reads a list. -/
def readGuarded : Guarded Native := do
  let size ← Guarded.word32 "native size"
  let ⟨values, h⟩ ← Guarded.take (4 * size) "native values"
  return ⟨values, size, h⟩

theorem guards_read : Guards readGuarded read :=
  (Guards.word32 _).bind (Yields.any _) fun _ _ =>
    (Guards.take _ _).bind (Yields.any _) fun _ _ => Guards.pure _

/-- The item in the four bytes at a position. -/
def get? (list : Native) (position : Nat) : Option Item := do
  let value ← Bytes.leAt? list.values (4 * position) 4
  return UInt32.ofNat value

theorem get?_eq (list : Native) (position : Fin list.size) :
    list.get? position = some (list.get position) := by
  have hlt := position.isLt
  have hsize := list.values_size
  rw [get?, Bytes.leAt?_eq (by omega)]
  rfl

end Native

namespace Progression

/-- The progression with these numbers; its size is a difference divided by the stride. -/
def make? (begin : Item) (stop : Nat) (stride : UInt32) : ExceptT Error Option Progression :=
  if stride.toNat = 0 then throw (.corrupt .zeroStride)
  else if 2 ^ 32 < stop then throw (.corrupt (.endOutside stop))
  else if stop < begin.toNat then throw (.corrupt (.endBelowBegin stop begin.toNat))
  else do
    let span ← minus? stop begin.toNat
    let _size ← divUp? span stride.toNat
    ExceptT.mk (some (make begin stop stride))

theorem make?_eq (begin : Item) (stop : Nat) (stride : UInt32) :
    (make? begin stop stride).run = some (make begin stop stride) := by
  by_cases hstride : stride.toNat = 0
  · rw [make?, if_pos hstride, make, dif_pos hstride]
    rfl
  by_cases hstop : 2 ^ 32 < stop
  · rw [make?, if_neg hstride, if_pos hstop, make, dif_neg hstride, dif_pos hstop]
    rfl
  by_cases hbegin : stop < begin.toNat
  · rw [make?, if_neg hstride, if_neg hstop, if_pos hbegin, make, dif_neg hstride, dif_neg hstop,
      dif_pos hbegin]
    rfl
  · rw [make?, if_neg hstride, if_neg hstop, if_neg hbegin,
      Guards.run_access (minus?_eq (Nat.le_of_not_lt hbegin)),
      Guards.run_access (divUp?_eq (Nat.pos_of_ne_zero hstride))]
    rfl

/-- Reads the three numbers. -/
def readGuarded : Guarded Progression := do
  let begin ← Guarded.varint32 "range begin"
  let stop ← Guarded.varint "range end"
  let stride ← Guarded.varint32 "range stride"
  make? (UInt32.ofNat begin) stop (UInt32.ofNat stride)

theorem guards_read : Guards readGuarded read := by
  refine (Guards.varint32 _).bind (Yields.any _) fun begin _ =>
    (Guards.varint _).bind (Yields.any _) fun stop _ =>
      (Guards.varint32 _).bind (Yields.any _) fun stride _ => fun reader => ?_
  have hmake := make?_eq (UInt32.ofNat begin) stop (UInt32.ofNat stride)
  cases hanswer : make (UInt32.ofNat begin) stop (UInt32.ofNat stride) with
  | error _ | ok _ =>
    rw [hanswer] at hmake
    exact Guards.run_check hmake reader

end Progression

namespace Compact

/-- Reads a list. -/
def readGuarded : Guarded Compact := do
  let size ← Guarded.varint32 "compact size"
  let bits ← Guarded.byte "compact bit width"
  if hbits : bits < 1 ∨ 32 < bits then throw (.corrupt (.compactWidth bits))
  else
    let ⟨data, hdata⟩ ← Guarded.take (Packed.byteLength size bits) "compact values"
    return ⟨⟨data, bits, size, hdata⟩, Nat.not_lt.1 (not_or.1 hbits).1,
      Nat.not_lt.1 (not_or.1 hbits).2⟩

theorem guards_read : Guards readGuarded read := by
  refine (Guards.varint32 _).bind (Yields.any _) fun size _ =>
    (Guards.byte _).bind (Yields.any _) fun bits _ => ?_
  by_cases hbits : bits < 1 ∨ 32 < bits
  · rw [dif_pos hbits, dif_neg (by omega)]
    exact Guards.throw _
  · rw [dif_neg hbits, dif_pos (by omega)]
    exact (Guards.take _ _).bind (Yields.any _) fun _ _ => Guards.pure _

/-- The item at a position. -/
def get? (list : Compact) (position : Nat) : Option Item := do
  let value ← list.packed.get? position
  return UInt32.ofNat value

theorem get?_eq {list : Compact} (h : list.size < 2 ^ 32) (position : Fin list.size) :
    list.get? position = some (list.get position) := by
  have hbits : list.packed.bits ≤ 64 := Nat.le_trans list.bits_le (by decide)
  rw [get?, PackedArray.get?_eq (inside h) hbits position.isLt]
  rfl

end Compact

namespace Line

/-- Reads a sequence. -/
def readGuarded : Guarded Line := do
  let count ← Guarded.varint32 "regline size"
  match count with
  | 0 => return empty
  | 1 => return single (← Guarded.varint "regline value")
  | count =>
    let slope ← Guarded.varint "regline slope"
    let intercept ← Guarded.varint "regline intercept"
    let bits ← Guarded.byte "regline residual width"
    if bits < 1 ∨ 64 < bits then throw (.corrupt (.residualWidth bits))
    let residuals ← PackedArray.readGuarded count bits "regline residuals"
    return fitted slope (Zigzag.decode intercept) residuals

theorem guards_read : Guards readGuarded read := by
  refine (Guards.varint32 _).bind (Yields.any _) fun count _ => ?_
  match count with
  | 0 => exact Guards.pure _
  | 1 => exact (Guards.varint _).bind (Yields.any _) fun _ _ => Guards.pure _
  | count + 2 =>
    refine (Guards.varint _).bind (Yields.any _) fun slope _ =>
      (Guards.varint _).bind (Yields.any _) fun intercept _ =>
        (Guards.byte _).bind (Yields.any _) fun bits _ => ?_
    have hresiduals := (PackedArray.guards_read (count + 2) bits "regline residuals").bind
      (Yields.any _) fun residuals _ =>
        Guards.pure (fitted slope (Zigzag.decode intercept) residuals)
    by_cases hbits : bits < 1 ∨ 64 < bits
    · simp only [if_pos hbits]
      exact (Guards.throw _).bind (Yields.any _) fun _ _ => hresiduals
    · simp only [if_neg hbits]
      exact hresiduals

/-- The height of a line, in a word of 128 bits; there are positions to divide by. -/
def rise? (count slope position : Nat) : Option Nat :=
  if 0 < count ∧ 2 * slope * position + count < 2 ^ 128 then some (rise count slope position)
  else none

/-- What stands at a position below the size. -/
def valueAt? (line : Line) (position : Nat) : Option Int :=
  match line with
  | empty => some 0
  | single value => some value
  | fitted slope intercept residuals => do
    let rise ← rise? residuals.size slope position
    let place ← residuals.get? position
    return intercept + rise + Zigzag.decode place

theorem valueAt?_eq {line : Line} (hsize : line.size < 2 ^ 32) (h : line.Inside) {position : Nat}
    (hp : position < line.size) : line.valueAt? position = some (line.valueAt position) := by
  cases line with
  | empty => rfl
  | single value => rfl
  | fitted slope intercept residuals =>
    obtain ⟨hslope, -, hbits, hresiduals⟩ := h
    have hp : position < residuals.size := hp
    have hsize : residuals.size < 2 ^ 32 := hsize
    -- A slope of 64 bits and a position of 32 bits leave room in a word of 128.
    have hmul : slope * position ≤ 2 ^ 64 * 2 ^ 32 :=
      Nat.mul_le_mul (Nat.le_of_lt hslope) (by omega)
    have hrise : rise? residuals.size slope position
        = some (rise residuals.size slope position) :=
      if_pos ⟨by omega, by rw [Nat.mul_assoc]; omega⟩
    rw [valueAt?, hrise, PackedArray.get?_eq hresiduals hbits hp]
    rfl

/-- The first contradiction among the numbers from `position` on to their being items that
exceed `previous` and ascend. -/
def checkAscent? (line : Line) (position : Nat) (previous : Int) :
    ExceptT Error Option Unit :=
  if position < line.size then do
    let value ← line.valueAt? position
    if value ≤ previous ∨ 2 ^ 32 ≤ value then
      throw (.corrupt (.lineDescent value position previous))
    else line.checkAscent? (position + 1) value
  else pure ()
termination_by line.size - position

theorem checkAscent?_eq {line : Line} (hsize : line.size < 2 ^ 32) (h : line.Inside)
    (position : Nat) (previous : Int) : (line.checkAscent? position previous).run
      = some (line.checkAscent position previous) := by
  fun_induction checkAscent line position previous with
  | case1 position previous hlt value hbad =>
    rw [checkAscent?, if_pos hlt, Guards.run_access (valueAt?_eq hsize h hlt), if_pos hbad]
    rfl
  | case2 position previous hlt value hgood ih =>
    rw [checkAscent?, if_pos hlt, Guards.run_access (valueAt?_eq hsize h hlt), if_neg hgood, ih]
  | case3 position previous hge =>
    rw [checkAscent?, if_neg hge]
    rfl

end Line

namespace Ascent

/-- The list of a line that has been checked. -/
def ofLine? (line : Line) : Option Ascent :=
  match h : line.checkAscent 0 (-1) with
  | .ok () => some ⟨line, h⟩
  | .error _ => none

theorem ofLine?_eq {line : Line} (h : line.checkAscent 0 (-1) = .ok ()) :
    ofLine? line = some ⟨line, h⟩ := by
  rw [ofLine?]
  split
  next => rfl
  next herror => exact absurd (h.symm.trans herror) (by simp)

/-- Reads a list and checks that its items ascend. -/
def readGuarded : Guarded Ascent := do
  let line ← Line.readGuarded
  line.checkAscent? 0 (-1)
  ofLine? line

theorem guards_read : Guards readGuarded read := by
  refine Line.guards_read.bind Line.yields_read fun line hline => ?_
  have hcheck := Line.checkAscent?_eq hline.1 hline.2 0 (-1)
  split
  next hok =>
    rw [hok] at hcheck
    intro reader
    rw [StateT.run_bind, ExceptT.run_bind, Guards.run_check hcheck reader, ofLine?_eq hok]
    rfl
  next error herror =>
    rw [herror] at hcheck
    intro reader
    rw [StateT.run_bind, ExceptT.run_bind, Guards.run_check hcheck reader]
    rfl

end Ascent

namespace Block

/-- The sums of the gaps from `position` on, `count` of them, added to `previous`; appended to
`out`. -/
def runningSums? (gaps : PackedArray) (position : Nat) (previous : Item) :
    (count : Nat) → Array Item → Option (Array Item)
  | 0, out => some out
  | count + 1, out => do
    let gap ← gaps.get? position
    let item := previous + UInt32.ofNat gap
    runningSums? gaps (position + 1) item count (out.push item)

theorem runningSums?_eq {gaps : PackedArray} (h : gaps.Inside) (hbits : gaps.bits ≤ 64)
    {position count : Nat} (hcount : position + count ≤ gaps.size) (previous : Item)
    (out : Array Item) : runningSums? gaps position previous count out
      = some (runningSums gaps.data gaps.bits position previous count out) := by
  induction count generalizing position previous out with
  | zero => rfl
  | succ count ih =>
    have hgap := PackedArray.get?_eq h hbits (show position < gaps.size by omega)
    rw [runningSums?, hgap, Option.bind_eq_bind, Option.bind_some, ih (by omega)]
    rfl

theorem items_eq_cons (block : Block) :
    block.items.toList = block.first :: block.rest.toList := by
  rw [items, Array.toList_append, List.singleton_append]

/-- The items, the first of which needs no gap. -/
def items? (block : Block) : Option (Array Item) := do
  let later ← minus? block.size 1
  runningSums? block.gaps 0 block.first later #[block.first]

theorem items?_eq {block : Block} (h : block.gaps.Inside) (hbits : block.gaps.bits ≤ 64) :
    block.items? = some block.items := by
  have hsize : 1 ≤ block.size := Nat.le_add_left ..
  rw [items?, minus?_eq hsize, Option.bind_eq_bind, Option.bind_some]
  simp only [size, Nat.add_sub_cancel]
  rw [runningSums?_eq h hbits (Nat.le_of_eq (Nat.zero_add _)), items, rest]
  congr 1
  apply Array.toList_inj.1
  have hfirst := block.toList_runningSums 0 block.gaps.size #[block.first]
  have hrest := block.toList_runningSums 0 block.gaps.size #[]
  rw [get_zero] at hfirst hrest
  rw [hfirst, Array.toList_append, hrest, List.nil_append]

end Block

namespace Frame

/-- Reads the record of a block of `size` items. -/
def readBlockGuarded (size : Nat) : Guarded { block : Block // block.size = size } := do
  let first ← Guarded.varint32 "FoR block start"
  let bits ← Guarded.byte "FoR block width"
  if 32 < bits ∨ (bits = 0 ∧ 1 < size) then throw (.corrupt (.blockWidth bits size))
  else
    let ⟨later, hlater⟩ ← minus? size 1
    let ⟨data, h⟩ ← Guarded.take (Packed.byteLength later bits) "FoR block deltas"
    return ⟨⟨UInt32.ofNat first, ⟨data, bits, later, h⟩⟩, hlater⟩

theorem guards_readBlock {size : Nat} (hsize : 0 < size) :
    Guards (readBlockGuarded size) (readBlock size hsize) := by
  refine (Guards.varint32 _).bind (Yields.any _) fun first _ =>
    (Guards.byte _).bind (Yields.any _) fun bits _ => ?_
  split
  · exact Guards.throw _
  · refine Guards.access (minus?_eq hsize) ?_
    exact (Guards.take _ _).bind (Yields.any _) fun _ _ => Guards.pure _

/-- Reads the last `count` records of a list, after the records in `blocks`. -/
def readBlocksGuarded (size blockSize : Nat) :
    (count : Nat) → (blocks : Array Block) → Tiles size blockSize blocks →
    blocks.size + count = (size + blockSize - 1) / blockSize →
    Guarded { blocks : Array Block //
      blocks.size = (size + blockSize - 1) / blockSize ∧ Tiles size blockSize blocks }
  | 0, blocks, htiles, hcount => return ⟨blocks, hcount, htiles⟩
  | count + 1, blocks, htiles, hcount => do
    let ⟨left, hleft⟩ ← minus? size (blocks.size * blockSize)
    let ⟨block, hblock⟩ ← readBlockGuarded (min blockSize left)
    readBlocksGuarded size blockSize count (blocks.push block) (htiles.push (by omega))
      (by rw [Array.size_push]; omega)

theorem guards_readBlocks {size blockSize : Nat} (hpos : 0 < blockSize) (count : Nat)
    (blocks : Array Block) (htiles : Tiles size blockSize blocks)
    (hcount : blocks.size + count = (size + blockSize - 1) / blockSize) :
    Guards (readBlocksGuarded size blockSize count blocks htiles hcount)
      (readBlocks size blockSize hpos count blocks htiles hcount) := by
  induction count generalizing blocks with
  | zero => exact Guards.pure _
  | succ count ih =>
    -- As long as a record is to come, the blocks so far do not hold all items.
    have hleft : blocks.size * blockSize < size := mul_lt_of_lt_ceil hpos (by omega)
    refine Guards.access (minus?_eq (Nat.le_of_lt hleft)) ?_
    exact (guards_readBlock (by omega)).bind (Yields.any _) fun _ _ => ih _ _ _

/-- Reads a list. -/
def readGuarded : Guarded Frame := do
  let size ← Guarded.varint32 "FoR size"
  let blockSize ← Guarded.varint32 "FoR block size"
  if hpos : 0 < blockSize then
    let declared ← Guarded.varint "FoR block count"
    let ⟨needed, hneeded⟩ ← divUp? size blockSize
    if declared ≠ needed then throw (.corrupt (.blockCount declared needed size))
    else
      let ⟨blocks, hblocks, htiles⟩ ← readBlocksGuarded size blockSize needed #[]
        (Tiles.empty size blockSize) (by rw [hneeded]; exact Nat.zero_add _)
      return ⟨size, blockSize, hpos, blocks, hblocks, htiles⟩
  else throw (.corrupt .zeroBlockSize)

theorem guards_read : Guards readGuarded read := by
  refine (Guards.varint32 _).bind (Yields.any _) fun size _ =>
    (Guards.varint32 _).bind (Yields.any _) fun blockSize _ => ?_
  split
  next hpos =>
    refine (Guards.varint _).bind (Yields.any _) fun declared _ => ?_
    refine Guards.access (divUp?_eq hpos) ?_
    simp only
    split
    · exact Guards.throw _
    · refine (guards_readBlocks hpos _ _ _ _).bind (Yields.any _) fun blocks _ => ?_
      obtain ⟨_, _, _⟩ := blocks
      exact Guards.pure _
  next => exact Guards.throw _

end Frame

end Postings.Layout
