/-
The regression-line layout: a sequence of 64-bit numbers as a straight line and
what is left over.

The layout is the count as a varint; then nothing for no number, the number as a
varint for one, and otherwise a slope numerator as a varint, an intercept as a
zigzag varint, a bit width in one byte and the residuals, zigzagged and packed at
that width.  The prediction for position `p` of `n` is
`intercept + round (slope * p / n)`, in whole numbers, so that writer and reader
agree whatever the slope.

* `Line.encodeAlong` — writes a sequence along any given slope;
* `Line.leastSquares` — the slope that is used unless another is asked for;
* `Line.read` — reads a sequence; `Line.get?` gives a number back;
* `Ascent.read` — reads a sequence that must be a list of strictly ascending items.

Design notes: floating point appears in `leastSquares` only.  Any other choice of
slope writes a sequence that reads back just the same, only longer.
-/
import Postings.Bytes.Packed
import Postings.Bytes.Zigzag
import Postings.Search

namespace Postings.Layout

/-- A sequence of numbers in the regression-line layout. -/
inductive Line where
  | empty
  | single (value : Nat)
  | fitted (slope : Nat) (intercept : Int) (residuals : PackedArray)

namespace Line

/-- The height of the line of a slope numerator above its intercept, rounded to nearest. -/
def rise (count slope position : Nat) : Nat :=
  (2 * slope * position + count) / (2 * count)

/-- The least-squares slope of `values` over their positions, times their number. -/
def leastSquares (values : List Nat) : UInt64 :=
  -- The order of these operations decides the last bits of the slope.
  let heights := values.map fun value => (UInt64.ofNat value).toFloat
  let count := (UInt64.ofNat values.length).toFloat
  let meanPosition := (count - 1.0) / 2.0
  let meanHeight := heights.foldl (· + ·) 0.0 / count
  let covariance := (heights.foldl (fun (sum, position) height =>
    (sum + (position - meanPosition) * (height - meanHeight), position + 1.0))
    ((0.0, 0.0) : Float × Float)).1
  let variance := count * (count * count - 1.0) / 12.0
  let slope := covariance / variance
  if slope.isFinite && 0.0 < slope then (slope * count).round.toUInt64 else 0

/-- Whether a number fits a signed 64-bit field. -/
def fitsSigned (value : Int) : Bool :=
  -2 ^ 63 ≤ value && value < 2 ^ 63

/-- How far each number lies above the line of intercept 0. -/
def deviations (slope : Nat) (values : List Nat) : List Int :=
  let count := values.length
  values.mapIdx fun position (value : Nat) => (value : Int) - rise count slope position

/-- The middle of the deviations: the least one plus half the spread, rounded down. -/
def centre : List Int → Int
  | [] => 0
  | first :: rest =>
    let least := rest.foldl min first
    let greatest := rest.foldl max first
    least + (greatest - least) / 2

/-- The width of packed residuals. -/
def residualBits (residuals : List Nat) : Nat :=
  Packed.bitsNeeded (residuals.foldl max 0)

/-- Appends the numbers, at least two, along the line of a slope numerator. -/
def encodeFitted (slope : Nat) (values : List Nat) (out : ByteArray) : Except Error ByteArray :=
  let deviations := deviations slope values
  let intercept := centre deviations
  if !fitsSigned intercept then .error (.overflow (.intercept intercept))
  else
    let residuals := deviations.map (· - intercept)
    match residuals.find? (fun residual => !fitsSigned residual) with
    | some residual => .error (.overflow (.residual residual))
    | none =>
      let places := residuals.map Zigzag.encode
      let bits := residualBits places
      let head := Varint.encode slope ++ Varint.encode (Zigzag.encode intercept)
      .ok (Packed.pack places bits ((out ++ head.toByteArray).push (UInt8.ofNat bits)))

/-- Appends a sequence of numbers, along the line of a slope numerator if there are two or
more. -/
def encodeAlong (slope : Nat) (values : List Nat) (out : ByteArray) : Except Error ByteArray :=
  if 2 ^ 32 ≤ values.length then .error (.overflow (.elements values.length))
  else
    let out := out ++ (Varint.encode values.length).toByteArray
    match values with
    | [] => .ok out
    | [value] => .ok (out ++ (Varint.encode value).toByteArray)
    | values => encodeFitted slope values out

/-- Appends a sequence of numbers, along the line whose slope numerator `fit` picks. -/
def encode (fit : List Nat → UInt64) (values : List Nat) (out : ByteArray) :
    Except Error ByteArray :=
  encodeAlong (fit values).toNat values out

/-- Reads a sequence. -/
def read : Read Line := do
  let count ← Read.varint32 "regline size"
  match count with
  | 0 => return empty
  | 1 => return single (← Read.varint "regline value")
  | count =>
    let slope ← Read.varint "regline slope"
    let intercept ← Read.varint "regline intercept"
    let bits ← Read.byte "regline residual width"
    if bits < 1 ∨ 64 < bits then throw (.corrupt (.residualWidth bits))
    let residuals ← PackedArray.read count bits "regline residuals"
    return fitted slope (Zigzag.decode intercept) residuals

/-- How many numbers there are. -/
def size : Line → Nat
  | empty => 0
  | single _ => 1
  | fitted _ _ residuals => residuals.size

/-- The width of the packed residuals, 0 where there are none. -/
def bits : Line → Nat
  | fitted _ _ residuals => residuals.bits
  | _ => 0

/-- What stands at a position below the size; bytes may make it anything. -/
def valueAt (line : Line) (position : Nat) : Int :=
  match line with
  | empty => 0
  | single value => value
  | fitted slope intercept residuals =>
    intercept + rise residuals.size slope position + Zigzag.decode (residuals.get position)

/-- The number at a position. -/
def get (line : Line) (position : Nat) : Except Error Nat :=
  if position < line.size then
    let value := line.valueAt position
    if 0 ≤ value ∧ value < 2 ^ 64 then .ok value.toNat
    else .error (.corrupt (.lineValue value position))
  else .error (.outOfBounds position line.size)

/-- The first contradiction among the numbers from `position` on to their being items that
exceed `previous` and ascend. -/
def checkAscent (line : Line) (position : Nat) (previous : Int) : Except Error Unit :=
  if position < line.size then
    let value := line.valueAt position
    if value ≤ previous ∨ 2 ^ 32 ≤ value then
      .error (.corrupt (.lineDescent value position previous))
    else checkAscent line (position + 1) value
  else .ok ()
termination_by line.size - position

end Line

/-- A list of items in the regression-line layout. -/
structure Ascent where
  line : Line
  checked : line.checkAscent 0 (-1) = .ok ()

namespace Ascent

/-- Reads a list and checks that its items ascend. -/
def read : Read Ascent := do
  let line ← Line.read
  match h : line.checkAscent 0 (-1) with
  | .ok () => return ⟨line, h⟩
  | .error error => throw error

/-- The number of items. -/
def size (list : Ascent) : Nat :=
  list.line.size

/-- The item at a position. -/
def get (list : Ascent) (position : Fin list.size) : Item :=
  UInt32.ofNat (list.line.valueAt position).toNat

/-- The position of an item. -/
def find? (list : Ascent) (item : Item) : Option Nat :=
  Search.bisect list.size list.get item

end Ascent

end Postings.Layout
