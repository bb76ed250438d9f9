/-
The codecs a posting list can be held in.

Five of them have a byte layout of their own and a tag byte that announces it;
`vector` lives in memory only and is written as `native`.

* `Codec.ofTag?` — the codec that a tag byte announces;
* `Codec.ofTag?_tag` — the tag of a codec announces the codec it is written as.
-/

namespace Postings

/-- How the items of a posting list are held. -/
inductive Codec where
  /-- Four little-endian bytes an item. -/
  | native
  /-- Items in memory, written as `native`. -/
  | vector
  /-- An arithmetic progression, nothing stored per item. -/
  | range
  /-- Items packed at the width of the largest. -/
  | compact
  /-- A regression line and packed residuals. -/
  | line
  /-- Blocks of packed gaps, each behind its first item. -/
  | frame
  deriving DecidableEq, Repr, Inhabited

namespace Codec

/-- Every codec, in the order totals are reported. -/
def all : List Codec := [native, vector, range, compact, line, frame]

/-- The byte in front of a list written with the codec. -/
def tag : Codec → Nat
  | native | vector => 1
  | compact => 2
  | line => 3
  | frame => 4
  | range => 5

/-- The codec that a tag byte announces. -/
def ofTag? : Nat → Option Codec
  | 1 => some native
  | 2 => some compact
  | 3 => some line
  | 4 => some frame
  | 5 => some range
  | _ => none

/-- The codec whose bytes are written. -/
def written : Codec → Codec
  | vector => native
  | codec => codec

/-- Whether an item is reached without decoding its neighbours. -/
def isRandomAccess (codec : Codec) : Bool :=
  codec ≠ frame

/-- The short name, used in reports and on the command line. -/
def name : Codec → String
  | native => "native"
  | vector => "vector"
  | range => "range"
  | compact => "compact"
  | line => "regline"
  | frame => "for"

/-- The capitalised full name. -/
def fullName : Codec → String
  | native => "Native"
  | vector => "Vector"
  | range => "RangeGenerator"
  | compact => "BoundedCompactUintArray"
  | line => "RegLine"
  | frame => "FoR"

/-- The full name in lower case, used in configurations and in totals. -/
def key : Codec → String
  | native => "native"
  | vector => "vector"
  | range => "rangegenerator"
  | compact => "boundedcompactuintarray"
  | line => "regline"
  | frame => "for"

/-- The codec of a configuration key. -/
def ofKey? (key : String) : Option Codec :=
  all.find? (·.key == key)

theorem ofTag?_tag (codec : Codec) : ofTag? codec.tag = some codec.written := by
  cases codec <;> rfl

end Codec

end Postings
