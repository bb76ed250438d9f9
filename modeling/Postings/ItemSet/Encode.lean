/-
Writing a posting list with a codec.

* `Tuning` — what a codec can be tuned by: the block size of `frame`, and the
  slope that `line` fits;
* `encodeTagged` — the tagged bytes of an ascending list;
* `ItemSet.encode` — the list held in a codec, after a check of its order;
* `ItemSet.recode` — the same items in another codec.
-/
import Postings.ItemSet.Decode

namespace Postings

open Layout

/-- What codecs can be tuned by. -/
structure Tuning where
  /-- Items in a block of the frame-of-reference layout. -/
  blockSize : Nat := 128
  /-- The slope numerator of the regression-line layout; any choice reads back the same. -/
  fit : List Nat → UInt64 := Line.leastSquares

/-- The tagged bytes of an ascending list. -/
def encodeTagged (items : List Item) (codec : Codec) (tuning : Tuning) :
    Except Error ByteArray :=
  let out := ItemSet.tagByte codec.written
  match codec with
  | .native | .vector => .ok (Native.encode items out)
  | .compact => .ok (Compact.encode items out)
  | .line => Line.encode tuning.fit (items.map UInt32.toNat) out
  | .frame => Frame.encode items tuning.blockSize out
  | .range =>
    match Progression.detect? items with
    | some range => .ok (range.encode out)
    | none => .error (.unsupported .notProgression)

namespace ItemSet

/-- An ascending list held in a codec. -/
def encodeAscending (items : List Item) (codec : Codec) (tuning : Tuning) :
    Except Error ItemSet :=
  if codec = .vector then .ok (ofAscending items.toArray)
  else do ofTrustedBytes (← encodeTagged items codec tuning)

/-- A list held in a codec, if it strictly ascends. -/
def encode (items : List Item) (codec : Codec) (tuning : Tuning) : Except Error ItemSet :=
  match firstDescent? items with
  | some position => .error (.unsorted position)
  | none => encodeAscending items codec tuning

/-- The members of a list, in any order and any number of times, held in a codec. -/
def ofMembers (items : List Item) (codec : Codec) : Except Error ItemSet :=
  encodeAscending (distinct items) codec {}

/-- The same items in a codec; the list itself if it is held in that codec already, unless the
bytes depend on a block size. -/
def recode (set : ItemSet) (codec : Codec) (tuning : Tuning) : Except Error ItemSet :=
  if codec = set.codec ∧ codec ≠ .frame then .ok set
  else encodeAscending set.items codec tuning

end ItemSet

end Postings
