/-
What can go wrong when a posting list is built, read or stored.

Errors are causes; their wording is in the `message` functions, which nothing
else consults.  `Corruption` lists the ways in which bytes contradict
themselves, `Excess` the numbers that do not fit their field, `Refusal` the
requests that a codec or a name cannot serve, `DiskFault` what the disk answers.
-/
import Postings.Codec

namespace Postings

/-- A contradiction between bytes and the layout they claim to have. -/
inductive Corruption where
  | truncated (what : String)
  | badVarint (what : String)
  | over32Bits (what : String) (value : Nat)
  | short (what : String) (needed available : Nat)
  | sliceOutside (offset length size : Nat)
  | offsetOutside (offset size : Nat)
  | elementWidth (bits : Nat)
  | compactWidth (bits : Nat)
  | residualWidth (bits : Nat)
  | lineDescent (value : Int) (position : Nat) (previous : Int)
  | lineValue (value : Int) (position : Nat)
  | zeroStride
  | endOutside (stop : Nat)
  | endBelowBegin (stop begin : Nat)
  | zeroBlockSize
  | blockCount (declared needed size : Nat)
  | blockWidth (bits size : Nat)
  | noBytes
  | descent (codec : Codec) (value position previous : Nat)
  | bytesAfterList (count : Nat)
  | bytesAfterTable (count : Nat)
  | offsetOrder (offset id : Nat)
  | partlyUsed (id used size : Nat)
  | notItsInput (codec : Codec) (count : Nat)
  deriving DecidableEq, Repr

/-- The wording of a contradiction. -/
def Corruption.message : Corruption → String
  | truncated what => s!"truncated {what}"
  | badVarint what => s!"invalid varint for {what}"
  | over32Bits what value => s!"{what} {value} exceeds u32 range"
  | short what needed available => s!"{what} needs {needed} bytes, only {available} available"
  | sliceOutside offset length size =>
    s!"range {offset}+{length} exceeds region of {size} bytes"
  | offsetOutside offset size => s!"offset {offset} exceeds region of {size} bytes"
  | elementWidth bits => s!"bit width {bits} exceeds 64"
  | compactWidth bits => s!"compact bit width {bits}"
  | residualWidth bits => s!"regline residual width {bits}"
  | lineDescent value position previous =>
    s!"regline value {value} at {position} after {previous}"
  | lineValue value position => s!"regline value {value} at {position}"
  | zeroStride => "range stride is zero"
  | endOutside stop => s!"range end {stop} exceeds u32 domain"
  | endBelowBegin stop begin => s!"range end {stop} below begin {begin}"
  | zeroBlockSize => "FoR block size is zero"
  | blockCount declared needed size =>
    s!"FoR declares {declared} blocks, {needed} needed for {size} elements"
  | blockWidth bits size => s!"FoR block width {bits} for {size} elements"
  | noBytes => "empty index bytes"
  | descent codec value position previous =>
    s!"{codec.name} value {value} at {position} does not exceed {previous}"
  | bytesAfterList count => s!"{count} trailing bytes after index"
  | bytesAfterTable count => s!"{count} trailing bytes after offset table"
  | offsetOrder offset id => s!"offset {offset} of index {id} out of order"
  | partlyUsed id used size => s!"index {id} uses {used} of its {size} bytes"
  | notItsInput codec count =>
    s!"{codec.name} index of {count} values does not decode to its input"

/-- A number that does not fit its field. -/
inductive Excess where
  | elements (count : Nat)
  | intercept (value : Int)
  | residual (value : Int)
  | rangeSize (count : Nat)
  | ids
  deriving DecidableEq, Repr

/-- The wording of an excess. -/
def Excess.message : Excess → String
  | elements count => s!"{count} elements"
  | intercept value => s!"regression intercept {value}"
  | residual value => s!"regression residual {value}"
  | rangeSize count => s!"range holds {count} elements"
  | ids => "index id space exhausted"

/-- A request that cannot be served. -/
inductive Refusal where
  | notProgression
  | zeroBlockSize
  | codecName (name : String)
  | setOpName (name : String)
  deriving DecidableEq, Repr

/-- The wording of a refusal. -/
def Refusal.message : Refusal → String
  | notProgression => "values do not form an arithmetic progression"
  | zeroBlockSize => "FoR block size of zero"
  | codecName name => s!"unknown index type '{name}'"
  | setOpName name => s!"unknown set operation '{name}'"

/-- What the disk answers instead of a file. -/
inductive DiskFault where
  | notFound
  | notDirectory
  | isDirectory
  | noDevice
  | nameTooLong
  | notText
  | other (text : String)
  deriving DecidableEq, Repr

/-- The wording of a disk's answer. -/
def DiskFault.message : DiskFault → String
  | notFound => "No such file or directory (os error 2)"
  | notDirectory => "Not a directory (os error 20)"
  | isDirectory => "Is a directory (os error 21)"
  | noDevice => "No such device (os error 19)"
  | nameTooLong => "File name too long (os error 36)"
  | notText => "stream did not contain valid UTF-8"
  | other text => text

/-- Why a posting list could not be built, read or stored. -/
inductive Error where
  | outOfBounds (position size : Nat)
  | corrupt (cause : Corruption)
  | versionMismatch (expected found : Nat)
  | overflow (cause : Excess)
  | unsorted (position : Nat)
  | unknownTag (tag : Nat)
  | unsupported (cause : Refusal)
  | disk (fault : DiskFault)
  deriving DecidableEq, Repr

/-- The wording of an error. -/
def Error.message : Error → String
  | outOfBounds position size => s!"Position {position} out of bounds for size {size}"
  | corrupt cause => s!"Corrupt data: {cause.message}"
  | versionMismatch expected found => s!"Version mismatch: expected {expected}, found {found}"
  | overflow cause => s!"Overflow: {cause.message}"
  | unsorted position => s!"Values not strictly ascending at position {position}"
  | unknownTag tag => s!"Unknown index type tag: {tag}"
  | unsupported cause => s!"Unsupported: {cause.message}"
  | disk fault => s!"IO error: {fault.message}"

end Postings
