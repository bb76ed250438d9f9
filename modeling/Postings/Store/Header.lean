/-
The ten bytes in front of a store: a version, the tag of the codec it was built
with, and the length of its data in eight bytes, least significant byte first.

* `Header.make`, `Header.toBytes`, `Header.read` — build, write and read a header.
-/
import Postings.Bytes.Reader

namespace Postings

/-- The front of a store. -/
structure Header where
  version : Nat
  codec : Codec
  dataLength : Nat
  deriving DecidableEq, Repr

namespace Header

/-- The version that is written and understood. -/
def currentVersion : Nat := 1

/-- The number of bytes. -/
def byteLength : Nat := 10

/-- The header of a store built with a codec. -/
def make (codec : Codec) (dataLength : Nat) : Header :=
  ⟨currentVersion, codec.written, dataLength⟩

/-- The bytes of a header. -/
def toBytes (header : Header) : ByteArray :=
  Bytes.pushLE [UInt8.ofNat header.version, UInt8.ofNat header.codec.tag].toByteArray
    header.dataLength 8

/-- Reads a header. -/
def read : Read Header := do
  let version ← Read.byte "store version"
  if version ≠ currentVersion then throw (.versionMismatch currentVersion version)
  let tag ← Read.byte "store index type"
  match Codec.ofTag? tag with
  | none => throw (.unknownTag tag)
  | some codec => return ⟨version, codec, ← Read.word64 "store data length"⟩

/-- The header in front of bytes. -/
def ofBytes (bytes : ByteArray) : Except Error Header := do
  let (header, _) ← Read.run read bytes
  return header

/-- The description on one line. -/
def describe (header : Header) : String :=
  s!"StoreHeader \x7b version: {header.version}, index_type: {header.codec.fullName}, "
    ++ s!"data_len: {header.dataLength} \x7d"

end Header

end Postings
