/-
A forward-only position in a byte string, from which headers are read.

Every operation either reads one item and moves past it, or fails and leaves the
position alone.  The one exception is `varint32` on a well-formed number that is
too large: that number has been read.  The position cannot pass the end, which
is a field of `Reader`.

* `remaining_add_position` — what was read and what is left make up the bytes;
* `Read` — the state-and-error monad that parsers are written in; a failing
  parser leaves the reader where it failed.
-/
import Postings.Error
import Postings.Bytes.Little
import Postings.Bytes.Varint

namespace Postings

/-- A position in a byte string. -/
structure Reader where
  bytes : ByteArray
  position : Nat
  position_le : position ≤ bytes.size

/-- A step of reading, which may fail. -/
abbrev Read := EStateM Error Reader

namespace Reader

/-- The start of a byte string. -/
def ofBytes (bytes : ByteArray) : Reader :=
  ⟨bytes, 0, Nat.zero_le _⟩

/-- The number of bytes not read yet. -/
def remaining (reader : Reader) : Nat :=
  reader.bytes.size - reader.position

theorem remaining_add_position (reader : Reader) :
    reader.remaining + reader.position = reader.bytes.size :=
  Nat.sub_add_cancel reader.position_le

/-- The reader `count` bytes further, if they are there. -/
def advance? (reader : Reader) (count : Nat) : Option Reader :=
  if h : reader.position + count ≤ reader.bytes.size then
    some ⟨reader.bytes, reader.position + count, h⟩
  else none

/-- The next bytes, as many as a varint can take. -/
def window (reader : Reader) : List UInt8 :=
  (reader.bytes.extract reader.position (reader.position + Varint.maxLength)).data.toList

end Reader

namespace Read

/-- The next `count` bytes as a number, least significant byte first. -/
def little (count : Nat) (what : String) : Read Nat := fun reader =>
  match reader.advance? count with
  | some next => .ok (Bytes.leAt reader.bytes reader.position count) next
  | none => .error (.corrupt (.truncated what)) reader

/-- The next byte. -/
def byte (what : String) : Read Nat := little 1 what

/-- The next four bytes as a number. -/
def word32 (what : String) : Read Nat := little 4 what

/-- The next eight bytes as a number. -/
def word64 (what : String) : Read Nat := little 8 what

/-- The next variable-length number. -/
def varint (what : String) : Read Nat := fun reader =>
  match Varint.decode reader.window with
  | none => .error (.corrupt (.badVarint what)) reader
  | some (value, length) =>
    match reader.advance? length with
    | some next => .ok value next
    | none => .error (.corrupt (.badVarint what)) reader

/-- The next variable-length number, which must be below 2^32. -/
def varint32 (what : String) : Read Nat := do
  let value ← varint what
  if value < 2 ^ 32 then return value
  else throw (.corrupt (.over32Bits what value))

/-- Passes over `count` bytes and answers where they start. -/
def skip (count : Nat) (what : String) : Read Nat := fun reader =>
  match reader.advance? count with
  | some next => .ok reader.position next
  | none => .error (.corrupt (.short what count reader.remaining)) reader

/-- The next `count` bytes. -/
def take (count : Nat) (what : String) : Read { bytes : ByteArray // bytes.size = count } :=
  fun reader =>
    if h : reader.position + count ≤ reader.bytes.size then
      .ok ⟨reader.bytes.extract reader.position (reader.position + count), by
          rw [ByteArray.size_extract]; omega⟩
        ⟨reader.bytes, reader.position + count, h⟩
    else .error (.corrupt (.short what count reader.remaining)) reader

/-- How many bytes are left. -/
def remaining : Read Nat := do
  return (← get).remaining

/-- Runs a reading step from the start of `bytes`. -/
def run {α : Type} (step : Read α) (bytes : ByteArray) : Except Error (α × Reader) :=
  match step (Reader.ofBytes bytes) with
  | .ok value reader => .ok (value, reader)
  | .error error _ => .error error

end Read

end Postings
