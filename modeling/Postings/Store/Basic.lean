/-
Opened stores: a header, the concatenated bytes of posting lists, and a table of
where each list starts.

The table is a regression-line sequence; a list ends where the next one starts,
the last one at the end of the data.

* `Store.ofBytes` — opens a store and checks its table;
* `Store.raw` — the bytes of a list;
* `Store.load` — the list itself, which must use all its bytes.
-/
import Postings.Bytes.Slice
import Postings.ItemSet.Decode
import Postings.Store.Header

namespace Postings

open Layout

/-- An opened store. -/
structure Store where
  header : Header
  data : ByteArray
  offsets : Line
  totalSize : Nat

namespace Store

/-- Fails at the first entry of a table, from `id` on, that is below `previous` or above `limit`,
or is the first and not 0. -/
def checkOffsets (offsets : Line) (limit id previous : Nat) : Except Error Unit :=
  if id < offsets.size then
    match offsets.get id with
    | .error error => .error error
    | .ok offset =>
      if offset < previous ∨ limit < offset ∨ (id = 0 ∧ offset ≠ 0) then
        .error (.corrupt (.offsetOrder offset id))
      else checkOffsets offsets limit (id + 1) offset
  else .ok ()
termination_by offsets.size - id

/-- Opens a store. -/
def ofBytes (bytes : ByteArray) : Except Error Store := do
  let header ← Header.ofBytes bytes
  let data ← Bytes.slice bytes Header.byteLength header.dataLength
  let table ← Bytes.sliceFrom bytes (Header.byteLength + header.dataLength)
  let (offsets, reader) ← Read.run Line.read table
  if reader.position ≠ table.size then
    throw (.corrupt (.bytesAfterTable (table.size - reader.position)))
  checkOffsets offsets header.dataLength 0 0
  return ⟨header, data, offsets, bytes.size⟩

/-- The number of lists. -/
def size (store : Store) : Nat :=
  store.offsets.size

/-- Whether there is no list. -/
def isEmpty (store : Store) : Bool :=
  store.size = 0

/-- The bytes of all lists together. -/
def dataSize (store : Store) : Nat :=
  store.header.dataLength

/-- Where a list ends. -/
def stopOf (store : Store) (id : Nat) : Except Error Nat :=
  if id + 1 < store.size then store.offsets.get (id + 1) else .ok store.header.dataLength

/-- The tagged bytes of a list. -/
def raw (store : Store) (id : Nat) : Except Error ByteArray :=
  if id < store.size then do
    let start ← store.offsets.get id
    let stop ← store.stopOf id
    Bytes.slice store.data start (stop - start)
  else .error (.outOfBounds id store.size)

/-- A list. -/
def load (store : Store) (id : Nat) : Except Error ItemSet := do
  let bytes ← store.raw id
  let set ← ItemSet.ofBytes bytes
  if set.byteLength ≠ bytes.size then
    throw (.corrupt (.partlyUsed id set.byteLength bytes.size))
  return set

/-- The description on one line. -/
def describe (store : Store) : String :=
  s!"ItemIndexStore \x7b header: {store.header.describe}, indexes: {store.size} \x7d"

end Store

end Postings
