/-
Building a store of posting lists, each distinct one stored once.

A factory holds the bytes of all encoded lists, one after the other, and where each
starts; a list ends where the next one starts.  A list that is added is encoded, and when
equal bytes are stored already their id is the answer.  Candidates are found through a
fingerprint and compared byte for byte, so a fingerprint that confuses lists costs time
and nothing else.

* `Factory.make` — a factory that holds the empty list under id 0;
* `Factory.addItems`, `addSet`, `addBytes`, `insertStore` — add lists;
* `Factory.get` — a stored list;
* `Factory.flushTo`, `Factory.flush` — the bytes of the store.

Design notes: adding is a step of the state-and-error monad `Adding`, and a step that
fails leaves the factory where it failed.  Ids are 32-bit numbers; the check for a free
one admits 2^32 lists, of which the reported number keeps the low 32 bits.  Two choices
that another program may make in another way are parameters: which hash a fingerprint is
taken with, and which of several errors a batch ends with.
-/
import Std.Data.HashMap
import Postings.Config
import Postings.Store.Basic

namespace Postings

open Layout

/-- A hash of encoded lists. -/
abbrev Fingerprint := ByteArray → UInt64

/-- A hash of a length and of leading bytes. -/
abbrev Digest := UInt64 → ByteArray → UInt64

/-- The hash that is at hand here. -/
def mixedDigest : Digest := fun length bytes =>
  mixHash length (hash bytes)

/-- The fingerprint of the length and of the first `count` bytes. -/
def leadingFingerprint (digest : Digest) (count : Nat) : Fingerprint := fun bytes =>
  digest (UInt64.ofNat bytes.size) (bytes.extract 0 count)

/-- Encoded posting lists under their ids. -/
structure Factory where
  config : Config
  fingerprint : Fingerprint
  /-- The tagged bytes of all entries, one after the other. -/
  data : ByteArray
  /-- Where the entry of every id starts. -/
  offsets : Array Nat
  /-- The ids of entries by fingerprint, in ascending order. -/
  buckets : Std.HashMap UInt64 (Array Nat)
  /-- How many lists were answered with an id that was there. -/
  hits : Nat

/-- A step of adding to a factory, which may fail. -/
abbrev Adding := EStateM Error Factory

namespace Factory

/-- The reported number of lists, in 32 bits. -/
def size (factory : Factory) : Nat :=
  factory.offsets.size % 2 ^ 32

/-- The bytes of all entries together. -/
def dataSize (factory : Factory) : Nat :=
  factory.data.size

/-- Where the entry of an id ends: where the next one starts, the last one with the data. -/
def stopOf (factory : Factory) (id : Nat) : Nat :=
  factory.offsets[id + 1]?.getD factory.data.size

/-- The tagged bytes of an id. -/
def stored? (factory : Factory) (id : Nat) : Option ByteArray :=
  factory.offsets[id]?.map fun start => factory.data.extract start (factory.stopOf id)

/-- The id under which bytes are stored, among those with the fingerprint. -/
def lookup (factory : Factory) (mark : UInt64) (bytes : ByteArray) : Option Nat :=
  (factory.buckets.getD mark #[]).find? fun id => factory.stored? id == some bytes

/-- Stores bytes under the next id. -/
def append (bytes : ByteArray) : Adding Nat := do
  let id := (← get).offsets.size
  if 2 ^ 32 ≤ id then throw (.overflow .ids)
  modify fun factory => { factory with
    offsets := factory.offsets.push factory.data.size
    data := factory.data ++ bytes }
  return id

/-- Notes that an id has a fingerprint. -/
def remember (mark : UInt64) (id : Nat) : Adding Unit :=
  modify fun factory => { factory with
    buckets := factory.buckets.insert mark ((factory.buckets.getD mark #[]).push id) }

/-- The id of bytes, stored now unless they share an id with equal ones. -/
def insert (bytes : ByteArray) : Adding Nat := do
  let factory ← get
  if factory.config.deduplicate then
    let mark := factory.fingerprint bytes
    match factory.lookup mark bytes with
    | some id =>
      modify fun factory => { factory with hits := factory.hits + 1 }
      return id
    | none =>
      let id ← append bytes
      remember mark id
      return id
  else append bytes

/-- Fails unless bytes decode to the items they were made of. -/
def checkEncoded (bytes : ByteArray) (items : List Item) : Except Error Unit := do
  let set ← ItemSet.ofBytes bytes
  if set.size ≠ items.length ∨ !Source.beq set.cursor items then
    throw (.corrupt (.notItsInput set.codec items.length))

/-- The bytes of ascending items in the codec of the settings; items that are no progression are
native where progressions are asked for. -/
def encodeItems (config : Config) (items : List Item) : Except Error ByteArray := do
  let bytes ←
    match encodeTagged items config.codec config.tuning with
    | .error (.unsupported cause) =>
      -- The block size was checked when the factory was made, so this is a progression refused.
      if config.codec = .range then encodeTagged items .native config.tuning
      else .error (.unsupported cause)
    | answer => answer
  if config.verify then checkEncoded bytes items
  return bytes

/-- The bytes of a list that are stored as they are: those of the codec of the settings, unless
they depend on a block size. -/
def reusableBytes? (config : Config) (set : ItemSet) : Option ByteArray :=
  if set.codec = config.codec ∧ set.codec ≠ .frame then set.encoded else none

/-- The bytes that a list is stored as. -/
def bytesOf (config : Config) (set : ItemSet) : Except Error ByteArray :=
  match reusableBytes? config set with
  | some bytes => .ok bytes
  | none => encodeItems config set.items

/-- An answer as a step that changes nothing. -/
def lift {α : Type} (answer : Except Error α) : Adding α :=
  match answer with
  | .ok value => return value
  | .error error => throw error

/-- Adds strictly ascending items. -/
def addItems (items : List Item) : Adding Nat := do
  match firstDescent? items with
  | some position => throw (.unsorted position)
  | none => insert (← lift (encodeItems (← get).config items))

/-- Adds a list. -/
def addSet (set : ItemSet) : Adding Nat := do
  insert (← lift (bytesOf (← get).config set))

/-- Adds the tagged bytes of a list as they are. -/
def addBytes (bytes : ByteArray) : Adding Nat := do
  let set ← lift (ItemSet.ofBytes bytes)
  if set.byteLength ≠ bytes.size then
    throw (.corrupt (.bytesAfterList (bytes.size - set.byteLength)))
  insert bytes

/-- How many lists of a store are encoded before the first of them is added. -/
def batchSize : Nat := 4096

/-- Adds bytes one after the other, and their ids to `ids`. -/
def insertEach : List ByteArray → (ids : Array Nat) → Adding (Array Nat)
  | [], ids => return ids
  | bytes :: rest, ids => do
    let id ← insert bytes
    insertEach rest (ids.push id)

/-- The bytes that the list of an id is stored as. -/
def recoded (config : Config) (store : Store) (id : Nat) : Except Error ByteArray := do
  bytesOf config (← store.load id)

/-- The error of an answer. -/
def fault? : Except Error ByteArray → Option Error
  | .ok _ => none
  | .error error => some error

/-- The bytes that the lists of some ids are stored as.  The lists are encoded in no fixed order, so
any error among theirs may be the one that is answered: `pick` counts through the errors, and starts
again behind the last. -/
def encodeEach (config : Config) (store : Store) (pick : Nat) (ids : List Nat) :
    Except Error (List ByteArray) :=
  let answers := ids.map (recoded config store)
  let faults := answers.filterMap fault?
  match faults[pick % faults.length]? with
  | some error => .error error
  | none => .ok (answers.filterMap Except.toOption)

/-- Adds the lists of a store from id `start` on, batch by batch, and their ids to `ids`. -/
def insertFrom (store : Store) (pick start : Nat) (ids : Array Nat) : Adding (Array Nat) := do
  if start < store.size then
    let stop := min store.size (start + batchSize)
    let batch := (List.range (stop - start)).map (start + ·)
    let encoded ← lift (encodeEach (← get).config store pick batch)
    insertFrom store pick stop (← insertEach encoded ids)
  else return ids
termination_by store.size - start
decreasing_by simp only [batchSize]; omega

/-- Adds every list of a store; answers the ids in the order of the old ones.  The first batch with
a list that cannot be added ends the call with the error that `pick` says. -/
def insertStore (store : Store) (pick : Nat := 0) : Adding (Array Nat) :=
  insertFrom store pick 0 #[]

/-- A factory that holds the empty list. -/
def make (config : Config) (fingerprint : Fingerprint) : Except Error Factory :=
  if config.tuning.blockSize = 0 then .error (.unsupported .zeroBlockSize)
  else
    match addItems [] ⟨config, fingerprint, ByteArray.empty, #[], ∅, 0⟩ with
    | .ok _ factory => .ok factory
    | .error error _ => .error error

/-- A factory that holds the empty list, with the fingerprint of the settings. -/
def ofConfig (config : Config) (digest : Digest := mixedDigest) : Except Error Factory :=
  make config (leadingFingerprint digest config.hashedBytes)

/-- A stored list. -/
def get (factory : Factory) (id : Nat) : Except Error ItemSet :=
  match factory.stored? id with
  | some bytes => ItemSet.ofTrustedBytes bytes
  | none => .error (.outOfBounds id factory.size)

/-- Appends the store to an output: a header, all entries, and the table of where they start;
answers the output and how many bytes the store takes. -/
def flushTo (factory : Factory) (out : ByteArray) : Except Error (ByteArray × Nat) := do
  let table ← Line.encode factory.config.tuning.fit factory.offsets.toList ByteArray.empty
  let header := Header.make factory.config.codec factory.dataSize
  return (out ++ header.toBytes ++ factory.data ++ table,
    Header.byteLength + factory.dataSize + table.size)

/-- The bytes of the store. -/
def flush (factory : Factory) : Except Error ByteArray := do
  let (bytes, _) ← factory.flushTo ByteArray.empty
  return bytes

end Factory

end Postings
