/-
Building a store from a text with one posting list a line.

* `parseLine` — the items of a line, in any order and any number of times;
* `parseLines` — the lists of all lines, or the first line that has none;
* `buildStore` — reads the text, stores every list, and writes the store.
-/
import Postings.Factory
import Postings.Failure
import Postings.Host
import Postings.Text.Blank
import Postings.Text.Lines
import Postings.Text.Numeral

namespace Postings

/-- A word of a line that is not an item, and why. -/
structure BadWord where
  word : String
  fault : Text.NumeralFault
  deriving DecidableEq, Repr

/-- The failure to read a word. -/
def BadWord.failure (bad : BadWord) : Failure :=
  ⟨s!"invalid value '{bad.word}'", [bad.fault.message]⟩

/-- Whether a character stands between the words of a line. -/
def separatesWords (c : Char) : Bool :=
  Text.isBlank c || c == ','

/-- The items of words, in reverse before `found`. -/
def parseWords : List String → (found : List Item) → Except BadWord (List Item)
  | [], found => .ok found.reverse
  | word :: rest, found =>
    match Text.parseNumeral (2 ^ 32) word with
    | .ok value => parseWords rest (UInt32.ofNat value :: found)
    | .error fault => .error ⟨word, fault⟩

/-- The set of items on a line, in ascending order. -/
def parseLine (line : String) : Except BadWord (List Item) :=
  match parseWords (Text.words separatesWords line) [] with
  | .ok items => .ok (distinct items)
  | .error bad => .error bad

/-- The sets of lines, in reverse before `found`; `number` is that of the first line.  Of several
bad lines the first is answered here; where lines are read side by side it may be any of them. -/
def parseLines (number : Nat) : List String → (found : List (List Item)) →
    Except Failure (List (List Item))
  | [], found => .ok found.reverse
  | line :: rest, found =>
    match parseLine line with
    | .ok items => parseLines (number + 1) rest (items :: found)
    | .error bad => .error (bad.failure.within s!"line {number}")

/-- Adds the sets of lines to a factory, and their ids to `ids`; `number` is that of the first
line. -/
def addLines (number : Nat) : List (List Item) → (ids : Array Nat) → Factory →
    Except Failure (Array Nat × Factory)
  | [], ids, factory => .ok (ids, factory)
  | items :: rest, ids, factory =>
    match Factory.addItems items factory with
    | .ok id factory => addLines (number + 1) rest (ids.push id) factory
    | .error error _ =>
      .error ((Failure.ofError error).within s!"Failed to encode line {number}")

/-- A new factory with the sets of lines, and their ids. -/
def factoryOfLines (config : Config) (sets : List (List Item))
    (digest : Digest := mixedDigest) : Except Failure (Array Nat × Factory) := do
  match Factory.ofConfig config digest with
  | .ok factory => addLines 1 sets #[] factory
  | .error error => throw (Failure.ofError error)

/-- What was built. -/
structure Summary where
  /-- Lines of the text, each a list. -/
  lines : Nat
  /-- Distinct lists stored, the empty one included. -/
  distinct : Nat
  /-- Lines that were answered with a list stored before. -/
  hits : Nat
  /-- Bytes written. -/
  bytes : Nat
  deriving DecidableEq, Repr

section

variable {m : Type → Type} [Monad m] [Host m]

/-- Writes the store of a factory to a file and answers how many bytes were written. The file is
emptied before the store is put together. -/
def writeStore (factory : Factory) (path : String) : ExceptT Error m Nat := do
  match ← Host.write path ByteArray.empty with
  | .error fault => throw (.disk fault)
  | .ok () =>
    match factory.flushTo ByteArray.empty with
    | .error error => throw error
    | .ok (bytes, written) =>
      match ← Host.write path bytes with
      | .error fault => throw (.disk fault)
      | .ok () => return written

/-- Builds the store of the lines of a text file; answers what was built and the id of every
line. -/
def buildStore (input output : String) (config : Config) (digest : Digest := mixedDigest) :
    ExceptT Failure m (Summary × Array Nat) := do
  match ← Host.readText input with
  | .error fault => throw ((Failure.ofFault fault).within s!"Failed to read {input}")
  | .ok text =>
    -- All lines are read before the factory is made: a bad word is reported before bad settings.
    let lines := Text.lines text
    if config.showProgress then
      Host.print s!"Building: {input} ({lines.length} lines)\n"
    let sets ← ExceptT.mk (pure (parseLines 1 lines []))
    let (ids, factory) ← ExceptT.mk (pure (factoryOfLines config sets digest))
    match ← (writeStore factory output).run with
    | .error error =>
      throw ((Failure.ofError error).within s!"Failed to write {output}")
    | .ok bytes => return (⟨lines.length, factory.size, factory.hits, bytes⟩, ids)

end

end Postings
