/-
The commands and their arguments.

* `Command` — what can be asked for;
* `Command.ofArgs?` — the command of a command line, unless that is malformed.
-/
import Postings.Cli.Args
import Postings.Names
import Postings.Power
import Postings.Text.Numeral

namespace Postings.Cli

/-- How lists are to be encoded: settings from a file, and options that override them. -/
structure Encoding where
  codec : Option Codec
  blockSize : Option Nat
  config : Option String
  noDedup : Bool
  verify : Bool
  quiet : Bool

/-- What can be asked for. -/
inductive Command where
  /-- Build a store with a list for each line of a text. -/
  | build (input output : String) (encoding : Encoding)
  /-- Show the totals of a store. -/
  | stats (store : String) (json : Bool)
  /-- Print a list of a store. -/
  | get (store : String) (id limit : Nat)
  /-- Combine lists of a store with a set operation. -/
  | combine (store : String) (op : SetOp) (ids : List Nat) (codec : Codec) (limit : Nat)
  /-- Encode every list of a store anew. -/
  | recode (input output : String) (encoding : Encoding)

namespace Command

/-- The options that say how to encode. -/
def encodingSpecs : List OptionSpec :=
  [⟨"type", some 't', true⟩, ⟨"block-size", none, true⟩, ⟨"config", some 'c', true⟩,
    ⟨"no-dedup", none, false⟩, ⟨"verify", none, false⟩, ⟨"quiet", some 'q', false⟩]

/-- The option that limits how many items are printed. -/
def limitSpec : OptionSpec :=
  ⟨"limit", some 'l', true⟩

/-- How many items are printed unless a limit is given. -/
def defaultLimit : Nat := 32

/-- A value that is not given, or one that can be read. -/
def readOptional {α : Type} (read : String → Option α) : Option String → Option (Option α)
  | none => some none
  | some text => (read text).map some

/-- A path, which is not empty. -/
def readPath (text : String) : Option String :=
  if text.isEmpty then none else some text

/-- A number below a bound. -/
def readNumber (bound : Nat) (text : String) : Option Nat :=
  (Text.parseNumeral bound text).toOption

/-- A number in 32 bits; zero may have a minus sign. -/
def readWord (text : String) : Option Nat :=
  match text.toList with
  | '-' :: digits => if !digits.isEmpty && digits.all (· == '0') then some 0 else none
  | _ => readNumber (2 ^ 32) text

/-- A codec. -/
def readCodec (text : String) : Option Codec :=
  (Codec.ofName text).toOption

/-- How to encode. -/
def readEncoding (tokens : List Token) : Option Encoding := do
  return {
    codec := ← readOptional readCodec (← valueOf? tokens "type")
    blockSize := ← readOptional readWord (← valueOf? tokens "block-size")
    config := ← readOptional readPath (← valueOf? tokens "config")
    noDedup := ← isSet? tokens "no-dedup"
    verify := ← isSet? tokens "verify"
    quiet := ← isSet? tokens "quiet" }

/-- The limit. -/
def readLimit (tokens : List Token) : Option Nat := do
  let limit ← readOptional (readNumber (2 ^ 64)) (← valueOf? tokens "limit")
  return limit.getD defaultLimit

/-- The words of a command that takes two paths. -/
def readPaths (tokens : List Token) : Option (String × String) :=
  match (wordGroups tokens).flatten with
  | [input, output] => do return (← readPath input, ← readPath output)
  | _ => none

/-- The words after the first two, in groups of at least two. -/
def operandWords : List (List String) → Option (String × String × List String)
  | [] => none
  | [] :: groups => operandWords groups
  | [first] :: groups => do
    match groups.filter (!·.isEmpty) with
    | (second :: rest) :: groups => operands first second (rest :: groups)
    | _ => none
  | (first :: second :: rest) :: groups => operands first second (rest :: groups)
where
  /-- The operands in groups of at least two. -/
  operands (first second : String) (groups : List (List String)) :
      Option (String × String × List String) :=
    let groups := groups.filter (!·.isEmpty)
    if groups.isEmpty || groups.any (·.length < 2) then none
    else some (first, second, groups.flatten)

/-- The command that builds a store. -/
def readBuild (args : List String) : Option Command := do
  let tokens ← scan encodingSpecs args
  let (input, output) ← readPaths tokens
  return .build input output (← readEncoding tokens)

/-- The command that encodes a store anew. -/
def readRecode (args : List String) : Option Command := do
  let tokens ← scan encodingSpecs args
  let (input, output) ← readPaths tokens
  return .recode input output (← readEncoding tokens)

/-- The command that shows totals. -/
def readStats (args : List String) : Option Command := do
  let tokens ← scan [⟨"json", none, false⟩] args
  match (wordGroups tokens).flatten with
  | [store] => return .stats (← readPath store) (← isSet? tokens "json")
  | _ => none

/-- The command that prints a list. -/
def readGet (args : List String) : Option Command := do
  let tokens ← scan [limitSpec] args
  match (wordGroups tokens).flatten with
  | [store, id] =>
    return .get (← readPath store) (← readWord id) (← readLimit tokens)
  | _ => none

/-- The command that combines lists. -/
def readCombine (args : List String) : Option Command := do
  let tokens ← scan [⟨"type", some 't', true⟩, limitSpec] args
  let (store, op, ids) ← operandWords (wordGroups tokens)
  let codec ← readOptional readCodec (← valueOf? tokens "type")
  return .combine (← readPath store) (← (SetOp.ofName op).toOption)
    (← ids.mapM readWord) (codec.getD .native) (← readLimit tokens)

/-- The command of a command line. -/
def ofArgs? : List String → Option Command
  | "build" :: args => readBuild args
  | "stats" :: args => readStats args
  | "get" :: args => readGet args
  | "op" :: args => readCombine args
  | "recode" :: args => readRecode args
  | _ => none

end Command

end Postings.Cli
