/-
How a factory encodes and stores posting lists, and the JSON text of that.

* `Config` — the settings and their defaults;
* `Config.parse` — the settings of a JSON text;
* `Config.render` — the JSON text of settings, on one line.

Design notes: a document is an object, or an array of the fields in order.  Fields
that are missing have their defaults, unknown ones are passed over, and a known
one that occurs twice is refused.  Numbers must be spelt as plain digits.
-/
import Postings.ItemSet.Encode
import Postings.Json.Parser
import Postings.Text.Numeral

namespace Postings

open Json

/-- The settings of a factory. -/
structure Config where
  /-- The codec that added lists are held in. -/
  codec : Codec := .line
  tuning : Tuning := {}
  /-- How many leading bytes a fingerprint is taken of. -/
  hashedBytes : Nat := 256
  /-- Whether equal bytes share an id. -/
  deduplicate : Bool := true
  /-- Whether freshly encoded bytes are decoded and compared. -/
  verify : Bool := false
  /-- Whether progress is reported. -/
  showProgress : Bool := false

namespace Config

/-- The value of the member with a key, if there is one; fails if there are more. -/
def member? (members : List (Option String × Value)) (key : String) : Option (Option Value) :=
  match members.filter fun (name, _) => name == some key with
  | [] => some none
  | [(_, value)] => some (some value)
  | _ => none

/-- What a member holds, or the default without it. -/
def readMember {α : Type} (members : List (Option String × Value)) (key : String)
    (read : Value → Option α) (default : α) : Option α := do
  match ← member? members key with
  | some value => read value
  | none => return default

/-- A natural number below a bound. -/
def readNat (bound : Nat) : Value → Option Nat
  | .number spelling => (Text.parseNumeral bound spelling).toOption
  | _ => none

/-- A truth value. -/
def readBool : Value → Option Bool
  | .bool value => some value
  | _ => none

/-- A codec: its key, or an object with that key and nothing under it. -/
def readCodec : Value → Option Codec
  | .string (some key) => Codec.ofKey? key
  | .object [(some key, .null)] => Codec.ofKey? key
  | _ => none

/-- A block size: the one field of an object or of an array. -/
def readBlockSize : Value → Option Nat
  | .object members => do
    if !members.all (·.1.isSome) then none
    readNat (2 ^ 32) (← ← member? members "for_block_size")
  | .array [value] => readNat (2 ^ 32) value
  | _ => none

/-- The fields, in order. -/
def keys : List String :=
  ["index_type", "encode", "fingerprint_prefix", "deduplicate", "verify_on_insert",
    "show_progress"]

/-- The settings of an object's members. -/
def ofMembers (members : List (Option String × Value)) : Option Config := do
  if !members.all (·.1.isSome) then none
  return {
    codec := ← readMember members "index_type" readCodec .line
    tuning := { blockSize := ← readMember members "encode" readBlockSize 128 }
    hashedBytes := ← readMember members "fingerprint_prefix" (readNat (2 ^ 64)) 256
    deduplicate := ← readMember members "deduplicate" readBool true
    verify := ← readMember members "verify_on_insert" readBool false
    showProgress := ← readMember members "show_progress" readBool false }

/-- The settings of a document. -/
def ofValue : Value → Option Config
  | .object members => ofMembers members
  | .array elements =>
    if keys.length < elements.length then none
    else ofMembers (keys.map some |>.zip elements)
  | _ => none

/-- The settings of a JSON text. -/
def parse (text : String) : Option Config := do
  ofValue (← Json.parse text)

/-- The JSON text of settings. -/
def render (config : Config) : String :=
  let blockKey := quote "for_block_size"
  let fields := [
    quote config.codec.key,
    s!"\x7b{blockKey}:{config.tuning.blockSize}\x7d",
    toString config.hashedBytes,
    toString config.deduplicate,
    toString config.verify,
    toString config.showProgress]
  let members := (keys.zip fields).map fun (key, field) => quote key ++ ":" ++ field
  "\x7b" ++ ",".intercalate members ++ "\x7d"

end Config

end Postings
