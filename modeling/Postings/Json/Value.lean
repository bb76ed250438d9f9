/-
JSON documents, as far as a reader of settings needs them.

* `Value` — a document; members keep their order and their repetitions, and a
  number keeps its spelling;
* `quote` — a string as JSON text.

Design notes: a string may hold an escaped half of a surrogate pair.  It is then
a string whose text is missing: well formed, so it can be passed over, but of no
use where the text matters.
-/

namespace Postings.Json

/-- A JSON document. -/
inductive Value where
  | null
  | bool (value : Bool)
  /-- A number as it was spelt. -/
  | number (spelling : String)
  /-- A string, without a text if a surrogate is alone in it. -/
  | string (text : Option String)
  | array (elements : List Value)
  | object (members : List (Option String × Value))

/-- The hexadecimal digit of a number below 16. -/
def hexDigit (digit : Nat) : Char :=
  if digit < 10 then Char.ofNat ('0'.toNat + digit) else Char.ofNat ('a'.toNat + (digit - 10))

/-- A character inside a JSON string. -/
def escape (c : Char) : List Char :=
  match c with
  | '\x22' => ['\\', '\x22']
  | '\\' => ['\\', '\\']
  | '\n' => ['\\', 'n']
  | '\r' => ['\\', 'r']
  | '\t' => ['\\', 't']
  | '\x08' => ['\\', 'b']
  | '\x0c' => ['\\', 'f']
  | c =>
    if c.toNat < 0x20 then
      ['\\', 'u', '0', '0', hexDigit (c.toNat / 16), hexDigit (c.toNat % 16)]
    else [c]

/-- A string as JSON text. -/
def quote (text : String) : String :=
  String.ofList ('\x22' :: text.toList.flatMap escape ++ ['\x22'])

end Postings.Json
