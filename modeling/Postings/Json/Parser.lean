/-
Reading JSON text.

The grammar is the standard one, without a limit on nesting: no leading zeros, no
trailing commas, no control characters inside strings, and nothing but blanks
around the document.

* `parse` — the document of a text, if it is one.

Design notes: the parsers work on lists of characters and give back what they have
not read.  Each step of nesting takes at least one character, so the length of the
text bounds the recursion.
-/
import Postings.Json.Value

namespace Postings.Json

/-- Whether a character may stand between tokens. -/
def isSpace (c : Char) : Bool :=
  c == ' ' || c == '\n' || c == '\r' || c == '\t'

/-- The characters after leading blanks. -/
def skipSpace (chars : List Char) : List Char :=
  chars.dropWhile isSpace

/-- The value of a hexadecimal digit. -/
def hexValue? (c : Char) : Option Nat :=
  if '0' ≤ c ∧ c ≤ '9' then some (c.toNat - '0'.toNat)
  else if 'a' ≤ c ∧ c ≤ 'f' then some (c.toNat - 'a'.toNat + 10)
  else if 'A' ≤ c ∧ c ≤ 'F' then some (c.toNat - 'A'.toNat + 10)
  else none

/-- The number of four hexadecimal digits. -/
def hex4 : List Char → Option (Nat × List Char)
  | a :: b :: c :: d :: rest => do
    let a ← hexValue? a
    let b ← hexValue? b
    let c ← hexValue? c
    let d ← hexValue? d
    return (((a * 16 + b) * 16 + c) * 16 + d, rest)
  | _ => none

/-- The character of a one-letter escape. -/
def shortEscape? : Char → Option Char
  | '\x22' => some '\x22'
  | '\\' => some '\\'
  | '/' => some '/'
  | 'b' => some '\x08'
  | 'f' => some '\x0c'
  | 'n' => some '\n'
  | 'r' => some '\r'
  | 't' => some '\t'
  | _ => none

/-- One UTF-16 unit or character of a string. -/
inductive Piece where
  | char (c : Char)
  | unit (code : Nat)

/-- The pieces of a string up to its closing quote, in reverse before `pieces`. -/
def stringPieces : (fuel : Nat) → List Char → (pieces : List Piece) →
    Option (List Piece × List Char)
  | 0, _, _ => none
  | fuel + 1, chars, pieces =>
    match chars with
    | '\x22' :: rest => some (pieces.reverse, rest)
    | '\\' :: 'u' :: rest => do
      let (code, rest) ← hex4 rest
      stringPieces fuel rest (.unit code :: pieces)
    | '\\' :: c :: rest => do
      let c ← shortEscape? c
      stringPieces fuel rest (.char c :: pieces)
    | c :: rest =>
      if c.toNat < 0x20 then none else stringPieces fuel rest (.char c :: pieces)
    | [] => none

/-- The text of pieces, with pairs of surrogates joined, if none is alone. -/
def textOf : List Piece → (text : String) → Option String
  | [], text => some text
  | .char c :: rest, text => textOf rest (text.push c)
  | .unit high :: rest, text =>
    if high < 0xD800 ∨ 0xDFFF < high then textOf rest (text.push (Char.ofNat high))
    else if 0xDC00 ≤ high then none
    else
      match rest with
      | .unit low :: rest =>
        if 0xDC00 ≤ low ∧ low ≤ 0xDFFF then
          textOf rest (text.push (Char.ofNat
            (0x10000 + (high - 0xD800) * 0x400 + (low - 0xDC00))))
        else none
      | _ => none

/-- The string after its opening quote. -/
def string (chars : List Char) : Option (Option String × List Char) := do
  let (pieces, rest) ← stringPieces (chars.length + 1) chars []
  return (textOf pieces "", rest)

/-- The digits at the front, at least one. -/
def digits (chars : List Char) : Option (List Char × List Char) :=
  match chars.takeWhile Char.isDigit with
  | [] => none
  | found => some (found, chars.dropWhile Char.isDigit)

/-- The digits before a decimal point. -/
def wholeDigits : List Char → Option (List Char × List Char)
  | '0' :: c :: rest => if c.isDigit then none else some (['0'], c :: rest)
  | chars => digits chars

/-- The decimal point and the digits after it, if they come next. -/
def fractionPart : List Char → Option (List Char × List Char)
  | '.' :: rest => do
    let (found, rest) ← digits rest
    return ('.' :: found, rest)
  | chars => some ([], chars)

/-- The exponent, if it comes next. -/
def exponentPart : List Char → Option (List Char × List Char)
  | mark :: rest =>
    if mark = 'e' ∨ mark = 'E' then
      match rest with
      | sign :: rest =>
        if sign = '+' ∨ sign = '-' then do
          let (found, rest) ← digits rest
          return (mark :: sign :: found, rest)
        else do
          let (found, rest) ← digits (sign :: rest)
          return (mark :: found, rest)
      | [] => none
    else some ([], mark :: rest)
  | [] => some ([], [])

/-- A number. -/
def number (chars : List Char) : Option (Value × List Char) := do
  let (sign, chars) := match chars with
    | '-' :: rest => (['-'], rest)
    | chars => ([], chars)
  let (whole, chars) ← wholeDigits chars
  let (fraction, chars) ← fractionPart chars
  let (exponent, chars) ← exponentPart chars
  return (.number (String.ofList (sign ++ whole ++ fraction ++ exponent)), chars)

/-- The characters after a given word, if it comes next. -/
def expect (word : List Char) (chars : List Char) : Option (List Char) :=
  if word.isPrefixOf chars then some (chars.drop word.length) else none

mutual

/-- A document, after leading blanks. -/
def value : (fuel : Nat) → List Char → Option (Value × List Char)
  | 0, _ => none
  | fuel + 1, chars =>
    match skipSpace chars with
    | '\x7b' :: rest =>
      match skipSpace rest with
      | '\x7d' :: rest => some (.object [], rest)
      | rest => members fuel rest []
    | '[' :: rest =>
      match skipSpace rest with
      | ']' :: rest => some (.array [], rest)
      | rest => elements fuel rest []
    | '\x22' :: rest => do
      let (text, rest) ← string rest
      return (.string text, rest)
    | 't' :: rest => do return (.bool true, ← expect ['r', 'u', 'e'] rest)
    | 'f' :: rest => do return (.bool false, ← expect ['a', 'l', 's', 'e'] rest)
    | 'n' :: rest => do return (.null, ← expect ['u', 'l', 'l'] rest)
    | chars => number chars

/-- The elements up to the end of an array, in reverse before `found`. -/
def elements : (fuel : Nat) → List Char → (found : List Value) → Option (Value × List Char)
  | 0, _, _ => none
  | fuel + 1, chars, found =>
    match value fuel chars with
    | none => none
    | some (element, rest) =>
      match skipSpace rest with
      | ',' :: rest => elements fuel rest (element :: found)
      | ']' :: rest => some (.array (element :: found).reverse, rest)
      | _ => none

/-- The members up to the end of an object, in reverse before `found`. -/
def members : (fuel : Nat) → List Char → (found : List (Option String × Value)) →
    Option (Value × List Char)
  | 0, _, _ => none
  | fuel + 1, chars, found =>
    match skipSpace chars with
    | '\x22' :: rest =>
      match string rest with
      | none => none
      | some (key, rest) =>
        match skipSpace rest with
        | ':' :: rest =>
          match value fuel rest with
          | none => none
          | some (member, rest) =>
            match skipSpace rest with
            | ',' :: rest => members fuel rest ((key, member) :: found)
            | '\x7d' :: rest => some (.object ((key, member) :: found).reverse, rest)
            | _ => none
        | _ => none
    | _ => none

end

/-- The document of a text. -/
def parse (text : String) : Option Value :=
  let chars := text.toList
  match value (2 * chars.length + 2) chars with
  | some (document, rest) => if (skipSpace rest).isEmpty then some document else none
  | none => none

end Postings.Json
