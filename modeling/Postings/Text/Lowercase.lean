/-
Lower case of a text.

Every capital becomes its small letter.  A sigma at the end of a word takes its
final form, and a dotted capital I keeps its dot as a combining mark.

* `lowercase` — the text in lower case.
-/
import Postings.Text.Casing

namespace Postings.Text

/-- The small letter of a capital; every other character is its own. -/
def lowerChar (c : Char) : Char :=
  let code := c.toNat
  match lowerRuns.find? fun (first, last, step, _) =>
      first ≤ code && code ≤ last && (code - first) % step == 0 with
  | some (_, _, _, shift) => Char.ofNat (code + shift).toNat
  | none => c

/-- Whether the first character that is not ignorable has a case. -/
def startsCased (chars : List Char) : Bool :=
  match chars.dropWhile fun c => inRanges ignorableRanges c.toNat with
  | c :: _ => inRanges casedRanges c.toNat
  | [] => false

/-- The small letters of a character between those before it, nearest first, and those after
it. -/
def lowerAt (before : List Char) (c : Char) (after : List Char) : List Char :=
  if c = 'Σ' then
    if startsCased before && !startsCased after then ['ς'] else ['σ']
  else if c = 'İ' then ['i', '\u0307']
  else [lowerChar c]

/-- The small letters of the characters after `before`, which is in reverse order. -/
def lowerFrom (before : List Char) : List Char → List Char
  | [] => []
  | c :: after => lowerAt before c after ++ lowerFrom (c :: before) after

/-- The text in lower case. -/
def lowercase (text : String) : String :=
  String.ofList (lowerFrom [] text.toList)

end Postings.Text
