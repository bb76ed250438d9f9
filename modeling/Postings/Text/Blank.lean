/-
Blank characters, and the words between them.

* `isBlank` — the characters with the Unicode property of white space;
* `words` — the pieces of a text between separators, none of them empty.
-/

namespace Postings.Text

/-- Whether a character is white space. -/
def isBlank (c : Char) : Bool :=
  let code := c.toNat
  (9 ≤ code && code ≤ 13) || code == 0x20 || code == 0x85 || code == 0xA0 || code == 0x1680
    || (0x2000 ≤ code && code ≤ 0x200A) || code == 0x2028 || code == 0x2029
    || code == 0x202F || code == 0x205F || code == 0x3000

/-- The pieces of a text between separators, and the piece under way, after one more
character. -/
def addToWords (isSeparator : Char → Bool) (pieces : Array String × String) (c : Char) :
    Array String × String :=
  if isSeparator c then
    if pieces.2.isEmpty then pieces else (pieces.1.push pieces.2, "")
  else (pieces.1, pieces.2.push c)

/-- The non-empty pieces of a text between separators. -/
def words (isSeparator : Char → Bool) (text : String) : List String :=
  let (done, last) := text.toList.foldl (addToWords isSeparator) (#[], "")
  (if last.isEmpty then done else done.push last).toList

end Postings.Text
