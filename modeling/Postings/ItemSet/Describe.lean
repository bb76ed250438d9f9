/-
The text that describes a posting list: its codec, its size and its first items.

* `ItemSet.describe` — on one line;
* `ItemSet.describeIndented` — a line for every field.
-/
import Postings.ItemSet.Cursor

namespace Postings.ItemSet

/-- How many items a description shows. -/
def shown : Nat := 8

/-- The first items, as text. -/
def headTexts (set : ItemSet) : List String :=
  (Source.take set.cursor shown).toList.map toString

/-- The description on one line. -/
def describe (set : ItemSet) : String :=
  let head := ", ".intercalate set.headTexts
  let cut := if shown < set.size then ", truncated: true" else ""
  s!"ItemIndex \x7b type: {set.codec.name}, size: {set.size}, head: [{head}]{cut} \x7d"

/-- The description with a line for every field. -/
def describeIndented (set : ItemSet) : String :=
  let head :=
    match set.headTexts with
    | [] => "[]"
    | texts => "[\n" ++ String.join (texts.map fun text => s!"        {text},\n") ++ "    ]"
  let cut := if shown < set.size then "    truncated: true,\n" else ""
  s!"ItemIndex \x7b\n    type: {set.codec.name},\n    size: {set.size},\n"
    ++ s!"    head: {head},\n{cut}\x7d"

end Postings.ItemSet
