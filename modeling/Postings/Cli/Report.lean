/-
What commands print about stores and lists.

* `statsText` — totals as a table;
* `statsJson` — totals as JSON;
* `setText` — a list: its codec and sizes, and its first items.
-/
import Postings.ByteSize
import Postings.Json.Value
import Postings.Store.Stats

namespace Postings.Cli

/-- Blanks that fill a text up to a width. -/
def blanks (width : Nat) (text : String) : String :=
  String.ofList (List.replicate (width - text.length) ' ')

/-- A text at the left of a column. -/
def atLeft (width : Nat) (text : String) : String :=
  text ++ blanks width text

/-- A text at the right of a column. -/
def atRight (width : Nat) (text : String) : String :=
  blanks width text ++ text

/-- A row of the table of codecs. -/
def codecRow (name count elements bytes bits : String) : String :=
  "  " ++ " ".intercalate
    [atLeft 10 name, atRight 10 count, atRight 14 elements, atRight 12 bytes, atRight 8 bits]
    ++ "\n"

/-- The row of a codec's totals. -/
def totalsRow (codec : Codec) (totals : Totals) : String :=
  codecRow codec.name (toString totals.count) (toString totals.elements)
    (toString totals.bytes) (Decimal.fixed 2 totals.bitsPerItem)

/-- Totals as a table. -/
def statsText (path : String) (stats : Stats) : String :=
  "Store Statistics\n" ++ "================\n\n"
    ++ s!"Path:             {path}\n"
    ++ s!"Format version:   {stats.version}\n"
    ++ s!"Index type:       {stats.codec.name}\n"
    ++ s!"Index count:      {stats.indexCount}\n"
    ++ s!"Total elements:   {stats.totalElements}\n"
    ++ s!"Largest index:    {stats.largest}\n"
    ++ s!"Data size:        {formatByteSize stats.dataBytes}\n"
    ++ s!"File size:        {formatByteSize stats.totalBytes}\n\n"
    ++ "Indexes by codec:\n"
    ++ codecRow "type" "count" "elements" "bytes" "bpn"
    ++ String.join (stats.byCodec.map fun (codec, totals) => totalsRow codec totals)

/-- An object as JSON text, a member a line; `margin` stands before its closing brace. -/
def jsonObject (margin : String) (members : List (String × String)) : String :=
  if members.isEmpty then "\x7b\x7d"
  else
    let lines := members.map fun (key, value) =>
      margin ++ "  " ++ Json.quote key ++ ": " ++ value
    "\x7b\n" ++ ",\n".intercalate lines ++ "\n" ++ margin ++ "\x7d"

/-- A codec's totals as JSON text. -/
def totalsJson (totals : Totals) : String :=
  jsonObject "    "
    [("count", toString totals.count), ("elements", toString totals.elements),
      ("bytes", toString totals.bytes)]

/-- Totals as JSON text. -/
def statsJson (stats : Stats) : String :=
  jsonObject ""
    [("version", toString stats.version),
      ("index_type", Json.quote stats.codec.key),
      ("index_count", toString stats.indexCount),
      ("total_elements", toString stats.totalElements),
      ("data_bytes", toString stats.dataBytes),
      ("total_bytes", toString stats.totalBytes),
      ("largest_index", toString stats.largest),
      ("by_type", jsonObject "  " (stats.byCodec.map fun (codec, totals) =>
        (codec.key, totalsJson totals)))]

/-- A list: its codec and sizes, and its first items. -/
def setText (set : ItemSet) (limit : Nat) : String :=
  let shown := ", ".intercalate ((Source.take set.cursor limit).toList.map toString)
  let more := if limit < set.size then ", ..." else ""
  s!"type: {set.codec.name}  size: {set.size}  bytes: {set.byteLength}  "
    ++ s!"bpn: {Decimal.fixed 2 set.bitsPerItem}\n"
    ++ s!"[{shown}{more}]\n"

end Postings.Cli
