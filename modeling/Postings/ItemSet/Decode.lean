/-
Reading a posting list from tagged bytes.

The tag in front says which layout follows; bytes after the list are ignored.

* `ItemSet.ofTrustedBytes` — reads bytes that this library wrote;
* `ItemSet.ofBytes` — reads any bytes, and checks that the items strictly ascend.

Design notes: the regression-line layout is checked while it is read and a
progression ascends by construction, so `validate` has nothing to do for them.
-/
import Postings.ItemSet.Cursor

namespace Postings

open Layout

namespace Form

/-- Reads a list in the layout of a codec. -/
def readAs : Codec → Read Form
  | .native | .vector => return native (← Native.read)
  | .range => return range (← Progression.read)
  | .compact => return compact (← Compact.read)
  | .line => return line (← Ascent.read)
  | .frame => return frame (← Frame.read)

/-- Reads a tag and the list that it announces. -/
def readTagged : Read Form := do
  if (← Read.remaining) = 0 then throw (.corrupt .noBytes)
  let tag ← Read.byte "index tag"
  match Codec.ofTag? tag with
  | some codec => readAs codec
  | none => throw (.unknownTag tag)

end Form

namespace ItemSet

/-- The list in front of bytes that are known to be well written. -/
def ofTrustedBytes (bytes : ByteArray) : Except Error ItemSet := do
  let (form, reader) ← Read.run Form.readTagged bytes
  return ⟨form, some (bytes.extract 0 reader.position)⟩

/-- Fails unless the items strictly ascend. -/
def validate (set : ItemSet) : Except Error Unit :=
  match set.form with
  | .vector _ | .range _ | .line _ => .ok ()
  | form =>
    match Source.descent? form.cursor with
    | none => .ok ()
    | some found =>
      .error (.corrupt
        (.descent form.codec found.item.toNat found.position found.previous.toNat))

/-- The list in front of any bytes, if there is one and its items strictly ascend. -/
def ofBytes (bytes : ByteArray) : Except Error ItemSet := do
  let set ← ofTrustedBytes bytes
  set.validate
  return set

end ItemSet

end Postings
