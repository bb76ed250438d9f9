/-
A number of bytes in the largest unit that it fills, with two places.
-/
import Postings.Decimal

namespace Postings

/-- The units of 2^10, 2^20 and 2^30 bytes, largest first. -/
def byteUnits : List (Nat × String) :=
  [(2 ^ 30, "GB"), (2 ^ 20, "MB"), (2 ^ 10, "KB")]

/-- The text of a number of bytes. -/
def formatByteSize (bytes : Nat) : String :=
  match byteUnits.find? fun (unit, _) => unit ≤ bytes with
  | some (unit, name) =>
    let amount := (UInt64.ofNat bytes).toFloat / (UInt64.ofNat unit).toFloat
    s!"{Decimal.fixed 2 amount} {name}"
  | none => s!"{bytes} bytes"

end Postings
