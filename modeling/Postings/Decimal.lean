/-
Decimal text of a floating-point number with a fixed number of places.

A finite number is a whole number times a power of two, so it is rounded exactly:
to the nearest decimal, and to the even neighbour when two are equally near.

* `roundQuotient` — a quotient to the nearest whole number, a tie to the even one;
* `fixed` — the text of a number with so many places.
-/
import Postings.Power

namespace Postings.Decimal

/-- The whole number nearest to `numerator / denominator`, the even one of two. -/
def roundQuotient (numerator denominator : Nat) : Nat :=
  let quotient := numerator / denominator
  let rest := numerator % denominator
  if 2 * rest < denominator then quotient
  else if denominator < 2 * rest then quotient + 1
  else quotient + quotient % 2

/-- The magnitude of a finite number: a whole number over a power of two, times another. -/
def magnitude (bits : Nat) : Nat × Nat :=
  let exponent := bits / 2 ^ 52 % 2 ^ 11
  let fraction := bits % 2 ^ 52
  -- Subnormal numbers share the exponent of the least normal ones and lack the hidden bit.
  let mantissa := if exponent = 0 then fraction else fraction + 2 ^ 52
  let scale := max exponent 1
  if 1075 ≤ scale then (mantissa * 2 ^ (scale - 1075), 1) else (mantissa, 2 ^ (1075 - scale))

/-- A whole number of units of the last place, written with a point. -/
def pointed (places units : Nat) : String :=
  let digits := (toString units).toList
  let digits := List.replicate (places + 1 - digits.length) '0' ++ digits
  let whole := digits.take (digits.length - places)
  let fraction := digits.drop (digits.length - places)
  String.ofList (if places = 0 then whole else whole ++ '.' :: fraction)

/-- The text of a number with so many places. -/
def fixed (places : Nat) (value : Float) : String :=
  if value.isNaN then "NaN"
  else
    let bits := value.toBits.toNat
    let sign := if 2 ^ 63 ≤ bits then "-" else ""
    if value.isInf then sign ++ "inf"
    else
      let (numerator, denominator) := magnitude bits
      sign ++ pointed places (roundQuotient (numerator * 10 ^ places) denominator)

end Postings.Decimal
