/-
Powers of whole numbers.

Bounds such as 2^32 are written with the power of the core library.  A library of algebra
brings a second one, that of monoids, which would be picked instead wherever it is
imported; the two are equal, but lemmas about one do not rewrite the other.

The choice between the two is made inside this namespace only.  For an exponent that is a numeral
it cannot be: default instances are global.
-/

namespace Postings

attribute [scoped instance (20000)] instPowNat

end Postings

attribute [default_instance (20000)] instPowNat
