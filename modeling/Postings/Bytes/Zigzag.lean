/-
Signed numbers as natural ones, small magnitudes first: 0, -1, 1, -2, 2, …

* `decode_encode` — the sequence is decoded back from its places.
-/

namespace Postings.Zigzag

/-- The place of a signed number in the sequence 0, -1, 1, -2, 2, … -/
def encode (value : Int) : Nat :=
  if 0 ≤ value then 2 * value.toNat else 2 * (-value).toNat - 1

/-- The signed number at a place of the sequence. -/
def decode (place : Nat) : Int :=
  if place % 2 = 0 then place / 2 else -((place + 1) / 2)

theorem decode_encode (value : Int) : decode (encode value) = value := by
  unfold decode encode
  split <;> split <;> omega

end Postings.Zigzag
