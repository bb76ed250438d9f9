/-
The width at which what a line leaves over is packed.

The intercept is the middle of the deviations, rounded down.  Zigzag gives an odd place to a
negative number and the even place after it to its opposite, so a range that is one longer below
the intercept than above it is narrower than its mirror image, and rounding down makes the mirror
image.  That is a bit too many exactly when the deviations span a power of two.

* `Line.widthAround`, `Line.Spans` — the width around any intercept, and the ends of a range;
* `Line.widthAround_le_iff` — around which intercepts a range fits a width;
* `Line.widthAround_centre_le` — the middle is at most one bit too wide;
* `Line.widthAround_lt_iff` — one intercept is better, for a range as long as a power of two;
* `Line.width_of_encodeAlong` — the width that is written.
-/
import Mathlib
import Postings.Proofs.Layout.Slopes

namespace Postings.Layout.Line

variable {numbers : List Int} {least greatest intercept other : Int} {bits : Nat}

/-! ### Widths around an intercept -/

/-- The width at which numbers are packed around an intercept. -/
def widthAround (intercept : Int) (numbers : List Int) : Nat :=
  residualBits ((numbers.map (· - intercept)).map Zigzag.encode)

/-- No intercept that fits its field of 64 bits packs the numbers at a lesser width. -/
def Narrowest (bits : Nat) (numbers : List Int) : Prop :=
  ∀ intercept, fitsSigned intercept = true → bits ≤ widthAround intercept numbers

/-- The least and the greatest of some numbers. -/
structure Spans (numbers : List Int) (least greatest : Int) : Prop where
  least_mem : least ∈ numbers
  greatest_mem : greatest ∈ numbers
  bounds : ∀ number ∈ numbers, least ≤ number ∧ number ≤ greatest

theorem exists_spans (hsome : numbers ≠ []) : ∃ least greatest, Spans numbers least greatest := by
  obtain ⟨least, greatest, hleast, hgreatest, hall, -⟩ := centre_spec hsome
  exact ⟨least, greatest, hleast, hgreatest, hall⟩

theorem Spans.centre_eq (h : Spans numbers least greatest) :
    centre numbers = least + (greatest - least) / 2 :=
  ((isMiddle_iff (List.ne_nil_of_mem h.least_mem)).1
    ⟨least, h.least_mem, greatest, h.greatest_mem, h.bounds, rfl⟩).symm

/-- One more number below zero than above it fits a width. -/
theorem zigzag_lt_two_pow {value : Int} :
    Zigzag.encode value < 2 ^ (bits + 1) ↔ -2 ^ bits ≤ value ∧ value < 2 ^ bits := by
  have hpower : ((2 ^ bits : Nat) : Int) = 2 ^ bits := by simp
  rw [Zigzag.encode, Nat.pow_succ]
  split
  · omega
  · omega

theorem residualBits_le_iff {places : List Nat} :
    residualBits places ≤ bits + 1 ↔ ∀ place ∈ places, place < 2 ^ (bits + 1) := by
  constructor
  · intro hle place hplace
    have hwidth : place < 2 ^ residualBits places :=
      Packed.lt_two_pow_bitsNeeded (Packed.le_foldl_max (List.mem_cons_of_mem _ hplace))
    exact Nat.lt_of_lt_of_le hwidth (Nat.pow_le_pow_right (by decide) hle)
  · intro hall
    exact Packed.bitsNeeded_le (Packed.foldl_max_lt (Nat.two_pow_pos _) hall) (Nat.succ_pos _)

/-- A range fits a width around the intercepts that leave half the places on either side. -/
theorem widthAround_le_iff (h : Spans numbers least greatest) :
    widthAround intercept numbers ≤ bits + 1 ↔
      intercept - 2 ^ bits ≤ least ∧ greatest < intercept + 2 ^ bits := by
  simp only [widthAround, residualBits_le_iff, List.forall_mem_map, zigzag_lt_two_pow]
  constructor
  · intro hall
    have hlow := hall least h.least_mem
    have hhigh := hall greatest h.greatest_mem
    omega
  · intro hends number hnumber
    have hbounds := h.bounds number hnumber
    omega

/-- The middle is at most one bit too wide. -/
theorem widthAround_centre_le (h : Spans numbers least greatest) (other : Int) :
    widthAround (centre numbers) numbers ≤ widthAround other numbers + 1 := by
  obtain ⟨bits, hbits⟩ : ∃ bits, widthAround other numbers = bits + 1 := ⟨_, rfl⟩
  have hfits := (widthAround_le_iff h).1 (Nat.le_of_eq hbits)
  have hends := h.bounds least h.least_mem
  rw [hbits, widthAround_le_iff h, h.centre_eq, Int.pow_succ]
  omega

/-- An intercept is better than the middle just when it is the next number and the range is as long
as a power of two. -/
theorem widthAround_lt_iff (h : Spans numbers least greatest) :
    widthAround other numbers < widthAround (centre numbers) numbers ↔
      other = centre numbers + 1 ∧ ∃ bits : Nat, greatest - least + 1 = 2 ^ (bits + 1) := by
  obtain ⟨bits, hbits⟩ : ∃ bits, widthAround other numbers = bits + 1 := ⟨_, rfl⟩
  constructor
  · intro hlt
    have hfits := (widthAround_le_iff h).1 (Nat.le_of_eq hbits)
    have hmiddle := mt (widthAround_le_iff h).2 (Nat.not_le.2 (hbits ▸ hlt))
    rw [h.centre_eq] at hmiddle ⊢
    -- All of the range has places around the other intercept, its longer half none around the
    -- middle: that leaves one length.
    have hlength : greatest - least + 1 = 2 ^ (bits + 1) := by
      rw [Int.pow_succ]
      omega
    refine ⟨?_, bits, hlength⟩
    rw [Int.pow_succ] at hlength
    omega
  · rintro ⟨rfl, power, hlength⟩
    have hends := h.bounds least h.least_mem
    rw [Int.pow_succ] at hlength
    -- The next number leaves as many places below as above, the middle one more above.
    have hnext : widthAround (centre numbers + 1) numbers ≤ power + 1 := by
      rw [widthAround_le_iff h, h.centre_eq]
      omega
    have hmiddle : ¬ widthAround (centre numbers) numbers ≤ power + 1 := by
      rw [widthAround_le_iff h, h.centre_eq]
      omega
    omega

theorem narrowest_iff (h : Spans numbers least greatest) :
    Narrowest (widthAround (centre numbers) numbers) numbers ↔
      fitsSigned (centre numbers + 1) = false ∨
        ∀ bits : Nat, greatest - least + 1 ≠ 2 ^ (bits + 1) := by
  simp only [Narrowest, ← Nat.not_lt, widthAround_lt_iff h, not_and, not_exists]
  constructor
  · intro hall
    by_cases hfits : fitsSigned (centre numbers + 1) = true
    · exact .inr (hall _ hfits rfl)
    · exact .inl (Bool.eq_false_iff.2 hfits)
  · rintro hor other hfits rfl
    rcases hor with hnot | hlength
    · rw [hfits] at hnot
      exact absurd hnot (by decide)
    · exact hlength

/-! ### The width that is written -/

theorem encodeAlong_of_two_le {slope : Nat} {values : List Nat} {out bytes : ByteArray}
    (hmany : 2 ≤ values.length) (h : encodeAlong slope values out = .ok bytes) :
    values.length < 2 ^ 32 ∧
      encodeFitted slope values (out ++ (Varint.encode values.length).toByteArray) = .ok bytes := by
  rw [encodeAlong] at h
  split at h
  · exact absurd h (by simp)
  next hlength =>
    rcases values with - | ⟨first, - | ⟨second, rest⟩⟩
    · exact absurd hmany (by decide)
    · exact absurd hmany (by simp)
    · exact ⟨Nat.not_le.1 hlength, h⟩

/-- Two numbers or more are packed at the width around the middle of what the line leaves over.
No width around another intercept is less by two bits, and the one after the middle is the only one
that is less by one, for a range as long as a power of two. -/
theorem width_of_encodeAlong {slope : Nat} {values : List Nat} {out bytes : ByteArray}
    (hslope : slope < 2 ^ 64) (hmany : 2 ≤ values.length)
    (h : encodeAlong slope values out = .ok bytes) :
    ∃ (front : List UInt8) (line : Line) (least greatest : Int),
      bytes = out ++ front.toByteArray ∧ Reads read front line ∧ line.size = values.length ∧
      Spans (deviations slope values) least greatest ∧
      line.bits = widthAround (centre (deviations slope values)) (deviations slope values) ∧
      (∀ other, line.bits ≤ widthAround other (deviations slope values) + 1) ∧
      (∀ other, widthAround other (deviations slope values) < line.bits ↔
        other = centre (deviations slope values) + 1 ∧
          ∃ bits : Nat, greatest - least + 1 = 2 ^ (bits + 1)) ∧
      (Narrowest line.bits (deviations slope values) ↔
        fitsSigned (centre (deviations slope values) + 1) = false ∨
          ∀ bits : Nat, greatest - least + 1 ≠ 2 ^ (bits + 1)) := by
  obtain ⟨hlength, hfitted⟩ := encodeAlong_of_two_le hmany h
  obtain ⟨front, residuals, rfl, hreads, hsize, hbits, -⟩ :=
    exists_fitted hslope hmany hlength hfitted
  have hsome : deviations slope values ≠ [] := deviations_ne_nil hmany
  obtain ⟨least, greatest, hspans⟩ := exists_spans hsome
  have hline : (fitted slope (centre (deviations slope values)) residuals).bits
      = widthAround (centre (deviations slope values)) (deviations slope values) := hbits
  refine ⟨_, _, least, greatest, ?_, hreads, hsize, hspans, hline, ?_, ?_, ?_⟩
  · rw [ByteArray.append_assoc, ← List.toByteArray_append]
  · exact fun other => hline ▸ widthAround_centre_le hspans other
  · exact fun other => hline ▸ widthAround_lt_iff hspans
  · exact hline ▸ narrowest_iff hspans

/-- Three numbers leave 0, 1 and 0 over along a slope of 6 / 3: a range of two numbers. -/
theorem width_of_encodeAlong_three :
    (6 : Nat) < 2 ^ 64 ∧ 2 ≤ [0, 3, 4].length ∧
      encodeAlong 6 [0, 3, 4] ByteArray.empty = .ok ⟨#[3, 6, 0, 2, 8]⟩ ∧
      ∃ (front : List UInt8) (line : Line),
        (⟨#[3, 6, 0, 2, 8]⟩ : ByteArray) = ByteArray.empty ++ front.toByteArray ∧
        Reads read front line ∧ line.bits = 2 ∧
        ∀ other, widthAround other (deviations 6 [0, 3, 4]) < line.bits → other = 1 := by
  have hbytes : encodeAlong 6 [0, 3, 4] ByteArray.empty = .ok ⟨#[3, 6, 0, 2, 8]⟩ := by cbv
  obtain ⟨front, line, _, _, hfront, hreads, -, -, hbits, -, hbetter, -⟩ :=
    width_of_encodeAlong (by decide) (by decide) hbytes
  have hwidth : line.bits = 2 := hbits.trans (by cbv)
  have hmiddle : centre (deviations 6 [0, 3, 4]) = 0 := by decide
  refine ⟨by decide, by decide, hbytes, front, line, hfront, hreads, hwidth, fun other hlt => ?_⟩
  rw [((hbetter other).1 hlt).1, hmiddle]
  rfl

/-- The three numbers are packed in two bits each.  Around the intercept 1 one bit each is enough,
and what is written so is read as the same numbers. -/
theorem not_narrowest_three :
    encodeAlong 6 [0, 3, 4] ByteArray.empty = .ok ⟨#[3, 6, 0, 2, 8]⟩ ∧
      (Read.run read ⟨#[3, 6, 0, 2, 8]⟩).map (fun answer =>
        (answer.1.bits, (List.range 3).map answer.1.valueAt)) = .ok (2, [0, 3, 4]) ∧
      ¬ Narrowest 2 (deviations 6 [0, 3, 4]) ∧
      (Read.run read ⟨#[3, 6, 2, 1, 5]⟩).map (fun answer =>
        (answer.1.bits, (List.range 3).map answer.1.valueAt)) = .ok (1, [0, 3, 4]) := by
  refine ⟨by cbv, by cbv, fun hnarrowest => ?_, by cbv⟩
  have hone : 2 ≤ widthAround 1 (deviations 6 [0, 3, 4]) := hnarrowest 1 (by decide)
  exact absurd hone (by decide)

end Postings.Layout.Line
