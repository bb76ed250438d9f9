/-
The regression-line layout along whatever slope is asked for.

A line leaves something over at every position, and the intercept is the middle of that.
Numbers are written unless the intercept, or what lies around it, is too large for a field of
64 bits with its sign.  Whether it is depends on the slope, but it never is for items, nor for
numbers below 2^63 along a slope below 2^63.

* `Line.IsMiddle`, `Line.TooFar` — when a field is too narrow;
* `Line.encodeAlong_cases` — numbers are written, or overflow a field that is too narrow;
* `Line.Holds`, `Line.holds_of_encodeAlong` — bytes that are read as some numbers;
* `Line.encode_any_slope` — what is written along any slope, and what is read back.
-/
import Postings.Proofs.Layout.Line

namespace Postings.Layout.Line

variable {slope : Nat} {values : List Nat} {out : ByteArray}

/-! ### Fields that are too narrow -/

/-- Halfway from the least of some numbers to the greatest, rounded down. -/
def IsMiddle (numbers : List Int) (middle : Int) : Prop :=
  ∃ least ∈ numbers, ∃ greatest ∈ numbers,
    (∀ number ∈ numbers, least ≤ number ∧ number ≤ greatest) ∧
      middle = least + (greatest - least) / 2

/-- The middle of what a line leaves over, or something that lies around it, does not fit a field
of 64 bits with its sign.  Fewer than two numbers are written without a line. -/
def TooFar (slope : Nat) (values : List Nat) : Prop :=
  2 ≤ values.length ∧ ∃ middle, IsMiddle (deviations slope values) middle ∧
    (fitsSigned middle = false ∨
      ∃ deviation ∈ deviations slope values, fitsSigned (deviation - middle) = false)

theorem isMiddle_iff {numbers : List Int} {middle : Int} (hsome : numbers ≠ []) :
    IsMiddle numbers middle ↔ middle = centre numbers := by
  obtain ⟨least', greatest', hleast', hgreatest', hall', hcentre⟩ := centre_spec hsome
  constructor
  · rintro ⟨least, hleast, greatest, hgreatest, hall, rfl⟩
    -- There is one least number and one greatest.
    have hlow := Int.le_antisymm (hall least' hleast').1 (hall' least hleast).1
    have hhigh := Int.le_antisymm (hall' greatest hgreatest).2 (hall greatest' hgreatest').2
    rw [hcentre, hlow, hhigh]
  · rintro rfl
    exact ⟨least', hleast', greatest', hgreatest', hall', hcentre⟩

theorem deviations_ne_nil (hmany : 2 ≤ values.length) : deviations slope values ≠ [] := by
  rw [← List.length_pos_iff, length_deviations]
  omega

theorem not_tooFar_of_lt (hfew : values.length < 2) : ¬ TooFar slope values :=
  fun h => absurd h.1 (Nat.not_le.2 hfew)

theorem not_tooFar_iff (hmany : 2 ≤ values.length) :
    ¬ TooFar slope values ↔ fitsSigned (centre (deviations slope values)) = true ∧
      ∀ deviation ∈ deviations slope values,
        fitsSigned (deviation - centre (deviations slope values)) = true := by
  simp only [TooFar, hmany, true_and, isMiddle_iff (deviations_ne_nil hmany), exists_eq_left,
    not_or, not_exists, not_and, Bool.not_eq_false]

/-! ### Writing -/

theorem encodeFitted_cases (slope : Nat) (values : List Nat) (out : ByteArray) :
    (∃ bytes, encodeFitted slope values out = .ok bytes) ∨
      ∃ cause, encodeFitted slope values out = .error (.overflow cause) := by
  simp only [encodeFitted]
  split
  · exact .inr ⟨_, rfl⟩
  · split
    · exact .inr ⟨_, rfl⟩
    · exact .inl ⟨_, rfl⟩

/-- Numbers are written, or a field is too narrow for what a line leaves over. -/
theorem encodeAlong_cases (hlength : values.length < 2 ^ 32) (slope : Nat) (out : ByteArray) :
    ¬ TooFar slope values ∧ (∃ bytes, encodeAlong slope values out = .ok bytes) ∨
      TooFar slope values ∧ ∃ cause, encodeAlong slope values out = .error (.overflow cause) := by
  rw [encodeAlong, if_neg (Nat.not_le.2 hlength)]
  rcases values with _ | ⟨first, _ | ⟨second, rest⟩⟩
  · exact .inl ⟨not_tooFar_of_lt (by decide), _, rfl⟩
  · exact .inl ⟨not_tooFar_of_lt (by simp), _, rfl⟩
  · have hmany : 2 ≤ (first :: second :: rest).length := by simp
    have hok : ∀ out, (∃ bytes, encodeFitted slope (first :: second :: rest) out = .ok bytes) ↔
        ¬ TooFar slope (first :: second :: rest) := by
      intro out
      simp only [encodeFitted_eq_ok, not_tooFar_iff hmany, exists_and_left, exists_eq', and_true]
    rcases encodeFitted_cases slope (first :: second :: rest) _ with hbytes | ⟨cause, hcause⟩
    · exact .inl ⟨(hok _).1 hbytes, hbytes⟩
    · refine .inr ⟨Classical.not_not.1 fun hfits => ?_, cause, hcause⟩
      obtain ⟨bytes, hbytes⟩ := (hok _).2 hfits
      rw [hcause] at hbytes
      exact absurd hbytes (by simp)

/-! ### Reading back -/

/-- Bytes are read as a line that has exactly these numbers, whatever follows them. -/
def Holds (front : List UInt8) (values : List Nat) : Prop :=
  ∃ line, (∀ tail, ∃ reader, Read.run read (front ++ tail).toByteArray = .ok (line, reader) ∧
      reader.position = front.length) ∧
    (∀ position (h : position < values.length), line.get position = .ok values[position]) ∧
    ∀ position, values.length ≤ position →
      line.get position = .error (.outOfBounds position values.length)

theorem holds_of_encodeAlong {bytes : ByteArray} (hslope : slope < 2 ^ 64)
    (hvalues : ∀ value ∈ values, value < 2 ^ 64) (h : encodeAlong slope values out = .ok bytes) :
    ∃ front : List UInt8, bytes = out ++ front.toByteArray ∧ Holds front values := by
  obtain ⟨front, line, hbytes, hreads, hsize, hvalue⟩ := reads_encodeAlong hslope hvalues h
  refine ⟨front, hbytes, line, fun tail => ?_, fun position hp => ?_, fun position hp => ?_⟩
  · have hlead : front <+: (front ++ tail).toByteArray.data.toList := by simp
    exact ⟨_, Read.run_of_reads hreads hlead, by
      rw [Reader.position_forward hlead.length_le]
      exact Nat.zero_add _⟩
  · exact get_eq_ok (hsize ▸ hp) (hvalue position hp) (hvalues _ (List.getElem_mem hp))
  · rw [get, hsize, if_neg (Nat.not_lt.2 hp)]

/-- Along whatever slope, numbers are written and read back unless a field is too narrow, which
overflows.  None is too narrow for items, nor for numbers below 2^63 along a slope below 2^63. -/
theorem encode_any_slope (fit : List Nat → UInt64) (values : List Nat) (out : ByteArray)
    (hlength : values.length < 2 ^ 32) (hvalues : ∀ value ∈ values, value < 2 ^ 64) :
    ((∃ cause, encode fit values out = .error (.overflow cause)) ↔
        TooFar (fit values).toNat values) ∧
      (¬ TooFar (fit values).toNat values →
        ∃ front : List UInt8, encode fit values out = .ok (out ++ front.toByteArray) ∧
          Holds front values) ∧
      ((∀ value ∈ values, value < 2 ^ 32) → ∃ bytes, encode fit values out = .ok bytes) ∧
      ((fit values).toNat < 2 ^ 63 → (∀ value ∈ values, value < 2 ^ 63) →
        ∃ bytes, encode fit values out = .ok bytes) := by
  have hslope := UInt64.toNat_lt (fit values)
  rw [encode]
  refine ⟨?_, fun hfits => ?_, fun hitems => exists_encodeAlong hlength hslope hitems out,
    fun hsmall hbelow => exists_encodeAlong_of_lt hlength hsmall hbelow out⟩
  · rcases encodeAlong_cases hlength (fit values).toNat out with
      ⟨hfits, bytes, hbytes⟩ | ⟨hfar, hcause⟩
    · exact iff_of_false (by simp [hbytes]) hfits
    · exact iff_of_true hcause hfar
  · rcases encodeAlong_cases hlength (fit values).toNat out with ⟨-, bytes, hbytes⟩ | ⟨hfar, -⟩
    · obtain ⟨front, rfl, hholds⟩ := holds_of_encodeAlong hslope hvalues hbytes
      exact ⟨front, hbytes, hholds⟩
    · exact absurd hfar hfits

/-- The least and the greatest number: too far from the middle along a flat line, but not along a
steep one. -/
theorem encode_any_slope_extremes :
    ([0, 2 ^ 64 - 1] : List Nat).length < 2 ^ 32 ∧
      (∀ value ∈ [0, 2 ^ 64 - 1], value < 2 ^ 64) ∧
      (∃ cause, encode (fun _ => 0) [0, 2 ^ 64 - 1] ByteArray.empty
        = .error (.overflow cause)) ∧
      ∃ front : List UInt8, encode (fun _ => 18446744073709551615) [0, 2 ^ 64 - 1] ByteArray.empty
          = .ok (ByteArray.empty ++ front.toByteArray) ∧ Holds front [0, 2 ^ 64 - 1] := by
  have hlength : ([0, 2 ^ 64 - 1] : List Nat).length < 2 ^ 32 := by decide
  have hvalues : ∀ value ∈ [0, 2 ^ 64 - 1], value < 2 ^ 64 := by decide
  have hflat := encode_any_slope (fun _ => 0) _ ByteArray.empty hlength hvalues
  have hsteep := encode_any_slope (fun _ => 18446744073709551615) _ ByteArray.empty hlength hvalues
  refine ⟨hlength, hvalues, hflat.1.2 ?_, hsteep.2.1 ?_⟩
  · refine Classical.not_not.1 fun hfits => ?_
    have hall := (not_tooFar_iff (by decide)).1 hfits
    exact absurd hall (by decide)
  · exact (not_tooFar_iff (by decide)).2 (by decide)

end Postings.Layout.Line
