/-
Words and numerals of a text.

Words are found in one pass over the characters, and so are the digits of a numeral,
whose value is compared with the bound at every digit.  Here both are told from the text as
a whole: the words are the pieces between separators that are not empty, and a numeral
below the bound is read as the value of its digits.

* `Text.words_eq`, `Text.mem_words` — the words of a text;
* `Text.IsNumeral`, `Text.parseNumeral_eq_ok` — the numerals below a bound.
-/
import Mathlib.Data.Nat.Digits.Defs
import Postings.Power
import Postings.Text.Blank
import Postings.Text.Numeral

namespace Postings.Text

/-! ### Words -/

variable {isSeparator : Char → Bool} {text : String}

/-- The pieces that are not empty. -/
def nonempty (pieces : List (List Char)) : List String :=
  (pieces.filter (· ≠ [])).map String.ofList

theorem nonempty_cons (piece : List Char) (rest : List (List Char)) :
    nonempty (piece :: rest) = nonempty [piece] ++ nonempty rest := by
  rw [nonempty, ← List.singleton_append, List.filter_append, List.map_append]
  rfl

theorem nonempty_singleton (piece : String) :
    nonempty [piece.toList] = if piece.isEmpty then [] else [piece] := by
  by_cases hempty : piece.isEmpty = true
  · rw [if_pos hempty, String.isEmpty_iff.1 hempty]
    rfl
  · have hne : piece.toList ≠ [] := fun hnil =>
      hempty (String.isEmpty_iff.2 (String.toList_eq_nil_iff.1 hnil))
    rw [if_neg hempty, nonempty, List.filter_cons_of_pos (by simpa using hne), List.filter_nil,
      List.map_singleton, String.ofList_toList]

/-- The pieces that are found from some characters on are those between separators, the first of
them behind what is under way. -/
theorem foldl_addToWords (chars : List Char) (pieces : Array String × String) :
    (if (chars.foldl (addToWords isSeparator) pieces).2.isEmpty then
        (chars.foldl (addToWords isSeparator) pieces).1
      else (chars.foldl (addToWords isSeparator) pieces).1.push
        (chars.foldl (addToWords isSeparator) pieces).2).toList
      = pieces.1.toList
        ++ nonempty (chars.splitOnPPrepend isSeparator pieces.2.toList.reverse) := by
  induction chars generalizing pieces with
  | nil =>
    rw [List.foldl_nil, List.splitOnPPrepend_nil, List.reverse_reverse, nonempty_singleton]
    split
    · rw [List.append_nil]
    · rw [Array.toList_push]
  | cons c rest ih =>
    rw [List.foldl_cons, ih, addToWords, List.splitOnPPrepend_cons_eq_if]
    split
    · rw [List.reverse_reverse, nonempty_cons, nonempty_singleton, ← List.append_assoc]
      split
      next hempty =>
        rw [String.isEmpty_iff.1 hempty, List.append_nil]
        rfl
      next =>
        rw [Array.toList_push]
        rfl
    · rw [String.toList_push, List.reverse_append]
      rfl

/-- The words are the pieces between separators that are not empty. -/
theorem words_eq (isSeparator : Char → Bool) (text : String) :
    words isSeparator text = nonempty (text.toList.splitOnP isSeparator) :=
  foldl_addToWords text.toList (#[], "")

theorem mem_words {word : String} : word ∈ words isSeparator text ↔
    word ≠ "" ∧ word.toList ∈ text.toList.splitOnP isSeparator := by
  rw [words_eq, nonempty, List.mem_map]
  constructor
  · rintro ⟨piece, hpiece, rfl⟩
    obtain ⟨hmem, hne⟩ := List.mem_filter.1 hpiece
    rw [String.toList_ofList]
    exact ⟨fun hempty => by simp_all, hmem⟩
  · rintro ⟨hne, hmem⟩
    refine ⟨word.toList, List.mem_filter.2 ⟨hmem, ?_⟩, String.ofList_toList⟩
    simpa using hne

/-! ### Numerals -/

/-- The number that decimal digits stand for. -/
def valueOf (digits : List Char) : Nat :=
  Nat.ofDigits 10 (digits.reverse.map fun c => c.toNat - '0'.toNat)

theorem valueOf_cons (c : Char) (rest : List Char) :
    valueOf (c :: rest) = (c.toNat - '0'.toNat) * 10 ^ rest.length + valueOf rest := by
  rw [valueOf, List.reverse_cons, List.map_append, Nat.ofDigits_append, List.length_map,
    List.length_reverse, List.map_singleton, Nat.ofDigits_singleton, Nat.mul_comm, Nat.add_comm]
  rfl

/-- An optional plus sign and decimal digits, at least one, that stand for a number. -/
def IsNumeral (text : String) (value : Nat) : Prop :=
  ∃ digits : List Char, (text.toList = digits ∨ text.toList = '+' :: digits) ∧ digits ≠ [] ∧
    (∀ c ∈ digits, c.isDigit = true) ∧ value = valueOf digits

/-- Digits are read unless the number becomes too large, which it stays with further digits. -/
theorem parseDigits_eq_ok {bound value result : Nat} {digits : List Char} :
    parseDigits bound value digits = .ok result ↔
      (∀ c ∈ digits, c.isDigit = true) ∧ result = value * 10 ^ digits.length + valueOf digits ∧
        (digits ≠ [] → result < bound) := by
  induction digits generalizing value with
  | nil =>
    have hsame : value * 10 ^ ([] : List Char).length + valueOf [] = value := Nat.mul_one value
    rw [parseDigits, Except.ok.injEq, hsame, eq_comm]
    simp
  | cons c rest ih =>
    -- The value so far stands in front of the other digits either way.
    have hsum : (10 * value + (c.toNat - '0'.toNat)) * 10 ^ rest.length + valueOf rest
        = value * 10 ^ (rest.length + 1)
          + ((c.toNat - '0'.toNat) * 10 ^ rest.length + valueOf rest) := by
      rw [Nat.add_mul, Nat.pow_succ', ← Nat.mul_assoc, Nat.mul_comm value, Nat.add_assoc]
    have hle : 10 * value + (c.toNat - '0'.toNat)
        ≤ (10 * value + (c.toNat - '0'.toNat)) * 10 ^ rest.length + valueOf rest :=
      Nat.le_trans (Nat.le_mul_of_pos_right _ (Nat.pow_pos (by decide))) (Nat.le_add_right ..)
    rw [parseDigits, List.forall_mem_cons, valueOf_cons, List.length_cons, ← hsum]
    split
    next hdigit =>
      rw [and_iff_right hdigit]
      simp only
      split
      next hlt =>
        rw [ih]
        refine and_congr_right fun _ => and_congr_right fun hresult => ⟨fun h _ => ?_, ?_⟩
        · by_cases hlast : rest = []
          · subst hlast
            exact hresult ▸ (show (10 * value + (c.toNat - '0'.toNat)) * 1 < bound by
              rwa [Nat.mul_one])
          · exact h hlast
        · exact fun h _ => h (by simp)
      next hge =>
        refine iff_of_false (by simp) ?_
        rintro ⟨-, rfl, hlt⟩
        exact hge (Nat.lt_of_le_of_lt hle (hlt (by simp)))
    next hdigit => exact iff_of_false (by simp) fun h => hdigit h.1.1

theorem parseDigits_zero_eq_ok {bound value : Nat} {digits : List Char} (hsome : digits ≠ []) :
    parseDigits bound 0 digits = .ok value ↔
      ((∀ c ∈ digits, c.isDigit = true) ∧ value = valueOf digits) ∧ value < bound := by
  rw [parseDigits_eq_ok, Nat.zero_mul, Nat.zero_add, and_assoc]
  exact and_congr_right fun _ => and_congr_right fun _ => forall_prop_of_true hsome

/-- Exactly the numerals of numbers below the bound are read. -/
theorem parseNumeral_eq_ok {bound value : Nat} :
    parseNumeral bound text = .ok value ↔ IsNumeral text value ∧ value < bound := by
  -- A sign is no digit.
  have hsign : ∀ {digits : List Char}, text.toList = digits → digits.head? = some '+' →
      ¬ ∀ c ∈ digits, c.isDigit = true := by
    intro digits hdigits hhead hall
    exact absurd (hall '+' (List.mem_of_head? hhead)) (by decide)
  rw [parseNumeral]
  split
  next hnil =>
    refine iff_of_false (by simp) ?_
    rintro ⟨⟨digits, hdigits | hdigits, hsome, -⟩, -⟩
    · exact hsome (hdigits.symm.trans hnil)
    · exact absurd (hnil.symm.trans hdigits) (by simp)
  next hplus =>
    refine iff_of_false (by simp) ?_
    rintro ⟨⟨digits, hdigits | hdigits, hsome, hall, -⟩, -⟩
    · exact hsign hdigits (by rw [← hdigits, hplus]; rfl) hall
    · exact hsome (List.cons.inj (hplus.symm.trans hdigits)).2.symm
  next digits hne hplus =>
    rw [parseDigits_zero_eq_ok hne]
    refine and_congr_left fun _ => ⟨fun h => ⟨digits, .inr hplus, hne, h⟩, ?_⟩
    rintro ⟨other, hother | hother, -, hall, hvalue⟩
    · exact absurd hall (hsign hother (by rw [← hother, hplus]; rfl))
    · obtain rfl := (List.cons.inj (hplus.symm.trans hother)).2
      exact ⟨hall, hvalue⟩
  next hnil hplus hsigned =>
    rw [parseDigits_zero_eq_ok hnil]
    refine and_congr_left fun _ => ⟨fun h => ⟨_, .inl rfl, hnil, h⟩, ?_⟩
    rintro ⟨other, hother | hother, -, hall, hvalue⟩
    · exact hother ▸ ⟨hall, hvalue⟩
    · exact absurd hother (hsigned other)

end Postings.Text
