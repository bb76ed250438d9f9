/-
Lines that list given items.

Any items can be put on a line, each as its decimal digits with a blank behind them.  The line
lists these items and no others, and it is a text of one line; so there is a text for every set
that a store could be built from.

* `digitsOf`, `isNumeral_digitsOf` — the digits of an item;
* `spell`, `splitOnP_spell` — items on a line, and the pieces between its blanks;
* `legible_spell`, `lists_spell` — what the line lists;
* `parseLines_spell` — what the text of that line is read as.
-/
import Mathlib.Data.Nat.Digits.Lemmas
import Postings.Proofs.Build.Lines

namespace Postings

open Text

/-- The decimal digits of an item behind a zero, so that the item 0 has a digit too. -/
def digitsOf (item : Item) : List Char :=
  '0' :: (Nat.digits 10 item.toNat).reverse.map Nat.digitChar

/-- Items on a line, each with a blank behind it. -/
def spell (items : List Item) : String :=
  String.ofList (items.flatMap fun item => digitsOf item ++ [' '])

variable {items : List Item} {item : Item} {word : String} {c : Char}

/-! ### Digits -/

theorem value_digitChar {digit : Nat} (h : digit < 10) :
    (Nat.digitChar digit).isDigit = true ∧ (Nat.digitChar digit).toNat - '0'.toNat = digit := by
  have hall : ∀ digit < 10, (Nat.digitChar digit).isDigit = true ∧
    (Nat.digitChar digit).toNat - '0'.toNat = digit := by decide
  exact hall digit h

theorem isDigit_of_mem_digitsOf (h : c ∈ digitsOf item) : c.isDigit = true := by
  rcases List.mem_cons.1 h with rfl | h
  · rfl
  · obtain ⟨digit, hdigit, rfl⟩ := List.mem_map.1 h
    exact (value_digitChar (Nat.digits_lt_base (by decide) (List.mem_reverse.1 hdigit))).1

theorem valueOf_digitsOf (item : Item) : valueOf (digitsOf item) = item.toNat := by
  have hvalues : ((Nat.digits 10 item.toNat).reverse.map Nat.digitChar).reverse.map
      (fun c => c.toNat - '0'.toNat) = Nat.digits 10 item.toNat := by
    rw [← List.map_reverse, List.reverse_reverse, List.map_map]
    refine (List.map_congr_left fun digit hdigit => ?_).trans (List.map_id _)
    exact (value_digitChar (Nat.digits_lt_base (by decide) hdigit)).2
  rw [digitsOf, valueOf_cons, valueOf, hvalues, Nat.ofDigits_digits, Nat.sub_self, Nat.zero_mul,
    Nat.zero_add]

theorem isNumeral_digitsOf (item : Item) :
    IsNumeral (String.ofList (digitsOf item)) item.toNat :=
  ⟨digitsOf item, .inl String.toList_ofList, List.cons_ne_nil _ _,
    fun _ h => isDigit_of_mem_digitsOf h, (valueOf_digitsOf item).symm⟩

/-- No digit separates words or lines. -/
theorem not_separates_of_isDigit (h : c.isDigit = true) :
    separatesWords c = false ∧ c ≠ '\n' := by
  have hcode : 48 ≤ c.toNat ∧ c.toNat ≤ 57 := by
    rw [Char.isDigit, Bool.and_eq_true, decide_eq_true_eq, decide_eq_true_eq] at h
    exact ⟨UInt32.le_iff_toNat_le.1 h.1, UInt32.le_iff_toNat_le.1 h.2⟩
  refine ⟨?_, ?_⟩
  · have hcomma : c ≠ ',' := by
      rintro rfl
      exact absurd hcode (by decide)
    rw [separatesWords, Bool.or_eq_false_iff, beq_eq_false_iff_ne]
    refine ⟨?_, hcomma⟩
    simp only [isBlank, Bool.or_eq_false_iff, Bool.and_eq_false_iff, decide_eq_false_iff_not,
      beq_eq_false_iff_ne]
    omega
  · rintro rfl
    exact absurd hcode (by decide)

/-! ### Pieces -/

theorem splitOnP_spell (items : List Item) :
    (spell items).toList.splitOnP separatesWords = items.map digitsOf ++ [[]] := by
  rw [spell, String.toList_ofList]
  induction items with
  | nil => rfl
  | cons item rest ih =>
    -- No digit separates words, so the piece in front ends at the blank behind it.
    rw [List.flatMap_cons, List.append_assoc, List.singleton_append,
      List.splitOnP_append_cons_of_forall_mem
        (fun c hc => (not_separates_of_isDigit (isDigit_of_mem_digitsOf hc)).1) ' ' rfl,
      ih, List.map_cons, List.cons_append]

/-- The words are the digits of the items. -/
theorem isWord_spell :
    IsWord (spell items) word ↔ ∃ item ∈ items, String.ofList (digitsOf item) = word := by
  rw [IsWord, splitOnP_spell, List.mem_append, List.mem_singleton, List.mem_map]
  constructor
  · rintro ⟨hne, ⟨item, hitem, hword⟩ | hnil⟩
    · exact ⟨item, hitem, by rw [hword, String.ofList_toList]⟩
    · exact absurd (String.toList_eq_nil_iff.1 hnil) hne
  · rintro ⟨item, hitem, rfl⟩
    refine ⟨fun hempty => ?_, .inl ⟨item, hitem, String.toList_ofList.symm⟩⟩
    have hnil := congrArg String.toList hempty
    rw [String.toList_ofList] at hnil
    exact absurd hnil (List.cons_ne_nil _ _)

theorem legible_spell (items : List Item) : Legible (spell items) := by
  intro word hword
  obtain ⟨item, -, rfl⟩ := isWord_spell.1 hword
  exact ⟨item, isNumeral_digitsOf item⟩

theorem lists_spell : Lists (spell items) item ↔ item ∈ items := by
  constructor
  · rintro ⟨word, hword, hnumeral⟩
    obtain ⟨other, hother, rfl⟩ := isWord_spell.1 hword
    rwa [eq_of_isNumeral hnumeral (isNumeral_digitsOf other)]
  · intro hitem
    exact ⟨_, isWord_spell.2 ⟨item, hitem, rfl⟩, isNumeral_digitsOf item⟩

/-! ### The text of a line -/

theorem foldl_addToLines {chars : List Char} (h : ∀ c ∈ chars, c ≠ '\n') (done : Array String)
    (last : String) :
    chars.foldl addToLines (done, last) = (done, String.ofList (last.toList ++ chars)) := by
  induction chars generalizing last with
  | nil => rw [List.foldl_nil, List.append_nil, String.ofList_toList]
  | cons c rest ih =>
    obtain ⟨hfirst, hrest⟩ := List.forall_mem_cons.1 h
    rw [List.foldl_cons, addToLines, if_neg hfirst, ih hrest, String.toList_push,
      List.append_assoc, List.singleton_append]

theorem ne_lineFeed_of_mem_spell (h : c ∈ (spell items).toList) : c ≠ '\n' := by
  rw [spell, String.toList_ofList] at h
  obtain ⟨item, -, hc⟩ := List.mem_flatMap.1 h
  rcases List.mem_append.1 hc with hdigit | hblank
  · exact (not_separates_of_isDigit (isDigit_of_mem_digitsOf hdigit)).2
  · rw [List.mem_singleton.1 hblank]
    decide

theorem spell_ne_empty (hsome : items ≠ []) : (spell items).isEmpty = false := by
  obtain ⟨item, rest, rfl⟩ := List.exists_cons_of_ne_nil hsome
  refine Bool.eq_false_iff.2 fun hempty => ?_
  have hnil := congrArg String.toList (String.isEmpty_iff.1 hempty)
  rw [spell, String.toList_ofList] at hnil
  exact absurd hnil (List.cons_ne_nil _ _)

theorem lines_spell (hsome : items ≠ []) : lines (spell items) = [spell items] := by
  have hplain : ∀ c ∈ (spell items).toList, c ≠ '\n' := fun _ => ne_lineFeed_of_mem_spell
  have hfold := foldl_addToLines hplain #[] ""
  rw [show "".toList = [] from rfl, List.nil_append, String.ofList_toList] at hfold
  rw [lines, hfold]
  simp only [spell_ne_empty hsome]
  rfl

/-- The text of a line that ascending items are put on is read as these. -/
theorem parseLines_spell (hascend : Ascending items) (hsome : items ≠ []) :
    parseLines 1 (lines (spell items)) [] = .ok [items] := by
  rw [lines_spell hsome]
  rcases parseLines_cases 1 [spell items] [] with ⟨sets, hsets, hon⟩ | ⟨_, -, line, hline, hbad⟩
  · obtain ⟨set, hset, rfl⟩ : ∃ set, SetOn (spell items) set ∧ sets = [set] := by
      cases hon with
      | cons hset hrest =>
        cases hrest
        exact ⟨_, hset, rfl⟩
    have hsame : set = items := ascending_ext hset.ascending hascend fun item => by
      rw [hset.mem_iff, lists_spell]
    rw [hsets, hsame]
    rfl
  · rw [List.mem_singleton.1 hline] at hbad
    exact absurd (legible_spell items) hbad

end Postings
