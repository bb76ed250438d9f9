/-
The lines that a store is built from.

A line lists items if each of its words is the numeral of one.  Such a line is read as the set of
these items, whatever their order and however often they are repeated; any other line is
refused, with a word that is no item.

* `IsWord`, `Lists`, `Legible` — what stands on a line;
* `SetOn`, `parseLine_cases` — the set of a line that lists items;
* `SetOn.eq_iff` — lines that list the same items have the same set;
* `parseLines_cases` — the sets of all lines, or a failure.
-/
import Mathlib.Data.Finset.Card
import Postings.Build
import Postings.Proofs.ItemSet.Recode
import Postings.Proofs.Text

namespace Postings

open Text

/-- The word stands on the line: it is what is between separators there, and not empty. -/
def IsWord (line word : String) : Prop :=
  word ≠ "" ∧ word.toList ∈ line.toList.splitOnP separatesWords

/-- A word of the line is the numeral of the item. -/
def Lists (line : String) (item : Item) : Prop :=
  ∃ word, IsWord line word ∧ IsNumeral word item.toNat

/-- Every word of the line is the numeral of an item. -/
def Legible (line : String) : Prop :=
  ∀ word, IsWord line word → ∃ item : Item, IsNumeral word item.toNat

/-- The line lists items, and these are they, in ascending order. -/
structure SetOn (line : String) (items : List Item) : Prop where
  legible : Legible line
  ascending : Ascending items
  mem_iff : ∀ item, item ∈ items ↔ Lists line item

/-! ### Sets -/

/-- A list that lacks an item does not have all of them. -/
theorem length_lt_of_not_mem {items : List Item} {item : Item} (h : Ascending items)
    (hnot : item ∉ items) : items.length < 2 ^ 32 := by
  have hnodup : (items.map UInt32.toNat).Nodup :=
    List.Pairwise.map _ (fun first second hlt => Nat.ne_of_lt (UInt32.lt_iff_toNat_lt.1 hlt)) h
  have hsubset : (items.map UInt32.toNat).toFinset ⊆ (Finset.range (2 ^ 32)).erase item.toNat := by
    intro value hvalue
    obtain ⟨other, hother, rfl⟩ := List.mem_map.1 (List.mem_toFinset.1 hvalue)
    refine Finset.mem_erase.2 ⟨fun hsame => ?_, Finset.mem_range.2 other.toNat_lt⟩
    exact hnot (UInt32.toNat_inj.1 hsame ▸ hother)
  have hcard := Finset.card_le_card hsubset
  rw [List.toFinset_card_of_nodup hnodup, List.length_map,
    Finset.card_erase_of_mem (Finset.mem_range.2 item.toNat_lt), Finset.card_range] at hcard
  exact Nat.lt_of_le_of_lt hcard (by decide)

namespace SetOn

variable {line other : String} {items items' : List Item}

/-- Lines that list the same items have the same set. -/
theorem eq_iff (h : SetOn line items) (h' : SetOn other items') :
    items = items' ↔ ∀ item, Lists line item ↔ Lists other item := by
  constructor
  · rintro rfl item
    rw [← h.mem_iff, h'.mem_iff]
  · exact fun hsame => ascending_ext h.ascending h'.ascending fun item => by
      rw [h.mem_iff, hsame, h'.mem_iff]

theorem length_lt (h : SetOn line items) (hfew : ∃ item, ¬ Lists line item) :
    items.length < 2 ^ 32 := by
  obtain ⟨item, hitem⟩ := hfew
  exact length_lt_of_not_mem h.ascending fun hmem => hitem ((h.mem_iff item).1 hmem)

end SetOn

/-! ### Words -/

theorem parseNumeral_eq_ok_item {word : String} {item : Item} :
    parseNumeral (2 ^ 32) word = .ok item.toNat ↔ IsNumeral word item.toNat :=
  parseNumeral_eq_ok.trans (and_iff_left item.toNat_lt)

theorem eq_of_isNumeral {word : String} {item other : Item} (h : IsNumeral word item.toNat)
    (hother : IsNumeral word other.toNat) : item = other := by
  have hsame := parseNumeral_eq_ok_item.2 h
  rw [parseNumeral_eq_ok_item.2 hother] at hsame
  exact (UInt32.toNat_inj.1 (Except.ok.inj hsame)).symm

/-- Words are read as items one by one, up to the first that is none. -/
theorem parseWords_cases (words : List String) (found : List Item) :
    (∃ new, parseWords words found = .ok (found.reverse ++ new) ∧
      (∀ word ∈ words, ∃ item : Item, IsNumeral word item.toNat) ∧
      ∀ item : Item, item ∈ new ↔ ∃ word ∈ words, IsNumeral word item.toNat) ∨
    ∃ bad, parseWords words found = .error bad ∧ bad.word ∈ words ∧
      ∀ item : Item, ¬ IsNumeral bad.word item.toNat := by
  induction words generalizing found with
  | nil => exact .inl ⟨[], by rw [parseWords, List.append_nil], by simp, by simp⟩
  | cons word rest ih =>
    rw [parseWords]
    cases hvalue : parseNumeral (2 ^ 32) word with
    | error fault =>
      refine .inr ⟨_, rfl, List.mem_cons_self .., fun item hitem => ?_⟩
      rw [parseNumeral_eq_ok_item.2 hitem] at hvalue
      exact absurd hvalue (by simp)
    | ok value =>
      obtain ⟨hnumeral, hlt⟩ := parseNumeral_eq_ok.1 hvalue
      rw [← show (UInt32.ofNat value).toNat = value from UInt32.toNat_ofNat_of_lt' hlt]
        at hnumeral
      rcases ih (UInt32.ofNat value :: found) with
        ⟨new, hnew, hall, hmem⟩ | ⟨bad, hbad, hmem, hnone⟩
      · rw [List.reverse_cons, List.append_assoc, List.singleton_append] at hnew
        refine .inl ⟨UInt32.ofNat value :: new, hnew, ?_, fun item => ?_⟩
        · exact List.forall_mem_cons.2 ⟨⟨_, hnumeral⟩, hall⟩
        · rw [List.mem_cons, hmem]
          simp only [List.mem_cons, exists_eq_or_imp]
          exact or_congr ⟨fun heq => heq ▸ hnumeral, fun hitem => eq_of_isNumeral hitem hnumeral⟩
            Iff.rfl
      · exact .inr ⟨bad, hbad, List.mem_cons_of_mem _ hmem, hnone⟩

/-! ### Lines -/

/-- A line that lists items is read as their set; any other line has a word that is no item, and
the answer names one. -/
theorem parseLine_cases (line : String) :
    (∃ items, parseLine line = .ok items ∧ SetOn line items) ∨
    ∃ bad, parseLine line = .error bad ∧ IsWord line bad.word ∧
      ∀ item : Item, ¬ IsNumeral bad.word item.toNat := by
  rw [parseLine]
  rcases parseWords_cases (words separatesWords line) [] with
    ⟨new, hnew, hall, hmem⟩ | ⟨bad, hbad, hmem, hnone⟩
  · rw [hnew]
    refine .inl ⟨_, rfl, fun word hword => hall word (mem_words.2 hword), ascending_distinct _,
      fun item => ?_⟩
    rw [mem_distinct, List.reverse_nil, List.nil_append, hmem]
    exact exists_congr fun word => and_congr_left fun _ => mem_words
  · rw [hbad]
    exact .inr ⟨bad, rfl, mem_words.1 hmem, hnone⟩

/-- Lines are read as their sets, up to the first that does not list items. -/
theorem parseLines_cases (number : Nat) (lines : List String) (found : List (List Item)) :
    (∃ sets, parseLines number lines found = .ok (found.reverse ++ sets) ∧
      List.Forall₂ SetOn lines sets) ∨
    ∃ failure, parseLines number lines found = .error failure ∧
      ∃ line ∈ lines, ¬ Legible line := by
  induction lines generalizing number found with
  | nil => exact .inl ⟨[], by rw [parseLines, List.append_nil], .nil⟩
  | cons line rest ih =>
    rw [parseLines]
    rcases parseLine_cases line with ⟨items, hitems, hset⟩ | ⟨bad, hbad, hword, hnone⟩
    · rw [hitems]
      rcases ih (number + 1) (items :: found) with
        ⟨sets, hsets, hall⟩ | ⟨failure, hfailure, other, hother, hbad⟩
      · refine .inl ⟨items :: sets, ?_, .cons hset hall⟩
        rw [List.reverse_cons, List.append_assoc, List.singleton_append] at hsets
        exact hsets
      · exact .inr ⟨failure, hfailure, other, List.mem_cons_of_mem _ hother, hbad⟩
    · rw [hbad]
      refine .inr ⟨_, rfl, line, List.mem_cons_self .., fun hlegible => ?_⟩
      obtain ⟨item, hitem⟩ := hlegible bad.word hword
      exact hnone item hitem

/-- The sets of lines stand where the lines do. -/
theorem getElem?_of_setOn {lines : List String} {sets : List (List Item)}
    (h : List.Forall₂ SetOn lines sets) {position : Nat} {line : String}
    (hline : lines[position]? = some line) :
    ∃ items, sets[position]? = some items ∧ SetOn line items := by
  obtain ⟨hlength, hall⟩ := List.forall₂_iff_get.1 h
  obtain ⟨hposition, rfl⟩ := List.getElem?_eq_some_iff.1 hline
  exact ⟨_, List.getElem?_eq_getElem (hlength ▸ hposition), hall position _ _⟩

theorem exists_line_of_mem {lines : List String} {sets : List (List Item)}
    (h : List.Forall₂ SetOn lines sets) {items : List Item} (hitems : items ∈ sets) :
    ∃ line ∈ lines, SetOn line items := by
  obtain ⟨hlength, hall⟩ := List.forall₂_iff_get.1 h
  obtain ⟨position, hposition, rfl⟩ := List.mem_iff_getElem.1 hitems
  exact ⟨_, List.getElem_mem (hlength ▸ hposition), hall position _ _⟩

end Postings
