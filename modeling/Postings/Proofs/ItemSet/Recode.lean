/-
Posting lists in another codec.

A list that a codec takes is held in it with the same items, and can be taken over
again.  Members in any order are sorted first, and none occurs twice then.

* `ascending_distinct`, `mem_distinct` — members in any order;
* `ItemSet.exists_of_encodeTagged` — written bytes are read as the items they were made of;
* `ItemSet.of_encodeAscending`, `ItemSet.of_recode` — the list in a codec.
-/
import Postings.Proofs.ItemSet.Encode

namespace Postings

/-! ### Members in any order -/

theorem mem_consDistinct {item first : Item} {rest : List Item} :
    item ∈ consDistinct first rest ↔ item = first ∨ item ∈ rest := by
  cases rest with
  | nil => exact List.mem_cons
  | cons second tail =>
    rw [consDistinct]
    split
    next hsame =>
      subst hsame
      exact ⟨.inr, fun h => h.elim (fun heq => heq ▸ List.mem_cons_self ..) id⟩
    next => exact List.mem_cons

theorem ascending_consDistinct {first : Item} {rest : List Item} (hascend : Ascending rest)
    (hle : ∀ item ∈ rest, first ≤ item) : Ascending (consDistinct first rest) := by
  cases rest with
  | nil => exact List.pairwise_singleton ..
  | cons second tail =>
    rw [consDistinct]
    split
    next => exact hascend
    next hne =>
      have hlt : first < second :=
        UInt32.lt_of_le_of_ne (hle second (List.mem_cons_self ..)) hne
      exact ascending_cons_cons.2 ⟨hlt, hascend⟩

theorem mem_foldr_consDistinct {item : Item} {items : List Item} :
    item ∈ items.foldr consDistinct [] ↔ item ∈ items := by
  induction items with
  | nil => exact Iff.rfl
  | cons first rest ih => rw [List.foldr_cons, mem_consDistinct, ih, List.mem_cons]

/-- Of equal neighbours in a sorted list one is kept. -/
theorem ascending_foldr_consDistinct {items : List Item} (h : items.Pairwise (· ≤ ·)) :
    Ascending (items.foldr consDistinct []) := by
  induction items with
  | nil => exact List.Pairwise.nil
  | cons first rest ih =>
    obtain ⟨hfirst, hrest⟩ := List.pairwise_cons.1 h
    exact ascending_consDistinct (ih hrest) fun item hitem =>
      hfirst item (mem_foldr_consDistinct.1 hitem)

theorem ascending_distinct (items : List Item) : Ascending (distinct items) := by
  have htrans : ∀ first second third : Item, decide (first ≤ second) = true →
      decide (second ≤ third) = true → decide (first ≤ third) = true := by
    intro first second third hfirst hsecond
    rw [decide_eq_true_eq] at *
    exact UInt32.le_trans hfirst hsecond
  have htotal : ∀ first second : Item,
      (decide (first ≤ second) || decide (second ≤ first)) = true := by
    intro first second
    rw [Bool.or_eq_true, decide_eq_true_eq, decide_eq_true_eq]
    exact UInt32.le_total first second
  have hsorted := List.pairwise_mergeSort htrans htotal items
  simp only [decide_eq_true_eq] at hsorted
  exact ascending_foldr_consDistinct hsorted

theorem mem_distinct {item : Item} {items : List Item} : item ∈ distinct items ↔ item ∈ items := by
  rw [distinct, mem_foldr_consDistinct, List.mem_mergeSort]

namespace ItemSet

variable {items : List Item} {codec : Codec} {tuning : Tuning} {set : ItemSet}

/-! ### Encoded lists -/

/-- Written bytes are read as the items that they were made of. -/
theorem exists_of_encodeTagged {bytes : ByteArray} (hfew : items.length < 2 ^ 32)
    (hascend : Ascending items) (hblock : tuning.blockSize < 2 ^ 32)
    (h : encodeTagged items codec tuning = .ok bytes) :
    ∃ set, ofTrustedBytes bytes = .ok set ∧ set.items = items := by
  by_cases hunsupported : Unsupported codec items tuning
  · obtain ⟨cause, herror⟩ := encodeTagged_of_unsupported hunsupported
    rw [h] at herror
    exact absurd herror (by simp)
  · obtain ⟨front, form, hencode, hreads, -, hitems⟩ :=
      exists_encodeTagged hfew hascend hblock hunsupported
    rw [h] at hencode
    obtain rfl := Except.ok.inj hencode
    exact ⟨_, ofTrustedBytes_of_reads hreads (by simp), (items_eq _).trans hitems⟩

/-- A list that a codec takes is held in it as it is. -/
theorem of_encodeAscending (hfew : items.length < 2 ^ 32) (hascend : Ascending items)
    (hblock : tuning.blockSize < 2 ^ 32) (h : encodeAscending items codec tuning = .ok set) :
    set.Proper ∧ set.codec = codec ∧ set.items = items := by
  by_cases hunsupported : Unsupported codec items tuning
  · obtain ⟨cause, herror⟩ := encodeAscending_of_unsupported hunsupported
    rw [h] at herror
    exact absurd herror (by simp)
  · obtain ⟨held, hheld, hcodec, hitems, hproper⟩ :=
      exists_encodeAscending hfew hascend hblock hunsupported
    rw [h] at hheld
    obtain rfl := Except.ok.inj hheld
    exact ⟨hproper, hcodec, hitems⟩

/-- The same items in a codec. -/
theorem of_recode {recoded : ItemSet} (hset : set.Proper) (hblock : tuning.blockSize < 2 ^ 32)
    (h : set.recode codec tuning = .ok recoded) :
    recoded.Proper ∧ recoded.codec = codec ∧ recoded.items = set.items := by
  rw [recode] at h
  split at h
  next hsame =>
    obtain rfl := Except.ok.inj h
    exact ⟨hset, hsame.1.symm, rfl⟩
  next => exact of_encodeAscending hset.length_lt hset.ascending hblock h

end ItemSet

end Postings
