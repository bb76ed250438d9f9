/-
Results in a codec of choice.

A native list or a vector is made from a merge of its own; any other codec takes over whatever
list stands for the result, and may have nothing to do.  Either way the answer is that of putting
the items of the result in the codec.

* `Taken` — the answer of putting items in a codec: they are held in it, or it cannot take them;
* `ItemSet.taken_encodeAscending`, `ItemSet.taken_recode` — the two ways to hold a list in a
  codec;
* `ItemSet.toList_run_merge` — the separate merge gives the items of the result;
* `ItemSet.applyAs_spec` — the outcome of an operation in a codec;
* `ItemSet.applyAs_full` — the vector of all items, where the two ways part.
-/
import Postings.Proofs.Algebra.Many

namespace Postings

open Layout

/-- The answer of putting ascending items in a codec: a list in that codec with the same items,
or a refusal of items that the codec cannot hold. -/
structure Taken (items : List Item) (codec : Codec) (tuning : Tuning)
    (answer : Except Error ItemSet) : Prop where
  refused : Unsupported codec items tuning → ∃ cause, answer = .error (.unsupported cause)
  held : ¬ Unsupported codec items tuning →
    ∃ result, answer = .ok result ∧ result.codec = codec ∧ Source.toList result.cursor = items

namespace ItemSet

variable {set left right : ItemSet} {items : List Item} {op : SetOp} {codec : Codec}
  {tuning : Tuning}

/-! ### Lists in a codec -/

theorem taken_encodeAscending (hfew : items.length < 2 ^ 32) (hascend : Ascending items)
    (hblock : tuning.blockSize < 2 ^ 32) :
    Taken items codec tuning (encodeAscending items codec tuning) := by
  refine ⟨encodeAscending_of_unsupported, fun hsupported => ?_⟩
  obtain ⟨result, hresult, hcodec, hitems, -⟩ :=
    exists_encodeAscending hfew hascend hblock hsupported
  exact ⟨result, hresult, hcodec, (toList_cursor result).trans hitems⟩

/-- A list held as a range is a progression. -/
theorem isProgression_of_codec (h : set.codec = .range) :
    Progression.IsProgression set.items := by
  rw [items_eq]
  rw [ItemSet.codec] at h
  cases hform : set.form with
  | range range =>
    rw [Form.items_range]
    refine ⟨range.begin.toNat, range.stride.toNat, range.stride_pos, fun position hp => ?_⟩
    rw [List.length_map, List.length_range] at hp
    rw [List.getElem_map, List.getElem_range, Progression.toNat_get hp]
  | native list | vector values | compact list | line list | frame list =>
    rw [hform] at h
    exact absurd h (by simp [Form.codec])

/-- A list that is taken over as it is was not refused: a range holds a progression, and frames
are always made anew. -/
theorem taken_recode (hset : set.Valid) (hblock : tuning.blockSize < 2 ^ 32) :
    Taken set.items codec tuning (set.recode codec tuning) := by
  rw [recode]
  split
  next hsame =>
    refine ⟨fun hunsupported => ?_, fun _ => ⟨set, rfl, hsame.1.symm, toList_cursor set⟩⟩
    rcases hunsupported with ⟨hrange, hnot⟩ | ⟨hframe, -⟩
    · exact absurd (isProgression_of_codec (hsame.1.symm.trans hrange)) hnot
    · exact absurd hframe hsame.2
  next => exact taken_encodeAscending hset.length_lt hset.ascending hblock

/-! ### Operations in a codec -/

/-- The merge for native lists and vectors gives the items of the result, however that was
found. -/
theorem toList_run_merge (hleft : left.Valid) (hright : right.Valid)
    (hfew : (op.onSets left.members right.members).card < 2 ^ 32) :
    (Walk.run Array.push #[] (left.merge right op)).toList = (left.apply right op).items := by
  have hgiven : Merged op left.items right.items _ := given_merged hleft hright
  have happly := apply_merged hleft hright hfew
  rw [Walk.toList_run_push]
  refine ascending_ext hgiven.ascending happly.ascending fun item => ?_
  rw [hgiven.mem_iff, happly.mem_iff]

theorem taken_applyAs (hleft : left.Valid) (hright : right.Valid)
    (hfew : (op.onSets left.members right.members).card < 2 ^ 32)
    (hblock : tuning.blockSize < 2 ^ 32) :
    Taken (left.apply right op).items codec tuning (left.applyAs right op codec tuning) := by
  have hresult := valid_apply hleft hright hfew
  cases codec with
  | native | vector =>
    simp only [applyAs]
    rw [toList_run_merge hleft hright hfew]
    exact taken_encodeAscending hresult.length_lt hresult.ascending hblock
  | range | compact | line | frame => exact taken_recode hresult hblock

/-- A result that fits a list is given in the codec that was asked for, with the items that the
operation gives by itself, unless it is no progression and a range was asked for, or frames of
size zero. -/
theorem applyAs_spec (left right : ItemSet) (op : SetOp) (codec : Codec) (tuning : Tuning)
    (hleft : left.Valid) (hright : right.Valid)
    (hfew : (op.onSets left.members right.members).card < 2 ^ 32)
    (hblock : tuning.blockSize < 2 ^ 32) :
    ∃ items, Ascending items ∧ items.toFinset = op.onSets left.members right.members ∧
      Source.toList (left.apply right op).cursor = items ∧
      Taken items codec tuning (left.applyAs right op codec tuning) := by
  have hmerged := apply_merged hleft hright hfew
  refine ⟨(left.apply right op).items, hmerged.ascending, ?_, toList_cursor _,
    taken_applyAs hleft hright hfew hblock⟩
  rw [toFinset_merged hmerged, ← members_eq, ← members_eq]

theorem applyAs_spec_range :
    (ofAscending #[1, 3]).Valid ∧ (ofAscending #[2, 3]).Valid ∧
      ∃ result, (ofAscending #[1, 3]).applyAs (ofAscending #[2, 3]) .union .range {} = .ok result ∧
        result.codec = .range ∧ Source.toList result.cursor = [1, 2, 3] := by
  have hfirst : (ofAscending #[1, 3]).Valid := ⟨by decide, by decide⟩
  have hsecond : (ofAscending #[2, 3]).Valid := ⟨by decide, by decide⟩
  have hunion : SetOp.union.onSets (ofAscending #[1, 3]).members (ofAscending #[2, 3]).members
      = [1, 2, 3].toFinset := by
    rw [members_eq, members_eq]
    rfl
  obtain ⟨items, hascend, hmembers, -, htaken⟩ :=
    applyAs_spec _ _ .union .range {} hfirst hsecond (by rw [hunion]; decide) (by decide)
  have hitems : items = [1, 2, 3] :=
    ascending_ext hascend (by decide) fun item => by
      rw [← List.mem_toFinset, hmembers, hunion, List.mem_toFinset]
  subst hitems
  refine ⟨hfirst, hsecond, htaken.held ?_⟩
  rintro (⟨-, hnot⟩ | ⟨hframe, -⟩)
  · exact hnot (Progression.isProgression_cons_cons.2 (by decide))
  · exact absurd hframe (by decide)

/-- The separate merge reads all items of the vector that an operation by itself takes for an empty
operand: what both have in common is in the vector that is asked for, and not in the result. -/
theorem applyAs_full : ofList allItems = .ok full ∧ ofList [5] = .ok (ofAscending #[5]) ∧
    (SetOp.inter.onSets full.members (ofAscending #[5]).members).card < 2 ^ 32 ∧
    full.applyAs (ofAscending #[5]) .inter .vector {} = .ok (ofAscending #[5]) ∧
    Source.toList (ofAscending #[5]).cursor = [5] ∧
    Source.toList (full.apply (ofAscending #[5]) .inter).cursor = [] := by
  have hfive : (ofAscending #[5]).members = {5} := by rw [members_eq]; rfl
  have happly : full.apply (ofAscending #[5]) .inter = empty := apply_inter_of_isEmpty isEmpty_full
  have hgiven : Merged .inter full.items [5] (Walk.given (full.merge (ofAscending #[5]) .inter)) :=
    given_merged_of_ascending ascending_full
      (show Ascending (ofAscending #[5]).items by decide)
  have hmerge : Walk.given (full.merge (ofAscending #[5]) .inter) = [5] := by
    refine ascending_ext hgiven.ascending (by decide) fun item => ?_
    rw [hgiven.mem_iff, SetOp.Keeps, items_full]
    exact and_iff_right (mem_allItems item)
  refine ⟨ofList_allItems, rfl, ?_, ?_, ?_, ?_⟩
  · rw [onSets_inter_full, hfive]
    decide
  · rw [applyAs, Walk.toList_run_push, hmerge]
    rfl
  · rw [toList_cursor]
    rfl
  · rw [happly, toList_cursor]
    rfl

end ItemSet

end Postings
