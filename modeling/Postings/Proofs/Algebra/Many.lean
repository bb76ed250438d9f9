/-
Operations on any number of posting lists.

A union or an intersection of many lists is a tree of binary operations.  Every union
on the way is part of the whole one, so none of them is too long if the whole one is
not; an intersection is never longer than its operands.

* `ItemSet.valid_apply`, `ItemSet.complete_apply`, `ItemSet.complete_of_applyAs` — results of one
  operation;
* `ItemSet.Closed` — properties of lists that operations hand on to their results;
* `ItemSet.anyMembers` — the members of any of some lists;
* `Schedule.Fits`, `Schedule.Keeps`, `ItemSet.Closed.run` — whole trees of operations: none comes to
  all items, and what is kept;
* `ItemSet.Closed.run_union`, `ItemSet.Closed.run_inter` — trees of unions and of intersections;
* `ItemSet.mem_uniteAll`, `ItemSet.mem_intersectAll` — the items of the union and of the
  intersection of many lists;
* `ItemSet.complete_uniteAll`, `ItemSet.complete_intersectAll` — results can be operands again;
* `ItemSet.uniteAll_intersectAll_spec` — both, whichever way they are worked out.
-/
import Postings.Proofs.Algebra.Apply
import Postings.Proofs.Algebra.Schedule
import Postings.Proofs.ItemSet.Complete

namespace Postings

namespace ItemSet

/-! ### One operation -/

variable {left right result : ItemSet} {op : SetOp}

theorem valid_apply (hleft : left.Valid) (hright : right.Valid)
    (hfew : (op.onSets left.members right.members).card < 2 ^ 32) :
    (left.apply right op).Valid := by
  have hmerged := apply_merged hleft hright hfew
  have hlength := length_merged hmerged
  rw [← members_eq left, ← members_eq right] at hlength
  exact ⟨hmerged.ascending, hlength ▸ hfew⟩

theorem size_apply_of_few (hleft : left.Valid) (hright : right.Valid)
    (hfew : (op.onSets left.members right.members).card < 2 ^ 32) :
    (left.apply right op).size = (op.onSets left.members right.members).card := by
  rw [(valid_apply hleft hright hfew).size_eq, length_merged (apply_merged hleft hright hfew),
    ← members_eq left, ← members_eq right]

theorem complete_apply (hleft : left.Complete) (hright : right.Complete)
    (hfew : (op.onSets left.members right.members).card < 2 ^ 32) :
    (left.apply right op).Complete := by
  refine ⟨proper_apply hleft.toProper hright.toProper hfew, ?_⟩
  generalize hresult : left.apply right op = result
  rcases apply_cases hresult with rfl | rfl | rfl | ⟨low, high, hrange⟩ | rfl
  · exact hleft.at_hand
  · exact hright.at_hand
  · exact .inl rfl
  · exact (complete_of_ofRange hrange).at_hand
  · exact .inr ⟨_, rfl⟩

theorem complete_of_applyAs {codec : Codec} {tuning : Tuning} (hleft : left.Complete)
    (hright : right.Complete) (hfew : (op.onSets left.members right.members).card < 2 ^ 32)
    (hblock : tuning.blockSize < 2 ^ 32) (h : left.applyAs right op codec tuning = .ok result) :
    result.Complete := by
  have hmerge : ∀ {result : ItemSet}, encodeAscending
      (Walk.run Array.push #[] (left.merge right op)).toList codec tuning = .ok result →
        result.Complete := by
    rw [Walk.toList_run_push]
    exact complete_of_encodeAscending (length_given_lt hleft.toValid hright.toValid hfew)
      (given_merged hleft.toValid hright.toValid).ascending hblock
  cases codec with
  | native | vector => exact hmerge h
  | range | compact | line | frame =>
    exact complete_of_recode (complete_apply hleft hright hfew) hblock h

/-! ### Many operations -/

/-- What the empty list has, no list has but valid ones, and operands hand on to every result that
fits a list. -/
structure Closed (P : ItemSet → Prop) : Prop where
  empty : P ItemSet.empty
  valid : ∀ set, P set → set.Valid
  apply : ∀ left right op, P left → P right →
    (SetOp.onSets op left.members right.members).card < 2 ^ 32 → P (left.apply right op)

theorem closed_valid : Closed Valid :=
  ⟨proper_empty.toValid, fun _ h => h, fun _ _ _ => valid_apply⟩

theorem closed_complete : Closed Complete :=
  ⟨complete_empty, fun _ h => h.toValid, fun _ _ _ => complete_apply⟩

variable {sets : List ItemSet} {item : Item} {P : ItemSet → Prop}

/-- The members of any of some lists. -/
def anyMembers (sets : List ItemSet) : Finset Item :=
  (sets.flatMap items).toFinset

theorem mem_anyMembers : item ∈ anyMembers sets ↔ ∃ set ∈ sets, item ∈ set.items := by
  rw [anyMembers, List.mem_toFinset, List.mem_flatMap]

theorem anyMembers_congr {other : List ItemSet} (hsame : ∀ set, set ∈ other ↔ set ∈ sets) :
    anyMembers other = anyMembers sets := by
  ext item
  simp only [mem_anyMembers, hsame]

theorem anyMembers_append (first second : List ItemSet) :
    anyMembers (first ++ second) = anyMembers first ∪ anyMembers second := by
  rw [anyMembers, List.flatMap_append, List.toFinset_append]
  rfl

/-- Lists whose union fits a list fit one themselves. -/
theorem valid_of_card_anyMembers (hascend : ∀ set ∈ sets, Ascending set.items)
    (hfew : (anyMembers sets).card < 2 ^ 32) : ∀ set ∈ sets, set.Valid := by
  intro set hset
  refine ⟨hascend set hset, ?_⟩
  rw [← card_toFinset (hascend set hset)]
  refine Nat.lt_of_le_of_lt (Finset.card_le_card fun item hitem => ?_) hfew
  exact mem_anyMembers.2 ⟨set, hset, List.mem_toFinset.1 hitem⟩

end ItemSet

/-! ### Schedules -/

namespace Schedule

variable {op : SetOp} {schedule : Schedule} {item : Item}

/-- No operation of a schedule comes to all `2 ^ 32` items. -/
def Fits (op : SetOp) : Schedule → Prop
  | one _ => True
  | inTurn lower upper | atOnce lower upper =>
    lower.Fits op ∧ upper.Fits op ∧
      (op.onSets (lower.run op).members (upper.run op).members).card < 2 ^ 32

/-- Whether an item is kept, by the lists that hold it. -/
def Keeps (op : SetOp) (item : Item) : Schedule → Prop
  | one set => item ∈ set.items
  | inTurn lower upper | atOnce lower upper =>
    op.Keeps (lower.Keeps op item) (upper.Keeps op item)

theorem keeps_union :
    schedule.Keeps .union item ↔ ∃ set ∈ schedule.sets, item ∈ set.items := by
  induction schedule with
  | one set => simp [Keeps, sets]
  | inTurn lower upper ihLower ihUpper | atOnce lower upper ihLower ihUpper =>
    rw [Keeps, ihLower, ihUpper, sets, SetOp.Keeps]
    simp only [List.mem_append, or_and_right, exists_or]

theorem keeps_inter :
    schedule.Keeps .inter item ↔ ∀ set ∈ schedule.sets, item ∈ set.items := by
  induction schedule with
  | one set => simp [Keeps, sets]
  | inTurn lower upper ihLower ihUpper | atOnce lower upper ihLower ihUpper =>
    rw [Keeps, ihLower, ihUpper, sets, SetOp.Keeps, List.forall_mem_append]

end Schedule

namespace ItemSet

variable {P : ItemSet → Prop} {op : SetOp} {schedule : Schedule} {sets : List ItemSet}
  {item : Item}

/-- Every operation keeps what it should of operands that have what they should. -/
theorem Closed.run (hclosed : Closed P) (hsets : ∀ set ∈ schedule.sets, P set)
    (hfits : schedule.Fits op) : P (schedule.run op) ∧
      ∀ item, item ∈ (schedule.run op).items ↔ schedule.Keeps op item := by
  induction schedule with
  | one set => exact ⟨hsets set (List.mem_singleton_self set), fun _ => Iff.rfl⟩
  | inTurn lower upper ihLower ihUpper | atOnce lower upper ihLower ihUpper =>
    obtain ⟨hfitsLower, hfitsUpper, hfew⟩ := hfits
    obtain ⟨hlower, hlowerItems⟩ :=
      ihLower (fun set hset => hsets set (List.mem_append_left _ hset)) hfitsLower
    obtain ⟨hupper, hupperItems⟩ :=
      ihUpper (fun set hset => hsets set (List.mem_append_right _ hset)) hfitsUpper
    have hmerged := apply_merged (hclosed.valid _ hlower) (hclosed.valid _ hupper) hfew
    refine ⟨hclosed.apply _ _ op hlower hupper hfew, fun item => ?_⟩
    rw [Schedule.Keeps, ← hlowerItems, ← hupperItems]
    exact hmerged.mem_iff item

theorem members_run_union (hsets : ∀ set ∈ schedule.sets, set.Valid)
    (hfits : schedule.Fits .union) : (schedule.run .union).members = anyMembers schedule.sets := by
  ext item
  rw [members_eq, List.mem_toFinset, (closed_valid.run hsets hfits).2, Schedule.keeps_union,
    mem_anyMembers]

/-- Every union on the way is part of the whole one, so it fits a list too. -/
theorem fits_union (hsets : ∀ set ∈ schedule.sets, set.Valid)
    (hfew : (anyMembers schedule.sets).card < 2 ^ 32) : schedule.Fits .union := by
  induction schedule with
  | one set => exact trivial
  | inTurn lower upper ihLower ihUpper | atOnce lower upper ihLower ihUpper =>
    rw [Schedule.sets, anyMembers_append] at hfew
    have hlower : ∀ set ∈ lower.sets, set.Valid :=
      fun set hset => hsets set (List.mem_append_left _ hset)
    have hupper : ∀ set ∈ upper.sets, set.Valid :=
      fun set hset => hsets set (List.mem_append_right _ hset)
    have hfitsLower := ihLower hlower
      (Nat.lt_of_le_of_lt (Finset.card_le_card Finset.subset_union_left) hfew)
    have hfitsUpper := ihUpper hupper
      (Nat.lt_of_le_of_lt (Finset.card_le_card Finset.subset_union_right) hfew)
    rw [← members_run_union hlower hfitsLower, ← members_run_union hupper hfitsUpper] at hfew
    exact ⟨hfitsLower, hfitsUpper, hfew⟩

/-- An intersection is never longer than its operands. -/
theorem fits_inter (hsets : ∀ set ∈ schedule.sets, set.Valid) : schedule.Fits .inter := by
  induction schedule with
  | one set => exact trivial
  | inTurn lower upper ihLower ihUpper | atOnce lower upper ihLower ihUpper =>
    have hlower : ∀ set ∈ lower.sets, set.Valid :=
      fun set hset => hsets set (List.mem_append_left _ hset)
    have hfitsLower := ihLower hlower
    have hfitsUpper := ihUpper fun set hset => hsets set (List.mem_append_right _ hset)
    have hvalid := (closed_valid.run hlower hfitsLower).1
    refine ⟨hfitsLower, hfitsUpper, Nat.lt_of_le_of_lt (card_onSets_le _ _ .inter) ?_⟩
    rw [SetOp.sizeBound, hvalid.card_members, hvalid.size_eq]
    exact Nat.lt_of_le_of_lt (Nat.min_le_left ..) hvalid.length_lt

theorem Closed.run_union (hclosed : Closed P) (hsets : ∀ set ∈ schedule.sets, P set)
    (hfew : (anyMembers schedule.sets).card < 2 ^ 32) :
    P (schedule.run .union) ∧ (schedule.run .union).members = anyMembers schedule.sets := by
  have hvalid : ∀ set ∈ schedule.sets, set.Valid :=
    fun set hset => hclosed.valid set (hsets set hset)
  have hfits := fits_union hvalid hfew
  exact ⟨(hclosed.run hsets hfits).1, members_run_union hvalid hfits⟩

theorem Closed.run_inter (hclosed : Closed P) (hsets : ∀ set ∈ schedule.sets, P set) :
    P (schedule.run .inter) ∧
      ∀ item, item ∈ (schedule.run .inter).items ↔ ∀ set ∈ schedule.sets, item ∈ set.items := by
  obtain ⟨hrun, hitems⟩ :=
    hclosed.run hsets (fits_inter fun set hset => hclosed.valid set (hsets set hset))
  exact ⟨hrun, fun item => (hitems item).trans Schedule.keeps_inter⟩

/-! ### Unions and intersections -/

theorem applyTree_nil (op : SetOp) : applyTree op [] = empty := by
  rw [applyTree]

theorem Closed.applyTree_union (hclosed : Closed P) (hsets : ∀ set ∈ sets, P set)
    (hfew : (anyMembers sets).card < 2 ^ 32) :
    P (applyTree .union sets) ∧ (applyTree .union sets).members = anyMembers sets := by
  by_cases hnone : sets = []
  · rw [hnone, applyTree_nil, members_eq]
    exact ⟨hclosed.empty, rfl⟩
  · have hleaves := Schedule.sets_halving 0 hnone
    have hrun := hclosed.run_union (by rwa [hleaves]) (by rwa [hleaves])
    rwa [Schedule.run_halving, hleaves] at hrun

theorem Closed.applyTree_inter (hclosed : Closed P) (hsets : ∀ set ∈ sets, P set) :
    P (applyTree .inter sets) ∧ (sets ≠ [] →
      ∀ item, item ∈ (applyTree .inter sets).items ↔ ∀ set ∈ sets, item ∈ set.items) := by
  by_cases hnone : sets = []
  · rw [hnone, applyTree_nil]
    exact ⟨hclosed.empty, fun hsome => absurd rfl hsome⟩
  · have hleaves := Schedule.sets_halving 0 hnone
    have hrun := hclosed.run_inter (by rwa [hleaves])
    rw [Schedule.run_halving, hleaves] at hrun
    exact ⟨hrun.1, fun _ => hrun.2⟩

theorem valid_uniteAll (hsets : ∀ set ∈ sets, set.Valid)
    (hfew : (anyMembers sets).card < 2 ^ 32) : (uniteAll sets).Valid :=
  (closed_valid.applyTree_union hsets hfew).1

theorem members_uniteAll (hsets : ∀ set ∈ sets, set.Valid)
    (hfew : (anyMembers sets).card < 2 ^ 32) : (uniteAll sets).members = anyMembers sets :=
  (closed_valid.applyTree_union hsets hfew).2

/-- A union has what lies in some list. -/
theorem mem_uniteAll (hsets : ∀ set ∈ sets, set.Valid) (hfew : (anyMembers sets).card < 2 ^ 32) :
    item ∈ (uniteAll sets).items ↔ ∃ set ∈ sets, item ∈ set.items := by
  rw [← List.mem_toFinset, ← members_eq, members_uniteAll hsets hfew, mem_anyMembers]

theorem complete_uniteAll (hsets : ∀ set ∈ sets, set.Complete)
    (hfew : (anyMembers sets).card < 2 ^ 32) : (uniteAll sets).Complete :=
  (closed_complete.applyTree_union hsets hfew).1

theorem mem_bySize {set : ItemSet} : set ∈ bySize sets ↔ set ∈ sets :=
  List.mem_mergeSort

theorem bySize_eq_nil : bySize sets = [] ↔ sets = [] := by
  rw [← List.length_eq_zero_iff, bySize, List.length_mergeSort, List.length_eq_zero_iff]

theorem Closed.intersectAll (hclosed : Closed P) (hsets : ∀ set ∈ sets, P set) :
    P (intersectAll sets) := by
  rw [ItemSet.intersectAll]
  split
  · exact hclosed.empty
  · exact (hclosed.applyTree_inter fun set hset => hsets set (mem_bySize.1 hset)).1

theorem valid_intersectAll (hsets : ∀ set ∈ sets, set.Valid) : (intersectAll sets).Valid :=
  closed_valid.intersectAll hsets

theorem complete_intersectAll (hsets : ∀ set ∈ sets, set.Complete) :
    (intersectAll sets).Complete :=
  closed_complete.intersectAll hsets

/-- Where some list is empty, nothing lies in all of them. -/
theorem not_forall_mem_of_any_isEmpty (hsets : ∀ set ∈ sets, set.Valid)
    (hempty : sets.any isEmpty = true) : ¬ ∀ set ∈ sets, item ∈ set.items := by
  obtain ⟨set, hset, hsetEmpty⟩ := List.any_eq_true.1 hempty
  intro hall
  have hmem := hall set hset
  rw [(hsets set hset).items_of_isEmpty hsetEmpty] at hmem
  exact List.not_mem_nil hmem

/-- An intersection has what lies in all lists, and nothing if there is no list. -/
theorem mem_intersectAll (hsets : ∀ set ∈ sets, set.Valid) :
    item ∈ (intersectAll sets).items ↔ sets ≠ [] ∧ ∀ set ∈ sets, item ∈ set.items := by
  rw [intersectAll]
  split
  next hempty =>
    exact iff_of_false List.not_mem_nil fun h => not_forall_mem_of_any_isEmpty hsets hempty h.2
  next =>
    by_cases hnone : sets = []
    · rw [bySize_eq_nil.2 hnone, applyTree_nil]
      exact iff_of_false List.not_mem_nil fun h => h.1 hnone
    · have htree := (closed_valid.applyTree_inter
        fun set hset => hsets set (mem_bySize.1 hset)).2 (mt bySize_eq_nil.1 hnone)
      rw [htree, and_iff_right hnone]
      simp only [mem_bySize]

/-! ### Every way to the result -/

/-- A union is the same over lists in any order, any number of times, in any tree. -/
theorem items_run_union (hsets : ∀ set ∈ sets, set.Valid) (hfew : (anyMembers sets).card < 2 ^ 32)
    {schedule : Schedule} (hsame : ∀ set, set ∈ schedule.sets ↔ set ∈ sets) :
    (schedule.run .union).items = (uniteAll sets).items := by
  have hany := anyMembers_congr hsame
  obtain ⟨hvalid, hmembers⟩ := closed_valid.run_union
    (fun set hset => hsets set ((hsame set).1 hset)) (hany ▸ hfew)
  refine ascending_ext hvalid.ascending (valid_uniteAll hsets hfew).ascending fun item => ?_
  rw [← List.mem_toFinset, ← members_eq, hmembers, hany, mem_anyMembers,
    mem_uniteAll hsets hfew]

/-- So is an intersection. -/
theorem items_run_inter (hsets : ∀ set ∈ sets, set.Valid) {schedule : Schedule}
    (hsame : ∀ set, set ∈ schedule.sets ↔ set ∈ sets) :
    (schedule.run .inter).items = (intersectAll sets).items := by
  obtain ⟨hvalid, hmem⟩ := closed_valid.run_inter
    fun set hset => hsets set ((hsame set).1 hset)
  obtain ⟨set, hset⟩ := schedule.exists_mem_sets
  have hsome : sets ≠ [] := List.ne_nil_of_mem ((hsame set).1 hset)
  refine ascending_ext hvalid.ascending (valid_intersectAll hsets).ascending fun item => ?_
  rw [hmem, mem_intersectAll hsets, and_iff_right hsome]
  simp only [hsame]

/-- The union has what lies in some list and the intersection what lies in all of them, in
ascending order; without a list there is nothing in either.  Neither depends on the order of the
lists, on how often one is given, on the tree that they are put in, or on the number of items from
which on the two sides of an operation are made at once. -/
theorem uniteAll_intersectAll_spec (sets : List ItemSet)
    (hascend : ∀ set ∈ sets, Ascending set.items) (hfew : (anyMembers sets).card < 2 ^ 32) :
    (Ascending (uniteAll sets).items ∧
      ∀ item, item ∈ (uniteAll sets).items ↔ ∃ set ∈ sets, item ∈ set.items) ∧
    (Ascending (intersectAll sets).items ∧
      ∀ item, item ∈ (intersectAll sets).items ↔
        sets ≠ [] ∧ ∀ set ∈ sets, item ∈ set.items) ∧
    (∀ other, (∀ set, set ∈ other ↔ set ∈ sets) →
      (uniteAll other).items = (uniteAll sets).items ∧
        (intersectAll other).items = (intersectAll sets).items) ∧
    (∀ schedule : Schedule, (∀ set, set ∈ schedule.sets ↔ set ∈ sets) →
      (schedule.run .union).items = (uniteAll sets).items ∧
        (schedule.run .inter).items = (intersectAll sets).items) ∧
    ∀ threshold, uniteAll sets = (Schedule.halving threshold sets).run .union ∧
      intersectAll sets = if sets.any isEmpty then empty
        else (Schedule.halving threshold (bySize sets)).run .inter := by
  have hsets := valid_of_card_anyMembers hascend hfew
  have hunion := valid_uniteAll hsets hfew
  have hinter := valid_intersectAll hsets
  refine ⟨⟨hunion.ascending, fun item => mem_uniteAll hsets hfew⟩,
    ⟨hinter.ascending, fun item => mem_intersectAll hsets⟩, fun other hsame => ?_,
    fun schedule hsame => ⟨items_run_union hsets hfew hsame, items_run_inter hsets hsame⟩,
    fun threshold => ?_⟩
  · have hother : ∀ set ∈ other, set.Valid := fun set hset => hsets set ((hsame set).1 hset)
    have hotherFew : (anyMembers other).card < 2 ^ 32 := anyMembers_congr hsame ▸ hfew
    have hnone : other ≠ [] ↔ sets ≠ [] := by
      simp only [ne_eq, List.eq_nil_iff_forall_not_mem, hsame]
    constructor
    · refine ascending_ext (valid_uniteAll hother hotherFew).ascending hunion.ascending
        fun item => ?_
      rw [mem_uniteAll hother hotherFew, mem_uniteAll hsets hfew]
      simp only [hsame]
    · refine ascending_ext (valid_intersectAll hother).ascending hinter.ascending fun item => ?_
      rw [mem_intersectAll hother, mem_intersectAll hsets, hnone]
      simp only [hsame]
  · rw [Schedule.run_halving, Schedule.run_halving]
    exact ⟨rfl, rfl⟩

/-- What is in either list, and in both; the intersection also from a task of its own, the other way
round. -/
theorem uniteAll_intersectAll_spec_vectors :
    (∀ set ∈ [ofAscending #[1, 2], ofAscending #[2, 3]], Ascending set.items) ∧
      (anyMembers [ofAscending #[1, 2], ofAscending #[2, 3]]).card < 2 ^ 32 ∧
      (uniteAll [ofAscending #[1, 2], ofAscending #[2, 3]]).items = [1, 2, 3] ∧
      (intersectAll [ofAscending #[1, 2], ofAscending #[2, 3]]).items = [2] ∧
      ((Schedule.atOnce (.one (ofAscending #[2, 3])) (.one (ofAscending #[1, 2]))).run .inter).items
        = [2] := by
  have hfirst : (ofAscending #[1, 2]).items = [1, 2] := rfl
  have hsecond : (ofAscending #[2, 3]).items = [2, 3] := rfl
  have hascend : ∀ set ∈ [ofAscending #[1, 2], ofAscending #[2, 3]], Ascending set.items := by
    simp only [List.forall_mem_cons, hfirst, hsecond]
    exact ⟨by decide, by decide, by simp⟩
  have hfew : (anyMembers [ofAscending #[1, 2], ofAscending #[2, 3]]).card < 2 ^ 32 := by
    simp only [anyMembers, List.flatMap_cons, List.flatMap_nil, hfirst, hsecond]
    decide
  obtain ⟨⟨hunion, hmemUnion⟩, ⟨hinter, hmemInter⟩, -, hschedule, -⟩ :=
    uniteAll_intersectAll_spec _ hascend hfew
  have hboth : (intersectAll [ofAscending #[1, 2], ofAscending #[2, 3]]).items = [2] := by
    refine ascending_ext hinter (by decide) fun item => ?_
    rw [hmemInter]
    grind
  refine ⟨hascend, hfew, ?_, hboth, ?_⟩
  · refine ascending_ext hunion (by decide) fun item => ?_
    rw [hmemUnion]
    grind
  · rw [(hschedule _ fun set => ?_).2, hboth]
    rw [Schedule.sets, Schedule.sets, Schedule.sets]
    grind

end ItemSet

end Postings
