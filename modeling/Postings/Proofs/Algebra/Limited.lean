/-
Results that are cut off when there are enough items.

A walk that is stopped by its callback has handed over a first part of what it would
have given.  So the first items that pass a filter are exactly that: the beginning of
the filtered list, counted in 32 bits because fewer are asked for.

* `Writer.collectFirst_eq` — the first items that pass;
* `ItemSet.complete_uniteFirst`, `ItemSet.complete_sweepFirst` — results can be operands again;
* `ItemSet.uniteFirst_spec` — the first items of a union, and their bytes;
* `ItemSet.sweepFirst_spec` — the first items of a sweep, and all of them as operations on whole
  lists;
* `ItemSet.sweepFirst_full` — a sweep that requires the vector of all items.
-/
import Postings.Proofs.Algebra.Sweep

namespace Postings

/-! ### The first items -/

namespace Writer

/-- Items are pushed until the writer has `count` of them. -/
theorem foldWhile_push {count : Nat} (hcount : count < 2 ^ 32) (filter : Item → Bool)
    (items : List Item) (writer : Writer) (hroom : writer.count < count) :
    Walk.foldWhile (fun (writer : Writer) (item : Item) =>
        let writer := if filter item then writer.push item else writer
        (writer, decide (writer.size < count))) writer items
      = ((items.filter filter).take (count - writer.count)).foldl push writer := by
  have hsize : ∀ writer : Writer, writer.count ≤ count → writer.size = writer.count :=
    fun writer hle => Nat.mod_eq_of_lt (Nat.lt_of_le_of_lt hle hcount)
  induction items generalizing writer with
  | nil => rw [Walk.foldWhile, List.filter_nil, List.take_nil, List.foldl_nil]
  | cons item rest ih =>
    rw [Walk.foldWhile]
    cases hfilter : filter item with
    | false =>
      simp only [hfilter, Bool.false_eq_true, if_false, hsize writer (Nat.le_of_lt hroom), hroom,
        decide_true, List.filter_cons]
      exact ih writer hroom
    | true =>
      have hpushed : (writer.push item).count = writer.count + 1 := rfl
      have htake : count - writer.count = count - (writer.push item).count + 1 := by omega
      simp only [hfilter, if_true, hsize (writer.push item) hroom, List.filter_cons, htake,
        List.take_succ_cons, List.foldl_cons]
      by_cases hmore : (writer.push item).count < count
      · rw [decide_eq_true hmore]
        exact ih _ hmore
      · -- This was the last item that there was room for.
        have hnone : count - (writer.push item).count = 0 := by omega
        rw [decide_eq_false hmore, hnone, List.take_zero, List.foldl_nil]

/-- The first items that pass are the beginning of the filtered list. -/
theorem collectFirst_eq {σ : Type} [Walk σ] {count : Nat} (hcount : count < 2 ^ 32)
    (filter : Item → Bool) (s : σ) : collectFirst count filter s
      = ((((Walk.given s).filter filter).take count).foldl push empty).finish := by
  rw [collectFirst]
  split
  next hzero => rw [hzero, List.take_zero, List.foldl_nil]
  next hpos =>
    simp only [Walk.runWhile_eq]
    rw [foldWhile_push hcount filter _ empty (Nat.pos_of_ne_zero hpos)]
    rfl

theorem complete_collectFirst {σ : Type} [Walk σ] {count : Nat} (hcount : count < 2 ^ 32)
    (filter : Item → Bool) {s : σ} (hascend : Ascending (Walk.given s)) :
    (collectFirst count filter s).Complete := by
  rw [collectFirst_eq hcount]
  refine ⟨proper_finish (Nat.lt_of_le_of_lt (List.length_take_le ..) hcount) ?_, .inr ⟨_, rfl⟩⟩
  exact (hascend.sublist List.filter_sublist).sublist (List.take_sublist ..)

end Writer

namespace ItemSet

/-- The beginning of a union is a list, also where the union is too long for one. -/
theorem complete_uniteFirst {left right : ItemSet} (hleft : left.Valid) (hright : right.Valid)
    {count : Nat} (hcount : count < 2 ^ 32) : (left.uniteFirst right count).Complete :=
  Writer.complete_collectFirst hcount _ (given_merged hleft hright).ascending

/-- The first items of a union, in ascending order and in native bytes, also where the whole union
has all `2 ^ 32` items. -/
theorem uniteFirst_spec (left right : ItemSet) (count : Nat) (hleft : Ascending left.items)
    (hright : Ascending right.items) (hcount : count < 2 ^ 32) :
    ∃ all, Ascending all ∧ all.toFinset = left.members ∪ right.members ∧
      Source.toList (left.uniteFirst right count).cursor = all.take count ∧
      (left.uniteFirst right count).size = min count (left.members ∪ right.members).card ∧
      (left.uniteFirst right count).codec = .native ∧
      ∀ tuning, encodeTagged (all.take count) .native tuning
        = .ok (left.uniteFirst right count).toBytes := by
  have hgiven : Merged .union left.items right.items _ := given_merged_of_ascending hleft hright
  generalize hall : Walk.given (left.merge right .union) = all at hgiven
  have hmembers : all.toFinset = left.members ∪ right.members := by
    rw [members_eq, members_eq]
    exact toFinset_merged hgiven
  have hfew : (all.take count).length < 2 ^ 32 :=
    Nat.lt_of_le_of_lt (List.length_take_le ..) hcount
  have hresult : left.uniteFirst right count
      = ((all.take count).foldl Writer.push Writer.empty).finish := by
    rw [uniteFirst, Writer.collectFirst_eq hcount, hall, List.filter_true]
  have hitems : (left.uniteFirst right count).items = all.take count := by
    rw [hresult, Writer.items_finish hfew]
  refine ⟨all, hgiven.ascending, hmembers, ?_, ?_, ?_, fun tuning => ?_⟩
  · rw [toList_cursor, hitems]
  · rw [size_eq (hitems ▸ hfew), hitems, List.length_take, ← hmembers,
      card_toFinset hgiven.ascending]
  · rw [hresult]
    rfl
  · rw [hresult, Writer.toBytes_finish hfew]
    rfl

/-- The two halves of all items make up all of them, and the first three are given nevertheless. -/
theorem uniteFirst_spec_halves :
    ∃ low high, ofRange 0 (2 ^ 31) 1 = .ok low ∧ ofRange 2147483648 (2 ^ 32) 1 = .ok high ∧
      Ascending low.items ∧ Ascending high.items ∧ (∀ item, item ∈ low.members ∪ high.members) ∧
      Source.toList (low.uniteFirst high 3).cursor = [0, 1, 2] ∧
      encodeTagged [0, 1, 2] .native {} = .ok (low.uniteFirst high 3).toBytes := by
  obtain ⟨low, hlow⟩ : ∃ low, ofRange 0 (2 ^ 31) 1 = .ok low := ⟨_, rfl⟩
  obtain ⟨high, hhigh⟩ : ∃ high, ofRange 2147483648 (2 ^ 32) 1 = .ok high := ⟨_, rfl⟩
  obtain ⟨hlowAscend, hlowItems⟩ := items_of_ofRange hlow
  obtain ⟨hhighAscend, hhighItems⟩ := items_of_ofRange hhigh
  have hevery : ∀ item, item ∈ low.members ∪ high.members := by
    intro item
    rw [Finset.mem_union, members_eq, members_eq, List.mem_toFinset, List.mem_toFinset, hlowItems,
      hhighItems]
    have hlt := UInt32.toNat_lt item
    rcases Nat.lt_or_ge item.toNat (2 ^ 31) with hbelow | habove
    · exact .inl ⟨Nat.zero_le _, hbelow⟩
    · exact .inr ⟨habove, hlt⟩
  obtain ⟨all, hascend, hmembers, hlist, -, -, hbytes⟩ :=
    uniteFirst_spec low high 3 hlowAscend hhighAscend (by decide)
  have hfirst : all.take 3 = [0, 1, 2] := by
    rw [eq_allItems_of_forall_mem hascend fun item =>
      List.mem_toFinset.1 (hmembers ▸ hevery item)]
    exact take_itemsBelow (by decide)
  rw [hfirst] at hlist hbytes
  exact ⟨low, high, hlow, hhigh, hlowAscend, hhighAscend, hevery, hlist, hbytes {}⟩

variable {required excluded : List ItemSet}

theorem complete_sweepFirst (h : ∀ set ∈ required, set.Valid) {count : Nat}
    (hcount : count < 2 ^ 32) (filter : Item → Bool) :
    (sweepFirst required excluded count filter).Complete := by
  rw [sweepFirst]
  split
  · exact complete_empty
  · exact Writer.complete_collectFirst hcount filter
      (Sweep.ascending_given_start fun set hset => (h set hset).ascending)

/-! ### Sweeps that stop -/

/-- The beginning of what a sweep gives and the filter passes. -/
theorem items_sweepFirst (hrequired : ∀ set ∈ required, set.Valid)
    (hexcluded : ∀ set ∈ excluded, Ascending set.items) {count : Nat} (hcount : count < 2 ^ 32)
    (filter : Item → Bool) : (sweepFirst required excluded count filter).items
      = ((Walk.given (Sweep.start required excluded)).filter filter).take count := by
  rw [sweepFirst]
  split
  next hempty =>
    -- The sweep is not even started, and would not give anything.
    have hnone : Walk.given (Sweep.start required excluded) = [] := by
      refine List.eq_nil_iff_forall_not_mem.2 fun item hitem => ?_
      have hall := (Sweep.mem_given_start (fun set hset => (hrequired set hset).ascending)
        hexcluded).1 hitem
      exact not_forall_mem_of_any_isEmpty hrequired hempty hall.2.1
    rw [hnone, List.filter_nil, List.take_nil]
    rfl
  next =>
    rw [Writer.collectFirst_eq hcount,
      Writer.items_finish (Nat.lt_of_le_of_lt (List.length_take_le ..) hcount)]

/-- What the difference of the whole intersection and the whole union has. -/
theorem valid_diff_uniteAll (hrequired : ∀ set ∈ required, set.Valid)
    (hexcluded : ∀ set ∈ excluded, set.Valid) (hfew : (anyMembers excluded).card < 2 ^ 32) :
    ((intersectAll required).apply (uniteAll excluded) .diff).Valid ∧
      ∀ item, item ∈ ((intersectAll required).apply (uniteAll excluded) .diff).items ↔
        required ≠ [] ∧ (∀ set ∈ required, item ∈ set.items) ∧
          ∀ set ∈ excluded, item ∉ set.items := by
  have hleft := valid_intersectAll hrequired
  have hright := valid_uniteAll hexcluded hfew
  have hdiff : (SetOp.diff.onSets (intersectAll required).members
      (uniteAll excluded).members).card < 2 ^ 32 := by
    refine Nat.lt_of_le_of_lt (card_onSets_le _ _ .diff) ?_
    rw [SetOp.sizeBound, hleft.card_members, hleft.size_eq]
    exact hleft.length_lt
  refine ⟨valid_apply hleft hright hdiff, fun item => ?_⟩
  rw [(apply_merged hleft hright hdiff).mem_iff, SetOp.Keeps, mem_intersectAll hrequired,
    mem_uniteAll hexcluded hfew, and_assoc]
  simp only [not_exists, not_and]

/-- The first items, in ascending order, of those that lie in all required lists and in no
excluded one and pass the filter; nothing if no list is required.  If all of them are asked for,
operations on the whole lists have the same result. -/
theorem sweepFirst_spec (required excluded : List ItemSet) (count : Nat) (filter : Item → Bool)
    (hrequired : ∀ set ∈ required, set.Valid) (hexcluded : ∀ set ∈ excluded, Ascending set.items)
    (hcount : count < 2 ^ 32) :
    ∃ all, Ascending all ∧
      (∀ item, item ∈ all ↔ filter item = true ∧ required ≠ [] ∧
        (∀ set ∈ required, item ∈ set.items) ∧ ∀ set ∈ excluded, item ∉ set.items) ∧
      Source.toList (sweepFirst required excluded count filter).cursor = all.take count ∧
      (sweepFirst required excluded count filter).size = min count all.length ∧
      (excluded = [] →
        intersectFirst required count filter = sweepFirst required excluded count filter) ∧
      ((∀ item, filter item = true) → all.length ≤ count → (anyMembers excluded).card < 2 ^ 32 →
        Source.toList (sweepFirst required excluded count filter).cursor
          = Source.toList ((intersectAll required).apply (uniteAll excluded) .diff).cursor ∧
        (sweepFirst required excluded count filter
          == (intersectAll required).apply (uniteAll excluded) .diff) = true) := by
  have hascend : ∀ set ∈ required, Ascending set.items :=
    fun set hset => (hrequired set hset).ascending
  have hitems := items_sweepFirst hrequired hexcluded hcount filter
  have hvalid : (sweepFirst required excluded count filter).Valid :=
    (complete_sweepFirst hrequired hcount filter).toValid
  refine ⟨(Walk.given (Sweep.start required excluded)).filter filter,
    (Sweep.ascending_given_start hascend).sublist List.filter_sublist, fun item => ?_, ?_, ?_, ?_,
    fun hfilter hall hfew => ?_⟩
  · rw [List.mem_filter, Sweep.mem_given_start hascend hexcluded, and_comm]
  · rw [toList_cursor, hitems]
  · rw [hvalid.size_eq, hitems, List.length_take]
  · rintro rfl
    rfl
  · have hexcludedValid := valid_of_card_anyMembers hexcluded hfew
    obtain ⟨hwhole, hmem⟩ := valid_diff_uniteAll hrequired hexcludedValid hfew
    have hsame : (sweepFirst required excluded count filter).items
        = ((intersectAll required).apply (uniteAll excluded) .diff).items := by
      refine ascending_ext hvalid.ascending hwhole.ascending fun item => ?_
      rw [hitems, List.take_of_length_le hall, List.mem_filter,
        Sweep.mem_given_start hascend hexcluded, hmem, and_iff_left (hfilter item)]
    rw [toList_cursor, toList_cursor]
    exact ⟨hsame, (hvalid.beq_eq_true hwhole).2 hsame⟩

/-- Of the items 2 and 5, which lie in both required lists and not in the excluded one, only 5
passes the filter. -/
theorem sweepFirst_spec_vectors :
    (∀ set ∈ [ofAscending #[1, 2, 3, 5], ofAscending #[2, 3, 5, 9]], set.Valid) ∧
      (∀ set ∈ [ofAscending #[3]], Ascending set.items) ∧
      Source.toList (sweepFirst [ofAscending #[1, 2, 3, 5], ofAscending #[2, 3, 5, 9]]
        [ofAscending #[3]] 1 fun item => item != 2).cursor = [5] := by
  have hfirst : (ofAscending #[1, 2, 3, 5]).items = [1, 2, 3, 5] := rfl
  have hsecond : (ofAscending #[2, 3, 5, 9]).items = [2, 3, 5, 9] := rfl
  have hthird : (ofAscending #[3]).items = [3] := rfl
  have hrequired : ∀ set ∈ [ofAscending #[1, 2, 3, 5], ofAscending #[2, 3, 5, 9]],
      set.Valid := by
    simp only [List.forall_mem_cons]
    exact ⟨⟨by decide, by decide⟩, ⟨by decide, by decide⟩, by simp⟩
  have hexcluded : ∀ set ∈ [ofAscending #[3]], Ascending set.items := by
    rw [List.forall_mem_singleton]
    decide
  obtain ⟨all, hascend, hmem, hgiven, -⟩ := sweepFirst_spec _ _ 1 (fun item => item != 2)
    hrequired hexcluded (by decide)
  have hall : all = [5] := by
    refine ascending_ext hascend (by decide) fun item => ?_
    rw [hmem]
    grind
  rw [hall] at hgiven
  exact ⟨hrequired, hexcluded, hgiven⟩

/-- The vector of all items is taken for an empty one among the required lists.  What it has in
common with a list of one item is one item, in either order, and the sweep is not even started. -/
theorem sweepFirst_full : ofList allItems = .ok full ∧ ofList [5] = .ok (ofAscending #[5]) ∧
    (∀ set ∈ [full, ofAscending #[5]], Ascending set.items) ∧
    (∀ item, (∀ set ∈ [full, ofAscending #[5]], item ∈ set.items) ↔ item = 5) ∧
    ∀ required ∈ [[full, ofAscending #[5]], [ofAscending #[5], full]],
      Source.toList (sweepFirst required [] 10 fun _ => true).cursor = [] ∧
      Source.toList (intersectFirst required 10 fun _ => true).cursor = [] := by
  have hfive : (ofAscending #[5]).items = [5] := rfl
  have hnone : ∀ required : List ItemSet, full ∈ required →
      Source.toList (sweepFirst required [] 10 fun _ => true).cursor = [] := by
    intro required hfull
    rw [sweepFirst, if_pos (List.any_eq_true.2 ⟨full, hfull, isEmpty_full⟩), toList_cursor]
    rfl
  refine ⟨ofList_allItems, rfl, ?_, fun item => ?_, fun required hrequired => ?_⟩
  · rw [List.forall_mem_cons, List.forall_mem_singleton]
    exact ⟨ascending_full, by decide⟩
  · rw [List.forall_mem_cons, List.forall_mem_singleton, items_full, hfive, List.mem_singleton]
    exact and_iff_right (mem_allItems item)
  · have hfull : full ∈ required := by
      rcases List.mem_pair.1 hrequired with rfl | rfl
      · exact List.mem_cons_self
      · exact List.mem_cons_of_mem _ List.mem_cons_self
    exact ⟨hnone required hfull, hnone required hfull⟩

end ItemSet

end Postings
