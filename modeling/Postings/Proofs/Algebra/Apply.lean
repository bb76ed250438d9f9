/-
Set operations on posting lists, whichever way they are computed.

An operation has three ways to its result: an empty operand decides it, two
ranges of stride 1 make a range, or the operands are merged.  All of them keep
the same items in the same order.

* `Writer.exists_finish`, `Writer.toBytes_finish`, `Writer.items_collect` — the list that items are
  collected into;
* `ItemSet.applyEmpty?_merged`, `ItemSet.applyRanges?_merged`, `ItemSet.given_merged` — the three
  ways;
* `ItemSet.apply_spec` — the result as a set, its order and its size;
* `ItemSet.apply_full` — the vector of all items, which is taken for an empty operand;
* `ItemSet.apply_cases`, `ItemSet.proper_apply` — results can be operands again.
-/
import Mathlib.Data.Finset.Card
import Mathlib.Data.Finset.SymmDiff
import Postings.Algebra.Apply
import Postings.Proofs.Algebra.Merge
import Postings.Proofs.ItemSet.Full

namespace Postings

open Layout

/-! ### Collecting -/

namespace Writer

theorem foldl_push (items : List Item) (writer : Writer) :
    (items.foldl push writer).values = Native.encodeItems items writer.values ∧
      (items.foldl push writer).count = writer.count + items.length := by
  induction items generalizing writer with
  | nil => exact ⟨rfl, rfl⟩
  | cons item rest ih =>
    obtain ⟨hvalues, hcount⟩ := ih (writer.push item)
    rw [List.foldl_cons, hvalues, hcount, List.length_cons]
    exact ⟨rfl, by simp only [push]; omega⟩

/-- Fewer than `2 ^ 32` items are counted as they are. -/
theorem size_foldl_push {items : List Item} (hfew : items.length < 2 ^ 32) :
    (items.foldl push empty).size = items.length := by
  obtain ⟨-, hcount⟩ := foldl_push items empty
  rw [size, hcount]
  simp only [empty, Nat.zero_add, Nat.mod_eq_of_lt hfew]

/-- The list that items are collected into is the one that its bytes are read back as. -/
theorem exists_finish {items : List Item} (hfew : items.length < 2 ^ 32) :
    ∃ (front : List UInt8) (form : Form),
      (items.foldl push empty).finish = ⟨form, some front.toByteArray⟩ ∧
      Reads Form.readTagged front form ∧ form.items = items := by
  obtain ⟨list, hreads, hsize, hvalues⟩ := Native.reads_encode hfew
  -- The writer has put down the bytes that the items are encoded as, and counted them.
  obtain ⟨hwritten, -⟩ := foldl_push items empty
  have hnumber := size_foldl_push hfew
  have hbytes : (items.foldl push empty).values = (Native.itemBytes items).toByteArray := by
    rw [hwritten, Native.encodeItems_eq, empty, ByteArray.empty_append]
  have hextract : (items.foldl push empty).values.extract 0
      (4 * (items.foldl push empty).size) = list.values := by
    rw [hvalues, hbytes, hnumber, ← Native.length_itemBytes, ← List.size_toByteArray]
    exact ByteArray.extract_zero_size
  refine ⟨[UInt8.ofNat Codec.native.tag] ++ (Bytes.digits items.length 4
    ++ Native.itemBytes items), .native list, ?_, ?_, ?_⟩
  · rw [finish]
    obtain ⟨values, count, hlist⟩ := list
    simp only [ItemSet.mk.injEq, Form.native.injEq, Native.mk.injEq, Option.some.injEq]
    refine ⟨⟨hextract, hnumber.trans hsize.symm⟩, ?_⟩
    rw [hbytes, hnumber, Bytes.pushLE_eq, ItemSet.tagByte, ← List.toByteArray_append,
      ← List.toByteArray_append, List.append_assoc]
  · have hform : Reads (Form.readAs Codec.native.written) _ (.native list) :=
      hreads.map Form.native
    exact Form.reads_tagged (Form.reads_announced hform)
  · exact Form.items_eq_of_get (by simp [Form.codec]) hsize (Native.get_itemBytes hvalues)

theorem items_finish {items : List Item} (hfew : items.length < 2 ^ 32) :
    (items.foldl push empty).finish.items = items := by
  obtain ⟨front, form, hfinish, -, hitems⟩ := exists_finish hfew
  rw [hfinish, ItemSet.items_eq, hitems]

/-- The collected list is sealed with its native encoding. -/
theorem toBytes_finish {items : List Item} (hfew : items.length < 2 ^ 32) :
    (items.foldl push empty).finish.toBytes = Native.encode items (ItemSet.tagByte .native) := by
  obtain ⟨hvalues, -⟩ := foldl_push items empty
  have hbytes : (items.foldl push empty).finish.toBytes
      = Bytes.pushLE (ItemSet.tagByte .native) (items.foldl push empty).size 4
        ++ (items.foldl push empty).values := rfl
  rw [hbytes, size_foldl_push hfew, hvalues, Native.encode, Native.encodeItems_eq,
    Native.encodeItems_eq, empty, ByteArray.empty_append]

theorem proper_finish {items : List Item} (hfew : items.length < 2 ^ 32)
    (hascend : Ascending items) : (items.foldl push empty).finish.Proper := by
  have hitems := items_finish hfew
  obtain ⟨front, form, hfinish, hreads, -⟩ := exists_finish hfew
  rw [hfinish] at hitems ⊢
  exact ItemSet.proper_of_reads hreads ⟨hitems ▸ hascend, hitems ▸ hfew⟩

theorem collect_eq {σ : Type} [Walk σ] (s : σ) :
    collect s = ((Walk.given s).foldl push empty).finish := by
  rw [collect, Walk.run_eq]

theorem items_collect {σ : Type} [Walk σ] {s : σ} (hfew : (Walk.given s).length < 2 ^ 32) :
    (collect s).items = Walk.given s := by
  rw [collect_eq, items_finish hfew]

theorem proper_collect {σ : Type} [Walk σ] {s : σ} (hfew : (Walk.given s).length < 2 ^ 32)
    (hascend : Ascending (Walk.given s)) : (collect s).Proper := by
  rw [collect_eq]
  exact proper_finish hfew hascend

end Writer

open scoped symmDiff in
/-- The operation on sets. -/
def SetOp.onSets (op : SetOp) (a b : Finset Item) : Finset Item :=
  match op with
  | .union => a ∪ b
  | .inter => a ∩ b
  | .diff => a \ b
  | .symmDiff => a ∆ b

theorem SetOp.sizeBound_le (op : SetOp) (left right : Nat) :
    op.sizeBound left right ≤ left + right := by
  cases op with
  | union | symmDiff => exact Nat.le_refl _
  | inter => exact Nat.le_trans (Nat.min_le_left ..) (Nat.le_add_right ..)
  | diff => exact Nat.le_add_right ..

namespace ItemSet

/-! ### Ways to a result -/

theorem Valid.items_of_isEmpty {set : ItemSet} (h : set.Valid) (hempty : set.isEmpty = true) :
    set.items = [] := by
  rw [isEmpty, decide_eq_true_eq, h.size_eq] at hempty
  exact List.eq_nil_of_length_eq_zero hempty

variable {left right result : ItemSet} {op : SetOp}

/-- An empty operand leaves the other one as it is, or nothing. -/
theorem applyEmpty?_merged (hleft : left.Valid) (hright : right.Valid)
    (h : applyEmpty? left right op = some result) :
    Merged op left.items right.items result.items := by
  unfold applyEmpty? at h
  split at h
  next hempty =>
    rw [hleft.items_of_isEmpty hempty]
    cases op with
    | union | symmDiff =>
      obtain rfl := Option.some.inj h
      exact merged_self_of_right hright.ascending rfl
    | inter | diff =>
      obtain rfl := Option.some.inj h
      exact merged_nil_of_right rfl
  next =>
    split at h
    next hempty =>
      rw [hright.items_of_isEmpty hempty]
      cases op with
      | union | symmDiff | diff =>
        obtain rfl := Option.some.inj h
        exact merged_self_of_left hleft.ascending rfl
      | inter =>
        obtain rfl := Option.some.inj h
        exact merged_nil_of_left rfl
    next => exact absurd h (by simp)

theorem toNat_max (a b : Item) : (max a b).toNat = max a.toNat b.toNat := by
  show (if a ≤ b then b else a).toNat = _
  split
  next h => exact (Nat.max_eq_right (UInt32.le_iff_toNat_le.1 h)).symm
  next h =>
    rw [UInt32.le_iff_toNat_le] at h
    exact (Nat.max_eq_left (Nat.le_of_not_le h)).symm

theorem toNat_min (a b : Item) : (min a b).toNat = min a.toNat b.toNat := by
  show (if a ≤ b then a else b).toNat = _
  split
  next h => exact (Nat.min_eq_left (UInt32.le_iff_toNat_le.1 h)).symm
  next h =>
    rw [UInt32.le_iff_toNat_le] at h
    exact (Nat.min_eq_right (Nat.le_of_not_le h)).symm

/-- A range of stride 1 holds the items between its ends. -/
theorem mem_items_of_stride {range : Progression} (h : range.stride = 1) {item : Item} :
    item ∈ (Form.range range).items ↔
      range.begin.toNat ≤ item.toNat ∧ item.toNat < range.stop := by
  have hstride : range.stride.toNat = 1 := by rw [h]; rfl
  rw [Form.items_range, List.mem_map]
  constructor
  · rintro ⟨position, hposition, rfl⟩
    rw [List.mem_range] at hposition
    have hget := Progression.toNat_get hposition
    rw [Progression.lt_size_iff, hstride] at hposition
    rw [hget, hstride]
    omega
  · rintro ⟨hbegin, hstop⟩
    -- With stride 1, an item stands as far from the begin as it exceeds it.
    have hposition : item.toNat - range.begin.toNat < range.size := by
      rw [Progression.lt_size_iff, hstride]
      omega
    refine ⟨_, List.mem_range.2 hposition, UInt32.toNat_inj.1 ?_⟩
    rw [Progression.toNat_get hposition, hstride]
    omega

/-- The range that was asked for holds the items between its ends. -/
theorem items_of_ofRange {low : Item} {high : Nat} (h : ofRange low high 1 = .ok result) :
    Ascending result.items ∧
      ∀ item, item ∈ result.items ↔ low.toNat ≤ item.toNat ∧ item.toNat < high := by
  rw [ofRange] at h
  cases hmake : Progression.make low high 1 with
  | error error =>
    rw [hmake] at h
    exact absurd h (by simp [Bind.bind, Except.bind])
  | ok range =>
    obtain ⟨rfl, rfl, hstride⟩ := Progression.eq_of_make hmake
    rw [hmake] at h
    obtain rfl := Except.ok.inj h
    rw [items_eq]
    exact ⟨ascending_range range, fun item => mem_items_of_stride hstride⟩

/-- Two ranges of stride 1 meet in a range between the greater begin and the lesser end, and make
up the range between the lesser begin and the greater end unless there is a gap. -/
theorem applyRanges?_merged (h : applyRanges? left right op = some result) :
    Merged op left.items right.items result.items := by
  rw [applyRanges?] at h
  split at h
  next a b ha hb =>
    split at h
    next hstride =>
      rw [items_eq left, items_eq right, ha, hb]
      have hmema : ∀ item, item ∈ (Form.range a).items ↔ _ :=
        fun item => mem_items_of_stride hstride.1
      have hmemb : ∀ item, item ∈ (Form.range b).items ↔ _ :=
        fun item => mem_items_of_stride hstride.2
      cases op with
      | inter =>
        simp only at h
        split at h
        next hle =>
          obtain rfl := Option.some.inj h
          refine ⟨List.Pairwise.nil, fun item => iff_of_false List.not_mem_nil ?_⟩
          simp only [SetOp.Keeps, hmema, hmemb]
          rw [toNat_max] at hle
          omega
        next =>
          obtain ⟨hascend, hmem⟩ := items_of_ofRange (eq_ok_of_toOption h)
          refine ⟨hascend, fun item => ?_⟩
          rw [hmem, SetOp.Keeps, hmema, hmemb, toNat_max]
          omega
      | union =>
        simp only at h
        split at h
        next hle =>
          -- The ranges overlap or touch, so no item between the ends is missing.
          obtain ⟨hascend, hmem⟩ := items_of_ofRange (eq_ok_of_toOption h)
          refine ⟨hascend, fun item => ?_⟩
          rw [hmem, SetOp.Keeps, hmema, hmemb, toNat_min]
          rw [toNat_max] at hle
          omega
        next => exact absurd h (by simp)
      | diff | symmDiff => exact absurd h (by simp)
    next => exact absurd h (by simp)
  next => exact absurd h (by simp)

/-- What the merge of two ascending lists gives, whether or not it fits a list. -/
theorem given_merged_of_ascending (hleft : Ascending left.items) (hright : Ascending right.items) :
    Merged op left.items right.items (Walk.given (left.merge right op)) := by
  have h := Merge.merged_start op left.cursor right.cursor
    (by rwa [toList_cursor]) (by rwa [toList_cursor])
  rwa [toList_cursor, toList_cursor] at h

theorem given_merged (hleft : left.Valid) (hright : right.Valid) :
    Merged op left.items right.items (Walk.given (left.merge right op)) :=
  given_merged_of_ascending hleft.ascending hright.ascending

/-! ### Results -/

/-- The items that a scan gives, as a set. -/
def members (set : ItemSet) : Finset Item :=
  (Source.toList set.cursor).toFinset

theorem members_eq (set : ItemSet) : set.members = set.items.toFinset := by
  rw [members, toList_cursor]

theorem card_toFinset {items : List Item} (h : Ascending items) :
    items.toFinset.card = items.length := by
  have hnodup : items.Nodup := h.imp fun {first second} hlt heq => by
    rw [heq] at hlt
    exact UInt32.lt_irrefl second hlt
  exact List.toFinset_card_of_nodup hnodup

theorem toFinset_merged {first second items : List Item} (h : Merged op first second items) :
    items.toFinset = op.onSets first.toFinset second.toFinset := by
  ext item
  rw [List.mem_toFinset, h.mem_iff]
  cases op <;> simp [SetOp.Keeps, SetOp.onSets, Finset.mem_symmDiff]

theorem length_merged {first second items : List Item} (h : Merged op first second items) :
    items.length = (op.onSets first.toFinset second.toFinset).card := by
  rw [← toFinset_merged h, card_toFinset h.ascending]

theorem Valid.card_members {set : ItemSet} (h : set.Valid) : set.members.card = set.size := by
  rw [h.size_eq, members_eq, card_toFinset h.ascending]

theorem card_onSets_le (a b : Finset Item) (op : SetOp) :
    (op.onSets a b).card ≤ op.sizeBound a.card b.card := by
  cases op with
  | union => exact Finset.card_union_le a b
  | inter =>
    exact Nat.le_min.2
      ⟨Finset.card_le_card Finset.inter_subset_left, Finset.card_le_card Finset.inter_subset_right⟩
  | diff => exact Finset.card_le_card Finset.sdiff_subset
  | symmDiff =>
    refine Nat.le_trans (Finset.card_le_card ?_) (Finset.card_union_le a b)
    intro item hitem
    rcases Finset.mem_symmDiff.1 hitem with ⟨h, -⟩ | ⟨h, -⟩
    · exact Finset.mem_union_left _ h
    · exact Finset.mem_union_right _ h

theorem length_given_lt (hleft : left.Valid) (hright : right.Valid)
    (hfew : (op.onSets left.members right.members).card < 2 ^ 32) :
    (Walk.given (left.merge right op)).length < 2 ^ 32 := by
  rwa [length_merged (given_merged hleft hright), ← members_eq left, ← members_eq right]

/-- Whichever way it is computed, the result has what the operation keeps. -/
theorem apply_merged (hleft : left.Valid) (hright : right.Valid)
    (hfew : (op.onSets left.members right.members).card < 2 ^ 32) :
    Merged op left.items right.items (left.apply right op).items := by
  rw [apply]
  split
  next result h => exact applyEmpty?_merged hleft hright h
  next =>
    split
    next result h => exact applyRanges?_merged h
    next =>
      rw [Writer.items_collect (length_given_lt hleft hright hfew)]
      exact given_merged hleft hright

/-- A result that fits a list has the members of the mathematical set, in ascending order; its
size is their number, which the operation bounds by the sizes of the operands. -/
theorem apply_spec (left right : ItemSet) (op : SetOp) (hleft : left.Valid) (hright : right.Valid)
    (hfew : (op.onSets left.members right.members).card < 2 ^ 32) :
    Ascending (Source.toList (left.apply right op).cursor) ∧
      (left.apply right op).members = op.onSets left.members right.members ∧
      (left.apply right op).size = (op.onSets left.members right.members).card ∧
      (left.apply right op).size ≤ op.sizeBound left.size right.size := by
  have hmerged := apply_merged hleft hright hfew
  have hmembers := toFinset_merged hmerged
  have hlength := length_merged hmerged
  rw [← members_eq left, ← members_eq right] at hmembers hlength
  have hsize : (left.apply right op).size = (op.onSets left.members right.members).card := by
    rw [size_eq (hlength ▸ hfew), hlength]
  refine ⟨?_, (members_eq _).trans hmembers, hsize, ?_⟩
  · rw [toList_cursor]
    exact hmerged.ascending
  · rw [hsize, ← hleft.card_members, ← hright.card_members]
    exact card_onSets_le _ _ op

theorem apply_spec_union :
    (ofAscending #[1, 3]).Valid ∧ (ofAscending #[2, 3]).Valid ∧
      ((ofAscending #[1, 3]).apply (ofAscending #[2, 3]) .union).size
        = (SetOp.union.onSets {1, 3} {2, 3}).card := by
  have hfirst : (ofAscending #[1, 3]).Valid := ⟨by decide, by decide⟩
  have hsecond : (ofAscending #[2, 3]).Valid := ⟨by decide, by decide⟩
  have hone : (ofAscending #[1, 3]).members = {1, 3} := by rw [members_eq]; rfl
  have htwo : (ofAscending #[2, 3]).members = {2, 3} := by rw [members_eq]; rfl
  have hfew : (SetOp.union.onSets (ofAscending #[1, 3]).members (ofAscending #[2, 3]).members).card
      < 2 ^ 32 := by
    rw [hone, htwo]
    decide
  refine ⟨hfirst, hsecond, ?_⟩
  rw [← hone, ← htwo]
  exact (apply_spec _ _ .union hfirst hsecond hfew).2.2.1

theorem apply_inter_of_isEmpty (h : left.isEmpty = true) : left.apply right .inter = empty := by
  rw [apply, applyEmpty?, if_pos h]

theorem onSets_inter_full (set : ItemSet) :
    SetOp.inter.onSets full.members set.members = set.members := by
  refine Finset.inter_eq_right.2 fun item _ => ?_
  rw [members_eq, items_full]
  exact List.mem_toFinset.2 (mem_allItems item)

/-- The vector of all items is taken for an empty operand: what it has in common with a list of one
item is one item, and the intersection has none. -/
theorem apply_full : ofList allItems = .ok full ∧ ofList [5] = .ok (ofAscending #[5]) ∧
    Ascending full.items ∧ Ascending (ofAscending #[5]).items ∧
    SetOp.inter.onSets full.members (ofAscending #[5]).members = {5} ∧
    Source.toList (full.apply (ofAscending #[5]) .inter).cursor = [] ∧
    (full.apply (ofAscending #[5]) .inter).size = 0 ∧
    (full.apply (ofAscending #[5]) .inter).members
      ≠ SetOp.inter.onSets full.members (ofAscending #[5]).members := by
  have hfive : (ofAscending #[5]).members = {5} := by rw [members_eq]; rfl
  have happly : full.apply (ofAscending #[5]) .inter = empty := apply_inter_of_isEmpty isEmpty_full
  have hnone : empty.members = ∅ := by rw [members_eq]; rfl
  refine ⟨ofList_allItems, rfl, ascending_full, by decide, ?_, ?_, ?_, ?_⟩
  · rw [onSets_inter_full, hfive]
  · rw [happly, toList_cursor]
    rfl
  · rw [happly]
    rfl
  · rw [happly, hnone, onSets_inter_full, hfive]
    exact (Finset.singleton_ne_empty 5).symm

/-! ### Operations on results -/

theorem applyEmpty?_cases (h : applyEmpty? left right op = some result) :
    result = left ∨ result = right ∨ result = empty := by
  unfold applyEmpty? at h
  split at h
  · cases op with
    | union | symmDiff => exact .inr (.inl (Option.some.inj h).symm)
    | inter | diff => exact .inr (.inr (Option.some.inj h).symm)
  · split at h
    · cases op with
      | union | symmDiff | diff => exact .inl (Option.some.inj h).symm
      | inter => exact .inr (.inr (Option.some.inj h).symm)
    · exact absurd h (by simp)

theorem applyRanges?_cases (h : applyRanges? left right op = some result) :
    result = empty ∨ ∃ low high, ofRange low high 1 = .ok result := by
  rw [applyRanges?] at h
  split at h
  · split at h
    · cases op with
      | inter =>
        simp only at h
        split at h
        · exact .inl (Option.some.inj h).symm
        · exact .inr ⟨_, _, eq_ok_of_toOption h⟩
      | union =>
        simp only at h
        split at h
        · exact .inr ⟨_, _, eq_ok_of_toOption h⟩
        · exact absurd h (by simp)
      | diff | symmDiff => exact absurd h (by simp)
    · exact absurd h (by simp)
  · exact absurd h (by simp)

/-- A result is an operand, or nothing, or a range, or the collected merge. -/
theorem apply_cases (h : left.apply right op = result) :
    result = left ∨ result = right ∨ result = empty ∨
      (∃ low high, ofRange low high 1 = .ok result) ∨
      result = Writer.collect (left.merge right op) := by
  rw [apply] at h
  split at h
  next hempty =>
    subst h
    rcases applyEmpty?_cases hempty with hleft | hright | hnone
    · exact .inl hleft
    · exact .inr (.inl hright)
    · exact .inr (.inr (.inl hnone))
  next =>
    split at h
    next hranges =>
      subst h
      rcases applyRanges?_cases hranges with hnone | hrange
      · exact .inr (.inr (.inl hnone))
      · exact .inr (.inr (.inr (.inl hrange)))
    next => exact .inr (.inr (.inr (.inr h.symm)))

/-- Results can be operands again, and are read back from their bytes. -/
theorem proper_apply (hleft : left.Proper) (hright : right.Proper)
    (hfew : (op.onSets left.members right.members).card < 2 ^ 32) :
    (left.apply right op).Proper := by
  generalize hresult : left.apply right op = result
  rcases apply_cases hresult with rfl | rfl | rfl | ⟨low, high, hrange⟩ | rfl
  · exact hleft
  · exact hright
  · exact proper_empty
  · exact proper_of_ofRange hrange
  · exact Writer.proper_collect (length_given_lt hleft.toValid hright.toValid hfew)
      (given_merged hleft.toValid hright.toValid).ascending

end ItemSet

end Postings
