/-
What results are counted as.

The size of a list is a 32-bit number, and a set of items can have 2^32 members: the set of
all items, and no other.  Operands never do, but two of them may make it up.  A writer does
not notice then, and the size that it seals starts again at 0.

* `Writer.size_finish` — a writer keeps the low 32 bits of how many items it was given;
* `ItemSet.size_apply` — the size of a result is its number of members in 32 bits;
* `ItemSet.size_apply_eq_card_iff` — it is that number exactly when the number fits;
* `ItemSet.size_apply_halves`, `ItemSet.apply_halves` — two halves of all items make up a list of
  size 0, whose bytes have all of them.
-/
import Mathlib.Data.Finset.Card
import Postings.Proofs.Algebra.Apply

namespace Postings

open Layout

namespace Writer

/-- A writer keeps the low 32 bits of how many items it was given. -/
theorem size_finish (items : List Item) :
    (items.foldl push empty).finish.size = items.length % 2 ^ 32 := by
  obtain ⟨-, hcount⟩ := foldl_push items empty
  show (items.foldl push empty).count % 2 ^ 32 = _
  rw [hcount, empty, Nat.zero_add]

theorem codec_finish (writer : Writer) : writer.finish.codec = .native := rfl

/-- A writer that was given all items has lost count of them. -/
theorem items_finish_allItems : (allItems.foldl push empty).finish.items = [] := by
  have hsize := size_finish allItems
  rw [length_allItems, Nat.mod_self] at hsize
  refine List.eq_nil_of_length_eq_zero ?_
  rw [ItemSet.items_eq, Form.length_items ?_]
  · exact hsize
  · exact fun hvector => absurd ((codec_finish _).symm.trans hvector) (by decide)

/-- It seals the bytes that they are written as. -/
theorem encoded_finish_allItems : (allItems.foldl push empty).finish.encoded
    = some (Native.encode allItems (ItemSet.tagByte .native)) := by
  obtain ⟨hvalues, hcount⟩ := foldl_push allItems empty
  have hsealed : ∀ writer : Writer, writer.finish.encoded
      = some (Bytes.pushLE (ItemSet.tagByte .native) writer.size 4 ++ writer.values) := fun _ => rfl
  have hsize : (allItems.foldl push empty).size = 0 := by
    rw [size, hcount, length_allItems, empty, Nat.zero_add, Nat.mod_self]
  rw [hsealed, hsize, hvalues, Native.encodeItems_eq, ItemSet.encode_allItems, Native.encode_eq,
    Bytes.pushLE_eq, empty, ByteArray.empty_append]
  rfl

end Writer

namespace ItemSet

variable {left right result : ItemSet} {op : SetOp}

theorem size_of_merged (hmerged : Merged op left.items right.items result.items)
    (hresult : result.Valid) :
    result.size = (op.onSets left.members right.members).card % 2 ^ 32 := by
  have hlength := length_merged hmerged
  rw [← members_eq left, ← members_eq right] at hlength
  rw [hresult.size_eq, ← hlength, Nat.mod_eq_of_lt hresult.length_lt]

/-- The size of a result is its number of members in 32 bits, whichever way it is computed. -/
theorem size_apply (hleft : left.Valid) (hright : right.Valid) :
    (left.apply right op).size = (op.onSets left.members right.members).card % 2 ^ 32 := by
  rw [apply]
  split
  next result h =>
    refine size_of_merged (applyEmpty?_merged hleft hright h) ?_
    rcases applyEmpty?_cases h with rfl | rfl | rfl
    · exact hleft
    · exact hright
    · exact proper_empty.toValid
  next =>
    split
    next result h =>
      refine size_of_merged (applyRanges?_merged h) ?_
      rcases applyRanges?_cases h with rfl | ⟨low, high, hrange⟩
      · exact proper_empty.toValid
      · exact (proper_of_ofRange hrange).toValid
    next =>
      -- Only the merge may give more items than the size can count.
      have hmerged : Merged op _ _ _ := given_merged hleft hright
      have hlength := length_merged hmerged
      rw [← members_eq left, ← members_eq right] at hlength
      rw [Writer.collect_eq, Writer.size_finish, hlength]

/-- A result is counted in 32 bits, so its size is its number of members exactly when these are
fewer than `2 ^ 32`. -/
theorem size_apply_eq_card_iff (left right : ItemSet) (op : SetOp) (hleft : left.Valid)
    (hright : right.Valid) :
    (left.apply right op).size = (op.onSets left.members right.members).card % 2 ^ 32 ∧
      ((left.apply right op).size = (op.onSets left.members right.members).card ↔
        (op.onSets left.members right.members).card < 2 ^ 32) := by
  have hsize : (left.apply right op).size = _ % 2 ^ 32 := size_apply hleft hright
  refine ⟨hsize, ?_⟩
  rw [hsize]
  exact Nat.mod_eq_iff_lt (by decide)

/-- Two vectors with one item in common. -/
theorem size_apply_eq_card_iff_vectors :
    (ofAscending #[1, 3]).Valid ∧ (ofAscending #[2, 3]).Valid ∧
      (((ofAscending #[1, 3]).apply (ofAscending #[2, 3]) .symmDiff).size
          = (SetOp.symmDiff.onSets {1, 3} {2, 3}).card ↔
        (SetOp.symmDiff.onSets ({1, 3} : Finset Item) {2, 3}).card < 2 ^ 32) := by
  have hfirst : (ofAscending #[1, 3]).Valid := ⟨by decide, by decide⟩
  have hsecond : (ofAscending #[2, 3]).Valid := ⟨by decide, by decide⟩
  have hone : (ofAscending #[1, 3]).members = {1, 3} := by rw [members_eq]; rfl
  have htwo : (ofAscending #[2, 3]).members = {2, 3} := by rw [members_eq]; rfl
  refine ⟨hfirst, hsecond, ?_⟩
  rw [← hone, ← htwo]
  exact (size_apply_eq_card_iff _ _ .symmDiff hfirst hsecond).2

/-- The lower and the upper half of all items touch and make up all of them, which is one more
than a range can have.  Their union is merged, and reports that it has no item. -/
theorem size_apply_halves :
    ∃ low high, ofRange 0 (2 ^ 31) 1 = .ok low ∧ ofRange 2147483648 (2 ^ 32) 1 = .ok high ∧
      low.Valid ∧ high.Valid ∧ low.size = 2 ^ 31 ∧ high.size = 2 ^ 31 ∧
      (SetOp.union.onSets low.members high.members).card = 2 ^ 32 ∧
      (low.apply high .union).size = 0 := by
  obtain ⟨low, hlow, hlowSize⟩ : ∃ low, ofRange 0 (2 ^ 31) 1 = .ok low ∧ low.size = 2 ^ 31 :=
    ⟨_, rfl, rfl⟩
  obtain ⟨high, hhigh, hhighSize⟩ :
      ∃ high, ofRange 2147483648 (2 ^ 32) 1 = .ok high ∧ high.size = 2 ^ 31 := ⟨_, rfl, rfl⟩
  have hlowValid : low.Valid := (proper_of_ofRange hlow).toValid
  have hhighValid : high.Valid := (proper_of_ofRange hhigh).toValid
  have hdisjoint : Disjoint low.members high.members := by
    rw [Finset.disjoint_left, members_eq, members_eq]
    intro item hitem hother
    rw [List.mem_toFinset] at hitem hother
    have hbelow := (((items_of_ofRange hlow).2 item).1 hitem).2
    have habove := (((items_of_ofRange hhigh).2 item).1 hother).1
    exact absurd hbelow (Nat.not_lt.2 habove)
  have hcard : (SetOp.union.onSets low.members high.members).card = 2 ^ 32 := by
    rw [SetOp.onSets, Finset.card_union_of_disjoint hdisjoint, hlowValid.card_members,
      hhighValid.card_members, hlowSize, hhighSize]
  refine ⟨low, high, hlow, hhigh, hlowValid, hhighValid, hlowSize, hhighSize, hcard, ?_⟩
  rw [size_apply hlowValid hhighValid, hcard]

/-- The union of the two halves is sealed with the native bytes of all items, and is read as a list
that has none. -/
theorem apply_halves : ∃ low high, ofRange 0 (2 ^ 31) 1 = .ok low ∧
    ofRange 2147483648 (2 ^ 32) 1 = .ok high ∧ (low.apply high .union).codec = .native ∧
    (low.apply high .union).items = [] ∧
    (low.apply high .union).encoded = some (Native.encode allItems (tagByte .native)) := by
  obtain ⟨low, high, hlow, hhigh, happly⟩ : ∃ low high, ofRange 0 (2 ^ 31) 1 = .ok low ∧
      ofRange 2147483648 (2 ^ 32) 1 = .ok high ∧
      low.apply high .union = Writer.collect (low.merge high .union) := ⟨_, _, rfl, rfl, rfl⟩
  obtain ⟨hlowAscend, hlowItems⟩ := items_of_ofRange hlow
  obtain ⟨hhighAscend, hhighItems⟩ := items_of_ofRange hhigh
  have hmerged : Merged .union low.items high.items _ :=
    given_merged_of_ascending hlowAscend hhighAscend
  have hgiven : Walk.given (low.merge high .union) = allItems := by
    refine eq_allItems_of_forall_mem hmerged.ascending fun item => ?_
    rw [hmerged.mem_iff, SetOp.Keeps, hlowItems, hhighItems]
    have hlt := UInt32.toNat_lt item
    rcases Nat.lt_or_ge item.toNat (2 ^ 31) with hbelow | habove
    · exact .inl ⟨Nat.zero_le _, hbelow⟩
    · exact .inr ⟨habove, hlt⟩
  refine ⟨low, high, hlow, hhigh, ?_⟩
  rw [happly, Writer.collect_eq, hgiven]
  exact ⟨Writer.codec_finish _, Writer.items_finish_allItems, Writer.encoded_finish_allItems⟩

end ItemSet

end Postings
