/-
The vector of all items.

Every item once makes 2^32 of them, one more than a size can count.  A vector may hold them:
it reports that it is empty while a scan gives every item, and its native bytes announce that
no item follows.  Whatever asks such a list for its size, or reads it back from its bytes, takes it
for the empty one.

* `allItems`, `eq_allItems_of_forall_mem` — the only ascending list that has every item;
* `ItemSet.full`, `ItemSet.isEmpty_full` — the vector that is taken for empty;
* `ItemSet.ofTrustedBytes_encode_allItems`, `ItemSet.ofBytes_encode_allItems` — five bytes of its
  native bytes are read, as the empty list.

None of the proofs here evaluates the list: it is only counted and compared.
-/
import Postings.Proofs.ItemSet.Encode

namespace Postings

open Layout

/-- The items below a number, in ascending order. -/
def itemsBelow (count : Nat) : List Item :=
  (List.range count).map UInt32.ofNat

section ItemsBelow

variable {count : Nat}

theorem length_itemsBelow : (itemsBelow count).length = count := by
  rw [itemsBelow, List.length_map, List.length_range]

theorem mem_itemsBelow {item : Item} (h : item.toNat < count) : item ∈ itemsBelow count :=
  List.mem_map.2 ⟨item.toNat, List.mem_range.2 h, UInt32.ofNat_toNat⟩

theorem ascending_itemsBelow (hcount : count ≤ 2 ^ 32) : Ascending (itemsBelow count) := by
  rw [Ascending, itemsBelow, List.pairwise_map]
  refine List.pairwise_lt_range.imp_of_mem fun {lower upper} hlower hupper hlt => ?_
  have hlower := Nat.lt_of_lt_of_le (List.mem_range.1 hlower) hcount
  have hupper := Nat.lt_of_lt_of_le (List.mem_range.1 hupper) hcount
  rw [UInt32.lt_iff_toNat_lt, UInt32.toNat_ofNat_of_lt' hlower, UInt32.toNat_ofNat_of_lt' hupper]
  exact hlt

theorem take_itemsBelow {fewer : Nat} (h : fewer ≤ count) :
    (itemsBelow count).take fewer = itemsBelow fewer := by
  rw [itemsBelow, ← List.map_take, List.take_range, Nat.min_eq_left h, itemsBelow]

theorem itemsBelow_succ : ∃ rest, itemsBelow (count + 1) = 0 :: rest :=
  ⟨_, by rw [itemsBelow, List.range_succ_eq_map, List.map_cons]; rfl⟩

end ItemsBelow

/-- Every item once, in ascending order. -/
def allItems : List Item :=
  itemsBelow (2 ^ 32)

theorem length_allItems : allItems.length = 2 ^ 32 :=
  length_itemsBelow

theorem mem_allItems (item : Item) : item ∈ allItems :=
  mem_itemsBelow (UInt32.toNat_lt item)

theorem ascending_allItems : Ascending allItems :=
  ascending_itemsBelow (Nat.le_refl _)

/-- The only ascending list of all items. -/
theorem eq_allItems_of_forall_mem {items : List Item} (hascend : Ascending items)
    (hall : ∀ item, item ∈ items) : items = allItems :=
  ascending_ext hascend ascending_allItems fun item => iff_of_true (hall item) (mem_allItems item)

namespace ItemSet

/-! ### The vector -/

/-- Every item, held as a vector. -/
def full : ItemSet :=
  ofAscending allItems.toArray

/-- It is built like any other list. -/
theorem ofList_allItems : ofList allItems = .ok full := by
  rw [ofList, firstDescent?_eq_none.2 ascending_allItems, full]

theorem items_ofAscending (items : Array Item) : (ofAscending items).items = items.toList := rfl

/-- A vector is counted in 32 bits. -/
theorem size_ofAscending (items : Array Item) : (ofAscending items).size = items.size % 2 ^ 32 :=
  rfl

theorem toBytes_ofAscending (items : Array Item) :
    (ofAscending items).toBytes = Native.encode items.toList (tagByte .native) := rfl

theorem items_full : full.items = allItems := by
  rw [full, items_ofAscending]

theorem ascending_full : Ascending full.items := by
  rw [items_full]
  exact ascending_allItems

theorem size_full : full.size = 0 := by
  rw [full, size_ofAscending, List.size_toArray, length_allItems, Nat.mod_self]

theorem isEmpty_full : full.isEmpty = true :=
  decide_eq_true size_full

/-! ### Its native bytes -/

/-- What the native bytes of no item are read as. -/
structure Blank (set : ItemSet) : Prop where
  codec_eq : set.codec = .native
  items_eq : set.items = []
  encoded_eq : set.encoded = some (Native.encode [] (tagByte .native))

theorem Blank.byteLength_eq {set : ItemSet} (h : set.Blank) : set.byteLength = 5 := by
  rw [byteLength, h.encoded_eq]
  rfl

/-- The number in front of the items has lost its only bit. -/
theorem encode_allItems : Native.encode allItems (tagByte .native)
    = Native.encode [] (tagByte .native) ++ (Native.itemBytes allItems).toByteArray := by
  have hdigits : Bytes.digits allItems.length 4 = Bytes.digits 0 4 := by
    rw [length_allItems]
    rfl
  rw [Native.encode_eq, Native.encode_eq, hdigits, List.toByteArray_append,
    ByteArray.append_assoc]
  rfl

/-- The first item is 0, and so is its first byte. -/
theorem exists_itemBytes_allItems : ∃ rest, Native.itemBytes allItems = 0 :: rest := by
  obtain ⟨rest, hrest⟩ : ∃ rest, allItems = 0 :: rest := itemsBelow_succ
  refine ⟨0 :: 0 :: 0 :: Native.itemBytes rest, ?_⟩
  rw [hrest, Native.itemBytes, List.flatMap_cons]
  rfl

theorem size_encode_allItems :
    (Native.encode allItems (tagByte .native)).size = 5 + 4 * 2 ^ 32 := by
  rw [encode_allItems, ByteArray.size_append, List.size_toByteArray, Native.length_itemBytes,
    length_allItems]
  rfl

theorem encodeAscending_native {items : List Item} {tuning : Tuning} :
    encodeAscending items .native tuning
      = ofTrustedBytes (Native.encode items (tagByte .native)) := rfl

/-- The items behind the number are not looked at. -/
theorem ofTrustedBytes_encode_allItems : ∃ set, set.Blank ∧
    ofTrustedBytes (Native.encode [] (tagByte .native)) = .ok set ∧
    ofTrustedBytes (Native.encode allItems (tagByte .native)) = .ok set := by
  have hempty : Ascending ([] : List Item) := List.Pairwise.nil
  have hfew : ([] : List Item).length < 2 ^ 32 := by decide
  have hblock : Tuning.blockSize {} < 2 ^ 32 := by decide
  have hnative : ¬ Unsupported .native [] {} := by simp [Unsupported]
  obtain ⟨front, form, hwrite, hreads, hcodec, hitems⟩ :=
    exists_encodeTagged hfew hempty hblock hnative
  have hfront : Native.encode [] (tagByte .native) = front.toByteArray := Except.ok.inj hwrite
  have hset : (ItemSet.mk form (some front.toByteArray)).Blank :=
    ⟨hcodec, (ItemSet.items_eq _).trans hitems, congrArg some hfront.symm⟩
  -- The bytes of the empty list are in front of both, and nothing behind them is read.
  refine ⟨_, hset, ofTrustedBytes_of_reads hreads ?_, ofTrustedBytes_of_reads hreads ?_⟩
  · rw [hfront]
    exact List.toList_data_toByteArray ▸ List.prefix_rfl
  · rw [encode_allItems, hfront, ByteArray.data_append, Array.toList_append,
      List.toList_data_toByteArray]
    exact List.prefix_append ..

theorem ofBytes_encode_allItems : ∃ set, set.Blank ∧
    ofBytes (Native.encode allItems (tagByte .native)) = .ok set := by
  obtain ⟨set, hblank, -, hread⟩ := ofTrustedBytes_encode_allItems
  refine ⟨set, hblank, ofBytes_eq_ok.2 ⟨hread, ?_⟩⟩
  rw [hblank.items_eq]
  exact List.Pairwise.nil

/-- So are all items, when they are put in the native codec. -/
theorem exists_encode_allItems :
    ∃ set, set.Blank ∧ encode allItems .native {} = .ok set := by
  obtain ⟨set, hblank, -, hread⟩ := ofTrustedBytes_encode_allItems
  refine ⟨set, hblank, ?_⟩
  rw [encode, firstDescent?_eq_none.2 ascending_allItems]
  exact encodeAscending_native.trans hread

theorem toBytes_full : full.toBytes = Native.encode allItems (tagByte .native) := by
  rw [full, toBytes_ofAscending]

end ItemSet

end Postings
