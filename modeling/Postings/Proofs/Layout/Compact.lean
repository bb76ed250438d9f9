/-
The compact layout read back.

* `Compact.delimited_read` — a list marks itself off, whatever its width;
* `Compact.reads_encode` — ascending items are read back, since none is wider than the last.
-/
import Postings.Layout.Compact
import Postings.Proofs.Bytes.Packing
import Postings.Proofs.Bytes.Reads

namespace Postings.Layout.Compact

theorem delimited_read : Delimited read := by
  refine Delimited.varint32.bind fun size => Delimited.byte.bind fun bits => ?_
  split
  · exact (Delimited.take _).bind fun _ => Delimited.pure _
  · exact Delimited.throw _

theorem yields_read : Yields read fun list => list.size < 2 ^ 32 := by
  refine Yields.varint32.bind fun size hsize => (Yields.any _).bind fun bits _ => ?_
  split
  · exact (Yields.any _).bind fun _ _ => Yields.pure hsize
  · exact Yields.throw _

theorem inside {list : Compact} (h : list.size < 2 ^ 32) : list.packed.Inside := by
  apply PackedArray.inside
  exact Nat.lt_of_le_of_lt (Nat.mul_le_mul (Nat.le_of_lt h) list.bits_le) (by decide)

/-- No item of an ascending list exceeds the last. -/
theorem le_getLast {items : List Item} (hascend : Ascending items) {item : Item}
    (h : item ∈ items) : item.toNat ≤ (items.getLast?.map UInt32.toNat).getD 0 := by
  induction items generalizing item with
  | nil => simp at h
  | cons first rest ih =>
    obtain ⟨hfirst, hrest⟩ := List.pairwise_cons.1 hascend
    cases rest with
    | nil =>
      rw [List.mem_singleton.1 h]
      exact Nat.le_refl _
    | cons second rest =>
      rw [List.getLast?_cons_cons]
      rcases List.mem_cons.1 h with rfl | h
      · have hlt : item.toNat < second.toNat := hfirst second (List.mem_cons_self ..)
        exact Nat.le_trans (Nat.le_of_lt hlt) (ih hrest (List.mem_cons_self ..))
      · exact ih hrest h

/-- The width at which a list is packed: the bits of its last item. -/
def width (items : List Item) : Nat :=
  Packed.bitsNeeded ((items.getLast?.map UInt32.toNat).getD 0)

theorem width_pos (items : List Item) : 1 ≤ width items :=
  Nat.succ_le_of_lt (Nat.succ_pos _)

theorem width_le (items : List Item) : width items ≤ 32 := by
  refine Packed.bitsNeeded_le ?_ (by decide)
  cases items.getLast? with
  | none => decide
  | some item => exact UInt32.toNat_lt item

theorem lt_two_pow_width {items : List Item} (hascend : Ascending items) {value : Nat}
    (h : value ∈ items.map UInt32.toNat) : value < 2 ^ width items := by
  obtain ⟨item, hitem, rfl⟩ := List.mem_map.1 h
  exact Packed.lt_two_pow_bitsNeeded (le_getLast hascend hitem)

/-- What encoding appends: the length, the width and the packed items. -/
theorem encode_eq (items : List Item) (out : ByteArray) :
    ∃ bytes : List UInt8,
      encode items out = out ++ (Varint.encode items.length
        ++ ([UInt8.ofNat (width items)] ++ bytes)).toByteArray ∧
      bytes.length = (items.length * width items + 7) / 8 ∧
      Bytes.number bytes = Packed.packedNumber (width items) (items.map UInt32.toNat) := by
  obtain ⟨bytes, hpack, hlength, hnumber⟩ := Packed.pack_eq
    (Nat.le_trans (width_le items) (by decide)) (items.map UInt32.toNat)
    ((out ++ (Varint.encode items.length).toByteArray).push (UInt8.ofNat (width items)))
  rw [List.length_map] at hlength
  refine ⟨bytes, ?_, hlength, hnumber⟩
  show Packed.pack _ (width items) (ByteArray.push _ (UInt8.ofNat (width items))) = _
  rw [hpack]
  apply ByteArray.ext
  simp [ByteArray.data_append, List.data_toByteArray]

/-- What encoding appends is read back as the same items. -/
theorem reads_encode {items : List Item} (h : items.length < 2 ^ 32) (hascend : Ascending items)
    (out : ByteArray) :
    ∃ (front : List UInt8) (list : Compact), encode items out = out ++ front.toByteArray ∧
      Reads read front list ∧ list.size = items.length ∧
      ∀ (position : Fin list.size) (hp : position.val < items.length),
        list.get position = items[position.val] := by
  have hpos := width_pos items
  have hle := width_le items
  have hle64 : width items ≤ 64 := Nat.le_trans hle (by decide)
  have hwords : items.length * width items < 2 ^ 64 :=
    Nat.lt_of_le_of_lt (Nat.mul_le_mul (Nat.le_of_lt h) hle) (by decide)
  obtain ⟨bytes, hwrite, hlength, hnumber⟩ := encode_eq items out
  have hsize : bytes.length = Packed.byteLength items.length (width items) := by
    rw [hlength, Packed.byteLength_eq hwords]
  refine ⟨_, ⟨⟨bytes.toByteArray, width items, items.length, by
    rw [List.size_toByteArray, hsize]⟩, hpos, hle⟩, hwrite, ?_, rfl, ?_⟩
  · -- The length, the width and the packed bytes, one after the other.
    refine (Reads.encoded32 h).bind ((Reads.byte (by omega)).bind ?_)
    rw [dif_pos ⟨hpos, hle⟩]
    exact (Reads.take _ bytes hsize).map _
  · intro position hp
    have hitem : (items.map UInt32.toNat)[position.val]? = some items[position.val].toNat := by
      rw [List.getElem?_map, List.getElem?_eq_getElem hp, Option.map_some]
    have hfits : ∀ value ∈ items.map UInt32.toNat, value < 2 ^ width items :=
      fun value hvalue => lt_two_pow_width hascend hvalue
    rw [← List.length_map (f := UInt32.toNat)] at hlength hwords
    rw [get, PackedArray.get_eq hle64 hwords hfits rfl hlength hnumber hitem, UInt32.ofNat_toNat]

end Postings.Layout.Compact
