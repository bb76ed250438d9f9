/-
Which lists are progressions, and which lists progressions are.

A list is looked through for the gap between its first two items, with differences that wrap
around below zero; asking for an ascent besides makes every difference that is accepted a true
one.  The progression that is found ends right behind the last item, which may be at 2^32, and
one with numbers of its own may end anywhere between two items.

* `Progression.toNat_eq_add_iff`, `Progression.isSteady_iff_ascending` — wrapped differences of an
  ascending list are its steps;
* `Progression.exists_detect?_iff`, `Progression.items_of_detect?` — which lists are detected;
* `Progression.map_toNat_items` — what a progression enumerates, as numbers;
* `Progression.run_read_encode` — what is written is read back to its last byte;
* `Progression.detect_and_enumerate` — all of it.
-/
import Postings.Proofs.ItemSet.Items

namespace Postings.Layout.Progression

/-! ### Lists -/

/-- Adding a stride does not leave the 32 bits just if the difference does not wrap around. -/
theorem toNat_eq_add_iff {previous item : Item} {stride : UInt32} (hstride : 0 < stride.toNat) :
    item.toNat = previous.toNat + stride.toNat ↔ previous < item ∧ item - previous = stride := by
  rw [UInt32.lt_iff_toNat_lt]
  constructor
  · intro hsum
    have hlt : previous.toNat < item.toNat := by omega
    refine ⟨hlt, UInt32.toNat_inj.1 ?_⟩
    rw [UInt32.toNat_sub_of_le _ _ (UInt32.le_iff_toNat_le.2 (Nat.le_of_lt hlt))]
    omega
  · rintro ⟨hlt, rfl⟩
    rw [UInt32.toNat_sub_of_le _ _ (UInt32.le_iff_toNat_le.2 (Nat.le_of_lt hlt))]
    omega

/-- A walk in equal steps ascends, and all its wrapped differences are the stride. -/
theorem isSteady_iff_ascending {stride : UInt32} (hstride : 0 < stride.toNat) {previous : Item}
    {items : List Item} : isSteady stride previous items = true ↔
      Ascending (previous :: items) ∧
        (previous :: items).IsChain fun first second => second - first = stride := by
  induction items generalizing previous with
  | nil => simp [isSteady, Ascending]
  | cons item rest ih =>
    rw [isSteady, Bool.and_eq_true, decide_eq_true_eq, toNat_eq_add_iff hstride, ih,
      ascending_cons_cons, List.isChain_cons_cons]
    exact and_and_and_comm

/-- A list without items, a list of one, and a strictly ascending list with one gap throughout are
progressions, and no other is. -/
theorem isProgression_iff {items : List Item} :
    IsProgression items ↔ items = [] ∨ (∃ item, items = [item]) ∨
      Ascending items ∧ ∃ gap : UInt32, items.IsChain fun first second => second - first = gap := by
  match items with
  | [] => exact iff_of_true isProgression_nil (.inl rfl)
  | [item] => exact iff_of_true (isProgression_singleton item) (.inr (.inl ⟨item, rfl⟩))
  | first :: second :: rest =>
    have hpos : first < second → 0 < (second - first).toNat := fun hlt => by
      rw [UInt32.toNat_sub_of_le _ _ (UInt32.le_of_lt hlt)]
      exact Nat.sub_pos_of_lt (UInt32.lt_iff_toNat_lt.1 hlt)
    rw [isProgression_cons_cons, Bool.and_eq_true, decide_eq_true_eq, ascending_cons_cons]
    constructor
    · rintro ⟨hlt, hsteady⟩
      obtain ⟨hascend, hchain⟩ := (isSteady_iff_ascending (hpos hlt)).1 hsteady
      exact .inr (.inr ⟨⟨hlt, hascend⟩, second - first, List.isChain_cons_cons.2 ⟨rfl, hchain⟩⟩)
    · rintro (hnil | ⟨item, hone⟩ | ⟨⟨hlt, hascend⟩, gap, hchain⟩)
      · exact absurd hnil (by simp)
      · exact absurd hone (by simp)
      · obtain ⟨rfl, hrest⟩ := List.isChain_cons_cons.1 hchain
        exact ⟨hlt, (isSteady_iff_ascending (hpos hlt)).2 ⟨hascend, hrest⟩⟩

theorem exists_detect?_iff {items : List Item} (hlength : items.length < 2 ^ 32) :
    (∃ range, detect? items = some range) ↔ IsProgression items := by
  constructor
  · rintro ⟨range, hdetect⟩
    refine Classical.not_not.1 fun hnot => ?_
    rw [detect?_eq_none hnot] at hdetect
    exact absurd hdetect (by simp)
  · intro hprogression
    obtain ⟨range, hdetect, -, -⟩ := detect?_of_isProgression hlength hprogression
    exact ⟨range, hdetect⟩

/-- The progression that is detected gives back the list. -/
theorem items_of_detect? {items : List Item} {range : Progression}
    (h : detect? items = some range) : (Form.range range).items = items := by
  have hlength := length_lt_of_detect? h
  obtain ⟨found, hfound, hsize, hget⟩ :=
    detect?_of_isProgression hlength ((exists_detect?_iff hlength).1 ⟨range, h⟩)
  obtain rfl : range = found := Option.some.inj (h.symm.trans hfound)
  rw [Form.items_range]
  apply List.ext_getElem
  · rw [List.length_map, List.length_range, hsize]
  · intro position _ hp
    rw [List.getElem_map, List.getElem_range, hget position hp]

/-! ### Progressions -/

/-- No item that a progression gives is cut off at 32 bits. -/
theorem map_toNat_items (range : Progression) :
    (Form.range range).items.map UInt32.toNat
      = (List.range range.size).map fun position =>
          range.begin.toNat + position * range.stride.toNat := by
  rw [Form.items_range, List.map_map]
  apply List.map_congr_left
  intro position hposition
  exact toNat_get (List.mem_range.1 hposition)

/-- What is written is read back, and reading stops behind its last byte. -/
theorem run_read_encode (range : Progression) (tail : ByteArray) :
    ∃ after, Read.run read (range.encode ByteArray.empty ++ tail) = .ok (range, after) ∧
      after.position = range.byteLength := by
  have hlead : Varint.encode range.begin.toNat ++ (Varint.encode range.stop
      ++ Varint.encode range.stride.toNat)
        <+: (range.encode ByteArray.empty ++ tail).data.toList := by
    simp [encode_eq, ByteArray.data_append, List.data_toByteArray]
  refine ⟨_, Read.run_of_reads (reads_encode range) hlead, ?_⟩
  rw [Reader.position_forward hlead.length_le, List.length_append, List.length_append,
    Varint.length_encode, Varint.length_encode, Varint.length_encode, byteLength, Nat.add_assoc]
  exact Nat.zero_add _

/-- Just the empty list, the lists of one item and the strictly ascending lists with one gap are
detected, and enumerated by what is found.  A progression enumerates the numbers below its end that
are its begin and whole strides, finds each where it stands, and is read back from its bytes. -/
theorem detect_and_enumerate :
    (∀ items : List Item, items.length < 2 ^ 32 →
      ((∃ range, detect? items = some range) ↔
        items = [] ∨ (∃ item, items = [item]) ∨
          Ascending items ∧
            ∃ gap : UInt32, items.IsChain fun first second => second - first = gap) ∧
      ∀ range, detect? items = some range → (Form.range range).items = items) ∧
    ∀ begin stop stride range, make begin stop stride = .ok range →
      (∀ position, position < range.size ↔ begin.toNat + position * stride.toNat < stop) ∧
      (∀ position, position < range.size →
        (range.get position).toNat = begin.toNat + position * stride.toNat) ∧
      (Form.range range).items.map UInt32.toNat
        = ((List.range range.size).map fun position => begin.toNat + position * stride.toNat) ∧
      (∀ item position, range.find? item = some position ↔
        position < range.size ∧ range.get position = item) ∧
      ∀ tail, ∃ after, Read.run read (range.encode ByteArray.empty ++ tail) = .ok (range, after) ∧
        after.position = range.byteLength := by
  refine ⟨fun items hlength => ⟨?_, fun range => items_of_detect?⟩,
    fun begin stop stride range hmake => ?_⟩
  · rw [exists_detect?_iff hlength, isProgression_iff]
  · obtain ⟨rfl, rfl, rfl⟩ := eq_of_make hmake
    exact ⟨fun position => lt_size_iff, fun position => toNat_get, map_toNat_items range,
      fun item position => find?_eq_some, run_read_encode range⟩

/-- Three items in steps of 4, and the last items there are, which end between two steps. -/
theorem detect_and_enumerate_top :
    (∃ range, detect? [4, 8, 12] = some range ∧ (Form.range range).items = [4, 8, 12]) ∧
    ∃ range, make 4294967290 4294967296 4 = .ok range ∧ range.size = 2 ∧
      (Form.range range).items.map UInt32.toNat = [4294967290, 4294967294] ∧
      range.find? 4294967294 = some 1 := by
  obtain ⟨hlists, hranges⟩ := detect_and_enumerate
  obtain ⟨hdetect, hitems⟩ := hlists [4, 8, 12] (by decide)
  obtain ⟨found, hfound⟩ := hdetect.2 (.inr (.inr ⟨by decide, 4, by decide⟩))
  obtain ⟨range, hmake, hsize, hget⟩ : ∃ range, make 4294967290 4294967296 4 = .ok range ∧
      range.size = 2 ∧ range.get 1 = 4294967294 := ⟨_, rfl, rfl, rfl⟩
  obtain ⟨-, -, hall, hfind, -⟩ := hranges _ _ _ _ hmake
  rw [hsize] at hall
  exact ⟨⟨found, hfound, hitems found hfound⟩, range, hmake, hsize, hall.trans (by decide),
    (hfind _ _).2 ⟨by rw [hsize]; decide, hget⟩⟩

end Postings.Layout.Progression
