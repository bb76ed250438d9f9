/-
The items of a posting list, however it is held.

A cursor gives the items of a list; isolated accesses and searches answer for the
same items.  A vector that is too long for a 32-bit size is the only list whose
size does not count its items, so fewer than `2 ^ 32` items are asked for.

* `Cursor.toList_scan`, `Cursor.toList_steps`, `Cursor.toList_blocks` — the three ways to read;
* `Cursor.length_toList` — a cursor counts what it still gives;
* `Form.ofFn_get`, `Form.find?_eq_some` — isolated accesses and searches;
* `ItemSet.get_eq_ok`, `ItemSet.find?_eq_some` — the same for a posting list;
* `ItemSet.Valid.beq_eq_true` — lists with the same items are equal.
-/
import Postings.ItemSet.Cursor
import Postings.Proofs.Source
import Postings.Proofs.Layout.Progression
import Postings.Proofs.Layout.Line
import Postings.Proofs.Layout.Frame

namespace Postings

open Layout

/-! ### Cursors -/

namespace Cursor

theorem next?_eq_none {cursor : Cursor} : cursor.next? = none ↔ cursor.remaining = 0 := by
  constructor
  · intro h
    cases cursor with
    | scan size get position =>
      by_cases hlt : position < size
      · rw [next?, dif_pos hlt] at h
        simp at h
      · exact Nat.sub_eq_zero_of_le (Nat.le_of_not_lt hlt)
    | steps next stride count =>
      cases count with
      | zero => rfl
      | succ count => simp [next?] at h
    | blocks buffer blocks =>
      cases buffer with
      | cons item buffer => simp [next?] at h
      | nil =>
        cases blocks with
        | nil => rfl
        | cons block blocks => simp [next?] at h
  · intro h
    cases hnext : cursor.next? with
    | none => rfl
    | some head =>
      obtain ⟨item, rest⟩ := head
      have hrest := remaining_next? hnext
      omega

/-- A cursor counts what it still gives. -/
theorem length_toList (cursor : Cursor) : (Source.toList cursor).length = cursor.remaining := by
  generalize hleft : cursor.remaining = left
  induction left generalizing cursor with
  | zero =>
    rw [Source.toList_of_none (next?_eq_none.2 hleft)]
    rfl
  | succ left ih =>
    match hnext : cursor.next? with
    | none =>
      rw [next?_eq_none.1 hnext] at hleft
      exact absurd hleft (Nat.zero_ne_add_one left)
    | some (item, rest) =>
      have hrest := remaining_next? hnext
      rw [Source.toList_of_some hnext, List.length_cons, ih rest (by omega)]

/-- Positions read one after the other. -/
theorem toList_scan {size : Nat} (get : Fin size → Item) (position : Nat) :
    Source.toList (scan size get position) = (List.ofFn get).drop position := by
  generalize hleft : size - position = left
  induction left generalizing position with
  | zero =>
    have hge : ¬ position < size := by omega
    have hnext : (scan size get position).next? = none := by rw [next?, dif_neg hge]
    rw [Source.toList_of_none hnext, List.drop_eq_nil_of_le]
    rw [List.length_ofFn]
    exact Nat.le_of_not_lt hge
  | succ left ih =>
    have hlt : position < size := by omega
    have hnext : (scan size get position).next?
        = some (get ⟨position, hlt⟩, scan size get (position + 1)) := by rw [next?, dif_pos hlt]
    have hofFn : position < (List.ofFn get).length := by rwa [List.length_ofFn]
    rw [Source.toList_of_some hnext, ih (position + 1) (by omega),
      List.drop_eq_getElem_cons hofFn, List.getElem_ofFn]

/-- A stride added again and again. -/
theorem toList_steps (next stride count : Nat) :
    Source.toList (steps next stride count)
      = (List.range count).map fun position => UInt32.ofNat (next + position * stride) := by
  induction count generalizing next with
  | zero => exact Source.toList_of_none rfl
  | succ count ih =>
    rw [Source.toList_of_some (s := steps next stride (count + 1)) rfl, ih,
      List.range_succ_eq_map, List.map_cons, List.map_map, Nat.zero_mul, Nat.add_zero]
    congr 1
    apply List.map_congr_left
    intro position _
    rw [Function.comp_apply, Nat.succ_mul, Nat.add_assoc, Nat.add_comm stride]

/-- Blocks decoded one after the other. -/
theorem toList_blocks (buffer : List Item) (rest : List Block) :
    Source.toList (blocks buffer rest) = buffer ++ rest.flatMap (·.items.toList) := by
  induction rest generalizing buffer with
  | nil =>
    induction buffer with
    | nil => exact Source.toList_of_none rfl
    | cons item buffer ih =>
      rw [Source.toList_of_some (s := blocks (item :: buffer) []) rfl, ih, List.cons_append]
  | cons block rest ih =>
    induction buffer with
    | nil =>
      rw [Source.toList_of_some (s := blocks [] (block :: rest)) rfl, ih, List.flatMap_cons,
        Block.items, Array.toList_append, List.nil_append, List.append_assoc,
        List.singleton_append]
    | cons item buffer ihBuffer =>
      rw [Source.toList_of_some (s := blocks (item :: buffer) (block :: rest)) rfl, ihBuffer,
        List.cons_append]

end Cursor

/-! ### Forms -/

namespace Form

/-- The items, in the order in which a cursor gives them. -/
def items (form : Form) : List Item :=
  Source.toList form.cursor

theorem items_vector (values : Array Item) : (vector values).items = values.toList := by
  rw [items, cursor, Cursor.toList_scan, List.drop_zero]
  apply List.ext_getElem
  · rw [List.length_ofFn, Array.length_toList]
  · intro position _ _
    rw [List.getElem_ofFn, Array.getElem_toList]

theorem items_range (range : Progression) :
    (Form.range range).items = (List.range range.size).map range.get :=
  Cursor.toList_steps _ _ _

/-- Isolated accesses give the items of a scan. -/
theorem ofFn_get (form : Form) (hfew : form.codec = .vector → form.items.length < 2 ^ 32) :
    List.ofFn form.get = form.items := by
  cases form with
  | native list => exact (Cursor.toList_scan list.get 0).symm
  | compact list => exact (Cursor.toList_scan list.get 0).symm
  | line list => exact (Cursor.toList_scan list.get 0).symm
  | frame list =>
    rw [items, cursor, Cursor.toList_blocks, List.nil_append, Frame.flatMap_blocks]
    rfl
  | range range =>
    rw [items_range]
    apply List.ext_getElem
    · rw [List.length_ofFn, List.length_map, List.length_range]
      rfl
    · intro position _ _
      rw [List.getElem_ofFn, List.getElem_map, List.getElem_range]
      rfl
  | vector values =>
    rw [items_vector] at hfew ⊢
    apply List.ext_getElem
    · rw [List.length_ofFn, Array.length_toList]
      exact Nat.mod_eq_of_lt (hfew rfl)
    · intro position _ _
      rw [List.getElem_ofFn, Array.getElem_toList]
      rfl

theorem length_items {form : Form} (h : form.codec ≠ .vector) : form.items.length = form.size := by
  rw [← ofFn_get form fun hvector => absurd hvector h, List.length_ofFn]

theorem size_eq {form : Form} (hfew : form.items.length < 2 ^ 32) :
    form.size = form.items.length := by
  rw [← ofFn_get form fun _ => hfew, List.length_ofFn]

theorem getElem?_items {form : Form} (hfew : form.items.length < 2 ^ 32) {position : Nat}
    {item : Item} : form.items[position]? = some item ↔
      ∃ h : position < form.size, form.get ⟨position, h⟩ = item := by
  rw [← ofFn_get form fun _ => hfew, List.getElem?_eq_some_iff]
  simp only [List.getElem_ofFn, List.length_ofFn]

theorem get_lt_get {form : Form} (hfew : form.items.length < 2 ^ 32)
    (hascend : Ascending form.items) (i j : Fin form.size) (hij : i < j) :
    form.get i < form.get j := by
  rw [← ofFn_get form fun _ => hfew, Ascending, List.pairwise_iff_getElem] at hascend
  have hlt := hascend i j (by simp) (by simp) hij
  rwa [List.getElem_ofFn, List.getElem_ofFn] at hlt

/-- An item of an ascending list is found exactly where it stands. -/
theorem find?_eq_some {form : Form} (hfew : form.items.length < 2 ^ 32)
    (hascend : Ascending form.items) {item : Item} {position : Nat} :
    form.find? item = some position ↔ form.items[position]? = some item := by
  have haccess : form.items[position]? = some item ↔ _ := getElem?_items hfew
  cases form with
  | native list => exact (Search.bisect_eq_some (get_lt_get hfew hascend)).trans haccess.symm
  | compact list => exact (Search.bisect_eq_some (get_lt_get hfew hascend)).trans haccess.symm
  | line list => exact (Search.bisect_eq_some (get_lt_get hfew hascend)).trans haccess.symm
  | frame list => exact (Frame.find?_eq_some (get_lt_get hfew hascend)).trans haccess.symm
  | range range =>
    rw [haccess, find?, Progression.find?_eq_some]
    exact exists_prop.symm
  | vector values =>
    rw [items_vector] at hascend ⊢
    rw [find?, Search.locate_eq_some hascend, Array.getElem?_toList]

end Form

/-! ### Posting lists -/

namespace ItemSet

theorem items_eq (set : ItemSet) : set.items = set.form.items := by
  rw [items]
  split
  next values h => rw [h, Form.items_vector]
  next => rw [Source.toList_toArray, Form.items]

/-- A scan gives the items. -/
theorem toList_cursor (set : ItemSet) : Source.toList set.cursor = set.items :=
  set.items_eq.symm

variable {set : ItemSet}

theorem size_eq (hfew : set.items.length < 2 ^ 32) : set.size = set.items.length := by
  rw [items_eq] at hfew ⊢
  exact Form.size_eq hfew

/-- A position holds an item exactly when a scan gives that item there. -/
theorem get_eq_ok (hfew : set.items.length < 2 ^ 32) {position : Nat} {item : Item} :
    set.get position = .ok item ↔ set.items[position]? = some item := by
  rw [items_eq] at hfew ⊢
  rw [get, Form.getElem?_items hfew]
  by_cases h : position < set.size
  · rw [dif_pos h, Except.ok.injEq]
    exact ⟨fun hitem => ⟨h, hitem⟩, fun ⟨_, hitem⟩ => hitem⟩
  · rw [dif_neg h]
    exact iff_of_false (by simp) fun ⟨hlt, _⟩ => h hlt

theorem get_of_size_le {position : Nat} (h : set.size ≤ position) :
    set.get position = .error (.outOfBounds position set.size) := by
  rw [get, dif_neg (Nat.not_lt.2 h)]

/-- An item of an ascending list is found exactly where it stands. -/
theorem find?_eq_some (hfew : set.items.length < 2 ^ 32) (hascend : Ascending set.items)
    {item : Item} {position : Nat} :
    set.find? item = some position ↔ set.items[position]? = some item := by
  rw [items_eq] at hfew hascend ⊢
  exact Form.find?_eq_some hfew hascend

/-- A strictly ascending list of items that its 32-bit size can count. -/
structure Valid (set : ItemSet) : Prop where
  ascending : Ascending set.items
  length_lt : set.items.length < 2 ^ 32

theorem Valid.size_eq {set : ItemSet} (h : set.Valid) : set.size = set.items.length :=
  ItemSet.size_eq h.length_lt

/-- Lists are equal if their items are, whatever their codecs. -/
theorem Valid.beq_eq_true {left right : ItemSet} (hleft : left.Valid) (hright : right.Valid) :
    (left == right) = true ↔ left.items = right.items := by
  show (decide (left.size = right.size) && Source.beq left.cursor right.cursor) = true ↔ _
  rw [Bool.and_eq_true, decide_eq_true_eq, Source.beq_eq_true, toList_cursor, toList_cursor,
    hleft.size_eq, hright.size_eq]
  exact and_iff_right_of_imp (congrArg List.length)

end ItemSet

end Postings
