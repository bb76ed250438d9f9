/-
The native layout read back.

* `Native.encode_eq` — what encoding appends;
* `Native.get_itemBytes` — four bytes an item hold that item;
* `Native.reads_encode` — what is appended is read back as the same items;
* `Native.eq_of_reads`, `Native.itemBytes_get` — nothing else is read as these items.
-/
import Postings.Layout.Native
import Postings.Proofs.Bytes.Reads

namespace Postings.Layout.Native

open Bytes

/-- The four bytes of every item. -/
def itemBytes (items : List Item) : List UInt8 :=
  items.flatMap fun item => digits item.toNat 4

@[simp] theorem length_itemBytes (items : List Item) :
    (itemBytes items).length = 4 * items.length := by
  induction items with
  | nil => rfl
  | cons item rest ih =>
    rw [itemBytes, List.flatMap_cons, List.length_append, length_digits, List.length_cons,
      Nat.mul_succ, ← ih, itemBytes]
    omega

theorem encodeItems_eq (items : List Item) (out : ByteArray) :
    encodeItems items out = out ++ (itemBytes items).toByteArray := by
  induction items generalizing out with
  | nil => simp [encodeItems, itemBytes]
  | cons item rest ih =>
    rw [encodeItems, List.foldl_cons, ← encodeItems, ih, pushLE_eq, ByteArray.append_assoc,
      ← List.toByteArray_append]
    rfl

theorem encode_eq (items : List Item) (out : ByteArray) :
    encode items out = out ++ (digits items.length 4 ++ itemBytes items).toByteArray := by
  rw [encode, encodeItems_eq, pushLE_eq, ByteArray.append_assoc, ← List.toByteArray_append]

theorem take_drop_itemBytes {items : List Item} {position : Nat} (h : position < items.length) :
    ((itemBytes items).drop (4 * position)).take 4 = digits items[position].toNat 4 := by
  induction items generalizing position with
  | nil => simp at h
  | cons item rest ih =>
    have hlength := length_digits item.toNat 4
    rw [itemBytes, List.flatMap_cons, ← itemBytes]
    cases position with
    | zero =>
      rw [Nat.mul_zero, List.drop_zero, List.take_append_of_le_length (by omega),
        List.take_of_length_le (by omega), List.getElem_cons_zero]
    | succ position =>
      rw [Nat.mul_succ, Nat.add_comm, ← List.drop_drop, List.drop_left' hlength,
        List.getElem_cons_succ]
      exact ih (Nat.lt_of_succ_lt_succ h)

/-- The item at a position of a list whose bytes are those of some items. -/
theorem get_itemBytes {list : Native} {items : List Item}
    (hvalues : list.values = (itemBytes items).toByteArray) (position : Fin list.size)
    (h : position.val < items.length) : list.get position = items[position.val] := by
  have hlt : items[position.val].toNat < 256 ^ 4 := UInt32.toNat_lt _
  rw [get, leAt_eq_number, hvalues, List.toList_data_toByteArray, take_drop_itemBytes h,
    number_digits, Nat.mod_eq_of_lt hlt, UInt32.ofNat_toNat]

theorem delimited_read : Delimited read :=
  (Delimited.little 4).bind fun size =>
    (Delimited.take (4 * size)).bind fun _ => Delimited.pure _

theorem yields_read : Yields read fun list => list.size < 2 ^ 32 := by
  refine (Yields.little 4).bind fun size hsize => (Yields.any _).bind fun _ _ => ?_
  exact Yields.pure hsize

/-- The list that is read back from what encoding appends. -/
theorem reads_encode {items : List Item} (h : items.length < 2 ^ 32) :
    ∃ list : Native, Reads read (digits items.length 4 ++ itemBytes items) list ∧
      list.size = items.length ∧ list.values = (itemBytes items).toByteArray := by
  have hsize : number (digits items.length 4) = items.length := by
    rw [number_digits]
    exact Nat.mod_eq_of_lt h
  have hhead : Reads (Read.word32 "native size") (digits items.length 4) items.length := by
    have hreads := Reads.little "native size" (digits items.length 4)
    rwa [length_digits, hsize] at hreads
  exact ⟨_, hhead.bind ((Reads.take _ (itemBytes items) (length_itemBytes items)).map _), rfl, rfl⟩

/-- The only bytes that are read as a list are its size and its values. -/
theorem eq_of_reads {front : List UInt8} {list : Native} (h : Reads read front list) :
    front = digits list.size 4 ++ list.values.data.toList := by
  obtain ⟨size, head, rest, rfl, hhead, hrest⟩ := h.of_bind (Delimited.little 4) fun size =>
    (Delimited.take (4 * size)).bind fun _ => Delimited.pure _
  obtain ⟨⟨values, hvalues⟩, body, tail, rfl, hbody, htail⟩ :=
    hrest.of_bind (Delimited.take (4 * size)) fun _ => Delimited.pure _
  obtain ⟨rfl, rfl⟩ := htail.of_pure
  rw [List.append_nil, hhead.of_little, hbody.of_take]

/-- Four bytes an item are told by the items. -/
theorem itemBytes_ofFn {bytes : List UInt8} {size : Nat} (h : bytes.length = 4 * size) :
    itemBytes (List.ofFn fun position : Fin size =>
      UInt32.ofNat (number ((bytes.drop (4 * position)).take 4))) = bytes := by
  induction size generalizing bytes with
  | zero => exact (List.eq_nil_of_length_eq_zero h).symm
  | succ size ih =>
    have hfour : (bytes.take 4).length = 4 := List.length_take_of_le (by omega)
    have hfirst : digits (UInt32.ofNat (number (bytes.take 4))).toNat 4 = bytes.take 4 := by
      have hlt := number_lt (bytes.take 4)
      have hdigits := digits_number (bytes.take 4)
      rw [hfour] at hlt hdigits
      rw [UInt32.toNat_ofNat', Nat.mod_eq_of_lt hlt, hdigits]
    have hlength : (bytes.drop 4).length = 4 * size := by
      rw [List.length_drop]
      omega
    have hrest := ih hlength
    simp only [List.drop_drop, Nat.add_comm 4, ← Nat.mul_succ] at hrest
    rw [List.ofFn_succ, itemBytes, List.flatMap_cons, ← itemBytes]
    show digits (UInt32.ofNat (number (bytes.take 4))).toNat 4 ++ itemBytes _ = bytes
    rw [hfirst]
    exact (congrArg (bytes.take 4 ++ ·) hrest).trans (List.take_append_drop 4 bytes)

theorem itemBytes_get (list : Native) :
    itemBytes (List.ofFn list.get) = list.values.data.toList := by
  have hvalues : list.values.data.toList.length = 4 * list.size :=
    Array.length_toList.trans list.values_size
  have hget : list.get = fun position : Fin list.size => UInt32.ofNat
      (number ((list.values.data.toList.drop (4 * position)).take 4)) :=
    funext fun position => congrArg UInt32.ofNat (leAt_eq_number ..)
  rw [hget, itemBytes_ofFn hvalues]

end Postings.Layout.Native
