/-
Posting lists one behind the other.

Tagged bytes have no length in front: where a list ends is told by the numbers that its own
layout holds.  That is enough to read it from the front of any bytes, and to refuse it
when its bytes are cut short; so lists that are put one behind the other are found again.

* `ItemSet.toBytes_of_ofBytes` — a list that is read has the bytes that it was read from;
* `ItemSet.ofBytes_append`, `ItemSet.ofBytes_cut` — what stands behind a list does not matter, and
  nothing less than its bytes is enough;
* `ItemSet.readAll`, `ItemSet.readAll_append` — reads list after list;
* `ItemSet.exists_readAll` — lists that are put one behind the other;
* `ItemSet.ofBytes_selfDelimiting` — any bytes that are accepted, and any lists that are joined;
* `ItemSet.readAll_full` — the vector of all items, which is not found again.
-/
import Postings.Proofs.Bytes.Cuts
import Postings.Proofs.ItemSet.Full
import Postings.Proofs.Obtainable
import Postings.Proofs.Store.Opening

namespace Postings.ItemSet

open Layout

variable {bytes : ByteArray} {set : ItemSet}

/-! ### One list in front -/

/-- A list that is read has the bytes that it was read from. -/
theorem toBytes_of_ofBytes (h : ofBytes bytes = .ok set) :
    set.toBytes = bytes.extract 0 set.byteLength ∧ set.byteLength ≤ bytes.size := by
  obtain ⟨front, form, -, hlead, -, rfl⟩ := ofTrustedBytes_eq_ok.1 (ofBytes_eq_ok.1 h).1
  have hlength : (ItemSet.mk form (some front.toByteArray)).byteLength = front.length :=
    List.size_toByteArray
  rw [hlength]
  exact ⟨Bytes.toByteArray_of_prefix hlead, hlead.length_le⟩

theorem reads_toBytes (h : ofBytes bytes = .ok set) :
    Reads Form.readTagged set.toBytes.data.toList set.form := by
  obtain ⟨front, form, hreads, -, -, rfl⟩ := ofTrustedBytes_eq_ok.1 (ofBytes_eq_ok.1 h).1
  rw [toBytes, List.toList_data_toByteArray]
  exact hreads

/-- What stands behind a list does not matter. -/
theorem ofBytes_append (h : ofBytes bytes = .ok set) (tail : ByteArray) :
    ofBytes (set.toBytes ++ tail) = .ok set := by
  obtain ⟨htrusted, hascend⟩ := ofBytes_eq_ok.1 h
  obtain ⟨front, form, hreads, -, -, rfl⟩ := ofTrustedBytes_eq_ok.1 htrusted
  refine ofBytes_eq_ok.2 ⟨ofTrustedBytes_of_reads hreads ?_, hascend⟩
  rw [toBytes, ByteArray.data_append, Array.toList_append, List.toList_data_toByteArray]
  exact List.prefix_append ..

/-- Nothing less than the bytes of a list is enough. -/
theorem ofBytes_cut (h : ofBytes bytes = .ok set) {cut : Nat} (hcut : cut < set.toBytes.size) :
    ∃ cause, ofBytes (set.toBytes.extract 0 cut) = .error (.corrupt cause) := by
  obtain ⟨cause, hrun⟩ := Read.run_cut (reads_toBytes h) hcut
  exact ⟨cause, by rw [ofBytes, ofTrustedBytes, hrun]; rfl⟩

/-- A list takes at least the byte of its tag. -/
theorem byteLength_pos (h : ofBytes bytes = .ok set) : 0 < set.byteLength := by
  have hsize : set.toBytes.size = set.byteLength := (complete_of_ofBytes h).size_toBytes
  refine Nat.pos_of_ne_zero fun hzero => ?_
  have hnil : set.toBytes = ByteArray.empty := ByteArray.size_eq_zero_iff.1 (hsize.trans hzero)
  have hempty := ofBytes_append h ByteArray.empty
  rw [hnil, ByteArray.append_empty] at hempty
  exact absurd (show Except.error (Error.corrupt .noBytes) = .ok set from hempty) (by simp)

/-! ### List after list -/

/-- Reads list after list, each from where the one before it ends, until no byte is left. -/
def readAll (bytes : ByteArray) : Except Error (List ItemSet) :=
  if bytes.size = 0 then .ok []
  else
    match _h : ofBytes bytes with
    | .error error => .error error
    | .ok set => do
      let rest ← readAll (bytes.extract set.byteLength bytes.size)
      return set :: rest
termination_by bytes.size
decreasing_by
  have := byteLength_pos _h
  rw [ByteArray.size_extract]
  omega

theorem readAll_empty : readAll ByteArray.empty = .ok [] := by
  rw [readAll]
  rfl

/-- The list in front is read, and then what stands behind it. -/
theorem readAll_append (h : ofBytes bytes = .ok set) (tail : ByteArray) :
    readAll (set.toBytes ++ tail) = (do
      let rest ← readAll tail
      return set :: rest) := by
  have hsize : set.toBytes.size = set.byteLength := (complete_of_ofBytes h).size_toBytes
  have hpos := byteLength_pos h
  have hread := ofBytes_append h tail
  have hrest : (set.toBytes ++ tail).extract set.byteLength (set.toBytes ++ tail).size = tail :=
    ByteArray.extract_append_eq_right hsize.symm ByteArray.size_append
  rw [readAll, if_neg (by rw [ByteArray.size_append]; omega)]
  split
  next error herror => exact absurd (hread.symm.trans herror) (by simp)
  next found hfound =>
    obtain rfl := Except.ok.inj (hread.symm.trans hfound)
    rw [hrest]

/-- What the bytes of a list are read as: the same items from the same bytes; a vector is native
then, and any other list is itself. -/
structure ReadAs (set again : ItemSet) : Prop where
  toBytes_eq : again.toBytes = set.toBytes
  byteLength_eq : again.byteLength = set.byteLength
  items_eq : Source.toList again.cursor = Source.toList set.cursor
  codec_eq : again.codec = set.codec.written
  eq_of_ne_vector : set.codec ≠ .vector → again = set

theorem Complete.exists_readAs (h : set.Complete) :
    ∃ again, ofBytes set.toBytes = .ok again ∧ set.ReadAs again := by
  obtain ⟨again, hread, hitems, hlength, hcodec⟩ := h.exists_ofBytes
  obtain ⟨hbytes, -⟩ := toBytes_of_ofBytes hread
  rw [hlength, ← h.size_toBytes, ByteArray.extract_zero_size] at hbytes
  refine ⟨again, hread, hbytes, hlength, ?_, hcodec, fun hvector => ?_⟩
  · rw [toList_cursor, toList_cursor, hitems]
  · -- A list that is no vector has its bytes at hand, and they are read as that very list.
    obtain hnot | ⟨own, hown⟩ := h.at_hand
    · exact absurd hnot hvector
    · have hrereads := h.rereads own hown
      rw [toBytes, hown] at hread
      exact Except.ok.inj ((ofBytes_eq_ok.1 hread).1.symm.trans hrereads)

/-- Lists that are put one behind the other are found again, in the same order. -/
theorem exists_readAll {sets : List ItemSet} (h : ∀ set ∈ sets, set.Complete) :
    ∃ again, readAll (Bytes.joined (sets.map toBytes)) = .ok again ∧
      List.Forall₂ ReadAs sets again := by
  induction sets with
  | nil => exact ⟨[], readAll_empty, .nil⟩
  | cons set rest ih =>
    obtain ⟨hset, hrest⟩ := List.forall_mem_cons.1 h
    obtain ⟨again, hread, hagain⟩ := hset.exists_readAs
    obtain ⟨others, hothers, hall⟩ := ih hrest
    refine ⟨again :: others, ?_, .cons hagain hall⟩
    show readAll (set.toBytes ++ Bytes.joined (rest.map toBytes)) = _
    rw [← hagain.toBytes_eq, readAll_append hread, hothers]
    rfl

theorem eq_of_forall_readAs {sets again : List ItemSet} (h : List.Forall₂ ReadAs sets again)
    (hvector : ∀ set ∈ sets, set.codec ≠ .vector) : again = sets := by
  induction h with
  | nil => rfl
  | cons hset _ ih =>
    obtain ⟨hfirst, hrest⟩ := List.forall_mem_cons.1 hvector
    rw [hset.eq_of_ne_vector hfirst, ih hrest]

/-- The bytes that a list was read from are enough to read it, whatever stands behind them, and
corrupt when they are cut short anywhere.  Hence lists whose bytes are put one behind the other
are found again, by reading one after the other; those that are no vectors as they were. -/
theorem ofBytes_selfDelimiting (bytes : ByteArray) (sets : List ItemSet) :
    (∀ set, ofBytes bytes = .ok set →
      (bytes.extract 0 set.byteLength).size = set.byteLength ∧
      set.toBytes = bytes.extract 0 set.byteLength ∧
      (∀ tail, ofBytes (bytes.extract 0 set.byteLength ++ tail) = .ok set) ∧
      ∀ cut < set.byteLength, ∃ cause, ofBytes (bytes.extract 0 cut) = .error (.corrupt cause)) ∧
    ((∀ set ∈ sets, set.Obtainable) →
      ∃ again, readAll (Bytes.joined (sets.map toBytes)) = .ok again ∧
        List.Forall₂ ReadAs sets again ∧
        ((∀ set ∈ sets, set.codec ≠ .vector) → again = sets)) := by
  refine ⟨fun set h => ?_, fun hsets => ?_⟩
  · obtain ⟨hbytes, hle⟩ := toBytes_of_ofBytes h
    have hsize : set.toBytes.size = set.byteLength := (complete_of_ofBytes h).size_toBytes
    refine ⟨hbytes ▸ hsize, hbytes, fun tail => hbytes ▸ ofBytes_append h tail, ?_⟩
    intro cut hcut
    have hpart := ofBytes_cut h (hsize ▸ hcut)
    rwa [hbytes, ByteArray.extract_extract, Nat.zero_add, Nat.zero_add,
      Nat.min_eq_left (Nat.le_of_lt hcut)] at hpart
  · obtain ⟨again, hread, hall⟩ := exists_readAll fun set hset => (hsets set hset).complete
    exact ⟨again, hread, hall, eq_of_forall_readAs hall⟩

/-- A progression whose begin is spelt in more bytes than it needs, with a byte behind it that is
not its own; and the same progression again, in front of a vector. -/
theorem ofBytes_selfDelimiting_overlong :
    ∃ set, ofBytes ⟨#[5, 0x84, 0, 9, 2, 77]⟩ = .ok set ∧ set.byteLength = 5 ∧
      (∀ tail, ofBytes (⟨#[5, 0x84, 0, 9, 2]⟩ ++ tail) = .ok set) ∧
      (∃ cause, ofBytes ⟨#[5, 0x84]⟩ = .error (.corrupt cause)) ∧
      ∃ again, readAll (Bytes.joined [set.toBytes, (ofAscending #[3]).toBytes]) = .ok again ∧
        List.Forall₂ ReadAs [set, ofAscending #[3]] again := by
  obtain ⟨set, hread, hlength⟩ :
      ∃ set, ofBytes ⟨#[5, 0x84, 0, 9, 2, 77]⟩ = .ok set ∧ set.byteLength = 5 := ⟨_, rfl, rfl⟩
  obtain ⟨hfront, hlists⟩ :=
    ofBytes_selfDelimiting ⟨#[5, 0x84, 0, 9, 2, 77]⟩ [set, ofAscending #[3]]
  obtain ⟨-, -, htails, hcuts⟩ := hfront _ hread
  rw [hlength] at htails hcuts
  have hobtainable : ∀ other ∈ [set, ofAscending #[3]], other.Obtainable := by
    intro other hother
    rcases List.mem_cons.1 hother with rfl | hother
    · exact .ofBytes hread
    · rw [List.mem_singleton.1 hother]
      exact .ofList (show [3].length < 2 ^ 32 by decide) rfl
  obtain ⟨again, hagain, hall, -⟩ := hlists hobtainable
  exact ⟨set, hread, hlength, htails, hcuts 2 (by decide), again, hagain, hall⟩

/-! ### Bytes that do not say where they end -/

theorem ofBytes_of_ofTag?_eq_none {tag : Nat} (htag : tag < 256) (hnone : Codec.ofTag? tag = none)
    (rest : List UInt8) :
    ofBytes (UInt8.ofNat tag :: rest).toByteArray = .error (.unknownTag tag) := by
  rw [ofBytes, ofTrustedBytes, Read.run]
  have hrest : (Reader.ofBytes (UInt8.ofNat tag :: rest).toByteArray).rest
      = UInt8.ofNat tag :: rest := List.toList_data_toByteArray ..
  generalize Reader.ofBytes (UInt8.ofNat tag :: rest).toByteArray = reader at hrest
  have htagged : Reads (Read.byte "index tag") [UInt8.ofNat tag] tag := Reads.byte htag
  have hbyte := htagged.accepts reader ⟨rest, hrest.symm⟩
  rw [Form.readTagged_of_rest_ne_nil (by rw [hrest]; simp), Form.readAnnounced,
    Read.bind_ok hbyte, hnone]
  rfl

/-- The native bytes of all items say that no item follows.  Whoever splits them takes the first
item for the tag of another list. -/
theorem readAll_full : ofList allItems = .ok full ∧ Source.toList full.cursor = allItems ∧
    readAll (Bytes.joined ([full].map toBytes)) = .error (.unknownTag 0) ∧
    ¬ ∃ again, readAll (Bytes.joined ([full].map toBytes)) = .ok again := by
  obtain ⟨blank, hblank, hread, -⟩ := ofTrustedBytes_encode_allItems
  obtain ⟨rest, hrest⟩ := exists_itemBytes_allItems
  have haccept : ofBytes (Native.encode [] (tagByte .native)) = .ok blank := by
    refine ofBytes_eq_ok.2 ⟨hread, ?_⟩
    rw [hblank.items_eq]
    exact List.Pairwise.nil
  have hbytes : blank.toBytes = Native.encode [] (tagByte .native) := by
    rw [toBytes, hblank.encoded_eq]
  have hjoined : Bytes.joined ([full].map toBytes) = blank.toBytes ++ (0 :: rest).toByteArray := by
    rw [← hrest, hbytes, ← encode_allItems, ← toBytes_full]
    exact ByteArray.append_empty
  have hzero : readAll (0 :: rest).toByteArray = .error (.unknownTag 0) := by
    have hunknown : ofBytes (UInt8.ofNat 0 :: rest).toByteArray = .error (.unknownTag 0) :=
      ofBytes_of_ofTag?_eq_none (by decide) rfl rest
    rw [readAll, if_neg (by rw [List.size_toByteArray]; simp)]
    split
    next error herror => exact congrArg Except.error (Except.error.inj (herror.symm.trans hunknown))
    next found hfound => exact absurd (hfound.symm.trans hunknown) (by simp)
  have hsplit : readAll (Bytes.joined ([full].map toBytes)) = .error (.unknownTag 0) := by
    rw [hjoined, readAll_append haccept, hzero]
    rfl
  refine ⟨ofList_allItems, ?_, hsplit, ?_⟩
  · rw [toList_cursor, items_full]
  · rintro ⟨again, hagain⟩
    exact absurd (hagain.symm.trans hsplit) (by simp)

end Postings.ItemSet
