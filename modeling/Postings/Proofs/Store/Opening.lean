/-
The byte strings that open as a store.

A store is a header, its data and its table, each marked off by what stands before it,
and nothing behind them.  So no shorter string opens that a store starts with, and no
longer one that starts with a store.

* `Header.exists_head` — a header is read from the ten bytes in front;
* `Store.Parts`, `Store.exists_parts` — what the bytes of a store are made of;
* `Store.Parts.opens`, `Store.Parts.refuses_cut`, `Store.Parts.refuses_more` — these bytes open,
  and are corrupt when they are cut short or go on.
-/
import Postings.Proofs.Layout.Line
import Postings.Proofs.Store.Basic

namespace Postings

open Layout

/-! ### Headers in front -/

/-- Whenever a parser succeeds it has passed over so many bytes. -/
def Advances {α : Type} (step : Read α) (count : Nat) : Prop :=
  ∀ reader value after, step reader = .ok value after → after.position = reader.position + count

section Advances

variable {α β : Type}

theorem Advances.pure (value : α) : Advances (pure value : Read α) 0 := by
  intro reader answer after h
  rw [← (EStateM.Result.ok.inj (show EStateM.Result.ok value reader = .ok answer after from h)).2,
    Nat.add_zero]

theorem Advances.throw (error : Error) (count : Nat) : Advances (throw error : Read α) count := by
  intro reader value after h
  exact absurd (show EStateM.Result.error error reader = .ok value after from h) (by simp)

theorem Advances.bind {step : Read α} {next : α → Read β} {first second : Nat}
    (h : Advances step first) (hnext : ∀ value, Advances (next value) second) :
    Advances (step >>= next) (first + second) := by
  intro reader value after hok
  obtain ⟨answer, middle, hstep, hrest⟩ := Read.bind_eq_ok hok
  rw [hnext answer middle value after hrest, h reader answer middle hstep, Nat.add_assoc]

theorem Advances.little (count : Nat) (what : String) :
    Advances (Read.little count what) count := by
  intro reader value after h
  rw [Read.little, Reader.advance?] at h
  split at h
  next hnext =>
    split at hnext
    · obtain ⟨-, rfl⟩ := EStateM.Result.ok.inj h
      rw [← Option.some.inj hnext]
    · exact absurd hnext (by simp)
  next => exact absurd h (by simp)

end Advances

namespace Header

/-- Reads the length of a header whose version and tag are read. -/
def readLength (version tag : Nat) : Read Header :=
  match Codec.ofTag? tag with
  | none => throw (.unknownTag tag)
  | some codec => return ⟨version, codec, ← Read.word64 "store data length"⟩

/-- Reads the tag and the length of a header whose version is checked. -/
def readBehind (version : Nat) : Read Header := do
  readLength version (← Read.byte "store index type")

/-- Checks the version of a header and reads the rest of it. -/
def readChecked (version : Nat) : Read Header := do
  if version ≠ currentVersion then throw (.versionMismatch currentVersion version)
  readBehind version

theorem delimited_readLength (version tag : Nat) : Delimited (readLength version tag) := by
  unfold readLength
  cases Codec.ofTag? tag with
  | none => exact Delimited.throw _
  | some codec => exact (Delimited.little 8).bind fun _ => Delimited.pure _

theorem delimited_readBehind (version : Nat) : Delimited (readBehind version) :=
  Delimited.byte.bind fun tag => delimited_readLength version tag

theorem delimited_readChecked (version : Nat) : Delimited (readChecked version) := by
  unfold readChecked
  split
  · exact (Delimited.throw _).bind fun _ => delimited_readBehind version
  · exact delimited_readBehind version

theorem delimited_read : Delimited read :=
  Delimited.byte.bind fun version => delimited_readChecked version

theorem advances_readLength (version tag : Nat) : Advances (readLength version tag) 8 := by
  unfold readLength
  cases Codec.ofTag? tag with
  | none => exact Advances.throw _ _
  | some codec => exact (Advances.little 8 _).bind fun _ => Advances.pure _

theorem advances_readBehind (version : Nat) : Advances (readBehind version) 9 :=
  (Advances.little 1 _).bind fun tag => advances_readLength version tag

theorem advances_readChecked (version : Nat) : Advances (readChecked version) 9 := by
  unfold readChecked
  split
  · exact (Advances.throw _ 0).bind fun _ => advances_readBehind version
  · exact advances_readBehind version

theorem advances_read : Advances read byteLength :=
  (Advances.little 1 _).bind fun version => advances_readChecked version

/-- A header is read from ten bytes in front, which mark themselves off. -/
theorem exists_head {header : Header} {bytes : ByteArray} (h : ofBytes bytes = .ok header) :
    ∃ head : List UInt8, head.length = byteLength ∧ head <+: bytes.data.toList ∧
      Reads read head header := by
  obtain ⟨⟨found, after⟩, hrun, hfound⟩ := bind_eq_ok.1 h
  obtain rfl := Except.ok.inj hfound
  obtain ⟨head, hlead, hlength, hreads⟩ := delimited_read.takes.run hrun
  have hposition := advances_read _ _ _ (Read.run_eq_ok.1 hrun)
  rw [hlength, Reader.ofBytes, Nat.zero_add] at hposition
  exact ⟨head, hposition, hlead, hreads⟩

theorem ofBytes_of_reads {header : Header} {head : ByteArray}
    (h : Reads read head.data.toList header) (rest : ByteArray) :
    ofBytes (head ++ rest) = .ok header := by
  have hlead : head.data.toList <+: (head ++ rest).data.toList := by
    rw [ByteArray.data_append, Array.toList_append]
    exact List.prefix_append ..
  rw [ofBytes, Read.run_of_reads h hlead]
  rfl

end Header

/-! ### Bytes cut short -/

theorem Bytes.extract_zero_append (first second : ByteArray) (count : Nat) :
    (first ++ second).extract 0 (first.size + count) = first ++ second.extract 0 count := by
  have hfirst : first.extract 0 (first.size + count) = first := by
    rw [← Nat.max_eq_left (Nat.le_add_right first.size count), ByteArray.extract_zero_max_size]
  rw [ByteArray.extract_append, Nat.zero_sub, Nat.add_sub_cancel_left, hfirst]

/-- Bytes that a parser takes are corrupt when they are cut short. -/
theorem Read.run_cut {α : Type} {step : Read α} {front : ByteArray} {value : α}
    (h : Reads step front.data.toList value) {cut : Nat} (hcut : cut < front.size) :
    ∃ cause, Read.run step (front.extract 0 cut) = .error (.corrupt cause) := by
  have hrest : (Reader.ofBytes (front.extract 0 cut)).rest = front.data.toList.take cut := by
    rw [Reader.rest_ofBytes, ByteArray.data_extract, Array.toList_extract,
      List.extract_eq_take_drop, List.drop_zero, Nat.sub_zero]
  have hne : front.data.toList.take cut ≠ front.data.toList := by
    intro heq
    have hlength := congrArg List.length heq
    rw [List.length_take, Array.length_toList] at hlength
    have hsize : front.data.size = front.size := rfl
    omega
  obtain ⟨cause, after, herror⟩ := h.refuses (Reader.ofBytes (front.extract 0 cut))
    (hrest ▸ List.take_prefix ..) (hrest ▸ hne)
  exact ⟨cause, by rw [Read.run, herror]⟩

/-- What is read up to the end is read from all of the bytes. -/
theorem Read.reads_of_run {α : Type} {step : Read α} (hdelimited : Delimited step)
    {bytes : ByteArray} {value : α} {reader : Reader}
    (h : Read.run step bytes = .ok (value, reader)) (hend : reader.position = bytes.size) :
    Reads step bytes.data.toList value := by
  obtain ⟨front, hlead, hposition, hreads⟩ := hdelimited.takes.run h
  have hall : front = bytes.data.toList :=
    hlead.eq_of_length ((hposition.symm.trans hend).trans Array.length_toList.symm)
  exact hall ▸ hreads

/-- The bytes in front are those that a string starts with. -/
theorem Bytes.toByteArray_of_prefix {front : List UInt8} {bytes : ByteArray}
    (h : front <+: bytes.data.toList) : front.toByteArray = bytes.extract 0 front.length := by
  apply ByteArray.ext
  apply Array.toList_inj.1
  rw [ByteArray.data_extract, Array.toList_extract, List.extract_eq_take_drop, List.drop_zero,
    Nat.sub_zero, List.toList_data_toByteArray]
  exact List.prefix_iff_eq_take.1 h

namespace Store

variable {store : Store} {header : Header} {bytes head data table : ByteArray}

/-! ### The parts of a store -/

/-- Opens a store from the bytes of its table, once its header and its data are found. -/
def ofTable (header : Header) (data : ByteArray) (totalSize : Nat) (table : ByteArray) :
    Except Error Store := do
  let (offsets, reader) ← Read.run Line.read table
  if reader.position ≠ table.size then
    throw (.corrupt (.bytesAfterTable (table.size - reader.position)))
  checkOffsets offsets header.dataLength 0 0
  return ⟨header, data, offsets, totalSize⟩

theorem ofBytes_eq (bytes : ByteArray) : ofBytes bytes = (do
    let header ← Header.ofBytes bytes
    let data ← Bytes.slice bytes Header.byteLength header.dataLength
    let table ← Bytes.sliceFrom bytes (Header.byteLength + header.dataLength)
    ofTable header data bytes.size table) :=
  rfl

/-- Bytes behind a header and its data are the table. -/
theorem ofBytes_append (hsize : head.size = Header.byteLength)
    (hhead : Reads Header.read head.data.toList header) (hdata : data.size = header.dataLength)
    (table : ByteArray) :
    ofBytes (head ++ data ++ table) = ofTable header data (head ++ data ++ table).size table := by
  have hheader := Header.ofBytes_of_reads hhead (data ++ table)
  have hslice := Bytes.slice_append head data table
  have hrest := Bytes.sliceFrom_append (head ++ data) table
  rw [← ByteArray.append_assoc] at hheader
  rw [hsize, hdata] at hslice
  rw [ByteArray.size_append, hsize, hdata] at hrest
  rw [ofBytes_eq, hheader]
  show (Bytes.slice (head ++ data ++ table) _ _ >>= fun found => _) = _
  rw [hslice]
  show (Bytes.sliceFrom (head ++ data ++ table) _ >>= fun found => _) = _
  rw [hrest]
  rfl

/-- What the bytes of a store are made of: its header, its data and its table. -/
structure Parts (store : Store) (head table : ByteArray) : Prop where
  size_head : head.size = Header.byteLength
  reads_head : Reads Header.read head.data.toList store.header
  size_data : store.data.size = store.header.dataLength
  reads_table : Reads Line.read table.data.toList store.offsets
  checked : checkOffsets store.offsets store.header.dataLength 0 0 = .ok ()

/-- A store is opened from its parts. -/
theorem Parts.opens (h : store.Parts head table)
    (htotal : store.totalSize = (head ++ store.data ++ table).size) :
    ofBytes (head ++ store.data ++ table) = .ok store := by
  have hrun := Read.run_of_reads h.reads_table List.prefix_rfl
  have hposition : ((Reader.ofBytes table).forward table.data.toList.length).position
      = table.size := by
    rw [Reader.position_forward (by simp), Reader.ofBytes, Nat.zero_add, Array.length_toList]
    rfl
  rw [ofBytes_append h.size_head h.reads_head h.size_data, ← htotal]
  refine bind_eq_ok.2 ⟨_, hrun, ?_⟩
  simp only [hposition, ne_eq, not_true_eq_false, if_false]
  exact bind_eq_ok.2 ⟨(), h.checked, rfl⟩

/-- The bytes of a store are its parts and nothing else. -/
theorem exists_parts (h : ofBytes bytes = .ok store) :
    ∃ head table, store.Parts head table ∧ bytes = head ++ store.data ++ table ∧
      store.totalSize = bytes.size := by
  rw [ofBytes_eq] at h
  obtain ⟨header, hheader, h⟩ := bind_eq_ok.1 h
  obtain ⟨data, hdata, h⟩ := bind_eq_ok.1 h
  obtain ⟨table, htable, h⟩ := bind_eq_ok.1 h
  obtain ⟨⟨offsets, reader⟩, hrun, h⟩ := bind_eq_ok.1 h
  obtain ⟨head, hlength, hlead, hreads⟩ := Header.exists_head hheader
  obtain ⟨hinside, rfl⟩ := Bytes.slice_eq_ok.1 hdata
  obtain ⟨-, rfl⟩ := Bytes.sliceFrom_eq_ok.1 htable
  simp only at h
  split at h
  · exact absurd h (by simp [throw, throwThe, MonadExceptOf.throw, Bind.bind, Except.bind])
  next hend =>
    obtain ⟨_, hcheck, hstore⟩ := bind_eq_ok.1 h
    obtain rfl := Except.ok.inj hstore
    refine ⟨head.toByteArray, bytes.extract (Header.byteLength + header.dataLength) bytes.size,
      ⟨?_, ?_, ?_, ?_, hcheck⟩, ?_, rfl⟩
    · rw [List.size_toByteArray, hlength]
    · rwa [List.toList_data_toByteArray]
    · rw [ByteArray.size_extract, Nat.min_eq_left hinside, Nat.add_sub_cancel_left]
    · exact Read.reads_of_run Line.delimited_read hrun (Decidable.not_not.1 hend)
    · rw [Bytes.toByteArray_of_prefix hlead, hlength,
        ← ByteArray.extract_eq_extract_append_extract _ (Nat.zero_le _) (Nat.le_add_right _ _),
        ← ByteArray.extract_eq_extract_append_extract _ (Nat.zero_le _) hinside,
        ByteArray.extract_zero_size]

/-! ### Shorter and longer bytes -/

/-- A store that is cut short anywhere is corrupt. -/
theorem Parts.refuses_cut (h : store.Parts head table) {cut : Nat}
    (hcut : cut < (head ++ store.data ++ table).size) :
    ∃ cause, ofBytes ((head ++ store.data ++ table).extract 0 cut) = .error (.corrupt cause) := by
  rw [ByteArray.size_append, ByteArray.size_append] at hcut
  rcases Nat.lt_or_ge cut head.size with hhead | hhead
  · -- The header is cut.
    obtain ⟨cause, hrun⟩ := Read.run_cut h.reads_head hhead
    refine ⟨cause, ?_⟩
    rw [ByteArray.append_assoc, Bytes.extract_append_of_le (Nat.le_of_lt hhead), ofBytes_eq,
      Header.ofBytes, hrun]
    rfl
  · obtain ⟨rest, rfl⟩ := Nat.exists_eq_add_of_le hhead
    rcases Nat.lt_or_ge rest store.data.size with hdata | hdata
    · -- The data are cut.
      refine ⟨.sliceOutside Header.byteLength store.header.dataLength (head.size + rest), ?_⟩
      have hsize : (head ++ store.data.extract 0 rest).size = head.size + rest := by
        rw [ByteArray.size_append, ByteArray.size_extract, Nat.min_eq_left (Nat.le_of_lt hdata),
          Nat.sub_zero]
      have hslice : ¬ Header.byteLength + store.header.dataLength ≤ head.size + rest := by
        rw [← h.size_head, ← h.size_data]
        omega
      rw [ByteArray.append_assoc, Bytes.extract_zero_append,
        Bytes.extract_append_of_le (Nat.le_of_lt hdata), ofBytes_eq,
        Header.ofBytes_of_reads h.reads_head]
      show (Bytes.slice _ _ _ >>= fun found => _) = _
      rw [Bytes.slice, hsize, if_neg hslice]
      rfl
    · -- The table is cut.
      obtain ⟨left, rfl⟩ := Nat.exists_eq_add_of_le hdata
      obtain ⟨cause, hrun⟩ := Read.run_cut h.reads_table (show left < table.size by omega)
      refine ⟨cause, ?_⟩
      rw [← Nat.add_assoc, ← ByteArray.size_append, Bytes.extract_zero_append,
        ofBytes_append h.size_head h.reads_head h.size_data, ofTable, hrun]
      rfl

/-- Bytes behind a store make it corrupt. -/
theorem Parts.refuses_more (h : store.Parts head table) {more : ByteArray} (hmore : 0 < more.size) :
    ∃ cause, ofBytes (head ++ store.data ++ table ++ more) = .error (.corrupt cause) := by
  have hlead : table.data.toList <+: (table ++ more).data.toList := by
    rw [ByteArray.data_append, Array.toList_append]
    exact List.prefix_append ..
  have hrun := Read.run_of_reads h.reads_table hlead
  have hposition : ((Reader.ofBytes (table ++ more)).forward table.data.toList.length).position
      = table.size := by
    rw [Reader.position_forward hlead.length_le, Reader.ofBytes, Nat.zero_add, Array.length_toList]
    rfl
  have hbehind : table.size ≠ (table ++ more).size := by
    rw [ByteArray.size_append]
    omega
  refine ⟨.bytesAfterTable ((table ++ more).size - table.size), ?_⟩
  rw [ByteArray.append_assoc, ofBytes_append h.size_head h.reads_head h.size_data, ofTable, hrun]
  simp only [Bind.bind, Except.bind, hposition, if_pos hbehind]
  rfl

end Store

end Postings
