/-
The lists of a store share its data out.

Opening a store checks that the first offset is 0, that no offset is below the one before
it and none beyond the data.  That is all that cutting the data relies on: every list has its
bytes, in order, without gaps and without overlaps, and their last byte is the last of the data.

* `Store.Starts`, `Store.Parts.exists_starts` — the offsets of a table that passes the check;
* `Store.Starts.raw_eq` — the bytes of a list are a part of the data;
* `Store.ofBytes_partition` — every store that opens.
-/
import Mathlib
import Postings.Proofs.Bytes.Cuts
import Postings.Proofs.Store.Caching
import Postings.Proofs.Store.Opening

namespace Postings.Store

open Layout

/-! ### Offsets -/

/-- The offsets of a table that passes the check from one id on. -/
theorem exists_offsets {line : Line} {limit id previous : Nat}
    (h : checkOffsets line limit id previous = .ok ()) :
    ∃ starts : List Nat, starts.length = line.size - id ∧
      (∀ (position : Nat) start, starts[position]? = some start →
        line.get (id + position) = .ok start) ∧
      (previous :: starts).Pairwise (· ≤ ·) ∧ (∀ start ∈ starts, start ≤ limit) ∧
      (id = 0 → ∀ start, starts[0]? = some start → start = 0) := by
  fun_induction checkOffsets line limit id previous with
  | case1 id previous hid error hget => exact absurd h (by simp)
  | case2 id previous hid offset hget hbad => exact absurd h (by simp)
  | case3 id previous hid offset hget hgood ih =>
    obtain ⟨starts, hlength, hstarts, hrising, hinside, -⟩ := ih h
    have hgood : previous ≤ offset ∧ offset ≤ limit ∧ (id = 0 → offset = 0) := by omega
    have hfirst := (List.pairwise_cons.1 hrising).1
    refine ⟨offset :: starts, ?_, fun position start hstart => ?_, ?_, ?_, ?_⟩
    · rw [List.length_cons, hlength]
      omega
    · cases position with
      | zero => rw [Nat.add_zero, hget, Option.some.inj hstart]
      | succ position =>
        rw [show id + (position + 1) = id + 1 + position by omega]
        exact hstarts position start hstart
    · refine List.pairwise_cons.2 ⟨fun start hstart => ?_, hrising⟩
      rcases List.mem_cons.1 hstart with rfl | hstart
      · exact hgood.1
      · exact Nat.le_trans hgood.1 (hfirst start hstart)
    · intro start hstart
      rcases List.mem_cons.1 hstart with rfl | hstart
      · exact hgood.2.1
      · exact hinside start hstart
    · intro hzero start hstart
      rw [← Option.some.inj hstart]
      exact hgood.2.2 hzero
  | case4 id previous hid =>
    refine ⟨[], ?_, fun _ _ hstart => absurd hstart (by simp), List.pairwise_singleton .., ?_, ?_⟩
    · rw [List.length_nil]
      omega
    · exact fun _ hstart => absurd hstart List.not_mem_nil
    · exact fun _ _ hstart => absurd hstart (by simp)

variable {C : Type} {store : Store} {bytes head table : ByteArray} {starts : List Nat}

/-- Where the lists of a store start in its data, which they cut. -/
structure Starts (store : Store) (starts : List Nat) : Prop where
  length_eq : starts.length = store.size
  get_eq : ∀ id start, starts[id]? = some start → store.offsets.get id = .ok start
  cutting : Bytes.Cutting store.data starts
  size_data : store.data.size = store.dataSize
  zero : ∀ start, starts[0]? = some start → start = 0

theorem Parts.exists_starts (h : store.Parts head table) : ∃ starts, store.Starts starts := by
  obtain ⟨starts, hlength, hget, hrising, hinside, hzero⟩ := exists_offsets h.checked
  refine ⟨starts, hlength, fun id start hstart => ?_,
    ⟨(List.pairwise_cons.1 hrising).2, fun start hstart => ?_⟩, h.size_data, hzero rfl⟩
  · rw [← hget id start hstart, Nat.zero_add]
  · rw [h.size_data]
    exact hinside start hstart

/-! ### Bytes of lists -/

theorem Starts.stopOf_eq (h : store.Starts starts) (id : Nat) :
    store.stopOf id = .ok (starts[id + 1]?.getD store.data.size) := by
  rw [stopOf]
  by_cases hnext : id + 1 < store.size
  · have hsome := List.getElem?_eq_getElem (h.length_eq ▸ hnext)
    rw [if_pos hnext, h.get_eq _ _ hsome, hsome, Option.getD_some]
  · rw [if_neg hnext, List.getElem?_eq_none (h.length_eq ▸ Nat.le_of_not_lt hnext),
      Option.getD_none, h.size_data]
    rfl

/-- The bytes of a list are those between its offset and where it stops. -/
theorem Starts.raw_eq (h : store.Starts starts) {id : Nat} (hid : id < store.size) :
    ∃ start stop, store.offsets.get id = .ok start ∧ store.stopOf id = .ok stop ∧
      start ≤ stop ∧ stop ≤ store.dataSize ∧
      (Bytes.cuts store.data starts)[id]? = some (store.data.extract start stop) ∧
      store.raw id = .ok (store.data.extract start stop) := by
  have hstart := List.getElem?_eq_getElem (h.length_eq ▸ hid)
  obtain ⟨hle, hinside⟩ := h.cutting.bounds hstart
  have hget := h.get_eq _ _ hstart
  have hstop := h.stopOf_eq id
  refine ⟨_, _, hget, hstop, hle, h.size_data ▸ hinside, ?_, ?_⟩
  · rw [Bytes.getElem?_cuts, hstart, Option.map_some]
  · rw [raw, if_pos hid, hget, hstop]
    show Bytes.slice store.data _ _ = _
    rw [Bytes.slice_eq_ok, Nat.add_sub_cancel' hle]
    exact ⟨hinside, rfl⟩

theorem raw_of_size_le {id : Nat} (h : store.size ≤ id) :
    store.raw id = .error (.outOfBounds id store.size) := by
  rw [raw, if_neg (Nat.not_lt.2 h)]

theorem load_of_size_le {id : Nat} (h : store.size ≤ id) :
    store.load id = .error (.outOfBounds id store.size) := by
  rw [load, raw_of_size_le h]
  rfl

/-- A list that is loaded is written with the bytes that it was loaded from. -/
theorem raw_of_load {id : Nat} {set : ItemSet} (h : store.load id = .ok set) :
    store.raw id = .ok set.toBytes := by
  obtain ⟨bytes, hraw, hset, hall⟩ := load_eq_ok.1 h
  rw [hraw, ItemSet.toBytes, ItemSet.encoded_of_whole hset hall]

/-! ### Stores that open -/

/-- A store that opens and is not empty shares out all of its data among its lists, in order; a
list that can be loaded ascends and is written with its own bytes; and whatever cache lists go
through, they are the ones that are loaded. -/
theorem ofBytes_partition (caching : Caching C) (hrecalls : caching.Recalls)
    (hopen : ofBytes bytes = .ok store) (hsome : 0 < store.size) :
    (∃ parts : List ByteArray, parts.length = store.size ∧
      (∀ id < store.size, ∃ start stop part, store.offsets.get id = .ok start ∧
        store.stopOf id = .ok stop ∧ start ≤ stop ∧ stop ≤ store.dataSize ∧
        parts[id]? = some part ∧ store.raw id = .ok part ∧ part.size = stop - start) ∧
      Bytes.joined parts
        = bytes.extract Header.byteLength (Header.byteLength + store.dataSize)) ∧
    Header.byteLength + store.dataSize ≤ bytes.size ∧
    (∀ id set, store.load id = .ok set →
      Ascending set.items ∧ store.raw id = .ok set.toBytes) ∧
    (∀ id, store.size ≤ id → store.raw id = .error (.outOfBounds id store.size) ∧
      store.load id = .error (.outOfBounds id store.size)) ∧
    (∀ asked id, (store.getThrough caching id (store.cacheThrough caching asked)).1
      = store.load id) ∧
    ∀ asked id, (store.get id (store.cacheAfter asked)).1 = store.load id := by
  obtain ⟨head, table, hparts, rfl, -⟩ := exists_parts hopen
  obtain ⟨starts, hstarts⟩ := hparts.exists_starts
  have hregion : (head ++ store.data ++ table).extract Header.byteLength
      (Header.byteLength + store.dataSize) = store.data := by
    have hslice := (Bytes.slice_eq_ok.1 (Bytes.slice_append head store.data table)).2
    rwa [hparts.size_head, hstarts.size_data] at hslice
  refine ⟨⟨Bytes.cuts store.data starts, ?_, fun id hid => ?_, ?_⟩, ?_, fun id set hload => ?_,
    fun id hid => ⟨raw_of_size_le hid, load_of_size_le hid⟩,
    fun asked id => getThrough_eq hrecalls store asked id,
    fun asked id => get_cacheAfter store id asked⟩
  · rw [Bytes.length_cuts, hstarts.length_eq]
  · obtain ⟨start, stop, hget, hstop, hle, hinside, hpart, hraw⟩ := hstarts.raw_eq hid
    refine ⟨start, stop, _, hget, hstop, hle, hinside, hpart, hraw, ?_⟩
    rw [ByteArray.size_extract, hstarts.size_data, Nat.min_eq_left hinside]
  · -- The first list starts with the data.
    have hfirst : starts.headD store.data.size = 0 := by
      have hlt : 0 < starts.length := hstarts.length_eq ▸ hsome
      have hhead := List.getElem?_eq_getElem hlt
      rw [List.headD_eq_head?_getD, List.head?_eq_getElem?, hhead, Option.getD_some]
      exact hstarts.zero _ hhead
    rw [Bytes.joined_cuts hstarts.cutting, hfirst, ByteArray.extract_zero_size, hregion]
  · rw [ByteArray.size_append, ByteArray.size_append, hparts.size_head, hstarts.size_data]
    exact Nat.le_add_right _ _
  · obtain ⟨raw, -, hset, -⟩ := load_eq_ok.1 hload
    exact ⟨(ItemSet.ofBytes_eq_ok.1 hset).2, raw_of_load hload⟩

/-- A store of the lists `[]` and `[3, 7]`. -/
theorem ofBytes_partition_two : ∃ bytes store,
    bytes = [1, 1, 18, 0, 0, 0, 0, 0, 0, 0, 1, 0, 0, 0, 0, 1, 2, 0, 0, 0, 3, 0, 0, 0, 7, 0, 0, 0,
      2, 5, 2, 2, 9].toByteArray ∧
    ofBytes bytes = .ok store ∧ 0 < store.size ∧
    (∃ parts : List ByteArray, parts.length = store.size ∧ Bytes.joined parts
      = bytes.extract Header.byteLength (Header.byteLength + store.dataSize)) ∧
    ∀ asked id, (store.getThrough Caching.recent id (store.cacheThrough Caching.recent asked)).1
      = store.load id := by
  obtain ⟨bytes, hbytes⟩ : ∃ bytes, bytes = [1, 1, 18, 0, 0, 0, 0, 0, 0, 0, 1, 0, 0, 0, 0, 1,
    2, 0, 0, 0, 3, 0, 0, 0, 7, 0, 0, 0, 2, 5, 2, 2, 9].toByteArray := ⟨_, rfl⟩
  have hsize : (ofBytes bytes).map size = .ok 2 := by
    rw [hbytes]
    cbv
  cases hopen : ofBytes bytes with
  | error error =>
    rw [hopen] at hsize
    exact absurd hsize (by simp [Except.map])
  | ok store =>
    rw [hopen] at hsize
    have hsome : 0 < store.size := Except.ok.inj hsize ▸ Nat.two_pos
    obtain ⟨⟨parts, hlength, -, hjoined⟩, -, -, -, hcached, -⟩ :=
      ofBytes_partition Caching.recent Caching.recalls_recent hopen hsome
    exact ⟨bytes, store, hbytes, hopen, hsome, ⟨parts, hlength, hjoined⟩, hcached⟩

end Postings.Store
