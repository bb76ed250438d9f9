/-
A flushed factory opens, and nothing shorter or longer does.

Entries are stored one behind the other, so their offsets cut the data of every factory
that calls can lead to, whatever is stored.  That is enough for the bytes of the store to
open; and since the store is marked off by itself, they are the only ones.

* `Factory.Laid`, `Factory.Laid.runCalls` — entries stand one behind the other;
* `Factory.Laid.exists_flush`, `Factory.Laid.exists_parts` — what is flushed;
* `Factory.Laid.exists_store` — the store that it opens as;
* `Factory.flush_exact` — the store of any factory that calls can lead to.
-/
import Postings.Proofs.Bytes.Cuts
import Postings.Proofs.Factory.Plan
import Postings.Proofs.Store.Opening

namespace Postings

open Layout

namespace Store

/-- Rising offsets that start at 0 and stay within the limit pass the check. -/
theorem checkOffsets_eq_ok {line : Line} {limit : Nat} {offsets : List Nat}
    (hsize : line.size = offsets.length)
    (hget : ∀ id (h : id < offsets.length), line.get id = .ok offsets[id])
    (hrising : offsets.Pairwise (· ≤ ·)) (hlimit : ∀ offset ∈ offsets, offset ≤ limit)
    (hzero : ∀ h : 0 < offsets.length, offsets[0] = 0) (id previous : Nat)
    (hprevious : ∀ h : id < offsets.length, previous ≤ offsets[id]) :
    checkOffsets line limit id previous = .ok () := by
  generalize hleft : offsets.length - id = left
  induction left using Nat.strongRecOn generalizing id previous with
  | _ left ih =>
    rw [checkOffsets]
    by_cases hid : id < offsets.length
    · have hgood : ¬ (offsets[id] < previous ∨ limit < offsets[id]
          ∨ (id = 0 ∧ offsets[id] ≠ 0)) := by
        rintro (h | h | ⟨rfl, h⟩)
        · exact Nat.not_lt.2 (hprevious hid) h
        · exact Nat.not_lt.2 (hlimit _ (List.getElem_mem hid)) h
        · exact h (hzero hid)
      rw [if_pos (hsize ▸ hid), hget id hid]
      simp only
      rw [if_neg hgood]
      refine ih _ (by omega) (id + 1) offsets[id] (fun hnext => ?_) rfl
      exact List.pairwise_iff_getElem.1 hrising id (id + 1) hid hnext (Nat.lt_succ_self id)
    · rw [if_neg (hsize ▸ hid)]

variable {store : Store} {factory : Factory} {id : Nat}

theorem stopOf_eq (hsize : store.size = factory.offsets.size)
    (hget : ∀ id (h : id < factory.offsets.size), store.offsets.get id = .ok factory.offsets[id])
    (hdata : store.header.dataLength = factory.data.size) :
    store.stopOf id = .ok (factory.stopOf id) := by
  rw [stopOf, Factory.stopOf, hsize]
  by_cases hnext : id + 1 < factory.offsets.size
  · rw [if_pos hnext, hget _ hnext, Array.getElem?_eq_getElem hnext, Option.getD_some]
  · rw [if_neg hnext, Array.getElem?_eq_none (Nat.le_of_not_lt hnext), Option.getD_none, hdata]

end Store

namespace Factory

variable {config : Config} {factory first : Factory} {bytes : ByteArray}

/-! ### Entries one behind the other -/

/-- Where the entries start, and where the last one stops. -/
def marks (factory : Factory) : List Nat :=
  factory.offsets.toList ++ [factory.data.size]

/-- The first entry starts with the data, and every other one where the one before it stops. -/
structure Laid (factory : Factory) : Prop where
  rising : factory.marks.Pairwise (· ≤ ·)
  zero : factory.marks.head? = some 0

theorem marks_grow (bytes : ByteArray) (factory : Factory) :
    (factory.grow bytes).marks = factory.marks ++ [factory.data.size + bytes.size] := by
  rw [marks, grow, Array.toList_push, ByteArray.size_append]
  rfl

/-- New bytes stand behind all others. -/
theorem Laid.grow (h : factory.Laid) (bytes : ByteArray) : (factory.grow bytes).Laid := by
  obtain ⟨hrising, hzero⟩ := h
  refine ⟨?_, ?_⟩
  · rw [marks_grow]
    refine List.pairwise_append.2
      ⟨hrising, List.pairwise_singleton .., fun mark hmark last hlast => ?_⟩
    rw [List.mem_singleton.1 hlast]
    -- No mark is beyond the data, which is the last of them.
    rcases List.mem_append.1 hmark with hold | hend
    · have hle := (List.pairwise_append.1 hrising).2.2 mark hold _ (List.mem_singleton.2 rfl)
      exact Nat.le_trans hle (Nat.le_add_right _ _)
    · rw [List.mem_singleton.1 hend]
      exact Nat.le_add_right _ _
  · rw [marks_grow, List.head?_append, hzero]
    rfl

theorem Laid.after_insert (h : factory.Laid) (bytes : ByteArray) :
    (after (insert bytes factory)).Laid := by
  have hgrow := h.grow bytes
  rcases insert_cases bytes factory with ⟨id, -, hinsert⟩ | ⟨-, buckets, hinsert⟩ | ⟨-, hinsert⟩
  · rw [hinsert]
    exact ⟨h.rising, h.zero⟩
  · rw [hinsert]
    exact ⟨hgrow.rising, hgrow.zero⟩
  · rw [hinsert]
    exact h

theorem laid_blank (config : Config) (fingerprint : Fingerprint) :
    (blank config fingerprint).Laid :=
  ⟨List.pairwise_singleton .., rfl⟩

theorem laid_of_make {fingerprint : Fingerprint} (h : make config fingerprint = .ok factory) :
    factory.Laid := by
  obtain ⟨-, empty, -, hinsert⟩ := make_eq_ok.1 h
  have hafter := (laid_blank config fingerprint).after_insert empty
  rwa [hinsert] at hafter

theorem Laid.runCalls (h : factory.Laid) (calls : List Call) : (factory.runCalls calls).Laid :=
  after_runCalls (fun bytes _ hmiddle => hmiddle.after_insert bytes) h calls

/-- The offsets cut the data. -/
theorem Laid.cutting (h : factory.Laid) : Bytes.Cutting factory.data factory.offsets.toList := by
  obtain ⟨hrising, -, hlast⟩ := List.pairwise_append.1 h.rising
  exact ⟨hrising, fun start hstart => hlast start hstart _ (List.mem_singleton.2 rfl)⟩

theorem Laid.getElem_zero (h : factory.Laid) (hsome : 0 < factory.offsets.toList.length) :
    factory.offsets.toList[0] = 0 := by
  have hzero := h.zero
  rw [marks, List.head?_append, List.head?_eq_getElem?, List.getElem?_eq_getElem hsome] at hzero
  exact Option.some.inj hzero

/-! ### What is flushed -/

theorem flushTo_eq (factory : Factory) (out : ByteArray) :
    factory.flushTo out =
      (do
        let table ← Line.encode factory.config.tuning.fit factory.offsets.toList ByteArray.empty
        .ok (out ++ (Header.make factory.config.codec factory.dataSize).toBytes ++ factory.data
          ++ table, Header.byteLength + factory.dataSize + table.size)) := rfl

/-- What flushing appends: a header, the data, and the offsets along some line. -/
theorem flush_eq_ok (h : factory.flush = .ok bytes) : ∃ table,
    Line.encode factory.config.tuning.fit factory.offsets.toList ByteArray.empty = .ok table ∧
      bytes = (Header.make factory.config.codec factory.dataSize).toBytes ++ factory.data ++ table ∧
      ∀ out, factory.flushTo out = .ok (out ++ bytes, bytes.size) := by
  rw [flush] at h
  obtain ⟨answer, hanswer, hbytes⟩ := bind_eq_ok.1 h
  rw [flushTo_eq] at hanswer
  obtain ⟨table, htable, hparts⟩ := bind_eq_ok.1 hanswer
  obtain rfl := Except.ok.inj hparts
  have hwritten := Except.ok.inj hbytes
  simp only [ByteArray.empty_append] at hwritten
  refine ⟨table, htable, hwritten.symm, fun out => ?_⟩
  rw [flushTo_eq, htable]
  show Except.ok _ = _
  rw [← hwritten]
  simp only [ByteArray.append_assoc, ByteArray.size_append, Header.size_toBytes, dataSize,
    Nat.add_assoc]

/-- A factory is flushed if its data stay below 2^63 bytes and its offsets are fitted a slope below
2^63. -/
theorem Laid.exists_flush (h : factory.Laid) (hfew : factory.offsets.size < 2 ^ 32)
    (hdata : factory.data.size < 2 ^ 63)
    (hfit : (factory.config.tuning.fit factory.offsets.toList).toNat < 2 ^ 63) :
    ∃ bytes, factory.flush = .ok bytes := by
  have hlength : factory.offsets.toList.length < 2 ^ 32 := hfew
  obtain ⟨table, htable⟩ := Line.exists_encodeAlong_of_lt hlength hfit
    (fun start hstart => Nat.lt_of_le_of_lt (h.cutting.inside start hstart) hdata) ByteArray.empty
  rw [flush, flushTo_eq, Line.encode, htable]
  exact ⟨_, rfl⟩

/-- What is flushed is a store with the data and the offsets of the factory. -/
theorem Laid.exists_parts (h : factory.Laid) (hdata : factory.data.size < 2 ^ 64)
    (hflush : factory.flush = .ok bytes) : ∃ (store : Store) (head table : ByteArray),
      store.Parts head table ∧ bytes = head ++ store.data ++ table ∧
      store.totalSize = bytes.size ∧
      store.header = Header.make factory.config.codec factory.data.size ∧
      store.data = factory.data ∧ store.size = factory.offsets.size ∧
      ∀ id (h : id < factory.offsets.size), store.offsets.get id = .ok factory.offsets[id] := by
  obtain ⟨table, htable, hbytes, -⟩ := flush_eq_ok hflush
  have hcutting := h.cutting
  have hoffsets : ∀ offset ∈ factory.offsets.toList, offset < 2 ^ 64 :=
    fun offset hoffset => Nat.lt_of_le_of_lt (hcutting.inside offset hoffset) hdata
  -- Whichever line the offsets are written along, the same offsets are read.
  obtain ⟨front, line, hfront, hreads, hsize, hvalues⟩ :=
    Line.reads_encodeAlong (UInt64.toNat_lt _) hoffsets htable
  rw [ByteArray.empty_append] at hfront
  have hget : ∀ id (h : id < factory.offsets.toList.length),
      line.get id = .ok factory.offsets.toList[id] := by
    intro id hid
    exact Line.get_eq_ok (hsize ▸ hid) (hvalues id hid) (hoffsets _ (List.getElem_mem hid))
  refine ⟨⟨Header.make factory.config.codec factory.data.size, factory.data, line, bytes.size⟩,
    _, table, ⟨Header.size_toBytes _, ?_, rfl, ?_, ?_⟩, hbytes, rfl, rfl, rfl, hsize, hget⟩
  · rw [Header.toBytes_eq, List.toList_data_toByteArray]
    exact Header.reads_front _ hdata
  · rw [hfront, List.toList_data_toByteArray]
    exact hreads
  · exact Store.checkOffsets_eq_ok hsize hget hcutting.rising hcutting.inside h.getElem_zero 0 0
      fun _ => Nat.zero_le _

/-- The store that is flushed cuts its data where the factory does. -/
theorem Laid.exists_store (h : factory.Laid) (hdata : factory.data.size < 2 ^ 64)
    (hflush : factory.flush = .ok bytes) : ∃ store, Store.ofBytes bytes = .ok store ∧
      store.header = Header.make factory.config.codec factory.data.size ∧
      store.size = factory.offsets.size ∧
      ∀ id entry, factory.stored? id = some entry → store.raw id = .ok entry := by
  obtain ⟨store, head, table, hparts, rfl, htotal, hheader, hstored, hsize, hget⟩ :=
    h.exists_parts hdata hflush
  have hlength : store.header.dataLength = factory.data.size := by rw [hheader]; rfl
  refine ⟨store, hparts.opens htotal, hheader, hsize, fun id entry hentry => ?_⟩
  have hid := lt_size_of_stored? hentry
  have hcutting := h.cutting
  obtain ⟨hstart, hstop, hextract⟩ := exists_entry hcutting.rising
    (fun start hmem => hcutting.inside start (Array.mem_toList_iff.2 hmem)) hid
  rw [Store.raw, if_pos (hsize ▸ hid), hget id hid, Store.stopOf_eq hsize hget hlength]
  show Bytes.slice store.data _ _ = _
  rw [Bytes.slice_eq_ok, Nat.add_sub_cancel' hstart, hstored]
  exact ⟨hstop, Option.some.inj (hextract.symm.trans hentry)⟩

/-- Whatever is called before, the bytes that are flushed open as a store; cut short anywhere
or followed by anything they are corrupt.  No more data fits in memory than 64 bits can count. -/
theorem flush_exact (config : Config) (fingerprint : Fingerprint) (calls : List Call)
    (hmake : make config fingerprint = .ok first)
    (hdata : (first.runCalls calls).data.size < 2 ^ 64)
    (hflush : (first.runCalls calls).flush = .ok bytes) :
    (∃ store, Store.ofBytes bytes = .ok store) ∧
    (∀ cut < bytes.size, ∃ cause, Store.ofBytes (bytes.extract 0 cut) = .error (.corrupt cause)) ∧
    ∀ more : ByteArray, 0 < more.size →
      ∃ cause, Store.ofBytes (bytes ++ more) = .error (.corrupt cause) := by
  have hlaid := (laid_of_make hmake).runCalls calls
  obtain ⟨store, head, table, hparts, rfl, htotal, -⟩ := hlaid.exists_parts hdata hflush
  exact ⟨⟨store, hparts.opens htotal⟩, fun cut hcut => hparts.refuses_cut hcut,
    fun more hmore => hparts.refuses_more hmore⟩

theorem flush_exact_native :
    ∃ first bytes,
      make { codec := .native, tuning := { fit := fun _ => 5 }, deduplicate := false }
        (fun _ => 0) = .ok first ∧
      (first.runCalls [.addItems [3, 7]]).flush = .ok bytes ∧
      (∃ store, Store.ofBytes bytes = .ok store) ∧
      ∀ cut < bytes.size, ∃ cause,
        Store.ofBytes (bytes.extract 0 cut) = .error (.corrupt cause) := by
  obtain ⟨first, hmake⟩ : ∃ first,
      make { codec := .native, tuning := { fit := fun _ => 5 }, deduplicate := false }
        (fun _ => 0) = .ok first := ⟨_, rfl⟩
  obtain ⟨bytes, hflush, hdata⟩ : ∃ bytes,
      (first.runCalls [.addItems [3, 7]]).flush = .ok bytes ∧
      (first.runCalls [.addItems [3, 7]]).data.size = 18 := by
    obtain rfl := Except.ok.inj hmake
    exact ⟨_, rfl, rfl⟩
  obtain ⟨hopen, hcuts, -⟩ := flush_exact _ (fun _ => 0) _ hmake (by rw [hdata]; decide) hflush
  exact ⟨first, bytes, hmake, hflush, hopen, hcuts⟩

end Factory

end Postings
