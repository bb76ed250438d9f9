/-
All items in a native factory.

The native bytes of all items announce that no item follows, so they are not the bytes of one
whole list: a list in front of them ends after five bytes.  A factory stores them like any
others, and a store that is flushed has them; but no list of the store is read from them.

* `Factory.natively` — settings for native lists;
* `Factory.HoldsTwo`, `Factory.exists_run_second` — a factory that was given one other entry;
* `Factory.exists_run_full`, `Factory.HoldsTwo.exists_store_full` — these bytes are stored, and the
  store opens and does not give the list back.
-/
import Postings.Proofs.ItemSet.Full
import Postings.Proofs.Store.Exact

namespace Postings.Factory

open Layout

/-- Native lists, with or without shared ids; where they start is written along a line of slope
5. -/
def natively (deduplicate : Bool) : Config :=
  { codec := .native, tuning := { fit := fun _ => 5 }, deduplicate }

variable {deduplicate : Bool} {fingerprint : Fingerprint} {first last : Factory} {call : Call}

theorem encodeItems_natively (items : List Item) : encodeItems (natively deduplicate) items
    = .ok (Native.encode items (ItemSet.tagByte .native)) := rfl

theorem bytesOfItems_natively {items : List Item} (h : Ascending items) :
    bytesOfItems (natively deduplicate) items
      = .ok (Native.encode items (ItemSet.tagByte .native)) := by
  rw [bytesOfItems, firstDescent?_eq_none.2 h, encodeItems_natively]

theorem plan_addItems_natively {items : List Item} (h : Ascending items) :
    (Call.addItems items).plan (natively deduplicate)
      = .ofAnswer (.ok (Native.encode items (ItemSet.tagByte .native))) := by
  rw [Call.plan, bytesOfItems_natively h]

theorem plan_addSet_natively {set : ItemSet} {bytes : ByteArray} (hcodec : set.codec = .native)
    (hencoded : set.encoded = some bytes) :
    (Call.addSet set).plan (natively deduplicate) = .ofAnswer (.ok bytes) := by
  have hreused : reusableBytes? (natively deduplicate) set = some bytes := by
    rw [reusableBytes?, if_pos ⟨hcodec, by rw [hcodec]; decide⟩, hencoded]
  rw [Call.plan, bytesOf, hreused]

theorem exists_make_natively (deduplicate : Bool) (fingerprint : Fingerprint) :
    ∃ first, make (natively deduplicate) fingerprint = .ok first :=
  exists_make _ (show 128 ≠ 0 by decide) ⟨_, encodeItems_natively []⟩

theorem runCalls_of_run {ids : Array Nat} (h : call.run first = .ok ids last) :
    first.runCalls [call] = last := by
  show after (call.run first) = last
  rw [h]
  rfl

/-- A native factory that holds the empty list and one other entry. -/
structure HoldsTwo (deduplicate : Bool) (bytes : ByteArray) (factory : Factory) : Prop where
  indexed : factory.Indexed
  laid : factory.Laid
  config_eq : factory.config = natively deduplicate
  size_eq : factory.offsets.size = 2
  data_eq : factory.data = Native.encode [] (ItemSet.tagByte .native) ++ bytes
  empty_stored : factory.stored? 0 = some (Native.encode [] (ItemSet.tagByte .native))
  stored : factory.stored? 1 = some bytes

/-- A new factory stores bytes of another length under the id 1. -/
theorem exists_run_second {bytes : ByteArray}
    (hmake : make (natively deduplicate) fingerprint = .ok first)
    (hplan : call.plan (natively deduplicate) = .ofAnswer (.ok bytes)) (hsize : bytes.size ≠ 5) :
    ∃ last, call.run first = .ok #[1] last ∧ last.HoldsTwo deduplicate bytes := by
  obtain ⟨-, empty, hempty, hinsert⟩ := make_eq_ok.1 hmake
  obtain rfl := Except.ok.inj (hempty.symm.trans (encodeItems_natively []))
  have hindexed := indexed_of_make hmake
  have hlaid := laid_of_make hmake
  have hconfig := config_of_make hmake
  have hone := size_of_make hmake
  have hstored := (indexed_blank _ _).stored_of_insert hinsert
  have hdata : first.data = Native.encode [] (ItemSet.tagByte .native) := by
    obtain ⟨blank, hblank, -, hfirst⟩ := exists_insert_blank (natively deduplicate) fingerprint
      (Native.encode [] (ItemSet.tagByte .native))
    rw [hinsert] at hblank
    rw [(EStateM.Result.ok.inj hblank).2, hfirst]
  -- The only entry is that of the empty list, in five bytes.
  have hnew : ∀ id, first.stored? id ≠ some bytes := by
    intro id hid
    have hlt := lt_size_of_stored? hid
    rw [hone] at hlt
    obtain rfl := Nat.lt_one_iff.1 hlt
    exact hsize (congrArg ByteArray.size (Option.some.inj (hid.symm.trans hstored)))
  have hrun : call.run first = (do return #[← insert bytes] : Adding (Array Nat)) first := by
    rw [call.run_eq, hconfig, hplan]
    exact (Plan.carryOut_ofAnswer rfl).symm
  have hinsertion := hindexed.insertion bytes
  have hgrown := hlaid.after_insert bytes
  generalize hadded : insert bytes first = result at hinsertion hgrown
  cases hinsertion with
  | found id _ hfound => exact absurd hfound (hnew id)
  | full _ hfull => exact absurd hfull (by rw [hone]; decide)
  | added buckets _ _ hafter =>
    have hkept : (first.grow bytes).stored? 0 = _ :=
      stored?_grow_of_lt hindexed.inside (hone ▸ Nat.zero_lt_one)
    have hlast : (first.grow bytes).stored? first.offsets.size = some bytes := stored?_grow_size
    rw [hone] at hadded hlast
    refine ⟨_, hrun.trans (bind_of_ok hadded), hafter, hgrown, hconfig, ?_, ?_,
      hkept.trans hstored, hlast⟩
    · exact (Array.size_push _).trans (congrArg (· + 1) hone)
    · exact congrArg (· ++ bytes) hdata

/-- Its first entry is known where equal bytes share an id. -/
theorem HoldsTwo.exists_run_empty {bytes : ByteArray} (h : last.HoldsTwo true bytes)
    (hplan : call.plan (natively true)
      = .ofAnswer (.ok (Native.encode [] (ItemSet.tagByte .native)))) :
    ∃ final, call.run last = .ok #[0] final := by
  have hrun : call.run last
      = (do return #[← insert (Native.encode [] (ItemSet.tagByte .native))] : Adding (Array Nat))
        last := by
    rw [call.run_eq, h.config_eq, hplan]
    exact (Plan.carryOut_ofAnswer rfl).symm
  have hdedup : last.config.deduplicate = true := by rw [h.config_eq]; rfl
  have hinsertion := h.indexed.insertion (Native.encode [] (ItemSet.tagByte .native))
  generalize hadded : insert (Native.encode [] (ItemSet.tagByte .native)) last = result
    at hinsertion
  cases hinsertion with
  | added _ hnew => exact absurd h.empty_stored (hnew hdedup 0)
  | full hnew => exact absurd h.empty_stored (hnew hdedup 0)
  | found id _ hfound =>
    obtain rfl := h.indexed.unique hdedup id 0 _ hfound h.empty_stored
    exact ⟨_, hrun.trans (bind_of_ok hadded)⟩

/-- The store of such a factory opens and has both entries. -/
theorem HoldsTwo.exists_store {bytes : ByteArray} (h : last.HoldsTwo deduplicate bytes)
    (hshort : 5 + bytes.size < 2 ^ 63) : ∃ flushed store, last.flush = .ok flushed ∧
      Store.ofBytes flushed = .ok store ∧ store.size = 2 ∧ store.raw 1 = .ok bytes := by
  have hdata : last.data.size < 2 ^ 63 := by
    rw [h.data_eq, ByteArray.size_append]
    exact hshort
  have hfew : last.offsets.size < 2 ^ 32 := by
    rw [h.size_eq]
    decide
  obtain ⟨flushed, hflush⟩ := h.laid.exists_flush hfew hdata
    (by rw [h.config_eq]; exact show (5 : UInt64).toNat < 2 ^ 63 by decide)
  obtain ⟨store, hopen, -, hsize, hraw⟩ :=
    h.laid.exists_store (Nat.lt_trans hdata (by decide)) hflush
  exact ⟨flushed, store, hflush, hopen, hsize.trans h.size_eq, hraw 1 bytes h.stored⟩

/-! ### The bytes of all items -/

/-- The bytes of all items, wherever they come from, are stored under the id 1. -/
theorem exists_run_full (hmake : make (natively deduplicate) fingerprint = .ok first)
    (hplan : call.plan (natively deduplicate)
      = .ofAnswer (.ok (Native.encode allItems (ItemSet.tagByte .native)))) :
    ∃ last, call.run first = .ok #[1] last ∧
      last.HoldsTwo deduplicate (Native.encode allItems (ItemSet.tagByte .native)) := by
  refine exists_run_second hmake hplan ?_
  rw [ItemSet.size_encode_allItems]
  decide

/-- They are loaded from no store: the list in front of them takes five bytes. -/
theorem load_of_raw_full {store : Store} {id : Nat}
    (hraw : store.raw id = .ok (Native.encode allItems (ItemSet.tagByte .native))) :
    store.load id = .error (.corrupt (.partlyUsed id 5 (5 + 4 * 2 ^ 32))) := by
  obtain ⟨set, hblank, hset⟩ := ItemSet.ofBytes_encode_allItems
  have hne : set.byteLength ≠ (Native.encode allItems (ItemSet.tagByte .native)).size := by
    rw [hblank.byteLength_eq, ItemSet.size_encode_allItems]
    decide
  rw [Store.load_of_partlyUsed hraw hset hne, hblank.byteLength_eq, ItemSet.size_encode_allItems]

/-- The store of a factory that holds them does not give them back, though the factory has a list
under their id. -/
theorem HoldsTwo.exists_store_full
    (h : last.HoldsTwo deduplicate (Native.encode allItems (ItemSet.tagByte .native))) :
    ∃ flushed store set, last.flush = .ok flushed ∧ Store.ofBytes flushed = .ok store ∧
      store.size = 2 ∧ last.get 1 = .ok set ∧
      store.load 1 = .error (.corrupt (.partlyUsed 1 5 (5 + 4 * 2 ^ 32))) := by
  obtain ⟨flushed, store, hflush, hopen, hsize, hraw⟩ := h.exists_store (by
    rw [ItemSet.size_encode_allItems]
    decide)
  obtain ⟨set, -, -, hset⟩ := ItemSet.ofTrustedBytes_encode_allItems
  refine ⟨flushed, store, set, hflush, hopen, hsize, ?_, load_of_raw_full hraw⟩
  rw [get, h.stored]
  exact hset

end Postings.Factory
