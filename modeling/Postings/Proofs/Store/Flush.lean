/-
A flushed factory read back as a store.

The offsets come back exactly whatever line they are written along, so a store
cuts its data where the factory does; and what a factory stores are whole lists,
so loading them finds nothing amiss.

* `Store.Mirrors` — a store answers for every id as a factory does;
* `Factory.flush_mirrors` — the store of any factory that calls can lead to;
* `Factory.flush_full` — a factory that was given all items, whose store does not load them.
-/
import Postings.Proofs.Factory.Full
import Postings.Proofs.Store.Caching

namespace Postings

open Layout

namespace Store

/-! ### A store and its factory -/

/-- A store answers for every id as a factory does, whatever was asked of it before. -/
structure Mirrors (store : Store) (factory : Factory) : Prop where
  size_eq : store.size = factory.size
  dataSize_eq : store.dataSize = factory.dataSize
  codec_eq : store.header.codec = factory.config.codec.written
  inside : ∀ id < store.size, ∃ bytes set,
    factory.stored? id = some bytes ∧ store.raw id = .ok bytes ∧
    factory.get id = .ok set ∧ store.load id = .ok set ∧
    ∀ asked, (store.get id (store.cacheAfter asked)).1 = .ok set
  outside : ∀ id, store.size ≤ id →
    factory.get id = .error (.outOfBounds id store.size) ∧
    store.raw id = .error (.outOfBounds id store.size) ∧
    store.load id = .error (.outOfBounds id store.size) ∧
    ∀ asked, (store.get id (store.cacheAfter asked)).1 = .error (.outOfBounds id store.size)

variable {store : Store} {factory : Factory} {config : Config} {id : Nat}

/-- A store that has the entries of an intact factory mirrors it. -/
theorem mirrors_of_raw (hintact : factory.Intact config) (hfew : factory.offsets.size < 2 ^ 32)
    (hheader : store.header = Header.make config.codec factory.data.size)
    (hsize : store.size = factory.offsets.size)
    (hraw : ∀ id entry, factory.stored? id = some entry → store.raw id = .ok entry) :
    store.Mirrors factory := by
  have hfactory : factory.size = store.size := by
    rw [Factory.size, Nat.mod_eq_of_lt hfew, hsize]
  refine ⟨hfactory.symm, by rw [dataSize, hheader]; rfl, ?_, fun id hid => ?_, fun id hid => ?_⟩
  · rw [hheader, hintact.config_eq]
    rfl
  · obtain ⟨bytes, hentry⟩ : ∃ bytes, factory.stored? id = some bytes :=
      ⟨_, (Factory.exists_entry hintact.rising hintact.inside (hsize ▸ hid)).2.2⟩
    -- An entry is one whole list, so loading it finds nothing amiss.
    obtain ⟨set, hset, hwhole⟩ := hintact.whole id bytes hentry
    have hload : store.load id = .ok set :=
      load_eq_ok.2 ⟨bytes, hraw id bytes hentry, hset, hwhole⟩
    refine ⟨bytes, set, hentry, hraw id bytes hentry, ?_, hload, fun asked => ?_⟩
    · rw [Factory.get, hentry]
      exact (ItemSet.ofBytes_eq_ok.1 hset).1
    · rw [get_cacheAfter, hload]
  · have hraw : store.raw id = .error (.outOfBounds id store.size) := by
      rw [raw, if_neg (Nat.not_lt.2 hid)]
    have hload : store.load id = .error (.outOfBounds id store.size) := by
      rw [load, hraw]
      rfl
    refine ⟨?_, hraw, hload, fun asked => ?_⟩
    · rw [Factory.get, Factory.stored?, Array.getElem?_eq_none (hsize ▸ hid), Option.map_none,
        hfactory]
    · rw [get_cacheAfter, hload]

end Store

namespace Factory

variable {factory : Factory} {config : Config} {bytes : ByteArray}

theorem Intact.laid (h : factory.Intact config) : factory.Laid := by
  refine ⟨List.pairwise_append.2 ⟨h.rising, List.pairwise_singleton .., ?_⟩, ?_⟩
  · intro start hstart last hlast
    rw [List.mem_singleton.1 hlast]
    exact h.inside start (Array.mem_toList_iff.1 hstart)
  · have hzero := h.zero
    rw [← Array.getElem?_toList, ← List.head?_eq_getElem?] at hzero
    rw [marks, List.head?_append]
    cases hhead : factory.offsets.toList.head? with
    | none =>
      rw [hhead, Option.getD_none] at hzero
      exact congrArg some hzero
    | some start =>
      rw [hhead, Option.getD_some] at hzero
      exact congrArg some hzero

/-- The store of an intact factory mirrors it. -/
theorem Intact.mirrors (hintact : factory.Intact config) (hfew : factory.offsets.size < 2 ^ 32)
    (hdata : factory.data.size < 2 ^ 64) (h : factory.flush = .ok bytes) :
    ∃ store, Store.ofBytes bytes = .ok store ∧ store.Mirrors factory := by
  obtain ⟨store, hopen, hheader, hsize, hraw⟩ := hintact.laid.exists_store hdata h
  rw [hintact.config_eq] at hheader
  exact ⟨store, hopen, Store.mirrors_of_raw hintact hfew hheader hsize hraw⟩

/-- Whatever is called before, a store that is flushed opens, and answers for every id as the
factory does.  Block sizes are 32-bit numbers, and no more data fits in memory than 64 bits can
count. -/
theorem flush_mirrors (config : Config) (fingerprint : Fingerprint) (calls : List Call)
    (hblock : config.tuning.blockSize < 2 ^ 32) (hcalls : ∀ call ∈ calls, call.Proper)
    (hmake : make config fingerprint = .ok factory)
    (hfew : (factory.runCalls calls).offsets.size < 2 ^ 32)
    (hdata : (factory.runCalls calls).data.size < 2 ^ 64)
    (hflush : (factory.runCalls calls).flush = .ok bytes) :
    (∀ out, (factory.runCalls calls).flushTo out = .ok (out ++ bytes, bytes.size)) ∧
      ∃ store, Store.ofBytes bytes = .ok store ∧ store.Mirrors (factory.runCalls calls) := by
  have hintact := intact_runCalls hblock (intact_of_make hblock hmake) hcalls
  obtain ⟨-, -, -, hflushTo⟩ := flush_eq_ok hflush
  exact ⟨hflushTo, hintact.mirrors hfew hdata hflush⟩

theorem flush_mirrors_native :
    ∃ factory bytes store,
      make { codec := .native, tuning := { fit := fun _ => 5 }, deduplicate := false }
        (fun _ => 0) = .ok factory ∧
      (factory.runCalls [.addItems [3, 7]]).flush = .ok bytes ∧
      Store.ofBytes bytes = .ok store ∧ store.Mirrors (factory.runCalls [.addItems [3, 7]]) := by
  obtain ⟨factory, hmake⟩ : ∃ factory,
      make { codec := .native, tuning := { fit := fun _ => 5 }, deduplicate := false }
        (fun _ => 0) = .ok factory := ⟨_, rfl⟩
  obtain ⟨bytes, hflush⟩ : ∃ bytes, (factory.runCalls [.addItems [3, 7]]).flush = .ok bytes := by
    obtain rfl := Except.ok.inj hmake
    exact ⟨_, rfl⟩
  have hsizes : (factory.runCalls [.addItems [3, 7]]).offsets.size = 2 ∧
      (factory.runCalls [.addItems [3, 7]]).data.size = 18 := by
    obtain rfl := Except.ok.inj hmake
    exact ⟨rfl, rfl⟩
  have hcalls : ∀ call ∈ [Call.addItems [3, 7]], call.Proper := by
    intro call hcall
    rw [List.mem_singleton.1 hcall]
    exact fun _ => by decide
  obtain ⟨-, store, hopen, hmirrors⟩ := flush_mirrors _ (fun _ => 0) _ (by decide) hcalls hmake
    (by rw [hsizes.1]; decide) (by rw [hsizes.2]; decide) hflush
  exact ⟨factory, bytes, store, hmake, hflush, hopen, hmirrors⟩

/-- All items are added as one list, which the factory gives and its store does not. -/
theorem flush_full : ∃ factory bytes store set,
    make (natively false) (fun _ => 0) = .ok factory ∧
    (∃ last, (Call.addItems allItems).run factory = .ok #[1] last) ∧
    (factory.runCalls [.addItems allItems]).offsets.size = 2 ∧
    (factory.runCalls [.addItems allItems]).flush = .ok bytes ∧
    Store.ofBytes bytes = .ok store ∧
    (factory.runCalls [.addItems allItems]).get 1 = .ok set ∧
    store.load 1 = .error (.corrupt (.partlyUsed 1 5 (5 + 4 * 2 ^ 32))) ∧
    ¬ store.Mirrors (factory.runCalls [.addItems allItems]) := by
  obtain ⟨factory, hmake⟩ := exists_make_natively false fun _ => 0
  obtain ⟨last, hrun, hlast⟩ := exists_run_full hmake (plan_addItems_natively ascending_allItems)
  rw [← runCalls_of_run hrun] at hlast
  obtain ⟨bytes, store, set, hflush, hopen, hsize, hget, hload⟩ := hlast.exists_store_full
  refine ⟨factory, bytes, store, set, hmake, ⟨last, hrun⟩, hlast.size_eq, hflush, hopen, hget,
    hload, fun hmirrors => ?_⟩
  obtain ⟨-, found, -, -, -, hfound, -⟩ := hmirrors.inside 1 (hsize ▸ Nat.one_lt_two)
  exact absurd (hfound.symm.trans hload) (by simp)

end Factory

end Postings
