/-
Adding all lists of a store.

A store is added batch by batch, each batch encoded as a whole before any of it is
inserted.  That comes to the same as adding its lists one at a time, unless a list
cannot be loaded or encoded: then the batch in which it stands is left out as a whole.

* `Factory.exists_of_bytesOf` — the bytes that a list is stored as are read as its items;
* `Factory.Indexed.stored_insertEach` — a run of insertions answers where its bytes are stored;
* `Factory.insertStore_eq_ok`, `Factory.exists_insertStore` — a store that is added as a whole;
* `Factory.insertStore_eq_error` — a store that is not;
* `Factory.insertStore_sequential` — both, for all that calls can lead to.
-/
import Postings.Proofs.Factory.Ids
import Postings.Proofs.ItemSet.Recode
import Postings.Proofs.Store.Flush

namespace Postings.Factory

variable {config : Config} {factory first final : Factory} {store : Store}

/-! ### What a list is stored as -/

/-- The bytes that items are stored as are read as these items. -/
theorem exists_of_encodeItems {items : List Item} {bytes : ByteArray}
    (hfew : items.length < 2 ^ 32) (hascend : Ascending items)
    (hblock : config.tuning.blockSize < 2 ^ 32) (h : encodeItems config items = .ok bytes) :
    ∃ set, ItemSet.ofTrustedBytes bytes = .ok set ∧ set.items = items := by
  rcases encodeTagged_of_encodeItems h with h | h
  · exact ItemSet.exists_of_encodeTagged hfew hascend hblock h
  · exact ItemSet.exists_of_encodeTagged hfew hascend hblock h

/-- The bytes that a list is stored as are read as the same items. -/
theorem exists_of_bytesOf {set : ItemSet} {bytes : ByteArray} (hset : set.Proper)
    (hblock : config.tuning.blockSize < 2 ^ 32) (h : bytesOf config set = .ok bytes) :
    ∃ again, ItemSet.ofTrustedBytes bytes = .ok again ∧ again.items = set.items := by
  rcases bytesOf_cases h with hencoded | hmade
  · exact ⟨set, hset.rereads _ hencoded, rfl⟩
  · exact exists_of_encodeItems hset.length_lt hset.ascending hblock hmade

theorem exists_of_recoded {id : Nat} {bytes : ByteArray}
    (hblock : config.tuning.blockSize < 2 ^ 32) (h : recoded config store id = .ok bytes) :
    ∃ set again, store.load id = .ok set ∧ ItemSet.ofTrustedBytes bytes = .ok again ∧
      again.items = set.items := by
  obtain ⟨set, hload, hbytes⟩ := recoded_eq_ok.1 h
  obtain ⟨raw, -, hraw, -⟩ := Store.load_eq_ok.1 hload
  obtain ⟨again, hagain, hitems⟩ :=
    exists_of_bytesOf (ItemSet.proper_of_ofBytes hraw) hblock hbytes
  exact ⟨set, again, hload, hagain, hitems⟩

/-- Lists that can all be loaded and encoded have as many recodings, in their order. -/
theorem map_some_recodings {ids : List Nat} (h : ∀ id ∈ ids, Recodes config store id) :
    (recodings config store ids).map some
      = ids.map fun id => (recoded config store id).toOption := by
  induction ids with
  | nil => rfl
  | cons id rest ih =>
    obtain ⟨bytes, hbytes⟩ := h id (List.mem_cons_self ..)
    rw [recodings_cons hbytes, List.map_cons, List.map_cons, hbytes,
      ih fun other hother => h other (List.mem_cons_of_mem _ hother)]
    rfl

/-! ### Runs of insertions -/

/-- A run of insertions answers an id for each of the bytes, under which they are stored. -/
theorem Indexed.stored_insertEach (h : factory.Indexed) {entries : List ByteArray}
    {ids : Array Nat} (hinsert : insertEach entries #[] factory = .ok ids final) :
    ids.size = entries.length ∧ ∀ (position : Nat) bytes, entries[position]? = some bytes →
      ∃ id, ids[position]? = some id ∧ final.stored? id = some bytes := by
  obtain ⟨log, hlog, rfl, hids⟩ := exists_inserts hinsert
  have hids : ids.toList = log.map (·.2) := hids
  refine ⟨?_, fun position bytes hbytes => ?_⟩
  · rw [← Array.length_toList, hids, List.length_map, Log.handed, List.length_map]
  · rw [Log.handed, List.getElem?_map] at hbytes
    obtain ⟨⟨_, id⟩, hentry, rfl⟩ := Option.map_eq_some_iff.1 hbytes
    refine ⟨id, ?_, hlog.stored h _ id (List.mem_of_getElem? hentry)⟩
    rw [← Array.getElem?_toList, hids, List.getElem?_map, hentry]
    rfl

/-- Only lists that can be loaded and encoded are added. -/
theorem recodes_of_addEach (hconfig : factory.config = config) {ids : List Nat}
    {done new : Array Nat} (h : addEach store ids done factory = .ok new final) :
    ∀ id ∈ ids, Recodes config store id := by
  induction ids generalizing factory done with
  | nil => exact fun id hid => absurd hid List.not_mem_nil
  | cons id rest ih =>
    cases hbytes : recoded config store id with
    | error error =>
      rw [addEach_of_error (hconfig ▸ hbytes)] at h
      exact absurd h (by simp)
    | ok bytes =>
      rw [addEach_cons (hconfig ▸ hbytes)] at h
      cases hinsert : insert bytes factory with
      | error error middle =>
        rw [bind_of_error hinsert] at h
        exact absurd h (by simp)
      | ok added middle =>
        rw [bind_of_ok hinsert] at h
        intro other hother
        rcases List.mem_cons.1 hother with rfl | hother
        · exact ⟨bytes, hbytes⟩
        · exact ih ((config_of_insert hinsert).trans hconfig) h other hother

/-! ### Whole stores -/

/-- Adding a store as a whole is adding its lists one at a time. -/
theorem insertStore_eq_ok (hconfig : factory.config = config) {pick : Nat} {ids : Array Nat} :
    insertStore store pick factory = .ok ids final ↔
      addEach store (List.range store.size) #[] factory = .ok ids final := by
  cases hrefused : refused? config store with
  | none =>
    have hall := refused?_eq_none.1 hrefused
    rw [insertStore_of_ok hconfig hall,
      addEach_eq hconfig fun id hid => hall id (List.mem_range.1 hid)]
  | some failing =>
    -- Neither gets past a list that cannot be loaded or encoded.
    obtain ⟨hfailing, -, error, herror⟩ := refused?_eq_some.1 hrefused
    obtain ⟨-, reported, -, -, -, hencode, -⟩ := encodeEach_of_refused hrefused pick
    refine iff_of_false (fun h => ?_) fun h => ?_
    · rw [insertStore_eq hconfig, Plan.carryOut_eq_ok, storePlan, hrefused] at h
      simp only [hencode] at h
      exact absurd h.1 (by simp)
    · obtain ⟨bytes, hbytes⟩ :=
        recodes_of_addEach hconfig h failing (List.mem_range.2 hfailing)
      rw [herror] at hbytes
      exact absurd hbytes (by simp)

/-- A store whose lists can all be loaded and encoded is added if there are ids enough. -/
theorem exists_insertStore (hconfig : factory.config = config)
    (h : ∀ id < store.size, Recodes config store id)
    (hfew : factory.offsets.size + store.size < 2 ^ 32) (pick : Nat) :
    ∃ ids final, insertStore store pick factory = .ok ids final := by
  rw [insertStore_of_ok hconfig h]
  have hlength : (recodings config store (List.range store.size)).length ≤ store.size :=
    Nat.le_trans (List.length_filterMap_le ..) (Nat.le_of_eq List.length_range)
  obtain ⟨ids, final, hinsert, -⟩ := exists_insertEach
    (Nat.lt_of_le_of_lt (Nat.add_le_add_left hlength _) hfew) #[]
  exact ⟨ids, final, hinsert⟩

/-- Every list of a store that is added is found again under the id that is answered. -/
theorem Indexed.get_of_insertStore (h : factory.Indexed) (hconfig : factory.config = config)
    (hblock : config.tuning.blockSize < 2 ^ 32) {pick : Nat} {ids : Array Nat}
    (hinsert : insertStore store pick factory = .ok ids final) :
    ids.size = store.size ∧ ∀ id < store.size, ∃ new set again, ids[id]? = some new ∧
      store.load id = .ok set ∧ final.get new = .ok again ∧ again.items = set.items := by
  have hadd := (insertStore_eq_ok hconfig).1 hinsert
  have hall := recodes_of_addEach hconfig hadd
  rw [addEach_eq hconfig hall] at hadd
  obtain ⟨hsize, hstored⟩ := h.stored_insertEach hadd
  have hsome := map_some_recodings hall
  have hlength := congrArg List.length hsome
  rw [List.length_map, List.length_map, List.length_range] at hlength
  refine ⟨hsize.trans hlength, fun id hid => ?_⟩
  obtain ⟨bytes, hbytes⟩ := hall id (List.mem_range.2 hid)
  have hentry : (recodings config store (List.range store.size))[id]? = some bytes := by
    have hat := congrArg (·[id]?) hsome
    simp only [List.getElem?_map, List.getElem?_range hid, Option.map_some, hbytes] at hat
    obtain ⟨found, hfound, hsame⟩ := Option.map_eq_some_iff.1 hat
    rw [hfound, hsame]
    rfl
  obtain ⟨new, hnew, hstored⟩ := hstored id bytes hentry
  obtain ⟨set, again, hload, hagain, hitems⟩ := exists_of_recoded hblock hbytes
  refine ⟨new, set, again, hnew, hload, ?_, hitems⟩
  rw [get, hstored]
  exact hagain

/-- A store is not added as a whole when a list cannot be loaded or encoded, and the complete
batches before the first such list are added then; or when no id is left. -/
theorem insertStore_eq_error (hconfig : factory.config = config) {pick : Nat} {error : Error}
    (h : insertStore store pick factory = .error error final) :
    (∃ failing culprit ids, failing < store.size ∧ (∀ id < failing, Recodes config store id) ∧
      ¬ Recodes config store failing ∧
      culprit < store.size ∧ culprit / batchSize = failing / batchSize ∧
      recoded config store culprit = .error error ∧ (pick = 0 → culprit = failing) ∧
      addEach store (List.range (failing / batchSize * batchSize)) #[] factory
        = .ok ids final) ∨
    error = .overflow .ids ∧ 2 ^ 32 ≤ final.offsets.size := by
  rw [insertStore_eq hconfig, Plan.carryOut] at h
  rcases insertEach_cases (storePlan config store pick).entries #[] factory with
    ⟨ids, middle, hinsert⟩ | ⟨middle, hinsert, hfull⟩
  · rw [bind_of_ok hinsert] at h
    cases hrefused : refused? config store with
    | none =>
      rw [storePlan, hrefused] at h
      exact absurd h (by simp [pure, EStateM.pure])
    | some failing =>
      obtain ⟨hfailing, hbefore, cause, hcause⟩ := refused?_eq_some.1 hrefused
      obtain ⟨culprit, reported, hinside, hbatch, hculprit, hencode, hfirst⟩ :=
        encodeEach_of_refused hrefused pick
      rw [storePlan, hrefused] at h hinsert
      simp only [hencode] at h
      obtain ⟨rfl, rfl⟩ := EStateM.Result.error.inj h
      have hnot : ¬ Recodes config store failing := by
        rintro ⟨bytes, hbytes⟩
        exact absurd (hcause.symm.trans hbytes) (by simp)
      refine .inl ⟨failing, culprit, ids, hfailing, hbefore, hnot, hinside, hbatch, hculprit,
        hfirst, ?_⟩
      rw [addEach_eq hconfig fun id hid => hbefore id ?_]
      · exact hinsert
      · exact Nat.lt_of_lt_of_le (List.mem_range.1 hid) (Nat.div_mul_le_self failing batchSize)
  · rw [bind_of_error hinsert] at h
    obtain ⟨rfl, rfl⟩ := EStateM.Result.error.inj h
    exact .inr ⟨rfl, hfull⟩

/-- Whatever is called before, adding a store as a whole is adding its lists one at a time, and
each is found again under its new id.  Where a list cannot be loaded or encoded, the complete
batches before it are added, the error is that of a list of its batch, and what was stored before
stays where it is; which of the errors it is decides nothing else. -/
theorem insertStore_sequential (config : Config) (fingerprint : Fingerprint) (calls : List Call)
    (store : Store) (pick : Nat) (hblock : config.tuning.blockSize < 2 ^ 32)
    (hmake : make config fingerprint = .ok first) :
    (∀ ids final, insertStore store pick (first.runCalls calls) = .ok ids final ↔
      addEach store (List.range store.size) #[] (first.runCalls calls) = .ok ids final) ∧
    (∀ ids final, insertStore store pick (first.runCalls calls) = .ok ids final →
      ids.size = store.size ∧ ∀ id < store.size, ∃ new set again, ids[id]? = some new ∧
        store.load id = .ok set ∧ final.get new = .ok again ∧ again.items = set.items) ∧
    ∀ error final, insertStore store pick (first.runCalls calls) = .error error final →
      (∀ id bytes, (first.runCalls calls).stored? id = some bytes →
        final.stored? id = some bytes) ∧
      ((∃ failing culprit ids, failing < store.size ∧
        (∀ id < failing, Recodes config store id) ∧ ¬ Recodes config store failing ∧
        culprit < store.size ∧ culprit / batchSize = failing / batchSize ∧
        recoded config store culprit = .error error ∧ (pick = 0 → culprit = failing) ∧
        addEach store (List.range (failing / batchSize * batchSize)) #[]
          (first.runCalls calls) = .ok ids final) ∨
      error = .overflow .ids ∧ 2 ^ 32 ≤ final.offsets.size) ∧
      ∀ other, insertStore store other (first.runCalls calls) = .error error final ∨
        ∃ error', insertStore store other (first.runCalls calls) = .error error' final := by
  have hindexed := ((indexed_of_make hmake).extends_runCalls calls).indexed
  have hconfig : (first.runCalls calls).config = config := by
    rw [config_runCalls, config_of_make hmake]
  refine ⟨fun ids final => insertStore_eq_ok hconfig,
    fun ids final hinsert => hindexed.get_of_insertStore hconfig hblock hinsert,
    fun error final hinsert => ⟨?_, insertStore_eq_error hconfig hinsert, fun other => ?_⟩⟩
  · have hextends := hindexed.extends_run (.insertStore store pick)
    rw [Call.run, hinsert] at hextends
    exact hextends.stored
  · rcases insertStore_pick store pick other (first.runCalls calls) with hsame | hboth
    · exact .inl (hsame.symm.trans hinsert)
    · obtain ⟨reported, error', after, hreported, hother⟩ := hboth
      obtain ⟨-, rfl⟩ := EStateM.Result.error.inj (hreported.symm.trans hinsert)
      exact .inr ⟨error', hother⟩

/-- The store of a factory with two lists, added to that factory. -/
theorem insertStore_sequential_native :
    ∃ first bytes store ids final,
      make { codec := .native, tuning := { fit := fun _ => 5 }, deduplicate := false }
        (fun _ => 0) = .ok first ∧
      (first.runCalls [.addItems [3, 7]]).flush = .ok bytes ∧
      Store.ofBytes bytes = .ok store ∧
      insertStore store 0 (first.runCalls [.addItems [3, 7]]) = .ok ids final ∧ ids.size = 2 ∧
      addEach store (List.range 2) #[] (first.runCalls [.addItems [3, 7]]) = .ok ids final := by
  obtain ⟨config, hconfig⟩ : ∃ config : Config, config
      = { codec := .native, tuning := { fit := fun _ => 5 }, deduplicate := false } := ⟨_, rfl⟩
  rw [← hconfig]
  have hblock : config.tuning.blockSize < 2 ^ 32 := by rw [hconfig]; decide
  obtain ⟨first, hmake⟩ : ∃ first, make config (fun _ => 0) = .ok first := by
    rw [hconfig]
    exact ⟨_, rfl⟩
  have hencode : ∀ set, ∃ bytes, bytesOf config set = .ok bytes := by
    intro set
    rw [bytesOf, hconfig]
    split
    · exact ⟨_, rfl⟩
    · exact ⟨_, rfl⟩
  obtain ⟨bytes, hflush, hsize, hdata⟩ : ∃ bytes,
      (first.runCalls [.addItems [3, 7]]).flush = .ok bytes ∧
      (first.runCalls [.addItems [3, 7]]).offsets.size = 2 ∧
      (first.runCalls [.addItems [3, 7]]).data.size = 18 := by
    rw [hconfig] at hmake
    obtain rfl := Except.ok.inj hmake
    exact ⟨_, rfl, rfl, rfl⟩
  have hintact : (first.runCalls [.addItems [3, 7]]).Intact config := by
    refine intact_runCalls hblock (intact_of_make hblock hmake) fun call hcall => ?_
    rw [List.mem_singleton.1 hcall]
    exact fun _ => by decide
  obtain ⟨store, hopen, hmirrors⟩ := hintact.mirrors (by rw [hsize]; decide)
    (by rw [hdata]; decide) hflush
  have hlists : store.size = 2 := by rw [hmirrors.size_eq, size, hsize]
  have hall : ∀ id < store.size, Recodes config store id := by
    intro id hid
    obtain ⟨-, set, -, -, -, hload, -⟩ := hmirrors.inside id hid
    obtain ⟨bytes, hbytes⟩ := hencode set
    exact ⟨bytes, recoded_eq_ok.2 ⟨set, hload, hbytes⟩⟩
  obtain ⟨hsame, hfound, -⟩ :=
    insertStore_sequential config (fun _ => 0) [.addItems [3, 7]] store 0 hblock hmake
  obtain ⟨ids, final, hinsert⟩ := exists_insertStore hintact.config_eq hall
    (by rw [hsize, hlists]; decide) 0
  refine ⟨first, bytes, store, ids, final, hmake, hflush, hopen, hinsert, ?_, ?_⟩
  · rw [(hfound ids final hinsert).1, hlists]
  · rw [← hlists]
    exact (hsame ids final).1 hinsert

end Postings.Factory
