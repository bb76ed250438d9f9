/-
Stores that are added again.

Encoding a list that was read from a factory gives the bytes that it was read from: bytes
that the codec takes over are the same, and all others are made of the items alone.  So a
store brings the entries of its factory, in their order; a new factory takes them over one
after the other, and the factory that they come from knows every one of them.

* `Factory.Settled`, `Factory.settled_of_bytesOf` — bytes that are stored again as they are;
* `Factory.entries`, `Factory.Laid.eq_of_entries_eq` — all that is stored, in order;
* `Factory.Indexed.insertEach_known` — entries that are inserted in order have the ids that
  they had;
* `Factory.insertStore_flushed` — the store of any factory that calls can lead to;
* `Factory.insertStore_flushed_full` — the store of one that was given all items.
-/
import Postings.Proofs.Factory.Recoding

namespace Postings.Factory

variable {config : Config} {factory other first last : Factory} {store : Store}
variable {bytes : ByteArray}

/-! ### Bytes that are stored again as they are -/

/-- One whole list, which is stored as these very bytes when it is added. -/
def Settled (config : Config) (bytes : ByteArray) : Prop :=
  ∃ set, ItemSet.ofBytes bytes = .ok set ∧ set.byteLength = bytes.size ∧
    bytesOf config set = .ok bytes

/-- Bytes that were made of items are made of the same items again, or taken over. -/
theorem settled_of_encodeItems {items : List Item} (hfew : items.length < 2 ^ 32)
    (hascend : Ascending items) (hblock : config.tuning.blockSize < 2 ^ 32)
    (h : encodeItems config items = .ok bytes) : Settled config bytes := by
  obtain ⟨set, hset, hall⟩ := whole_of_encodeItems hfew hascend hblock h
  obtain ⟨again, hagain, hitems⟩ := exists_of_encodeItems hfew hascend hblock h
  have hsame := (ItemSet.ofBytes_eq_ok.1 hset).1
  rw [hagain] at hsame
  obtain rfl := Except.ok.inj hsame
  refine ⟨again, hset, hall, ?_⟩
  rw [bytesOf]
  split
  next reused hreused =>
    have hencoded := encoded_of_reusableBytes? hreused
    rw [Option.some.inj (hencoded.symm.trans (ItemSet.encoded_of_whole hset hall))]
  next => rw [hitems, h]

theorem settled_of_bytesOf {set : ItemSet} (hset : set.Proper)
    (hblock : config.tuning.blockSize < 2 ^ 32) (h : bytesOf config set = .ok bytes) :
    Settled config bytes := by
  rcases bytesOf_cases h with hencoded | hmade
  · refine ⟨set, ItemSet.ofBytes_eq_ok.2 ⟨hset.rereads _ hencoded, hset.ascending⟩, ?_, h⟩
    rw [ItemSet.byteLength, hencoded]
  · exact settled_of_encodeItems hset.length_lt hset.ascending hblock hmade

theorem settled_of_recoded {id : Nat} (hblock : config.tuning.blockSize < 2 ^ 32)
    (h : recoded config store id = .ok bytes) : Settled config bytes := by
  obtain ⟨set, hload, hbytes⟩ := recoded_eq_ok.1 h
  obtain ⟨raw, -, hraw, -⟩ := Store.load_eq_ok.1 hload
  exact settled_of_bytesOf (ItemSet.proper_of_ofBytes hraw) hblock hbytes

theorem eq_ok_of_mem_ofAnswer {answer : Except Error ByteArray}
    (h : bytes ∈ (Plan.ofAnswer answer).entries) : answer = .ok bytes := by
  cases answer with
  | error error => exact absurd h List.not_mem_nil
  | ok given => rw [List.mem_singleton.1 h]

theorem recoded_of_mem_storePlan {pick : Nat}
    (h : bytes ∈ (storePlan config store pick).entries) :
    ∃ id, recoded config store id = .ok bytes := by
  have hrecodings : ∀ ids, bytes ∈ recodings config store ids →
      ∃ id, recoded config store id = .ok bytes := by
    intro ids hmem
    obtain ⟨id, -, hid⟩ := List.mem_filterMap.1 hmem
    exact ⟨id, eq_ok_of_toOption hid⟩
  rw [storePlan] at h
  split at h
  · exact hrecodings _ h
  · exact hrecodings _ h

/-- All that a call hands over is settled, unless it hands over bytes as they are. -/
theorem settled_of_mem_plan {call : Call} (hcall : call.Proper)
    (hverbatim : ∀ given, call ≠ .addBytes given) (hblock : config.tuning.blockSize < 2 ^ 32)
    (h : bytes ∈ (call.plan config).entries) : Settled config bytes := by
  cases call with
  | addItems items =>
    have hitems := eq_ok_of_mem_ofAnswer h
    rw [bytesOfItems] at hitems
    split at hitems
    · exact absurd hitems (by simp)
    next hnone =>
      have hascend := firstDescent?_eq_none.1 hnone
      exact settled_of_encodeItems (hcall hascend) hascend hblock hitems
  | addSet set => exact settled_of_bytesOf hcall hblock (eq_ok_of_mem_ofAnswer h)
  | addBytes given => exact absurd rfl (hverbatim given)
  | insertStore store pick =>
    obtain ⟨id, hid⟩ := recoded_of_mem_storePlan h
    exact settled_of_recoded hblock hid

/-! ### Entries -/

/-- All that is stored, in the order of the ids. -/
def entries (factory : Factory) : List ByteArray :=
  Bytes.cuts factory.data factory.offsets.toList

theorem length_entries (factory : Factory) : factory.entries.length = factory.offsets.size :=
  Bytes.length_cuts ..

theorem getElem?_entries (factory : Factory) (id : Nat) :
    factory.entries[id]? = factory.stored? id := by
  rw [entries, Bytes.getElem?_cuts, Array.getElem?_toList, Array.getElem?_toList]
  rfl

theorem entries_grow (hinside : ∀ start ∈ factory.offsets, start ≤ factory.data.size)
    (bytes : ByteArray) : (factory.grow bytes).entries = factory.entries ++ [bytes] := by
  apply List.ext_getElem?
  intro id
  rw [getElem?_entries]
  rcases Nat.lt_trichotomy id factory.offsets.size with hlt | rfl | hgt
  · rw [stored?_grow_of_lt hinside hlt, List.getElem?_append_left (by rwa [length_entries]),
      getElem?_entries]
  · rw [stored?_grow_size, ← length_entries, List.getElem?_concat_length]
  · have hlength : (factory.entries ++ [bytes]).length ≤ id := by
      rw [List.length_append, length_entries]
      exact hgt
    rw [List.getElem?_eq_none hlength, ← getElem?_entries, List.getElem?_eq_none]
    rw [length_entries, grow, Array.size_push]
    exact hgt

/-- Where equal bytes share an id, no two entries are equal. -/
theorem Indexed.nodup_entries (h : factory.Indexed)
    (hdedup : factory.config.deduplicate = true) : factory.entries.Nodup := by
  refine List.pairwise_iff_getElem.2 fun id later hid hlater hlt hsame => ?_
  have hstored : ∀ position (hp : position < factory.entries.length),
      factory.stored? position = some factory.entries[position] := by
    intro position hp
    rw [← getElem?_entries, List.getElem?_eq_getElem hp]
  have hone := hstored id hid
  rw [hsame] at hone
  exact absurd (h.unique hdedup id later _ hone (hstored later hlater)) (Nat.ne_of_lt hlt)

theorem Laid.headD_eq (h : factory.Laid) :
    factory.offsets.toList.headD factory.data.size = 0 := by
  have hzero := h.zero
  rw [marks, List.head?_append, List.head?_singleton] at hzero
  rw [List.headD_eq_head?_getD]
  cases hhead : factory.offsets.toList.head? with
  | none =>
    rw [hhead] at hzero
    exact Option.some.inj hzero
  | some start =>
    rw [hhead] at hzero
    exact Option.some.inj hzero

/-- Entries that stand one behind the other say where they stand. -/
theorem Laid.eq_of_entries_eq (h : factory.Laid) (h' : other.Laid)
    (hentries : factory.entries = other.entries) :
    factory.data = other.data ∧ factory.offsets = other.offsets := by
  have hdata : ∀ {any : Factory}, any.Laid → Bytes.joined any.entries = any.data := by
    intro any hany
    rw [entries, Bytes.joined_cuts hany.cutting, hany.headD_eq, ByteArray.extract_zero_size]
  refine ⟨?_, Array.toList_inj.1 ?_⟩
  · rw [← hdata h, hentries, hdata h']
  · exact Bytes.eq_of_cuts_eq h.cutting h'.cutting (h.headD_eq.trans h'.headD_eq.symm) hentries

/-! ### Entries that are inserted again -/

/-- Of entries that are inserted in order, those before are stored and the next one is stored
under the next id or not at all: either way that is its id. -/
theorem Indexed.insert_known {before rest all : List ByteArray} (h : factory.Indexed)
    (hdedup : factory.config.deduplicate = true) (hall : before ++ bytes :: rest = all)
    (hnodup : all.Nodup) (hroom : all.length ≤ 2 ^ 32) (hbefore : before <+: factory.entries)
    (hentries : factory.entries <+: all) :
    ∃ middle, insert bytes factory = .ok before.length middle ∧ middle.Indexed ∧
      middle.config = factory.config ∧ before ++ [bytes] <+: middle.entries ∧
      middle.entries <+: all ∧
      middle.hits + middle.entries.length = factory.hits + factory.entries.length + 1 := by
  subst hall
  obtain ⟨known, hknown⟩ := hbefore
  have hafter := h.after_insert bytes
  have hinsertion := h.insertion bytes
  rw [← hknown, List.prefix_append_right_inj] at hentries
  generalize insert bytes factory = result at hafter hinsertion
  cases known with
  | nil =>
    rw [List.append_nil] at hknown
    have hsize : factory.offsets.size = before.length := by rw [hknown, length_entries]
    cases hinsertion with
    | found id _ hstored =>
      -- Entries before would hold the bytes a second time.
      have hmem : bytes ∈ before := by
        rw [← getElem?_entries, ← hknown] at hstored
        exact List.mem_of_getElem? hstored
      exact absurd rfl
        ((List.pairwise_append.1 hnodup).2.2 bytes hmem bytes (List.mem_cons_self ..))
    | added buckets _ _ hindexed =>
      have hgrow : (factory.grow bytes).entries = before ++ [bytes] := by
        rw [entries_grow h.inside, hknown]
      rw [hsize]
      refine ⟨_, rfl, hindexed, rfl, ?_, ?_, ?_⟩
      · exact hgrow ▸ List.prefix_refl _
      · show (factory.grow bytes).entries <+: _
        rw [hgrow, List.append_cons before bytes rest]
        exact List.prefix_append ..
      · show factory.hits + (factory.grow bytes).entries.length = _
        rw [hgrow, List.length_append, ← hknown]
        rfl
    | full _ hfull =>
      rw [List.length_append, List.length_cons] at hroom
      omega
  | cons next known =>
    obtain ⟨rfl, hlead⟩ := List.cons_prefix_cons.1 hentries
    have hstored : factory.stored? before.length = some next := by
      rw [← getElem?_entries, ← hknown, List.getElem?_append_right (Nat.le_refl _), Nat.sub_self]
      rfl
    cases hinsertion with
    | found id _ hfound =>
      obtain rfl := h.unique hdedup _ _ _ hstored hfound
      refine ⟨_, rfl, hafter, rfl, ?_, ?_, Nat.add_right_comm ..⟩
      · show _ <+: factory.entries
        rw [← hknown, List.append_cons before next known]
        exact List.prefix_append ..
      · show factory.entries <+: _
        rwa [← hknown, List.prefix_append_right_inj]
    | added _ hnew => exact absurd hstored (hnew hdedup _)
    | full hnew => exact absurd hstored (hnew hdedup _)

/-- Entries that are inserted in order, after those that were, have the ids that they had. -/
theorem Indexed.insertEach_known {before rest all : List ByteArray} (h : factory.Indexed)
    (hdedup : factory.config.deduplicate = true) (hall : before ++ rest = all)
    (hnodup : all.Nodup) (hroom : all.length ≤ 2 ^ 32) (hbefore : before <+: factory.entries)
    (hentries : factory.entries <+: all) (ids : Array Nat) :
    ∃ final, insertEach rest ids factory
        = .ok (ids ++ (List.range' before.length rest.length).toArray) final ∧
      final.entries = all ∧
      final.hits + final.entries.length
        = factory.hits + factory.entries.length + rest.length := by
  induction rest generalizing factory before ids with
  | nil =>
    rw [List.append_nil] at hall
    subst hall
    exact ⟨factory, by simp [insertEach, pure, EStateM.pure],
      hentries.eq_of_length_le hbefore.length_le, rfl⟩
  | cons bytes rest ih =>
    obtain ⟨middle, hinsert, hindexed, hconfig, hstored, hmiddle, hcount⟩ :=
      h.insert_known hdedup hall hnodup hroom hbefore hentries
    obtain ⟨final, hrest, hfinal, hhits⟩ := ih hindexed (hconfig ▸ hdedup)
      (List.append_cons before bytes rest ▸ hall) hstored hmiddle (ids.push before.length)
    refine ⟨final, ?_, hfinal, ?_⟩
    · rw [insertEach, bind_of_ok hinsert, hrest, List.length_cons, List.range'_succ,
        List.length_append, List.length_singleton, Array.push_eq_append, Array.append_assoc,
        ← List.toArray_cons]
    · rw [List.length_cons]
      omega

/-! ### Flushed stores -/

/-- What a run hands over is what its calls come to. -/
theorem Runs.mem_entries {calls : List Call} {log : Log} (h : Runs factory calls log last)
    (hmem : bytes ∈ log.handed) :
    ∃ call ∈ calls, bytes ∈ (call.plan factory.config).entries := by
  induction h with
  | nil factory => exact absurd hmem List.not_mem_nil
  | @cons factory middle last call calls made log hafter hmade hhanded hanswer hrest ih =>
    rw [Log.handed, List.map_append, List.mem_append] at hmem
    rcases hmem with hmem | hmem
    · exact ⟨call, List.mem_cons_self .., hhanded ▸ hmem⟩
    · obtain ⟨other, hother, hentry⟩ := ih hmem
      have hconfig : middle.config = factory.config := by
        rw [← hafter, call.run_eq, Plan.after_carryOut, config_insertEach]
      exact ⟨other, List.mem_cons_of_mem _ hother, hconfig ▸ hentry⟩

/-- All that a factory stores is settled, unless it was given bytes to store as they are. -/
theorem settled_of_stored? {fingerprint : Fingerprint} {calls : List Call} {id : Nat}
    (hblock : config.tuning.blockSize < 2 ^ 32) (hcalls : ∀ call ∈ calls, call.Proper)
    (hverbatim : ∀ given, .addBytes given ∉ calls) (hmake : make config fingerprint = .ok first)
    (hfew : (first.runCalls calls).offsets.size < 2 ^ 32)
    (hstored : (first.runCalls calls).stored? id = some bytes) : Settled config bytes := by
  obtain ⟨-, empty, hempty, hinsert⟩ := make_eq_ok.1 hmake
  obtain ⟨log, hruns⟩ := exists_runs (indexed_of_make hmake) calls hfew
  have hlogged := (logged_blank config fingerprint).inserts (.cons hinsert hruns.inserts)
  rcases List.mem_cons.1 (hlogged.mem_handed.2 ⟨id, hstored⟩) with rfl | hmem
  · exact settled_of_encodeItems (show ([] : List Item).length < 2 ^ 32 by decide)
      List.Pairwise.nil hblock hempty
  · obtain ⟨call, hcall, hentry⟩ := hruns.mem_entries hmem
    rw [config_of_make hmake] at hentry
    exact settled_of_mem_plan (hcalls call hcall)
      (fun given hgiven => hverbatim given (hgiven ▸ hcall)) hblock hentry

/-- A store whose lists are stored again as the bytes of a factory brings its entries in order. -/
theorem recodings_eq_entries (hsize : store.size = factory.offsets.size)
    (h : ∀ id bytes, factory.stored? id = some bytes → recoded config store id = .ok bytes) :
    (∀ id < store.size, Recodes config store id) ∧
      recodings config store (List.range store.size) = factory.entries := by
  have hentry : ∀ id < store.size, ∃ bytes, factory.entries[id]? = some bytes ∧
      recoded config store id = .ok bytes := by
    intro id hid
    have hsome := List.getElem?_eq_getElem (show id < factory.entries.length by
      rwa [length_entries, ← hsize])
    exact ⟨_, hsome, h id _ ((getElem?_entries factory id).symm.trans hsome)⟩
  have hall : ∀ id < store.size, Recodes config store id := by
    intro id hid
    obtain ⟨bytes, -, hbytes⟩ := hentry id hid
    exact ⟨bytes, hbytes⟩
  refine ⟨hall, (List.map_inj_right fun _ _ => Option.some.inj).1 ?_⟩
  rw [map_some_recodings fun id hid => hall id (List.mem_range.1 hid)]
  apply List.ext_getElem?
  intro id
  rw [List.getElem?_map, List.getElem?_map]
  rcases Nat.lt_or_ge id store.size with hid | hid
  · obtain ⟨bytes, hbytes, hrecoded⟩ := hentry id hid
    rw [List.getElem?_range hid, hbytes, Option.map_some, hrecoded]
    rfl
  · rw [List.getElem?_eq_none (by rwa [List.length_range]),
      List.getElem?_eq_none (by rwa [length_entries, ← hsize])]
    rfl

/-- Factories with the same settings, data and offsets are flushed alike. -/
theorem flush_congr (hconfig : factory.config = other.config) (hdata : factory.data = other.data)
    (hoffsets : factory.offsets = other.offsets) : factory.flush = other.flush := by
  rw [flush, flush, flushTo_eq, flushTo_eq, dataSize, dataSize, hconfig, hdata, hoffsets]

/-- A factory that knows the first entries of another one takes over all of them. -/
theorem Indexed.insertStore_known (h : factory.Indexed) (hlaid : factory.Laid)
    (hconfig : factory.config = config) (hdedup : config.deduplicate = true)
    (hother : other.Laid) (hnodup : other.entries.Nodup) (hfew : other.offsets.size < 2 ^ 32)
    (hlead : factory.entries <+: other.entries) (hsize : store.size = other.offsets.size)
    (hstored : ∀ id bytes, other.stored? id = some bytes →
      recoded config store id = .ok bytes) (pick : Nat) :
    ∃ final, insertStore store pick factory = .ok (Array.range store.size) final ∧
      final.config = config ∧ final.data = other.data ∧ final.offsets = other.offsets ∧
      final.hits + other.offsets.size
        = factory.hits + factory.offsets.size + store.size := by
  obtain ⟨hall, hrecodings⟩ := recodings_eq_entries hsize hstored
  rw [← length_entries] at hfew
  obtain ⟨final, hinsert, hentries, hhits⟩ := h.insertEach_known (hconfig ▸ hdedup)
    (List.nil_append other.entries) hnodup (Nat.le_of_lt hfew) List.nil_prefix hlead #[]
  have hfinal : final.Laid := by
    have hafter := after_insertEach (fun bytes _ hmiddle => hmiddle.after_insert bytes) hlaid
      other.entries #[]
    rwa [hinsert] at hafter
  obtain ⟨hdata, hoffsets⟩ := hfinal.eq_of_entries_eq hother hentries
  rw [hentries, length_entries, length_entries] at hhits
  refine ⟨final, ?_, (config_of_insertEach hinsert).trans hconfig, hdata, hoffsets, ?_⟩
  · rw [insertStore_of_ok hconfig hall, hrecodings, hinsert, length_entries, ← hsize]
    simp [Array.range_eq_range']
  · rw [hhits, hsize]

/-- Whatever is called before, except that bytes are added as they are: where equal bytes share an
id, the store that is flushed brings its ids into a new factory with the same settings, which is
flushed as the same bytes; and the factory itself knows all of its lists. -/
theorem insertStore_flushed (config : Config) (fingerprint again : Fingerprint)
    (calls : List Call) (pick : Nat) (hdedup : config.deduplicate = true)
    (hblock : config.tuning.blockSize < 2 ^ 32) (hcalls : ∀ call ∈ calls, call.Proper)
    (hverbatim : ∀ given, .addBytes given ∉ calls) (hmake : make config fingerprint = .ok first)
    (hfew : (first.runCalls calls).offsets.size < 2 ^ 32)
    (hdata : (first.runCalls calls).data.size < 2 ^ 64)
    (hflush : (first.runCalls calls).flush = .ok bytes) :
    ∃ store, Store.ofBytes bytes = .ok store ∧ store.size = (first.runCalls calls).size ∧
      (∃ fresh final, make config again = .ok fresh ∧
        insertStore store pick fresh = .ok (Array.range store.size) final ∧
        final.flush = .ok bytes) ∧
      ∃ final, insertStore store pick (first.runCalls calls)
          = .ok (Array.range store.size) final ∧
        final.data = (first.runCalls calls).data ∧
        final.offsets = (first.runCalls calls).offsets ∧
        final.hits = (first.runCalls calls).hits + store.size := by
  have hintact := intact_runCalls hblock (intact_of_make hblock hmake) hcalls
  have hextends := (indexed_of_make hmake).extends_runCalls calls
  have hconfig : (first.runCalls calls).config = config := by
    rw [config_runCalls, config_of_make hmake]
  have hlaid := (laid_of_make hmake).runCalls calls
  have hnodup := hextends.indexed.nodup_entries (hconfig ▸ hdedup)
  obtain ⟨store, hopen, hmirrors⟩ := hintact.mirrors hfew hdata hflush
  have hsize : store.size = (first.runCalls calls).offsets.size := by
    rw [hmirrors.size_eq, size, Nat.mod_eq_of_lt hfew]
  have hrecoded : ∀ id entry, (first.runCalls calls).stored? id = some entry →
      recoded config store id = .ok entry := by
    intro id entry hentry
    obtain ⟨set, hset, hall, hbytes⟩ :=
      settled_of_stored? hblock hcalls hverbatim hmake hfew hentry
    obtain ⟨found, -, hfound, hraw, -⟩ :=
      hmirrors.inside id (hsize ▸ lt_size_of_stored? hentry)
    obtain rfl := Option.some.inj (hentry.symm.trans hfound)
    exact recoded_eq_ok.2 ⟨set, Store.load_eq_ok.2 ⟨entry, hraw, hset, hall⟩, hbytes⟩
  refine ⟨store, hopen, hmirrors.size_eq, ?_, ?_⟩
  · -- A new factory holds the first entry, the bytes of the empty list.
    obtain ⟨hzero, empty, hempty, hinsert⟩ := make_eq_ok.1 hmake
    obtain ⟨fresh, hfresh, hone, -⟩ := exists_insert_blank config again empty
    have hnew : make config again = .ok fresh := make_eq_ok.2 ⟨hzero, empty, hempty, hfresh⟩
    have hlead : fresh.entries <+: (first.runCalls calls).entries := by
      rw [List.prefix_iff_getElem?]
      intro id hid
      rw [length_entries, hone] at hid
      obtain rfl := Nat.lt_one_iff.1 hid
      have hfirst := hextends.stored 0 empty
        ((indexed_blank config fingerprint).stored_of_insert hinsert)
      have hsame := (indexed_blank config again).stored_of_insert hfresh
      rw [← getElem?_entries, List.getElem?_eq_getElem] at hsame
      rw [getElem?_entries, hfirst, ← hsame]
    obtain ⟨final, hfinal, hkept, hsame, hplaces, -⟩ := (indexed_of_make hnew).insertStore_known
      (laid_of_make hnew) (config_of_make hnew) hdedup hlaid hnodup hfew hlead hsize hrecoded pick
    refine ⟨fresh, final, hnew, hfinal, ?_⟩
    rw [flush_congr (hkept.trans hconfig.symm) hsame hplaces, hflush]
  · obtain ⟨final, hfinal, -, hsame, hplaces, hhits⟩ := hextends.indexed.insertStore_known hlaid
      hconfig hdedup hlaid hnodup hfew (List.prefix_refl _) hsize hrecoded pick
    exact ⟨final, hfinal, hsame, hplaces, by omega⟩

/-- A factory that was given one list twice. -/
theorem insertStore_flushed_native :
    ∃ first bytes store final,
      make { codec := .native, tuning := { fit := fun _ => 5 } } (fun _ => 0) = .ok first ∧
      (first.runCalls [.addItems [3, 7], .addItems [3, 7]]).flush = .ok bytes ∧
      Store.ofBytes bytes = .ok store ∧
      insertStore store 0 (first.runCalls [.addItems [3, 7], .addItems [3, 7]])
        = .ok (Array.range store.size) final ∧
      final.hits
        = (first.runCalls [.addItems [3, 7], .addItems [3, 7]]).hits + store.size := by
  obtain ⟨config, hconfig⟩ : ∃ config : Config,
      config = { codec := .native, tuning := { fit := fun _ => 5 } } := ⟨_, rfl⟩
  obtain ⟨calls, hcalls⟩ : ∃ calls : List Call,
      calls = [.addItems [3, 7], .addItems [3, 7]] := ⟨_, rfl⟩
  obtain ⟨empty, hempty, hlength⟩ :
      ∃ empty, encodeItems config [] = .ok empty ∧ empty.size = 5 := by
    rw [hconfig]
    exact ⟨_, rfl, rfl⟩
  obtain ⟨first, hinsert, hone, hdata⟩ := exists_insert_blank config (fun _ => 0) empty
  have hmake : make config (fun _ => 0) = .ok first :=
    make_eq_ok.2 ⟨by rw [hconfig]; decide, empty, hempty, hinsert⟩
  have hfew : (first.runCalls calls).offsets.size < 2 ^ 32 := by
    have hle := size_runCalls_le calls first
    rw [hone, config_of_make hmake, hconfig, hcalls] at hle
    exact Nat.lt_of_le_of_lt (hcalls ▸ hle) (show 1 + 2 < 2 ^ 32 by decide)
  have hshort : (first.runCalls calls).data.size < 2 ^ 63 := by
    have hle := dataSize_runCalls_le calls first
    rw [hdata, hlength, config_of_make hmake, hconfig, hcalls] at hle
    exact Nat.lt_of_le_of_lt (hcalls ▸ hle) (show 5 + 26 < 2 ^ 63 by decide)
  have hkept : (first.runCalls calls).config = config := by
    rw [config_runCalls, config_of_make hmake]
  obtain ⟨bytes, hflush⟩ := ((laid_of_make hmake).runCalls calls).exists_flush hfew hshort
    (by rw [hkept, hconfig]; exact show (5 : UInt64).toNat < 2 ^ 63 by decide)
  have hproper : ∀ call ∈ calls, call.Proper ∧ ∀ given, call ≠ .addBytes given := by
    intro call hcall
    rw [hcalls, List.mem_cons, List.mem_singleton, or_self] at hcall
    rw [hcall]
    exact ⟨fun _ => by decide, fun given => by simp⟩
  obtain ⟨store, hopen, -, -, final, hfinal, -, -, hhits⟩ :=
    insertStore_flushed config (fun _ => 0) (fun _ => 0) calls 0 (by rw [hconfig])
      (by rw [hconfig]; decide) (fun call hcall => (hproper call hcall).1)
      (fun given hgiven => (hproper _ hgiven).2 given rfl) hmake hfew
      (Nat.lt_trans hshort (by decide)) hflush
  rw [← hconfig, ← hcalls]
  exact ⟨first, bytes, store, final, hmake, hflush, hopen, hfinal, hhits⟩

theorem insertStore_ne_ok_of_load {config : Config} {factory : Factory} {store : Store} {id : Nat}
    {error : Error} (hconfig : factory.config = config) (hid : id < store.size)
    (hload : store.load id = .error error) (pick : Nat) (ids : Array Nat) (final : Factory) :
    insertStore store pick factory ≠ .ok ids final := by
  intro hinsert
  obtain ⟨bytes, hbytes⟩ := recodes_of_addEach hconfig ((insertStore_eq_ok hconfig).1 hinsert) id
    (List.mem_range.2 hid)
  obtain ⟨set, hset, -⟩ := recoded_eq_ok.1 hbytes
  exact absurd (hset.symm.trans hload) (by simp)

/-- All items are added as one list, and the store that is flushed can be added to no factory, be it
a new one or the one that it comes from. -/
theorem insertStore_flushed_full : ∃ first fresh bytes store,
    make (natively true) (fun _ => 0) = .ok first ∧ make (natively true) (fun _ => 0) = .ok fresh ∧
    (∃ last, (Call.addItems allItems).run first = .ok #[1] last) ∧
    (first.runCalls [.addItems allItems]).flush = .ok bytes ∧
    Store.ofBytes bytes = .ok store ∧
    ∀ pick ids final, insertStore store pick fresh ≠ .ok ids final ∧
      insertStore store pick (first.runCalls [.addItems allItems]) ≠ .ok ids final := by
  obtain ⟨first, hmake⟩ := exists_make_natively true fun _ => 0
  obtain ⟨last, hrun, hlast⟩ := exists_run_full hmake (plan_addItems_natively ascending_allItems)
  rw [← runCalls_of_run hrun] at hlast
  obtain ⟨bytes, store, -, hflush, hopen, hsize, -, hload⟩ := hlast.exists_store_full
  have hid : 1 < store.size := hsize ▸ Nat.one_lt_two
  refine ⟨first, first, bytes, store, hmake, hmake, ⟨last, hrun⟩, hflush, hopen,
    fun pick ids final => ⟨?_, ?_⟩⟩
  · exact insertStore_ne_ok_of_load (config_of_make hmake) hid hload pick ids final
  · exact insertStore_ne_ok_of_load hlast.config_eq hid hload pick ids final

end Postings.Factory
