/-
Ids as identities of lists.

Where equal bytes share an id, ids are those of bytes.  The bytes that a factory makes of items
tell the items, so two lists of items that are added have one id exactly if they are equal.  A
list that is added as it is may bring bytes of its own; in the native codec these are the ones that
would be made of its items, and frames are always made anew.

* `Factory.eq_of_written`, `Factory.encodeTagged_of_bytesOf` — bytes tell the items, and in three
  codecs items tell the bytes;
* `Factory.Call.Adds`, `Factory.Returned` — the lists that calls add, and the ids of these;
* `Factory.Returned.exists_stored` — an id stands for the bytes that a list came to;
* `Factory.ids_eq_iff_items_eq` — whatever is called;
* `Factory.ids_of_full` — lists of all items, whose ids tell nothing.
-/
import Postings.Proofs.Algebra.Size
import Postings.Proofs.Factory.Encoding
import Postings.Proofs.Factory.Full
import Postings.Proofs.ItemSet.Canonical

namespace Postings

/-- A list in ascending order that its bytes, if it has any, are read back as. -/
structure ItemSet.Sound (set : ItemSet) : Prop where
  ascending : Ascending set.items
  rereads : ∀ bytes, set.encoded = some bytes → ofTrustedBytes bytes = .ok set

theorem ItemSet.Proper.sound {set : ItemSet} (h : set.Proper) : set.Sound :=
  ⟨h.ascending, h.rereads⟩

namespace Factory

variable {config : Config} {factory first : Factory} {store : Store} {call another : Call}
variable {items other : List Item} {bytes : ByteArray} {id otherId position : Nat}

/-! ### Bytes and items -/

/-- The bytes that items are stored as tell the items, natively written or not. -/
theorem eq_of_written (hblock : config.tuning.blockSize < 2 ^ 32) (hascend : Ascending items)
    (hother : Ascending other) (h : written config items = .ok bytes)
    (h' : written config other = .ok bytes) : items = other := by
  rcases encodeTagged_of_written h with h | h
  · rcases encodeTagged_of_written h' with h' | h'
    · exact eq_of_encodeTagged hascend hother hblock h h'
    · exact eq_of_encodeTagged hascend hother hblock h h'
  · rcases encodeTagged_of_written h' with h' | h'
    · exact eq_of_encodeTagged hascend hother hblock h h'
    · exact eq_of_encodeTagged hascend hother hblock h h'

/-- The codecs in which no list brings bytes other than those that its items are written as. -/
def OneSpelling (codec : Codec) : Prop :=
  codec = .native ∨ codec = .vector ∨ codec = .frame

theorem OneSpelling.ne_range {codec : Codec} (h : OneSpelling codec) : codec ≠ .range := by
  rcases h with rfl | rfl | rfl
  · decide
  · decide
  · decide

/-- Only where progressions are asked for, another codec may step in. -/
theorem encodeTagged_of_written_of_ne (hcodec : config.codec ≠ .range)
    (h : written config items = .ok bytes) :
    encodeTagged items config.codec config.tuning = .ok bytes := by
  rw [written] at h
  split at h
  · exact absurd h (by simp [hcodec])
  · exact h

/-- Bytes that are taken over are those that would be made. -/
theorem encodeTagged_of_bytesOf {set : ItemSet} (hcodec : OneSpelling config.codec)
    (hset : set.Sound) (h : bytesOf config set = .ok bytes) :
    encodeTagged set.items config.codec config.tuning = .ok bytes := by
  rw [bytesOf] at h
  split at h
  next reused hreused =>
    obtain rfl := Except.ok.inj h
    have hencoded := encoded_of_reusableBytes? hreused
    have hread := hset.rereads _ hencoded
    have hsame : set.codec = config.codec ∧ set.codec ≠ .frame := by
      rw [reusableBytes?] at hreused
      split at hreused
      next hsame => exact hsame
      next => exact absurd hreused (by simp)
    -- No list that was read is a vector, and frames are not taken over.
    have hnative : config.codec = .native := by
      rcases hcodec with hnative | hvector | hframe
      · exact hnative
      · exact absurd (hsame.1.trans hvector) (ItemSet.codec_ne_vector hread)
      · exact absurd (hsame.1.trans hframe) hsame.2
    rw [ItemSet.encoded_of_native hread (hsame.1.trans hnative)] at hencoded
    rw [hnative, ← Option.some.inj hencoded]
    rfl
  next =>
    rw [encodeItems_eq] at h
    exact encodeTagged_of_written_of_ne hcodec.ne_range (eq_ok_of_checked h)

/-! ### The lists that calls add -/

/-- The lists that a call adds, by the positions of their ids; bytes that are added as they are
are not counted as a list. -/
def Call.Adds (position : Nat) (items : List Item) : Call → Prop
  | addItems given => position = 0 ∧ items = given
  | addSet set => position = 0 ∧ items = set.items
  | addBytes _ => False
  | insertStore store _ => ∃ set, store.load position = .ok set ∧ items = set.items

/-- A posting list that is added ascends and is what its bytes are read back as.  A merge that gives
all items makes one that is not: its bytes say that there is none. -/
def Call.Sound : Call → Prop
  | addSet set => set.Sound
  | _ => True

/-- Lists that a factory takes: ascending ones that are not too long, and those of a store from
which all can be loaded. -/
def Call.Addable : Call → Prop
  | addItems items => Ascending items ∧ items.length < 2 ^ 32
  | addSet set => set.Sound ∧ set.items.length < 2 ^ 32
  | addBytes _ => False
  | insertStore store _ => ∀ id < store.size, ∃ set, store.load id = .ok set

/-- A call of a run has returned an id at a position. -/
def Returned (first : Factory) (calls : List Call) (call : Call) (position id : Nat) : Prop :=
  ∃ earlier later ids final, calls = earlier ++ call :: later ∧
    call.run (first.runCalls earlier) = .ok ids final ∧ ids[position]? = some id

/-- Two calls in a row return their ids. -/
theorem returned_two {middle final : Factory} (hcall : call.run first = .ok #[id] middle)
    (hanother : another.run middle = .ok #[otherId] final) :
    Returned first [call, another] call 0 id ∧
      Returned first [call, another] another 0 otherId := by
  refine ⟨⟨[], [another], #[id], middle, rfl, hcall, rfl⟩,
    ⟨[call], [], #[otherId], final, rfl, ?_, rfl⟩⟩
  rw [runCalls_of_run hcall]
  exact hanother

/-- A store that is added as a whole hands over a recoding of every list. -/
theorem map_some_storePlan {pick : Nat} (hdone : (storePlan config store pick).failure = none) :
    (storePlan config store pick).entries.map some
      = (List.range store.size).map fun id => (recoded config store id).toOption := by
  rw [storePlan] at hdone ⊢
  cases hrefused : refused? config store with
  | none =>
    exact map_some_recodings fun id hid =>
      refused?_eq_none.1 hrefused id (List.mem_range.1 hid)
  | some failing =>
    obtain ⟨-, error, -, -, -, hencode, -⟩ := encodeEach_of_refused hrefused pick
    simp only [hrefused, hencode] at hdone
    exact absurd hdone (by simp)

theorem recoded_of_storePlan {pick : Nat} (hdone : (storePlan config store pick).failure = none)
    (hentry : (storePlan config store pick).entries[position]? = some bytes) :
    recoded config store position = .ok bytes := by
  have hat := congrArg (·[position]?) (map_some_storePlan hdone)
  simp only [List.getElem?_map, hentry, Option.map_some] at hat
  obtain ⟨id, hid, hbytes⟩ := Option.map_eq_some_iff.1 hat.symm
  obtain ⟨hlt, rfl⟩ := List.getElem?_eq_some_iff.1 hid
  rw [List.getElem_range] at hbytes
  exact eq_ok_of_toOption hbytes

theorem ofAnswer_of_getElem? {answer : Except Error ByteArray}
    (h : (Plan.ofAnswer answer).entries[position]? = some bytes) :
    position = 0 ∧ answer = .ok bytes := by
  cases answer with
  | error error => exact absurd h (by simp [Plan.ofAnswer])
  | ok given =>
    obtain ⟨hlt, rfl⟩ := List.getElem?_eq_some_iff.1 h
    obtain rfl := Nat.lt_one_iff.1 hlt
    exact ⟨rfl, rfl⟩

theorem length_pos_of_answer {answer : Except Error ByteArray}
    (h : (Plan.ofAnswer answer).failure = none) : 0 < (Plan.ofAnswer answer).entries.length := by
  cases answer with
  | ok given => exact Nat.zero_lt_one
  | error error => exact absurd h (by simp [Plan.ofAnswer])

/-- What a call that adds items hands over. -/
theorem written_of_entry
    (hentry : ((Call.addItems items).plan config).entries[position]? = some bytes) :
    Ascending items ∧ written config items = .ok bytes := by
  have hitems := (ofAnswer_of_getElem? hentry).2
  rw [bytesOfItems] at hitems
  split at hitems
  · exact absurd hitems (by simp)
  next hnone =>
    rw [encodeItems_eq] at hitems
    exact ⟨firstDescent?_eq_none.1 hnone, eq_ok_of_checked hitems⟩

/-- What a call hands over for a list is what its items are written as. -/
theorem encodeTagged_of_entry (hcodec : OneSpelling config.codec) (hcall : call.Sound)
    (hdone : (call.plan config).failure = none) (hadds : call.Adds position items)
    (hentry : (call.plan config).entries[position]? = some bytes) :
    Ascending items ∧ encodeTagged items config.codec config.tuning = .ok bytes := by
  cases call with
  | addItems given =>
    obtain ⟨-, rfl⟩ := hadds
    obtain ⟨hascend, hwritten⟩ := written_of_entry hentry
    exact ⟨hascend, encodeTagged_of_written_of_ne hcodec.ne_range hwritten⟩
  | addSet set =>
    obtain ⟨-, rfl⟩ := hadds
    exact ⟨hcall.ascending,
      encodeTagged_of_bytesOf hcodec hcall (ofAnswer_of_getElem? hentry).2⟩
  | addBytes given => exact absurd hadds id
  | insertStore store pick =>
    obtain ⟨set, hload, rfl⟩ := hadds
    obtain ⟨again, hagain, hbytes⟩ := recoded_eq_ok.1 (recoded_of_storePlan hdone hentry)
    obtain rfl := Except.ok.inj (hload.symm.trans hagain)
    obtain ⟨raw, -, hraw, -⟩ := Store.load_eq_ok.1 hload
    have hset := ItemSet.proper_of_ofBytes hraw
    exact ⟨hset.ascending, encodeTagged_of_bytesOf hcodec hset.sound hbytes⟩

/-- Every entry is one of a list, unless bytes were added as they are. -/
theorem Call.exists_adds (hverbatim : ∀ given, call ≠ .addBytes given)
    (hdone : (call.plan config).failure = none)
    (hentry : (call.plan config).entries[position]? = some bytes) :
    ∃ items, call.Adds position items := by
  cases call with
  | addItems items => exact ⟨items, (ofAnswer_of_getElem? hentry).1, rfl⟩
  | addSet set => exact ⟨set.items, (ofAnswer_of_getElem? hentry).1, rfl⟩
  | addBytes given => exact absurd rfl (hverbatim given)
  | insertStore store pick =>
    obtain ⟨set, hload, -⟩ := recoded_eq_ok.1 (recoded_of_storePlan hdone hentry)
    exact ⟨set.items, set, hload, rfl⟩

/-- Every list of a call has an entry. -/
theorem Call.Adds.lt_length (hdone : (call.plan config).failure = none)
    (h : call.Adds position items) : position < (call.plan config).entries.length := by
  cases call with
  | addItems given =>
    obtain ⟨rfl, -⟩ := h
    exact length_pos_of_answer hdone
  | addSet set =>
    obtain ⟨rfl, -⟩ := h
    exact length_pos_of_answer hdone
  | addBytes given => exact absurd h id
  | insertStore store pick =>
    obtain ⟨set, hload, -⟩ := h
    have hlength := congrArg List.length (map_some_storePlan hdone)
    rw [List.length_map, List.length_map, List.length_range] at hlength
    rw [plan, hlength]
    obtain ⟨bytes, hraw, -⟩ := Store.load_eq_ok.1 hload
    refine Decidable.byContradiction fun hbeyond => ?_
    rw [Store.raw, if_neg hbeyond] at hraw
    exact absurd hraw (by simp)

theorem exists_bytesOf {set : ItemSet} (hzero : config.tuning.blockSize ≠ 0)
    (hblock : config.tuning.blockSize < 2 ^ 32) (hfew : set.items.length < 2 ^ 32)
    (hascend : Ascending set.items) : ∃ bytes, bytesOf config set = .ok bytes := by
  rw [bytesOf]
  split
  next bytes _ => exact ⟨bytes, rfl⟩
  next => exact exists_encodeItems hzero hblock hfew hascend

theorem Call.Addable.failure_eq_none (h : call.Addable) (hzero : config.tuning.blockSize ≠ 0)
    (hblock : config.tuning.blockSize < 2 ^ 32) : (call.plan config).failure = none := by
  cases call with
  | addItems items =>
    obtain ⟨bytes, hbytes⟩ := exists_encodeItems hzero hblock h.2 h.1
    rw [plan, bytesOfItems, firstDescent?_eq_none.2 h.1, hbytes]
    rfl
  | addSet set =>
    obtain ⟨bytes, hbytes⟩ := exists_bytesOf hzero hblock h.2 h.1.ascending
    rw [plan, hbytes]
    rfl
  | addBytes given => exact absurd h id
  | insertStore store pick =>
    have hall : ∀ id < store.size, Recodes config store id := by
      intro id hid
      obtain ⟨set, hload⟩ := h id hid
      obtain ⟨raw, -, hraw, -⟩ := Store.load_eq_ok.1 hload
      have hset := ItemSet.proper_of_ofBytes hraw
      obtain ⟨bytes, hbytes⟩ := exists_bytesOf hzero hblock hset.length_lt hset.ascending
      exact ⟨bytes, recoded_eq_ok.2 ⟨set, hload, hbytes⟩⟩
    rw [plan, storePlan, refused?_eq_none.2 hall]

/-! ### The ids that are returned -/

theorem runCalls_append_cons (first : Factory) (earlier later : List Call) (call : Call) :
    first.runCalls (earlier ++ call :: later)
      = (after (call.run (first.runCalls earlier))).runCalls later := by
  rw [runCalls, List.foldl_append]
  rfl

/-- An id stands for the bytes that a list has come to, for good. -/
theorem Returned.exists_stored {calls : List Call} (hindexed : first.Indexed)
    (hconfig : first.config = config) (h : Returned first calls call position id) :
    (call.plan config).failure = none ∧ ∃ bytes,
      (call.plan config).entries[position]? = some bytes ∧
      (first.runCalls calls).stored? id = some bytes := by
  obtain ⟨earlier, later, ids, final, rfl, hrun, hid⟩ := h
  have hearlier := (hindexed.extends_runCalls earlier).indexed
  have hcarried := hrun
  rw [call.run_eq, config_runCalls, hconfig] at hcarried
  obtain ⟨hdone, hinsert⟩ := Plan.carryOut_eq_ok.1 hcarried
  obtain ⟨hsize, hstored⟩ := hearlier.stored_insertEach hinsert
  -- There are as many entries as ids, so this one has an entry of its own.
  obtain ⟨hlt, -⟩ := Array.getElem?_eq_some_iff.1 hid
  have hentry := List.getElem?_eq_getElem (hsize ▸ hlt : position < _)
  obtain ⟨found, hfound, hbytes⟩ := hstored position _ hentry
  obtain rfl := Option.some.inj (hid.symm.trans hfound)
  have hlater := hearlier.extends_run call
  rw [hrun] at hlater
  refine ⟨hdone, _, hentry, ?_⟩
  rw [runCalls_append_cons, hrun]
  exact (hlater.indexed.extends_runCalls later).stored id _ hbytes

/-- While there are ids, lists that a factory takes are added, and every list has an id. -/
theorem Indexed.exists_run (h : factory.Indexed) (hconfig : factory.config = config)
    (hdone : (call.plan config).failure = none)
    (hfew : (after (call.run factory)).offsets.size < 2 ^ 32) :
    ∃ ids final, call.run factory = .ok ids final ∧
      ∀ position items, call.Adds position items → ∃ id, ids[position]? = some id := by
  rw [call.run_eq, hconfig] at hfew ⊢
  rcases insertEach_cases (call.plan config).entries #[] factory with
    ⟨ids, final, hinsert⟩ | ⟨final, hinsert, hfull⟩
  · refine ⟨ids, final, Plan.carryOut_eq_ok.2 ⟨hdone, hinsert⟩, fun position items hadds => ?_⟩
    have hposition := hadds.lt_length hdone
    rw [← (h.stored_insertEach hinsert).1] at hposition
    exact ⟨ids[position], Array.getElem?_eq_getElem hposition⟩
  · rw [Plan.after_carryOut, hinsert] at hfew
    exact absurd hfew (Nat.not_lt.2 hfull)

/-- Ids of bytes that tell the items apart are ids of the items. -/
theorem Indexed.id_eq_iff {another : ByteArray} (write : List Item → Except Error ByteArray)
    (h : factory.Indexed) (hdedup : factory.config.deduplicate = true)
    (hid : factory.stored? id = some bytes) (hother : factory.stored? otherId = some another)
    (hwrite : write items = .ok bytes) (hwriteOther : write other = .ok another)
    (hinjective : write other = .ok bytes → items = other) : id = otherId ↔ items = other := by
  constructor
  · rintro rfl
    obtain rfl := Option.some.inj (hid.symm.trans hother)
    exact hinjective hwriteOther
  · rintro rfl
    obtain rfl := Except.ok.inj (hwrite.symm.trans hwriteOther)
    exact h.unique hdedup id otherId bytes hid hother

/-- Whatever is called and however lists are hashed, two lists of items that are added have one id
exactly if they are equal.  In the native codec, as vectors and in frames that is true of all
lists, be they given as items, in some codec or in a store.  Every id that is returned is one of
such a list, unless bytes were added as they are, and every list is given one as long as there are
ids. -/
theorem ids_eq_iff_items_eq (config : Config) (fingerprint : Fingerprint) (calls : List Call)
    (hdedup : config.deduplicate = true) (hblock : config.tuning.blockSize < 2 ^ 32)
    (hmake : make config fingerprint = .ok first) :
    (∀ items id other otherId, Returned first calls (.addItems items) 0 id →
      Returned first calls (.addItems other) 0 otherId → (id = otherId ↔ items = other)) ∧
    (config.codec = .native ∨ config.codec = .vector ∨ config.codec = .frame →
      ∀ call position items id another otherPosition other otherId,
        call.Sound → another.Sound →
        Returned first calls call position id → call.Adds position items →
        Returned first calls another otherPosition otherId → another.Adds otherPosition other →
        (id = otherId ↔ items = other)) ∧
    (∀ call position id, Returned first calls call position id →
      (∀ bytes, call ≠ .addBytes bytes) → ∃ items, call.Adds position items) ∧
    ∀ call, call.Addable → (first.runCalls (calls ++ [call])).offsets.size < 2 ^ 32 →
      ∃ ids final, call.run (first.runCalls calls) = .ok ids final ∧
        ∀ position items, call.Adds position items → ∃ id, ids[position]? = some id := by
  have hindexed := indexed_of_make hmake
  have hconfig := config_of_make hmake
  have hfinal := (hindexed.extends_runCalls calls).indexed
  have hfinalConfig : (first.runCalls calls).config = config := by
    rw [config_runCalls, hconfig]
  have hshared : (first.runCalls calls).config.deduplicate = true := hfinalConfig ▸ hdedup
  refine ⟨fun items id other otherId h h' => ?_,
    fun hcodec call position items id another otherPosition other otherId hcall hanother h hadds h'
      hadds' => ?_,
    fun call position id h hverbatim => ?_, fun call hcall hfew => ?_⟩
  · obtain ⟨-, bytes, hentry, hstored⟩ := h.exists_stored hindexed hconfig
    obtain ⟨-, otherBytes, hentry', hstored'⟩ := h'.exists_stored hindexed hconfig
    obtain ⟨hascend, hwritten⟩ := written_of_entry hentry
    obtain ⟨hascend', hwritten'⟩ := written_of_entry hentry'
    exact hfinal.id_eq_iff (written config) hshared hstored hstored' hwritten hwritten'
      (eq_of_written hblock hascend hascend' hwritten)
  · obtain ⟨hdone, bytes, hentry, hstored⟩ := h.exists_stored hindexed hconfig
    obtain ⟨hdone', otherBytes, hentry', hstored'⟩ := h'.exists_stored hindexed hconfig
    obtain ⟨hascend, hwritten⟩ := encodeTagged_of_entry hcodec hcall hdone hadds hentry
    obtain ⟨hascend', hwritten'⟩ := encodeTagged_of_entry hcodec hanother hdone' hadds' hentry'
    exact hfinal.id_eq_iff (fun items => encodeTagged items config.codec config.tuning)
      hshared hstored hstored' hwritten hwritten'
      (eq_of_encodeTagged hascend hascend' hblock hwritten)
  · obtain ⟨hdone, bytes, hentry, -⟩ := h.exists_stored hindexed hconfig
    exact call.exists_adds hverbatim hdone hentry
  · rw [runCalls_append_cons] at hfew
    exact hfinal.exists_run hfinalConfig
      (hcall.failure_eq_none (make_eq_ok.1 hmake).1 hblock) hfew

/-- A list of items and the same list as a vector, with a fingerprint that confuses all bytes. -/
theorem ids_eq_iff_items_eq_native :
    ∃ first id otherId, make { codec := .native } (fun _ => 0) = .ok first ∧
      Returned first [.addItems [3, 7], .addSet (.ofAscending #[3, 7])] (.addItems [3, 7]) 0 id ∧
      Returned first [.addItems [3, 7], .addSet (.ofAscending #[3, 7])]
        (.addSet (.ofAscending #[3, 7])) 0 otherId ∧ id = otherId := by
  obtain ⟨empty, hempty⟩ : ∃ empty, encodeItems { codec := .native } [] = .ok empty := ⟨_, rfl⟩
  obtain ⟨first, hinsert, -⟩ := exists_insert_blank { codec := .native } (fun _ => 0) empty
  have hmake : make { codec := .native } (fun _ => 0) = .ok first :=
    make_eq_ok.2 ⟨by decide, empty, hempty, hinsert⟩
  have hsound : (ItemSet.ofAscending #[3, 7]).Sound :=
    (ItemSet.proper_ofAscending (by decide) (by decide)).sound
  have hfew : ∀ calls : List Call,
      1 + (calls.map fun call => (call.plan { codec := .native }).entries.length).sum < 2 ^ 32 →
      (first.runCalls calls).offsets.size < 2 ^ 32 := by
    intro calls hlt
    have hle := size_runCalls_le calls first
    rw [size_of_make hmake, config_of_make hmake] at hle
    exact Nat.lt_of_le_of_lt hle hlt
  obtain ⟨ids, middle, hrun, hids⟩ :=
    (ids_eq_iff_items_eq _ _ [] rfl (by decide) hmake).2.2.2 (.addItems [3, 7])
      ⟨by decide, by decide⟩ (hfew _ (show 1 + 1 < 2 ^ 32 by decide))
  obtain ⟨otherIds, final, hrun', hids'⟩ :=
    (ids_eq_iff_items_eq _ _ [.addItems [3, 7]] rfl (by decide) hmake).2.2.2
      (.addSet (.ofAscending #[3, 7])) ⟨hsound, by decide⟩
      (hfew _ (show 1 + 2 < 2 ^ 32 by decide))
  obtain ⟨id, hid⟩ := hids 0 [3, 7] ⟨rfl, rfl⟩
  obtain ⟨otherId, hotherId⟩ := hids' 0 [3, 7] ⟨rfl, rfl⟩
  have hitems : Returned first [.addItems [3, 7], .addSet (.ofAscending #[3, 7])]
      (.addItems [3, 7]) 0 id :=
    ⟨[], [.addSet (.ofAscending #[3, 7])], ids, middle, rfl, hrun, hid⟩
  have hset : Returned first [.addItems [3, 7], .addSet (.ofAscending #[3, 7])]
      (.addSet (.ofAscending #[3, 7])) 0 otherId :=
    ⟨[.addItems [3, 7]], [], otherIds, final, rfl, hrun', hotherId⟩
  have hsame := (ids_eq_iff_items_eq _ _ _ rfl (by decide) hmake).2.1 (.inl rfl)
    (.addItems [3, 7]) 0 [3, 7] id (.addSet (.ofAscending #[3, 7])) 0 [3, 7] otherId
    trivial hsound hitems ⟨rfl, rfl⟩ hset ⟨rfl, rfl⟩
  exact ⟨first, id, otherId, hmake, hitems, hset, hsame.2 rfl⟩

/-- Ids tell neither the items that a list gives nor those that it was made of.  The union of the
two halves of all items gives none, and does not share an id with the empty list; all items put in
the native codec share one with the empty list, and not with all items. -/
theorem ids_of_full : ∃ first low high short,
    make (natively true) (fun _ => 0) = .ok first ∧
    ItemSet.ofRange 0 (2 ^ 31) 1 = .ok low ∧ ItemSet.ofRange 2147483648 (2 ^ 32) 1 = .ok high ∧
    ((low.apply high .union).items = [] ∧
      Returned first [.addSet (low.apply high .union), .addItems []]
        (.addSet (low.apply high .union)) 0 1 ∧
      Returned first [.addSet (low.apply high .union), .addItems []] (.addItems []) 0 0) ∧
    (ItemSet.encode allItems .native {} = .ok short ∧
      Returned first [.addItems allItems, .addSet short] (.addItems allItems) 0 1 ∧
      Returned first [.addItems allItems, .addSet short] (.addSet short) 0 0) := by
  obtain ⟨first, hmake⟩ := exists_make_natively true fun _ => 0
  obtain ⟨low, high, hlow, hhigh, hcodec, hitems, hencoded⟩ := ItemSet.apply_halves
  obtain ⟨short, hblank, hshort⟩ := ItemSet.exists_encode_allItems
  refine ⟨first, low, high, short, hmake, hlow, hhigh, ⟨hitems, ?_⟩, hshort, ?_⟩
  · obtain ⟨last, hrun, hlast⟩ := exists_run_full hmake (plan_addSet_natively hcodec hencoded)
    obtain ⟨final, hempty⟩ := hlast.exists_run_empty (plan_addItems_natively List.Pairwise.nil)
    exact returned_two hrun hempty
  · obtain ⟨last, hrun, hlast⟩ := exists_run_full hmake (plan_addItems_natively ascending_allItems)
    obtain ⟨final, hempty⟩ := hlast.exists_run_empty
      (plan_addSet_natively hblank.codec_eq hblank.encoded_eq)
    exact returned_two hrun hempty

end Factory

end Postings
