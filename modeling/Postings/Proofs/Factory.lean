/-
The states a factory can come to.

Every way to add lists comes down to `Factory.insert`, which finds equal bytes
that are stored already, stores the bytes under the next id, or fails and leaves
the factory alone.  What is stored is always one whole list, so a factory stays
`Factory.Intact` along every run of calls.

* `Factory.insert_cases` — what inserting can do;
* `Factory.Intact` — the offsets cut the data into whole lists;
* `Factory.Preserves` — steps that keep a factory intact, composed along `bind`;
* `Factory.Call`, `Factory.intact_runCalls` — a whole run.
-/
import Postings.Factory
import Postings.Proofs.ItemSet.Encode
import Postings.Proofs.Store.Basic

namespace Postings

namespace Factory

/-! ### Storing -/

/-- The factory with bytes under the next id. -/
def grow (factory : Factory) (bytes : ByteArray) : Factory :=
  { factory with
    offsets := factory.offsets.push factory.data.size
    data := factory.data ++ bytes }

theorem append_eq (bytes : ByteArray) (factory : Factory) :
    append bytes factory =
      if 2 ^ 32 ≤ factory.offsets.size then .error (.overflow .ids) factory
      else .ok factory.offsets.size (factory.grow bytes) := by
  rw [append]
  show (if 2 ^ 32 ≤ factory.offsets.size then _ else _ : Adding Nat) factory = _
  split
  next h => rfl
  next h => rfl

theorem beq_bytes {first second : ByteArray} : (first == second) = true ↔ first = second := by
  show (first.data == second.data) = true ↔ _
  rw [beq_iff_eq, ByteArray.ext_iff]

theorem stored?_of_lookup {factory : Factory} {mark : UInt64} {bytes : ByteArray} {id : Nat}
    (h : factory.lookup mark bytes = some id) : factory.stored? id = some bytes := by
  have hfound := Array.find?_some h
  cases hentry : factory.stored? id with
  | none =>
    rw [hentry] at hfound
    exact absurd hfound (by simp)
  | some stored =>
    rw [hentry, Option.some_beq_some, beq_bytes] at hfound
    rw [hfound]

theorem insert_of_distinct {factory : Factory} {bytes : ByteArray}
    (h : factory.config.deduplicate = false) : insert bytes factory = append bytes factory := by
  rw [insert]
  show (if factory.config.deduplicate = true then _ else _ : Adding Nat) factory = _
  rw [if_neg (by rw [h]; exact Bool.false_ne_true)]

theorem insert_of_lookup {factory : Factory} {bytes : ByteArray}
    (h : factory.config.deduplicate = true) :
    insert bytes factory =
      match factory.lookup (factory.fingerprint bytes) bytes with
      | some id => .ok id { factory with hits := factory.hits + 1 }
      | none => (do
          let id ← append bytes
          remember (factory.fingerprint bytes) id
          return id : Adding Nat) factory := by
  rw [insert]
  show (if factory.config.deduplicate = true then _ else _ : Adding Nat) factory = _
  rw [if_pos h]
  show (match factory.lookup (factory.fingerprint bytes) bytes with
    | some id => _
    | none => _ : Adding Nat) factory = _
  cases factory.lookup (factory.fingerprint bytes) bytes with
  | some id => rfl
  | none => rfl

/-- Inserting finds the bytes under an id, or stores them under the next one, or there is none
left and nothing changes. -/
theorem insert_cases (bytes : ByteArray) (factory : Factory) :
    (∃ id, factory.stored? id = some bytes ∧
      insert bytes factory = .ok id { factory with hits := factory.hits + 1 }) ∨
    (factory.offsets.size < 2 ^ 32 ∧ ∃ buckets, insert bytes factory
      = .ok factory.offsets.size { factory.grow bytes with buckets := buckets }) ∨
    (2 ^ 32 ≤ factory.offsets.size ∧ insert bytes factory = .error (.overflow .ids) factory) := by
  have happend := append_eq bytes factory
  cases hdistinct : factory.config.deduplicate with
  | false =>
    rw [insert_of_distinct hdistinct, happend]
    split
    next h => exact .inr (.inr ⟨h, rfl⟩)
    next h => exact .inr (.inl ⟨Nat.lt_of_not_le h, factory.buckets, rfl⟩)
  | true =>
    rw [insert_of_lookup hdistinct]
    cases hlookup : factory.lookup (factory.fingerprint bytes) bytes with
    | some id => exact .inl ⟨id, stored?_of_lookup hlookup, rfl⟩
    | none =>
      -- Noting the fingerprint changes the buckets only.
      show _ ∨ (_ ∧ ∃ buckets, EStateM.bind _ _ factory = _) ∨ (_ ∧ EStateM.bind _ _ factory = _)
      by_cases hfull : 2 ^ 32 ≤ factory.offsets.size
      · rw [if_pos hfull] at happend
        rw [EStateM.bind, happend]
        exact .inr (.inr ⟨hfull, rfl⟩)
      · rw [if_neg hfull] at happend
        rw [EStateM.bind, happend]
        exact .inr (.inl ⟨Nat.lt_of_not_le hfull, _, rfl⟩)

/-! ### Intact factories -/

variable {config : Config} {factory : Factory} {bytes : ByteArray}

/-- The offsets rise from 0 and stay inside the data, which they cut into whole lists. -/
structure Intact (config : Config) (factory : Factory) : Prop where
  config_eq : factory.config = config
  zero : factory.offsets[0]?.getD factory.data.size = 0
  rising : factory.offsets.toList.Pairwise (· ≤ ·)
  inside : ∀ start ∈ factory.offsets, start ≤ factory.data.size
  whole : ∀ id bytes, factory.stored? id = some bytes → Whole bytes

theorem stopOf_grow (bytes : ByteArray)
    (hinside : ∀ start ∈ factory.offsets, start ≤ factory.data.size) {id : Nat}
    (h : id < factory.offsets.size) :
    (factory.grow bytes).stopOf id = factory.stopOf id ∧
      factory.stopOf id ≤ factory.data.size := by
  rw [stopOf, stopOf]
  by_cases hlast : id + 1 = factory.offsets.size
  · -- The last entry ended with the data, where the new one starts.
    rw [hlast, Array.getElem?_eq_none (Nat.le_refl _)]
    exact ⟨by simp [grow], Nat.le_refl _⟩
  · have hnext : id + 1 < factory.offsets.size := by omega
    rw [grow, Array.getElem?_push_lt hnext, Array.getElem?_eq_getElem hnext]
    exact ⟨rfl, hinside _ (Array.getElem_mem hnext)⟩

/-- Entries stay what they are. -/
theorem stored?_grow_of_lt (hinside : ∀ start ∈ factory.offsets, start ≤ factory.data.size)
    {id : Nat} (h : id < factory.offsets.size) :
    (factory.grow bytes).stored? id = factory.stored? id := by
  obtain ⟨hstop, hle⟩ := stopOf_grow bytes hinside h
  rw [stored?, stored?, hstop]
  simp only [grow, Array.getElem?_push_lt h, Array.getElem?_eq_getElem h, Option.map_some,
    Bytes.extract_append_of_le hle]

/-- The new bytes stand under the next id. -/
theorem stored?_grow_size : (factory.grow bytes).stored? factory.offsets.size = some bytes := by
  rw [stored?, stopOf]
  simp only [grow, Array.getElem?_push_size, Option.map_some, Option.some.injEq]
  rw [Array.getElem?_eq_none (by simp), Option.getD_none]
  exact ByteArray.extract_append_eq_right rfl (by rw [ByteArray.size_append])

theorem lt_size_of_stored? {id : Nat} (h : factory.stored? id = some bytes) :
    id < factory.offsets.size := by
  obtain ⟨start, hstart, -⟩ := Option.map_eq_some_iff.1 h
  exact (Array.getElem?_eq_some_iff.1 hstart).1

/-- An entry stands between its start and its stop, inside the data. -/
theorem exists_entry (hrising : factory.offsets.toList.Pairwise (· ≤ ·))
    (hinside : ∀ start ∈ factory.offsets, start ≤ factory.data.size) {id : Nat}
    (hid : id < factory.offsets.size) :
    factory.offsets[id] ≤ factory.stopOf id ∧ factory.stopOf id ≤ factory.data.size ∧
      factory.stored? id
        = some (factory.data.extract factory.offsets[id] (factory.stopOf id)) := by
  refine ⟨?_, (stopOf_grow ByteArray.empty hinside hid).2, ?_⟩
  · rw [stopOf]
    by_cases hnext : id + 1 < factory.offsets.size
    · rw [Array.getElem?_eq_getElem hnext, Option.getD_some]
      exact List.pairwise_iff_getElem.1 hrising id (id + 1) hid hnext (Nat.lt_succ_self id)
    · rw [Array.getElem?_eq_none (Nat.le_of_not_lt hnext), Option.getD_none]
      exact hinside _ (Array.getElem_mem hid)
  · rw [stored?, Array.getElem?_eq_getElem hid, Option.map_some]

theorem Intact.grow (h : factory.Intact config) (hbytes : Whole bytes) :
    (factory.grow bytes).Intact config where
  config_eq := h.config_eq
  zero := by
    have hzero := h.zero
    by_cases hnone : factory.offsets.size = 0
    · -- Without an entry there is no data yet, so the first one starts at 0.
      rw [Array.getElem?_eq_none (Nat.le_of_eq hnone), Option.getD_none] at hzero
      have hpush : (factory.offsets.push factory.data.size)[factory.offsets.size]?
          = some factory.data.size := Array.getElem?_push_size
      rw [hnone, hzero] at hpush
      simp only [Factory.grow, hzero, hpush, Option.getD_some]
    · have hfirst : 0 < factory.offsets.size := Nat.pos_of_ne_zero hnone
      rw [Array.getElem?_eq_getElem hfirst] at hzero
      rw [Factory.grow, Array.getElem?_push_lt hfirst]
      exact hzero
  rising := by
    simp only [Factory.grow, Array.toList_push]
    refine List.pairwise_append.2 ⟨h.rising, List.pairwise_singleton .., ?_⟩
    intro start hstart last hlast
    rw [List.mem_singleton.1 hlast]
    exact h.inside start (by simpa using hstart)
  inside start hstart := by
    simp only [Factory.grow, ByteArray.size_append]
    rcases Array.mem_push.1 hstart with hold | rfl
    · have := h.inside start hold
      omega
    · omega
  whole id other hentry := by
    have hid := lt_size_of_stored? hentry
    simp only [Factory.grow, Array.size_push] at hid
    by_cases hnew : id = factory.offsets.size
    · rw [hnew, stored?_grow_size] at hentry
      exact Option.some.inj hentry ▸ hbytes
    · rw [stored?_grow_of_lt h.inside (by omega)] at hentry
      exact h.whole id other hentry

/-! ### Steps -/

section Steps

variable {α β : Type}

/-- The factory after a step, be it done or failed. -/
def after : EStateM.Result Error Factory α → Factory
  | .ok _ factory => factory
  | .error _ factory => factory

/-- The step leaves a factory intact, also when it fails. -/
def Preserves (config : Config) (step : Adding α) : Prop :=
  ∀ factory : Factory, factory.Intact config → (after (step factory)).Intact config

theorem Preserves.pure (value : α) : Preserves config (pure value : Adding α) :=
  fun _ h => h

theorem Preserves.throw (error : Error) : Preserves config (throw error : Adding α) :=
  fun _ h => h

theorem Preserves.bind {step : Adding α} {next : α → Adding β} (h : Preserves config step)
    (hnext : ∀ value, Preserves config (next value)) : Preserves config (step >>= next) := by
  intro factory hintact
  have hstep := h factory hintact
  show (after (EStateM.bind step next factory)).Intact config
  rw [EStateM.bind]
  cases hresult : step factory with
  | ok value middle =>
    rw [hresult] at hstep
    exact hnext value middle hstep
  | error error middle =>
    rw [hresult] at hstep
    exact hstep

/-- An answer changes nothing, and what follows it knows the answer. -/
theorem Preserves.lift_bind {answer : Except Error α} {next : α → Adding β}
    (h : ∀ value, answer = .ok value → Preserves config (next value)) :
    Preserves config (lift answer >>= next) := by
  cases answer with
  | ok value => exact h value rfl
  | error error => exact Preserves.throw error

theorem Preserves.get_bind {next : Factory → Adding β}
    (h : ∀ factory : Factory, factory.config = config → Preserves config (next factory)) :
    Preserves config (MonadState.get >>= next) :=
  fun factory hintact => h factory hintact.config_eq factory hintact

theorem preserves_insert (hbytes : Whole bytes) : Preserves config (insert bytes) := by
  intro factory hintact
  have hgrow := hintact.grow hbytes
  rcases insert_cases bytes factory with ⟨id, -, h⟩ | ⟨-, buckets, h⟩ | ⟨-, h⟩
  · rw [h]
    exact ⟨hintact.config_eq, hintact.zero, hintact.rising, hintact.inside, hintact.whole⟩
  · rw [h]
    exact ⟨hgrow.config_eq, hgrow.zero, hgrow.rising, hgrow.inside, hgrow.whole⟩
  · rw [h]
    exact hintact

end Steps

/-! ### Encoding -/

theorem whole_of_encodeTagged {items : List Item} {codec : Codec} {tuning : Tuning}
    (hfew : items.length < 2 ^ 32) (hascend : Ascending items) (hblock : tuning.blockSize < 2 ^ 32)
    (h : encodeTagged items codec tuning = .ok bytes) : Whole bytes := by
  by_cases hunsupported : Unsupported codec items tuning
  · obtain ⟨cause, herror⟩ := encodeTagged_of_unsupported hunsupported
    rw [h] at herror
    exact absurd herror (by simp)
  · obtain ⟨front, form, hencode, hreads, -, hitems⟩ :=
      exists_encodeTagged hfew hascend hblock hunsupported
    rw [h] at hencode
    obtain rfl := Except.ok.inj hencode
    have hset : (ItemSet.mk form (some front.toByteArray)).items = items := by
      rw [ItemSet.items_eq]
      exact hitems
    exact (ItemSet.proper_of_reads hreads ⟨by rwa [hset], by rwa [hset]⟩).whole rfl

/-- Bytes that are checked and passed on are the bytes that were answered. -/
theorem eq_ok_of_checked {answer : Except Error ByteArray} {verify : Bool}
    {check : ByteArray → Except Error Unit}
    (h : (do
      let bytes ← answer
      if verify then check bytes
      return bytes) = Except.ok bytes) : answer = .ok bytes := by
  obtain ⟨written, hwritten, hcheck⟩ := bind_eq_ok.1 h
  have hsame : written = bytes := by
    split at hcheck
    · obtain ⟨_, _, hpure⟩ := bind_eq_ok.1 hcheck
      exact Except.ok.inj hpure
    · exact Except.ok.inj hcheck
  rw [hwritten, hsame]

/-- The bytes of items in the codec of the settings, or natively where there is no progression. -/
def written (config : Config) (items : List Item) : Except Error ByteArray :=
  match encodeTagged items config.codec config.tuning with
  | .error (.unsupported cause) =>
    if config.codec = .range then encodeTagged items .native config.tuning
    else .error (.unsupported cause)
  | answer => answer

/-- What is written is checked where that is asked for. -/
theorem encodeItems_eq (config : Config) (items : List Item) :
    encodeItems config items = (do
      let bytes ← written config items
      if config.verify then checkEncoded bytes items
      return bytes) := by
  rw [encodeItems, written]
  cases encodeTagged items config.codec config.tuning with
  | ok bytes => rfl
  | error error =>
    cases error with
    | unsupported cause =>
      simp only
      split
      · rfl
      · rfl
    | _ => rfl

theorem encodeTagged_of_written {items : List Item} (h : written config items = .ok bytes) :
    encodeTagged items config.codec config.tuning = .ok bytes ∨
      encodeTagged items .native config.tuning = .ok bytes := by
  rw [written] at h
  split at h
  · split at h
    · exact .inr h
    · exact absurd h (by simp)
  · exact .inl h

theorem encodeTagged_of_encodeItems {items : List Item} (h : encodeItems config items = .ok bytes) :
    encodeTagged items config.codec config.tuning = .ok bytes ∨
      encodeTagged items .native config.tuning = .ok bytes := by
  rw [encodeItems_eq] at h
  exact encodeTagged_of_written (eq_ok_of_checked h)

theorem whole_of_encodeItems {items : List Item} (hfew : items.length < 2 ^ 32)
    (hascend : Ascending items) (hblock : config.tuning.blockSize < 2 ^ 32)
    (h : encodeItems config items = .ok bytes) : Whole bytes := by
  rcases encodeTagged_of_encodeItems h with h | h
  · exact whole_of_encodeTagged hfew hascend hblock h
  · exact whole_of_encodeTagged hfew hascend hblock h

theorem encoded_of_reusableBytes? {set : ItemSet} (h : reusableBytes? config set = some bytes) :
    set.encoded = some bytes := by
  rw [reusableBytes?] at h
  split at h
  · exact h
  · exact absurd h (by simp)

/-- A list is stored as the bytes that it was read from, or as bytes that are made of its items. -/
theorem bytesOf_cases {set : ItemSet} (h : bytesOf config set = .ok bytes) :
    set.encoded = some bytes ∨ encodeItems config set.items = .ok bytes := by
  rw [bytesOf] at h
  split at h
  next reused hreused =>
    obtain rfl := Except.ok.inj h
    exact .inl (encoded_of_reusableBytes? hreused)
  next => exact .inr h

theorem whole_of_bytesOf {set : ItemSet} (hset : set.Proper)
    (hblock : config.tuning.blockSize < 2 ^ 32) (h : bytesOf config set = .ok bytes) :
    Whole bytes := by
  rcases bytesOf_cases h with hencoded | hmade
  · exact hset.whole hencoded
  · exact whole_of_encodeItems hset.length_lt hset.ascending hblock hmade

/-! ### Calls -/

theorem preserves_addItems {items : List Item} (hfew : Ascending items → items.length < 2 ^ 32)
    (hblock : config.tuning.blockSize < 2 ^ 32) : Preserves config (addItems items) := by
  rw [addItems]
  split
  · exact Preserves.throw _
  next hnone =>
    refine Preserves.get_bind fun factory hconfig => Preserves.lift_bind fun bytes hbytes => ?_
    rw [hconfig] at hbytes
    have hascend := firstDescent?_eq_none.1 hnone
    exact preserves_insert (whole_of_encodeItems (hfew hascend) hascend hblock hbytes)

theorem preserves_addSet {set : ItemSet} (hset : set.Proper)
    (hblock : config.tuning.blockSize < 2 ^ 32) : Preserves config (addSet set) := by
  refine Preserves.get_bind fun factory hconfig => Preserves.lift_bind fun bytes hbytes => ?_
  rw [hconfig] at hbytes
  exact preserves_insert (whole_of_bytesOf hset hblock hbytes)

theorem preserves_addBytes (bytes : ByteArray) : Preserves config (addBytes bytes) := by
  refine Preserves.lift_bind fun set hset => ?_
  split
  · exact fun factory hintact => hintact
  next hlength => exact preserves_insert ⟨set, hset, by simpa using hlength⟩

theorem preserves_insertEach (ids : Array Nat) (entries : List ByteArray)
    (hentries : ∀ bytes ∈ entries, Whole bytes) : Preserves config (insertEach entries ids) := by
  induction entries generalizing ids with
  | nil => exact Preserves.pure ids
  | cons bytes rest ih =>
    refine (preserves_insert (hentries bytes (List.mem_cons_self ..))).bind fun id => ?_
    exact ih _ fun other hother => hentries other (List.mem_cons_of_mem _ hother)

theorem whole_of_encodeEach (hblock : config.tuning.blockSize < 2 ^ 32) {store : Store}
    {pick : Nat} {ids : List Nat} {entries : List ByteArray}
    (h : encodeEach config store pick ids = .ok entries) : ∀ bytes ∈ entries, Whole bytes := by
  rw [encodeEach] at h
  split at h
  · exact absurd h (by simp)
  next =>
    obtain rfl := Except.ok.inj h
    intro bytes hbytes
    obtain ⟨answer, hanswer, hok⟩ := List.mem_filterMap.1 hbytes
    obtain ⟨id, -, rfl⟩ := List.mem_map.1 hanswer
    -- A store gives only lists that its bytes are read as, in ascending order.
    obtain ⟨set, hload, hbytesOf⟩ := bind_eq_ok.1 (eq_ok_of_toOption hok)
    obtain ⟨raw, -, hraw, -⟩ := Store.load_eq_ok.1 hload
    exact whole_of_bytesOf (ItemSet.proper_of_ofBytes hraw) hblock hbytesOf

theorem preserves_insertFrom (hblock : config.tuning.blockSize < 2 ^ 32) (store : Store)
    (pick start : Nat) (ids : Array Nat) :
    Preserves config (insertFrom store pick start ids) := by
  -- Every batch brings the start closer to the end of the store.
  generalize hleft : store.size - start = left
  induction left using Nat.strongRecOn generalizing start ids with
  | _ left ih =>
    rw [insertFrom]
    split
    next hlt =>
      refine Preserves.get_bind fun factory hconfig =>
        Preserves.lift_bind fun entries hentries => ?_
      rw [hconfig] at hentries
      refine (preserves_insertEach ids entries
        (whole_of_encodeEach hblock hentries)).bind fun ids => ?_
      exact ih _ (by simp only [batchSize]; omega) _ ids rfl
    next => exact Preserves.pure ids

/-- A call to a factory; `pick` says which error a batch of the store ends with. -/
inductive Call where
  | addItems (items : List Item)
  | addSet (set : ItemSet)
  | addBytes (bytes : ByteArray)
  | insertStore (store : Store) (pick : Nat)

/-- No list of all `2 ^ 32` items is added, and posting lists are what their bytes are read back as.
Nothing keeps callers to it: the vector of all items can be added, and a merge that gives all items
makes a list whose bytes say that it has none. -/
def Call.Proper : Call → Prop
  | addItems items => Ascending items → items.length < 2 ^ 32
  | addSet set => set.Proper
  | addBytes _ => True
  | insertStore _ _ => True

/-- Makes a call; answers the ids. -/
def Call.run : Call → Adding (Array Nat)
  | addItems items => do return #[← Factory.addItems items]
  | addSet set => do return #[← Factory.addSet set]
  | addBytes bytes => do return #[← Factory.addBytes bytes]
  | insertStore store pick => Factory.insertStore store pick

theorem preserves_call (hblock : config.tuning.blockSize < 2 ^ 32) {call : Call}
    (h : call.Proper) : Preserves config call.run := by
  cases call with
  | addItems items => exact (preserves_addItems h hblock).bind fun _ => Preserves.pure _
  | addSet set => exact (preserves_addSet h hblock).bind fun _ => Preserves.pure _
  | addBytes bytes => exact (preserves_addBytes bytes).bind fun _ => Preserves.pure _
  | insertStore store pick => exact preserves_insertFrom hblock store pick 0 #[]

/-- The factory after calls one after the other, failed ones included. -/
def runCalls (factory : Factory) (calls : List Call) : Factory :=
  calls.foldl (fun factory call => after (call.run factory)) factory

theorem intact_of_make {fingerprint : Fingerprint} (hblock : config.tuning.blockSize < 2 ^ 32)
    (h : make config fingerprint = .ok factory) : factory.Intact config := by
  have hempty : Intact config ⟨config, fingerprint, ByteArray.empty, #[], ∅, 0⟩ :=
    ⟨rfl, rfl, List.Pairwise.nil, by simp, by simp [stored?]⟩
  have hstep : Preserves config (addItems []) := preserves_addItems (fun _ => by decide) hblock
  have hadd := hstep _ hempty
  rw [make] at h
  split at h
  · exact absurd h (by simp)
  · split at h
    next id factory' hok =>
      rw [hok] at hadd
      exact Except.ok.inj h ▸ hadd
    next => exact absurd h (by simp)

/-- A factory stays intact along every run of calls. -/
theorem intact_runCalls (hblock : config.tuning.blockSize < 2 ^ 32) (h : factory.Intact config)
    {calls : List Call} (hcalls : ∀ call ∈ calls, call.Proper) :
    (factory.runCalls calls).Intact config := by
  induction calls generalizing factory with
  | nil => exact h
  | cons call rest ih =>
    have hstep := preserves_call hblock (hcalls call (List.mem_cons_self ..)) factory h
    exact ih hstep fun other hother => hcalls other (List.mem_cons_of_mem _ hother)

end Factory

end Postings
