/-
Calls to a factory as bytes that are handed over.

What a call stores does not depend on what is stored already: its lists are encoded
with the settings alone.  So a call is a plan, bytes to insert one after the other and
perhaps an error behind them.

* `Factory.refused?`, `Factory.storePlan`, `Factory.Call.plan` — what a call comes to;
* `Factory.Call.run_eq` — every call carries out its plan;
* `Factory.insertStore_pick` — which error a batch ends with decides nothing else;
* `Factory.after_runCalls` — what every insertion keeps is kept by every run of calls;
* `Factory.Indexed.extends_runCalls` — all that is stored stays where it is;
* `Factory.make_eq_ok` — a new factory has one entry.
-/
import Postings.Proofs.Factory.Batches

namespace Postings.Factory

variable {config : Config} {factory : Factory} {store : Store}

/-! ### Plans -/

/-- Bytes to be inserted one after the other, and the error that ends the call after them. -/
structure Plan where
  entries : List ByteArray
  failure : Option Error

namespace Plan

/-- Bytes to be inserted, or an error before anything is. -/
def ofAnswer : Except Error ByteArray → Plan
  | .ok bytes => ⟨[bytes], none⟩
  | .error error => ⟨[], some error⟩

/-- Inserts the bytes, and fails if the plan does; answers the ids. -/
def carryOut (plan : Plan) : Adding (Array Nat) := do
  let ids ← insertEach plan.entries #[]
  match plan.failure with
  | none => return ids
  | some error => throw error

/-- A step that inserts the bytes of an answer carries out that plan. -/
theorem carryOut_ofAnswer {step : Adding Nat} {answer : Except Error ByteArray}
    (h : step factory = (lift answer >>= insert) factory) :
    (do return #[← step] : Adding (Array Nat)) factory = (ofAnswer answer).carryOut factory := by
  have hsame : (do return #[← step] : Adding (Array Nat)) factory
      = (do return #[← lift answer >>= insert] : Adding (Array Nat)) factory := by
    cases hstep : (lift answer >>= insert) factory with
    | ok id middle => rw [bind_of_ok (h.trans hstep), bind_of_ok hstep]
    | error error middle => rw [bind_of_error (h.trans hstep), bind_of_error hstep]
  rw [hsame]
  cases answer with
  | error error => rfl
  | ok bytes =>
    show _ = ((insert bytes >>= fun id => insertEach [] (Array.push #[] id)) >>= pure) factory
    rw [bind_pure]
    rfl

/-- The error behind the insertions changes nothing. -/
theorem after_carryOut (plan : Plan) (factory : Factory) :
    after (plan.carryOut factory) = after (insertEach plan.entries #[] factory) := by
  rw [carryOut]
  cases hinsert : insertEach plan.entries #[] factory with
  | error error middle => rw [bind_of_error hinsert]
  | ok ids middle =>
    rw [bind_of_ok hinsert]
    cases plan.failure with
    | none => rfl
    | some error => rfl

/-- The ids are those of the insertions. -/
theorem carryOut_eq_ok {plan : Plan} {ids : Array Nat} {final : Factory} :
    plan.carryOut factory = .ok ids final ↔
      plan.failure = none ∧ insertEach plan.entries #[] factory = .ok ids final := by
  rw [carryOut]
  cases hinsert : insertEach plan.entries #[] factory with
  | error error middle =>
    rw [bind_of_error hinsert]
    simp
  | ok inserted middle =>
    rw [bind_of_ok hinsert]
    cases plan.failure with
    | none => exact (and_iff_right rfl).symm
    | some error =>
      show EStateM.Result.error error middle = .ok ids final ↔ _
      simp

end Plan

/-- The first id whose list cannot be loaded or encoded. -/
def refused? (config : Config) (store : Store) : Option Nat :=
  (List.range store.size).find? fun id => !(recoded config store id).isOk

theorem recodes_iff {id : Nat} :
    Recodes config store id ↔ (recoded config store id).isOk = true := by
  rw [Recodes]
  cases recoded config store id with
  | ok bytes => simp [Except.isOk, Except.toBool]
  | error error => simp [Except.isOk, Except.toBool]

theorem refused?_eq_none :
    refused? config store = none ↔ ∀ id < store.size, Recodes config store id := by
  simp [refused?, recodes_iff]

theorem refused?_eq_some {failing : Nat} : refused? config store = some failing ↔
    failing < store.size ∧ (∀ id < failing, Recodes config store id) ∧
      ∃ error, recoded config store failing = .error error := by
  have herror : (∃ error, recoded config store failing = .error error) ↔
      ¬ Recodes config store failing := by
    rw [Recodes]
    cases recoded config store failing with
    | ok bytes => simp
    | error error => simp
  rw [refused?, List.find?_range_eq_some, herror]
  simp only [recodes_iff, List.mem_range, Bool.not_not, Bool.not_eq_true', Bool.not_eq_true]
  exact and_rotate

/-- All lists of a store, or the complete batches before the first list that cannot be loaded or
encoded, and the error that its batch ends with. -/
def storePlan (config : Config) (store : Store) (pick : Nat) : Plan :=
  match refused? config store with
  | none => ⟨recodings config store (List.range store.size), none⟩
  | some failing =>
    ⟨recodings config store (List.range (failing / batchSize * batchSize)),
      match encodeEach config store pick
          (batchFrom store (failing / batchSize * batchSize)) with
      | .ok _ => none
      | .error error => some error⟩

/-- The batch of the first list that cannot be loaded or encoded ends with the error of one of its
lists. -/
theorem encodeEach_of_refused {failing : Nat} (h : refused? config store = some failing)
    (pick : Nat) :
    ∃ culprit error, culprit < store.size ∧ culprit / batchSize = failing / batchSize ∧
      recoded config store culprit = .error error ∧
      encodeEach config store pick (batchFrom store (failing / batchSize * batchSize))
        = .error error ∧
      (pick = 0 → culprit = failing) := by
  obtain ⟨hfailing, hearlier, error, herror⟩ := refused?_eq_some.1 h
  obtain ⟨before, rest, hbatch, hbefore, hrest⟩ := batchFrom_eq hfailing
  obtain ⟨culprit, hculprit, reported, hfault, hencode, hfirst⟩ :=
    encodeEach_of_error (fun id hid => hearlier id (hbefore id hid)) herror rest pick
  obtain ⟨hinside, hsame⟩ := hrest culprit hculprit
  exact ⟨culprit, reported, hinside, hsame, hfault, hbatch ▸ hencode, hfirst⟩

/-- Settings count only by what they make of each list. -/
theorem storePlan_congr {other : Config} (h : recoded config store = recoded other store)
    (pick : Nat) : storePlan config store pick = storePlan other store pick := by
  simp only [storePlan, refused?, recodings, encodeEach, h]

/-- Inserting a store carries out its plan. -/
theorem insertStore_eq (hconfig : factory.config = config) (store : Store) (pick : Nat) :
    insertStore store pick factory = (storePlan config store pick).carryOut factory := by
  rw [storePlan]
  cases hrefused : refused? config store with
  | none =>
    rw [insertStore_of_ok hconfig (refused?_eq_none.1 hrefused), Plan.carryOut]
    show _ = (insertEach _ #[] >>= pure) factory
    rw [bind_pure]
  | some failing =>
    obtain ⟨hfailing, hbefore, -⟩ := refused?_eq_some.1 hrefused
    obtain ⟨-, error, -, -, -, hencode, -⟩ := encodeEach_of_refused hrefused pick
    rw [insertStore_of_error hconfig hfailing hbefore hencode]
    simp only [hencode]
    rfl

/-- Which error a batch ends with decides nothing else: a store that is added is added all the same,
and one that is not leaves the same factory. -/
theorem insertStore_pick (store : Store) (pick other : Nat) (factory : Factory) :
    insertStore store pick factory = insertStore store other factory ∨
      ∃ error error' final, insertStore store pick factory = .error error final ∧
        insertStore store other factory = .error error' final := by
  rw [insertStore_eq rfl, insertStore_eq rfl]
  cases hrefused : refused? factory.config store with
  | none => exact .inl (by simp only [storePlan, hrefused])
  | some failing =>
    obtain ⟨-, error, -, -, -, hencode, -⟩ := encodeEach_of_refused hrefused pick
    obtain ⟨-, error', -, -, -, hencode', -⟩ := encodeEach_of_refused hrefused other
    simp only [storePlan, hrefused, hencode, hencode', Plan.carryOut]
    -- The complete batches are the same, and a factory that they fill ends both calls alike.
    cases hinsert : insertEach (recodings factory.config store
        (List.range (failing / batchSize * batchSize))) #[] factory with
    | error full middle =>
      rw [bind_of_error hinsert, bind_of_error hinsert]
      exact .inl rfl
    | ok ids middle =>
      rw [bind_of_ok hinsert, bind_of_ok hinsert]
      exact .inr ⟨error, error', middle, rfl, rfl⟩

/-- The bytes that items are stored as, if they ascend. -/
def bytesOfItems (config : Config) (items : List Item) : Except Error ByteArray :=
  match firstDescent? items with
  | some position => .error (.unsorted position)
  | none => encodeItems config items

theorem addItems_eq (items : List Item) (factory : Factory) :
    addItems items factory = (lift (bytesOfItems factory.config items) >>= insert) factory := by
  rw [addItems, bytesOfItems]
  cases firstDescent? items with
  | some position => rfl
  | none => rfl

/-- The bytes of one whole list, as they are. -/
def wholeBytes (bytes : ByteArray) : Except Error ByteArray := do
  let set ← ItemSet.ofBytes bytes
  if set.byteLength ≠ bytes.size then
    throw (.corrupt (.bytesAfterList (bytes.size - set.byteLength)))
  return bytes

theorem addBytes_eq (bytes : ByteArray) (factory : Factory) :
    addBytes bytes factory = (lift (wholeBytes bytes) >>= insert) factory := by
  rw [addBytes, wholeBytes]
  cases ItemSet.ofBytes bytes with
  | error error => rfl
  | ok set =>
    show (if set.byteLength ≠ bytes.size then _ else _ : Adding Nat) factory
      = (lift (if set.byteLength ≠ bytes.size then _ else _) >>= insert) factory
    split
    · rfl
    · rfl

/-- What a call comes to with some settings. -/
def Call.plan (config : Config) : Call → Plan
  | addItems items => .ofAnswer (bytesOfItems config items)
  | addSet set => .ofAnswer (bytesOf config set)
  | addBytes bytes => .ofAnswer (wholeBytes bytes)
  | insertStore store pick => storePlan config store pick

/-- A call carries out its plan. -/
theorem Call.run_eq (call : Call) (factory : Factory) :
    call.run factory = (call.plan factory.config).carryOut factory := by
  cases call with
  | addItems items => exact Plan.carryOut_ofAnswer (addItems_eq items factory)
  | addSet set => exact Plan.carryOut_ofAnswer rfl
  | addBytes bytes => exact Plan.carryOut_ofAnswer (addBytes_eq bytes factory)
  | insertStore store pick => exact insertStore_eq rfl store pick

/-! ### What calls keep -/

/-- What every insertion keeps is kept by every run of calls. -/
theorem after_runCalls {motive : Factory → Prop}
    (hinsert : ∀ bytes factory, motive factory → motive (after (insert bytes factory)))
    (h : motive factory) (calls : List Call) : motive (factory.runCalls calls) := by
  induction calls generalizing factory with
  | nil => exact h
  | cons call rest ih =>
    have hrun : motive (after (call.run factory)) := by
      rw [call.run_eq, Plan.after_carryOut]
      exact after_insertEach hinsert h _ _
    exact ih hrun

theorem Indexed.extends_run (h : factory.Indexed) (call : Call) :
    factory.Extends (after (call.run factory)) := by
  rw [call.run_eq, Plan.after_carryOut]
  exact h.extends_insertEach _ _

/-- All that is stored stays where it is along every run of calls. -/
theorem Indexed.extends_runCalls (h : factory.Indexed) (calls : List Call) :
    factory.Extends (factory.runCalls calls) :=
  after_runCalls (fun bytes _ hmiddle => hmiddle.trans (hmiddle.indexed.extends_insert bytes))
    h.extends calls

/-- The settings never change. -/
theorem config_runCalls (calls : List Call) (factory : Factory) :
    (factory.runCalls calls).config = factory.config :=
  after_runCalls (fun bytes middle h => (config_insert bytes middle).trans h) rfl calls

/-- What every insertion raises by no more than the weight of its bytes is raised by a run of calls
by no more than what their plans weigh. -/
theorem measure_runCalls_le (measure : Factory → Nat) (weight : ByteArray → Nat)
    (hinsert : ∀ bytes factory,
      measure (after (insert bytes factory)) ≤ measure factory + weight bytes)
    (calls : List Call) (factory : Factory) :
    measure (factory.runCalls calls) ≤ measure factory
      + (calls.map fun call => ((call.plan factory.config).entries.map weight).sum).sum := by
  induction calls generalizing factory with
  | nil => exact Nat.le_refl _
  | cons call rest ih =>
    have hrest := ih (after (call.run factory))
    have hconfig : (after (call.run factory)).config = factory.config := by
      rw [call.run_eq, Plan.after_carryOut, config_insertEach]
    have hrun : measure (after (call.run factory))
        ≤ measure factory + ((call.plan factory.config).entries.map weight).sum := by
      rw [call.run_eq, Plan.after_carryOut]
      exact measure_insertEach_le measure weight hinsert _ _ _
    rw [hconfig] at hrest
    rw [List.map_cons, List.sum_cons]
    show measure ((after (call.run factory)).runCalls rest) ≤ _
    omega

/-- A call stores no more than its plan hands over. -/
theorem size_runCalls_le (calls : List Call) (factory : Factory) :
    (factory.runCalls calls).offsets.size ≤ factory.offsets.size
      + (calls.map fun call => (call.plan factory.config).entries.length).sum := by
  have hle := measure_runCalls_le (fun factory => factory.offsets.size) (fun _ => 1)
    size_insert_le calls factory
  simpa only [List.map_const', List.sum_replicate_nat, Nat.mul_one] using hle

theorem dataSize_runCalls_le (calls : List Call) (factory : Factory) :
    (factory.runCalls calls).data.size ≤ factory.data.size
      + (calls.map fun call =>
          ((call.plan factory.config).entries.map ByteArray.size).sum).sum :=
  measure_runCalls_le (fun factory => factory.data.size) ByteArray.size dataSize_insert_le calls
    factory

/-! ### New factories -/

/-- The first bytes are stored under id 0: there is nothing yet that could be equal to them. -/
theorem exists_insert_blank (config : Config) (fingerprint : Fingerprint) (bytes : ByteArray) :
    ∃ factory, insert bytes (blank config fingerprint) = .ok 0 factory ∧
      factory.offsets.size = 1 ∧ factory.data = bytes := by
  have hinsertion := (indexed_blank config fingerprint).insertion bytes
  generalize insert bytes (blank config fingerprint) = result at hinsertion
  cases hinsertion with
  | found id hdedup hstored => exact absurd (lt_size_of_stored? hstored) (Nat.not_lt_zero id)
  | added => exact ⟨_, rfl, rfl, ByteArray.empty_append⟩
  | full hnew hfull => exact absurd hfull (show ¬ 2 ^ 32 ≤ 0 by decide)

/-- A new factory has one entry, the bytes of the empty list. -/
theorem make_eq_ok {fingerprint : Fingerprint} : make config fingerprint = .ok factory ↔
    config.tuning.blockSize ≠ 0 ∧ ∃ empty, encodeItems config [] = .ok empty ∧
      insert empty (blank config fingerprint) = .ok 0 factory := by
  rw [make_eq, addItems_eq]
  by_cases hblock : config.tuning.blockSize = 0
  · rw [if_pos hblock]
    exact iff_of_false (by simp) fun h => h.1 hblock
  · rw [if_neg hblock, and_iff_right hblock]
    have hitems : bytesOfItems (blank config fingerprint).config [] = encodeItems config [] := rfl
    rw [hitems]
    cases encodeItems config [] with
    | error error => exact iff_of_false (fun h => nomatch h) (by simp)
    | ok empty =>
      obtain ⟨first, hinsert, -⟩ := exists_insert_blank config fingerprint empty
      have hadd : (lift (Except.ok empty) >>= insert) (blank config fingerprint)
          = .ok 0 first := hinsert
      rw [hadd]
      constructor
      · intro h
        obtain rfl := Except.ok.inj h
        exact ⟨empty, rfl, hinsert⟩
      · rintro ⟨other, hother, h⟩
        obtain rfl := Except.ok.inj hother
        rw [hinsert] at h
        exact congrArg Except.ok (EStateM.Result.ok.inj h).2

theorem indexed_of_make {fingerprint : Fingerprint} (h : make config fingerprint = .ok factory) :
    factory.Indexed := by
  obtain ⟨-, empty, -, hinsert⟩ := make_eq_ok.1 h
  have hafter := (indexed_blank config fingerprint).after_insert empty
  rwa [hinsert] at hafter

theorem config_of_make {fingerprint : Fingerprint} (h : make config fingerprint = .ok factory) :
    factory.config = config := by
  obtain ⟨-, empty, -, hinsert⟩ := make_eq_ok.1 h
  exact config_of_insert hinsert

theorem size_of_make {fingerprint : Fingerprint} (h : make config fingerprint = .ok factory) :
    factory.offsets.size = 1 := by
  obtain ⟨-, empty, -, hinsert⟩ := make_eq_ok.1 h
  obtain ⟨first, hfirst, hsize, -⟩ := exists_insert_blank config fingerprint empty
  rw [hinsert] at hfirst
  rw [(EStateM.Result.ok.inj hfirst).2, hsize]

/-- Settings that encode the empty list make a factory. -/
theorem exists_make (fingerprint : Fingerprint) (hblock : config.tuning.blockSize ≠ 0)
    (hempty : ∃ empty, encodeItems config [] = .ok empty) :
    ∃ first, make config fingerprint = .ok first := by
  obtain ⟨empty, hempty⟩ := hempty
  obtain ⟨first, hinsert, -⟩ := exists_insert_blank config fingerprint empty
  exact ⟨first, make_eq_ok.2 ⟨hblock, empty, hempty, hinsert⟩⟩

/-- There are ids left after calls that hand over few entries. -/
theorem room_of_make {fingerprint : Fingerprint} (h : make config fingerprint = .ok factory)
    {calls : List Call}
    (hfew : 1 + (calls.map fun call => (call.plan config).entries.length).sum < 2 ^ 32) :
    (factory.runCalls calls).offsets.size < 2 ^ 32 := by
  have hle := size_runCalls_le calls factory
  rw [size_of_make h, config_of_make h] at hle
  exact Nat.lt_of_le_of_lt hle hfew

end Postings.Factory
