/-
The fingerprint of a factory never shows.

Two factories with the same settings that have been asked the same hold the same
data under the same offsets, whatever their fingerprints are; only the buckets
differ.  Since a lookup finds bytes exactly where they are stored, the next request
is answered by both alike.

* `Factory.Alike` — factories that differ in fingerprints and buckets only;
* `Factory.Alike.insert` — one insertion;
* `Factory.Request`, `Factory.answers` — everything that can be asked of a factory;
* `Factory.answers_eq_of_fingerprints` — whole runs from two new factories.
-/
import Postings.Proofs.Factory.Lookup
import Postings.Proofs.Factory.Plan

namespace Postings

/-- The settings with another number of bytes that fingerprints are taken of. -/
def Config.hashing (config : Config) (count : Nat) : Config :=
  { config with hashedBytes := count }

namespace Factory

/-- Factories that differ in fingerprints and buckets only, and find what they store. -/
structure Alike (first second : Factory) : Prop where
  config_eq : first.config.hashing 0 = second.config.hashing 0
  data_eq : first.data = second.data
  offsets_eq : first.offsets = second.offsets
  hits_eq : first.hits = second.hits
  indexed_first : first.Indexed
  indexed_second : second.Indexed

/-- Steps that answer the same and leave factories alike. -/
inductive Agree {α : Type} :
    EStateM.Result Error Factory α → EStateM.Result Error Factory α → Prop
  | ok {first second : Factory} (value : α) (h : Alike first second) :
    Agree (.ok value first) (.ok value second)
  | error {first second : Factory} (error : Error) (h : Alike first second) :
    Agree (.error error first) (.error error second)

/-! ### What does not depend on the fingerprint -/

theorem recoded_hashing (config : Config) (count : Nat) (store : Store) :
    recoded (config.hashing count) store = recoded config store :=
  rfl

theorem Call.plan_hashing (config : Config) (count : Nat) (call : Call) :
    call.plan (config.hashing count) = call.plan config := by
  cases call with
  | addItems items => rfl
  | addSet set => rfl
  | addBytes bytes => rfl
  | insertStore store pick => exact storePlan_congr (recoded_hashing config count store) pick

theorem Call.plan_congr {first second : Config} (h : first.hashing 0 = second.hashing 0)
    (call : Call) : call.plan first = call.plan second := by
  rw [← plan_hashing first 0, h, plan_hashing]

/-! ### Steps of two factories -/

variable {first second : Factory} {bytes : ByteArray}

namespace Alike

theorem deduplicate_eq (h : Alike first second) :
    first.config.deduplicate = second.config.deduplicate := by
  show (first.config.hashing 0).deduplicate = _
  rw [h.config_eq]
  rfl

theorem stored?_eq (h : Alike first second) (id : Nat) : first.stored? id = second.stored? id := by
  rw [stored?, stored?, stopOf, stopOf, h.data_eq, h.offsets_eq]

/-- Both factories find the bytes under one id, or store them under the same next one, or have
none left. -/
theorem insert (h : Alike first second) (bytes : ByteArray) :
    Agree (insert bytes first) (insert bytes second) := by
  have hfirst := h.indexed_first.insertion bytes
  have hsecond := h.indexed_second.insertion bytes
  have hdedup := h.deduplicate_eq
  have hsize : first.offsets.size = second.offsets.size := by rw [h.offsets_eq]
  have hindexed := h.indexed_first.after_insert bytes
  have hindexed' := h.indexed_second.after_insert bytes
  generalize Factory.insert bytes first = result at *
  generalize Factory.insert bytes second = result' at *
  cases hfirst with
  | found id hshared hstored =>
    rw [h.stored?_eq] at hstored
    cases hsecond with
    | found other _ hother =>
      obtain rfl := h.indexed_second.unique (hdedup ▸ hshared) _ _ _ hstored hother
      exact .ok id ⟨h.config_eq, h.data_eq, h.offsets_eq, congrArg Nat.succ h.hits_eq, hindexed,
        hindexed'⟩
    | added _ hnew => exact absurd hstored (hnew (hdedup ▸ hshared) id)
    | full hnew => exact absurd hstored (hnew (hdedup ▸ hshared) id)
  | added buckets hnew hroom =>
    cases hsecond with
    | found id hshared hstored =>
      rw [← h.stored?_eq] at hstored
      exact absurd hstored (hnew (hdedup ▸ hshared) id)
    | added =>
      rw [← hsize]
      refine .ok _ ⟨h.config_eq, ?_, ?_, h.hits_eq, hindexed, hindexed'⟩
      · simp only [grow, h.data_eq]
      · simp only [grow, h.data_eq, h.offsets_eq]
    | full _ hfull => exact absurd hroom (by omega)
  | full hnew hfull =>
    cases hsecond with
    | found id hshared hstored =>
      rw [← h.stored?_eq] at hstored
      exact absurd hstored (hnew (hdedup ▸ hshared) id)
    | added _ _ hroom => exact absurd hroom (by omega)
    | full => exact .error _ h

end Alike

theorem Agree.bind {α β : Type} {step : Adding α} {next : α → Adding β}
    (h : Agree (step first) (step second))
    (hnext : ∀ value middle middle', Alike middle middle' →
      Agree (next value middle) (next value middle')) :
    Agree ((step >>= next) first) ((step >>= next) second) := by
  generalize hfirst : step first = result at h
  generalize hsecond : step second = result' at h
  cases h with
  | ok value h =>
    rw [bind_of_ok hfirst, bind_of_ok hsecond]
    exact hnext value _ _ h
  | error error h =>
    rw [bind_of_error hfirst, bind_of_error hsecond]
    exact .error error h

namespace Alike

theorem insertEach (h : Alike first second) (entries : List ByteArray) (done : Array Nat) :
    Agree (insertEach entries done first) (insertEach entries done second) := by
  induction entries generalizing first second done with
  | nil => exact .ok done h
  | cons bytes rest ih => exact (h.insert bytes).bind fun id _ _ h => ih h (done.push id)

theorem carryOut (h : Alike first second) (plan : Plan) :
    Agree (plan.carryOut first) (plan.carryOut second) := by
  refine (h.insertEach plan.entries #[]).bind fun ids _ _ h => ?_
  cases plan.failure with
  | none => exact .ok ids h
  | some error => exact .error error h

theorem run (h : Alike first second) (call : Call) :
    Agree (call.run first) (call.run second) := by
  rw [call.run_eq, call.run_eq, call.plan_congr h.config_eq]
  exact h.carryOut _

end Alike

/-! ### Requests -/

/-- What can be asked of a factory. -/
inductive Request where
  | call (call : Call)
  | get (id : Nat)
  | size
  | hits
  | dataSize
  | flush

/-- What a factory answers. -/
inductive Answer where
  | ids (answer : Except Error (Array Nat))
  | set (answer : Except Error ItemSet)
  | number (value : Nat)
  /-- The bytes of a store, and how many are reported. -/
  | store (answer : Except Error (ByteArray × Nat))

/-- The answer to a request, and the factory after it. -/
def Request.ask (request : Request) (factory : Factory) : Answer × Factory :=
  match request with
  | .call made =>
    match made.run factory with
    | .ok ids factory => (.ids (.ok ids), factory)
    | .error error factory => (.ids (.error error), factory)
  | .get id => (.set (factory.get id), factory)
  | .size => (.number factory.size, factory)
  | .hits => (.number factory.hits, factory)
  | .dataSize => (.number factory.dataSize, factory)
  | .flush => (.store (factory.flushTo ByteArray.empty), factory)

/-- The answers to requests, one after the other. -/
def answers (factory : Factory) : List Request → List Answer
  | [] => []
  | request :: rest => (request.ask factory).1 :: answers (request.ask factory).2 rest

theorem Alike.flushTo (h : Alike first second) (out : ByteArray) :
    first.flushTo out = second.flushTo out := by
  have htuning : first.config.tuning = second.config.tuning := by
    show (first.config.hashing 0).tuning = _
    rw [h.config_eq]
    rfl
  have hcodec : first.config.codec = second.config.codec := by
    show (first.config.hashing 0).codec = _
    rw [h.config_eq]
    rfl
  simp only [Factory.flushTo, dataSize, htuning, hcodec, h.data_eq, h.offsets_eq]

/-- Factories that are alike answer a request alike, and stay so. -/
theorem Alike.ask (h : Alike first second) (request : Request) :
    (request.ask first).1 = (request.ask second).1 ∧
      Alike (request.ask first).2 (request.ask second).2 := by
  cases request with
  | call made =>
    have hrun := h.run made
    rw [Request.ask, Request.ask]
    generalize made.run first = result at hrun
    generalize made.run second = result' at hrun
    cases hrun with
    | ok ids h => exact ⟨rfl, h⟩
    | error error h => exact ⟨rfl, h⟩
  | get id =>
    refine ⟨congrArg Answer.set ?_, h⟩
    rw [Factory.get, Factory.get, h.stored?_eq, size, size, h.offsets_eq]
  | size =>
    refine ⟨congrArg Answer.number ?_, h⟩
    rw [size, size, h.offsets_eq]
  | hits => exact ⟨congrArg Answer.number h.hits_eq, h⟩
  | dataSize =>
    refine ⟨congrArg Answer.number ?_, h⟩
    rw [dataSize, dataSize, h.data_eq]
  | flush => exact ⟨congrArg Answer.store (h.flushTo ByteArray.empty), h⟩

theorem Alike.answers (h : Alike first second) (requests : List Request) :
    answers first requests = answers second requests := by
  induction requests generalizing first second with
  | nil => rfl
  | cons request rest ih =>
    obtain ⟨hanswer, hafter⟩ := h.ask request
    rw [Factory.answers, Factory.answers, hanswer, ih hafter]

/-- New factories with two fingerprints, and with two numbers of bytes that fingerprints are
taken of, answer the same to all that is asked of them, or neither can be made.  Which of several
errors a batch of a store ends with is part of the request, and both are asked the same. -/
theorem answers_eq_of_fingerprints (config : Config) (count other : Nat)
    (first second : Fingerprint) (requests : List Request) :
    (make (config.hashing count) first).map (answers · requests)
      = (make (config.hashing other) second).map (answers · requests) := by
  have hblank : Alike (blank (config.hashing count) first) (blank (config.hashing other) second) :=
    ⟨rfl, rfl, rfl, rfl, indexed_blank _ _, indexed_blank _ _⟩
  -- The first list is added alike, and from then on all requests are answered alike.
  have hadd : Agree (addItems [] (blank (config.hashing count) first))
      (addItems [] (blank (config.hashing other) second)) := by
    rw [addItems_eq, addItems_eq]
    show Agree ((lift (bytesOfItems config []) >>= insert) _)
      ((lift (bytesOfItems config []) >>= insert) _)
    cases bytesOfItems config [] with
    | ok bytes => exact hblank.insert bytes
    | error error => exact .error error hblank
  rw [make_eq, make_eq]
  show Except.map _ (if config.tuning.blockSize = 0 then _ else _)
    = Except.map _ (if config.tuning.blockSize = 0 then _ else _)
  split
  · rfl
  · generalize addItems [] (blank (config.hashing count) first) = result at hadd
    generalize addItems [] (blank (config.hashing other) second) = result' at hadd
    cases hadd with
    | ok id h => exact congrArg Except.ok (h.answers requests)
    | error error h => rfl

end Factory

end Postings
