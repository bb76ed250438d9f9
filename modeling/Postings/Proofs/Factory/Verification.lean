/-
Checking what was just encoded.

A factory may be asked to decode every list that it has encoded and to compare the items.
What a codec writes is read back as it was, so the check never finds anything: calls come to
the same plans with it and without it, and nothing but the plan of a call depends on it.

* `Factory.encodeItems_verifying`, `Factory.Call.plan_verifying` — the bytes of lists, and what a
  call comes to;
* `Factory.verifying`, `Factory.Overlooks` — a factory with the check on or off, and the steps
  that do the same to both;
* `Factory.overlooks_insert`, `Factory.Call.run_verifying`, `Factory.Request.ask_verifying` — one
  insertion, call and request;
* `Factory.verify_unobservable` — whole runs.
-/
import Postings.Proofs.Factory.Answers
import Postings.Proofs.Factory.Encoding

namespace Postings

/-- The settings with the check on or off. -/
def Config.verifying (config : Config) (verify : Bool) : Config :=
  { config with verify := verify }

namespace Factory

/-- The factory with the check on or off. -/
def verifying (factory : Factory) (verify : Bool) : Factory :=
  { factory with config := factory.config.verifying verify }

variable {config : Config} {verify : Bool} {items : List Item}

/-! ### What a call comes to -/

theorem encodeItems_verifying (hblock : config.tuning.blockSize < 2 ^ 32)
    (hfew : items.length < 2 ^ 32) (hascend : Ascending items) :
    encodeItems (config.verifying verify) items = encodeItems config items := by
  have hverifying : (config.verifying verify).tuning.blockSize < 2 ^ 32 := hblock
  rw [encodeItems_eq_written hblock hfew hascend, encodeItems_eq_written hverifying hfew hascend]
  rfl

theorem bytesOf_verifying {set : ItemSet} (hblock : config.tuning.blockSize < 2 ^ 32)
    (hset : set.Valid) : bytesOf (config.verifying verify) set = bytesOf config set := by
  rw [bytesOf, bytesOf, encodeItems_verifying hblock hset.length_lt hset.ascending]
  rfl

theorem bytesOfItems_verifying (hblock : config.tuning.blockSize < 2 ^ 32)
    (hfew : items.length < 2 ^ 32) :
    bytesOfItems (config.verifying verify) items = bytesOfItems config items := by
  rw [bytesOfItems, bytesOfItems]
  cases hdescent : firstDescent? items with
  | some position => rfl
  | none => exact encodeItems_verifying hblock hfew (firstDescent?_eq_none.1 hdescent)

theorem recoded_verifying (hblock : config.tuning.blockSize < 2 ^ 32) (store : Store) :
    recoded (config.verifying verify) store = recoded config store := by
  funext id
  rw [recoded, recoded]
  cases hload : store.load id with
  | error error => rfl
  | ok set =>
    obtain ⟨raw, -, hraw, -⟩ := Store.load_eq_ok.1 hload
    exact bytesOf_verifying hblock (ItemSet.proper_of_ofBytes hraw).toValid

/-- The lists that are handed over have fewer than `2 ^ 32` items, and posting lists ascend. -/
def Call.Countable : Call → Prop
  | addItems items => items.length < 2 ^ 32
  | addSet set => set.Valid
  | addBytes _ => True
  | insertStore _ _ => True

/-- What a call comes to does not depend on the check. -/
theorem Call.plan_verifying (hblock : config.tuning.blockSize < 2 ^ 32) {call : Call}
    (h : call.Countable) : call.plan (config.verifying verify) = call.plan config := by
  cases call with
  | addItems items => rw [plan, plan, bytesOfItems_verifying hblock h]
  | addSet set => rw [plan, plan, bytesOf_verifying hblock h]
  | addBytes bytes => rfl
  | insertStore store pick => exact storePlan_congr (recoded_verifying hblock store) pick

/-! ### Steps of both factories -/

/-- The same outcome, with a factory that has the check on or off. -/
def outcomeVerifying {α : Type} (verify : Bool) :
    EStateM.Result Error Factory α → EStateM.Result Error Factory α
  | .ok value factory => .ok value (factory.verifying verify)
  | .error error factory => .error error (factory.verifying verify)

/-- The step does the same to a factory with the check on or off. -/
def Overlooks {α : Type} (verify : Bool) (step : Adding α) : Prop :=
  ∀ factory : Factory, step (factory.verifying verify) = outcomeVerifying verify (step factory)

section Steps

variable {α β : Type}

theorem Overlooks.pure (value : α) : Overlooks verify (pure value : Adding α) :=
  fun _ => rfl

theorem Overlooks.throw (error : Error) : Overlooks verify (throw error : Adding α) :=
  fun _ => rfl

theorem Overlooks.bind {step : Adding α} {next : α → Adding β} (h : Overlooks verify step)
    (hnext : ∀ value, Overlooks verify (next value)) : Overlooks verify (step >>= next) := by
  intro factory
  have hstep := h factory
  cases hresult : step factory with
  | ok value middle =>
    rw [hresult] at hstep
    rw [bind_of_ok hstep, bind_of_ok hresult, hnext value middle]
  | error error middle =>
    rw [hresult] at hstep
    rw [bind_of_error hstep, bind_of_error hresult]
    rfl

theorem overlooks_append (bytes : ByteArray) : Overlooks verify (append bytes) := by
  intro factory
  rw [append_eq, append_eq]
  show (if 2 ^ 32 ≤ factory.offsets.size then _ else _) = _
  split
  · rfl
  · rfl

/-- Inserting looks at what is stored and at whether equal bytes share an id, and no further. -/
theorem overlooks_insert (bytes : ByteArray) : Overlooks verify (insert bytes) := by
  intro factory
  cases hdedup : factory.config.deduplicate with
  | false =>
    have hverifying : (factory.verifying verify).config.deduplicate = false := hdedup
    rw [insert_of_distinct hdedup, insert_of_distinct hverifying]
    exact overlooks_append bytes factory
  | true =>
    have hverifying : (factory.verifying verify).config.deduplicate = true := hdedup
    have hlookup : (factory.verifying verify).lookup
        ((factory.verifying verify).fingerprint bytes) bytes
          = factory.lookup (factory.fingerprint bytes) bytes := rfl
    rw [insert_of_lookup hdedup, insert_of_lookup hverifying, hlookup]
    cases factory.lookup (factory.fingerprint bytes) bytes with
    | some id => rfl
    | none =>
      exact (overlooks_append bytes).bind
        (fun id => Overlooks.bind (fun _ => rfl) fun _ => Overlooks.pure id) factory

theorem overlooks_insertEach (entries : List ByteArray) (done : Array Nat) :
    Overlooks verify (insertEach entries done) := by
  induction entries generalizing done with
  | nil => exact Overlooks.pure done
  | cons bytes rest ih => exact (overlooks_insert bytes).bind fun id => ih (done.push id)

theorem Plan.overlooks_carryOut (plan : Plan) : Overlooks verify plan.carryOut := by
  refine (overlooks_insertEach plan.entries #[]).bind fun ids => ?_
  cases plan.failure with
  | none => exact Overlooks.pure ids
  | some error => exact Overlooks.throw error

end Steps

theorem Call.run_verifying {factory : Factory} (hblock : factory.config.tuning.blockSize < 2 ^ 32)
    {call : Call} (h : call.Countable) :
    call.run (factory.verifying verify) = outcomeVerifying verify (call.run factory) := by
  rw [call.run_eq, call.run_eq, ← Plan.overlooks_carryOut]
  show (call.plan (factory.config.verifying verify)).carryOut _ = _
  rw [plan_verifying hblock h]

/-! ### Requests -/

/-- What is asked for hands over lists that can be counted. -/
def Request.Countable (request : Request) : Prop :=
  ∀ call, request = .call call → call.Countable

/-- The factory after requests, one after the other. -/
def afterAsked (factory : Factory) (requests : List Request) : Factory :=
  requests.foldl (fun factory request => (request.ask factory).2) factory

theorem Request.ask_verifying {factory : Factory}
    (hblock : factory.config.tuning.blockSize < 2 ^ 32) {request : Request}
    (h : request.Countable) :
    request.ask (factory.verifying verify)
      = ((request.ask factory).1, (request.ask factory).2.verifying verify) := by
  cases request with
  | call made =>
    rw [ask, ask, Call.run_verifying hblock (h made rfl)]
    cases made.run factory with
    | ok ids last => rfl
    | error error last => rfl
  | get id => rfl
  | size => rfl
  | hits => rfl
  | dataSize => rfl
  | flush => rfl

theorem Request.config_ask (request : Request) (factory : Factory) :
    (request.ask factory).2.config = factory.config := by
  cases request with
  | call made =>
    have hkept : (after (made.run factory)).config = factory.config := by
      rw [made.run_eq, Plan.after_carryOut, config_insertEach]
    rw [ask]
    cases hrun : made.run factory with
    | ok ids last =>
      rw [hrun] at hkept
      exact hkept
    | error error last =>
      rw [hrun] at hkept
      exact hkept
  | get id => rfl
  | size => rfl
  | hits => rfl
  | dataSize => rfl
  | flush => rfl

theorem answers_verifying (verify : Bool) {factory : Factory}
    (hblock : factory.config.tuning.blockSize < 2 ^ 32)
    {requests : List Request} (h : ∀ request ∈ requests, request.Countable) :
    answers (factory.verifying verify) requests = answers factory requests ∧
      (factory.verifying verify).afterAsked requests
        = (factory.afterAsked requests).verifying verify := by
  induction requests generalizing factory with
  | nil => exact ⟨rfl, rfl⟩
  | cons request rest ih =>
    obtain ⟨hrequest, hrest⟩ := List.forall_mem_cons.1 h
    have hask : request.ask (factory.verifying verify) = _ :=
      Request.ask_verifying hblock hrequest
    have hblock' : (request.ask factory).2.config.tuning.blockSize < 2 ^ 32 := by
      rwa [request.config_ask]
    obtain ⟨hanswers, hafter⟩ := ih hblock' hrest
    refine ⟨?_, ?_⟩
    · rw [answers, answers, hask, hanswers]
    · show ((request.ask (factory.verifying verify)).2).afterAsked rest = _
      rw [hask]
      exact hafter

/-! ### Whole runs -/

/-- The empty list that a new factory holds is added with the check as without it. -/
theorem make_verifying (hblock : config.tuning.blockSize < 2 ^ 32) (fingerprint : Fingerprint) :
    make (config.verifying verify) fingerprint
      = (make config fingerprint).map (verifying · verify) := by
  have hadd : addItems [] (blank (config.verifying verify) fingerprint)
      = outcomeVerifying verify (addItems [] (blank config fingerprint)) := by
    rw [addItems_eq, addItems_eq]
    show (lift (bytesOfItems (config.verifying verify) []) >>= insert) _
      = outcomeVerifying verify ((lift (bytesOfItems config []) >>= insert) _)
    rw [bytesOfItems_verifying hblock (by decide)]
    cases bytesOfItems config [] with
    | ok bytes => exact overlooks_insert bytes (blank config fingerprint)
    | error error => rfl
  rw [make_eq, make_eq, hadd]
  show (if config.tuning.blockSize = 0 then _ else _)
    = Except.map _ (if config.tuning.blockSize = 0 then _ else _)
  split
  · rfl
  · cases addItems [] (blank config fingerprint) with
    | ok id first => rfl
    | error error first => rfl

/-- With the check and without it, new factories give the same answers to all that is asked of
them and end up holding the same, or neither can be made, for the same reason; and no codec writes
bytes that the check rejects.  Which of several errors a batch of a store ends with is part of the
request, and both are asked the same. -/
theorem verify_unobservable (config : Config) (fingerprint : Fingerprint)
    (requests : List Request) (hblock : config.tuning.blockSize < 2 ^ 32)
    (hrequests : ∀ request ∈ requests, request.Countable) :
    (make (config.verifying true) fingerprint).map
        (fun factory => (factory.answers requests, factory.afterAsked requests))
      = (make (config.verifying false) fingerprint).map
        (fun factory =>
          (factory.answers requests, (factory.afterAsked requests).verifying true)) ∧
    ∀ items codec bytes, Ascending items → items.length < 2 ^ 32 →
      encodeTagged items codec config.tuning = .ok bytes → checkEncoded bytes items = .ok () := by
  refine ⟨?_, fun items codec bytes hascend hfew hencode =>
    checkEncoded_of_encodeTagged hblock hfew hascend hencode⟩
  rw [make_verifying hblock, make_verifying hblock]
  cases hmake : make config fingerprint with
  | error error => rfl
  | ok first =>
    rw [← config_of_make hmake] at hblock
    obtain ⟨hchecked, hcheckedAfter⟩ := answers_verifying true hblock hrequests
    obtain ⟨hplain, hplainAfter⟩ := answers_verifying false hblock hrequests
    show Except.ok ((first.verifying true).answers requests, _)
      = Except.ok ((first.verifying false).answers requests, _)
    rw [hchecked, hplain, hcheckedAfter, hplainAfter]
    rfl

/-- Items that are no progression, in a factory of progressions. -/
theorem verify_unobservable_range :
    ∃ checked plain, make { codec := .range, verify := true } (fun _ => 0) = .ok checked ∧
      make { codec := .range } (fun _ => 0) = .ok plain ∧
      checked.answers [.call (.addItems [1, 2, 5]), .get 1, .hits, .flush]
        = plain.answers [.call (.addItems [1, 2, 5]), .get 1, .hits, .flush] := by
  obtain ⟨empty, hempty⟩ : ∃ empty, encodeItems { codec := .range } [] = .ok empty := ⟨_, rfl⟩
  obtain ⟨plain, hinsert, -⟩ := exists_insert_blank { codec := .range } (fun _ => 0) empty
  have hplain : make { codec := .range } (fun _ => 0) = .ok plain :=
    make_eq_ok.2 ⟨by decide, empty, hempty, hinsert⟩
  have hchecked : make { codec := .range, verify := true } (fun _ => 0)
      = .ok (plain.verifying true) := by
    show make (Config.verifying { codec := .range } true) (fun _ => 0) = _
    rw [make_verifying (by decide), hplain]
    rfl
  obtain ⟨hsame, -⟩ := verify_unobservable { codec := .range } (fun _ => 0)
    [.call (.addItems [1, 2, 5]), .get 1, .hits, .flush] (by decide) (by
      intro request hrequest call hcall
      subst hcall
      obtain rfl : call = .addItems [1, 2, 5] := by simpa using hrequest
      exact show [1, 2, 5].length < 2 ^ 32 by decide)
  simp only [Config.verifying, hchecked, hplain, Except.map] at hsame
  exact ⟨_, _, hchecked, hplain, congrArg Prod.fst (Except.ok.inj hsame)⟩

end Factory

end Postings
