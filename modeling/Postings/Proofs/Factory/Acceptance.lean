/-
What a factory takes, and what it is after a refusal.

To add a list is to find bytes for it, which takes the settings alone, and to insert these.
Bytes that are added as they are pass when they are one whole list, however hostile they are
and whatever codec the settings ask for.  Nothing is stored before the last thing that can
fail, the search for a free id, has succeeded.

* `Factory.wholeBytes_eq_ok` — which bytes pass as they are;
* `Factory.Atomic` — steps that change nothing when they fail, and `Factory.atomic_addBytes`,
  `Factory.atomic_addItems`, `Factory.atomic_addSet`;
* `Factory.addBytes_spec` — what is taken and given back, and what a refusal leaves, along any
  run of calls.
-/
import Postings.Proofs.Factory.Plan

namespace Postings.Factory

variable {factory first : Factory} {bytes : ByteArray}

/-! ### Bytes that are one whole list -/

theorem wholeBytes_eq_ok {taken : ByteArray} :
    wholeBytes bytes = .ok taken ↔ taken = bytes ∧ Whole bytes := by
  rw [wholeBytes, bind_eq_ok]
  constructor
  · rintro ⟨set, hset, hcheck⟩
    by_cases hlength : set.byteLength = bytes.size
    · rw [if_neg (not_not_intro hlength)] at hcheck
      exact ⟨(Except.ok.inj hcheck).symm, set, hset, hlength⟩
    · rw [if_pos hlength] at hcheck
      exact absurd (show Except.error _ = Except.ok taken from hcheck) (by simp)
  · rintro ⟨rfl, set, hset, hlength⟩
    refine ⟨set, hset, ?_⟩
    rw [if_neg (not_not_intro hlength)]
    rfl

/-- Bytes are taken exactly when they are one whole list and there is an id for them. -/
theorem addBytes_eq_ok {id : Nat} {final : Factory} :
    addBytes bytes factory = .ok id final ↔
      Whole bytes ∧ insert bytes factory = .ok id final := by
  rw [addBytes_eq]
  cases hanswer : wholeBytes bytes with
  | ok taken =>
    obtain ⟨rfl, hwhole⟩ := wholeBytes_eq_ok.1 hanswer
    exact (and_iff_right hwhole).symm
  | error error =>
    refine iff_of_false (fun h => nomatch h) fun h => ?_
    rw [wholeBytes_eq_ok.2 ⟨rfl, h.1⟩] at hanswer
    exact absurd hanswer (by simp)

/-- While there are ids left, every insertion succeeds. -/
theorem exists_insert (hroom : factory.offsets.size < 2 ^ 32) (bytes : ByteArray) :
    ∃ id final, insert bytes factory = .ok id final := by
  rcases insert_cases bytes factory with ⟨id, -, h⟩ | ⟨-, buckets, h⟩ | ⟨hfull, -⟩
  · exact ⟨_, _, h⟩
  · exact ⟨_, _, h⟩
  · exact absurd hroom (Nat.not_lt.2 hfull)

/-- Whole lists were checked when they were added, so they are given without a check. -/
theorem get_of_whole {id : Nat} (hwhole : Whole bytes) (h : factory.stored? id = some bytes) :
    ∃ set, ItemSet.ofBytes bytes = .ok set ∧ factory.get id = .ok set := by
  obtain ⟨set, hset, -⟩ := hwhole
  refine ⟨set, hset, ?_⟩
  rw [get, h]
  exact (ItemSet.ofBytes_eq_ok.1 hset).1

/-! ### Refusals -/

section Atomic

variable {α β : Type}

/-- A step that fails has changed nothing. -/
def Atomic (step : Adding α) : Prop :=
  ∀ factory error final, step factory = .error error final → final = factory

theorem Atomic.throw (error : Error) : Atomic (throw error : Adding α) := by
  intro factory error' final h
  obtain ⟨-, rfl⟩ := EStateM.Result.error.inj
    (show EStateM.Result.error error factory = .error error' final from h)
  rfl

/-- An answer changes nothing, so what follows it may still fail. -/
theorem Atomic.lift_bind (answer : Except Error α) {next : α → Adding β}
    (h : ∀ value, Atomic (next value)) : Atomic (lift answer >>= next) := by
  cases answer with
  | ok value => exact h value
  | error error => exact Atomic.throw error

theorem Atomic.get_bind {next : Factory → Adding β} (h : ∀ factory, Atomic (next factory)) :
    Atomic (MonadState.get >>= next) :=
  fun factory => h factory factory

/-- Ids run out before anything is stored. -/
theorem atomic_insert (bytes : ByteArray) : Atomic (insert bytes) := by
  intro factory error final h
  rcases insert_cases bytes factory with ⟨id, -, hresult⟩ | ⟨-, buckets, hresult⟩ | ⟨-, hresult⟩
  · exact absurd (hresult.symm.trans h) (by simp)
  · exact absurd (hresult.symm.trans h) (by simp)
  · exact (EStateM.Result.error.inj (hresult.symm.trans h)).2.symm

theorem atomic_addBytes (bytes : ByteArray) : Atomic (addBytes bytes) := by
  refine Atomic.lift_bind _ fun set => ?_
  split
  · exact Atomic.throw _
  · exact atomic_insert bytes

theorem atomic_addItems (items : List Item) : Atomic (addItems items) := by
  rw [addItems]
  split
  · exact Atomic.throw _
  · exact Atomic.get_bind fun _ => Atomic.lift_bind _ atomic_insert

theorem atomic_addSet (set : ItemSet) : Atomic (addSet set) :=
  Atomic.get_bind fun _ => Atomic.lift_bind _ atomic_insert

end Atomic

/-! ### Runs of calls -/

/-- After any calls, bytes are taken exactly when they are one whole list, as long as there are ids
left; then the id stands for these bytes and gives the list that they are read as.  A refusal of
bytes, of items or of a list leaves the factory as it was. -/
theorem addBytes_spec (config : Config) (fingerprint : Fingerprint) (calls : List Call)
    (hmake : make config fingerprint = .ok first) :
    (∀ bytes, (first.runCalls calls).offsets.size < 2 ^ 32 →
      ((∃ id final, addBytes bytes (first.runCalls calls) = .ok id final) ↔
        ∃ set, ItemSet.ofBytes bytes = .ok set ∧ set.byteLength = bytes.size)) ∧
    (∀ bytes id final, addBytes bytes (first.runCalls calls) = .ok id final →
      final.stored? id = some bytes ∧
        ∃ set, ItemSet.ofBytes bytes = .ok set ∧ final.get id = .ok set) ∧
    (∀ bytes error final, addBytes bytes (first.runCalls calls) = .error error final →
      final = first.runCalls calls) ∧
    (∀ items error final, addItems items (first.runCalls calls) = .error error final →
      final = first.runCalls calls) ∧
    ∀ set error final, addSet set (first.runCalls calls) = .error error final →
      final = first.runCalls calls := by
  have hindexed := ((indexed_of_make hmake).extends_runCalls calls).indexed
  refine ⟨fun bytes hroom => ⟨?_, fun hwhole => ?_⟩, fun bytes id final hadd => ?_,
    fun bytes => atomic_addBytes bytes _, fun items => atomic_addItems items _,
    fun set => atomic_addSet set _⟩
  · rintro ⟨id, final, hadd⟩
    exact (addBytes_eq_ok.1 hadd).1
  · obtain ⟨id, final, hinsert⟩ := exists_insert hroom bytes
    exact ⟨id, final, addBytes_eq_ok.2 ⟨hwhole, hinsert⟩⟩
  · obtain ⟨hwhole, hinsert⟩ := addBytes_eq_ok.1 hadd
    have hstored := hindexed.stored_of_insert hinsert
    exact ⟨hstored, get_of_whole hwhole hstored⟩

/-- A range whose begin takes a byte more than it needs is taken as it is where native lists are
asked for, and is refused with a byte behind it. -/
theorem addBytes_spec_overlong :
    ∃ first set id final, make { codec := .native } (fun _ => 0) = .ok first ∧
      (first.runCalls [.addItems [3, 7]]).offsets.size < 2 ^ 32 ∧
      ItemSet.ofBytes ⟨#[5, 0x84, 0, 9, 2]⟩ = .ok set ∧
      addBytes ⟨#[5, 0x84, 0, 9, 2]⟩ (first.runCalls [.addItems [3, 7]]) = .ok id final ∧
      final.stored? id = some ⟨#[5, 0x84, 0, 9, 2]⟩ ∧ final.get id = .ok set ∧
      ∃ error, addBytes ⟨#[5, 0x84, 0, 9, 2, 77]⟩ (first.runCalls [.addItems [3, 7]])
        = .error error (first.runCalls [.addItems [3, 7]]) := by
  obtain ⟨first, hmake⟩ := exists_make (fun _ => 0)
    (show ({ codec := .native } : Config).tuning.blockSize ≠ 0 by decide) ⟨_, rfl⟩
  have hroom : (first.runCalls [.addItems [3, 7]]).offsets.size < 2 ^ 32 :=
    room_of_make hmake (show 1 + 1 < 2 ^ 32 by decide)
  obtain ⟨htaken, hgiven, hrefused, -⟩ :=
    addBytes_spec _ (fun _ => 0) [.addItems [3, 7]] hmake
  obtain ⟨set, hset, hlength⟩ :
      ∃ set, ItemSet.ofBytes ⟨#[5, 0x84, 0, 9, 2]⟩ = .ok set ∧ set.byteLength = 5 := ⟨_, rfl, rfl⟩
  obtain ⟨id, final, hadd⟩ := (htaken ⟨#[5, 0x84, 0, 9, 2]⟩ hroom).2 ⟨set, hset, hlength⟩
  obtain ⟨hstored, other, hother, hget⟩ := hgiven _ _ _ hadd
  rw [hset] at hother
  obtain rfl := Except.ok.inj hother
  refine ⟨first, set, id, final, hmake, hroom, hset, hadd, hstored, hget, ?_⟩
  cases hanswer : addBytes ⟨#[5, 0x84, 0, 9, 2, 77]⟩ (first.runCalls [.addItems [3, 7]]) with
  | error error final =>
    rw [hrefused _ _ _ hanswer]
    exact ⟨error, rfl⟩
  | ok id final =>
    -- The list ends in front of the last byte.
    obtain ⟨longer, hlonger, hall⟩ := (htaken _ hroom).1 ⟨id, final, hanswer⟩
    obtain ⟨again, hagain, hfive⟩ : ∃ again,
        ItemSet.ofBytes ⟨#[5, 0x84, 0, 9, 2, 77]⟩ = .ok again ∧ again.byteLength = 5 :=
      ⟨_, rfl, rfl⟩
    rw [hagain] at hlonger
    obtain rfl := Except.ok.inj hlonger
    exact absurd (hfive.symm.trans hall) (by decide)

end Postings.Factory
