/-
The ids that a factory gives.

A run of calls is logged as its insertions: the bytes that were handed over, each with
the id that was answered.  Where equal bytes share an id, ids number the bytes in
the order in which they first appear; otherwise they number the insertions.

* `Factory.Inserts` — insertions one after the other;
* `Factory.Runs` — calls one after the other, and all insertions that they make;
* `Factory.Logged`, `Factory.Logged.inserts` — what every log says of its factory;
* `Factory.ids_numbered` — the ids along any run of calls.
-/
import Postings.Proofs.Factory.Plan

namespace Postings.Factory

/-- Bytes that were handed over, and the ids that were answered, in order. -/
abbrev Log := List (ByteArray × Nat)

namespace Log

/-- The bytes that were handed over. -/
def handed (log : Log) : List ByteArray :=
  log.map (·.1)

/-- The ids that were answered. -/
def ids (log : Log) : List Nat :=
  log.map (·.2)

theorem ids_concat (log : Log) (bytes : ByteArray) (id : Nat) :
    ids (log ++ [(bytes, id)]) = log.ids ++ [id] :=
  List.map_append

theorem mem_ids_concat {log : Log} {bytes : ByteArray} {id other : Nat} :
    other ∈ ids (log ++ [(bytes, id)]) ↔ other ∈ log.ids ∨ other = id := by
  rw [ids_concat, List.mem_append, List.mem_singleton]

/-- Bytes that were not handed over before have the next id: the ids before are those below. -/
def InOrder (log : Log) : Prop :=
  ∀ position bytes id, log[position]? = some (bytes, id) →
    bytes ∉ handed (log.take position) → ∀ other, other ∈ ids (log.take position) ↔ other < id

theorem InOrder.concat {log : Log} {bytes : ByteArray} {id : Nat} (h : log.InOrder)
    (hlast : bytes ∉ log.handed → ∀ other, other ∈ log.ids ↔ other < id) :
    InOrder (log ++ [(bytes, id)]) := by
  intro position other otherId hget hnew
  rcases Nat.lt_or_ge position log.length with hlt | hge
  · rw [List.getElem?_append_left hlt] at hget
    rw [List.take_append_of_le_length (Nat.le_of_lt hlt)] at hnew ⊢
    exact h position other otherId hget hnew
  · obtain rfl : position = log.length := by
      have hbound := (List.getElem?_eq_some_iff.1 hget).1
      rw [List.length_append, List.length_singleton] at hbound
      omega
    rw [List.getElem?_concat_length] at hget
    obtain ⟨rfl, rfl⟩ := Prod.mk.inj (Option.some.inj hget)
    rw [List.take_left] at hnew ⊢
    exact hlast hnew

end Log

/-- Insertions one after the other. -/
inductive Inserts : Factory → Log → Factory → Prop
  | nil (factory : Factory) : Inserts factory [] factory
  | cons {factory middle last : Factory} {log : Log} {bytes : ByteArray} {id : Nat}
    (h : insert bytes factory = .ok id middle) (hrest : Inserts middle log last) :
    Inserts factory ((bytes, id) :: log) last

/-- Calls one after the other, failed ones included, with the insertions that they make: those of
the bytes that the call comes to.  A call that answers has answered the ids of its insertions. -/
inductive Runs : Factory → List Call → Log → Factory → Prop
  | nil (factory : Factory) : Runs factory [] [] factory
  | cons {factory middle last : Factory} {call : Call} {calls : List Call} {made log : Log}
    (hafter : after (call.run factory) = middle) (hmade : Inserts factory made middle)
    (hhanded : made.handed = (call.plan factory.config).entries)
    (hanswer : ∀ ids final, call.run factory = .ok ids final → ids.toList = made.ids)
    (hrest : Runs middle calls log last) : Runs factory (call :: calls) (made ++ log) last

variable {config : Config} {factory first last : Factory} {log : Log}

/-! ### Every run has a log -/

theorem exists_inserts {entries : List ByteArray} {done ids : Array Nat}
    (h : insertEach entries done factory = .ok ids last) :
    ∃ log, Inserts factory log last ∧ log.handed = entries ∧
      ids.toList = done.toList ++ log.ids := by
  induction entries generalizing factory done with
  | nil =>
    obtain ⟨rfl, rfl⟩ :=
      EStateM.Result.ok.inj (show EStateM.Result.ok done factory = .ok ids last from h)
    exact ⟨[], .nil factory, rfl, (List.append_nil _).symm⟩
  | cons bytes rest ih =>
    rw [insertEach] at h
    cases hinsert : insert bytes factory with
    | error error middle =>
      rw [bind_of_error hinsert] at h
      exact absurd h (by simp)
    | ok id middle =>
      rw [bind_of_ok hinsert] at h
      obtain ⟨log, hlog, hhanded, hids⟩ := ih h
      refine ⟨(bytes, id) :: log, .cons hinsert hlog, congrArg _ hhanded, ?_⟩
      rw [hids, Array.toList_push, List.append_assoc]
      rfl

/-- While ids are left, all that calls hand over is stored. -/
theorem exists_runs (hindexed : factory.Indexed) (calls : List Call)
    (hfew : (factory.runCalls calls).offsets.size < 2 ^ 32) :
    ∃ log, Runs factory calls log (factory.runCalls calls) := by
  induction calls generalizing factory with
  | nil => exact ⟨[], .nil factory⟩
  | cons call rest ih =>
    have hrun := hindexed.extends_run call
    have hfew : ((after (call.run factory)).runCalls rest).offsets.size < 2 ^ 32 := hfew
    obtain ⟨log, hlog⟩ := ih hrun.indexed hfew
    have hle := (hrun.indexed.extends_runCalls rest).size_le
    have hplan := call.run_eq factory
    rcases insertEach_cases (call.plan factory.config).entries #[] factory with
      ⟨ids, final, hinsert⟩ | ⟨final, hinsert, hfull⟩
    · obtain ⟨made, hmade, hhanded, hids⟩ := exists_inserts hinsert
      have hafter : after (call.run factory) = final := by
        rw [hplan, Plan.after_carryOut, hinsert]
        rfl
      refine ⟨made ++ log,
        .cons rfl (hafter ▸ hmade) hhanded (fun answered answer hanswer => ?_) hlog⟩
      rw [hplan] at hanswer
      obtain ⟨-, hsame⟩ := Plan.carryOut_eq_ok.1 hanswer
      rw [hinsert] at hsame
      obtain ⟨rfl, -⟩ := EStateM.Result.ok.inj hsame
      exact hids
    · -- Without an id left the factory would be too large at the end.
      have hafter : after (call.run factory) = final := by
        rw [hplan, Plan.after_carryOut, hinsert]
        rfl
      rw [hafter] at hle hfew
      exact absurd hfew (Nat.not_lt.2 (Nat.le_trans hfull hle))

theorem Inserts.append {middle : Factory} {more : Log} (h : Inserts factory log middle)
    (hmore : Inserts middle more last) : Inserts factory (log ++ more) last := by
  induction h with
  | nil => exact hmore
  | cons hinsert _ ih => exact .cons hinsert (ih hmore)

theorem Runs.inserts {calls : List Call} (h : Runs factory calls log last) :
    Inserts factory log last := by
  induction h with
  | nil factory => exact .nil factory
  | cons _ hmade _ _ _ ih => exact hmade.append ih

/-- What was handed over stands under the ids that were answered. -/
theorem Inserts.stored (h : Inserts factory log last) (hindexed : factory.Indexed) :
    ∀ bytes id, (bytes, id) ∈ log → last.stored? id = some bytes := by
  suffices hboth : factory.Extends last ∧
      ∀ bytes id, (bytes, id) ∈ log → last.stored? id = some bytes from hboth.2
  induction h with
  | nil factory => exact ⟨hindexed.extends, fun _ _ h => absurd h List.not_mem_nil⟩
  | @cons factory middle last log bytes id hinsert _ ih =>
    have hfirst := hindexed.extends_insert bytes
    rw [hinsert] at hfirst
    obtain ⟨hextends, hrest⟩ := ih hfirst.indexed
    refine ⟨hfirst.trans hextends, fun other otherId hmem => ?_⟩
    rcases List.mem_cons.1 hmem with hsame | hmem
    · obtain ⟨rfl, rfl⟩ := Prod.mk.inj hsame
      exact hextends.stored _ _ (hindexed.stored_of_insert hinsert)
    · exact hrest other otherId hmem

/-! ### What a log says -/

/-- The insertions since a factory was empty. -/
structure Logged (log : Log) (factory : Factory) : Prop where
  indexed : factory.Indexed
  stored : ∀ bytes id, (bytes, id) ∈ log → factory.stored? id = some bytes
  mem_ids : ∀ id, id ∈ log.ids ↔ id < factory.offsets.size
  inOrder : factory.config.deduplicate = true → log.InOrder
  counted : factory.config.deduplicate = true →
    factory.hits + factory.offsets.size = log.length
  numbered : factory.config.deduplicate = false →
    log.ids = List.range log.length ∧ factory.offsets.size = log.length ∧ factory.hits = 0

theorem logged_blank (config : Config) (fingerprint : Fingerprint) :
    Logged [] (blank config fingerprint) where
  indexed := indexed_blank config fingerprint
  stored _ _ h := absurd h List.not_mem_nil
  mem_ids id := iff_of_false List.not_mem_nil (Nat.not_lt_zero id)
  inOrder _ _ _ _ h := absurd h (by simp)
  counted _ := rfl
  numbered _ := ⟨rfl, rfl, rfl⟩

/-- Bytes are stored exactly if they were handed over. -/
theorem Logged.mem_handed (h : Logged log factory) {bytes : ByteArray} :
    bytes ∈ log.handed ↔ ∃ id, factory.stored? id = some bytes := by
  constructor
  · intro hmem
    obtain ⟨⟨_, id⟩, hentry, rfl⟩ := List.mem_map.1 hmem
    exact ⟨id, h.stored _ id hentry⟩
  · rintro ⟨id, hstored⟩
    have hid : id ∈ log.ids := (h.mem_ids id).2 (lt_size_of_stored? hstored)
    obtain ⟨⟨other, _⟩, hentry, rfl⟩ := List.mem_map.1 hid
    rw [h.stored _ _ hentry] at hstored
    exact List.mem_map.2 ⟨_, hentry, Option.some.inj hstored⟩

/-- Every insertion stores an entry or is counted as a hit. -/
theorem Logged.hits_add_size (h : Logged log factory) :
    factory.hits + factory.offsets.size = log.length := by
  cases hdedup : factory.config.deduplicate with
  | true => exact h.counted hdedup
  | false =>
    obtain ⟨-, hsize, hhits⟩ := h.numbered hdedup
    rw [hsize, hhits, Nat.zero_add]

theorem Logged.insert (h : Logged log factory) {bytes : ByteArray} {id : Nat}
    (hinsert : Factory.insert bytes factory = .ok id last) :
    Logged (log ++ [(bytes, id)]) last := by
  have hextends := h.indexed.extends_insert bytes
  have hinsertion := h.indexed.insertion bytes
  rw [hinsert] at hextends hinsertion
  have hstored : ∀ other otherId, (other, otherId) ∈ log ++ [(bytes, id)] →
      last.stored? otherId = some other := by
    intro other otherId hmem
    rcases List.mem_append.1 hmem with hmem | hmem
    · exact hextends.stored _ _ (h.stored other otherId hmem)
    · obtain ⟨rfl, rfl⟩ := Prod.mk.inj (List.mem_singleton.1 hmem)
      exact h.indexed.stored_of_insert hinsert
  have hlength : (log ++ [(bytes, id)]).length = log.length + 1 := by
    rw [List.length_append, List.length_singleton]
  cases hinsertion with
  | found _ hdedup hfound =>
    -- The id is an old one, and one hit more is counted.
    have hid := lt_size_of_stored? hfound
    have hold : bytes ∈ log.handed := h.mem_handed.2 ⟨id, hfound⟩
    refine ⟨hextends.indexed, hstored, fun other => ?_,
      fun _ => (h.inOrder hdedup).concat fun hnew => absurd hold hnew, fun _ => ?_, ?_⟩
    · rw [Log.mem_ids_concat, h.mem_ids]
      exact or_iff_left_of_imp fun hother => hother ▸ hid
    · have hcount := h.counted hdedup
      rw [hlength]
      show factory.hits + 1 + factory.offsets.size = _
      omega
    · intro hdistinct
      exact absurd (hdedup.symm.trans hdistinct) (by simp)
  | added buckets hnew hroom hindexed =>
    -- The id is the next one: all before it were given.
    have hsize : (factory.grow bytes).offsets.size = factory.offsets.size + 1 := by
      rw [grow, Array.size_push]
    refine ⟨hindexed, hstored, fun other => ?_,
      fun hdedup => (h.inOrder hdedup).concat fun _ => h.mem_ids, fun hdedup => ?_,
      fun hdistinct => ?_⟩
    · rw [Log.mem_ids_concat, h.mem_ids, hsize]
      omega
    · have hcount := h.counted hdedup
      rw [hlength]
      show factory.hits + (factory.grow bytes).offsets.size = _
      omega
    · obtain ⟨hids, hcount, hhits⟩ := h.numbered hdistinct
      refine ⟨?_, ?_, hhits⟩
      · rw [Log.ids_concat, hids, hlength, List.range_succ, hcount]
      · rw [hsize, hlength, hcount]

theorem Logged.inserts {more : Log} (h : Logged log factory) (hmore : Inserts factory more last) :
    Logged (log ++ more) last := by
  induction hmore generalizing log with
  | nil => rwa [List.append_nil]
  | cons hinsert _ ih =>
    have hlog := ih (h.insert hinsert)
    rwa [List.append_assoc, List.singleton_append] at hlog

/-- Whatever is called, the insertions that calls make are answered with ids that number what
was handed over, the empty list first; and no later call changes what an id stands for. -/
theorem ids_numbered (config : Config) (fingerprint : Fingerprint) (calls : List Call)
    (hmake : make config fingerprint = .ok first)
    (hfew : (first.runCalls calls).offsets.size < 2 ^ 32) :
    ∃ empty log, encodeItems config [] = .ok empty ∧
      Inserts (blank config fingerprint) ((empty, 0) :: log) (first.runCalls calls) ∧
      Runs first calls log (first.runCalls calls) ∧
      (config.deduplicate = true →
        (∀ bytes id other otherId, (bytes, id) ∈ (empty, 0) :: log →
          (other, otherId) ∈ (empty, 0) :: log → (id = otherId ↔ bytes = other)) ∧
        Log.InOrder ((empty, 0) :: log) ∧
        (first.runCalls calls).hits + (first.runCalls calls).size = log.length + 1) ∧
      (config.deduplicate = false →
        Log.ids ((empty, 0) :: log) = List.range (log.length + 1) ∧
        (first.runCalls calls).hits = 0) ∧
      (∀ bytes id, (bytes, id) ∈ (empty, 0) :: log →
        (first.runCalls calls).stored? id = some bytes) ∧
      ∀ more id bytes, (first.runCalls calls).stored? id = some bytes →
        (first.runCalls (calls ++ more)).stored? id = some bytes := by
  obtain ⟨-, empty, hempty, hinsert⟩ := make_eq_ok.1 hmake
  obtain ⟨log, hruns⟩ := exists_runs (indexed_of_make hmake) calls hfew
  have hinserts := Inserts.cons hinsert hruns.inserts
  have hlogged := (logged_blank config fingerprint).inserts hinserts
  rw [List.nil_append] at hlogged
  have hconfig : (first.runCalls calls).config = config := by
    rw [config_runCalls, config_of_make hmake]
  have hsize : (first.runCalls calls).size = (first.runCalls calls).offsets.size :=
    Nat.mod_eq_of_lt hfew
  refine ⟨empty, log, hempty, hinserts, hruns, fun hdedup => ?_, fun hdistinct => ?_,
    hlogged.stored, fun more id bytes hstored => ?_⟩
  · rw [← hconfig] at hdedup
    refine ⟨fun bytes id other otherId hmem hother => ?_, hlogged.inOrder hdedup, ?_⟩
    · have hid := hlogged.stored bytes id hmem
      have hotherId := hlogged.stored other otherId hother
      constructor
      · rintro rfl
        rw [hid] at hotherId
        exact Option.some.inj hotherId
      · rintro rfl
        exact hlogged.indexed.unique hdedup id otherId bytes hid hotherId
    · rw [hsize, hlogged.counted hdedup, List.length_cons]
  · rw [← hconfig] at hdistinct
    obtain ⟨hids, -, hhits⟩ := hlogged.numbered hdistinct
    exact ⟨hids, hhits⟩
  · rw [runCalls, List.foldl_append]
    exact (hlogged.indexed.extends_runCalls more).stored id bytes hstored

/-- A fingerprint that confuses all bytes. -/
theorem ids_numbered_colliding :
    ∃ first log, make { codec := .native } (fun _ => 0) = .ok first ∧
      (first.runCalls [.addItems [3, 7], .addItems [3, 7]]).offsets.size < 2 ^ 32 ∧
      Runs first [.addItems [3, 7], .addItems [3, 7]] log
        (first.runCalls [.addItems [3, 7], .addItems [3, 7]]) ∧
      (first.runCalls [.addItems [3, 7], .addItems [3, 7]]).hits
        + (first.runCalls [.addItems [3, 7], .addItems [3, 7]]).size = log.length + 1 := by
  obtain ⟨empty, hempty⟩ : ∃ empty, encodeItems { codec := .native } [] = .ok empty := ⟨_, rfl⟩
  obtain ⟨first, hinsert, -⟩ := exists_insert_blank { codec := .native } (fun _ => 0) empty
  have hmake : make { codec := .native } (fun _ => 0) = .ok first :=
    make_eq_ok.2 ⟨by decide, empty, hempty, hinsert⟩
  have hfew : (first.runCalls [.addItems [3, 7], .addItems [3, 7]]).offsets.size < 2 ^ 32 := by
    have hle := size_runCalls_le [.addItems [3, 7], .addItems [3, 7]] first
    rw [size_of_make hmake, config_of_make hmake] at hle
    exact Nat.lt_of_le_of_lt hle (show 1 + 2 < 2 ^ 32 by decide)
  obtain ⟨_, log, -, -, hruns, hshared, -⟩ := ids_numbered _ (fun _ => 0) _ hmake hfew
  exact ⟨first, log, hmake, hfew, hruns, (hshared rfl).2.2⟩

end Postings.Factory
