/-
Batches of insertions.

A store is added batch by batch: the lists of a batch are encoded first, then inserted
one after the other.  As long as all can be loaded and encoded the batches are one run
of insertions; otherwise the run ends with the last complete batch before the first
list that cannot, whichever list of its batch is then reported.

* `Factory.bind_of_ok`, `Factory.bind_of_error` — steps one after the other;
* `Factory.insertEach_append`, `Factory.insertEach_cases`, `Factory.Indexed.extends_insertEach` —
  runs of insertions;
* `Factory.addEach` — the lists of a store added one at a time;
* `Factory.encodeEach_of_error` — a batch with lists that cannot be encoded ends with the error of
  one of them;
* `Factory.insertFrom_eq`, `Factory.insertStore_of_ok`, `Factory.insertStore_of_error` — batches
  are runs of insertions.
-/
import Mathlib.Algebra.Ring.Nat
import Postings.Proofs.Factory.Lookup

namespace Postings.Factory

variable {config : Config} {factory : Factory} {store : Store}

/-! ### Steps -/

section Steps

variable {α β : Type}

theorem bind_of_ok {step : Adding α} {next : α → Adding β} {value : α} {middle : Factory}
    (h : step factory = .ok value middle) : (step >>= next) factory = next value middle := by
  show EStateM.bind step next factory = _
  rw [EStateM.bind, h]

theorem bind_of_error {step : Adding α} {next : α → Adding β} {error : Error} {middle : Factory}
    (h : step factory = .error error middle) : (step >>= next) factory = .error error middle := by
  show EStateM.bind step next factory = _
  rw [EStateM.bind, h]

/-- Steps that go on alike after a common first step are alike. -/
theorem bind_congr {step : Adding α} {next other : α → Adding β}
    (h : ∀ value middle, step factory = .ok value middle → next value middle = other value middle) :
    (step >>= next) factory = (step >>= other) factory := by
  cases hstep : step factory with
  | ok value middle => rw [bind_of_ok hstep, bind_of_ok hstep, h value middle hstep]
  | error error middle => rw [bind_of_error hstep, bind_of_error hstep]

end Steps

/-! ### Runs of insertions -/

theorem config_insert (bytes : ByteArray) (factory : Factory) :
    (after (insert bytes factory)).config = factory.config := by
  rcases insert_cases bytes factory with ⟨id, -, h⟩ | ⟨-, buckets, h⟩ | ⟨-, h⟩
  · rw [h]
    rfl
  · rw [h]
    rfl
  · rw [h]
    rfl

theorem config_of_insert {bytes : ByteArray} {id : Nat} {last : Factory}
    (h : insert bytes factory = .ok id last) : last.config = factory.config := by
  have hkept := config_insert bytes factory
  rwa [h] at hkept

theorem insertEach_append (first second : List ByteArray) (done : Array Nat) :
    insertEach (first ++ second) done = insertEach first done >>= insertEach second := by
  induction first generalizing done with
  | nil => rw [List.nil_append, insertEach, pure_bind]
  | cons bytes rest ih =>
    rw [List.cons_append, insertEach, insertEach, bind_assoc]
    exact congrArg _ (funext fun id => ih (done.push id))

/-- What every insertion keeps is kept by a run of them. -/
theorem after_insertEach {motive : Factory → Prop}
    (hinsert : ∀ bytes factory, motive factory → motive (after (insert bytes factory)))
    (h : motive factory) (entries : List ByteArray) (done : Array Nat) :
    motive (after (insertEach entries done factory)) := by
  induction entries generalizing factory done with
  | nil => exact h
  | cons bytes rest ih =>
    have hfirst := hinsert bytes factory h
    rw [insertEach]
    cases hstep : insert bytes factory with
    | ok id middle =>
      rw [hstep] at hfirst
      rw [bind_of_ok hstep]
      exact ih hfirst _
    | error error middle =>
      rw [hstep] at hfirst
      rw [bind_of_error hstep]
      exact hfirst

theorem config_insertEach (entries : List ByteArray) (done : Array Nat) (factory : Factory) :
    (after (insertEach entries done factory)).config = factory.config :=
  after_insertEach (fun bytes middle h => (config_insert bytes middle).trans h) rfl entries done

theorem config_of_insertEach {entries : List ByteArray} {done ids : Array Nat} {last : Factory}
    (h : insertEach entries done factory = .ok ids last) : last.config = factory.config := by
  have hkept := config_insertEach entries done factory
  rwa [h] at hkept

/-- What every insertion raises by no more than the weight of its bytes is raised by a run of them
by no more than the weights together. -/
theorem measure_insertEach_le (measure : Factory → Nat) (weight : ByteArray → Nat)
    (hinsert : ∀ bytes factory,
      measure (after (insert bytes factory)) ≤ measure factory + weight bytes)
    (entries : List ByteArray) (done : Array Nat) (factory : Factory) :
    measure (after (insertEach entries done factory))
      ≤ measure factory + (entries.map weight).sum := by
  induction entries generalizing done factory with
  | nil => exact Nat.le_refl _
  | cons bytes rest ih =>
    have hfirst := hinsert bytes factory
    rw [insertEach, List.map_cons, List.sum_cons]
    cases hstep : insert bytes factory with
    | ok id middle =>
      rw [hstep] at hfirst
      rw [bind_of_ok hstep]
      have hfirst : measure middle ≤ _ := hfirst
      have hrest := ih (done.push id) middle
      omega
    | error error middle =>
      rw [hstep] at hfirst
      rw [bind_of_error hstep]
      exact Nat.le_trans hfirst (Nat.add_le_add_left (Nat.le_add_right ..) _)

theorem size_insert_le (bytes : ByteArray) (factory : Factory) :
    (after (insert bytes factory)).offsets.size ≤ factory.offsets.size + 1 := by
  rcases insert_cases bytes factory with ⟨id, -, h⟩ | ⟨-, buckets, h⟩ | ⟨-, h⟩
  · rw [h]
    exact Nat.le_add_right _ _
  · rw [h]
    exact Nat.le_of_eq (Array.size_push ..)
  · rw [h]
    exact Nat.le_add_right _ _

theorem dataSize_insert_le (bytes : ByteArray) (factory : Factory) :
    (after (insert bytes factory)).data.size ≤ factory.data.size + bytes.size := by
  rcases insert_cases bytes factory with ⟨id, -, h⟩ | ⟨-, buckets, h⟩ | ⟨-, h⟩
  · rw [h]
    exact Nat.le_add_right _ _
  · rw [h]
    exact Nat.le_of_eq ByteArray.size_append
  · rw [h]
    exact Nat.le_add_right _ _

theorem size_insertEach_le (entries : List ByteArray) (done : Array Nat) (factory : Factory) :
    (after (insertEach entries done factory)).offsets.size
      ≤ factory.offsets.size + entries.length := by
  have hle := measure_insertEach_le (fun factory => factory.offsets.size) (fun _ => 1)
    size_insert_le entries done factory
  rwa [List.map_const', List.sum_replicate_nat, Nat.mul_one] at hle

/-- A run of insertions is done, or it stops where there is no id left. -/
theorem insertEach_cases (entries : List ByteArray) (done : Array Nat) (factory : Factory) :
    (∃ ids final, insertEach entries done factory = .ok ids final) ∨
      ∃ final, insertEach entries done factory = .error (.overflow .ids) final ∧
        2 ^ 32 ≤ final.offsets.size := by
  induction entries generalizing done factory with
  | nil => exact .inl ⟨done, factory, rfl⟩
  | cons bytes rest ih =>
    rw [insertEach]
    rcases insert_cases bytes factory with ⟨id, -, h⟩ | ⟨-, buckets, h⟩ | ⟨hfull, h⟩
    · rw [bind_of_ok h]
      exact ih _ _
    · rw [bind_of_ok h]
      exact ih _ _
    · rw [bind_of_error h]
      exact .inr ⟨factory, rfl, hfull⟩

/-- A run of insertions is done if there are ids enough. -/
theorem exists_insertEach {entries : List ByteArray}
    (hroom : factory.offsets.size + entries.length < 2 ^ 32) (done : Array Nat) :
    ∃ ids final, insertEach entries done factory = .ok ids final ∧
      final.offsets.size < 2 ^ 32 := by
  have hle := size_insertEach_le entries done factory
  rcases insertEach_cases entries done factory with ⟨ids, final, h⟩ | ⟨final, h, hfull⟩
  · rw [h] at hle
    exact ⟨ids, final, h, Nat.lt_of_le_of_lt hle hroom⟩
  · rw [h] at hle
    exact absurd (Nat.lt_of_le_of_lt hle hroom) (Nat.not_lt.2 hfull)

theorem Indexed.extends_insertEach (h : factory.Indexed) (entries : List ByteArray)
    (done : Array Nat) : factory.Extends (after (insertEach entries done factory)) :=
  after_insertEach
    (fun bytes _ hmiddle => hmiddle.trans (hmiddle.indexed.extends_insert bytes))
    h.extends entries done

/-! ### The lists of a store -/

/-- The list of an id can be loaded and encoded. -/
def Recodes (config : Config) (store : Store) (id : Nat) : Prop :=
  ∃ bytes, recoded config store id = .ok bytes

/-- The bytes that the lists of some ids are stored as, of those that can be loaded and encoded. -/
def recodings (config : Config) (store : Store) (ids : List Nat) : List ByteArray :=
  ids.filterMap fun id => (recoded config store id).toOption

/-- Adds the lists of some ids one at a time, and their new ids to `done`. -/
def addEach (store : Store) : List Nat → (done : Array Nat) → Adding (Array Nat)
  | [], done => return done
  | id :: ids, done => do
    let set ← lift (store.load id)
    let new ← addSet set
    addEach store ids (done.push new)

theorem recodings_cons {id : Nat} {bytes : ByteArray} (h : recoded config store id = .ok bytes)
    (ids : List Nat) :
    recodings config store (id :: ids) = bytes :: recodings config store ids := by
  rw [recodings, List.filterMap_cons_some (b := bytes) (by rw [h]; rfl)]
  rfl

theorem recoded_eq_ok {id : Nat} {bytes : ByteArray} : recoded config store id = .ok bytes ↔
    ∃ set, store.load id = .ok set ∧ bytesOf config set = .ok bytes :=
  bind_eq_ok

theorem recoded_eq_error {id : Nat} {error : Error} : recoded config store id = .error error ↔
    store.load id = .error error ∨
      ∃ set, store.load id = .ok set ∧ bytesOf config set = .error error := by
  rw [recoded]
  cases store.load id with
  | error other => simp [Bind.bind, Except.bind]
  | ok set => simp [Bind.bind, Except.bind]

/-- Adding a list of a store is inserting the bytes that it is stored as. -/
theorem addEach_cons {id : Nat} {bytes : ByteArray}
    (h : recoded factory.config store id = .ok bytes) (ids : List Nat) (done : Array Nat) :
    addEach store (id :: ids) done factory
      = (do addEach store ids (done.push (← insert bytes))) factory := by
  obtain ⟨set, hload, hbytes⟩ := recoded_eq_ok.1 h
  rw [addEach, hload]
  show (addSet set >>= fun new => addEach store ids (done.push new)) factory = _
  have hadd : addSet set factory = insert bytes factory := by
    show (lift (bytesOf factory.config set) >>= insert) factory = _
    rw [hbytes]
    rfl
  cases hinsert : insert bytes factory with
  | ok new middle => rw [bind_of_ok (hadd.trans hinsert), bind_of_ok hinsert]
  | error error middle => rw [bind_of_error (hadd.trans hinsert), bind_of_error hinsert]

/-- Lists that can be loaded and encoded are added by a run of insertions. -/
theorem addEach_eq (hconfig : factory.config = config) {ids : List Nat}
    (h : ∀ id ∈ ids, Recodes config store id) (done : Array Nat) :
    addEach store ids done factory = insertEach (recodings config store ids) done factory := by
  induction ids generalizing factory done with
  | nil => rfl
  | cons id rest ih =>
    obtain ⟨bytes, hbytes⟩ := h id (List.mem_cons_self ..)
    rw [addEach_cons (hconfig ▸ hbytes), recodings_cons hbytes, insertEach]
    refine bind_congr fun new middle hinsert => ih ?_ ?_ _
    · exact (config_of_insert hinsert).trans hconfig
    · exact fun other hother => h other (List.mem_cons_of_mem _ hother)

/-- A list that cannot be loaded or encoded ends the run. -/
theorem addEach_of_error {id : Nat} {error : Error}
    (h : recoded factory.config store id = .error error) (ids : List Nat) (done : Array Nat) :
    addEach store (id :: ids) done factory = .error error factory := by
  rw [addEach]
  rcases recoded_eq_error.1 h with hload | ⟨set, hload, hbytes⟩
  · rw [hload]
    rfl
  · have hadd : addSet set factory = .error error factory := by
      show (lift (bytesOf factory.config set) >>= insert) factory = _
      rw [hbytes]
      rfl
    rw [hload]
    show (addSet set >>= fun new => addEach store ids (done.push new)) factory = _
    exact bind_of_error hadd

theorem fault?_eq_some {answer : Except Error ByteArray} {error : Error} :
    fault? answer = some error ↔ answer = .error error := by
  cases answer with
  | ok bytes => simp [fault?]
  | error other => simp [fault?]

/-- The errors of the lists of some ids that cannot be loaded or encoded. -/
def faults (config : Config) (store : Store) (ids : List Nat) : List Error :=
  ids.filterMap fun id => fault? (recoded config store id)

theorem mem_faults {ids : List Nat} {error : Error} :
    error ∈ faults config store ids ↔ ∃ id ∈ ids, recoded config store id = .error error := by
  simp only [faults, List.mem_filterMap, fault?_eq_some]

theorem faults_cons {id : Nat} {error : Error} (h : recoded config store id = .error error)
    (ids : List Nat) : faults config store (id :: ids) = error :: faults config store ids := by
  have hfault : fault? (recoded config store id) = some error := fault?_eq_some.2 h
  simp only [faults, List.filterMap_cons, hfault]

theorem faults_eq_nil {ids : List Nat} (h : ∀ id ∈ ids, Recodes config store id) :
    faults config store ids = [] := by
  rw [List.eq_nil_iff_forall_not_mem]
  intro error herror
  obtain ⟨id, hid, hfault⟩ := mem_faults.1 herror
  obtain ⟨bytes, hbytes⟩ := h id hid
  exact absurd (hfault.symm.trans hbytes) (by simp)

theorem encodeEach_eq (config : Config) (store : Store) (pick : Nat) (ids : List Nat) :
    encodeEach config store pick ids =
      match (faults config store ids)[pick % (faults config store ids).length]? with
      | some error => .error error
      | none => .ok (recodings config store ids) := by
  simp only [encodeEach, List.filterMap_map]
  rfl

theorem encodeEach_of_ok {ids : List Nat} (h : ∀ id ∈ ids, Recodes config store id) (pick : Nat) :
    encodeEach config store pick ids = .ok (recodings config store ids) := by
  rw [encodeEach_eq, faults_eq_nil h]
  rfl

theorem encodeEach_of_mem_faults {ids : List Nat} {error : Error}
    (h : error ∈ faults config store ids) (pick : Nat) :
    ∃ reported,
      (faults config store ids)[pick % (faults config store ids).length]? = some reported ∧
        encodeEach config store pick ids = .error reported := by
  have hlt := Nat.mod_lt pick (List.length_pos_of_mem h)
  have hat := List.getElem?_eq_getElem hlt
  exact ⟨_, hat, by rw [encodeEach_eq, hat]⟩

/-- Where lists cannot be loaded or encoded, the error is that of one of them; the first one's if
the errors are not counted through. -/
theorem encodeEach_of_error {before : List Nat} {id : Nat} {error : Error}
    (hbefore : ∀ other ∈ before, Recodes config store other)
    (h : recoded config store id = .error error) (rest : List Nat) (pick : Nat) :
    ∃ culprit ∈ id :: rest, ∃ reported, recoded config store culprit = .error reported ∧
      encodeEach config store pick (before ++ id :: rest) = .error reported ∧
      (pick = 0 → culprit = id) := by
  have hsplit : faults config store (before ++ id :: rest)
      = error :: faults config store rest := by
    rw [faults, List.filterMap_append, ← faults, ← faults, faults_eq_nil hbefore, List.nil_append,
      faults_cons h]
  obtain ⟨reported, hreported, hencode⟩ := encodeEach_of_mem_faults
    (hsplit ▸ List.mem_cons_self .. : error ∈ faults config store (before ++ id :: rest)) pick
  by_cases hfirst : pick = 0
  · rw [hfirst, Nat.zero_mod, hsplit] at hreported
    obtain rfl := Option.some.inj hreported
    exact ⟨id, List.mem_cons_self .., error, h, hencode, fun _ => rfl⟩
  · have hmem := List.mem_of_getElem? hreported
    rw [hsplit, ← faults_cons h] at hmem
    obtain ⟨culprit, hculprit, hfault⟩ := mem_faults.1 hmem
    exact ⟨culprit, hculprit, reported, hfault, hencode, fun hzero => absurd hzero hfirst⟩

/-! ### Batches -/

/-- The ids of the batch that starts at an id. -/
def batchFrom (store : Store) (start : Nat) : List Nat :=
  List.range' start (min store.size (start + batchSize) - start)

variable {pick : Nat}

theorem insertFrom_of_size_le {start : Nat} (h : store.size ≤ start) (done : Array Nat) :
    insertFrom store pick start done = return done := by
  rw [insertFrom, if_neg (Nat.not_lt.2 h)]

theorem insertFrom_of_lt {start : Nat} (h : start < store.size) (done : Array Nat) :
    insertFrom store pick start done factory
      = (do
          let encoded ← lift (encodeEach factory.config store pick (batchFrom store start))
          insertFrom store pick (min store.size (start + batchSize))
            (← insertEach encoded done)) factory := by
  rw [insertFrom, if_pos h]
  simp only [← List.range'_eq_map_range]
  rfl

/-- A batch whose lists can be loaded and encoded is a run of insertions. -/
theorem insertFrom_of_ok (hconfig : factory.config = config) {start stop : Nat}
    (hstart : start < store.size) (hstop : stop = min store.size (start + batchSize))
    (h : ∀ id, start ≤ id → id < stop → Recodes config store id) (done : Array Nat) :
    insertFrom store pick start done factory
      = (insertEach (recodings config store (List.range' start (stop - start))) done
          >>= insertFrom store pick stop) factory := by
  have hids : ∀ id ∈ batchFrom store start, Recodes config store id := by
    intro id hid
    rw [batchFrom, ← hstop, List.mem_range'_1] at hid
    exact h id hid.1 (by omega)
  rw [insertFrom_of_lt hstart, hconfig, encodeEach_of_ok hids, batchFrom, ← hstop]
  rfl

/-- Batches are one run of insertions, up to where the last of them ends. -/
theorem insertFrom_eq (hconfig : factory.config = config) {start stop : Nat} (hle : start ≤ stop)
    (hstop : stop ≤ store.size) (hwhole : stop = store.size ∨ batchSize ∣ stop - start)
    (h : ∀ id, start ≤ id → id < stop → Recodes config store id) (done : Array Nat) :
    insertFrom store pick start done factory
      = (insertEach (recodings config store (List.range' start (stop - start))) done
          >>= insertFrom store pick stop) factory := by
  generalize hleft : stop - start = left at *
  induction left using Nat.strongRecOn generalizing start done factory with
  | _ left ih =>
    rcases Nat.eq_or_lt_of_le hle with rfl | hlt
    · obtain rfl : left = 0 := by omega
      show _ = (insertEach [] done >>= insertFrom store pick start) factory
      rw [insertEach, pure_bind]
    · -- The first batch ends at `stop` or before it, and the others end where they did.
      obtain ⟨next, hnext⟩ : ∃ next, next = min store.size (start + batchSize) := ⟨_, rfl⟩
      have hpos : 0 < batchSize := by decide
      have hbounds : start < next ∧ next ≤ stop ∧
          (stop = store.size ∨ batchSize ∣ stop - next) := by
        rcases hwhole with hwhole | hwhole
        · exact ⟨by omega, by omega, .inl hwhole⟩
        · have hbatch := Nat.le_of_dvd (by omega) hwhole
          have hdvd := Nat.dvd_sub hwhole (Nat.dvd_refl batchSize)
          refine ⟨by omega, by omega, .inr ?_⟩
          rwa [show stop - next = left - batchSize by omega]
      have hsplit : List.range' start left
          = List.range' start (next - start) ++ List.range' next (stop - next) := by
        rw [show left = (next - start) + (stop - next) by omega, ← List.range'_append_1,
          show start + (next - start) = next by omega]
      rw [insertFrom_of_ok hconfig (by omega) hnext fun id hid hlt => h id hid (by omega), hsplit,
        recodings, recodings, List.filterMap_append, insertEach_append, bind_assoc]
      refine bind_congr fun ids middle hinsert => ?_
      exact ih (stop - next) (by omega) ((config_of_insertEach hinsert).trans hconfig) hbounds.2.1
        (fun id hid => h id (by omega)) ids rfl hbounds.2.2

/-- If all lists of a store can be loaded and encoded, inserting it is one run of insertions. -/
theorem insertStore_of_ok (hconfig : factory.config = config)
    (h : ∀ id < store.size, Recodes config store id) (pick : Nat) :
    insertStore store pick factory
      = insertEach (recodings config store (List.range store.size)) #[] factory := by
  rw [insertStore, insertFrom_eq hconfig (Nat.zero_le _) (Nat.le_refl _) (.inl rfl)
    fun id _ => h id, Nat.sub_zero, ← List.range_eq_range']
  rw [show insertFrom store pick store.size = pure from
    funext (insertFrom_of_size_le (Nat.le_refl store.size)), bind_pure]

/-- The batch in which a list stands, cut at that list. -/
theorem batchFrom_eq {failing : Nat} (hfailing : failing < store.size) :
    ∃ before rest, batchFrom store (failing / batchSize * batchSize) = before ++ failing :: rest ∧
      (∀ id ∈ before, id < failing) ∧
      ∀ id ∈ failing :: rest, id < store.size ∧ id / batchSize = failing / batchSize := by
  obtain ⟨start, hstart⟩ : ∃ start, start = failing / batchSize * batchSize := ⟨_, rfl⟩
  have hpos : 0 < batchSize := by decide
  have hle : start ≤ failing := hstart ▸ Nat.div_mul_le_self failing batchSize
  have hlt : failing < start + batchSize := by
    rw [hstart, Nat.mul_comm]
    exact Nat.lt_mul_div_succ failing hpos
  rw [← hstart]
  obtain ⟨stop, hstop⟩ : ∃ stop, stop = min store.size (start + batchSize) := ⟨_, rfl⟩
  refine ⟨List.range' start (failing - start), List.range' (failing + 1) (stop - (failing + 1)),
    ?_, fun id hid => ?_, fun id hid => ?_⟩
  · rw [batchFrom, ← hstop, ← List.range'_succ, show failing = start + (failing - start) by omega,
      Nat.add_sub_cancel_left, List.range'_append_1]
    congr 1
    omega
  · rw [List.mem_range'_1] at hid
    omega
  · have hbounds : failing ≤ id ∧ id < stop := by
      rcases List.mem_cons.1 hid with rfl | hid
      · omega
      · rw [List.mem_range'_1] at hid
        omega
    refine ⟨by omega, Nat.div_eq_of_lt_le ?_ ?_⟩
    · exact hstart ▸ Nat.le_trans hle hbounds.1
    · rw [Nat.add_mul, Nat.one_mul, ← hstart]
      omega

/-- The first list that cannot be loaded or encoded ends the insertion of its store, once the
complete batches before it are inserted, with an error of its batch. -/
theorem insertStore_of_error (hconfig : factory.config = config) {failing : Nat} {error : Error}
    (hfailing : failing < store.size) (hbefore : ∀ id < failing, Recodes config store id)
    (h : encodeEach config store pick (batchFrom store (failing / batchSize * batchSize))
      = .error error) :
    insertStore store pick factory
      = (insertEach (recodings config store (List.range (failing / batchSize * batchSize))) #[]
          >>= fun _ => throw error) factory := by
  have hle := Nat.div_mul_le_self failing batchSize
  rw [insertStore, insertFrom_eq hconfig (Nat.zero_le (failing / batchSize * batchSize)) (by omega)
    (.inr (by rw [Nat.sub_zero]; exact Nat.dvd_mul_left _ _))
    fun id _ hid => hbefore id (by omega), Nat.sub_zero, ← List.range_eq_range']
  refine bind_congr fun ids middle hinsert => ?_
  -- The batch in which the list stands is not encoded as a whole, so none of it is inserted.
  rw [insertFrom_of_lt (by omega), config_of_insertEach hinsert, hconfig, h]
  rfl

end Postings.Factory
