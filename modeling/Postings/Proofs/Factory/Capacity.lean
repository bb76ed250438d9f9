/-
How many lists a factory can express.

An id is a 32-bit number, and lists are stored as long as there is an id for the next one: all in
all 2^32 of them.  But the number of lists is a 32-bit number too, where a factory reports it and
where the table of a store announces it, and 2^32 is none.  So the list under the last id is one
too many: a factory that has stored it reports that it is empty, and has no bytes any more.

* `Factory.Expressible`, `Factory.expressible_iff` — what a factory stores can be counted and
  written down, which takes one list less than there are ids;
* `Factory.insert_eq_overflow_iff` — bytes are refused when every id is given;
* `Factory.Answered`, `Factory.filled_singles`, `Factory.not_expressible_singles` — a run that is
  given every id;
* `Factory.expressible_runCalls` — whatever is called;
* `Factory.not_expressible_of_every_id` — the list that is one too many.
-/
import Postings.Proofs.Factory.Identity
import Postings.Proofs.Factory.Ids
import Postings.Proofs.Store.Exact
import Postings.Proofs.Store.Stats

namespace Postings

open Layout

/-- As many numbers as can be announced are not too many to be written. -/
theorem Layout.Line.encode_ne_elements {fit : List Nat → UInt64} {values : List Nat}
    {out : ByteArray} {count : Nat} (hlength : values.length < 2 ^ 32) :
    encode fit values out ≠ .error (.overflow (.elements count)) := by
  rw [encode, encodeAlong, if_neg (Nat.not_le.2 hlength)]
  rcases values with - | ⟨first, - | ⟨second, rest⟩⟩
  · simp
  · simp
  · simp only [encodeFitted]
    split
    · simp
    · split
      · simp
      · simp

namespace Factory

variable {config : Config} {factory first : Factory} {bytes : ByteArray} {fingerprint : Fingerprint}

/-- The lists that a factory stores can be counted, and their offsets can be written down. -/
structure Expressible (factory : Factory) : Prop where
  /-- The reported number is that of the lists. -/
  size_eq : factory.size = factory.offsets.size
  /-- The table of a store can announce that number. -/
  announced : ∀ fit out, Line.encode fit factory.offsets.toList out
    ≠ .error (.overflow (.elements factory.offsets.size))

theorem expressible_iff : factory.Expressible ↔ factory.offsets.size < 2 ^ 32 := by
  constructor
  · intro h
    rw [← h.size_eq, size]
    exact Nat.mod_lt _ (by decide)
  · intro hfew
    exact ⟨Nat.mod_eq_of_lt hfew, fun fit out => Line.encode_ne_elements hfew⟩

/-- The ids of lists are those below their number. -/
theorem exists_stored?_iff {id : Nat} :
    (∃ bytes, factory.stored? id = some bytes) ↔ id < factory.offsets.size := by
  constructor
  · rintro ⟨bytes, hstored⟩
    exact lt_size_of_stored? hstored
  · intro hid
    rw [stored?, Array.getElem?_eq_getElem hid]
    exact ⟨_, rfl⟩

/-- A table of more offsets than it can announce is not written. -/
theorem flush_of_full (hfull : 2 ^ 32 ≤ factory.offsets.size) :
    factory.flush = .error (.overflow (.elements factory.offsets.size)) := by
  have htable : Line.encode factory.config.tuning.fit factory.offsets.toList ByteArray.empty
      = .error (.overflow (.elements factory.offsets.size)) := by
    rw [Line.encode, Line.encodeAlong]
    exact if_pos hfull
  rw [flush, flushTo_eq, htable]
  rfl

/-! ### Insertions until there is no id left -/

theorem size_le_after_insert (bytes : ByteArray) (factory : Factory)
    (h : factory.offsets.size ≤ 2 ^ 32) : (after (insert bytes factory)).offsets.size ≤ 2 ^ 32 := by
  rcases insert_cases bytes factory with ⟨id, -, hinsert⟩ | ⟨hroom, buckets, hinsert⟩ |
    ⟨-, hinsert⟩
  · rw [hinsert]
    exact h
  · rw [hinsert]
    show (factory.offsets.push factory.data.size).size ≤ 2 ^ 32
    rw [Array.size_push]
    exact hroom
  · rw [hinsert]
    exact h

theorem size_runCalls_le_of_make (hmake : make config fingerprint = .ok first)
    (calls : List Call) : (first.runCalls calls).offsets.size ≤ 2 ^ 32 := by
  refine after_runCalls size_le_after_insert ?_ calls
  rw [size_of_make hmake]
  decide

/-- Bytes are refused when every id is given, unless they share one. -/
theorem insert_eq_overflow_iff (h : factory.Indexed) :
    insert bytes factory = .error (.overflow .ids) factory ↔
      2 ^ 32 ≤ factory.offsets.size ∧
        (factory.config.deduplicate = true → ∀ id, factory.stored? id ≠ some bytes) := by
  have hinsertion := h.insertion bytes
  generalize insert bytes factory = result at hinsertion
  cases hinsertion with
  | found id hdedup hstored =>
    exact iff_of_false (by simp) fun hfull => hfull.2 hdedup id hstored
  | added buckets hnew hroom =>
    exact iff_of_false (by simp) fun hfull => Nat.not_le.2 hroom hfull.1
  | full hnew hfull => exact iff_of_true rfl ⟨hfull, hnew⟩

/-- Bytes that are not stored are stored under the next id, if there is one. -/
theorem Indexed.exists_insert_new (h : factory.Indexed)
    (hnew : ∀ id, factory.stored? id ≠ some bytes) (hroom : factory.offsets.size < 2 ^ 32) :
    ∃ last, insert bytes factory = .ok factory.offsets.size last ∧
      last.offsets.size = factory.offsets.size + 1 ∧
      ∀ id other, last.stored? id = some other →
        factory.stored? id = some other ∨ other = bytes := by
  have hinsertion := h.insertion bytes
  generalize insert bytes factory = result at hinsertion
  cases hinsertion with
  | found id hdedup hstored => exact absurd hstored (hnew id)
  | full _ hfull => exact absurd hroom (Nat.not_lt.2 hfull)
  | added buckets =>
    refine ⟨_, rfl, Array.size_push _, fun id other hstored => ?_⟩
    rcases (stored?_grow_eq_some h.inside).1 hstored with hold | ⟨-, rfl⟩
    · exact .inl hold
    · exact .inr rfl

/-! ### A run that is given every id -/

/-- All calls are answered, one after the other. -/
def Answered : Factory → List Call → Prop
  | _, [] => True
  | factory, call :: rest =>
    (∃ ids final, call.run factory = .ok ids final) ∧ Answered (after (call.run factory)) rest

theorem answered_append {calls more : List Call} : factory.Answered (calls ++ more) ↔
    factory.Answered calls ∧ (factory.runCalls calls).Answered more := by
  induction calls generalizing factory with
  | nil => exact (and_iff_right trivial).symm
  | cons call rest ih =>
    rw [List.cons_append, Answered, Answered, ih, and_assoc]
    rfl

/-- Lists of one item each, from 0 on. -/
def singles (count : Nat) : List Call :=
  (List.range count).map fun number => .addItems [UInt32.ofNat number]

theorem singles_succ (count : Nat) :
    singles (count + 1) = singles count ++ [.addItems [UInt32.ofNat count]] := by
  rw [singles, List.range_succ, List.map_append]
  rfl

/-- What a factory stores that was given the lists of one item below a number. -/
structure Filled (config : Config) (factory : Factory) (count : Nat) : Prop where
  indexed : factory.Indexed
  config_eq : factory.config = config
  size_eq : factory.offsets.size = count + 1
  known : ∀ id bytes, factory.stored? id = some bytes → ∃ items : List Item,
    encodeItems config items = .ok bytes ∧
      (items = [] ∨ ∃ number < count, items = [UInt32.ofNat number])

theorem filled_of_make (hmake : make config fingerprint = .ok first) :
    Filled config first 0 := by
  refine ⟨indexed_of_make hmake, config_of_make hmake, size_of_make hmake, ?_⟩
  obtain ⟨-, empty, hempty, hinsert⟩ := make_eq_ok.1 hmake
  intro id bytes hstored
  have hlogged := (logged_blank config fingerprint).insert hinsert
  have hhanded := hlogged.mem_handed.2 ⟨id, hstored⟩
  obtain rfl : bytes = empty := List.mem_singleton.1 hhanded
  exact ⟨[], hempty, .inl rfl⟩

/-- Another list of one item has bytes of its own. -/
theorem Filled.stored?_ne {count : Nat} (h : Filled config factory count)
    (hblock : config.tuning.blockSize < 2 ^ 32) (hcount : count < 2 ^ 32)
    (hbytes : encodeItems config [UInt32.ofNat count] = .ok bytes) (id : Nat) :
    factory.stored? id ≠ some bytes := by
  intro hstored
  obtain ⟨items, hitems, hknown⟩ := h.known id bytes hstored
  have hsingle : ∀ item : Item, Ascending [item] := fun item => List.pairwise_singleton ..
  rcases hknown with rfl | ⟨number, hnumber, rfl⟩
  · have hsame := encodeItems_inj hblock (by decide) List.Pairwise.nil (by simp) (hsingle _)
      hitems hbytes
    exact absurd hsame (by simp)
  · have hsame := encodeItems_inj hblock (by simp) (hsingle _) (by simp) (hsingle _) hitems hbytes
    have hequal := congrArg UInt32.toNat (List.cons.inj hsame).1
    rw [UInt32.toNat_ofNat', UInt32.toNat_ofNat'] at hequal
    omega

/-- Another list of one item is stored under the next id. -/
theorem Filled.step {count : Nat} (h : Filled config factory count)
    (hzero : config.tuning.blockSize ≠ 0) (hblock : config.tuning.blockSize < 2 ^ 32)
    (hcount : count + 1 < 2 ^ 32) :
    ∃ ids final, (Call.addItems [UInt32.ofNat count]).run factory = .ok ids final ∧
      Filled config final (count + 1) := by
  have hascend : Ascending [UInt32.ofNat count] := List.pairwise_singleton ..
  obtain ⟨bytes, hbytes⟩ := exists_encodeItems hzero hblock (by simp) hascend
  have hnew := h.stored?_ne hblock (Nat.lt_of_succ_lt hcount) hbytes
  obtain ⟨final, hinsert, hsize, hstored⟩ :=
    h.indexed.exists_insert_new hnew (by rw [h.size_eq]; exact hcount)
  have hadd : addItems [UInt32.ofNat count] factory = .ok factory.offsets.size final := by
    rw [addItems_eq, h.config_eq, bytesOfItems, firstDescent?_eq_none.2 hascend, hbytes]
    exact hinsert
  have hrun : (Call.addItems [UInt32.ofNat count]).run factory
      = .ok #[factory.offsets.size] final := bind_of_ok hadd
  have hafter := h.indexed.after_insert bytes
  rw [hinsert] at hafter
  refine ⟨_, final, hrun, hafter, (config_of_insert hinsert).trans h.config_eq,
    by rw [hsize, h.size_eq], fun id other hother => ?_⟩
  rcases hstored id other hother with hold | rfl
  · obtain ⟨items, hitems, hknown⟩ := h.known id other hold
    refine ⟨items, hitems, hknown.imp_right ?_⟩
    rintro ⟨number, hnumber, hitem⟩
    exact ⟨number, Nat.lt_succ_of_lt hnumber, hitem⟩
  · exact ⟨_, hbytes, .inr ⟨count, Nat.lt_succ_self count, rfl⟩⟩

/-- The lists of one item below a number are all stored, as long as there are ids. -/
theorem filled_singles (hblock : config.tuning.blockSize < 2 ^ 32)
    (hmake : make config fingerprint = .ok first) {count : Nat} (hcount : count < 2 ^ 32) :
    first.Answered (singles count) ∧ Filled config (first.runCalls (singles count)) count := by
  induction count with
  | zero => exact ⟨trivial, filled_of_make hmake⟩
  | succ count ih =>
    obtain ⟨hanswered, hfilled⟩ := ih (Nat.lt_of_succ_lt hcount)
    obtain ⟨ids, final, hrun, hnext⟩ := hfilled.step (make_eq_ok.1 hmake).1 hblock hcount
    rw [singles_succ]
    refine ⟨answered_append.2 ⟨hanswered, ⟨ids, final, hrun⟩, trivial⟩, ?_⟩
    rw [runCalls_append_cons, hrun]
    exact hnext

/-- The list of one item that is given the last id is one too many. -/
theorem not_expressible_singles (hblock : config.tuning.blockSize < 2 ^ 32)
    (hmake : make config fingerprint = .ok first) {count : Nat} (hlast : count + 1 = 2 ^ 32) :
    first.Answered (singles count) ∧
      (∀ id < 2 ^ 32, ∃ bytes, (first.runCalls (singles count)).stored? id = some bytes) ∧
      (first.runCalls (singles count)).size = 0 ∧
      (first.runCalls (singles count)).flush = .error (.overflow (.elements (2 ^ 32))) ∧
      ¬ (first.runCalls (singles count)).Expressible := by
  have hcount : count < 2 ^ 32 := hlast ▸ Nat.lt_succ_self count
  obtain ⟨hanswered, hfilled⟩ := filled_singles hblock hmake hcount
  have hsize := hfilled.size_eq.trans hlast
  refine ⟨hanswered, fun id hid => exists_stored?_iff.2 (hsize ▸ hid), ?_, ?_, ?_⟩
  · rw [size, hsize, Nat.mod_self]
  · rw [flush_of_full (Nat.le_of_eq hsize.symm), hsize]
  · rw [expressible_iff, hsize]
    exact Nat.lt_irrefl _

/-! ### Whatever is called -/

/-- Whatever is called, ids are those of the first so many lists, and of at most 2^32.  Fewer are
reported as they are, can be announced, and are what a store that is flushed has; all of them
are reported as none, and never flushed.  Other lists are refused from there on, not before. -/
theorem expressible_runCalls (config : Config) (fingerprint : Fingerprint) (calls : List Call)
    (hmake : make config fingerprint = .ok first) : ∃ count ≤ 2 ^ 32,
      (∀ id, (∃ bytes, (first.runCalls calls).stored? id = some bytes) ↔ id < count) ∧
      (first.runCalls calls).size = count % 2 ^ 32 ∧
      ((first.runCalls calls).Expressible ↔ count < 2 ^ 32) ∧
      (∀ bytes, insert bytes (first.runCalls calls)
          = .error (.overflow .ids) (first.runCalls calls) ↔
        count = 2 ^ 32 ∧
          (config.deduplicate = true → ∀ id, (first.runCalls calls).stored? id ≠ some bytes)) ∧
      (count = 2 ^ 32 → (first.runCalls calls).size = 0 ∧
        (first.runCalls calls).flush = .error (.overflow (.elements count))) ∧
      ∀ bytes, (first.runCalls calls).flush = .ok bytes →
        (first.runCalls calls).data.size < 2 ^ 64 →
        ∃ store, Store.ofBytes bytes = .ok store ∧ store.size = count ∧
          store.size = (first.runCalls calls).size := by
  have hle := size_runCalls_le_of_make hmake calls
  have hindexed := ((indexed_of_make hmake).extends_runCalls calls).indexed
  have hlaid := (laid_of_make hmake).runCalls calls
  have hconfig : (first.runCalls calls).config = config := by
    rw [config_runCalls, config_of_make hmake]
  generalize first.runCalls calls = last at hle hindexed hlaid hconfig ⊢
  refine ⟨last.offsets.size, hle, fun id => exists_stored?_iff, rfl, expressible_iff,
    fun bytes => ?_, fun hfull => ⟨?_, flush_of_full (Nat.le_of_eq hfull.symm)⟩,
    fun bytes hflush hdata => ?_⟩
  · have hsame : 2 ^ 32 ≤ last.offsets.size ↔ last.offsets.size = 2 ^ 32 :=
      ⟨fun hge => Nat.le_antisymm hle hge, fun heq => Nat.le_of_eq heq.symm⟩
    rw [insert_eq_overflow_iff hindexed, hconfig, hsame]
  · rw [size, hfull, Nat.mod_self]
  · obtain ⟨store, head, table, hparts, rfl, htotal, -, -, hsize, -⟩ :=
      hlaid.exists_parts hdata hflush
    have hfew : last.offsets.size < 2 ^ 32 := hsize ▸ hparts.size_lt
    refine ⟨store, hparts.opens htotal, hsize, ?_⟩
    rw [hsize, size, Nat.mod_eq_of_lt hfew]

theorem expressible_runCalls_native :
    ∃ first, make { codec := .native, tuning := { fit := fun _ => 5 }, deduplicate := false }
        (fun _ => 0) = .ok first ∧
      (first.runCalls [.addItems [3, 7]]).Expressible ∧
      ∀ bytes, insert bytes (first.runCalls [.addItems [3, 7]])
        ≠ .error (.overflow .ids) (first.runCalls [.addItems [3, 7]]) := by
  obtain ⟨first, hmake⟩ : ∃ first,
      make { codec := .native, tuning := { fit := fun _ => 5 }, deduplicate := false }
        (fun _ => 0) = .ok first := ⟨_, rfl⟩
  have hsize : (first.runCalls [.addItems [3, 7]]).size = 2 := by
    obtain rfl := Except.ok.inj hmake
    rfl
  obtain ⟨count, hle, -, hcount, hexpressible, hinsert, hfull, -⟩ :=
    expressible_runCalls _ (fun _ => 0) [.addItems [3, 7]] hmake
  have hne : count ≠ 2 ^ 32 := fun heq => absurd ((hfull heq).1.symm.trans hsize) (by decide)
  exact ⟨first, hmake, hexpressible.2 (Nat.lt_of_le_of_ne hle hne),
    fun bytes hrefused => hne ((hinsert bytes).1 hrefused).1⟩

/-- With or without shared ids, the lists of one item below 2^32 - 1 are all stored beside the empty
one.  The factory then has a list under every id; it reports none, and cannot be flushed. -/
theorem not_expressible_of_every_id : ∃ shared separate : Factory,
    make { codec := .native, deduplicate := true } (fun _ => 0) = .ok shared ∧
    make { codec := .native, deduplicate := false } (fun _ => 0) = .ok separate ∧
    ∀ first ∈ [shared, separate], first.Answered (singles (2 ^ 32 - 1)) ∧
      (∀ id < 2 ^ 32, ∃ bytes, (first.runCalls (singles (2 ^ 32 - 1))).stored? id = some bytes) ∧
      (first.runCalls (singles (2 ^ 32 - 1))).size = 0 ∧
      (first.runCalls (singles (2 ^ 32 - 1))).flush = .error (.overflow (.elements (2 ^ 32))) ∧
      ¬ (first.runCalls (singles (2 ^ 32 - 1))).Expressible := by
  have hzero : ({} : Tuning).blockSize ≠ 0 := by decide
  have hblock : ({} : Tuning).blockSize < 2 ^ 32 := by decide
  have hmake : ∀ deduplicate, ∃ first,
      make { codec := .native, deduplicate } (fun _ => 0) = .ok first := fun _ =>
    exists_make _ hzero (exists_encodeItems hzero hblock (by decide) List.Pairwise.nil)
  obtain ⟨shared, hshared⟩ := hmake true
  obtain ⟨separate, hseparate⟩ := hmake false
  refine ⟨shared, separate, hshared, hseparate, fun first hfirst => ?_⟩
  rcases List.mem_pair.1 hfirst with rfl | rfl
  · exact not_expressible_singles hblock hshared (by decide)
  · exact not_expressible_singles hblock hseparate (by decide)

end Factory

end Postings
