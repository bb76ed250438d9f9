/-
Finding the bytes that a factory stores.

The bucket of a fingerprint may hold ids of any bytes that share it, so a lookup
compares byte for byte.  What makes its answer complete is an invariant: every
stored entry is in the bucket of its own fingerprint, and no two entries have equal
bytes.  With it, inserting does the same whatever the fingerprint is.

* `Factory.Indexed` — the invariant;
* `Factory.Indexed.lookup_eq_some` — a lookup finds bytes exactly where they are stored;
* `Factory.Insertion`, `Factory.Indexed.insertion` — all that inserting can do;
* `Factory.Extends` — what is stored stays where it is.
-/
import Postings.Proofs.Factory

namespace Postings.Factory

variable {factory : Factory} {bytes : ByteArray}

/-- The offsets stay inside the data; and where equal bytes share an id, every entry is known
under its fingerprint and stored once. -/
structure Indexed (factory : Factory) : Prop where
  inside : ∀ start ∈ factory.offsets, start ≤ factory.data.size
  known : factory.config.deduplicate = true → ∀ id bytes, factory.stored? id = some bytes →
    id ∈ factory.buckets.getD (factory.fingerprint bytes) #[]
  unique : factory.config.deduplicate = true → ∀ id other bytes,
    factory.stored? id = some bytes → factory.stored? other = some bytes → id = other

/-- A lookup finds bytes exactly where they are stored. -/
theorem Indexed.lookup_eq_some (h : factory.Indexed) (hdedup : factory.config.deduplicate = true)
    {id : Nat} : factory.lookup (factory.fingerprint bytes) bytes = some id ↔
      factory.stored? id = some bytes := by
  refine ⟨stored?_of_lookup, fun hstored => ?_⟩
  have hsame : (factory.stored? id == some bytes) = true := by
    rw [hstored, Option.some_beq_some, beq_bytes]
  have hsome : (factory.lookup (factory.fingerprint bytes) bytes).isSome = true :=
    Array.find?_isSome.2 ⟨id, h.known hdedup id bytes hstored, hsame⟩
  obtain ⟨found, hfound⟩ := Option.isSome_iff_exists.1 hsome
  rw [hfound, h.unique hdedup found id bytes (stored?_of_lookup hfound) hstored]

/-- The entries are those that there were, and the new bytes under the next id. -/
theorem stored?_grow_eq_some (hinside : ∀ start ∈ factory.offsets, start ≤ factory.data.size)
    {id : Nat} {other : ByteArray} : (factory.grow bytes).stored? id = some other ↔
      factory.stored? id = some other ∨ id = factory.offsets.size ∧ bytes = other := by
  constructor
  · intro h
    have hid := lt_size_of_stored? h
    simp only [grow, Array.size_push] at hid
    by_cases hnew : id = factory.offsets.size
    · rw [hnew, stored?_grow_size] at h
      exact .inr ⟨hnew, Option.some.inj h⟩
    · rw [stored?_grow_of_lt hinside (by omega)] at h
      exact .inl h
  · rintro (h | ⟨rfl, rfl⟩)
    · rw [stored?_grow_of_lt hinside (lt_size_of_stored? h), h]
    · exact stored?_grow_size

/-- Bytes that were not stored are known from now on, and stored once. -/
theorem Indexed.grow (h : factory.Indexed) {buckets : Std.HashMap UInt64 (Array Nat)}
    (hnew : factory.config.deduplicate = true → ∀ id, factory.stored? id ≠ some bytes)
    (hbuckets : factory.config.deduplicate = true → buckets
      = factory.buckets.insert (factory.fingerprint bytes)
        ((factory.buckets.getD (factory.fingerprint bytes) #[]).push factory.offsets.size)) :
    Indexed { factory.grow bytes with buckets := buckets } where
  inside start hstart := by
    rcases Array.mem_push.1 hstart with hold | rfl
    · have := h.inside start hold
      simp only [Factory.grow, ByteArray.size_append]
      omega
    · simp only [Factory.grow, ByteArray.size_append]
      omega
  known hdedup id other hstored := by
    show id ∈ buckets.getD (factory.fingerprint other) #[]
    rw [hbuckets hdedup, Std.HashMap.getD_insert]
    rcases (stored?_grow_eq_some h.inside).1 hstored with hold | ⟨rfl, rfl⟩
    · have hmem := h.known hdedup id other hold
      split
      next hmark =>
        rw [← eq_of_beq hmark] at hmem
        exact Array.mem_push_of_mem _ hmem
      next => exact hmem
    · rw [if_pos (beq_self_eq_true _)]
      exact Array.mem_push_self
  unique hdedup id other stored hid hother := by
    rcases (stored?_grow_eq_some h.inside).1 hid with hid | ⟨rfl, rfl⟩
    · rcases (stored?_grow_eq_some h.inside).1 hother with hother | ⟨rfl, rfl⟩
      · exact h.unique hdedup id other stored hid hother
      · exact absurd hid (hnew hdedup id)
    · rcases (stored?_grow_eq_some h.inside).1 hother with hother | ⟨rfl, -⟩
      · exact absurd hother (hnew hdedup other)
      · rfl

/-- What inserting bytes answers, and what becomes of the factory. -/
inductive Insertion (factory : Factory) (bytes : ByteArray) :
    EStateM.Result Error Factory Nat → Prop
  /-- Equal bytes are stored, and may be shared. -/
  | found (id : Nat) (hdedup : factory.config.deduplicate = true)
    (hstored : factory.stored? id = some bytes) :
    Insertion factory bytes (.ok id { factory with hits := factory.hits + 1 })
  /-- The bytes are new, or are not to be shared. -/
  | added (buckets : Std.HashMap UInt64 (Array Nat))
    (hnew : factory.config.deduplicate = true → ∀ id, factory.stored? id ≠ some bytes)
    (hroom : factory.offsets.size < 2 ^ 32)
    (hindexed : Indexed { factory.grow bytes with buckets := buckets }) :
    Insertion factory bytes
      (.ok factory.offsets.size { factory.grow bytes with buckets := buckets })
  /-- There is no id left. -/
  | full (hnew : factory.config.deduplicate = true → ∀ id, factory.stored? id ≠ some bytes)
    (hfull : 2 ^ 32 ≤ factory.offsets.size) :
    Insertion factory bytes (.error (.overflow .ids) factory)

theorem Indexed.insertion (h : factory.Indexed) (bytes : ByteArray) :
    Insertion factory bytes (insert bytes factory) := by
  have happend := append_eq bytes factory
  cases hdedup : factory.config.deduplicate with
  | false =>
    have hnew : factory.config.deduplicate = true → ∀ id, factory.stored? id ≠ some bytes := by
      simp [hdedup]
    rw [insert_of_distinct hdedup, happend]
    split
    next hfull => exact .full hnew hfull
    next hroom =>
      exact .added factory.buckets hnew (Nat.lt_of_not_le hroom) (h.grow hnew (by simp [hdedup]))
  | true =>
    rw [insert_of_lookup hdedup]
    cases hlookup : factory.lookup (factory.fingerprint bytes) bytes with
    | some id => exact .found id hdedup (stored?_of_lookup hlookup)
    | none =>
      have hnew : factory.config.deduplicate = true → ∀ id, factory.stored? id ≠ some bytes := by
        intro _ id hstored
        rw [(h.lookup_eq_some hdedup).2 hstored] at hlookup
        exact absurd hlookup (by simp)
      show Insertion factory bytes (EStateM.bind _ _ factory)
      by_cases hfull : 2 ^ 32 ≤ factory.offsets.size
      · rw [if_pos hfull] at happend
        rw [EStateM.bind, happend]
        exact .full hnew hfull
      · rw [if_neg hfull] at happend
        rw [EStateM.bind, happend]
        exact .added _ hnew (Nat.lt_of_not_le hfull) (h.grow hnew fun _ => rfl)

/-- The invariant is kept. -/
theorem Indexed.after_insert (h : factory.Indexed) (bytes : ByteArray) :
    (after (insert bytes factory)).Indexed := by
  have hinsertion := h.insertion bytes
  generalize insert bytes factory = result at hinsertion
  cases hinsertion with
  | found id hdedup hstored => exact ⟨h.inside, h.known, h.unique⟩
  | added buckets hnew hroom hindexed => exact hindexed
  | full hnew hfull => exact h

/-! ### Growth -/

/-- The later factory finds what it stores, and all that was stored stands where it stood. -/
structure Extends (factory later : Factory) : Prop where
  indexed : later.Indexed
  size_le : factory.offsets.size ≤ later.offsets.size
  stored : ∀ id bytes, factory.stored? id = some bytes → later.stored? id = some bytes

theorem Indexed.extends (h : factory.Indexed) : factory.Extends factory :=
  ⟨h, Nat.le_refl _, fun _ _ hstored => hstored⟩

theorem Extends.trans {middle later : Factory} (h : factory.Extends middle)
    (hlater : middle.Extends later) : factory.Extends later :=
  ⟨hlater.indexed, Nat.le_trans h.size_le hlater.size_le,
    fun id bytes hstored => hlater.stored id bytes (h.stored id bytes hstored)⟩

theorem Indexed.extends_insert (h : factory.Indexed) (bytes : ByteArray) :
    factory.Extends (after (insert bytes factory)) := by
  have hafter := h.after_insert bytes
  have hinsertion := h.insertion bytes
  generalize insert bytes factory = result at hafter hinsertion
  cases hinsertion with
  | found id hdedup hstored => exact ⟨hafter, Nat.le_refl _, fun _ _ hold => hold⟩
  | full hnew hfull => exact h.extends
  | added buckets hnew hroom hindexed =>
    refine ⟨hafter, ?_, fun id other hold => (stored?_grow_eq_some h.inside).2 (.inl hold)⟩
    simp [after, Factory.grow]

/-- The id that is answered stands for the bytes. -/
theorem Indexed.stored_of_insert (h : factory.Indexed) {id : Nat} {last : Factory}
    (hinsert : insert bytes factory = .ok id last) : last.stored? id = some bytes := by
  have hinsertion := h.insertion bytes
  rw [hinsert] at hinsertion
  cases hinsertion with
  | found _ hdedup hstored => exact hstored
  | added => exact stored?_grow_size

/-! ### New factories -/

/-- A factory that holds nothing yet. -/
def blank (config : Config) (fingerprint : Fingerprint) : Factory :=
  ⟨config, fingerprint, ByteArray.empty, #[], ∅, 0⟩

/-- A new factory is one that the empty list was added to. -/
theorem make_eq (config : Config) (fingerprint : Fingerprint) :
    make config fingerprint =
      if config.tuning.blockSize = 0 then .error (.unsupported .zeroBlockSize)
      else
        match addItems [] (blank config fingerprint) with
        | .ok _ factory => .ok factory
        | .error error _ => .error error :=
  rfl

theorem indexed_blank (config : Config) (fingerprint : Fingerprint) :
    (blank config fingerprint).Indexed where
  inside start hstart := absurd hstart (Array.not_mem_empty start)
  known _ id _ hstored := absurd (lt_size_of_stored? hstored) (Nat.not_lt_zero id)
  unique _ id _ _ hstored := absurd (lt_size_of_stored? hstored) (Nat.not_lt_zero id)

end Postings.Factory
