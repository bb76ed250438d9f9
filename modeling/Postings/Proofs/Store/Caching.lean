/-
Lists of a store through any cache.

A store asks its cache first and loads what the cache does not give.  Whatever the cache
lets go of, and whenever, the answers are those of loading, as long as it gives under an id
only what was last put there.

* `Caching`, `Caching.Recalls` — caches, and the one thing that is asked of them;
* `Caching.recalls_recent` — the cache of recent lists is one of them;
* `Store.getThrough`, `Store.getThrough_eq` — a list of a store through a cache;
* `Store.get_cacheAfter` — the cache of a store never changes an answer.
-/
import Postings.Proofs.Store.Basic

namespace Postings

/-- A way to hold lists under their ids. -/
structure Caching (C : Type) where
  fresh : C
  find? : C → Nat → Option (ItemSet × C)
  insert : C → Nat → ItemSet → C

namespace Caching

variable {C : Type} {caching : Caching C} {id : Nat} {set : ItemSet}

/-- What is done with a cache. -/
inductive Event where
  | find (id : Nat)
  | insert (id : Nat) (set : ItemSet)

/-- The cache after events, of which the latest comes first. -/
def after (caching : Caching C) : List Event → C
  | [] => caching.fresh
  | .find id :: earlier =>
    match caching.find? (caching.after earlier) id with
    | some (_, cache) => cache
    | none => caching.after earlier
  | .insert id set :: earlier => caching.insert (caching.after earlier) id set

/-- What was last inserted under an id; the latest event comes first. -/
def lastInserted (id : Nat) : List Event → Option ItemSet
  | [] => none
  | .find _ :: earlier => lastInserted id earlier
  | .insert other set :: earlier => if other = id then some set else lastInserted id earlier

/-- A cache gives only what was last inserted under the id. -/
def Recalls (caching : Caching C) : Prop :=
  ∀ events id set cache, caching.find? (caching.after events) id = some (set, cache) →
    lastInserted id events = some set

/-- The lists that were asked for most recently. -/
def recent : Caching Cache :=
  ⟨{}, Cache.find?, Cache.insert⟩

theorem mem_of_find? {cache next : Cache} (h : cache.find? id = some (set, next)) :
    (id, set) ∈ cache.entries ∧
      next.entries = (id, set) :: cache.entries.filter (·.1 != id) := by
  rw [Cache.find?] at h
  cases hfind : cache.entries.find? (·.1 == id) with
  | none =>
    rw [hfind] at h
    exact absurd h (by simp)
  | some entry =>
    obtain ⟨other, found⟩ := entry
    rw [hfind] at h
    obtain ⟨rfl, rfl⟩ := Prod.mk.inj (Option.some.inj h)
    have hsame := List.find?_some hfind
    have hid : other = id := eq_of_beq hsame
    exact ⟨hid ▸ List.mem_of_find?_eq_some hfind, rfl⟩

/-- All that is held was last inserted under its id. -/
theorem lastInserted_of_mem (events : List Event)
    (h : (id, set) ∈ (recent.after events).entries) : lastInserted id events = some set := by
  induction events generalizing id set with
  | nil => exact absurd h List.not_mem_nil
  | cons event earlier ih =>
    cases event with
    | find asked =>
      rw [after] at h
      cases hfind : recent.find? (recent.after earlier) asked with
      | none =>
        rw [hfind] at h
        exact ih h
      | some answer =>
        -- What is found moves to the front, and nothing else is new.
        obtain ⟨found, next⟩ := answer
        rw [hfind] at h
        obtain ⟨hmem, hentries⟩ := mem_of_find? hfind
        have h : (id, set) ∈ next.entries := h
        rw [hentries, List.mem_cons] at h
        rcases h with hsame | hold
        · obtain ⟨rfl, rfl⟩ := Prod.mk.inj hsame
          exact ih hmem
        · exact ih (List.mem_filter.1 hold).1
    | insert other inserted =>
      have h : (id, set) ∈ ((other, inserted) ::
          (recent.after earlier).entries.filter (·.1 != other)).take Cache.capacity := h
      rw [lastInserted]
      rcases List.mem_cons.1 (List.mem_of_mem_take h) with hsame | hold
      · obtain ⟨rfl, rfl⟩ := Prod.mk.inj hsame
        rw [if_pos rfl]
      · obtain ⟨hmem, hother⟩ := List.mem_filter.1 hold
        rw [if_neg (Ne.symm (bne_iff_ne.1 hother))]
        exact ih hmem

theorem recalls_recent : recent.Recalls := by
  intro events id set cache h
  exact lastInserted_of_mem events (mem_of_find? h).1

end Caching

namespace Store

variable {C : Type} {caching : Caching C} {store : Store}

/-- A list of a store, and the cache after it was asked for. -/
def getThrough (store : Store) (caching : Caching C) (id : Nat) (cache : C) :
    Except Error ItemSet × C :=
  match caching.find? cache id with
  | some (set, cache) => (.ok set, cache)
  | none =>
    match store.load id with
    | .ok set => (.ok set, caching.insert cache id set)
    | .error error => (.error error, cache)

/-- A store holds the lists that were asked for most recently. -/
theorem get_eq_getThrough (id : Nat) (cache : Cache) :
    store.get id cache = store.getThrough .recent id cache := by
  have hfind : Caching.recent.find? cache id = cache.find? id := rfl
  rw [get, getThrough, hfind]
  cases cache.find? id with
  | some answer => rfl
  | none =>
    cases store.load id with
    | ok set => rfl
    | error error => rfl

/-- The cache after lists were asked for, one after the other. -/
def cacheThrough (store : Store) (caching : Caching C) (asked : List Nat) : C :=
  asked.foldl (fun cache id => (store.getThrough caching id cache).2) caching.fresh

/-- All that was put into a cache are lists of the store under their ids. -/
def Filled (store : Store) (caching : Caching C) (cache : C) : Prop :=
  ∃ events, cache = caching.after events ∧
    ∀ id set, Caching.lastInserted id events = some set → store.load id = .ok set

theorem getThrough_of_filled (hrecalls : caching.Recalls) {cache : C}
    (h : store.Filled caching cache) (id : Nat) :
    (store.getThrough caching id cache).1 = store.load id ∧
      store.Filled caching (store.getThrough caching id cache).2 := by
  obtain ⟨events, rfl, hloads⟩ := h
  rw [getThrough]
  cases hfind : caching.find? (caching.after events) id with
  | some answer =>
    obtain ⟨set, next⟩ := answer
    refine ⟨(hloads id set (hrecalls events id set next hfind)).symm,
      .find id :: events, ?_, hloads⟩
    rw [Caching.after, hfind]
  | none =>
    cases hload : store.load id with
    | error error => exact ⟨rfl, events, rfl, hloads⟩
    | ok set =>
      refine ⟨rfl, .insert id set :: events, rfl, fun other found hlast => ?_⟩
      rw [Caching.lastInserted] at hlast
      split at hlast
      next hsame => rw [← hsame, hload, Option.some.inj hlast]
      next => exact hloads other found hlast

theorem filled_fresh : store.Filled caching caching.fresh :=
  ⟨[], rfl, fun _ _ hlast => absurd hlast (by simp [Caching.lastInserted])⟩

theorem filled_foldl (hrecalls : caching.Recalls) (asked : List Nat) {cache : C}
    (h : store.Filled caching cache) :
    store.Filled caching
      (asked.foldl (fun cache id => (store.getThrough caching id cache).2) cache) := by
  induction asked generalizing cache with
  | nil => exact h
  | cons first rest ih => exact ih (getThrough_of_filled hrecalls h first).2

/-- Whatever was asked for before, a list is the one that is loaded. -/
theorem getThrough_eq (hrecalls : caching.Recalls) (store : Store) (asked : List Nat) (id : Nat) :
    (store.getThrough caching id (store.cacheThrough caching asked)).1 = store.load id :=
  (getThrough_of_filled hrecalls (filled_foldl hrecalls asked filled_fresh) id).1

/-- The cache of a store never changes an answer. -/
theorem get_cacheAfter (store : Store) (id : Nat) (asked : List Nat) :
    (store.get id (store.cacheAfter asked)).1 = store.load id := by
  have hcache : store.cacheAfter asked = store.cacheThrough .recent asked := by
    rw [cacheAfter, cacheThrough]
    simp only [get_eq_getThrough]
    rfl
  rw [hcache, get_eq_getThrough, getThrough_eq Caching.recalls_recent]

end Store

end Postings
