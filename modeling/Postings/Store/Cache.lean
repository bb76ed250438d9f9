/-
The lists of a store that were asked for most recently.

* `Cache.find?` — a list that is held, which becomes the most recent one;
* `Cache.insert` — holds a list, and lets go of the least recent beyond the capacity;
* `Store.get` — a list, from the cache when it is there.

Design notes: a cache only ever holds what `Store.load` answered, so whether a list
comes from it cannot be told from the answers.
-/
import Postings.Store.Basic

namespace Postings

/-- Lists under their ids, the most recent first. -/
structure Cache where
  entries : List (Nat × ItemSet) := []

namespace Cache

/-- How many lists are held. -/
def capacity : Nat := 256

/-- A list that is held, and the cache with that list as the most recent. -/
def find? (cache : Cache) (id : Nat) : Option (ItemSet × Cache) :=
  match cache.entries.find? (·.1 == id) with
  | some (_, set) => some (set, ⟨(id, set) :: cache.entries.filter (·.1 != id)⟩)
  | none => none

/-- The cache with a list as the most recent. -/
def insert (cache : Cache) (id : Nat) (set : ItemSet) : Cache :=
  ⟨((id, set) :: cache.entries.filter (·.1 != id)).take capacity⟩

end Cache

/-- A list of a store, and the cache after it was asked for. -/
def Store.get (store : Store) (id : Nat) (cache : Cache) : Except Error ItemSet × Cache :=
  match cache.find? id with
  | some (set, cache) => (.ok set, cache)
  | none =>
    match store.load id with
    | .ok set => (.ok set, cache.insert id set)
    | .error error => (.error error, cache)

end Postings
