/-
Totals over the lists of a store.

* `Totals` — how many lists, items and bytes;
* `Stats` — the totals of every codec, and of the whole store;
* `Store.stats` — counts them, loading every list.
-/
import Postings.Store.Basic

namespace Postings

/-- Totals over some lists. -/
structure Totals where
  count : Nat := 0
  elements : Nat := 0
  bytes : Nat := 0
  deriving DecidableEq, Repr

namespace Totals

/-- The totals with one more list. -/
def add (totals : Totals) (set : ItemSet) : Totals :=
  ⟨totals.count + 1, totals.elements + set.size, totals.bytes + set.byteLength⟩

/-- Bits an item. -/
def bitsPerItem (totals : Totals) : Float :=
  Postings.bitsPerItem totals.bytes totals.elements

end Totals

/-- Totals over a store. -/
structure Stats where
  version : Nat
  codec : Codec
  indexCount : Nat
  totalElements : Nat := 0
  dataBytes : Nat
  totalBytes : Nat
  largest : Nat := 0
  /-- The totals of the lists held in each codec. -/
  totals : List (Codec × Totals) := Codec.all.map fun codec => (codec, {})

namespace Stats

/-- The totals with one more list. -/
def add (stats : Stats) (set : ItemSet) : Stats :=
  { stats with
    totalElements := stats.totalElements + set.size
    largest := max stats.largest set.size
    totals := stats.totals.map fun (codec, totals) =>
      (codec, if codec = set.codec then totals.add set else totals) }

/-- The codecs that occur, and their totals. -/
def byCodec (stats : Stats) : List (Codec × Totals) :=
  stats.totals.filter fun (_, totals) => 0 < totals.count

end Stats

namespace Store

/-- Adds the lists of some ids to totals. -/
def addStats (store : Store) : List Nat → Stats → Except Error Stats
  | [], stats => .ok stats
  | id :: ids, stats =>
    match store.load id with
    | .ok set => store.addStats ids (stats.add set)
    | .error error => .error error

/-- The totals over all lists. -/
def stats (store : Store) : Except Error Stats :=
  store.addStats (List.range store.size) {
    version := store.header.version
    codec := store.header.codec
    indexCount := store.size
    dataBytes := store.header.dataLength
    totalBytes := store.totalSize }

end Store

end Postings
