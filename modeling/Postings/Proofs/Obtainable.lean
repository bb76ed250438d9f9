/-
All posting lists that there can be.

Lists are encoded, read, built, taken from factories and stores, brought into other
codecs and combined, in any order and any number of times.  As long as no list on the
way has all 2^32 items, every one of them can be written, and is read back from its
bytes as the same list.

* `ItemSet.Obtainable` — the lists that come of any such combination;
* `ItemSet.Obtainable.complete` — every one of them is complete;
* `ItemSet.Obtainable.rewritten` — their bytes, and their items in other codecs.
-/
import Postings.Proofs.Algebra.Limited
import Postings.Proofs.Algebra.Many
import Postings.Proofs.Factory
import Postings.Proofs.ItemSet.Builder
import Postings.Proofs.Store.Caching

namespace Postings

/-- What a factory gives is what whole bytes are read as. -/
theorem Factory.Intact.complete_of_get {config : Config} {factory : Factory}
    (h : factory.Intact config) {id : Nat} {set : ItemSet} (hget : factory.get id = .ok set) :
    set.Complete := by
  rw [get] at hget
  split at hget
  next bytes hbytes =>
    obtain ⟨whole, hwhole, -⟩ := h.whole id bytes hbytes
    have hsame := (ItemSet.ofBytes_eq_ok.1 hwhole).1
    rw [hget] at hsame
    obtain rfl := Except.ok.inj hsame
    exact ItemSet.complete_of_ofBytes hwhole
  next => exact absurd hget (by simp)

theorem Store.complete_of_load {store : Store} {id : Nat} {set : ItemSet}
    (h : store.load id = .ok set) : set.Complete := by
  obtain ⟨bytes, -, hread, -⟩ := load_eq_ok.1 h
  exact ItemSet.complete_of_ofBytes hread

namespace ItemSet

/-- The lists that any finite combination of calls gives, where none on the way has all `2 ^ 32`
items.  Block sizes and counts are 32-bit numbers. -/
inductive Obtainable : ItemSet → Prop
  | encode {items : List Item} {codec : Codec} {tuning : Tuning} {set : ItemSet}
    (hfew : items.length < 2 ^ 32) (hblock : tuning.blockSize < 2 ^ 32)
    (h : ItemSet.encode items codec tuning = .ok set) : Obtainable set
  | ofList {items : List Item} {set : ItemSet} (hfew : items.length < 2 ^ 32)
    (h : ItemSet.ofList items = .ok set) : Obtainable set
  | ofRange {begin : Item} {stop : Nat} {stride : UInt32} {set : ItemSet}
    (h : ItemSet.ofRange begin stop stride = .ok set) : Obtainable set
  | ofBytes {bytes : ByteArray} {set : ItemSet} (h : ItemSet.ofBytes bytes = .ok set) :
    Obtainable set
  | ofMembers {items : List Item} {codec : Codec} {set : ItemSet}
    (hfew : (distinct items).length < 2 ^ 32) (h : ItemSet.ofMembers items codec = .ok set) :
    Obtainable set
  | finishVector (requests : List Builder.Request)
    (hfew : (Builder.afterAll requests).items.size < 2 ^ 32) :
    Obtainable (Builder.afterAll requests).finishVector
  | finish {requests : List Builder.Request} {codec : Codec} {tuning : Tuning} {set : ItemSet}
    (hfew : (Builder.afterAll requests).items.size < 2 ^ 32) (hblock : tuning.blockSize < 2 ^ 32)
    (h : (Builder.afterAll requests).finish codec tuning = .ok set) : Obtainable set
  | recode {codec : Codec} {tuning : Tuning} {set recoded : ItemSet} (hset : Obtainable set)
    (hblock : tuning.blockSize < 2 ^ 32) (h : set.recode codec tuning = .ok recoded) :
    Obtainable recoded
  | apply {left right : ItemSet} {op : SetOp} (hleft : Obtainable left)
    (hright : Obtainable right) (hfew : (op.onSets left.members right.members).card < 2 ^ 32) :
    Obtainable (left.apply right op)
  | applyAs {left right : ItemSet} {op : SetOp} {codec : Codec} {tuning : Tuning} {set : ItemSet}
    (hleft : Obtainable left) (hright : Obtainable right)
    (hfew : (op.onSets left.members right.members).card < 2 ^ 32)
    (hblock : tuning.blockSize < 2 ^ 32) (h : left.applyAs right op codec tuning = .ok set) :
    Obtainable set
  | uniteFirst {left right : ItemSet} {count : Nat} (hleft : Obtainable left)
    (hright : Obtainable right) (hcount : count < 2 ^ 32) :
    Obtainable (left.uniteFirst right count)
  | sweepFirst {required excluded : List ItemSet} {count : Nat} {filter : Item → Bool}
    (hrequired : ∀ set ∈ required, Obtainable set) (hcount : count < 2 ^ 32) :
    Obtainable (ItemSet.sweepFirst required excluded count filter)
  | uniteAll {sets : List ItemSet} (hsets : ∀ set ∈ sets, Obtainable set)
    (hfew : (anyMembers sets).card < 2 ^ 32) : Obtainable (ItemSet.uniteAll sets)
  | intersectAll {sets : List ItemSet} (hsets : ∀ set ∈ sets, Obtainable set) :
    Obtainable (ItemSet.intersectAll sets)
  | stored {config : Config} {fingerprint : Fingerprint} {first : Factory}
    {calls : List Factory.Call} {id : Nat} {set : ItemSet}
    (hblock : config.tuning.blockSize < 2 ^ 32)
    (hmake : Factory.make config fingerprint = .ok first)
    (hitems : ∀ items, .addItems items ∈ calls → Ascending items → items.length < 2 ^ 32)
    (hsets : ∀ added, .addSet added ∈ calls → Obtainable added)
    (h : (first.runCalls calls).get id = .ok set) : Obtainable set
  | loaded {store : Store} {id : Nat} {set : ItemSet} (h : store.load id = .ok set) :
    Obtainable set
  | cached {store : Store} {asked : List Nat} {id : Nat} {set : ItemSet}
    (h : (store.get id (store.cacheAfter asked)).1 = .ok set) : Obtainable set

/-- Every obtainable list is complete, by one case for each way to obtain it. -/
theorem Obtainable.complete {set : ItemSet} (h : Obtainable set) : set.Complete := by
  induction h with
  | encode hfew hblock h => exact complete_of_encode hfew hblock h
  | ofList hfew h => exact complete_of_ofList hfew h
  | ofRange h => exact complete_of_ofRange h
  | ofBytes h => exact complete_of_ofBytes h
  | ofMembers hfew h => exact complete_of_ofMembers hfew h
  | finishVector requests hfew =>
    exact Builder.complete_finishVector (Builder.ascending_afterAll requests) hfew
  | finish hfew hblock h =>
    exact Builder.complete_of_finish (Builder.ascending_afterAll _) hfew hblock h
  | recode _ hblock h ih => exact complete_of_recode ih hblock h
  | apply _ _ hfew ihLeft ihRight => exact complete_apply ihLeft ihRight hfew
  | applyAs _ _ hfew hblock h ihLeft ihRight =>
    exact complete_of_applyAs ihLeft ihRight hfew hblock h
  | uniteFirst _ _ hcount ihLeft ihRight =>
    exact complete_uniteFirst ihLeft.toValid ihRight.toValid hcount
  | sweepFirst _ hcount ih =>
    exact complete_sweepFirst (fun set hset => (ih set hset).toValid) hcount _
  | uniteAll _ hfew ih => exact complete_uniteAll ih hfew
  | intersectAll _ ih => exact complete_intersectAll ih
  | @stored config fingerprint first calls id set hblock hmake hitems _ h ih =>
    have hcalls : ∀ call ∈ calls, call.Proper := by
      intro call hcall
      cases call with
      | addItems items => exact hitems items hcall
      | addSet added => exact (ih added hcall).toProper
      | addBytes bytes => exact trivial
      | insertStore store pick => exact trivial
    have hintact := Factory.intact_runCalls hblock (Factory.intact_of_make hblock hmake) hcalls
    exact hintact.complete_of_get h
  | loaded h => exact Store.complete_of_load h
  | cached h =>
    rw [Store.get_cacheAfter] at h
    exact Store.complete_of_load h

/-- Every list that can be obtained is written to as many bytes as it says, which are read as the
same items in as many bytes and in the same codec, native for a vector; and a codec that takes
the list holds the same items. -/
theorem Obtainable.rewritten {set : ItemSet} (h : Obtainable set) :
    set.toBytes.size = set.byteLength ∧
    (∃ again, ItemSet.ofBytes set.toBytes = .ok again ∧
      Source.toList again.cursor = Source.toList set.cursor ∧
      again.byteLength = set.byteLength ∧ again.codec = set.codec.written) ∧
    ∀ codec tuning recoded, tuning.blockSize < 2 ^ 32 →
      set.recode codec tuning = .ok recoded →
      recoded.codec = codec ∧ Source.toList recoded.cursor = Source.toList set.cursor := by
  have hset := h.complete
  simp only [toList_cursor]
  obtain ⟨again, hread, hitems, hlength, hcodec⟩ := hset.exists_ofBytes
  refine ⟨hset.size_toBytes, ⟨again, hread, hitems, hlength, hcodec⟩, ?_⟩
  intro codec tuning recoded hblock hrecode
  exact (of_recode hset.toProper hblock hrecode).2

/-- The union of a range and a vector, held in blocks. -/
theorem rewritten_union :
    ∃ range set, ItemSet.ofRange 4 9 2 = .ok range ∧
      (range.apply (ofAscending #[3, 4]) .union).recode .frame { blockSize := 2 } = .ok set ∧
      Obtainable set ∧ set.toBytes.size = set.byteLength ∧
      ∃ again, ItemSet.ofBytes set.toBytes = .ok again ∧ again.codec = .frame ∧
        Source.toList again.cursor = Source.toList set.cursor := by
  obtain ⟨range, hrange, hsize⟩ : ∃ range, ItemSet.ofRange 4 9 2 = .ok range ∧ range.size = 3 :=
    ⟨_, rfl, rfl⟩
  have hleft : Obtainable range := .ofRange hrange
  have hright : Obtainable (ofAscending #[3, 4]) :=
    .ofList (show [3, 4].length < 2 ^ 32 by decide) rfl
  have hfew : (SetOp.union.onSets range.members (ofAscending #[3, 4]).members).card < 2 ^ 32 := by
    refine Nat.lt_of_le_of_lt (card_onSets_le _ _ _) ?_
    rw [hleft.complete.card_members, hright.complete.card_members, hsize]
    decide
  have hunion : Obtainable (range.apply (ofAscending #[3, 4]) .union) := .apply hleft hright hfew
  have hblock : ({ blockSize := 2 } : Tuning).blockSize < 2 ^ 32 := by decide
  -- Blocks of two items take any list.
  obtain ⟨set, hencode, hcodec, -⟩ := exists_encodeAscending hunion.complete.length_lt
    hunion.complete.ascending hblock
    (show ¬ Unsupported .frame _ _ by
      rintro (⟨hcodec, -⟩ | ⟨-, hzero⟩)
      · exact absurd hcodec (by decide)
      · exact absurd hzero (by decide))
  have hrecode : (range.apply (ofAscending #[3, 4]) .union).recode .frame { blockSize := 2 }
      = .ok set := by
    rw [ItemSet.recode, if_neg fun h => h.2 rfl]
    exact hencode
  have hset : Obtainable set := .recode hunion hblock hrecode
  obtain ⟨hlength, ⟨again, hread, hitems, -, hagain⟩, -⟩ := Obtainable.rewritten hset
  rw [hcodec] at hagain
  exact ⟨range, set, hrange, hrecode, hset, hlength, again, hread, hagain, hitems⟩

end ItemSet

end Postings
