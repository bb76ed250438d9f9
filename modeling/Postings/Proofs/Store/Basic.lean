/-
Opened stores and the lists that are asked of them.

* `Store.load_eq_ok` — a list is one that its bytes are wholly read as;
* `Store.Loads` — the lists of some ids;
* `Store.cacheAfter` — the cache after lists were asked for;
* `Header.reads_front` — a written header is read back.
-/
import Postings.Store.Cache
import Postings.Proofs.ItemSet.Proper

namespace Postings

/-! ### Parts of bytes -/

namespace Bytes

/-- A part of a byte string does not depend on what is appended to it. -/
theorem extract_append_of_le {first second : ByteArray} {start stop : Nat}
    (h : stop ≤ first.size) : (first ++ second).extract start stop = first.extract start stop := by
  have hnone : second.extract (start - first.size) 0 = ByteArray.empty := by
    rw [ByteArray.extract_eq_empty_iff]
    omega
  rw [ByteArray.extract_append, Nat.sub_eq_zero_of_le h, hnone, ByteArray.append_empty]

theorem slice_append (first second third : ByteArray) :
    slice (first ++ second ++ third) first.size second.size = .ok second := by
  have hle : first.size + second.size ≤ (first ++ second).size :=
    Nat.le_of_eq ByteArray.size_append.symm
  rw [slice_eq_ok, extract_append_of_le hle]
  refine ⟨?_, ByteArray.extract_append_eq_right rfl rfl⟩
  rw [ByteArray.size_append]
  exact Nat.le_trans hle (Nat.le_add_right _ _)

theorem sliceFrom_append (first second : ByteArray) :
    sliceFrom (first ++ second) first.size = .ok second := by
  rw [sliceFrom_eq_ok, ByteArray.size_append]
  exact ⟨Nat.le_add_right _ _, ByteArray.extract_append_eq_right rfl rfl⟩

end Bytes

namespace Store

variable {store : Store} {id : Nat} {set : ItemSet}

/-- A list is one that its bytes are wholly read as. -/
theorem load_eq_ok : store.load id = .ok set ↔
    ∃ bytes, store.raw id = .ok bytes ∧ ItemSet.ofBytes bytes = .ok set ∧
      set.byteLength = bytes.size := by
  rw [load, bind_eq_ok]
  refine exists_congr fun bytes => and_congr_right fun _ => ?_
  rw [bind_eq_ok]
  constructor
  · rintro ⟨found, hfound, hcheck⟩
    split at hcheck
    · exact absurd (show Except.error _ = Except.ok set from hcheck) (by simp)
    next hlength =>
      obtain rfl := Except.ok.inj (show Except.ok found = .ok set from hcheck)
      exact ⟨hfound, Decidable.not_not.1 hlength⟩
  · rintro ⟨hset, hlength⟩
    exact ⟨set, hset, by rw [if_neg (not_not_intro hlength)]; rfl⟩

/-- Bytes are not loaded as a list that they only begin with. -/
theorem load_of_partlyUsed {bytes : ByteArray} (hraw : store.raw id = .ok bytes)
    (hset : ItemSet.ofBytes bytes = .ok set) (hlength : set.byteLength ≠ bytes.size) :
    store.load id = .error (.corrupt (.partlyUsed id set.byteLength bytes.size)) := by
  rw [load, hraw]
  show (ItemSet.ofBytes bytes >>= _) = _
  rw [hset]
  exact if_pos hlength

/-- Some ids have these lists. -/
def Loads (store : Store) (ids : List Nat) (sets : List ItemSet) : Prop :=
  List.Forall₂ (fun id set => store.load id = .ok set) ids sets

/-- Ids have no other lists. -/
theorem Loads.unique {ids : List Nat} {sets others : List ItemSet}
    (h : store.Loads ids sets) (hother : store.Loads ids others) : sets = others := by
  induction h generalizing others with
  | nil => exact (List.forall₂_nil_left_iff.1 hother).symm
  | cons hload _ ih =>
    cases hother with
    | cons hloadOther hrest =>
      rw [ih hrest, Except.ok.inj (hload.symm.trans hloadOther)]

/-- The cache after lists were asked for, one after the other. -/
def cacheAfter (store : Store) (asked : List Nat) : Cache :=
  asked.foldl (fun cache id => (store.get id cache).2) {}

end Store

/-! ### Headers -/

namespace Header

/-- The bytes of a header: its version, its tag and its length. -/
def front (header : Header) : List UInt8 :=
  [UInt8.ofNat header.version] ++ ([UInt8.ofNat header.codec.tag]
    ++ Bytes.digits header.dataLength 8)

theorem toBytes_eq (header : Header) : header.toBytes = header.front.toByteArray := by
  rw [toBytes, Bytes.pushLE_eq, ← List.toByteArray_append]
  rfl

theorem size_toBytes (header : Header) : header.toBytes.size = byteLength := by
  rw [toBytes_eq, List.size_toByteArray, front, List.length_append, List.length_append,
    Bytes.length_digits]
  rfl

/-- A written header is read back. -/
theorem reads_front (codec : Codec) {dataLength : Nat} (h : dataLength < 2 ^ 64) :
    Reads read (make codec dataLength).front (make codec dataLength) := by
  have htag : codec.written.tag < 256 := by cases codec <;> decide
  have hwritten : codec.written.written = codec.written := by cases codec <;> rfl
  have hnumber : Bytes.number (Bytes.digits dataLength 8) = dataLength := by
    rw [Bytes.number_digits]
    exact Nat.mod_eq_of_lt h
  have hlength := Reads.little "store data length" (Bytes.digits dataLength 8)
  rw [Bytes.length_digits, hnumber] at hlength
  have hversion : (make codec dataLength).version < 256 := show 1 < 256 by decide
  refine (Reads.byte hversion).bind ?_
  have hsame : ¬ (make codec dataLength).version ≠ currentVersion := not_not_intro rfl
  simp only [if_neg hsame]
  refine (Reads.byte htag).bind ?_
  simp only [make, Codec.ofTag?_tag, hwritten]
  exact hlength.map _

end Header

end Postings
