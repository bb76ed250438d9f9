/-
Posting lists that can be written.

A list has its tagged bytes at hand or is a vector, whose bytes are written when they
are asked for.  Either way they are as many as the list says, and the list that they
are read as has the same items.

* `ItemSet.Complete` — a proper list that has its bytes at hand or is a vector;
* `ItemSet.complete_of_ofBytes`, `ItemSet.complete_of_encodeAscending`, … — lists that are read or
  built are complete;
* `ItemSet.Complete.size_toBytes`, `ItemSet.Complete.exists_ofBytes` — the bytes of a list.
-/
import Postings.Proofs.ItemSet.Recode

namespace Postings.ItemSet

open Layout

/-- A proper list that has its bytes at hand, or is a vector. -/
structure Complete (set : ItemSet) : Prop extends set.Proper where
  at_hand : set.codec = .vector ∨ ∃ bytes, set.encoded = some bytes

variable {set : ItemSet} {bytes : ByteArray} {items : List Item} {codec : Codec} {tuning : Tuning}

/-! ### Lists that are read or built -/

theorem complete_ofAscending {items : Array Item} (hascend : Ascending items.toList)
    (hfew : items.size < 2 ^ 32) : (ofAscending items).Complete :=
  ⟨proper_ofAscending hascend hfew, .inl rfl⟩

theorem complete_empty : empty.Complete :=
  complete_ofAscending List.Pairwise.nil (by decide)

/-- Lists that are read have the bytes that they were read from. -/
theorem encoded_of_ofTrustedBytes (h : ofTrustedBytes bytes = .ok set) :
    ∃ taken, set.encoded = some taken := by
  obtain ⟨front, form, -, -, -, rfl⟩ := ofTrustedBytes_eq_ok.1 h
  exact ⟨_, rfl⟩

theorem complete_of_ofBytes (h : ofBytes bytes = .ok set) : set.Complete :=
  ⟨proper_of_ofBytes h, .inr (encoded_of_ofTrustedBytes (ofBytes_eq_ok.1 h).1)⟩

theorem complete_of_ofList (hfew : items.length < 2 ^ 32) (h : ofList items = .ok set) :
    set.Complete := by
  refine ⟨proper_of_ofList hfew h, ?_⟩
  rw [ofList] at h
  split at h
  · exact absurd h (by simp)
  · obtain rfl := Except.ok.inj h
    exact .inl rfl

theorem complete_of_ofRange {begin : Item} {stop : Nat} {stride : UInt32}
    (h : ofRange begin stop stride = .ok set) : set.Complete := by
  refine ⟨proper_of_ofRange h, ?_⟩
  obtain ⟨range, -, hmake⟩ := bind_eq_ok.1 h
  obtain rfl := Except.ok.inj hmake
  exact .inr ⟨_, rfl⟩

theorem complete_of_encodeAscending (hfew : items.length < 2 ^ 32) (hascend : Ascending items)
    (hblock : tuning.blockSize < 2 ^ 32) (h : encodeAscending items codec tuning = .ok set) :
    set.Complete := by
  refine ⟨(of_encodeAscending hfew hascend hblock h).1, ?_⟩
  rw [encodeAscending] at h
  split at h
  · obtain rfl := Except.ok.inj h
    exact .inl rfl
  · obtain ⟨written, -, hread⟩ := bind_eq_ok.1 h
    exact .inr (encoded_of_ofTrustedBytes hread)

theorem complete_of_encode (hfew : items.length < 2 ^ 32) (hblock : tuning.blockSize < 2 ^ 32)
    (h : encode items codec tuning = .ok set) : set.Complete := by
  rw [encode] at h
  split at h
  · exact absurd h (by simp)
  next hnone => exact complete_of_encodeAscending hfew (firstDescent?_eq_none.1 hnone) hblock h

theorem complete_of_ofMembers (hfew : (distinct items).length < 2 ^ 32)
    (h : ofMembers items codec = .ok set) : set.Complete :=
  complete_of_encodeAscending hfew (ascending_distinct items) (by decide) h

theorem complete_of_recode {recoded : ItemSet} (hset : set.Complete)
    (hblock : tuning.blockSize < 2 ^ 32) (h : set.recode codec tuning = .ok recoded) :
    recoded.Complete := by
  rw [recode] at h
  split at h
  · obtain rfl := Except.ok.inj h
    exact hset
  · exact complete_of_encodeAscending hset.length_lt hset.ascending hblock h

/-! ### Bytes -/

theorem size_encode_native (items : List Item) :
    (Native.encode items (tagByte .native)).size = 1 + 4 + 4 * items.length := by
  rw [Native.encode_eq, ByteArray.size_append, List.size_toByteArray, List.length_append,
    Bytes.length_digits, Native.length_itemBytes, ← Nat.add_assoc]
  rfl

/-- Native bytes of items are read as these items. -/
theorem exists_ofBytes_native (hfew : items.length < 2 ^ 32) (hascend : Ascending items) :
    ∃ again, ofBytes (Native.encode items (tagByte .native)) = .ok again ∧
      again.items = items ∧ again.codec = .native ∧
      again.encoded = some (Native.encode items (tagByte .native)) := by
  have hsupported : ¬ Unsupported .native items {} := by
    rintro (⟨hcodec, -⟩ | ⟨hcodec, -⟩)
    · exact absurd hcodec (by decide)
    · exact absurd hcodec (by decide)
  obtain ⟨front, form, hencode, hreads, hcodec, hitems⟩ :=
    exists_encodeTagged hfew hascend (show ({} : Tuning).blockSize < 2 ^ 32 by decide) hsupported
  have hwritten : Native.encode items (tagByte .native) = front.toByteArray :=
    Except.ok.inj hencode
  have hset : (ItemSet.mk form (some front.toByteArray)).items = items :=
    (items_eq _).trans hitems
  rw [hwritten]
  refine ⟨⟨form, some front.toByteArray⟩, ?_, hset, hcodec, rfl⟩
  exact ofBytes_eq_ok.2 ⟨ofTrustedBytes_of_reads hreads (by simp), hset ▸ hascend⟩

/-- A list without bytes at hand is a vector. -/
theorem Complete.codec_of_none (h : set.Complete) (hnone : set.encoded = none) :
    set.codec = .vector := by
  rcases h.at_hand with hvector | ⟨bytes, hbytes⟩
  · exact hvector
  · exact absurd (hnone.symm.trans hbytes) (by simp)

/-- A list has as many bytes as it says. -/
theorem Complete.size_toBytes (h : set.Complete) : set.toBytes.size = set.byteLength := by
  rw [toBytes, byteLength]
  cases set.encoded with
  | some bytes => rfl
  | none =>
    show (Native.encode set.items (tagByte .native)).size = 1 + 4 + 4 * set.size
    rw [size_encode_native, h.size_eq]

/-- The bytes of a list are read as the same items, in as many bytes; a vector is native then. -/
theorem Complete.exists_ofBytes (h : set.Complete) :
    ∃ again, ofBytes set.toBytes = .ok again ∧ again.items = set.items ∧
      again.byteLength = set.byteLength ∧ again.codec = set.codec.written := by
  have hsize := h.size_toBytes
  cases hencoded : set.encoded with
  | some bytes =>
    -- The list itself is read back, and what is read is no vector.
    have hread := h.rereads bytes hencoded
    have hwritten : set.codec.written = set.codec := by
      have hvector := codec_ne_vector hread
      rw [codec]
      cases hcodec : set.form.codec with
      | vector => exact absurd hcodec hvector
      | _ => rfl
    rw [toBytes, hencoded]
    exact ⟨set, ofBytes_eq_ok.2 ⟨hread, h.ascending⟩, rfl, rfl, hwritten.symm⟩
  | none =>
    obtain ⟨again, hread, hitems, hcodec, hbytes⟩ :=
      exists_ofBytes_native h.length_lt h.ascending
    have htoBytes : set.toBytes = Native.encode set.items (tagByte .native) := by
      rw [toBytes, hencoded]
    refine ⟨again, htoBytes ▸ hread, hitems, ?_, ?_⟩
    · rw [← hsize, htoBytes, byteLength, hbytes]
    · rw [hcodec, h.codec_of_none hencoded]
      rfl

end Postings.ItemSet
