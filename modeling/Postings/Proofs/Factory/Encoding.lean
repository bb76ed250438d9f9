/-
Any list is stored as some bytes, and they tell its items.

A codec that cannot take a list is stood in for by the native one, and encoding again what was
just encoded finds nothing amiss; so a factory whose block size is not zero takes every list that
ascends.

* `Factory.checkEncoded_of_encodeTagged`, `Factory.encodeItems_eq_written` — the check passes;
* `Factory.exists_encodeItems` — every ascending list is encoded;
* `Factory.encodeItems_inj` — different lists are encoded differently.
-/
import Postings.Proofs.Factory.Recoding

namespace Postings.Factory

variable {config : Config} {items other : List Item} {bytes : ByteArray}

/-- Bytes that are read as the items that they were made of pass the check. -/
theorem checkEncoded_eq_ok {set : ItemSet} (h : ItemSet.ofBytes bytes = .ok set)
    (hfew : set.items.length < 2 ^ 32) : checkEncoded bytes set.items = .ok () := by
  have hsame : Source.beq set.cursor set.items = true := by
    rw [Source.beq_eq_true, ItemSet.toList_cursor, Source.toList_list]
  have hgood : ¬ (set.size ≠ set.items.length ∨ (!Source.beq set.cursor set.items) = true) := by
    rw [ItemSet.size_eq hfew, hsame]
    simp
  rw [checkEncoded, h]
  show (if _ then _ else _) = _
  rw [if_neg hgood]
  rfl

/-- Bytes that a codec has written pass the check. -/
theorem checkEncoded_of_encodeTagged {codec : Codec} {tuning : Tuning}
    (hblock : tuning.blockSize < 2 ^ 32) (hfew : items.length < 2 ^ 32) (hascend : Ascending items)
    (h : encodeTagged items codec tuning = .ok bytes) : checkEncoded bytes items = .ok () := by
  obtain ⟨set, htrusted, rfl⟩ := ItemSet.exists_of_encodeTagged hfew hascend hblock h
  exact checkEncoded_eq_ok (ItemSet.ofBytes_eq_ok.2 ⟨htrusted, hascend⟩) hfew

/-- Nothing that was written fails the check. -/
theorem encodeItems_eq_written (hblock : config.tuning.blockSize < 2 ^ 32)
    (hfew : items.length < 2 ^ 32) (hascend : Ascending items) :
    encodeItems config items = written config items := by
  rw [encodeItems_eq]
  cases hwritten : written config items with
  | error error => rfl
  | ok bytes =>
    have hcheck : checkEncoded bytes items = .ok () := by
      rcases encodeTagged_of_written hwritten with hencode | hencode
      · exact checkEncoded_of_encodeTagged hblock hfew hascend hencode
      · exact checkEncoded_of_encodeTagged hblock hfew hascend hencode
    show (do
      if config.verify then checkEncoded bytes items
      return bytes : Except Error ByteArray) = _
    rw [hcheck]
    split
    · rfl
    · rfl

/-- The codec of the settings writes the bytes, or the native one does where there is no
progression. -/
theorem exists_encodeTagged_or_native (hzero : config.tuning.blockSize ≠ 0)
    (hblock : config.tuning.blockSize < 2 ^ 32) (hfew : items.length < 2 ^ 32)
    (hascend : Ascending items) :
    ∃ codec bytes, encodeTagged items codec config.tuning = .ok bytes ∧
      (codec = config.codec ∨ codec = .native ∧ config.codec = .range ∧
        ∃ cause, encodeTagged items .range config.tuning = .error (.unsupported cause)) := by
  have hwritten : ∀ codec, ¬ Unsupported codec items config.tuning →
      ∃ bytes, encodeTagged items codec config.tuning = .ok bytes := by
    intro codec hsupported
    obtain ⟨front, form, hencode, -⟩ := exists_encodeTagged hfew hascend hblock hsupported
    exact ⟨_, hencode⟩
  by_cases hunsupported : Unsupported config.codec items config.tuning
  · obtain ⟨hrange, hnot⟩ | ⟨-, hnone⟩ := hunsupported
    · obtain ⟨bytes, hbytes⟩ := hwritten .native (by
        rintro (⟨hcodec, -⟩ | ⟨hcodec, -⟩)
        · exact absurd hcodec (by decide)
        · exact absurd hcodec (by decide))
      exact ⟨.native, bytes, hbytes, .inr ⟨rfl, hrange,
        encodeTagged_of_unsupported (.inl ⟨rfl, hnot⟩)⟩⟩
    · exact absurd hnone hzero
  · obtain ⟨bytes, hbytes⟩ := hwritten _ hunsupported
    exact ⟨config.codec, bytes, hbytes, .inl rfl⟩

/-- Every ascending list is encoded, whatever the codec and whether the bytes are checked. -/
theorem exists_encodeItems (hzero : config.tuning.blockSize ≠ 0)
    (hblock : config.tuning.blockSize < 2 ^ 32) (hfew : items.length < 2 ^ 32)
    (hascend : Ascending items) : ∃ bytes, encodeItems config items = .ok bytes := by
  obtain ⟨codec, bytes, hbytes, hcodec⟩ :=
    exists_encodeTagged_or_native hzero hblock hfew hascend
  refine ⟨bytes, ?_⟩
  rw [encodeItems_eq_written hblock hfew hascend, written]
  rcases hcodec with rfl | ⟨rfl, hrange, cause, hcause⟩
  · rw [hbytes]
  · rw [hrange, hcause]
    exact hbytes

/-- Lists that are stored as the same bytes are the same. -/
theorem encodeItems_inj (hblock : config.tuning.blockSize < 2 ^ 32)
    (hfew : items.length < 2 ^ 32) (hascend : Ascending items) (hfew' : other.length < 2 ^ 32)
    (hascend' : Ascending other) (h : encodeItems config items = .ok bytes)
    (h' : encodeItems config other = .ok bytes) : items = other := by
  obtain ⟨set, hset, rfl⟩ := exists_of_encodeItems hfew hascend hblock h
  obtain ⟨again, hagain, rfl⟩ := exists_of_encodeItems hfew' hascend' hblock h'
  rw [Except.ok.inj (hset.symm.trans hagain)]

end Postings.Factory
