/-
What bytes tell about the items that they were made of.

Fewer than `2 ^ 32` items are read back from what a codec writes.  The list of all `2 ^ 32` items
is not, since sizes are 32-bit numbers; but no other list is as long, and what is written tells
that much.  So lists that are written as the same bytes are the same, without exception.  The
native layout has no other bytes for a list than those that are written.

* `eq_of_full` — one list has all items;
* `Counts`, `exists_encodeTagged_eq` — how a layout tells the number of items;
* `eq_of_encodeTagged` — what is written tells the items;
* `ItemSet.encoded_of_native` — the bytes that a native list is read from are those that are
  written.
-/
import Mathlib.Data.List.Perm.Subperm
import Postings.Proofs.ItemSet.Complete

namespace Postings

open Layout

variable {items other : List Item} {codec : Codec} {tuning : Tuning} {bytes : ByteArray}

/-! ### All items -/

theorem subperm_range (h : Ascending items) :
    (items.map UInt32.toNat).Subperm (List.range (2 ^ 32)) := by
  have hnodup : (items.map UInt32.toNat).Nodup :=
    List.Pairwise.map UInt32.toNat (fun _ _ hlt => Nat.ne_of_lt hlt) h
  refine hnodup.subperm fun number hnumber => ?_
  obtain ⟨item, -, rfl⟩ := List.mem_map.1 hnumber
  exact List.mem_range.2 (UInt32.toNat_lt item)

theorem length_le_of_ascending (h : Ascending items) : items.length ≤ 2 ^ 32 := by
  have hle := (subperm_range h).length_le
  rwa [List.length_map, List.length_range] at hle

/-- Only the list of all items is too long for a 32-bit size. -/
theorem eq_of_full (h : Ascending items) (hother : Ascending other)
    (hfull : 2 ^ 32 ≤ items.length) (hotherFull : 2 ^ 32 ≤ other.length) : items = other := by
  have hall : ∀ {list : List Item}, Ascending list → 2 ^ 32 ≤ list.length →
      ∀ item, item ∈ list := by
    intro list hlist hlength item
    have hperm := (subperm_range hlist).perm_of_length_le
      (by rwa [List.length_map, List.length_range])
    obtain ⟨member, hmember, hsame⟩ := List.mem_map.1
      (hperm.mem_iff.2 (List.mem_range.2 (UInt32.toNat_lt item)))
    rwa [← UInt32.toNat_inj.1 hsame]
  exact ascending_ext h hother fun item =>
    iff_of_true (hall h hfull item) (hall hother hotherFull item)

/-! ### Numbers of items -/

/-- What the bytes behind a tag say of the number of items. -/
def Counts (codec : Codec) (count : Nat) (back : List UInt8) : Prop :=
  match codec with
  | .native | .vector => back.length = 4 + 4 * count
  | .compact | .frame => ∃ more, back = Varint.encode count ++ more
  | .range | .line => count < 2 ^ 32

/-- The same bytes tell one number, or at least that 32 bits are enough for it. -/
theorem Counts.eq_or_few {count another : Nat} {back : List UInt8} (h : Counts codec count back)
    (h' : Counts codec another back) (hle : count ≤ 2 ^ 32) (hle' : another ≤ 2 ^ 32) :
    count = another ∨ count < 2 ^ 32 ∧ another < 2 ^ 32 := by
  cases codec with
  | native | vector =>
    refine .inl (Nat.eq_of_mul_eq_mul_left (Nat.zero_lt_succ 3) ?_)
    exact Nat.add_left_cancel ((Eq.symm h).trans h')
  | range | line => exact .inr ⟨h, h'⟩
  | compact | frame =>
    obtain ⟨more, rfl⟩ := h
    obtain ⟨others, hsame⟩ := h'
    have hdecode := Varint.decode_encode more (Nat.lt_of_le_of_lt hle (by decide))
    rw [hsame, Varint.decode_encode others (Nat.lt_of_le_of_lt hle' (by decide))] at hdecode
    exact .inl (Prod.mk.inj (Option.some.inj hdecode)).1.symm

/-- What is written begins with a tag, and tells the number of items. -/
theorem exists_encodeTagged_eq (h : encodeTagged items codec tuning = .ok bytes) :
    ∃ back, bytes = ItemSet.tagByte codec.written ++ List.toByteArray back ∧
      Counts codec.written items.length back := by
  cases codec with
  | native | vector =>
    obtain rfl := Except.ok.inj h
    refine ⟨_, Native.encode_eq .., ?_⟩
    show List.length (_ ++ _) = _
    rw [List.length_append, Bytes.length_digits, Native.length_itemBytes]
  | compact =>
    obtain rfl := Except.ok.inj h
    obtain ⟨packed, hwrite, -⟩ := Compact.encode_eq items (ItemSet.tagByte Codec.compact.written)
    exact ⟨_, hwrite, _, rfl⟩
  | frame =>
    obtain ⟨back, hback⟩ := Frame.exists_encode_eq h
    exact ⟨_, hback, _, rfl⟩
  | line =>
    have hvalues : ∀ value ∈ items.map UInt32.toNat, value < 2 ^ 64 := by
      intro value hvalue
      obtain ⟨item, -, rfl⟩ := List.mem_map.1 hvalue
      exact Nat.lt_trans (UInt32.toNat_lt item) (by decide)
    obtain ⟨front, line, hfront, -, -⟩ :=
      Line.reads_encodeAlong (UInt64.toNat_lt _) hvalues h
    refine ⟨front, hfront, ?_⟩
    rw [encodeTagged, Line.encode, Line.encodeAlong, List.length_map] at h
    split at h
    · exact absurd h (by simp)
    next hfew => exact Nat.lt_of_not_le hfew
  | range =>
    simp only [encodeTagged] at h
    split at h
    next range hdetect =>
      obtain rfl := Except.ok.inj h
      exact ⟨_, Progression.encode_eq .., Progression.length_lt_of_detect? hdetect⟩
    next => exact absurd h (by simp)

/-- A tag tells which codec has written what follows. -/
theorem written_eq_of_tagByte {another : Codec} {back back' : List UInt8}
    (h : ItemSet.tagByte codec.written ++ back.toByteArray
      = ItemSet.tagByte another.written ++ back'.toByteArray) :
    codec.written = another.written ∧ back = back' := by
  have htag : ∀ codec : Codec, (UInt8.ofNat codec.written.tag).toNat = codec.written.tag := by
    intro codec
    cases codec <;> rfl
  have hwritten : ∀ codec : Codec, codec.written.written = codec.written := by
    intro codec
    cases codec <;> rfl
  have hbytes := congrArg (fun bytes => bytes.data.toList) h
  simp only [ItemSet.tagByte, ← List.toByteArray_append, List.toList_data_toByteArray,
    List.singleton_append, List.cons.injEq] at hbytes
  have hsame := congrArg UInt8.toNat hbytes.1
  rw [htag, htag] at hsame
  have hfound := congrArg Codec.ofTag? hsame
  rw [Codec.ofTag?_tag, Codec.ofTag?_tag, hwritten, hwritten] at hfound
  exact ⟨Option.some.inj hfound, hbytes.2⟩

/-- What is written tells the items, whichever codecs have written it. -/
theorem eq_of_encodeTagged {another : Codec} (hascend : Ascending items)
    (hother : Ascending other) (hblock : tuning.blockSize < 2 ^ 32)
    (h : encodeTagged items codec tuning = .ok bytes)
    (h' : encodeTagged other another tuning = .ok bytes) : items = other := by
  obtain ⟨back, hback, hcounts⟩ := exists_encodeTagged_eq h
  obtain ⟨back', hback', hcounts'⟩ := exists_encodeTagged_eq h'
  obtain ⟨hwritten, rfl⟩ := written_eq_of_tagByte (hback.symm.trans hback')
  rw [← hwritten] at hcounts'
  have hread : items.length < 2 ^ 32 → other.length < 2 ^ 32 → items = other := by
    intro hfew hfew'
    obtain ⟨set, hset, rfl⟩ := ItemSet.exists_of_encodeTagged hfew hascend hblock h
    obtain ⟨again, hagain, rfl⟩ := ItemSet.exists_of_encodeTagged hfew' hother hblock h'
    rw [Except.ok.inj (hset.symm.trans hagain)]
  rcases hcounts.eq_or_few hcounts' (length_le_of_ascending hascend)
    (length_le_of_ascending hother) with hlength | ⟨hfew, hfew'⟩
  · rcases Nat.lt_or_ge items.length (2 ^ 32) with hfew | hfull
    · exact hread hfew (hlength ▸ hfew)
    · exact eq_of_full hascend hother hfull (hlength ▸ hfull)
  · exact hread hfew hfew'

/-! ### Native bytes -/

theorem Codec.tag_of_ofTag? {tag : Nat} (h : ofTag? tag = some codec) : codec.tag = tag := by
  unfold ofTag? at h
  split at h
  all_goals first | exact Option.some.inj h ▸ rfl | exact absurd h (by simp)

namespace Form

theorem codec_of_reads {front : List UInt8} {form : Form} (h : Reads (readAs codec) front form) :
    form.codec = codec.written := by
  have hyields : Yields (readAs codec) fun form => form.codec = codec.written := by
    cases codec with
    | _ => exact (Yields.any _).bind fun _ _ => Yields.pure rfl
  obtain ⟨reader, rfl⟩ := Reader.exists_rest_eq front
  exact hyields reader form _ (h.accepts reader List.prefix_rfl)

theorem eq_of_readNative {front : List UInt8} {list : Native}
    (h : Reads (do return native (← Native.read)) front (native list)) :
    front = Bytes.digits list.size 4 ++ list.values.data.toList := by
  obtain ⟨again, lead, back, rfl, hread, hpure⟩ := h.of_bind Native.delimited_read fun _ =>
    Delimited.pure _
  obtain ⟨rfl, hsame⟩ := hpure.of_pure
  obtain rfl := Form.native.inj hsame
  rw [List.append_nil, Native.eq_of_reads hread]

/-- The only bytes that are read as a native list are a tag, its size and its values. -/
theorem eq_of_reads_native {front : List UInt8} {list : Native}
    (h : Reads readTagged front (native list)) :
    front = [UInt8.ofNat Codec.native.tag]
      ++ (Bytes.digits list.size 4 ++ list.values.data.toList) := by
  obtain ⟨reader, hreader⟩ := Reader.exists_rest_eq front
  have hlead : front <+: reader.rest := hreader ▸ List.prefix_rfl
  have hannounced := delimited_readAnnounced.reads hlead
    (readTagged_eq_ok.1 (h.accepts reader hlead))
  obtain ⟨tag, head, back, rfl, hhead, hback⟩ := hannounced.of_bind Delimited.byte fun tag => by
    split
    · exact delimited_readAs _
    · exact Delimited.throw _
  split at hback
  next found htag =>
    have hnative := codec_of_reads hback
    rw [hhead.of_little, ← Codec.tag_of_ofTag? htag]
    cases found with
    | native | vector => rw [eq_of_readNative hback]; rfl
    | range | compact | line | frame => exact absurd hnative (by simp [Form.codec, Codec.written])
  next =>
    obtain ⟨reader, rfl⟩ := Reader.exists_rest_eq back
    have hok := hback.accepts reader List.prefix_rfl
    exact absurd (show EStateM.Result.error _ reader = .ok _ _ from hok) (by simp)

end Form

namespace ItemSet

/-- The bytes that a native list is read from are those that its items are written as. -/
theorem encoded_of_native {set : ItemSet} (h : ofTrustedBytes bytes = .ok set)
    (hcodec : set.codec = .native) :
    set.encoded = some (Native.encode set.items (tagByte .native)) := by
  obtain ⟨front, form, hreads, -, -, rfl⟩ := ofTrustedBytes_eq_ok.1 h
  cases form with
  | native list =>
    have hitems : (ItemSet.mk (.native list) (some front.toByteArray)).items
        = List.ofFn list.get := by
      rw [items_eq]
      exact (Form.ofFn_get (.native list) (by simp [Form.codec])).symm
    rw [hitems, Native.encode_eq, List.length_ofFn, Native.itemBytes_get,
      Form.eq_of_reads_native hreads, List.toByteArray_append]
    rfl
  | vector items | range range | compact list | line list | frame list =>
    exact absurd hcodec (by simp [ItemSet.codec, Form.codec])

end ItemSet

end Postings
