/-
Posting lists written with a codec.

* `FirstDescent`, `firstDescent?_eq_some` — where a list fails to ascend;
* `Unsupported` — the two ways in which a codec cannot take an ascending list;
* `exists_encodeTagged` — any other list is written, and what is written is read back;
* `ItemSet.encode_spec` — the outcome of encoding any list.
-/
import Postings.ItemSet.Encode
import Postings.Proofs.ItemSet.Proper

namespace Postings

open Layout

/-! ### The first descent -/

/-- The items before `position` strictly ascend, and the one there does not exceed the last of
them. -/
def FirstDescent (items : List Item) (position : Nat) : Prop :=
  ∃ before, position = before + 1 ∧ ∃ h : before + 1 < items.length,
    items[before + 1] ≤ items[before] ∧ Ascending (items.take (before + 1))

theorem firstDescent_cons_cons_succ {first second : Item} {rest : List Item} {before : Nat}
    (hlt : first < second) :
    FirstDescent (first :: second :: rest) (before + 1 + 1) ↔
      FirstDescent (second :: rest) (before + 1) := by
  have htake : Ascending ((first :: second :: rest).take (before + 1 + 1)) ↔
      Ascending ((second :: rest).take (before + 1)) := by
    rw [List.take_succ_cons, List.take_succ_cons, ascending_cons_cons]
    exact and_iff_right hlt
  constructor
  · rintro ⟨_, hbefore, h, hdescent, hascend⟩
    obtain rfl := Nat.succ.inj hbefore
    exact ⟨before, rfl, Nat.lt_of_succ_lt_succ h, hdescent, htake.1 hascend⟩
  · rintro ⟨_, hbefore, h, hdescent, hascend⟩
    obtain rfl := Nat.succ.inj hbefore
    exact ⟨before + 1, rfl, Nat.succ_lt_succ h, hdescent, htake.2 hascend⟩

theorem firstDescentFrom_eq_some {previous : Item} {position found : Nat} {items : List Item} :
    firstDescentFrom previous position items = some found ↔
      ∃ before, found = position + before ∧ FirstDescent (previous :: items) (before + 1) := by
  induction items generalizing previous position with
  | nil =>
    simp only [firstDescentFrom, reduceCtorEq, false_iff]
    rintro ⟨before, -, _, hbefore, h, -⟩
    obtain rfl := Nat.succ.inj hbefore
    exact absurd (Nat.lt_of_succ_lt_succ h) (Nat.not_lt_zero _)
  | cons item rest ih =>
    rw [firstDescentFrom]
    split
    next hlt =>
      -- This pair ascends: a first descent is one position further in the whole list.
      rw [ih]
      constructor
      · rintro ⟨before, rfl, hfirst⟩
        exact ⟨before + 1, by omega, (firstDescent_cons_cons_succ hlt).2 hfirst⟩
      · rintro ⟨before, rfl, hfirst⟩
        cases before with
        | zero =>
          obtain ⟨_, hbefore, h, hdescent, -⟩ := hfirst
          obtain rfl := Nat.succ.inj hbefore
          exact absurd hlt (UInt32.not_lt.2 hdescent)
        | succ before =>
          exact ⟨before, by omega, (firstDescent_cons_cons_succ hlt).1 hfirst⟩
    next hge =>
      have hhere : FirstDescent (previous :: item :: rest) 1 :=
        ⟨0, rfl, Nat.succ_lt_succ (Nat.succ_pos _), UInt32.not_lt.1 hge, by simp [Ascending]⟩
      constructor
      · intro h
        obtain rfl := Option.some.inj h
        exact ⟨0, rfl, hhere⟩
      · rintro ⟨before, rfl, _, hbefore, h, hdescent, hascend⟩
        obtain rfl := Nat.succ.inj hbefore
        cases before with
        | zero => rfl
        | succ before =>
          rw [List.take_succ_cons, List.take_succ_cons, ascending_cons_cons] at hascend
          exact absurd hascend.1 hge

/-- The first descent is found where it is. -/
theorem firstDescent?_eq_some {items : List Item} {position : Nat} :
    firstDescent? items = some position ↔ FirstDescent items position := by
  cases items with
  | nil =>
    simp only [firstDescent?, reduceCtorEq, false_iff]
    rintro ⟨before, -, h, -⟩
    exact absurd h (Nat.not_lt_zero _)
  | cons item rest =>
    rw [firstDescent?, firstDescentFrom_eq_some]
    constructor
    · rintro ⟨before, rfl, hfirst⟩
      rwa [Nat.add_comm]
    · rintro hfirst
      obtain ⟨before, rfl, -⟩ := id hfirst
      exact ⟨before, Nat.add_comm _ _, hfirst⟩

theorem ascending_iff_not_firstDescent {items : List Item} :
    Ascending items ↔ ∀ position, ¬ FirstDescent items position := by
  simp only [← firstDescent?_eq_none, ← firstDescent?_eq_some, Option.eq_none_iff_forall_ne_some,
    ne_eq]

/-! ### Writing and reading back -/

namespace Form

theorem items_eq_of_get {form : Form} {items : List Item} (h : form.codec ≠ .vector)
    (hsize : form.size = items.length)
    (hget : ∀ (position : Fin form.size) (hp : position.val < items.length),
      form.get position = items[position.val]) : form.items = items := by
  rw [← ofFn_get form fun hvector => absurd hvector h]
  apply List.ext_getElem
  · rw [List.length_ofFn, hsize]
  · intro position _ hp
    rw [List.getElem_ofFn]
    exact hget _ hp

end Form

/-- The codec cannot hold these ascending items, or not with this block size. -/
def Unsupported (codec : Codec) (items : List Item) (tuning : Tuning) : Prop :=
  codec = .range ∧ ¬ Progression.IsProgression items ∨ codec = .frame ∧ tuning.blockSize = 0

/-- The bytes of one layout, written behind any output, are read back as the same items. -/
def ReadBack (codec : Codec) (items : List Item) (write : ByteArray → Except Error ByteArray) :
    Prop :=
  ∀ out, ∃ (front : List UInt8) (form : Form), write out = .ok (out ++ front.toByteArray) ∧
    Reads (Form.readAs codec) front form ∧ form.codec = codec ∧ form.items = items

section ReadBack

variable {items : List Item} {tuning : Tuning}

theorem readBack_native (hlength : items.length < 2 ^ 32) :
    ReadBack .native items fun out => .ok (Native.encode items out) := by
  intro out
  obtain ⟨list, hreads, hsize, hvalues⟩ := Native.reads_encode hlength
  refine ⟨_, .native list, congrArg Except.ok (Native.encode_eq items out),
    hreads.map Form.native, rfl, ?_⟩
  exact Form.items_eq_of_get (by simp [Form.codec]) hsize (Native.get_itemBytes hvalues)

theorem readBack_compact (hlength : items.length < 2 ^ 32) (hascend : Ascending items) :
    ReadBack .compact items fun out => .ok (Compact.encode items out) := by
  intro out
  obtain ⟨front, list, hwrite, hreads, hsize, hget⟩ := Compact.reads_encode hlength hascend out
  refine ⟨front, .compact list, congrArg Except.ok hwrite, hreads.map Form.compact, rfl, ?_⟩
  exact Form.items_eq_of_get (by simp [Form.codec]) hsize hget

theorem readBack_line (hlength : items.length < 2 ^ 32) (hascend : Ascending items) :
    ReadBack .line items (Line.encode tuning.fit (items.map UInt32.toNat)) := by
  intro out
  obtain ⟨front, list, hwrite, hreads, hsize, hget⟩ := Ascent.reads_encodeAlong hlength hascend
    (UInt64.toNat_lt (tuning.fit (items.map UInt32.toNat))) out
  refine ⟨front, .line list, hwrite, hreads.map Form.line, rfl, ?_⟩
  exact Form.items_eq_of_get (by simp [Form.codec]) hsize hget

theorem readBack_frame (hlength : items.length < 2 ^ 32) (hpos : 0 < tuning.blockSize)
    (hblock : tuning.blockSize < 2 ^ 32) :
    ReadBack .frame items (Frame.encode items tuning.blockSize) := by
  intro out
  obtain ⟨front, list, hwrite, hreads, hsize, hget⟩ :=
    Frame.reads_encode hlength hpos hblock out
  refine ⟨front, .frame list, hwrite, hreads.map Form.frame, rfl, ?_⟩
  rw [← Form.ofFn_get (.frame list) (by simp [Form.codec])]
  exact hget

theorem readBack_range (range : Progression) (hsize : range.size = items.length)
    (hget : ∀ position (hp : position < items.length), range.get position = items[position]) :
    ReadBack .range items fun out => .ok (range.encode out) := by
  intro out
  refine ⟨_, .range range, congrArg Except.ok (Progression.encode_eq range out),
    (Progression.reads_encode range).map Form.range, rfl, ?_⟩
  exact Form.items_eq_of_get (by simp [Form.codec]) hsize fun position hp => hget _ hp

/-- An ascending list is written unless its codec cannot take it. -/
theorem readBack_encodeTagged (hlength : items.length < 2 ^ 32) (hascend : Ascending items)
    (hblock : tuning.blockSize < 2 ^ 32) {codec : Codec} (h : ¬ Unsupported codec items tuning) :
    ∃ write, encodeTagged items codec tuning = write (ItemSet.tagByte codec.written) ∧
      ReadBack codec.written items write := by
  cases codec with
  | native => exact ⟨_, rfl, readBack_native hlength⟩
  | vector => exact ⟨_, rfl, readBack_native hlength⟩
  | compact => exact ⟨_, rfl, readBack_compact hlength hascend⟩
  | line => exact ⟨_, rfl, readBack_line hlength hascend⟩
  | frame =>
    have hpos : 0 < tuning.blockSize := Nat.pos_of_ne_zero fun hzero => h (.inr ⟨rfl, hzero⟩)
    exact ⟨_, rfl, readBack_frame hlength hpos hblock⟩
  | range =>
    rcases Classical.em (Progression.IsProgression items) with hprogression | hnot
    · obtain ⟨range, hdetect, hsize, hget⟩ :=
        Progression.detect?_of_isProgression hlength hprogression
      refine ⟨_, ?_, readBack_range range hsize hget⟩
      simp only [encodeTagged, hdetect]
    · exact absurd (.inl ⟨rfl, hnot⟩) h

end ReadBack

theorem encodeTagged_of_unsupported {items : List Item} {codec : Codec} {tuning : Tuning}
    (h : Unsupported codec items tuning) :
    ∃ cause, encodeTagged items codec tuning = .error (.unsupported cause) := by
  rcases h with ⟨rfl, hnot⟩ | ⟨rfl, hzero⟩
  · exact ⟨.notProgression, by simp only [encodeTagged, Progression.detect?_eq_none hnot]⟩
  · exact ⟨.zeroBlockSize, by simp only [encodeTagged, Frame.encode, if_pos hzero]⟩

theorem exists_encodeTagged {items : List Item} {codec : Codec} {tuning : Tuning}
    (hlength : items.length < 2 ^ 32) (hascend : Ascending items)
    (hblock : tuning.blockSize < 2 ^ 32) (h : ¬ Unsupported codec items tuning) :
    ∃ (front : List UInt8) (form : Form),
      encodeTagged items codec tuning = .ok front.toByteArray ∧
      Reads Form.readTagged front form ∧ form.codec = codec.written ∧ form.items = items := by
  obtain ⟨write, hencode, hback⟩ := readBack_encodeTagged hlength hascend hblock h
  obtain ⟨front, form, hwrite, hreads, hcodec, hitems⟩ := hback (ItemSet.tagByte codec.written)
  refine ⟨[UInt8.ofNat codec.written.tag] ++ front, form, ?_,
    Form.reads_tagged (Form.reads_announced hreads), hcodec, hitems⟩
  rw [hencode, hwrite, ItemSet.tagByte, List.toByteArray_append]

namespace ItemSet

theorem encodeAscending_of_unsupported {items : List Item} {codec : Codec} {tuning : Tuning}
    (h : Unsupported codec items tuning) :
    ∃ cause, encodeAscending items codec tuning = .error (.unsupported cause) := by
  obtain ⟨cause, hencode⟩ := encodeTagged_of_unsupported h
  have hvector : codec ≠ .vector := by
    rintro rfl
    rcases h with ⟨h, -⟩ | ⟨h, -⟩
    · exact absurd h (by decide)
    · exact absurd h (by decide)
  exact ⟨cause, by rw [encodeAscending, if_neg hvector, hencode]; rfl⟩

theorem exists_encodeAscending {items : List Item} {codec : Codec} {tuning : Tuning}
    (hlength : items.length < 2 ^ 32) (hascend : Ascending items)
    (hblock : tuning.blockSize < 2 ^ 32) (h : ¬ Unsupported codec items tuning) :
    ∃ set, encodeAscending items codec tuning = .ok set ∧ set.codec = codec ∧
      set.items = items ∧ set.Proper := by
  by_cases hvector : codec = .vector
  · -- A vector is held as it is and has no bytes.
    subst hvector
    exact ⟨ofAscending items.toArray, rfl, rfl, rfl, proper_ofAscending hascend hlength⟩
  · obtain ⟨front, form, hencode, hreads, hcodec, hitems⟩ :=
      exists_encodeTagged hlength hascend hblock h
    have hwritten : codec.written = codec := by
      cases codec with
      | vector => exact absurd rfl hvector
      | _ => rfl
    have hset : (ItemSet.mk form (some front.toByteArray)).items = items := by
      rw [items_eq]
      exact hitems
    refine ⟨⟨form, some front.toByteArray⟩, ?_, hcodec.trans hwritten, hset,
      proper_of_reads hreads ⟨by rwa [hset], by rwa [hset]⟩⟩
    rw [encodeAscending, if_neg hvector, hencode]
    exact ofTrustedBytes_of_reads hreads (by simp)

/-- A list that does not ascend is refused where it first fails to, an ascending one exactly
when its codec cannot take it; any other list is held as it is, along whichever line its items
are written.  Block sizes are 32-bit numbers. -/
theorem encode_spec (items : List Item) (codec : Codec) (tuning : Tuning)
    (hlength : items.length < 2 ^ 32) (hblock : tuning.blockSize < 2 ^ 32) :
    (∀ position, FirstDescent items position →
      encode items codec tuning = .error (.unsorted position)) ∧
    ((∀ position, ¬ FirstDescent items position) →
      (Unsupported codec items tuning →
        ∃ cause, encode items codec tuning = .error (.unsupported cause)) ∧
      (¬ Unsupported codec items tuning →
        ∃ set, encode items codec tuning = .ok set ∧ set.codec = codec ∧
          set.size = items.length ∧ Source.toList set.cursor = items)) := by
  refine ⟨fun position hfirst => ?_, fun hnone => ?_⟩
  · rw [encode, firstDescent?_eq_some.2 hfirst]
  · have hascend := ascending_iff_not_firstDescent.2 hnone
    rw [encode, firstDescent?_eq_none.2 hascend]
    refine ⟨encodeAscending_of_unsupported, fun hsupported => ?_⟩
    obtain ⟨set, hset, hcodec, rfl, -⟩ := exists_encodeAscending hlength hascend hblock hsupported
    exact ⟨set, hset, hcodec, size_eq hlength, toList_cursor set⟩

theorem encode_spec_frame :
    ([3, 7, 9] : List Item).length < 2 ^ 32 ∧
      ∃ set, encode [3, 7, 9] .frame { blockSize := 2 } = .ok set ∧ set.codec = .frame ∧
        set.size = 3 ∧ Source.toList set.cursor = [3, 7, 9] := by
  have hspec := encode_spec [3, 7, 9] .frame { blockSize := 2 } (by decide) (by decide)
  have hascend : Ascending [3, 7, 9] := by decide
  refine ⟨by decide, (hspec.2 (ascending_iff_not_firstDescent.1 hascend)).2 ?_⟩
  rintro (⟨h, -⟩ | ⟨-, h⟩)
  · exact absurd h (by decide)
  · exact absurd h (by decide)

end ItemSet

end Postings
