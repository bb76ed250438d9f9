/-
Posting lists read from bytes that anyone may have written.

* `Form.reads_tagged`, `Form.delimited_readTagged` — a tag and a layout mark themselves off;
* `Form.Inside` — what an access reads is there;
* `ItemSet.ofTrustedBytes_eq_ok` — the list in front of bytes, and the bytes it takes;
* `ItemSet.ofBytes_eq_ok` — the check of the order adds that the items ascend.
-/
import Postings.ItemSet.Decode
import Postings.Proofs.ItemSet.Items
import Postings.Proofs.Layout.Native
import Postings.Proofs.Layout.Compact

namespace Postings

open Layout

namespace Form

/-! ### Layouts behind a tag -/

/-- Every place that an access below the size reads is there, and every sum that it forms is an
item; no difference is below zero, and nothing is divided by zero. -/
def Inside : Form → Prop
  | native list => ∀ position < list.size, 4 * position + 4 ≤ list.values.size
  | vector _ => True
  | .range list => list.begin.toNat ≤ list.stop ∧ 0 < list.stride.toNat ∧
      ∀ position < list.size, list.begin.toNat + position * list.stride.toNat < 2 ^ 32
  | compact list => list.packed.Inside
  | line list => list.line.Inside
  | frame list => list.Inside

/-- What is true of every list that was read. -/
structure Readable (form : Form) : Prop where
  ne_vector : form.codec ≠ .vector
  size_lt : form.size < 2 ^ 32
  inside : form.Inside

theorem delimited_readAs (codec : Codec) : Delimited (readAs codec) := by
  cases codec with
  | native => exact Native.delimited_read.bind fun _ => Delimited.pure _
  | vector => exact Native.delimited_read.bind fun _ => Delimited.pure _
  | range => exact Progression.delimited_read.bind fun _ => Delimited.pure _
  | compact => exact Compact.delimited_read.bind fun _ => Delimited.pure _
  | line => exact Ascent.delimited_read.bind fun _ => Delimited.pure _
  | frame => exact Frame.delimited_read.bind fun _ => Delimited.pure _

theorem yields_readNative : Yields (do return native (← Native.read)) Readable := by
  refine Native.yields_read.bind fun list hsize => Yields.pure ⟨by simp [codec], hsize, ?_⟩
  intro position hp
  rw [list.values_size]
  omega

theorem yields_readAs (codec : Codec) : Yields (readAs codec) Readable := by
  cases codec with
  | native => exact yields_readNative
  | vector => exact yields_readNative
  | range =>
    refine (Yields.any _).bind fun range _ => Yields.pure ⟨by simp [Form.codec], range.size_lt, ?_⟩
    refine ⟨range.begin_le, range.stride_pos, fun position hp => ?_⟩
    exact Nat.lt_of_lt_of_le (Progression.lt_size_iff.1 hp) range.stop_le
  | compact =>
    refine Compact.yields_read.bind fun list hsize => Yields.pure ⟨by simp [Form.codec], hsize, ?_⟩
    exact Compact.inside hsize
  | line =>
    refine Ascent.yields_read.bind fun list hline => ?_
    exact Yields.pure ⟨by simp [Form.codec], hline.1, hline.2⟩
  | frame =>
    refine Frame.yields_read.bind fun list hlist => ?_
    exact Yields.pure ⟨by simp [Form.codec], hlist.1, Frame.inside hlist.1 hlist.2⟩

/-- Reads a tag and the list that it announces, from bytes that do not end here. -/
def readAnnounced : Read Form := do
  let tag ← Read.byte "index tag"
  match Codec.ofTag? tag with
  | some codec => readAs codec
  | none => throw (.unknownTag tag)

theorem delimited_readAnnounced : Delimited readAnnounced := by
  refine Delimited.byte.bind fun tag => ?_
  split
  · exact delimited_readAs _
  · exact Delimited.throw _

theorem yields_readAnnounced : Yields readAnnounced Readable := by
  refine (Yields.any _).bind fun tag _ => ?_
  split
  · exact yields_readAs _
  · exact Yields.throw _

theorem readTagged_of_rest_eq_nil {reader : Reader} (h : reader.rest = []) :
    readTagged reader = .error (.corrupt .noBytes) reader := by
  have hnone : reader.remaining = 0 := by rw [Reader.remaining, ← Reader.length_rest, h]; rfl
  have hget : Read.remaining reader = .ok 0 reader := by rw [← hnone]; rfl
  rw [readTagged, Read.bind_ok hget]
  rfl

theorem readTagged_of_rest_ne_nil {reader : Reader} (h : reader.rest ≠ []) :
    readTagged reader = readAnnounced reader := by
  have hget : Read.remaining reader = .ok reader.rest.length reader := by
    rw [Reader.length_rest]
    rfl
  rw [readTagged, Read.bind_ok hget, if_neg fun hzero => h (List.eq_nil_of_length_eq_zero hzero)]
  rfl

/-- A tag is read, so the bytes do not end before it. -/
theorem rest_ne_nil_of_readAnnounced {reader after : Reader} {form : Form}
    (h : readAnnounced reader = .ok form after) : reader.rest ≠ [] := by
  intro hnil
  obtain ⟨tag, middle, htag, -⟩ := Read.bind_eq_ok h
  have hnone : reader.advance? 1 = none := Reader.advance?_eq_none (by rw [hnil]; decide)
  rw [Read.byte, Read.little, hnone] at htag
  exact absurd htag (by simp)

theorem reads_tagged {front : List UInt8} {form : Form} (h : Reads readAnnounced front form) :
    Reads readTagged front form where
  accepts reader hlead := by
    have hok := h.accepts reader hlead
    rw [readTagged_of_rest_ne_nil (rest_ne_nil_of_readAnnounced hok), hok]
  refuses reader hlead hne := by
    by_cases hnil : reader.rest = []
    · -- No byte at all has a cause of its own, before the tag is asked for.
      exact ⟨.noBytes, reader, readTagged_of_rest_eq_nil hnil⟩
    · rw [readTagged_of_rest_ne_nil hnil]
      exact h.refuses reader hlead hne

theorem readTagged_eq_ok {reader after : Reader} {form : Form} :
    readTagged reader = .ok form after ↔ readAnnounced reader = .ok form after := by
  by_cases hnil : reader.rest = []
  · rw [readTagged_of_rest_eq_nil hnil]
    constructor
    · exact fun h => absurd h (by simp)
    · exact fun h => absurd hnil (rest_ne_nil_of_readAnnounced h)
  · rw [readTagged_of_rest_ne_nil hnil]

theorem delimited_readTagged : Delimited readTagged := by
  intro reader form after h
  obtain ⟨front, hlead, hafter, hreads⟩ :=
    delimited_readAnnounced reader form after (readTagged_eq_ok.1 h)
  exact ⟨front, hlead, hafter, reads_tagged hreads⟩

theorem yields_readTagged : Yields readTagged Readable := by
  intro reader form after h
  exact yields_readAnnounced reader form after (readTagged_eq_ok.1 h)

theorem Readable.length_items_lt {form : Form} (h : form.Readable) :
    form.items.length < 2 ^ 32 := by
  rw [length_items h.ne_vector]
  exact h.size_lt

end Form

/-! ### Posting lists -/

namespace ItemSet

variable {bytes : ByteArray} {set : ItemSet}

theorem ofTrustedBytes_of_reads {front : List UInt8} {form : Form}
    (h : Reads Form.readTagged front form) (hlead : front <+: bytes.data.toList) :
    ofTrustedBytes bytes = .ok ⟨form, some front.toByteArray⟩ := by
  have hle : front.length ≤ (Reader.ofBytes bytes).rest.length := hlead.length_le
  have hposition := Reader.position_forward hle
  have hextract : bytes.extract 0 front.length = front.toByteArray := by
    apply ByteArray.ext
    apply Array.toList_inj.1
    rw [ByteArray.data_extract, Array.toList_extract, List.extract_eq_take_drop, List.drop_zero,
      Nat.sub_zero, List.toList_data_toByteArray]
    exact (List.prefix_iff_eq_take.1 hlead).symm
  rw [Reader.ofBytes, Nat.zero_add] at hposition
  rw [ofTrustedBytes, Read.run_of_reads h hlead]
  show Except.ok (ItemSet.mk form (some (bytes.extract 0 _))) = _
  rw [Reader.ofBytes, hposition, hextract]

/-- The list in front of bytes, and the bytes that it takes. -/
theorem ofTrustedBytes_eq_ok : ofTrustedBytes bytes = .ok set ↔
    ∃ (front : List UInt8) (form : Form), Reads Form.readTagged front form ∧
      front <+: bytes.data.toList ∧ form.Readable ∧ set = ⟨form, some front.toByteArray⟩ := by
  constructor
  · intro h
    have hbytes := h
    rw [ofTrustedBytes, Read.run] at h
    cases hread : Form.readTagged (Reader.ofBytes bytes) with
    | error error after =>
      rw [hread] at h
      exact absurd (show Except.error error = .ok set from h) (by simp)
    | ok form after =>
      obtain ⟨front, hlead, -, hreads⟩ := Form.delimited_readTagged _ _ _ hread
      have hlead : front <+: bytes.data.toList := hlead
      refine ⟨front, form, hreads, hlead, Form.yields_readTagged _ _ _ hread, ?_⟩
      rw [ofTrustedBytes_of_reads hreads hlead] at hbytes
      exact (Except.ok.inj hbytes).symm
  · rintro ⟨front, form, hreads, hlead, -, rfl⟩
    exact ofTrustedBytes_of_reads hreads hlead

theorem ascending_range (range : Progression) : Ascending (Form.range range).items := by
  rw [Ascending, List.pairwise_iff_getElem]
  intro i j hi hj hij
  simp only [Form.items_range, List.getElem_map, List.getElem_range]
  rw [Form.items_range, List.length_map, List.length_range] at hj
  exact Progression.get_lt_get hij hj

theorem ascending_line (list : Ascent) : Ascending (Form.line list).items := by
  rw [← Form.ofFn_get (.line list) (by simp [Form.codec]), Ascending, List.pairwise_iff_getElem]
  intro i j hi hj hij
  rw [List.getElem_ofFn, List.getElem_ofFn]
  exact Ascent.get_lt_get list hij

/-- The check passes exactly when the items ascend; a vector is not checked. -/
theorem validate_eq_ok (h : set.form.codec ≠ .vector) :
    set.validate = .ok () ↔ Ascending set.items := by
  rw [items_eq]
  obtain ⟨form, encoded⟩ := set
  -- Lists that are not ascending by how they are built are scanned for a descent.
  have hscan : ∀ {result : Except Error Unit},
      (Source.descent? form.cursor = none → result = .ok ()) →
      (∀ found, Source.descent? form.cursor = some found → result ≠ .ok ()) →
      (result = .ok () ↔ Ascending form.items) := by
    intro result hok herror
    rw [Form.items, ← Source.descent?_eq_none]
    cases hdescent : Source.descent? form.cursor with
    | none => exact iff_of_true (hok hdescent) rfl
    | some found => exact iff_of_false (herror found hdescent) (by simp)
  cases form with
  | vector items => exact absurd rfl h
  | range range => exact iff_of_true rfl (ascending_range range)
  | line list => exact iff_of_true rfl (ascending_line list)
  | native list | compact list | frame list =>
    refine hscan (fun hnone => ?_) fun found hfound => ?_
    · simp [validate, hnone]
    · simp [validate, hfound]

theorem codec_ne_vector (h : ofTrustedBytes bytes = .ok set) : set.form.codec ≠ .vector := by
  obtain ⟨front, form, -, -, hreadable, rfl⟩ := ofTrustedBytes_eq_ok.1 h
  exact hreadable.ne_vector

theorem ofBytes_eq_ok :
    ofBytes bytes = .ok set ↔ ofTrustedBytes bytes = .ok set ∧ Ascending set.items := by
  rw [ofBytes]
  cases htrusted : ofTrustedBytes bytes with
  | error error => simp [Bind.bind, Except.bind]
  | ok found =>
    have hvalidate := validate_eq_ok (codec_ne_vector htrusted)
    show (do found.validate; pure found : Except Error ItemSet) = .ok set ↔ _
    cases hcheck : found.validate with
    | error error =>
      rw [hcheck] at hvalidate
      constructor
      · exact fun h => absurd (show Except.error error = .ok set from h) (by simp)
      · rintro ⟨hset, hascend⟩
        rw [← Except.ok.inj hset, ← hvalidate] at hascend
        exact absurd hascend (by simp)
    | ok _ =>
      constructor
      · intro h
        obtain rfl := Except.ok.inj (show Except.ok found = .ok set from h)
        exact ⟨rfl, hvalidate.1 hcheck⟩
      · exact fun h => h.1

end ItemSet

end Postings
