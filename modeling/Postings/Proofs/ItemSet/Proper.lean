/-
Posting lists whose bytes are their own.

* `Whole` — bytes that are one list of ascending items and nothing else;
* `ItemSet.Proper` — a valid list that its bytes, if it has any, are read back as;
* `ItemSet.proper_of_ofBytes`, `ItemSet.proper_of_ofList`, `ItemSet.proper_of_ofRange` — lists that
  are read or built are proper.
-/
import Postings.Proofs.ItemSet.Decode

namespace Postings

open Layout

/-- One list of ascending items and nothing else. -/
def Whole (bytes : ByteArray) : Prop :=
  ∃ set, ItemSet.ofBytes bytes = .ok set ∧ set.byteLength = bytes.size

namespace Form

theorem reads_announced {codec : Codec} {front : List UInt8} {form : Form}
    (h : Reads (readAs codec.written) front form) :
    Reads readAnnounced ([UInt8.ofNat codec.written.tag] ++ front) form := by
  have htag : codec.written.tag < 256 := by cases codec <;> decide
  have hwritten : codec.written.written = codec.written := by cases codec <;> rfl
  refine (Reads.byte htag).bind ?_
  rw [Codec.ofTag?_tag, hwritten]
  exact h

end Form

namespace ItemSet

/-- A valid list that its bytes, if it has any, are read back as. -/
structure Proper (set : ItemSet) : Prop extends set.Valid where
  rereads : ∀ bytes, set.encoded = some bytes → ofTrustedBytes bytes = .ok set

variable {set : ItemSet} {bytes : ByteArray}

theorem proper_of_reads {front : List UInt8} {form : Form} (h : Reads Form.readTagged front form)
    (hvalid : Valid ⟨form, some front.toByteArray⟩) : Proper ⟨form, some front.toByteArray⟩ := by
  refine ⟨hvalid, fun bytes hbytes => ?_⟩
  obtain rfl := Option.some.inj hbytes
  exact ofTrustedBytes_of_reads h (by simp)

theorem Proper.whole (h : set.Proper) (hbytes : set.encoded = some bytes) : Whole bytes := by
  refine ⟨set, ofBytes_eq_ok.2 ⟨h.rereads bytes hbytes, h.ascending⟩, ?_⟩
  rw [byteLength, hbytes]

theorem proper_of_ofBytes (h : ofBytes bytes = .ok set) : set.Proper := by
  obtain ⟨htrusted, hascend⟩ := ofBytes_eq_ok.1 h
  obtain ⟨front, form, hreads, -, hreadable, rfl⟩ := ofTrustedBytes_eq_ok.1 htrusted
  refine proper_of_reads hreads ⟨hascend, ?_⟩
  rw [items_eq]
  exact hreadable.length_items_lt

/-- A list that is read from all of some bytes has these bytes. -/
theorem encoded_of_whole (h : ofBytes bytes = .ok set) (hall : set.byteLength = bytes.size) :
    set.encoded = some bytes := by
  obtain ⟨front, form, -, hlead, -, rfl⟩ := ofTrustedBytes_eq_ok.1 (ofBytes_eq_ok.1 h).1
  have hlength : front.length = bytes.data.toList.length := by
    rw [Array.length_toList]
    exact List.size_toByteArray.symm.trans hall
  obtain rfl := hlead.eq_of_length hlength
  exact congrArg some (ByteArray.ext (List.data_toByteArray.trans (Array.toArray_toList ..)))

theorem proper_ofAscending {items : Array Item} (hascend : Ascending items.toList)
    (hfew : items.size < 2 ^ 32) : (ofAscending items).Proper :=
  ⟨⟨hascend, hfew⟩, fun _ h => absurd h (by simp [ofAscending])⟩

theorem proper_empty : empty.Proper :=
  proper_ofAscending List.Pairwise.nil (by decide)

theorem proper_of_ofList {items : List Item} (hfew : items.length < 2 ^ 32)
    (h : ofList items = .ok set) : set.Proper := by
  rw [ofList] at h
  split at h
  · exact absurd h (by simp)
  next hnone =>
    obtain rfl := Except.ok.inj h
    exact proper_ofAscending (firstDescent?_eq_none.1 hnone) hfew

theorem proper_of_ofRange {begin : Item} {stop : Nat} {stride : UInt32}
    (h : ofRange begin stop stride = .ok set) : set.Proper := by
  rw [ofRange] at h
  cases hmake : Progression.make begin stop stride with
  | error error =>
    rw [hmake] at h
    exact absurd h (by simp [Bind.bind, Except.bind])
  | ok range =>
    rw [hmake] at h
    obtain rfl := Except.ok.inj h
    have hform : Reads (Form.readAs Codec.range.written) _ (.range range) :=
      (Progression.reads_encode range).map Form.range
    have hreads := Form.reads_tagged (Form.reads_announced hform)
    rw [Progression.encode_eq, tagByte, ← List.toByteArray_append]
    refine proper_of_reads hreads ⟨?_, ?_⟩
    · rw [items_eq]
      exact ascending_range range
    · rw [items_eq, Form.length_items (by simp [Form.codec])]
      exact range.size_lt

end ItemSet

end Postings
