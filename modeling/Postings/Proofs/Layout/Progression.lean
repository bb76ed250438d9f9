/-
Arithmetic progressions: what they enumerate, and which lists are one.

* `Progression.toNat_get` — below the size no item is cut off at 32 bits;
* `Progression.find?_eq_some` — an item is found exactly where it stands;
* `Progression.IsProgression` — a list runs in equal positive steps;
* `Progression.detect?_of_isProgression`, `Progression.detect?_eq_none` — exactly those lists are
  detected, and the progression that is found enumerates them;
* `Progression.reads_encode` — the three numbers are read back.
-/
import Postings.Layout.Progression
import Postings.Proofs.Bytes.Reads

namespace Postings.Layout.Progression

/-! ### Items -/

theorem lt_size_iff {range : Progression} {position : Nat} :
    position < range.size ↔ range.begin.toNat + position * range.stride.toNat < range.stop := by
  have hstride := range.stride_pos
  have hbegin := range.begin_le
  rw [size, Nat.lt_iff_add_one_le, Nat.le_div_iff_mul_le hstride, Nat.succ_mul]
  omega

theorem toNat_get {range : Progression} {position : Nat} (h : position < range.size) :
    (range.get position).toNat = range.begin.toNat + position * range.stride.toNat := by
  have hlt := lt_size_iff.1 h
  have hstop := range.stop_le
  rw [get, UInt32.toNat_ofNat', Nat.mod_eq_of_lt (by omega)]

theorem get_lt_get {range : Progression} {first second : Nat} (h : first < second)
    (hsecond : second < range.size) : range.get first < range.get second := by
  have hstride := range.stride_pos
  have hmul := Nat.mul_le_mul_right range.stride.toNat (Nat.succ_le_of_lt h)
  rw [Nat.succ_mul] at hmul
  rw [UInt32.lt_iff_toNat_lt, toNat_get hsecond, toNat_get (Nat.lt_trans h hsecond)]
  omega

theorem find?_eq_some {range : Progression} {item : Item} {position : Nat} :
    range.find? item = some position ↔ position < range.size ∧ range.get position = item := by
  have hstride := range.stride_pos
  constructor
  · intro h
    rw [find?] at h
    split at h
    · exact absurd h (by simp)
    next hinside =>
      simp only [not_or, Nat.not_lt, Nat.not_le] at hinside
      simp only at h
      split at h
      next hmod =>
        -- Without a remainder, the quotient counts the steps up to the item.
        have hdiv := Nat.div_add_mod (item.toNat - range.begin.toNat) range.stride.toNat
        rw [hmod, Nat.add_zero, Option.some.inj h, Nat.mul_comm] at hdiv
        have hlt : position < range.size := lt_size_iff.2 (by omega)
        refine ⟨hlt, UInt32.toNat_inj.1 ?_⟩
        rw [toNat_get hlt]
        omega
      · exact absurd h (by simp)
  · rintro ⟨hlt, rfl⟩
    have hstop := lt_size_iff.1 hlt
    have hnot : ¬ ((range.get position).toNat < range.begin.toNat ∨
        range.stop ≤ (range.get position).toNat) := by
      rw [toNat_get hlt]
      omega
    rw [find?, if_neg hnot, toNat_get hlt, Nat.add_sub_cancel_left]
    simp only [Nat.mul_mod_left, if_true, Nat.mul_div_cancel _ hstride]

/-! ### Detection -/

/-- A list runs in equal positive steps; lists of one item or none do. -/
def IsProgression (items : List Item) : Prop :=
  ∃ begin stride : Nat, 0 < stride ∧
    ∀ position (h : position < items.length), items[position].toNat = begin + position * stride

theorem isProgression_nil : IsProgression [] :=
  ⟨0, 1, by decide, fun _ hp => absurd hp (Nat.not_lt_zero _)⟩

theorem isProgression_singleton (item : Item) : IsProgression [item] := by
  refine ⟨item.toNat, 1, by decide, fun position hp => ?_⟩
  obtain rfl : position = 0 := by simpa using hp
  simp

theorem isSteady_iff {stride : UInt32} {previous : Item} {items : List Item} :
    isSteady stride previous items = true ↔
      ∀ position (h : position < items.length),
        items[position].toNat = previous.toNat + (position + 1) * stride.toNat := by
  induction items generalizing previous with
  | nil => simp [isSteady]
  | cons item rest ih =>
    rw [isSteady, Bool.and_eq_true, decide_eq_true_eq, ih]
    constructor
    · rintro ⟨hitem, hrest⟩ position h
      cases position with
      | zero => simpa using hitem
      | succ position =>
        rw [List.getElem_cons_succ, hrest position (Nat.lt_of_succ_lt_succ h), hitem,
          Nat.succ_mul (position + 1)]
        omega
    · intro hall
      have hitem : item.toNat = previous.toNat + stride.toNat := by
        simpa using hall 0 (Nat.zero_lt_succ _)
      refine ⟨hitem, fun position h => ?_⟩
      have := hall (position + 1) (Nat.succ_lt_succ h)
      rw [List.getElem_cons_succ, Nat.succ_mul (position + 1)] at this
      omega

/-- The steps to the last item, one item more than steps. -/
theorem ceil_steps (begin count : Nat) {stride : Nat} (hstride : 0 < stride) :
    (begin + count * stride + 1 - begin + stride - 1) / stride = count + 1 := by
  have hsum : begin + count * stride + 1 - begin + stride - 1 = (count + 1) * stride := by
    rw [Nat.succ_mul]
    omega
  rw [hsum, Nat.mul_div_cancel _ hstride]

/-- The items of a progression that ends behind its last item. -/
theorem make_eq_ok {begin : Item} {stride : UInt32} {count : Nat} (hstride : 0 < stride.toNat)
    (hcount : count + 1 < 2 ^ 32) (hlast : begin.toNat + count * stride.toNat < 2 ^ 32) :
    ∃ range : Progression,
      make begin (begin.toNat + count * stride.toNat + 1) stride = .ok range ∧
        range.begin = begin ∧ range.stride = stride ∧ range.size = count + 1 := by
  have hsize := ceil_steps begin.toNat count hstride
  refine ⟨⟨begin, begin.toNat + count * stride.toNat + 1, stride, hstride, by omega, by omega,
    by rw [hsize]; exact hcount⟩, ?_, rfl, rfl, hsize⟩
  rw [make, dif_neg (by omega), dif_neg (by omega), dif_neg (by omega)]
  simp only [hsize, dif_pos hcount]

theorem eq_of_make {begin : Item} {stop : Nat} {stride : UInt32} {range : Progression}
    (h : make begin stop stride = .ok range) :
    range.begin = begin ∧ range.stop = stop ∧ range.stride = stride := by
  rw [make] at h
  split at h
  · exact absurd h (by simp)
  · split at h
    · exact absurd h (by simp)
    · split at h
      · exact absurd h (by simp)
      · simp only at h
        split at h
        · obtain rfl := Except.ok.inj h
          exact ⟨rfl, rfl, rfl⟩
        · exact absurd h (by simp)

/-- The last of two or more items. -/
theorem getElem?_last (first second : Item) (rest : List Item) :
    (first :: second :: rest)[rest.length + 1]? = some (rest.getLast?.getD second) := by
  rw [List.getElem?_cons_succ]
  cases rest with
  | nil => rfl
  | cons third rest =>
    rw [List.getLast?_eq_getElem?, List.length_cons, Nat.add_sub_cancel, List.getElem?_cons_succ]
    simp

theorem toNat_first_second {begin stride : Nat} {first second : Item} {rest : List Item}
    (hall : ∀ position (h : position < (first :: second :: rest).length),
      (first :: second :: rest)[position].toNat = begin + position * stride) :
    first.toNat = begin ∧ second.toNat = begin + stride := by
  have hfirst : first.toNat = begin + 0 * stride := hall 0 (by simp)
  have hsecond : second.toNat = begin + 1 * stride := hall 1 (by simp)
  omega

/-- A progression runs from its first item in steps of the first gap. -/
theorem toNat_getElem_of_isProgression {first second : Item} {rest : List Item}
    (h : IsProgression (first :: second :: rest)) :
    0 < (second - first).toNat ∧ ∀ position (hp : position < (first :: second :: rest).length),
      (first :: second :: rest)[position].toNat
        = first.toNat + position * (second - first).toNat := by
  obtain ⟨begin, stride, hpos, hall⟩ := h
  obtain ⟨hfirst, hsecond⟩ := toNat_first_second hall
  have hstride : (second - first).toNat = stride := by
    rw [UInt32.toNat_sub_of_le _ _ (UInt32.le_iff_toNat_le.2 (by omega))]
    omega
  rw [hstride, hfirst]
  exact ⟨hpos, hall⟩

theorem toNat_last {first second : Item} {rest : List Item}
    (h : IsProgression (first :: second :: rest)) :
    (rest.getLast?.getD second).toNat
      = first.toNat + (rest.length + 1) * (second - first).toNat := by
  obtain ⟨hlt, hlast⟩ := List.getElem?_eq_some_iff.1 (getElem?_last first second rest)
  rw [← hlast]
  exact (toNat_getElem_of_isProgression h).2 _ hlt

theorem isProgression_cons_cons {first second : Item} {rest : List Item} :
    IsProgression (first :: second :: rest) ↔
      (first < second && isSteady (second - first) second rest) = true := by
  rw [Bool.and_eq_true, decide_eq_true_eq, isSteady_iff]
  constructor
  · rintro ⟨begin, stride, hpos, hall⟩
    obtain ⟨hfirst, hsecond⟩ := toNat_first_second hall
    have hlt : first < second := by
      rw [UInt32.lt_iff_toNat_lt]
      omega
    refine ⟨hlt, fun position h => ?_⟩
    have := hall (position + 2) (by simpa using h)
    rw [List.getElem_cons_succ, List.getElem_cons_succ] at this
    rw [this, UInt32.toNat_sub_of_le _ _ (UInt32.le_of_lt hlt), hsecond, hfirst,
      Nat.add_sub_cancel_left, Nat.succ_mul (position + 1)]
    omega
  · rintro ⟨hlt, hall⟩
    have hsub := UInt32.toNat_sub_of_le _ _ (UInt32.le_of_lt hlt)
    rw [UInt32.lt_iff_toNat_lt] at hlt
    refine ⟨first.toNat, second.toNat - first.toNat, by omega, ?_⟩
    intro position h
    match position with
    | 0 => simp
    | 1 =>
      simp only [List.getElem_cons_succ, List.getElem_cons_zero, Nat.one_mul]
      omega
    | position + 2 =>
      rw [List.getElem_cons_succ, List.getElem_cons_succ, hall position (by simpa using h), hsub,
        Nat.succ_mul (position + 1)]
      omega

/-- A list that is detected is enumerated by its progression. -/
theorem detect?_of_isProgression {items : List Item} (hlength : items.length < 2 ^ 32)
    (h : IsProgression items) :
    ∃ range : Progression, detect? items = some range ∧ range.size = items.length ∧
      ∀ position (hp : position < items.length), range.get position = items[position] := by
  match items with
  | [] => exact ⟨empty, rfl, rfl, fun position hp => absurd hp (Nat.not_lt_zero _)⟩
  | [item] =>
    have hfits : item.toNat + 0 * (1 : UInt32).toNat < 2 ^ 32 := by
      simpa using UInt32.toNat_lt item
    obtain ⟨range, hmake, hbegin, hstride, hsize⟩ := make_eq_ok (by decide) (by decide) hfits
    rw [Nat.zero_mul, Nat.add_zero] at hmake
    refine ⟨range, by rw [detect?, hmake]; rfl, hsize, fun position hp => ?_⟩
    obtain rfl : position = 0 := by simpa using hp
    rw [get, hbegin, Nat.zero_mul, Nat.add_zero, UInt32.ofNat_toNat, List.getElem_cons_zero]
  | first :: second :: rest =>
    -- The range stops behind the last item, where the steps of all items end.
    have hsteady := isProgression_cons_cons.1 h
    obtain ⟨hpos, hall⟩ := toNat_getElem_of_isProgression h
    have hlast := toNat_last h
    have hcount : rest.length + 1 + 1 < 2 ^ 32 := by simpa using hlength
    have hfits : first.toNat + (rest.length + 1) * (second - first).toNat < 2 ^ 32 :=
      hlast ▸ UInt32.toNat_lt _
    obtain ⟨range, hmake, hbegin, hstride, hsize⟩ := make_eq_ok hpos hcount hfits
    rw [← hlast] at hmake
    refine ⟨range, ?_, hsize, fun position hp => ?_⟩
    · simp only [detect?, hsteady, if_true, hmake]
      rfl
    · refine UInt32.toNat_inj.1 ?_
      rw [toNat_get (by rw [hsize]; simpa using hp), hbegin, hstride, hall position hp]

/-- A list that is detected can be counted in 32 bits. -/
theorem length_lt_of_detect? {items : List Item} {range : Progression}
    (h : detect? items = some range) : items.length < 2 ^ 32 := by
  -- Two or more items are as many as a progression with their first, stride and end has.
  match items with
  | [] => exact Nat.two_pow_pos 32
  | [item] => exact Nat.one_lt_two_pow (by decide)
  | first :: second :: rest =>
    rw [detect?] at h
    split at h
    next hsteady =>
      have hprogression := isProgression_cons_cons.2 hsteady
      obtain ⟨hpos, -⟩ := toNat_getElem_of_isProgression hprogression
      simp only at h
      obtain ⟨hbegin, hstop, hstride⟩ := eq_of_make (eq_ok_of_toOption h)
      have hsize := range.size_lt
      rw [hbegin, hstop, hstride, toNat_last hprogression, ceil_steps _ _ hpos] at hsize
      exact hsize
    next => exact absurd h (by simp)

theorem detect?_eq_none {items : List Item} (h : ¬ IsProgression items) : detect? items = none := by
  match items with
  | [] => exact absurd isProgression_nil h
  | [item] => exact absurd (isProgression_singleton item) h
  | first :: second :: rest =>
    have hsteady := mt isProgression_cons_cons.2 h
    simp only [detect?, if_neg hsteady]

/-! ### Bytes -/

theorem delimited_read : Delimited read := by
  refine Delimited.varint32.bind fun begin => Delimited.varint.bind fun stop =>
    Delimited.varint32.bind fun stride => ?_
  split
  · exact Delimited.pure _
  · exact Delimited.throw _

theorem make_self (range : Progression) :
    make range.begin range.stop range.stride = .ok range := by
  obtain ⟨begin, stop, stride, hstride, hbegin, hstop, hsize⟩ := range
  rw [make, dif_neg (by simp only; omega), dif_neg (by simp only; omega),
    dif_neg (by simp only; omega)]
  simp only [dif_pos hsize]

theorem encode_eq (range : Progression) (out : ByteArray) :
    range.encode out = out ++ (Varint.encode range.begin.toNat ++ (Varint.encode range.stop
      ++ Varint.encode range.stride.toNat)).toByteArray := by
  rw [encode, List.append_assoc]

theorem reads_encode (range : Progression) :
    Reads read (Varint.encode range.begin.toNat ++ (Varint.encode range.stop
      ++ Varint.encode range.stride.toNat)) range := by
  have hstop : range.stop < Varint.bound := Nat.lt_of_le_of_lt range.stop_le (by decide)
  refine (Reads.encoded32 (UInt32.toNat_lt _)).bind ((Reads.encoded hstop).bind
    ((Reads.encoded32 (UInt32.toNat_lt _)).decide ?_))
  simp only [UInt32.ofNat_toNat, make_self]
  exact Reads.pure range

end Postings.Layout.Progression
