/-
What the two searches find in ascending sequences.

Either search answers a position exactly when the item stands there, so that on
ascending sequences an item that is there is found and no other position can be
answered.

* `bisect_eq_some` — for the halving search over a function;
* `settle_spec` — where the base of the branchless search ends up;
* `partitionPoint_spec`, `locate_eq_some` — for the searches built from it.
-/
import Postings.Search

namespace Postings.Search

/-! ### Halving between two bounds -/

section

variable {size : Nat} {get : Fin size → Item} {item : Item}

/-- In ascending sequences, positions stand as their items do. -/
theorem lt_of_get_lt (hascend : ∀ i j : Fin size, i < j → get i < get j) {i j : Fin size}
    (h : get i < get j) : i < j := by
  rcases Nat.lt_trichotomy i j with hlt | heq | hgt
  · exact hlt
  · rw [Fin.ext heq] at h
    exact absurd h (UInt32.lt_irrefl _)
  · exact absurd (UInt32.lt_trans h (hascend j i hgt)) (UInt32.lt_irrefl _)

theorem eq_of_get_eq (hascend : ∀ i j : Fin size, i < j → get i < get j) {i j : Fin size}
    (h : get i = get j) : i = j := by
  rcases Nat.lt_trichotomy i j with hlt | heq | hgt
  · have hless := hascend i j hlt
    rw [h] at hless
    exact absurd hless (UInt32.lt_irrefl _)
  · exact Fin.ext heq
  · have hless := hascend j i hgt
    rw [h] at hless
    exact absurd hless (UInt32.lt_irrefl _)

/-- An item between the bounds is found: the half that is left always holds it. -/
theorem bisectIn_isSome (hascend : ∀ i j : Fin size, i < j → get i < get j) {low high : Nat}
    {h : high ≤ size} (target : Fin size) (hlow : low ≤ target) (hhigh : target < high)
    (htarget : get target = item) : (bisectIn get item low high h).isSome := by
  fun_induction bisectIn get item low high h with
  | case1 low high h hlt middle hm found hfound ih =>
    -- The middle is below the item, so the item is behind it.
    rw [← htarget] at hfound
    exact ih (lt_of_get_lt hascend hfound) hhigh
  | case2 low high h hlt middle hm found hle hfound ih =>
    rw [← htarget] at hfound
    exact ih hlow (lt_of_get_lt hascend hfound)
  | case3 => rfl
  | case4 low high h hlt => omega

theorem bisect_eq_some (hascend : ∀ i j : Fin size, i < j → get i < get j) {position : Nat} :
    bisect size get item = some position ↔ ∃ h : position < size, get ⟨position, h⟩ = item := by
  constructor
  · exact bisect_sound
  · rintro ⟨hlt, hget⟩
    have hsome := bisectIn_isSome (h := Nat.le_refl size) hascend ⟨position, hlt⟩
      (Nat.zero_le _) hlt hget
    obtain ⟨found, hfound⟩ := Option.isSome_iff_exists.1 hsome
    -- Some position is found, and only one holds the item.
    obtain ⟨hlt', hget'⟩ := bisectIn_sound hfound
    have hsame : found = position :=
      congrArg Fin.val (eq_of_get_eq hascend (hget'.trans hget.symm))
    rw [bisect, hfound, hsame]

end

/-! ### Settling on the last candidate -/

section

variable {α : Type} {items : Array α}

/-- Behind the base everything is above, and the base is not unless nothing is below. -/
theorem settle_spec {above : α → Bool}
    (hmono : ∀ i j (hi : i < items.size) (hj : j < items.size), i ≤ j →
      above items[i] = true → above items[j] = true)
    {base length : Nat} {h : base + length ≤ items.size} {hpos : 0 < length}
    (hbehind : ∀ j (hj : j < items.size), base + length ≤ j → above items[j] = true)
    {last : Fin items.size} (hlast : settle above items base length h hpos = last) :
    (∀ j (hj : j < items.size), last.val < j → above items[j] = true) ∧
      (last.val = base ∨ above items[last] = false) := by
  fun_induction settle above items base length h hpos with
  | case1 base length h hpos h1 half hm habove ih =>
    rw [settle, dif_pos h1, if_pos habove] at hlast
    refine ih ?_ hlast
    intro j hj hle
    exact hmono _ _ hm hj (by omega) habove
  | case2 base length h hpos h1 half hm habove ih =>
    rw [settle, dif_pos h1, if_neg habove] at hlast
    obtain ⟨hall, hbase⟩ := ih (fun j hj hle => hbehind j hj (by omega)) hlast
    refine ⟨hall, Or.inr ?_⟩
    rcases hbase with hbase | hbase
    · have hget : items[last] = items[base + half] := by
        simp only [Fin.getElem_fin, hbase]
      rw [hget]
      simpa using habove
    · exact hbase
  | case3 base length h hpos h1 =>
    rw [settle, dif_neg h1] at hlast
    subst hlast
    refine ⟨?_, Or.inl rfl⟩
    intro j hj hlt
    simp only at hlt
    exact hbehind j hj (by omega)

theorem partitionPoint_le (holds : α → Bool) (items : Array α) :
    partitionPoint holds items ≤ items.size := by
  rw [partitionPoint]
  split
  · simp only
    split
    · exact Nat.succ_le_of_lt (Fin.isLt _)
    · exact Nat.le_of_lt (Fin.isLt _)
  · exact Nat.zero_le _

/-- The items in front of the partition point are the ones that satisfy the predicate. -/
theorem partitionPoint_spec {holds : α → Bool}
    (hmono : ∀ i j (hi : i < items.size) (hj : j < items.size), i ≤ j →
      holds items[j] = true → holds items[i] = true)
    {position : Nat} (hposition : position < items.size) :
    holds items[position] = true ↔ position < partitionPoint holds items := by
  have hpos : 0 < items.size := by omega
  have hmono' : ∀ i j (hi : i < items.size) (hj : j < items.size), i ≤ j →
      (!holds items[i]) = true → (!holds items[j]) = true := by
    intro i j hi hj hij h
    cases hj' : holds items[j] with
    | false => rfl
    | true => simp [hmono i j hi hj hij hj'] at h
  obtain ⟨last, hlast⟩ : ∃ last,
    settle (fun item => !holds item) items 0 items.size (by omega) hpos = last := ⟨_, rfl⟩
  rw [partitionPoint, dif_pos hpos]
  simp only [hlast]
  obtain ⟨hbehind, hbase⟩ := settle_spec hmono' (fun j hj h => by omega) hlast
  simp only [Bool.not_eq_true'] at hbehind
  simp only [Bool.not_eq_false'] at hbase
  split
  next hholds =>
    constructor
    · intro h
      refine Nat.lt_succ_of_le (Nat.le_of_not_lt fun hlt => ?_)
      rw [hbehind position hposition hlt] at h
      exact absurd h (by simp)
    · intro h
      exact hmono position last.val hposition last.isLt (by omega) hholds
  next hnot =>
    have hzero : last.val = 0 := hbase.resolve_right hnot
    constructor
    · intro h
      exact absurd (hmono last.val position last.isLt hposition (by omega) h) hnot
    · intro h
      omega

end

theorem locate_eq_some {items : Array Item} (hascend : Ascending items.toList) {item : Item}
    {position : Nat} : locate items item = some position ↔ items[position]? = some item := by
  have hlt : ∀ i j (hi : i < items.size) (hj : j < items.size), i < j → items[i] < items[j] :=
    fun i j hi hj hij => List.pairwise_iff_getElem.1 hascend i j (by simpa) (by simpa) hij
  constructor
  · exact locate_sound
  · intro hitem
    obtain ⟨hposition, hget⟩ := Array.getElem?_eq_some_iff.1 hitem
    have hpos : 0 < items.size := by omega
    have hmono : ∀ i j (hi : i < items.size) (hj : j < items.size), i ≤ j →
        decide (item < items[i]) = true → decide (item < items[j]) = true := by
      intro i j hi hj hij h
      rw [decide_eq_true_eq] at h ⊢
      rcases Nat.lt_or_eq_of_le hij with hij | rfl
      · exact UInt32.lt_trans h (hlt i j hi hj hij)
      · exact h
    obtain ⟨last, hlast⟩ : ∃ last, settle (fun other => decide (item < other)) items 0 items.size
      (by omega) hpos = last := ⟨_, rfl⟩
    rw [locate, dif_pos hpos]
    simp only [hlast]
    obtain ⟨hbehind, hbase⟩ := settle_spec hmono (fun j hj h => by omega) hlast
    simp only [decide_eq_true_eq] at hbehind
    simp only [decide_eq_false_iff_not] at hbase
    have hsame : last.val = position := by
      rcases Nat.lt_trichotomy last.val position with h | h | h
      · have hless := hbehind position hposition h
        rw [hget] at hless
        exact absurd hless (UInt32.lt_irrefl _)
      · exact h
      · have hless := hlt position last.val hposition last.isLt h
        rw [hget] at hless
        rcases hbase with h0 | hnot
        · omega
        · exact absurd hless hnot
    have hfound : items[last] = item := by
      rw [← hget]
      simp only [Fin.getElem_fin, hsame]
    rw [if_pos hfound, hsame]

end Postings.Search
