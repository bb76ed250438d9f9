/-
Halving in 32-bit words.

The bounds of a search are 32-bit words, and so is the middle between them: it is found without a
sum that could overflow, and one more than it is still within the bounds.  So the search in words
is the search in numbers.  It reads at positions below the size only, no more than 32 of them, in
whatever order the items are.

* `halve` — the search in words, with the positions that it reads;
* `toNat_middle`, `toNat_succ_middle` — the middle of two words;
* `found_halve` — it finds what the search in numbers finds;
* `lt_of_mem_visited_halve`, `halve_congr`, `length_visited_halve` — where it reads, that nothing
  else matters, and how often;
* `bisect_spec` — all of this about a whole sequence.
-/
import Postings.Proofs.Search

namespace Postings.Search

/-- What a search has found, and the positions that it has read, the first one first. -/
structure Halving where
  found : Option UInt32
  visited : List UInt32

/-- The position in the middle between two bounds. -/
def middle (low high : UInt32) : UInt32 :=
  low + (high - low) / 2

variable {low high : UInt32}

theorem toNat_middle (h : low < high) :
    (middle low high).toNat = low.toNat + (high.toNat - low.toNat) / 2 := by
  have hlt : low.toNat < high.toNat := h
  have hhigh := UInt32.toNat_lt high
  -- Half of the difference is added, not half of a sum taken, so that nothing wraps.
  have hdiff : (high - low).toNat = high.toNat - low.toNat :=
    UInt32.toNat_sub_of_le _ _ (Nat.le_of_lt hlt)
  have hhalf : ((high - low) / 2).toNat = (high.toNat - low.toNat) / 2 := by
    rw [UInt32.toNat_div, hdiff]
    rfl
  rw [middle, UInt32.toNat_add, hhalf]
  exact Nat.mod_eq_of_lt (by omega)

theorem middle_lt (h : low < high) : middle low high < high := by
  have hlt : low.toNat < high.toNat := h
  rw [UInt32.lt_iff_toNat_lt, toNat_middle h]
  omega

theorem toNat_succ_middle (h : low < high) :
    (middle low high + 1).toNat = (middle low high).toNat + 1 := by
  have hlt : (middle low high).toNat < high.toNat := middle_lt h
  have hhigh := UInt32.toNat_lt high
  rw [UInt32.toNat_add]
  exact Nat.mod_eq_of_lt (by show _ + 1 < _; omega)

/-- A position that was read before others. -/
def Halving.behind (position : UInt32) (rest : Halving) : Halving :=
  ⟨rest.found, position :: rest.visited⟩

/-- Halves the interval between two words until its middle holds the item. -/
def halve (get : UInt32 → Item) (item : Item) (low high : UInt32) : Halving :=
  if hlt : low < high then
    if get (middle low high) < item then
      (halve get item (middle low high + 1) high).behind (middle low high)
    else if item < get (middle low high) then
      (halve get item low (middle low high)).behind (middle low high)
    else ⟨some (middle low high), [middle low high]⟩
  else ⟨none, []⟩
termination_by high.toNat - low.toNat
decreasing_by
  · have hlow : low.toNat < high.toNat := hlt
    rw [toNat_succ_middle hlt, toNat_middle hlt]
    omega
  · have hlow : low.toNat < high.toNat := hlt
    rw [toNat_middle hlt]
    omega

variable {get : UInt32 → Item} {item : Item}

/-- One turn of the search in numbers, between bounds that are words. -/
theorem bisectIn_of_lt {size : Nat} (hlt : low < high) (h : high.toNat ≤ size) :
    bisectIn (fun position : Fin size => get (UInt32.ofNat position)) item low.toNat high.toNat h
      = if get (middle low high) < item then
          bisectIn (fun position : Fin size => get (UInt32.ofNat position)) item
            (middle low high + 1).toNat high.toNat h
        else if item < get (middle low high) then
          bisectIn (fun position : Fin size => get (UInt32.ofNat position)) item low.toNat
            (middle low high).toNat (Nat.le_trans (Nat.le_of_lt (middle_lt hlt)) h)
        else some (middle low high).toNat := by
  have hnumbers : low.toNat < high.toNat := hlt
  rw [bisectIn, dif_pos hnumbers]
  simp only [← toNat_middle hlt, UInt32.ofNat_toNat, toNat_succ_middle hlt]

/-- The search in words finds what the search in numbers finds. -/
theorem found_halve {size : Nat} (h : high.toNat ≤ size) :
    (halve get item low high).found.map UInt32.toNat
      = bisectIn (fun position : Fin size => get (UInt32.ofNat position)) item low.toNat
          high.toNat h := by
  fun_induction halve get item low high with
  | case1 low high hlt hless ih =>
    rw [bisectIn_of_lt hlt, if_pos hless]
    exact ih h
  | case2 low high hlt hle hless ih =>
    rw [bisectIn_of_lt hlt, if_neg hle, if_pos hless]
    exact ih _
  | case3 low high hlt hle hge =>
    rw [bisectIn_of_lt hlt, if_neg hle, if_neg hge]
    rfl
  | case4 low high hlt =>
    have hnumbers : ¬ low.toNat < high.toNat := hlt
    rw [bisectIn, dif_neg hnumbers]
    rfl

/-- Positions are read between the bounds. -/
theorem lt_of_mem_visited_halve {position : UInt32}
    (h : position ∈ (halve get item low high).visited) : position < high := by
  fun_induction halve get item low high with
  | case1 low high hlt hless ih =>
    rcases List.mem_cons.1 h with rfl | h
    · exact middle_lt hlt
    · exact ih h
  | case2 low high hlt hle hless ih =>
    rcases List.mem_cons.1 h with rfl | h
    · exact middle_lt hlt
    · -- The half that is left ends at the middle.
      exact UInt32.lt_trans (ih h) (middle_lt hlt)
  | case3 low high hlt hle hge =>
    rw [List.mem_singleton.1 h]
    exact middle_lt hlt
  | case4 => exact absurd h List.not_mem_nil

/-- Nothing but the items that are read decides what becomes of the search. -/
theorem halve_congr {other : UInt32 → Item}
    (h : ∀ position ∈ (halve get item low high).visited, other position = get position) :
    halve other item low high = halve get item low high := by
  fun_induction halve get item low high with
  | case1 low high hlt hless ih =>
    obtain ⟨hmiddle, hrest⟩ := List.forall_mem_cons.1 h
    rw [halve, dif_pos hlt, hmiddle, if_pos hless, ih hrest]
  | case2 low high hlt hle hless ih =>
    obtain ⟨hmiddle, hrest⟩ := List.forall_mem_cons.1 h
    rw [halve, dif_pos hlt, hmiddle, if_neg hle, if_pos hless, ih hrest]
  | case3 low high hlt hle hge =>
    obtain ⟨hmiddle, -⟩ := List.forall_mem_cons.1 h
    rw [halve, dif_pos hlt, hmiddle, if_neg hle, if_neg hge]
  | case4 low high hlt => rw [halve, dif_neg hlt]

/-- A position that is read leaves at most half of the others on either side of it. -/
theorem half_left {bits : Nat} (hlt : low < high) (h : high.toNat - low.toNat < 2 ^ bits) :
    ∃ fewer, bits = fewer + 1 ∧ high.toNat - (middle low high + 1).toNat < 2 ^ fewer ∧
      (middle low high).toNat - low.toNat < 2 ^ fewer := by
  have hnumbers : low.toNat < high.toNat := hlt
  rw [toNat_succ_middle hlt, toNat_middle hlt]
  cases bits with
  | zero => omega -- the interval is not empty
  | succ fewer =>
    rw [Nat.pow_succ] at h
    exact ⟨fewer, rfl, by omega, by omega⟩

theorem length_visited_halve {bits : Nat} (h : high.toNat - low.toNat < 2 ^ bits) :
    (halve get item low high).visited.length ≤ bits := by
  fun_induction halve get item low high generalizing bits with
  | case1 low high hlt hless ih =>
    obtain ⟨fewer, rfl, habove, -⟩ := half_left hlt h
    exact Nat.succ_le_succ (ih habove)
  | case2 low high hlt hle hless ih =>
    obtain ⟨fewer, rfl, -, hbelow⟩ := half_left hlt h
    exact Nat.succ_le_succ (ih hbelow)
  | case3 low high hlt =>
    obtain ⟨fewer, rfl, -, -⟩ := half_left hlt h
    exact Nat.le_add_left ..
  | case4 => exact Nat.zero_le _

/-! ### A whole sequence -/

/-- A position below the size is a word. -/
theorem toNat_ofNat_of_lt_size {size : UInt32} {position : Nat} (h : position < size.toNat) :
    (UInt32.ofNat position).toNat = position :=
  UInt32.toNat_ofNat_of_lt' (Nat.lt_trans h (UInt32.toNat_lt size))

/-- What is answered about a sequence stands at the position that is answered. -/
theorem get_of_bisect {size : UInt32} {position : Nat}
    (h : bisect size.toNat (fun position => get (UInt32.ofNat position)) item = some position) :
    position < size.toNat ∧ get (UInt32.ofNat position) = item := by
  obtain ⟨hposition, hget⟩ := bisect_sound h
  exact ⟨hposition, hget⟩

theorem bisect_eq_some_iff {size : UInt32} (hascend : ∀ i j, i < j → j < size → get i < get j)
    {position : Nat} :
    bisect size.toNat (fun position => get (UInt32.ofNat position)) item = some position ↔
      position < size.toNat ∧ get (UInt32.ofNat position) = item := by
  have hnumbers : ∀ i j : Fin size.toNat, i < j →
      get (UInt32.ofNat i) < get (UInt32.ofNat j) := by
    intro i j hlt
    have hi := toNat_ofNat_of_lt_size i.isLt
    have hj := toNat_ofNat_of_lt_size j.isLt
    refine hascend _ _ ?_ ?_
    · rw [UInt32.lt_iff_toNat_lt, hi, hj]
      exact hlt
    · rw [UInt32.lt_iff_toNat_lt, hj]
      exact j.isLt
  rw [bisect_eq_some hnumbers]
  constructor
  · rintro ⟨hposition, hget⟩
    exact ⟨hposition, hget⟩
  · rintro ⟨hposition, hget⟩
    exact ⟨hposition, hget⟩

theorem bisect_eq_none_iff {size : UInt32} (hascend : ∀ i j, i < j → j < size → get i < get j) :
    bisect size.toNat (fun position => get (UInt32.ofNat position)) item = none ↔
      ∀ position < size, get position ≠ item := by
  rw [Option.eq_none_iff_forall_ne_some]
  constructor
  · intro hnone position hposition hget
    refine hnone position.toNat ((bisect_eq_some_iff hascend).2 ⟨hposition, ?_⟩)
    rwa [UInt32.ofNat_toNat]
  · intro habsent position hsome
    obtain ⟨hposition, hget⟩ := get_of_bisect hsome
    refine habsent (UInt32.ofNat position) ?_ hget
    rw [UInt32.lt_iff_toNat_lt, toNat_ofNat_of_lt_size hposition]
    exact hposition

/-- What the search answers about a sequence, in any order, is a position below the size that holds
the item.  If the sequence ascends it answers the position that does, and nothing just if there is
none.  Searched with 32-bit words for the bounds, no middle overflows: the answer is the same, and
no more than 32 positions are read for it, all of them below the size.  What stands elsewhere does
not matter. -/
theorem bisect_spec (size : UInt32) (get : UInt32 → Item) (item : Item) :
    let answer := bisect size.toNat (fun position => get (UInt32.ofNat position)) item
    (∀ position, answer = some position →
      position < size.toNat ∧ get (UInt32.ofNat position) = item) ∧
    ((∀ i j, i < j → j < size → get i < get j) →
      (∀ position, answer = some position ↔
        position < size.toNat ∧ get (UInt32.ofNat position) = item) ∧
      (answer = none ↔ ∀ position < size, get position ≠ item)) ∧
    (halve get item 0 size).found.map UInt32.toNat = answer ∧
    (∀ position ∈ (halve get item 0 size).visited, position < size) ∧
    (halve get item 0 size).visited.length ≤ 32 ∧
    ∀ other, (∀ position ∈ (halve get item 0 size).visited, other position = get position) →
      halve other item 0 size = halve get item 0 size := by
  have hwords : size.toNat - (0 : UInt32).toNat < 2 ^ 32 :=
    Nat.lt_of_le_of_lt (Nat.sub_le ..) (UInt32.toNat_lt size)
  refine ⟨fun position => get_of_bisect, fun hascend => ⟨fun position => ?_, ?_⟩, ?_, ?_, ?_, ?_⟩
  · exact bisect_eq_some_iff hascend
  · exact bisect_eq_none_iff hascend
  · exact found_halve (Nat.le_refl size.toNat)
  · exact fun position => lt_of_mem_visited_halve
  · exact length_visited_halve hwords
  · exact fun other => halve_congr

/-- Of the items 1, 4, 7, 10 and 13 the fourth is found, and an item between them is not. -/
theorem bisect_spec_steps :
    (∀ i j : UInt32, i < j → j < 5 → 3 * i + 1 < 3 * j + 1) ∧
      bisect 5 (fun position => 3 * UInt32.ofNat position + 1) 10 = some 3 ∧
      bisect 5 (fun position => 3 * UInt32.ofNat position + 1) 11 = none := by
  have hascend : ∀ i j : UInt32, i < j → j < 5 → 3 * i + 1 < 3 * j + 1 := by
    intro i j hlt hsize
    grind
  have hfound := (bisect_spec 5 (fun position => 3 * position + 1) 10).2.1 hascend
  have habsent := (bisect_spec 5 (fun position => 3 * position + 1) 11).2.1 hascend
  refine ⟨hascend, (hfound.1 3).2 ⟨by decide, rfl⟩, habsent.2.2 ?_⟩
  intro position hposition
  grind

/-- Items in no order may be missed. -/
example : bisect 3 (fun position => #[(5 : Item), 1, 9][position]) 5 = none := by
  cbv

end Postings.Search
