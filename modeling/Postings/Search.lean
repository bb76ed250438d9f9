/-
Binary search over sequences read one position at a time.

Both searches take the sequence as a function on `Fin size`, so they cannot read
outside it.

* `bisect` — halves the interval between a lower and an upper bound and answers
  the first middle that holds the item;
* `settle` — halves the interval and keeps the last candidate that is not above
  the item; `partitionPoint` and `locate` are built from it.

Design notes: on ascending sequences the two agree.  On other sequences each has
its own answer, and callers that read unchecked bytes rely on which is used.
-/
import Postings.Item

namespace Postings.Search

/-- A position in `[low, high)` that holds `item`, found by halving the interval. -/
def bisectIn {size : Nat} (get : Fin size → Item) (item : Item) (low high : Nat)
    (h : high ≤ size) : Option Nat :=
  if hlt : low < high then
    let middle := low + (high - low) / 2
    have hm : middle < high := by omega
    let found := get ⟨middle, Nat.lt_of_lt_of_le hm h⟩
    if found < item then bisectIn get item (middle + 1) high h
    else if item < found then bisectIn get item low middle (by omega)
    else some middle
  else none
termination_by high - low

/-- A position that holds `item`, found by halving. -/
def bisect (size : Nat) (get : Fin size → Item) (item : Item) : Option Nat :=
  bisectIn get item 0 size (Nat.le_refl size)

/-- Halves the `length` positions from `base`, moving `base` up to the middle unless the middle
is above; answers where `base` ends. -/
def settle {α : Type} (above : α → Bool) (items : Array α) (base length : Nat)
    (h : base + length ≤ items.size) (hpos : 0 < length) : Fin items.size :=
  if h1 : 1 < length then
    let half := length / 2
    have hm : base + half < items.size := by omega
    -- The length falls by the same half either way, so both halves cost the same.
    if above items[base + half] then
      settle above items base (length - half) (by omega) (by omega)
    else
      settle above items (base + half) (length - half) (by omega) (by omega)
  else ⟨base, by omega⟩
termination_by length

/-- The number of items at the front that satisfy `holds`, when those are the ones that do. -/
def partitionPoint {α : Type} (holds : α → Bool) (items : Array α) : Nat :=
  if h : 0 < items.size then
    let base := settle (fun item => !holds item) items 0 items.size (by omega) h
    if holds items[base] then base.val + 1 else base.val
  else 0

/-- A position that holds `item`. -/
def locate (items : Array Item) (item : Item) : Option Nat :=
  if h : 0 < items.size then
    let base := settle (fun other => item < other) items 0 items.size (by omega) h
    if items[base] = item then some base.val else none
  else none

theorem bisectIn_sound {size : Nat} {get : Fin size → Item} {item : Item} {low high : Nat}
    {h : high ≤ size} {position : Nat} (hp : bisectIn get item low high h = some position) :
    ∃ hlt : position < size, get ⟨position, hlt⟩ = item := by
  fun_induction bisectIn get item low high h with
  | case1 low high h hlt middle hm found hfound ih => exact ih hp
  | case2 low high h hlt middle hm found _ hfound ih => exact ih hp
  | case3 low high h hlt middle hm found h1 h2 =>
    obtain rfl := Option.some.inj hp
    exact ⟨Nat.lt_of_lt_of_le hm h,
      UInt32.le_antisymm (UInt32.not_lt.1 h2) (UInt32.not_lt.1 h1)⟩
  | case4 low high h hlt => simp at hp

theorem bisect_sound {size : Nat} {get : Fin size → Item} {item : Item} {position : Nat}
    (h : bisect size get item = some position) :
    ∃ hlt : position < size, get ⟨position, hlt⟩ = item :=
  bisectIn_sound h

theorem locate_sound {items : Array Item} {item : Item} {position : Nat}
    (h : locate items item = some position) : items[position]? = some item := by
  unfold locate at h
  split at h
  next hpos =>
    simp only at h
    split at h
    next hi =>
      obtain rfl := Option.some.inj h
      rw [Array.getElem?_eq_getElem (Fin.isLt _)]
      exact congrArg some hi
    next => simp at h
  next => simp at h

end Postings.Search
