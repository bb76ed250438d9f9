/-
An operation over a whole list of operands.

A union or an intersection is worked out in a tree, any other operation from the first operand
on.  All of these are schedules, and what they keep is told by the operands that hold an item.  A
symmetric difference asks whether the number of these is odd, however the operands are put in the
tree; a difference asks for the first operand and no other.

* `Schedule.keeps_symmDiff`, `Schedule.keeps_diff_chain` — what two operations keep;
* `Schedule.fits_of_total_lt` — operands that have few items together;
* `Schedule.combining`, `Schedule.run_combining` — the schedule of `ItemSet.combine`;
* `Schedule.fits_combining` — operands that have few items together can be combined;
* `SetOp.Combines`, `ItemSet.valid_combine` — what an operation keeps of a list of operands.
-/
import Mathlib.Algebra.Ring.Parity
import Postings.Proofs.Algebra.Many

namespace Postings

namespace Schedule

variable {op : SetOp} {schedule : Schedule} {item : Item}

/-! ### Parity and size -/

/-- A symmetric difference counts the lists that hold an item; a list that is given twice counts
twice. -/
theorem keeps_symmDiff :
    schedule.Keeps .symmDiff item ↔ Odd (schedule.sets.countP fun set => item ∈ set.items) := by
  induction schedule with
  | one set =>
    by_cases hitem : item ∈ set.items
    · simp [Keeps, sets, hitem]
    · simp [Keeps, sets, hitem]
  | inTurn lower upper ihLower ihUpper | atOnce lower upper ihLower ihUpper =>
    -- A sum is odd when exactly one of its parts is.
    rw [Keeps, ihLower, ihUpper, sets, SetOp.Keeps, List.countP_append, Nat.odd_add,
      ← Nat.not_odd_iff_even]
    tauto

/-- Lists that have fewer than `2 ^ 32` items together have results that fit. -/
theorem fits_of_total_lt (hsets : ∀ set ∈ schedule.sets, set.Valid)
    (hfew : total schedule.sets < 2 ^ 32) :
    schedule.Fits op ∧ (schedule.run op).size ≤ total schedule.sets := by
  induction schedule with
  | one set => exact ⟨trivial, Nat.le_refl _⟩
  | inTurn lower upper ihLower ihUpper | atOnce lower upper ihLower ihUpper =>
    have hlower : ∀ set ∈ lower.sets, set.Valid :=
      fun set hset => hsets set (List.mem_append_left _ hset)
    have hupper : ∀ set ∈ upper.sets, set.Valid :=
      fun set hset => hsets set (List.mem_append_right _ hset)
    rw [sets, total_append] at hfew ⊢
    obtain ⟨hfitsLower, hsizeLower⟩ := ihLower hlower (by omega)
    obtain ⟨hfitsUpper, hsizeUpper⟩ := ihUpper hupper (by omega)
    have hvalidLower := (ItemSet.closed_valid.run hlower hfitsLower).1
    have hvalidUpper := (ItemSet.closed_valid.run hupper hfitsUpper).1
    have hbound := ItemSet.card_onSets_le (lower.run op).members (upper.run op).members op
    rw [hvalidLower.card_members, hvalidUpper.card_members] at hbound
    have hsum := op.sizeBound_le (lower.run op).size (upper.run op).size
    have hcard : (op.onSets (lower.run op).members (upper.run op).members).card < 2 ^ 32 := by
      omega
    refine ⟨⟨hfitsLower, hfitsUpper, hcard⟩, ?_⟩
    have hsize := ItemSet.size_apply_of_few hvalidLower hvalidUpper hcard
    show ((lower.run op).apply (upper.run op) op).size ≤ _
    omega

/-! ### From left to right -/

/-- Every one of some lists after what is there, one at a time. -/
def chain (start : Schedule) (sets : List ItemSet) : Schedule :=
  sets.foldl (fun before set => inTurn before (one set)) start

theorem run_chain (start : Schedule) (sets : List ItemSet) :
    (start.chain sets).run op
      = sets.foldl (fun left right => left.apply right op) (start.run op) := by
  induction sets generalizing start with
  | nil => rfl
  | cons set rest ih => exact ih (inTurn start (one set))

theorem sets_chain (start : Schedule) (sets : List ItemSet) :
    (start.chain sets).sets = start.sets ++ sets := by
  induction sets generalizing start with
  | nil => exact (List.append_nil _).symm
  | cons set rest ih =>
    have hrest := ih (inTurn start (one set))
    rwa [Schedule.sets, Schedule.sets, List.append_assoc] at hrest

/-- What no later list holds is left of the first one. -/
theorem keeps_diff_chain (start : Schedule) (sets : List ItemSet) :
    (start.chain sets).Keeps .diff item ↔
      start.Keeps .diff item ∧ ∀ set ∈ sets, item ∉ set.items := by
  induction sets generalizing start with
  | nil => simp [chain]
  | cons set rest ih =>
    have hrest := ih (inTurn start (one set))
    rw [Keeps, SetOp.Keeps, Keeps, and_assoc] at hrest
    rw [List.forall_mem_cons]
    exact hrest

/-! ### The operands of a command -/

/-- The schedule of an operation over a list of operands; two operands of a tree are made at once
from `threshold` items on. -/
def combining (threshold : Nat) (op : SetOp) (sets : List ItemSet) : Schedule :=
  match op, sets with
  | .union, sets => halving threshold sets
  | .inter, sets =>
    if sets.any ItemSet.isEmpty then one ItemSet.empty
    else halving threshold (ItemSet.bySize sets)
  | _, [] => one ItemSet.empty
  | _, first :: rest => (one first).chain rest

theorem run_combining (threshold : Nat) (op : SetOp) (sets : List ItemSet) :
    (combining threshold op sets).run op = ItemSet.combine op sets := by
  cases op with
  | union => exact run_halving threshold .union sets
  | inter =>
    rw [combining, ItemSet.combine, ItemSet.intersectAll]
    split
    · rfl
    · exact run_halving threshold .inter _
  | diff | symmDiff =>
    cases sets with
    | nil => rfl
    | cons first rest => exact run_chain (one first) rest

/-- The schedule works on the operands in some order, or on the empty list. -/
theorem sets_combining (threshold : Nat) (op : SetOp) (operands : List ItemSet) :
    (combining threshold op operands).sets.Perm operands ∨
      (combining threshold op operands).sets = [ItemSet.empty] := by
  have hhalving : ∀ leaves : List ItemSet,
      (halving threshold leaves).sets = leaves ∨
        (halving threshold leaves).sets = [ItemSet.empty] := by
    intro leaves
    by_cases hnone : leaves = []
    · rw [hnone, halving]
      exact .inr rfl
    · exact .inl (sets_halving threshold hnone)
  cases op with
  | union => exact (hhalving operands).imp_left List.Perm.of_eq
  | inter =>
    rw [combining]
    split
    · exact .inr rfl
    · refine (hhalving _).imp_left fun hleaves => ?_
      rw [hleaves]
      exact List.mergeSort_perm ..
  | diff | symmDiff =>
    cases operands with
    | nil => exact .inr rfl
    | cons first rest => exact .inl (.of_eq (sets_chain (one first) rest))

variable {threshold : Nat} {operands : List ItemSet}

theorem valid_of_mem_combining (hsets : ∀ set ∈ operands, set.Valid) :
    ∀ set ∈ (combining threshold op operands).sets, set.Valid := by
  intro set hset
  rcases sets_combining threshold op operands with hperm | hnone
  · exact hsets set (hperm.mem_iff.1 hset)
  · rw [hnone, List.mem_singleton] at hset
    exact hset ▸ ItemSet.proper_empty.toValid

/-- Operands that have fewer than `2 ^ 32` items together can be combined. -/
theorem fits_combining (hsets : ∀ set ∈ operands, set.Valid) (hfew : total operands < 2 ^ 32) :
    (combining threshold op operands).Fits op := by
  refine (fits_of_total_lt (valid_of_mem_combining hsets) ?_).1
  rcases sets_combining threshold op operands with hperm | hnone
  · rw [total, (hperm.map ItemSet.size).sum_nat]
    exact hfew
  · rw [hnone]
    decide

end Schedule

/-- Whether an operation over a list of operands keeps an item: a union if some operand has it, an
intersection if all have it, a difference if the first has it and no other, and a symmetric
difference if an odd number of them has it. -/
def SetOp.Combines (op : SetOp) (sets : List ItemSet) (item : Item) : Prop :=
  match op, sets with
  | .union, sets => ∃ set ∈ sets, item ∈ set.items
  | .inter, sets => ∀ set ∈ sets, item ∈ set.items
  | .diff, [] => False
  | .diff, first :: rest => item ∈ first.items ∧ ∀ set ∈ rest, item ∉ set.items
  | .symmDiff, sets => Odd (sets.countP fun set => item ∈ set.items)

theorem Schedule.keeps_combining {threshold : Nat} {op : SetOp} {operands : List ItemSet}
    {item : Item} (hsets : ∀ set ∈ operands, set.Valid) (hsome : operands ≠ []) :
    (combining threshold op operands).Keeps op item ↔ op.Combines operands item := by
  cases op with
  | union =>
    rw [combining, keeps_union, sets_halving threshold hsome]
    rfl
  | inter =>
    rw [combining, SetOp.Combines]
    split
    next hempty =>
      -- Nothing is worked out, and nothing lies in all operands.
      exact iff_of_false List.not_mem_nil (ItemSet.not_forall_mem_of_any_isEmpty hsets hempty)
    next =>
      rw [keeps_inter, sets_halving threshold (mt ItemSet.bySize_eq_nil.1 hsome)]
      simp only [ItemSet.mem_bySize]
  | diff =>
    cases operands with
    | nil => exact absurd rfl hsome
    | cons first rest => exact keeps_diff_chain (one first) rest
  | symmDiff =>
    cases operands with
    | nil => exact absurd rfl hsome
    | cons first rest =>
      show ((one first).chain rest).Keeps .symmDiff item ↔ _
      rw [keeps_symmDiff, sets_chain]
      rfl

/-- The combination of operands is the list of what the operation keeps of them. -/
theorem ItemSet.valid_combine {threshold : Nat} {op : SetOp} {operands : List ItemSet}
    (hsets : ∀ set ∈ operands, set.Valid) (hsome : operands ≠ [])
    (hfits : (Schedule.combining threshold op operands).Fits op) :
    (combine op operands).Valid ∧
      ∀ item, item ∈ (combine op operands).items ↔ op.Combines operands item := by
  obtain ⟨hvalid, hitems⟩ := closed_valid.run (Schedule.valid_of_mem_combining hsets) hfits
  rw [Schedule.run_combining] at hvalid hitems
  exact ⟨hvalid, fun item => (hitems item).trans (Schedule.keeps_combining hsets hsome)⟩

end Postings
