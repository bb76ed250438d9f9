/-
Ways to work through many operations.

A schedule is a binary tree over lists that says, for every operation, whether its two operands
are made one after the other or at the same time.  Halving a list of operands gives one for every
size from which on two sides are worth two threads, and all of these have one result.

* `Schedule.run` — the result of a schedule;
* `Schedule.halving` — the schedule over the halves of the lists;
* `Schedule.run_halving` — it has the result of `ItemSet.applyTree`, whatever the threshold.
-/
import Mathlib.Algebra.Ring.Nat
import Postings.Algebra.Many

namespace Postings

/-- A tree of operations over lists. -/
inductive Schedule where
  | one (set : ItemSet)
  /-- The lower operand is made before the upper one. -/
  | inTurn (lower upper : Schedule)
  /-- The upper operand is made by a task of its own. -/
  | atOnce (lower upper : Schedule)

namespace Schedule

/-- The lists that a schedule works on. -/
def sets : Schedule → List ItemSet
  | one set => [set]
  | inTurn lower upper => lower.sets ++ upper.sets
  | atOnce lower upper => lower.sets ++ upper.sets

theorem exists_mem_sets (schedule : Schedule) : ∃ set, set ∈ schedule.sets := by
  induction schedule with
  | one set => exact ⟨set, List.mem_singleton_self set⟩
  | inTurn lower upper ihLower | atOnce lower upper ihLower =>
    obtain ⟨set, hset⟩ := ihLower
    exact ⟨set, List.mem_append_left _ hset⟩

/-- The result of an operation over all lists. -/
def run (op : SetOp) : Schedule → ItemSet
  | one set => set
  | inTurn lower upper => (lower.run op).apply (upper.run op) op
  | atOnce lower upper =>
    let task := Task.spawn fun _ => upper.run op
    (lower.run op).apply task.get op

/-- The number of items in some lists. -/
def total (sets : List ItemSet) : Nat :=
  (sets.map ItemSet.size).sum

theorem total_append (first second : List ItemSet) :
    total (first ++ second) = total first + total second := by
  rw [total, List.map_append, List.sum_append]
  rfl

/-- The lists are halved down to single ones; two halves are made at once if they have `threshold`
items or more. -/
def halving (threshold : Nat) : List ItemSet → Schedule
  | [] => one ItemSet.empty
  | [set] => one set
  | first :: second :: rest =>
    let sets := first :: second :: rest
    let half := sets.length / 2
    let lower := halving threshold (sets.take half)
    let upper := halving threshold (sets.drop half)
    if threshold ≤ total sets then atOnce lower upper else inTurn lower upper
termination_by sets => sets.length
decreasing_by
  · simp only [List.length_take, List.length_cons]; omega
  · simp only [List.length_drop, List.length_cons]; omega

/-- A task gives what it would give when it is waited for at once. -/
theorem run_atOnce (op : SetOp) (lower upper : Schedule) :
    (atOnce lower upper).run op = (inTurn lower upper).run op := rfl

theorem run_halving (threshold : Nat) (op : SetOp) (sets : List ItemSet) :
    (halving threshold sets).run op = ItemSet.applyTree op sets := by
  induction sets using ItemSet.applyTree.induct with
  | case1 => rw [halving, ItemSet.applyTree, run]
  | case2 set => rw [halving, ItemSet.applyTree, run]
  | case3 first second rest sets half hlower hupper =>
    have hturn : (inTurn (halving threshold (sets.take half))
        (halving threshold (sets.drop half))).run op = ItemSet.applyTree op sets := by
      rw [run, hlower, hupper, ItemSet.applyTree]
    rw [halving]
    split
    · exact (run_atOnce ..).trans hturn
    · exact hturn

theorem sets_halving (threshold : Nat) {sets : List ItemSet} (h : sets ≠ []) :
    (halving threshold sets).sets = sets := by
  induction sets using ItemSet.applyTree.induct with
  | case1 => exact absurd rfl h
  | case2 set => rw [halving, Schedule.sets]
  | case3 first second rest sets half hlower hupper =>
    have hhalf : 0 < half ∧ half < sets.length := by
      simp only [half, sets, List.length_cons]
      omega
    have htake : sets.take half ≠ [] := by
      rw [← List.length_pos_iff, List.length_take]
      omega
    have hdrop : sets.drop half ≠ [] := by
      rw [← List.length_pos_iff, List.length_drop]
      omega
    have hsplit := List.take_append_drop half sets
    rw [← hlower htake, ← hupper hdrop] at hsplit
    rw [halving]
    split
    · exact hsplit
    · exact hsplit

end Schedule

end Postings
