/-
Streaming many posting lists at once.

A sweep walks the smallest of the lists that an item must be in, and moves the
other lists along: an item is given when every required list has it next and no
excluded one has.

* `ItemSet.sweepFirst` — the smallest items that lie in all required lists, in no
  excluded list, and pass a filter; the work stops when there are enough;
* `ItemSet.intersectFirst` — the same without excluded lists.
-/
import Postings.Algebra.Many

namespace Postings

/-- A sweep under way. -/
structure Sweep where
  /-- What is left of the list whose items are tried. -/
  candidates : Cursor
  required : List (Head Cursor)
  excluded : List (Head Cursor)

namespace Sweep

/-- Passes over all items below `target`. -/
def skipBelow (target : Item) (head : Head Cursor) : Head Cursor :=
  match head with
  | none => none
  | some (item, rest) =>
    if item < target then skipBelow target (Source.next? rest) else some (item, rest)
termination_by head.left
decreasing_by exact Nat.lt_succ_of_le (Head.left_next? rest)

/-- Moves the required lists up to `target`, as far as needed to see whether all have it: nothing
if a list has ended, else the answer and the lists. -/
def require (target : Item) : List (Head Cursor) → Option (Bool × List (Head Cursor))
  | [] => some (true, [])
  | head :: heads =>
    match skipBelow target head with
    | none => none
    | some (item, rest) =>
      if item = target then
        match require target heads with
        | none => none
        | some (found, heads) => some (found, some (item, rest) :: heads)
      else some (false, some (item, rest) :: heads)

/-- Moves the excluded lists up to `target`, as far as needed to see whether one has it. -/
def exclude (target : Item) : List (Head Cursor) → Bool × List (Head Cursor)
  | [] => (false, [])
  | head :: heads =>
    match skipBelow target head with
    | none =>
      let (found, heads) := exclude target heads
      (found, none :: heads)
    | some (item, rest) =>
      if item = target then (true, some (item, rest) :: heads)
      else
        let (found, heads) := exclude target heads
        (found, some (item, rest) :: heads)

/-- One move: the next candidate is given or skipped, or the sweep is over. -/
def move (sweep : Sweep) : Move Sweep :=
  match Source.next? sweep.candidates with
  | none => .stop
  | some (candidate, candidates) =>
    match require candidate sweep.required with
    | none => .stop
    | some (false, required) => .skip ⟨candidates, required, sweep.excluded⟩
    | some (true, required) =>
      match exclude candidate sweep.excluded with
      | (true, excluded) => .skip ⟨candidates, required, excluded⟩
      | (false, excluded) => .give candidate ⟨candidates, required, excluded⟩

theorem left_candidates_lt {sweep sweep' : Sweep}
    (h : sweep.move = .skip sweep' ∨ ∃ item, sweep.move = .give item sweep') :
    Source.left sweep'.candidates < Source.left sweep.candidates := by
  unfold move at h
  match hn : Source.next? sweep.candidates with
  | none => simp [hn] at h
  | some (candidate, candidates) =>
    simp only [hn] at h
    have hlt := Source.left_lt hn
    split at h
    · simp at h
    · simp only [Move.skip.injEq, reduceCtorEq, exists_false, or_false] at h
      rw [← h]
      exact hlt
    · split at h
      · simp only [Move.skip.injEq, reduceCtorEq, exists_false, or_false] at h
        rw [← h]
        exact hlt
      · simp only [reduceCtorEq, Move.give.injEq, false_or] at h
        obtain ⟨_, _, rfl⟩ := h
        exact hlt

/-- The sweep over lists: the candidates come from the smallest required one. -/
def start (required excluded : List ItemSet) : Sweep :=
  let excluded := excluded.map fun set => Source.next? set.cursor
  match ItemSet.bySize required with
  | [] => ⟨.blocks [] [], [], excluded⟩
  | smallest :: rest =>
    ⟨smallest.cursor, rest.map fun set => Source.next? set.cursor, excluded⟩

end Sweep

/-- A sweep moves at most once a candidate. -/
instance : Walk Sweep where
  move := Sweep.move
  left sweep := Source.left sweep.candidates
  skip_lt h := Sweep.left_candidates_lt (Or.inl h)
  give_lt h := Sweep.left_candidates_lt (Or.inr ⟨_, h⟩)

namespace ItemSet

/-- The `count` smallest items that lie in every required list, in no excluded one, and pass the
filter; nothing if no list is required. -/
def sweepFirst (required excluded : List ItemSet) (count : Nat) (filter : Item → Bool) :
    ItemSet :=
  if required.any isEmpty then empty
  else Writer.collectFirst count filter (Sweep.start required excluded)

/-- The `count` smallest items that lie in every list and pass the filter; nothing if there is no
list. -/
def intersectFirst (sets : List ItemSet) (count : Nat) (filter : Item → Bool) : ItemSet :=
  sweepFirst sets [] count filter

end ItemSet

end Postings
