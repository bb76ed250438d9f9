/-
The two-pointer merge of two sources.

Both heads are compared; the smaller one moves on, equal ones move on together,
and the operation says whether what moved on is given or skipped.  When one
source has ended the rest of the other is given or the merge stops.

* `Merge.start` — the merge of two sources under an operation;
* the `Walk` instance — a merge makes at most as many moves as the two sources
  have items.
-/
import Postings.Source
import Postings.Walk
import Postings.SetOp

namespace Postings

/-- The head of a source and what follows it, or nothing. -/
abbrev Head (σ : Type) := Option (Item × σ)

/-- A bound on the number of items from a head on. -/
def Head.left {σ : Type} [Source σ] : Head σ → Nat
  | none => 0
  | some (_, s) => Source.left s + 1

@[simp] theorem Head.left_some {σ : Type} [Source σ] (item : Item) (s : σ) :
    Head.left (some (item, s)) = Source.left s + 1 := rfl

@[simp] theorem Head.left_none {σ : Type} [Source σ] : Head.left (none : Head σ) = 0 := rfl

theorem Head.left_next? {σ : Type} [Source σ] (s : σ) :
    Head.left (Source.next? s) ≤ Source.left s := by
  match h : Source.next? s with
  | none => exact Nat.zero_le _
  | some (item, s') => exact Source.left_lt h

/-- A merge under way. -/
structure Merge (σ τ : Type) where
  op : SetOp
  left : Head σ
  right : Head τ

namespace Merge

variable {σ τ : Type} [Source σ] [Source τ]

/-- The merge of two sources. -/
def start (op : SetOp) (left : σ) (right : τ) : Merge σ τ :=
  ⟨op, Source.next? left, Source.next? right⟩

/-- Gives an item or skips it. -/
def pass {ρ : Type} (keep : Bool) (item : Item) (next : ρ) : Move ρ :=
  if keep then .give item next else .skip next

/-- One move: the smaller head goes, or both when they are equal. -/
def move (merge : Merge σ τ) : Move (Merge σ τ) :=
  match merge.left, merge.right with
  | some (x, s), some (y, t) =>
    if x < y then
      pass merge.op.keepsLeft x { merge with left := Source.next? s }
    else if y < x then
      pass merge.op.keepsRight y { merge with right := Source.next? t }
    else
      pass merge.op.keepsBoth x
        { merge with left := Source.next? s, right := Source.next? t }
  | some (x, s), none =>
    -- Nothing on the right can be equal any more, so the rest is kept or dropped as a whole.
    if merge.op.keepsLeft then .give x { merge with left := Source.next? s } else .stop
  | none, some (y, t) =>
    if merge.op.keepsRight then .give y { merge with right := Source.next? t } else .stop
  | none, none => .stop

/-- A bound on the number of items left in both sources. -/
def measure (merge : Merge σ τ) : Nat :=
  merge.left.left + merge.right.left

/-- Where a move leads. -/
def next? {ρ : Type} : Move ρ → Option ρ
  | .stop => none
  | .skip s => some s
  | .give _ s => some s

@[simp] theorem next?_pass {ρ : Type} (keep : Bool) (item : Item) (next : ρ) :
    next? (pass keep item next) = some next := by
  cases keep <;> rfl

theorem measure_lt {merge merge' : Merge σ τ} (h : next? merge.move = some merge') :
    merge'.measure < merge.measure := by
  obtain ⟨op, left, right⟩ := merge
  have step {ρ : Type} [Source ρ] (s : ρ) : Head.left (Source.next? s) < Source.left s + 1 :=
    Nat.lt_succ_of_le (Head.left_next? s)
  match left, right with
  | some (x, s), some (y, t) =>
    have hs := step s
    have ht := step t
    simp only [move] at h
    split at h
    · obtain rfl := Option.some.inj ((next?_pass ..).symm.trans h)
      simp only [measure, Head.left_some]
      omega
    · split at h
      · obtain rfl := Option.some.inj ((next?_pass ..).symm.trans h)
        simp only [measure, Head.left_some]
        omega
      · obtain rfl := Option.some.inj ((next?_pass ..).symm.trans h)
        simp only [measure, Head.left_some]
        omega
  | some (x, s), none =>
    have hs := step s
    simp only [move] at h
    split at h
    · obtain rfl := Option.some.inj h
      simp only [measure, Head.left_some, Head.left_none]
      omega
    · simp [next?] at h
  | none, some (y, t) =>
    have ht := step t
    simp only [move] at h
    split at h
    · obtain rfl := Option.some.inj h
      simp only [measure, Head.left_some, Head.left_none]
      omega
    · simp [next?] at h
  | none, none => simp [move, next?] at h

end Merge

/-- A merge moves at most once an item. -/
instance {σ τ : Type} [Source σ] [Source τ] : Walk (Merge σ τ) where
  move := Merge.move
  left := Merge.measure
  skip_lt h := Merge.measure_lt (by rw [h]; rfl)
  give_lt h := Merge.measure_lt (by rw [h]; rfl)

end Postings
