/-
What a merge gives.

`SetOp.Keeps` says of an operation which items it keeps, by the operands that hold
them.  A merge of two ascending sources gives those items and in ascending order:
one move takes the least item off the heads, and all later items exceed it.

* `Walk.given` — the items that a walk gives, one after the other;
* `Walk.runWhile_eq`, `Walk.run_eq` — a walk does to them what a loop over their list does;
* `Merged.pass`, `Merge.step` — one move;
* `Merge.gives_given`, `Merge.merged_start` — a whole merge.
-/
import Postings.Algebra.Merge
import Postings.Proofs.Source

namespace Postings

/-! ### Walks -/

namespace Walk

variable {σ β : Type} [Walk σ]

/-- The items that a walk gives. -/
def given (s : σ) : List Item :=
  match _h : move s with
  | .stop => []
  | .skip s' => given s'
  | .give item s' => item :: given s'
termination_by left s
decreasing_by
  · exact skip_lt _h
  · exact give_lt _h

theorem given_of_stop {s : σ} (h : move s = .stop) : given s = [] := by
  rw [given]
  split
  next => rfl
  next h' => exact absurd (h.symm.trans h') (by simp)
  next h' => exact absurd (h.symm.trans h') (by simp)

theorem given_of_skip {s s' : σ} (h : move s = .skip s') : given s = given s' := by
  rw [given]
  split
  next h' => exact absurd (h.symm.trans h') (by simp)
  next s'' h' => rw [Move.skip.inj (h.symm.trans h')]
  next h' => exact absurd (h.symm.trans h') (by simp)

theorem given_of_give {s s' : σ} {item : Item} (h : move s = .give item s') :
    given s = item :: given s' := by
  rw [given]
  split
  next h' => exact absurd (h.symm.trans h') (by simp)
  next h' => exact absurd (h.symm.trans h') (by simp)
  next item' s'' h' =>
    obtain ⟨rfl, rfl⟩ := Move.give.inj (h.symm.trans h')
    rfl

theorem given_of_pass {s s' : σ} {keep : Bool} {item : Item}
    (h : move s = Merge.pass keep item s') :
    given s = if keep then item :: given s' else given s' := by
  cases keep with
  | true => exact given_of_give h
  | false => exact given_of_skip h

/-- Hands items of a list to `emit` until it answers `false`. -/
def foldWhile (emit : β → Item → β × Bool) (acc : β) : List Item → β
  | [] => acc
  | item :: rest =>
    match emit acc item with
    | (acc, true) => foldWhile emit acc rest
    | (acc, false) => acc

/-- A walk that may be stopped depends only on the items that it gives. -/
theorem runWhile_eq (emit : β → Item → β × Bool) (acc : β) (s : σ) :
    runWhile emit acc s = foldWhile emit acc (given s) := by
  fun_induction runWhile emit acc s with
  | case1 acc s h => rw [given_of_stop h, foldWhile]
  | case2 acc s s' h ih => rw [given_of_skip h, ih]
  | case3 acc s item s' h acc' hemit ih =>
    rw [given_of_give h, foldWhile, hemit]
    exact ih
  | case4 acc s item s' h acc' hemit =>
    rw [given_of_give h, foldWhile, hemit]

/-- A walk that is not stopped hands over all items that it gives. -/
theorem run_eq (emit : β → Item → β) (acc : β) (s : σ) :
    run emit acc s = (given s).foldl emit acc := by
  rw [run, runWhile_eq]
  generalize given s = items
  induction items generalizing acc with
  | nil => rw [foldWhile, List.foldl_nil]
  | cons item rest ih => exact ih (emit acc item)

theorem toList_run_push (s : σ) : (run Array.push #[] s).toList = given s := by
  rw [run_eq, Source.foldl_push]
  rfl

end Walk

/-! ### Operations -/

namespace SetOp

/-- Whether an operation keeps an item, by the operands that hold it. -/
def Keeps (inLeft inRight : Prop) : SetOp → Prop
  | union => inLeft ∨ inRight
  | inter => inLeft ∧ inRight
  | diff => inLeft ∧ ¬ inRight
  | symmDiff => inLeft ∧ ¬ inRight ∨ inRight ∧ ¬ inLeft

variable {op : SetOp} {inLeft inRight : Prop}

theorem keeps_of_left (hleft : inLeft) (hright : ¬ inRight) :
    op.Keeps inLeft inRight ↔ op.keepsLeft = true := by
  cases op <;> simp [Keeps, keepsLeft, hleft, hright]

theorem keeps_of_right (hleft : ¬ inLeft) (hright : inRight) :
    op.Keeps inLeft inRight ↔ op.keepsRight = true := by
  cases op <;> simp [Keeps, keepsRight, hleft, hright]

theorem keeps_of_both (hleft : inLeft) (hright : inRight) :
    op.Keeps inLeft inRight ↔ op.keepsBoth = true := by
  cases op <;> simp [Keeps, keepsBoth, hleft, hright]

theorem not_keeps (hleft : ¬ inLeft) (hright : ¬ inRight) : ¬ op.Keeps inLeft inRight := by
  cases op <;> simp [Keeps, hleft, hright]

end SetOp

/-! ### Merges -/

/-- The ascending list of what an operation keeps of two lists. -/
structure Merged (op : SetOp) (left right items : List Item) : Prop where
  ascending : Ascending items
  mem_iff : ∀ item, item ∈ items ↔ op.Keeps (item ∈ left) (item ∈ right)

/-- What is kept is held by an operand. -/
theorem Merged.mem_or_mem {op : SetOp} {left right items : List Item} {item : Item}
    (h : Merged op left right items) (hitem : item ∈ items) :
    item ∈ left ∨ item ∈ right := by
  refine Classical.byContradiction fun hnot => ?_
  rw [not_or] at hnot
  exact SetOp.not_keeps hnot.1 hnot.2 ((h.mem_iff item).1 hitem)

/-- One move: the least item goes off the operands that hold it, and is kept or not. -/
theorem Merged.pass {op : SetOp} {left right left' right' rest : List Item} {keep : Bool}
    {item : Item} (h : Merged op left' right' rest)
    (hleft : ∀ other ∈ left', item < other) (hright : ∀ other ∈ right', item < other)
    (hkeep : op.Keeps (item ∈ left) (item ∈ right) ↔ keep = true)
    (hsame : ∀ other, other ≠ item →
      (other ∈ left ↔ other ∈ left') ∧ (other ∈ right ↔ other ∈ right')) :
    Merged op left right (if keep then item :: rest else rest) := by
  have habove : ∀ other ∈ rest, item < other := by
    intro other hother
    rcases h.mem_or_mem hother with hmem | hmem
    · exact hleft other hmem
    · exact hright other hmem
  have hmem : ∀ other, other ≠ item →
      (other ∈ rest ↔ op.Keeps (other ∈ left) (other ∈ right)) := by
    intro other hne
    obtain ⟨hl, hr⟩ := hsame other hne
    rw [h.mem_iff, hl, hr]
  -- All later items are above this one, so it is not given twice.
  have hnot : item ∉ rest := fun hitem => UInt32.lt_irrefl item (habove item hitem)
  cases keep with
  | true =>
    refine ⟨List.pairwise_cons.2 ⟨habove, h.ascending⟩, fun other => ?_⟩
    rw [if_pos rfl, List.mem_cons]
    by_cases hother : other = item
    · subst hother
      exact iff_of_true (.inl rfl) (hkeep.2 rfl)
    · rw [← hmem other hother]
      exact or_iff_right hother
  | false =>
    refine ⟨h.ascending, fun other => ?_⟩
    rw [if_neg Bool.false_ne_true]
    by_cases hother : other = item
    · subst hother
      exact iff_of_false hnot fun hkeeps => Bool.false_ne_true (hkeep.1 hkeeps)
    · exact hmem other hother

section Pass

variable {op : SetOp} {left right rest : List Item} {item : Item}

theorem mem_cons_iff_of_ne {other : Item} (hne : other ≠ item) :
    other ∈ item :: left ↔ other ∈ left := by
  rw [List.mem_cons]
  exact or_iff_right hne

theorem not_mem_of_lt (h : ∀ other ∈ left, item < other) : item ∉ left :=
  fun hitem => UInt32.lt_irrefl item (h item hitem)

/-- An item of the left operand below the whole right one. -/
theorem Merged.pass_left (h : Merged op left right rest) (hleft : Ascending (item :: left))
    (hright : ∀ other ∈ right, item < other) :
    Merged op (item :: left) right (if op.keepsLeft then item :: rest else rest) :=
  h.pass (List.pairwise_cons.1 hleft).1 hright
    (SetOp.keeps_of_left (List.mem_cons_self ..) (not_mem_of_lt hright))
    fun _ hne => ⟨mem_cons_iff_of_ne hne, Iff.rfl⟩

/-- An item of the right operand below the whole left one. -/
theorem Merged.pass_right (h : Merged op left right rest) (hleft : ∀ other ∈ left, item < other)
    (hright : Ascending (item :: right)) :
    Merged op left (item :: right) (if op.keepsRight then item :: rest else rest) :=
  h.pass hleft (List.pairwise_cons.1 hright).1
    (SetOp.keeps_of_right (not_mem_of_lt hleft) (List.mem_cons_self ..))
    fun _ hne => ⟨Iff.rfl, mem_cons_iff_of_ne hne⟩

/-- An item of both operands. -/
theorem Merged.pass_both (h : Merged op left right rest) (hleft : Ascending (item :: left))
    (hright : Ascending (item :: right)) :
    Merged op (item :: left) (item :: right) (if op.keepsBoth then item :: rest else rest) :=
  h.pass (List.pairwise_cons.1 hleft).1 (List.pairwise_cons.1 hright).1
    (SetOp.keeps_of_both (List.mem_cons_self ..) (List.mem_cons_self ..))
    fun _ hne => ⟨mem_cons_iff_of_ne hne, mem_cons_iff_of_ne hne⟩

/-- An operand that stands alone is kept as a whole. -/
theorem merged_self_of_left (hascend : Ascending left) (hkeep : op.keepsLeft = true) :
    Merged op left [] left := by
  refine ⟨hascend, fun item => ?_⟩
  by_cases hitem : item ∈ left
  · exact iff_of_true hitem ((SetOp.keeps_of_left hitem List.not_mem_nil).2 hkeep)
  · exact iff_of_false hitem (SetOp.not_keeps hitem List.not_mem_nil)

theorem merged_self_of_right (hascend : Ascending right) (hkeep : op.keepsRight = true) :
    Merged op [] right right := by
  refine ⟨hascend, fun item => ?_⟩
  by_cases hitem : item ∈ right
  · exact iff_of_true hitem ((SetOp.keeps_of_right List.not_mem_nil hitem).2 hkeep)
  · exact iff_of_false hitem (SetOp.not_keeps List.not_mem_nil hitem)

/-- Nothing is kept of a left operand alone by an operation that keeps no such item. -/
theorem merged_nil_of_left (hkeep : op.keepsLeft = false) : Merged op left [] [] := by
  refine ⟨List.Pairwise.nil, fun item => iff_of_false (List.not_mem_nil) fun hkeeps => ?_⟩
  by_cases hitem : item ∈ left
  · rw [SetOp.keeps_of_left hitem List.not_mem_nil, hkeep] at hkeeps
    exact Bool.false_ne_true hkeeps
  · exact SetOp.not_keeps hitem List.not_mem_nil hkeeps

theorem merged_nil_of_right (hkeep : op.keepsRight = false) : Merged op [] right [] := by
  refine ⟨List.Pairwise.nil, fun item => iff_of_false (List.not_mem_nil) fun hkeeps => ?_⟩
  by_cases hitem : item ∈ right
  · rw [SetOp.keeps_of_right List.not_mem_nil hitem, hkeep] at hkeeps
    exact Bool.false_ne_true hkeeps
  · exact SetOp.not_keeps List.not_mem_nil hitem hkeeps

/-- An item below the head of an ascending list is below all of it. -/
theorem lt_of_lt_head {head : Item} (hlt : item < head) (h : Ascending (head :: left)) :
    ∀ other ∈ head :: left, item < other := by
  intro other hother
  rcases List.mem_cons.1 hother with rfl | hother
  · exact hlt
  · exact UInt32.lt_trans hlt ((List.pairwise_cons.1 h).1 other hother)

end Pass

namespace Head

variable {σ : Type} [Source σ]

/-- The items from a head on. -/
def toList : Head σ → List Item
  | none => []
  | some (item, s) => item :: Source.toList s

theorem toList_next? (s : σ) : toList (Source.next? s) = Source.toList s := by
  cases h : Source.next? s with
  | none => rw [Source.toList_of_none h, toList]
  | some head => rw [Source.toList_of_some h, toList]

theorem ascending_next? {item : Item} {s : σ} (h : Ascending (toList (some (item, s)))) :
    Ascending (toList (Source.next? s)) := by
  rw [toList_next?]
  exact (List.pairwise_cons.1 h).2

end Head

namespace Merge

variable {σ τ : Type} [Source σ] [Source τ]

/-- What a merge still gives is what its operation keeps of the heads. -/
def Gives (merge : Merge σ τ) (items : List Item) : Prop :=
  Merged merge.op merge.left.toList merge.right.toList items

/-- What one move does: it ends a merge that keeps nothing more, or takes the least item off the
heads that hold it and keeps it or not. -/
inductive Step (merge : Merge σ τ) : Prop
  | stop (hmove : Walk.move merge = .stop) (hnil : merge.Gives [])
  | pass (keep : Bool) (item : Item) (merge' : Merge σ τ)
    (hmove : Walk.move merge = Merge.pass keep item merge')
    (hleft : Ascending merge'.left.toList) (hright : Ascending merge'.right.toList)
    (hrest : ∀ rest, merge'.Gives rest → merge.Gives (if keep then item :: rest else rest))

variable {op : SetOp} {x y : Item} {s : σ} {t : τ}

theorem step_left (hleft : Ascending (Head.toList (some (x, s)))) :
    Step (Merge.mk op (some (x, s)) (none : Head τ)) := by
  cases hkeep : op.keepsLeft with
  | false => exact .stop (by simp [Walk.move, move, hkeep]) (merged_nil_of_left hkeep)
  | true =>
    refine .pass op.keepsLeft x ⟨op, Source.next? s, none⟩ (by simp [Walk.move, move, pass, hkeep])
      (Head.ascending_next? hleft) List.Pairwise.nil fun rest hrest => ?_
    rw [Gives, Head.toList_next?] at hrest
    exact hrest.pass_left hleft fun other hother => absurd hother List.not_mem_nil

theorem step_right (hright : Ascending (Head.toList (some (y, t)))) :
    Step (Merge.mk op (none : Head σ) (some (y, t))) := by
  cases hkeep : op.keepsRight with
  | false => exact .stop (by simp [Walk.move, move, hkeep]) (merged_nil_of_right hkeep)
  | true =>
    refine .pass op.keepsRight y ⟨op, none, Source.next? t⟩
      (by simp [Walk.move, move, pass, hkeep]) List.Pairwise.nil (Head.ascending_next? hright)
      fun rest hrest => ?_
    rw [Gives, Head.toList_next?] at hrest
    exact hrest.pass_right (fun other hother => absurd hother List.not_mem_nil) hright

theorem step_both (hleft : Ascending (Head.toList (some (x, s))))
    (hright : Ascending (Head.toList (some (y, t)))) :
    Step (Merge.mk op (some (x, s)) (some (y, t))) := by
  by_cases hxy : x < y
  · refine .pass op.keepsLeft x ⟨op, Source.next? s, some (y, t)⟩ (by simp [Walk.move, move, hxy])
      (Head.ascending_next? hleft) hright fun rest hrest => ?_
    rw [Gives, Head.toList_next?] at hrest
    exact hrest.pass_left hleft (lt_of_lt_head hxy hright)
  · by_cases hyx : y < x
    · refine .pass op.keepsRight y ⟨op, some (x, s), Source.next? t⟩
        (by simp [Walk.move, move, hxy, hyx]) hleft (Head.ascending_next? hright)
        fun rest hrest => ?_
      rw [Gives, Head.toList_next?] at hrest
      exact hrest.pass_right (lt_of_lt_head hyx hleft) hright
    · -- Neither head is below the other, so both sources hold the item.
      obtain rfl : x = y := UInt32.le_antisymm (UInt32.not_lt.1 hyx) (UInt32.not_lt.1 hxy)
      refine .pass op.keepsBoth x ⟨op, Source.next? s, Source.next? t⟩
        (by simp [Walk.move, move, UInt32.lt_irrefl]) (Head.ascending_next? hleft)
        (Head.ascending_next? hright) fun rest hrest => ?_
      rw [Gives, Head.toList_next?, Head.toList_next?] at hrest
      exact hrest.pass_both hleft hright

theorem step (merge : Merge σ τ) (hleft : Ascending merge.left.toList)
    (hright : Ascending merge.right.toList) : merge.Step := by
  rcases merge with ⟨op, - | ⟨x, s⟩, - | ⟨y, t⟩⟩
  · refine .stop rfl ⟨List.Pairwise.nil, fun item => iff_of_false List.not_mem_nil ?_⟩
    exact SetOp.not_keeps List.not_mem_nil List.not_mem_nil
  · exact step_right hright
  · exact step_left hleft
  · exact step_both hleft hright

/-- A merge of ascending sources gives what its operation keeps, in ascending order. -/
theorem gives_given (merge : Merge σ τ) (hleft : Ascending merge.left.toList)
    (hright : Ascending merge.right.toList) : merge.Gives (Walk.given merge) := by
  -- Every move leaves fewer items on the heads, so the moves come to an end.
  generalize hsize : merge.measure = size
  induction size using Nat.strongRecOn generalizing merge with
  | _ size ih =>
    cases step merge hleft hright with
    | stop hmove hnil =>
      rw [Walk.given_of_stop hmove]
      exact hnil
    | pass keep item merge' hmove hleft' hright' hrest =>
      have hless : merge'.measure < size := by
        rw [← hsize]
        exact measure_lt ((congrArg next? hmove).trans (next?_pass ..))
      rw [Walk.given_of_pass hmove]
      exact hrest _ (ih _ hless merge' hleft' hright' rfl)

theorem merged_start (op : SetOp) (left : σ) (right : τ) (hleft : Ascending (Source.toList left))
    (hright : Ascending (Source.toList right)) :
    Merged op (Source.toList left) (Source.toList right) (Walk.given (start op left right)) := by
  have h := gives_given (start op left right) (by rwa [start, Head.toList_next?])
    (by rwa [start, Head.toList_next?])
  rwa [Gives, start, Head.toList_next?, Head.toList_next?] at h

end Merge

end Postings
