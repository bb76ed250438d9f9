/-
Merges that are stopped.

A merge does not need its operands in order.  It takes the smaller head off, or both when they
are equal, and when one operand has ended it keeps the rest of the other or drops it.  A callback
is handed what the merge gives, up to and with the first item that it answers `false` to; whatever
it answers, a merge makes no more moves than there are items.

* `SetOp.interleave` — what a merge gives, by recursion on two lists in any order;
* `Walk.Handed` — which items of a list a callback is handed;
* `Walk.recording`, `Walk.runCounting` — a callback that notes what it is handed, and a walk whose
  moves are counted;
* `Walk.visited`, `Walk.decidedByVisited` — the states that a walk comes to, and that its moves from
  other states do not matter;
* `Merge.Turn`, `Merge.turn` — one move of a merge, on the lists that are left;
* `Merge.runWhile_spec` — a whole merge under a callback.
-/
import Postings.Proofs.Algebra.Merge

namespace Postings

/-! ### What a callback is handed -/

namespace Walk

variable {σ β : Type} [Walk σ] {emit : β → Item → β × Bool} {acc : β}

/-- What a callback has built after items, whatever it answered to them. -/
def handAll (emit : β → Item → β × Bool) (acc : β) (items : List Item) : β :=
  items.foldl (fun acc item => (emit acc item).1) acc

/-- The callback answers `true` to every item when its turn comes. -/
def GoesOn (emit : β → Item → β × Bool) (acc : β) (items : List Item) : Prop :=
  ∀ earlier item later, items = earlier ++ item :: later →
    (emit (handAll emit acc earlier) item).2 = true

/-- A callback is handed all items, or those up to and with the first that it answers `false` to. -/
inductive Handed (emit : β → Item → β × Bool) (acc : β) : List Item → List Item → Prop
  | whole (items : List Item) (hitems : GoesOn emit acc items) : Handed emit acc items items
  | cut (earlier : List Item) (item : Item) (later : List Item)
    (hearlier : GoesOn emit acc earlier)
    (hitem : (emit (handAll emit acc earlier) item).2 = false) :
    Handed emit acc (earlier ++ item :: later) (earlier ++ [item])

theorem goesOn_nil : GoesOn emit acc [] := by
  intro earlier item later h
  exact absurd h (by simp)

theorem goesOn_cons {item : Item} {items : List Item} (hitem : (emit acc item).2 = true)
    (hitems : GoesOn emit (emit acc item).1 items) : GoesOn emit acc (item :: items) := by
  intro earlier other later h
  cases earlier with
  | nil =>
    obtain ⟨rfl, -⟩ := List.cons.inj h
    exact hitem
  | cons first earlier =>
    obtain ⟨rfl, hrest⟩ := List.cons.inj h
    exact hitems earlier other later hrest

theorem Handed.cons {item : Item} {items handed : List Item} (hitem : (emit acc item).2 = true)
    (h : Handed emit (emit acc item).1 items handed) :
    Handed emit acc (item :: items) (item :: handed) := by
  cases h with
  | whole _ hitems => exact .whole _ (goesOn_cons hitem hitems)
  | cut earlier other later hearlier hother =>
    exact .cut (item :: earlier) other later (goesOn_cons hitem hearlier) hother

theorem foldWhile_of_true {item : Item} {rest : List Item} (h : (emit acc item).2 = true) :
    foldWhile emit acc (item :: rest) = foldWhile emit (emit acc item).1 rest := by
  rw [foldWhile]
  split
  next hemit => rw [hemit]
  next hemit =>
    rw [hemit] at h
    exact absurd h Bool.false_ne_true

theorem foldWhile_of_false {item : Item} {rest : List Item} (h : (emit acc item).2 = false) :
    foldWhile emit acc (item :: rest) = (emit acc item).1 := by
  rw [foldWhile]
  split
  next hemit =>
    rw [hemit] at h
    exact absurd h.symm Bool.false_ne_true
  next hemit => rw [hemit]

/-- A callback that also notes the items that it is handed. -/
def recording (emit : β → Item → β × Bool) (noted : β × List Item) (item : Item) :
    (β × List Item) × Bool :=
  (((emit noted.1 item).1, noted.2 ++ [item]), (emit noted.1 item).2)

theorem exists_foldWhile_recording (emit : β → Item → β × Bool) (acc : β)
    (noted items : List Item) : ∃ handed, Handed emit acc items handed ∧
      foldWhile emit acc items = handAll emit acc handed ∧
      foldWhile (recording emit) (acc, noted) items
        = (foldWhile emit acc items, noted ++ handed) := by
  induction items generalizing acc noted with
  | nil =>
    refine ⟨[], .whole [] goesOn_nil, rfl, ?_⟩
    rw [foldWhile, foldWhile, List.append_nil]
  | cons item rest ih =>
    -- The callback that notes items answers as the other one does.
    have hsame : (recording emit (acc, noted) item).2 = (emit acc item).2 := rfl
    cases hitem : (emit acc item).2 with
    | true =>
      obtain ⟨handed, hhanded, hbuilt, hnoted⟩ := ih (emit acc item).1 (noted ++ [item])
      rw [List.append_assoc, List.singleton_append] at hnoted
      rw [foldWhile_of_true hitem, foldWhile_of_true (hsame.trans hitem)]
      exact ⟨item :: handed, hhanded.cons hitem, hbuilt, hnoted⟩
    | false =>
      rw [foldWhile_of_false hitem, foldWhile_of_false (hsame.trans hitem)]
      exact ⟨[item], .cut [] item rest goesOn_nil hitem, rfl, rfl⟩

/-- What a callback has built, and what it is handed of the items that a walk gives. -/
theorem runWhile_recording (emit : β → Item → β × Bool) (acc : β) (s : σ) :
    Handed emit acc (given s) (runWhile (recording emit) (acc, []) s).2 ∧
      (runWhile (recording emit) (acc, []) s).1 = runWhile emit acc s ∧
      runWhile emit acc s = handAll emit acc (runWhile (recording emit) (acc, []) s).2 := by
  obtain ⟨handed, hhanded, hbuilt, hnoted⟩ := exists_foldWhile_recording emit acc [] (given s)
  rw [runWhile_eq, runWhile_eq, hnoted, List.nil_append]
  exact ⟨hhanded, rfl, hbuilt⟩

/-! ### Moves of a walk that may be stopped -/

/-- A walk under a callback, and the number of its moves. -/
def runCounting (emit : β → Item → β × Bool) (acc : β) (s : σ) : β × Nat :=
  match _h : move s with
  | .stop => (acc, 0)
  | .skip s' =>
    let (acc, count) := runCounting emit acc s'
    (acc, count + 1)
  | .give item s' =>
    match emit acc item with
    | (acc, true) =>
      let (acc, count) := runCounting emit acc s'
      (acc, count + 1)
    | (acc, false) => (acc, 1)
termination_by left s
decreasing_by
  · exact skip_lt _h
  · exact give_lt _h

theorem runWhile_of_stop {s : σ} (hmove : move s = .stop) : runWhile emit acc s = acc := by
  rw [runWhile_eq, given_of_stop hmove, foldWhile]

theorem runWhile_of_skip {s s' : σ} (hmove : move s = .skip s') :
    runWhile emit acc s = runWhile emit acc s' := by
  rw [runWhile_eq, given_of_skip hmove, ← runWhile_eq]

theorem runWhile_of_give {s s' : σ} {item : Item} {answer : β × Bool}
    (hmove : move s = .give item s') (hemit : emit acc item = answer) :
    runWhile emit acc s = if answer.2 then runWhile emit answer.1 s' else answer.1 := by
  rw [runWhile_eq, given_of_give hmove]
  split
  next hgoes => rw [foldWhile_of_true (by rw [hemit, hgoes]), hemit, ← runWhile_eq]
  next hstops => rw [foldWhile_of_false (by rw [hemit]; simpa using hstops), hemit]

/-- Counting the moves does not change what is built. -/
theorem fst_runCounting (emit : β → Item → β × Bool) (acc : β) (s : σ) :
    (runCounting emit acc s).1 = runWhile emit acc s := by
  fun_induction runCounting emit acc s with
  | case1 acc s hmove => exact (runWhile_of_stop hmove).symm
  | case2 acc s s' hmove acc' count hrec ih =>
    rw [runWhile_of_skip hmove, ← ih, hrec]
  | case3 acc s item s' hmove acc' hemit acc'' count hrec ih =>
    rw [runWhile_of_give hmove hemit, if_pos rfl, ← ih, hrec]
  | case4 acc s item s' hmove acc' hemit =>
    rw [runWhile_of_give hmove hemit, if_neg Bool.false_ne_true]

/-- The states that a walk under a callback comes to, in which it looks for its next move. -/
def visited (emit : β → Item → β × Bool) (acc : β) (s : σ) : List σ :=
  match _h : move s with
  | .stop => [s]
  | .skip s' => s :: visited emit acc s'
  | .give item s' =>
    match emit acc item with
    | (acc, true) => s :: visited emit acc s'
    | (_, false) => [s]
termination_by left s
decreasing_by
  · exact skip_lt _h
  · exact give_lt _h

theorem visited_of_stop {s : σ} (hmove : move s = .stop) : visited emit acc s = [s] := by
  rw [visited]
  split
  next => rfl
  next h => exact absurd (hmove.symm.trans h) (by simp)
  next h => exact absurd (hmove.symm.trans h) (by simp)

theorem visited_of_skip {s s' : σ} (hmove : move s = .skip s') :
    visited emit acc s = s :: visited emit acc s' := by
  rw [visited]
  split
  next h => exact absurd (hmove.symm.trans h) (by simp)
  next s'' h => rw [Move.skip.inj (hmove.symm.trans h)]
  next h => exact absurd (hmove.symm.trans h) (by simp)

theorem visited_of_give {s s' : σ} {item : Item} {answer : β × Bool}
    (hmove : move s = .give item s') (hemit : emit acc item = answer) :
    visited emit acc s = s :: if answer.2 then visited emit answer.1 s' else [] := by
  rw [visited]
  split
  next h => exact absurd (hmove.symm.trans h) (by simp)
  next h => exact absurd (hmove.symm.trans h) (by simp)
  next item' s'' h =>
    obtain ⟨rfl, rfl⟩ := Move.give.inj (hmove.symm.trans h)
    split
    next hgoes =>
      obtain rfl := hemit.symm.trans hgoes
      rfl
    next hstops =>
      obtain rfl := hemit.symm.trans hstops
      rfl

/-- A move is counted for every state that is visited and does not end the walk. -/
theorem snd_runCounting (emit : β → Item → β × Bool) (acc : β) (s : σ) :
    (runCounting emit acc s).2
      = ((visited emit acc s).filter fun state => (Merge.next? (move state)).isSome).length := by
  fun_induction runCounting emit acc s with
  | case1 acc s hmove =>
    rw [visited_of_stop hmove, List.filter_cons_of_neg (by rw [hmove]; simp [Merge.next?])]
    rfl
  | case2 acc s s' hmove acc' count hrec ih =>
    rw [visited_of_skip hmove, List.filter_cons_of_pos (by rw [hmove]; rfl), List.length_cons, ← ih,
      hrec]
  | case3 acc s item s' hmove acc' hemit acc'' count hrec ih =>
    rw [visited_of_give hmove hemit, if_pos rfl, List.filter_cons_of_pos (by rw [hmove]; rfl),
      List.length_cons, ← ih, hrec]
  | case4 acc s item s' hmove acc' hemit =>
    rw [visited_of_give hmove hemit, if_neg Bool.false_ne_true,
      List.filter_cons_of_pos (by rw [hmove]; rfl)]
    rfl

theorem moves_of_next? {s s' : σ} (h : Merge.next? (move s) = some s') :
    moves s = moves s' + 1 := by
  rw [moves]
  split
  next hmove =>
    rw [hmove] at h
    exact absurd h (by simp [Merge.next?])
  next hmove =>
    rw [hmove] at h
    rw [Option.some.inj h]
  next hmove =>
    rw [hmove] at h
    rw [Option.some.inj h]

/-- A walk that is stopped has made no more moves than one that is not. -/
theorem snd_runCounting_le (emit : β → Item → β × Bool) (acc : β) (s : σ) :
    (runCounting emit acc s).2 ≤ moves s := by
  fun_induction runCounting emit acc s with
  | case1 => exact Nat.zero_le _
  | case2 acc s s' h acc' count hrec ih =>
    rw [hrec] at ih
    rw [moves_of_next? (congrArg Merge.next? h)]
    exact Nat.succ_le_succ ih
  | case3 acc s item s' h acc' hemit acc'' count hrec ih =>
    rw [hrec] at ih
    rw [moves_of_next? (congrArg Merge.next? h)]
    exact Nat.succ_le_succ ih
  | case4 acc s item s' h =>
    rw [moves_of_next? (congrArg Merge.next? h)]
    exact Nat.le_add_left ..

/-- A walk makes no more moves than a number that falls with each of them. -/
theorem moves_le {bound : σ → Nat}
    (hbound : ∀ {s s' : σ}, Merge.next? (move s) = some s' → bound s' < bound s) (s : σ) :
    moves s ≤ bound s := by
  fun_induction moves s with
  | case1 => exact Nat.zero_le _
  | case2 s s' h ih => exact Nat.lt_of_le_of_lt ih (hbound (congrArg Merge.next? h))
  | case3 s item s' h ih => exact Nat.lt_of_le_of_lt ih (hbound (congrArg Merge.next? h))

end Walk

/-! ### States that matter -/

namespace Walk

variable {σ β : Type}

/-- Any walk that moves as this one does from the states that are visited comes to the same, so that
no move but those from visited states plays a part. -/
def DecidedByVisited (walk : Walk σ) (emit : β → Item → β × Bool) (acc : β) (s : σ) : Prop :=
  ∀ other : Walk σ,
    (∀ state ∈ @visited σ β walk emit acc s, @move σ other state = @move σ walk state) →
    @runWhile σ β other emit acc s = @runWhile σ β walk emit acc s

theorem decidedByVisited (walk : Walk σ) (emit : β → Item → β × Bool) (acc : β) (s : σ) :
    DecidedByVisited walk emit acc s := by
  intro other h
  -- There are two walks over the states, so each fact names the one that it is about.
  induction acc, s using @visited.induct σ β walk emit with
  | case1 acc s hmove =>
    rw [@visited_of_stop σ β walk emit acc s hmove, List.forall_mem_singleton] at h
    rw [@runWhile_of_stop σ β walk emit acc s hmove,
      @runWhile_of_stop σ β other emit acc s (h.trans hmove)]
  | case2 acc s s' hmove ih =>
    rw [@visited_of_skip σ β walk emit acc s s' hmove, List.forall_mem_cons] at h
    rw [@runWhile_of_skip σ β walk emit acc s s' hmove,
      @runWhile_of_skip σ β other emit acc s s' (h.1.trans hmove), ih h.2]
  | case3 acc s item s' hmove acc' hemit ih =>
    rw [@visited_of_give σ β walk emit acc s s' item _ hmove hemit, List.forall_mem_cons,
      if_pos rfl] at h
    rw [@runWhile_of_give σ β walk emit acc s s' item _ hmove hemit,
      @runWhile_of_give σ β other emit acc s s' item _ (h.1.trans hmove) hemit, ih h.2]
  | case4 acc s item s' hmove acc' hemit =>
    rw [@visited_of_give σ β walk emit acc s s' item _ hmove hemit, List.forall_mem_cons] at h
    rw [@runWhile_of_give σ β walk emit acc s s' item _ hmove hemit,
      @runWhile_of_give σ β other emit acc s s' item _ (h.1.trans hmove) hemit]
    rfl

end Walk

/-! ### Operands in any order -/

namespace SetOp

/-- What a merge gives of two lists, in order or not. -/
def interleave (op : SetOp) : List Item → List Item → List Item
  | x :: left, y :: right =>
    if x < y then
      let rest := interleave op left (y :: right)
      if op.keepsLeft then x :: rest else rest
    else if y < x then
      let rest := interleave op (x :: left) right
      if op.keepsRight then y :: rest else rest
    else
      let rest := interleave op left right
      if op.keepsBoth then x :: rest else rest
  | left, [] => if op.keepsLeft then left else []
  | [], right => if op.keepsRight then right else []
termination_by left right => left.length + right.length

theorem interleave_nil_right (op : SetOp) (left : List Item) :
    op.interleave left [] = if op.keepsLeft then left else [] := by
  cases left <;> rw [interleave]

theorem interleave_nil_left (op : SetOp) (right : List Item) :
    op.interleave [] right = if op.keepsRight then right else [] := by
  cases right with
  | nil => rw [interleave_nil_right, ite_self, ite_self]
  | cons y right =>
    rw [interleave]
    simp

end SetOp

namespace Head

variable {σ : Type} [Source σ]

@[simp] theorem toList_none : toList (none : Head σ) = [] := rfl

@[simp] theorem toList_some (item : Item) (s : σ) :
    toList (some (item, s)) = item :: Source.toList s := rfl

end Head

namespace Merge

variable {σ τ β : Type} [Source σ] [Source τ]

/-- The number of items that are left on both sides. -/
def held (merge : Merge σ τ) : Nat :=
  merge.left.toList.length + merge.right.toList.length

/-- What a merge still gives, told from the items that are left. -/
def rest (merge : Merge σ τ) : List Item :=
  merge.op.interleave merge.left.toList merge.right.toList

/-- What one move does to the items that are left: there is nothing more to give, or an item is
taken off and given or not. -/
inductive Turn (merge : Merge σ τ) : Prop
  | stop (hmove : Walk.move merge = .stop) (hrest : merge.rest = [])
  | pass (keep : Bool) (item : Item) (merge' : Merge σ τ)
    (hmove : Walk.move merge = Merge.pass keep item merge')
    (hrest : merge.rest = if keep then item :: merge'.rest else merge'.rest)
    (hheld : merge'.held < merge.held)

variable {op : SetOp} {x y : Item} {s : σ} {t : τ}

theorem turn_left : Turn (Merge.mk op (some (x, s)) (none : Head τ)) := by
  cases hkeep : op.keepsLeft with
  | false =>
    refine .stop (by simp [Walk.move, move, hkeep]) ?_
    simp only [rest, Head.toList_none, SetOp.interleave_nil_right, hkeep, Bool.false_eq_true,
      if_false]
  | true =>
    refine .pass true x ⟨op, Source.next? s, none⟩ (by simp [Walk.move, move, pass, hkeep]) ?_ ?_
    · simp only [rest, Head.toList_next?, Head.toList_some, Head.toList_none,
        SetOp.interleave_nil_right, hkeep, if_true]
    · simp only [held, Head.toList_next?, Head.toList_some, Head.toList_none, List.length_cons]
      omega

theorem turn_right : Turn (Merge.mk op (none : Head σ) (some (y, t))) := by
  cases hkeep : op.keepsRight with
  | false =>
    refine .stop (by simp [Walk.move, move, hkeep]) ?_
    simp only [rest, Head.toList_none, SetOp.interleave_nil_left, hkeep, Bool.false_eq_true,
      if_false]
  | true =>
    refine .pass true y ⟨op, none, Source.next? t⟩ (by simp [Walk.move, move, pass, hkeep]) ?_ ?_
    · simp only [rest, Head.toList_next?, Head.toList_some, Head.toList_none,
        SetOp.interleave_nil_left, hkeep, if_true]
    · simp only [held, Head.toList_next?, Head.toList_some, Head.toList_none, List.length_cons]
      omega

theorem turn_both : Turn (Merge.mk op (some (x, s)) (some (y, t))) := by
  by_cases hxy : x < y
  · refine .pass op.keepsLeft x ⟨op, Source.next? s, some (y, t)⟩ (by simp [Walk.move, move, hxy])
      ?_ ?_
    · simp only [rest, Head.toList_next?, Head.toList_some]
      rw [SetOp.interleave, if_pos hxy]
    · simp only [held, Head.toList_next?, Head.toList_some, List.length_cons]
      omega
  · by_cases hyx : y < x
    · refine .pass op.keepsRight y ⟨op, some (x, s), Source.next? t⟩
        (by simp [Walk.move, move, hxy, hyx]) ?_ ?_
      · simp only [rest, Head.toList_next?, Head.toList_some]
        rw [SetOp.interleave, if_neg hxy, if_pos hyx]
      · simp only [held, Head.toList_next?, Head.toList_some, List.length_cons]
        omega
    · -- Neither head is below the other, so both are taken off.
      refine .pass op.keepsBoth x ⟨op, Source.next? s, Source.next? t⟩
        (by simp [Walk.move, move, hxy, hyx]) ?_ ?_
      · simp only [rest, Head.toList_next?, Head.toList_some]
        rw [SetOp.interleave, if_neg hxy, if_neg hyx]
      · simp only [held, Head.toList_next?, Head.toList_some, List.length_cons]
        omega

theorem turn (merge : Merge σ τ) : merge.Turn := by
  rcases merge with ⟨op, - | ⟨x, s⟩, - | ⟨y, t⟩⟩
  · refine .stop rfl ?_
    rw [rest, Head.toList_none, Head.toList_none, SetOp.interleave_nil_right, ite_self]
  · exact turn_right
  · exact turn_left
  · exact turn_both

theorem held_lt {merge merge' : Merge σ τ} (h : next? (Walk.move merge) = some merge') :
    merge'.held < merge.held := by
  cases turn merge with
  | stop hmove hrest =>
    rw [hmove] at h
    exact absurd h (by simp [next?])
  | pass keep item merge'' hmove hrest hheld =>
    rw [hmove, next?_pass] at h
    rwa [← Option.some.inj h]

/-- What a merge gives depends on nothing but the items on either side. -/
theorem given_eq_rest (merge : Merge σ τ) : Walk.given merge = merge.rest := by
  -- Every move takes an item off, so the moves come to an end.
  generalize hsize : merge.held = size
  induction size using Nat.strongRecOn generalizing merge with
  | _ size ih =>
    cases turn merge with
    | stop hmove hrest => rw [Walk.given_of_stop hmove, hrest]
    | pass keep item merge' hmove hrest hheld =>
      rw [Walk.given_of_pass hmove, ih merge'.held (hsize ▸ hheld) merge' rfl, hrest]

/-- Whatever order its operands are in, a merge gives what the recursion on their items gives.  A
callback is handed the same items in the same order, all of them or those up to and with the first
that it answers `false` to, and nothing else is done to what it builds.  A merge makes no more
moves than there are items: a move is counted for every state that it comes to and goes on from,
and its moves from other states do not matter. -/
theorem runWhile_spec (op : SetOp) (left : σ) (right : τ) (emit : β → Item → β × Bool) (acc : β) :
    (Walk.run Array.push #[] (start op left right)).toList
        = op.interleave (Source.toList left) (Source.toList right) ∧
      Walk.Handed emit acc (Walk.run Array.push #[] (start op left right)).toList
        (Walk.runWhile (Walk.recording emit) (acc, []) (start op left right)).2 ∧
      (Walk.runWhile (Walk.recording emit) (acc, []) (start op left right)).1
        = Walk.runWhile emit acc (start op left right) ∧
      Walk.runWhile emit acc (start op left right) = Walk.handAll emit acc
        (Walk.runWhile (Walk.recording emit) (acc, []) (start op left right)).2 ∧
      (Walk.runCounting emit acc (start op left right)).1
        = Walk.runWhile emit acc (start op left right) ∧
      (Walk.runCounting emit acc (start op left right)).2
        ≤ (Source.toList left).length + (Source.toList right).length ∧
      (Walk.runCounting emit acc (start op left right)).2
        = ((Walk.visited emit acc (start op left right)).filter fun merge =>
            (next? (Walk.move merge)).isSome).length ∧
      Walk.DecidedByVisited inferInstance emit acc (start op left right) := by
  have hgiven : Walk.given (start op left right)
      = op.interleave (Source.toList left) (Source.toList right) := by
    rw [given_eq_rest, rest, start, Head.toList_next?, Head.toList_next?]
  have hmoves : Walk.moves (start op left right)
      ≤ (Source.toList left).length + (Source.toList right).length := by
    have hle := Walk.moves_le held_lt (start op left right)
    rwa [held, start, Head.toList_next?, Head.toList_next?] at hle
  obtain ⟨hhanded, hsame, hbuilt⟩ := Walk.runWhile_recording emit acc (start op left right)
  rw [Walk.toList_run_push]
  exact ⟨hgiven, hhanded, hsame, hbuilt, Walk.fst_runCounting emit acc _,
    Nat.le_trans (Walk.snd_runCounting_le emit acc _) hmoves, Walk.snd_runCounting emit acc _,
    Walk.decidedByVisited inferInstance emit acc _⟩

/-- Operands in no order, and a callback that has enough after its third item. -/
example : Walk.runWhile (fun (out : List Item) item => (out ++ [item], decide (out.length < 2))) []
    (start .union [(4 : Item), 1, 6] [(2 : Item), 9, 4]) = [2, 4, 1] := by
  cbv

end Merge

end Postings
