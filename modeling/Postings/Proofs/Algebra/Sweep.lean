/-
What a sweep gives.

A sweep moves the other lists along with its candidates and never looks back.  Moving a list up to
a candidate passes over smaller items only, so from this candidate on the lists have the same
items before and after a move.

* `Sweep.toList_skipBelow`, `Sweep.Along` — moving one list along;
* `Sweep.require_eq_some`, `Sweep.require_eq_none`, `Sweep.exclude_eq` — moving many, and what
  is seen on the way;
* `Sweep.Moves`, `Sweep.step` — one move;
* `Sweep.given_sublist`, `Sweep.mem_given` — a whole sweep;
* `Sweep.ascending_given_start`, `Sweep.mem_given_start` — the sweep over lists.
-/
import Mathlib.Data.List.Forall2
import Mathlib.Data.List.TakeWhile
import Postings.Algebra.Sweep
import Postings.Proofs.Algebra.Many

namespace Postings.Sweep

/-! ### Moving lists along -/

variable {target item : Item} {head moved : Head Cursor} {rest : Cursor}
  {heads movedHeads : List (Head Cursor)} {found : Bool}

/-- The same list further on: it has what it had from the target on. -/
structure Along (target : Item) (head moved : Head Cursor) : Prop where
  ascending : Ascending moved.toList
  mem_iff : ∀ item, target ≤ item → (item ∈ moved.toList ↔ item ∈ head.toList)

theorem Along.refl (h : Ascending head.toList) : Along target head head :=
  ⟨h, fun _ _ => Iff.rfl⟩

theorem toList_skipBelow (target : Item) (head : Head Cursor) :
    (skipBelow target head).toList = head.toList.dropWhile fun item => decide (item < target) := by
  fun_induction skipBelow target head with
  | case1 => rfl
  | case2 item rest hlt ih =>
    rw [ih, Head.toList_next?, Head.toList]
    exact (List.dropWhile_cons_of_pos (by rwa [decide_eq_true_eq])).symm
  | case3 item rest hge =>
    rw [Head.toList]
    exact (List.dropWhile_cons_of_neg (by rwa [decide_eq_true_eq])).symm

theorem along_skipBelow (h : Ascending head.toList) :
    Along target head (skipBelow target head) := by
  refine ⟨?_, fun item htarget => ?_⟩
  · rw [toList_skipBelow]
    exact List.Pairwise.sublist (List.dropWhile_sublist _) h
  · rw [toList_skipBelow]
    refine ⟨fun hitem => (List.dropWhile_sublist _).subset hitem, fun hitem => ?_⟩
    have hsplit : head.toList.takeWhile (fun item => decide (item < target))
        ++ head.toList.dropWhile (fun item => decide (item < target)) = head.toList :=
      List.takeWhile_append_dropWhile
    rw [← hsplit, List.mem_append] at hitem
    refine hitem.resolve_left fun hpassed => ?_
    have hbelow := List.mem_takeWhile_imp hpassed
    exact absurd (of_decide_eq_true hbelow) (UInt32.not_lt.2 htarget)

/-- A list that has ended has nothing from the target on. -/
theorem not_mem_of_skipBelow (h : Ascending head.toList) (hskip : skipBelow target head = none)
    (htarget : target ≤ item) : item ∉ head.toList := by
  have halong : Along target head (skipBelow target head) := along_skipBelow h
  rw [← halong.mem_iff item htarget, hskip]
  exact List.not_mem_nil

/-- A list has the target if and only if the target comes next. -/
theorem mem_iff_of_skipBelow (h : Ascending head.toList)
    (hskip : skipBelow target head = some (item, rest)) : target ∈ head.toList ↔ item = target := by
  have halong : Along target head (skipBelow target head) := along_skipBelow h
  rw [← halong.mem_iff target (UInt32.le_refl target)]
  have hascend := halong.ascending
  have hlist := toList_skipBelow target head
  rw [hskip, Head.toList] at hlist hascend ⊢
  have hge : ¬ item < target := by
    have hhead := List.head?_dropWhile_not (fun item => decide (item < target)) head.toList
    rw [← hlist] at hhead
    simpa using hhead
  rw [List.mem_cons]
  constructor
  · rintro (rfl | hrest)
    · rfl
    · exact absurd ((List.pairwise_cons.1 hascend).1 target hrest) hge
  · rintro rfl
    exact .inl rfl

/-! ### Moving many lists along -/

/-- The item is in every list, from the heads on. -/
def AllHave (heads : List (Head Cursor)) (item : Item) : Prop :=
  ∀ head ∈ heads, item ∈ head.toList

/-- The item is in some list, from the heads on. -/
def SomeHas (heads : List (Head Cursor)) (item : Item) : Prop :=
  ∃ head ∈ heads, item ∈ head.toList

/-- Every list ascends from its head on. -/
def Ascend (heads : List (Head Cursor)) : Prop :=
  ∀ head ∈ heads, Ascending head.toList

theorem allHave_cons : AllHave (head :: heads) item ↔ item ∈ head.toList ∧ AllHave heads item :=
  List.forall_mem_cons

theorem someHas_cons : SomeHas (head :: heads) item ↔ item ∈ head.toList ∨ SomeHas heads item :=
  List.exists_mem_cons_iff _ _ _

/-- The same lists further on. -/
def AllAlong (target : Item) : List (Head Cursor) → List (Head Cursor) → Prop :=
  List.Forall₂ (Along target)

theorem AllAlong.refl (h : Ascend heads) : AllAlong target heads heads :=
  List.forall₂_same.2 fun head hhead => Along.refl (h head hhead)

theorem AllAlong.ascend (h : AllAlong target heads movedHeads) : Ascend movedHeads := by
  induction h with
  | nil => exact fun _ hhead => absurd hhead List.not_mem_nil
  | cons hhead _ ih => exact List.forall_mem_cons.2 ⟨hhead.ascending, ih⟩

theorem AllAlong.allHave_iff (h : AllAlong target heads movedHeads) (htarget : target ≤ item) :
    AllHave movedHeads item ↔ AllHave heads item := by
  induction h with
  | nil => rfl
  | cons hhead _ ih => rw [allHave_cons, allHave_cons, hhead.mem_iff item htarget, ih]

theorem AllAlong.someHas_iff (h : AllAlong target heads movedHeads) (htarget : target ≤ item) :
    SomeHas movedHeads item ↔ SomeHas heads item := by
  induction h with
  | nil => rfl
  | cons hhead _ ih => rw [someHas_cons, someHas_cons, hhead.mem_iff item htarget, ih]

/-- Where a required list has ended, nothing more is in all of them. -/
theorem require_eq_none (hascend : Ascend heads) (h : require target heads = none)
    (htarget : target ≤ item) : ¬ AllHave heads item := by
  fun_induction require target heads with
  | case1 => exact absurd h (by simp)
  | case2 head heads hskip =>
    rw [allHave_cons]
    exact fun hall => not_mem_of_skipBelow (hascend head (List.mem_cons_self ..)) hskip htarget
      hall.1
  | case3 head heads rest hrequire hskip ih =>
    rw [allHave_cons]
    exact fun hall => ih (List.forall_mem_cons.1 hascend).2 hrequire hall.2
  | case4 => exact absurd h (by simp)
  | case5 => exact absurd h (by simp)

/-- The lists up to the first one that lacks the target are moved, and no list behind it. -/
theorem require_eq_some (hascend : Ascend heads)
    (h : require target heads = some (found, movedHeads)) :
    AllAlong target heads movedHeads ∧ (found = true ↔ AllHave heads target) := by
  fun_induction require target heads generalizing found movedHeads with
  | case1 =>
    simp only [Option.some.injEq, Prod.mk.injEq] at h
    obtain ⟨rfl, rfl⟩ := h
    exact ⟨.nil, iff_of_true rfl fun head hhead => absurd hhead List.not_mem_nil⟩
  | case2 => exact absurd h (by simp)
  | case3 => exact absurd h (by simp)
  | case4 head heads rest found movedHeads hrequire hskip ih =>
    simp only [Option.some.injEq, Prod.mk.injEq] at h
    obtain ⟨rfl, rfl⟩ := h
    obtain ⟨hfirst, hrest⟩ := List.forall_mem_cons.1 hascend
    obtain ⟨halong, hfound⟩ := ih hrest hrequire
    have hhead : Along target head (some (target, rest)) := hskip ▸ along_skipBelow hfirst
    refine ⟨.cons hhead halong, ?_⟩
    rw [hfound, allHave_cons, and_iff_right ((mem_iff_of_skipBelow hfirst hskip).2 rfl)]
  | case5 head heads item rest hskip hne =>
    simp only [Option.some.injEq, Prod.mk.injEq] at h
    obtain ⟨rfl, rfl⟩ := h
    obtain ⟨hfirst, hrest⟩ := List.forall_mem_cons.1 hascend
    have hhead : Along target head (some (item, rest)) := hskip ▸ along_skipBelow hfirst
    refine ⟨.cons hhead (AllAlong.refl hrest), iff_of_false Bool.false_ne_true fun hall => ?_⟩
    exact hne ((mem_iff_of_skipBelow hfirst hskip).1 (allHave_cons.1 hall).1)

/-- The lists up to the first one that has the target are moved, and no list behind it. -/
theorem exclude_eq (hascend : Ascend heads) (h : exclude target heads = (found, movedHeads)) :
    AllAlong target heads movedHeads ∧ (found = true ↔ SomeHas heads target) := by
  fun_induction exclude target heads generalizing found movedHeads with
  | case1 =>
    obtain ⟨rfl, rfl⟩ := Prod.mk.inj h
    exact ⟨.nil, iff_of_false Bool.false_ne_true fun ⟨head, hhead, _⟩ =>
      absurd hhead List.not_mem_nil⟩
  | case2 head heads hskip found movedHeads hexclude ih =>
    obtain ⟨rfl, rfl⟩ := Prod.mk.inj h
    obtain ⟨hfirst, hrest⟩ := List.forall_mem_cons.1 hascend
    obtain ⟨halong, hfound⟩ := ih hrest hexclude
    have hhead : Along target head none := hskip ▸ along_skipBelow hfirst
    refine ⟨.cons hhead halong, ?_⟩
    rw [hfound, someHas_cons,
      or_iff_right (not_mem_of_skipBelow hfirst hskip (UInt32.le_refl target))]
  | case3 head heads rest hskip =>
    obtain ⟨rfl, rfl⟩ := Prod.mk.inj h
    obtain ⟨hfirst, hrest⟩ := List.forall_mem_cons.1 hascend
    have hhead : Along target head (some (target, rest)) := hskip ▸ along_skipBelow hfirst
    refine ⟨.cons hhead (AllAlong.refl hrest), iff_of_true rfl (someHas_cons.2 (.inl ?_))⟩
    exact (mem_iff_of_skipBelow hfirst hskip).2 rfl
  | case4 head heads item rest hskip hne found movedHeads hexclude ih =>
    obtain ⟨rfl, rfl⟩ := Prod.mk.inj h
    obtain ⟨hfirst, hrest⟩ := List.forall_mem_cons.1 hascend
    obtain ⟨halong, hfound⟩ := ih hrest hexclude
    have hhead : Along target head (some (item, rest)) := hskip ▸ along_skipBelow hfirst
    refine ⟨.cons hhead halong, ?_⟩
    rw [hfound, someHas_cons, or_iff_right fun hmem =>
      hne ((mem_iff_of_skipBelow hfirst hskip).1 hmem)]

/-! ### One move -/

variable {sweep : Sweep} {candidate : Item}

/-- What a move does: the sweep is over without a candidate or where a required list has ended,
or the next candidate is skipped or given. -/
inductive Moves (sweep : Sweep) : Prop
  | exhausted (hnext : Source.next? sweep.candidates = none) (hmove : Walk.move sweep = .stop)
  | ended (candidate : Item) (candidates : Cursor)
    (hnext : Source.next? sweep.candidates = some (candidate, candidates))
    (hrequire : require candidate sweep.required = none) (hmove : Walk.move sweep = .stop)
  | missed (candidate : Item) (candidates : Cursor) (required : List (Head Cursor))
    (hnext : Source.next? sweep.candidates = some (candidate, candidates))
    (hrequire : require candidate sweep.required = some (false, required))
    (hmove : Walk.move sweep
      = Merge.pass false candidate ⟨candidates, required, sweep.excluded⟩)
  | met (candidate : Item) (candidates : Cursor) (required excluded : List (Head Cursor))
    (found : Bool) (hnext : Source.next? sweep.candidates = some (candidate, candidates))
    (hrequire : require candidate sweep.required = some (true, required))
    (hexclude : exclude candidate sweep.excluded = (found, excluded))
    (hmove : Walk.move sweep = Merge.pass (!found) candidate ⟨candidates, required, excluded⟩)

theorem moves (sweep : Sweep) : sweep.Moves := by
  cases hnext : Source.next? sweep.candidates with
  | none => exact .exhausted hnext (by simp [Walk.move, move, hnext])
  | some head =>
    obtain ⟨candidate, candidates⟩ := head
    cases hrequire : require candidate sweep.required with
    | none =>
      exact .ended candidate candidates hnext hrequire (by simp [Walk.move, move, hnext, hrequire])
    | some answer =>
      obtain ⟨found, required⟩ := answer
      cases found with
      | false =>
        exact .missed candidate candidates required hnext hrequire
          (by simp [Walk.move, move, hnext, hrequire, Merge.pass])
      | true =>
        cases hexclude : exclude candidate sweep.excluded with
        | mk found excluded =>
          refine .met candidate candidates required excluded found hnext hrequire hexclude ?_
          cases found with
          | false => simp [Walk.move, move, hnext, hrequire, hexclude, Merge.pass]
          | true => simp [Walk.move, move, hnext, hrequire, hexclude, Merge.pass]

/-- The lists of a sweep ascend. -/
structure Ordered (sweep : Sweep) : Prop where
  candidates : Ascending (Source.toList sweep.candidates)
  required : Ascend sweep.required
  excluded : Ascend sweep.excluded

/-- The item is in every required list and in no excluded one. -/
def Keeps (sweep : Sweep) (item : Item) : Prop :=
  AllHave sweep.required item ∧ ¬ SomeHas sweep.excluded item

/-- What a move means: nothing more is kept, or the next candidate goes, given if it is kept, and
later items are kept as before. -/
inductive Step (sweep : Sweep) : Prop
  | stop (hmove : Walk.move sweep = .stop)
    (hnone : ∀ item ∈ Source.toList sweep.candidates, ¬ sweep.Keeps item)
  | pass (keep : Bool) (candidate : Item) (sweep' : Sweep)
    (hnext : Source.next? sweep.candidates = some (candidate, sweep'.candidates))
    (hmove : Walk.move sweep = Merge.pass keep candidate sweep') (hordered : sweep'.Ordered)
    (hkeep : keep = true ↔ sweep.Keeps candidate)
    (hlater : ∀ item, candidate < item → (sweep'.Keeps item ↔ sweep.Keeps item))

theorem le_of_mem_cons {items : List Item} (h : Ascending (candidate :: items))
    (hitem : item ∈ candidate :: items) : candidate ≤ item := by
  rcases List.mem_cons.1 hitem with rfl | hitem
  · exact UInt32.le_refl _
  · exact UInt32.le_of_lt ((List.pairwise_cons.1 h).1 item hitem)

theorem step (h : sweep.Ordered) : sweep.Step := by
  have hascend := h.candidates
  cases sweep.moves with
  | exhausted hnext hmove =>
    refine .stop hmove fun item hitem => ?_
    rw [Source.toList_of_none hnext] at hitem
    exact absurd hitem List.not_mem_nil
  | ended candidate candidates hnext hrequire hmove =>
    rw [Source.toList_of_some hnext] at hascend
    refine .stop hmove fun item hitem hkeeps => ?_
    rw [Source.toList_of_some hnext] at hitem
    exact require_eq_none h.required hrequire (le_of_mem_cons hascend hitem) hkeeps.1
  | missed candidate candidates required hnext hrequire hmove =>
    rw [Source.toList_of_some hnext] at hascend
    obtain ⟨halong, hfound⟩ := require_eq_some h.required hrequire
    refine .pass false candidate _ hnext hmove
      ⟨(List.pairwise_cons.1 hascend).2, halong.ascend, h.excluded⟩
      (iff_of_false Bool.false_ne_true fun hkeeps => Bool.false_ne_true (hfound.2 hkeeps.1))
      fun item hlt => ?_
    rw [Keeps, Keeps, halong.allHave_iff (UInt32.le_of_lt hlt)]
  | met candidate candidates required excluded found hnext hrequire hexclude hmove =>
    rw [Source.toList_of_some hnext] at hascend
    obtain ⟨halong, hall⟩ := require_eq_some h.required hrequire
    obtain ⟨halong', hfound⟩ := exclude_eq h.excluded hexclude
    refine .pass (!found) candidate _ hnext hmove
      ⟨(List.pairwise_cons.1 hascend).2, halong.ascend, halong'.ascend⟩ ?_ fun item hlt => ?_
    · rw [Keeps, and_iff_right (hall.1 rfl), ← hfound, Bool.not_eq_true', Bool.not_eq_true]
    · rw [Keeps, Keeps, halong.allHave_iff (UInt32.le_of_lt hlt),
        halong'.someHas_iff (UInt32.le_of_lt hlt)]

/-! ### Whole sweeps -/

/-- A sweep gives candidates, in their order. -/
theorem given_sublist (sweep : Sweep) :
    (Walk.given sweep).Sublist (Source.toList sweep.candidates) := by
  generalize hleft : Source.left sweep.candidates = left
  induction left using Nat.strongRecOn generalizing sweep with
  | _ left ih =>
    have hpass : ∀ keep candidate sweep',
        Source.next? sweep.candidates = some (candidate, sweep'.candidates) →
        Walk.move sweep = Merge.pass keep candidate sweep' →
        (Walk.given sweep).Sublist (Source.toList sweep.candidates) := by
      intro keep candidate sweep' hnext hmove
      have hrest := ih _ (hleft ▸ Source.left_lt hnext) sweep' rfl
      rw [Source.toList_of_some hnext, Walk.given_of_pass hmove]
      cases keep with
      | true => exact hrest.cons_cons _
      | false => exact hrest.cons _
    cases sweep.moves with
    | exhausted _ hmove | ended _ _ _ _ hmove =>
      rw [Walk.given_of_stop hmove]
      exact List.nil_sublist _
    | missed candidate candidates required hnext _ hmove => exact hpass _ _ _ hnext hmove
    | met candidate candidates required excluded found hnext _ _ hmove =>
      exact hpass _ _ _ hnext hmove

/-- A sweep gives the candidates that it keeps. -/
theorem mem_given (h : sweep.Ordered) :
    item ∈ Walk.given sweep ↔ item ∈ Source.toList sweep.candidates ∧ sweep.Keeps item := by
  -- Every move takes a candidate, so the moves come to an end.
  generalize hleft : Source.left sweep.candidates = left
  induction left using Nat.strongRecOn generalizing sweep with
  | _ left ih =>
    cases step h with
    | stop hmove hnone =>
      rw [Walk.given_of_stop hmove]
      exact iff_of_false List.not_mem_nil fun hitem => hnone item hitem.1 hitem.2
    | pass keep candidate sweep' hnext hmove hordered hkeep hlater =>
      have hrest := ih _ (hleft ▸ Source.left_lt hnext) hordered rfl
      have hascend := h.candidates
      rw [Source.toList_of_some hnext] at hascend ⊢
      have hgiven : item ∈ Walk.given sweep ↔
          keep = true ∧ item = candidate ∨ item ∈ Walk.given sweep' := by
        rw [Walk.given_of_pass hmove]
        cases keep with
        | true => rw [if_pos rfl, List.mem_cons, and_iff_right rfl]
        | false => simp
      rw [hgiven, hrest, hkeep, List.mem_cons, or_and_right]
      refine or_congr ⟨?_, ?_⟩ (and_congr_right fun hitem =>
        hlater item ((List.pairwise_cons.1 hascend).1 item hitem))
      · rintro ⟨hkeeps, rfl⟩
        exact ⟨rfl, hkeeps⟩
      · rintro ⟨rfl, hkeeps⟩
        exact ⟨hkeeps, rfl⟩

/-! ### Sweeps over lists -/

variable {required excluded sets : List ItemSet}

theorem allHave_next? :
    AllHave (sets.map fun set => Source.next? set.cursor) item ↔
      ∀ set ∈ sets, item ∈ set.items := by
  simp only [AllHave, List.forall_mem_map, Head.toList_next?, ItemSet.toList_cursor]

theorem someHas_next? :
    SomeHas (sets.map fun set => Source.next? set.cursor) item ↔
      ∃ set ∈ sets, item ∈ set.items := by
  simp only [SomeHas, List.mem_map, exists_exists_and_eq_and, Head.toList_next?,
    ItemSet.toList_cursor]

theorem ascend_next? (h : ∀ set ∈ sets, Ascending set.items) :
    Ascend (sets.map fun set => Source.next? set.cursor) := by
  simpa only [Ascend, List.forall_mem_map, Head.toList_next?, ItemSet.toList_cursor] using h

/-- The candidates are the items of one of the required lists, and the others are the rest. -/
theorem start_cases (required excluded : List ItemSet) :
    required = [] ∧ Source.toList (start required excluded).candidates = [] ∨
      ∃ smallest rest, (∀ set, set ∈ required ↔ set ∈ smallest :: rest) ∧
        start required excluded = ⟨smallest.cursor,
          rest.map fun set => Source.next? set.cursor,
          excluded.map fun set => Source.next? set.cursor⟩ := by
  rw [start]
  cases hsorted : ItemSet.bySize required with
  | nil => exact .inl ⟨ItemSet.bySize_eq_nil.1 hsorted, Cursor.toList_blocks [] []⟩
  | cons smallest rest =>
    refine .inr ⟨smallest, rest, fun set => ?_, rfl⟩
    rw [← hsorted, ItemSet.mem_bySize]

theorem ascending_given_start (h : ∀ set ∈ required, Ascending set.items) :
    Ascending (Walk.given (start required excluded)) := by
  refine List.Pairwise.sublist (given_sublist _) ?_
  rcases start_cases required excluded with ⟨-, hnone⟩ | ⟨smallest, rest, hrequired, hstart⟩
  · rw [hnone]
    exact List.Pairwise.nil
  · rw [hstart, ItemSet.toList_cursor]
    exact h smallest ((hrequired smallest).2 (List.mem_cons_self ..))

/-- A sweep gives what lies in all required lists and in no excluded one, and nothing if no list
is required. -/
theorem mem_given_start (hrequired : ∀ set ∈ required, Ascending set.items)
    (hexcluded : ∀ set ∈ excluded, Ascending set.items) :
    item ∈ Walk.given (start required excluded) ↔
      required ≠ [] ∧ (∀ set ∈ required, item ∈ set.items) ∧
        ∀ set ∈ excluded, item ∉ set.items := by
  rcases start_cases required excluded with ⟨hempty, hnone⟩ | ⟨smallest, rest, hmem, hstart⟩
  · refine iff_of_false (fun hitem => ?_) fun h => h.1 hempty
    have hcandidate := (given_sublist _).subset hitem
    rw [hnone] at hcandidate
    exact List.not_mem_nil hcandidate
  · have hsmallest : smallest ∈ required := (hmem smallest).2 (List.mem_cons_self ..)
    have hordered : (start required excluded).Ordered := by
      rw [hstart]
      refine ⟨?_, ascend_next? fun set hset => ?_, ascend_next? hexcluded⟩
      · rw [ItemSet.toList_cursor]
        exact hrequired smallest hsmallest
      · exact hrequired set ((hmem set).2 (List.mem_cons_of_mem _ hset))
    -- The item must be a candidate, and be in all the other required lists.
    have hall : (∀ set ∈ required, item ∈ set.items) ↔
        item ∈ smallest.items ∧ ∀ set ∈ rest, item ∈ set.items := by
      simp only [hmem, List.forall_mem_cons]
    rw [mem_given hordered, hall, and_iff_right (List.ne_nil_of_mem hsmallest), hstart, Keeps,
      allHave_next?, someHas_next?, ItemSet.toList_cursor, and_assoc]
    simp only [not_exists, not_and]

end Postings.Sweep
