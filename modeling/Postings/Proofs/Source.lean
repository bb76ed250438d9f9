/-
A source as the list of its items.

* `Source.toList` — the items that a source gives until it ends;
* `foldl_eq`, `toList_toArray`, `descent?_eq_none` — every loop over a source is
  the same loop over that list;
* `Source.drop`, `Source.answers` — what is left after some items were asked for, and what was
  answered; past the end nothing changes.
-/
import Mathlib.Data.List.Sort
import Postings.Source

namespace Postings

theorem ascending_cons_cons {first second : Item} {rest : List Item} :
    Ascending (first :: second :: rest) ↔ first < second ∧ Ascending (second :: rest) := by
  constructor
  · intro h
    obtain ⟨hfirst, hrest⟩ := List.pairwise_cons.1 h
    exact ⟨hfirst second (List.mem_cons_self ..), hrest⟩
  · rintro ⟨hlt, hrest⟩
    refine List.pairwise_cons.2 ⟨fun item hitem => ?_, hrest⟩
    rcases List.mem_cons.1 hitem with rfl | hitem
    · exact hlt
    · exact UInt32.lt_trans hlt ((List.pairwise_cons.1 hrest).1 item hitem)

/-- Ascending lists of the same items are the same. -/
theorem ascending_ext {items other : List Item} (h : Ascending items) (hother : Ascending other)
    (hmem : ∀ item, item ∈ items ↔ item ∈ other) : items = other := by
  have : Std.Antisymm fun first second : Item => first < second :=
    ⟨fun _ _ hlt hgt => absurd hgt (UInt32.lt_asymm hlt)⟩
  have : Std.Irrefl fun first second : Item => first < second := ⟨UInt32.lt_irrefl⟩
  exact List.Pairwise.eq_of_mem_iff h hother hmem

namespace Source

variable {σ τ β : Type} [Source σ] [Source τ]

/-- The items that a source gives until it ends. -/
def toList (s : σ) : List Item :=
  match _h : next? s with
  | none => []
  | some (item, s') => item :: toList s'
termination_by left s
decreasing_by exact left_lt _h

/-- What is left after `count` items were asked for. -/
def drop (s : σ) : (count : Nat) → σ
  | 0 => s
  | count + 1 =>
    match next? s with
    | none => s
    | some (_, s') => drop s' count

/-- What is answered when an item is asked for `count` times. -/
def answers (s : σ) : (count : Nat) → List (Option Item)
  | 0 => []
  | count + 1 =>
    match next? s with
    | none => none :: answers s count
    | some (item, s') => some item :: answers s' count

theorem toList_of_none {s : σ} (h : next? s = none) : toList s = [] := by
  rw [toList]
  split
  next => rfl
  next item s' h' =>
    rw [h] at h'
    simp at h'

theorem toList_of_some {s s' : σ} {item : Item} (h : next? s = some (item, s')) :
    toList s = item :: toList s' := by
  rw [toList]
  split
  next h' =>
    rw [h] at h'
    simp at h'
  next item' s'' h' =>
    rw [h, Option.some.injEq, Prod.mk.injEq] at h'
    rw [h'.1, h'.2]

theorem toList_eq_nil {s : σ} : toList s = [] ↔ next? s = none := by
  cases h : next? s with
  | none => simp [toList_of_none h]
  | some answer => simp [toList_of_some h]

theorem toList_eq_cons {s : σ} {item : Item} {rest : List Item} :
    toList s = item :: rest ↔ ∃ s', next? s = some (item, s') ∧ toList s' = rest := by
  cases h : next? s with
  | none => simp [toList_of_none h]
  | some answer =>
    rw [toList_of_some h]
    simp only [List.cons.injEq, Option.some.injEq, Prod.ext_iff]
    exact ⟨fun hrest => ⟨answer.2, ⟨hrest.1, rfl⟩, hrest.2⟩,
      fun ⟨s', hs, hrest⟩ => ⟨hs.1, hs.2 ▸ hrest⟩⟩

theorem foldl_eq (f : β → Item → β) (acc : β) (s : σ) :
    foldl f acc s = (toList s).foldl f acc := by
  fun_induction foldl f acc s with
  | case1 acc s h => rw [toList_of_none h, List.foldl_nil]
  | case2 acc s item s' h ih => rw [toList_of_some h, List.foldl_cons, ih]

theorem foldl_push (items : List Item) (out : Array Item) :
    (items.foldl Array.push out).toList = out.toList ++ items := by
  induction items generalizing out with
  | nil => simp
  | cons item rest ih =>
    rw [List.foldl_cons, ih, Array.toList_push, List.append_assoc, List.singleton_append]

@[simp] theorem toList_toArray (s : σ) : (toArray s).toList = toList s := by
  rw [toArray, foldl_eq, foldl_push]
  rfl

theorem toList_drop (s : σ) (count : Nat) : toList (drop s count) = (toList s).drop count := by
  induction count generalizing s with
  | zero => rfl
  | succ count ih =>
    rw [drop]
    split
    next h => rw [toList_of_none h, List.drop_nil]
    next item s' h => rw [ih, toList_of_some h, List.drop_succ_cons]

/-- A source gives its items, and nothing each time after them. -/
theorem answers_eq (s : σ) (count : Nat) :
    answers s count = ((toList s).take count).map some
      ++ List.replicate (count - (toList s).length) none := by
  induction count generalizing s with
  | zero => simp [answers]
  | succ count ih =>
    rw [answers]
    split
    next h => rw [ih, toList_of_none h, List.take_nil, List.take_nil, List.map_nil,
      List.nil_append, List.nil_append, List.length_nil, Nat.sub_zero, Nat.sub_zero,
      List.replicate_succ]
    next item s' h =>
      rw [ih, toList_of_some h, List.take_succ_cons, List.map_cons, List.length_cons,
        Nat.add_sub_add_right, List.cons_append]

theorem descentFrom?_eq_none (previous : Item) (position : Nat) (s : σ) :
    descentFrom? previous position s = none ↔ Ascending (previous :: toList s) := by
  fun_induction descentFrom? previous position s with
  | case1 previous position s h =>
    rw [toList_of_none h]
    simp [Ascending]
  | case2 previous position s item s' h hlt ih =>
    rw [ih, toList_of_some h, ascending_cons_cons]
    exact (and_iff_right hlt).symm
  | case3 previous position s item s' h hge =>
    rw [toList_of_some h, ascending_cons_cons]
    simp [hge]

theorem descentFrom?_of_none {previous : Item} {position : Nat} {s : σ} (h : next? s = none) :
    descentFrom? previous position s = none := by
  rw [descentFrom?_eq_none, toList_of_none h, Ascending]
  exact List.pairwise_singleton _ _

theorem descentFrom?_of_some {previous item : Item} {position : Nat} {s s' : σ}
    (h : next? s = some (item, s')) : descentFrom? previous position s
      = if previous < item then descentFrom? item (position + 1) s'
        else some ⟨item, position, previous⟩ := by
  rw [descentFrom?]
  split
  next h' =>
    rw [h] at h'
    simp at h'
  next item' s'' h' =>
    rw [h, Option.some.injEq, Prod.mk.injEq] at h'
    rw [h'.1, h'.2]

theorem descent?_eq_none (s : σ) : descent? s = none ↔ Ascending (toList s) := by
  rw [descent?]
  split
  next h =>
    rw [toList_of_none h]
    simp [Ascending]
  next item s' h => rw [toList_of_some h, descentFrom?_eq_none]

/-- Sources are alike if their items are. -/
theorem beq_eq_true {s : σ} {t : τ} : beq s t = true ↔ toList s = toList t := by
  fun_induction beq s t with
  | case1 s t hs ht => simp [toList_of_none hs, toList_of_none ht]
  | case2 s t item s' other t' hs ht ih =>
    rw [toList_of_some hs, toList_of_some ht, Bool.and_eq_true, beq_iff_eq, ih,
      List.cons.injEq]
  | case3 s t hnone hsome =>
    cases hs : next? s with
    | none =>
      cases ht : next? t with
      | none => exact absurd ht (hnone hs)
      | some _ => simp [toList_of_none hs, toList_of_some ht]
    | some _ =>
      cases ht : next? t with
      | none => simp [toList_of_some hs, toList_of_none ht]
      | some _ => exact absurd ht (hsome _ _ _ _ hs)

theorem toList_list (items : List Item) : toList items = items := by
  induction items with
  | nil => exact toList_of_none rfl
  | cons item rest ih => rw [toList_of_some (s := item :: rest) rfl, ih]

end Source

end Postings
