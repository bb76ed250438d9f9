/-
The items that a builder holds.

Whatever is pushed, refused or not, a builder holds strictly ascending items; so it can
be finished without a check of their order.

* `Builder.Request`, `Builder.afterAll` — what can be asked of a builder, and what it comes to;
* `Builder.ascending_afterAll` — its items ascend;
* `Builder.Extension`, `Builder.extension` — all that becomes of a list of items;
* `Builder.afterAll_spec` — what a builder holds, takes and is finished as, whatever was asked;
* `Builder.complete_of_finish` — the finished list.
-/
import Postings.ItemSet.Builder
import Postings.Proofs.ItemSet.Complete

namespace Postings.Builder

/-- What can be asked of a builder. -/
inductive Request where
  | push (item : Item)
  | extend (items : List Item)

/-- The builder after a request, refused or not. -/
def after (builder : Builder) : Request → Builder
  | .push item =>
    match builder.push item with
    | .ok pushed => pushed
    | .error _ => builder
  | .extend items => (builder.extend items).1

/-- A new builder after requests, one after the other. -/
def afterAll (requests : List Request) : Builder :=
  requests.foldl after {}

variable {builder : Builder}

/-- An accepted item exceeds the last one, and so all of them. -/
theorem lt_of_accepts {item : Item} (h : Ascending builder.items.toList)
    (haccepts : builder.accepts item = true) :
    ∀ earlier ∈ builder.items.toList, earlier < item := by
  rw [accepts, ← Array.getLast?_toList] at haccepts
  cases hlast : builder.items.toList.getLast? with
  | none =>
    rw [List.getLast?_eq_none_iff.1 hlast]
    exact fun earlier hearlier => absurd hearlier List.not_mem_nil
  | some last =>
    rw [hlast] at haccepts
    have hlt : last < item := of_decide_eq_true haccepts
    obtain ⟨before, hbefore⟩ := List.getLast?_eq_some_iff.1 hlast
    rw [hbefore] at h ⊢
    intro earlier hearlier
    rcases List.mem_append.1 hearlier with hearlier | hearlier
    · obtain ⟨-, -, hbelow⟩ := List.pairwise_append.1 h
      exact UInt32.lt_trans (hbelow earlier hearlier last (List.mem_singleton_self _)) hlt
    · exact List.mem_singleton.1 hearlier ▸ hlt

theorem ascending_append {item : Item} (h : Ascending builder.items.toList)
    (haccepts : builder.accepts item = true) : Ascending (builder.append item).items.toList := by
  rw [append, Array.toList_push]
  refine List.pairwise_append.2 ⟨h, List.pairwise_singleton .., ?_⟩
  intro earlier hearlier last hlast
  exact List.mem_singleton.1 hlast ▸ lt_of_accepts h haccepts earlier hearlier

theorem ascending_extend (h : Ascending builder.items.toList) (items : List Item) :
    Ascending (builder.extend items).1.items.toList := by
  induction items generalizing builder with
  | nil => exact h
  | cons item rest ih =>
    rw [extend]
    split
    next haccepts => exact ih (ascending_append h haccepts)
    next => exact h

theorem ascending_after (h : Ascending builder.items.toList) (request : Request) :
    Ascending (builder.after request).items.toList := by
  cases request with
  | push item =>
    rw [after, push]
    by_cases haccepts : builder.accepts item = true
    · rw [if_pos haccepts]
      exact ascending_append h haccepts
    · rw [if_neg haccepts]
      exact h
  | extend items => exact ascending_extend h items

/-- A builder holds strictly ascending items. -/
theorem ascending_afterAll (requests : List Request) :
    Ascending (afterAll requests).items.toList := by
  suffices hfold : ∀ builder : Builder, Ascending builder.items.toList →
      Ascending (requests.foldl after builder).items.toList from hfold {} List.Pairwise.nil
  induction requests with
  | nil => exact fun _ h => h
  | cons request rest ih => exact fun builder h => ih _ (ascending_after h request)

theorem complete_finishVector (h : Ascending builder.items.toList)
    (hfew : builder.items.size < 2 ^ 32) : builder.finishVector.Complete :=
  ItemSet.complete_ofAscending h hfew

theorem complete_of_finish {codec : Codec} {tuning : Tuning} {set : ItemSet}
    (h : Ascending builder.items.toList) (hfew : builder.items.size < 2 ^ 32)
    (hblock : tuning.blockSize < 2 ^ 32) (hfinish : builder.finish codec tuning = .ok set) :
    set.Complete := by
  rw [finish] at hfinish
  split at hfinish
  · obtain rfl := Except.ok.inj hfinish
    exact complete_finishVector h hfew
  · exact ItemSet.complete_of_encodeAscending (by rwa [Array.length_toList]) h hblock hfinish

/-! ### What a builder takes -/

/-- The item exceeds the last one held, if there is one. -/
def Exceeds (builder : Builder) (item : Item) : Prop :=
  ∀ last, builder.items.back? = some last → last < item

theorem accepts_iff {item : Item} : builder.accepts item = true ↔ builder.Exceeds item := by
  rw [accepts, Exceeds]
  cases builder.items.back? with
  | none => simp
  | some last => simp

theorem push_of_exceeds {item : Item} (h : builder.Exceeds item) :
    builder.push item = .ok (builder.append item) := by
  rw [push, if_pos (accepts_iff.2 h)]

theorem push_of_not_exceeds {item : Item} (h : ¬ builder.Exceeds item) :
    builder.push item = .error (.unsorted builder.items.size) := by
  rw [push, if_neg (mt accepts_iff.1 h)]

/-- The items with more behind them. -/
def appendAll (builder : Builder) (items : List Item) : Builder :=
  ⟨builder.items ++ items.toArray⟩

@[simp] theorem appendAll_nil (builder : Builder) : builder.appendAll [] = builder := by
  simp [appendAll]

theorem appendAll_append (item : Item) (items : List Item) :
    (builder.append item).appendAll items = builder.appendAll (item :: items) := by
  simp [appendAll, append]

/-- Every item exceeds the last one held when its turn comes. -/
def Takes (builder : Builder) (items : List Item) : Prop :=
  ∀ earlier item later, items = earlier ++ item :: later → (builder.appendAll earlier).Exceeds item

theorem takes_nil (builder : Builder) : builder.Takes [] := by
  intro earlier item later h
  exact absurd h (by simp)

theorem takes_cons {item : Item} {items : List Item} (hitem : builder.Exceeds item)
    (hitems : (builder.append item).Takes items) : builder.Takes (item :: items) := by
  intro earlier other later h
  cases earlier with
  | nil =>
    obtain ⟨rfl, -⟩ := List.cons.inj h
    rwa [appendAll_nil]
  | cons first earlier =>
    obtain ⟨rfl, hrest⟩ := List.cons.inj h
    rw [← appendAll_append]
    exact hitems earlier other later hrest

/-- What extending a builder comes to: all items are held, or those before the first that does not
exceed the last one held. -/
inductive Extension (builder : Builder) : List Item → Builder × Except Error Unit → Prop
  | whole (kept : List Item) (hkept : builder.Takes kept) :
    Extension builder kept (builder.appendAll kept, .ok ())
  | cut (kept : List Item) (item : Item) (rest : List Item) (hkept : builder.Takes kept)
    (hrefused : ¬ (builder.appendAll kept).Exceeds item) :
    Extension builder (kept ++ item :: rest)
      (builder.appendAll kept, .error (.unsorted (builder.appendAll kept).items.size))

theorem Extension.cons {item : Item} {items : List Item} {answer : Builder × Except Error Unit}
    (hitem : builder.Exceeds item) (h : Extension (builder.append item) items answer) :
    Extension builder (item :: items) answer := by
  cases h with
  | whole _ hkept =>
    rw [appendAll_append]
    exact .whole (item :: items) (takes_cons hitem hkept)
  | cut kept refused rest hkept hrefused =>
    rw [appendAll_append] at hrefused ⊢
    exact .cut (item :: kept) refused rest (takes_cons hitem hkept) hrefused

theorem extension (builder : Builder) (items : List Item) :
    Extension builder items (builder.extend items) := by
  induction items generalizing builder with
  | nil =>
    have h := Extension.whole [] (takes_nil builder)
    rwa [appendAll_nil] at h
  | cons item rest ih =>
    rw [extend]
    by_cases hitem : builder.Exceeds item
    · rw [if_pos (accepts_iff.2 hitem)]
      exact (ih (builder.append item)).cons hitem
    · rw [if_neg (mt accepts_iff.1 hitem)]
      have h := Extension.cut [] item rest (takes_nil builder) (by rwa [appendAll_nil])
      rwa [appendAll_nil] at h

/-! ### What a builder is finished as -/

theorem afterAll_append (requests : List Request) (request : Request) :
    afterAll (requests ++ [request]) = (afterAll requests).after request :=
  List.foldl_concat ..

/-- The check of the order finds nothing amiss in ascending items. -/
theorem finish_eq_encode (h : Ascending builder.items.toList) (codec : Codec) (tuning : Tuning) :
    builder.finish codec tuning = ItemSet.encode builder.items.toList codec tuning := by
  rw [ItemSet.encode, firstDescent?_eq_none.2 h, finish]
  show _ = ItemSet.encodeAscending builder.items.toList codec tuning
  split
  next hvector => rw [ItemSet.encodeAscending, if_pos hvector, Array.toArray_toList, finishVector]
  next => rfl

/-- Whatever was asked of a builder, refused or not, its items strictly ascend.  It takes an item
just if that exceeds the last one, and refuses any other at the place where it would have stood; of
a list it keeps what comes before the first item that it refuses.  It is finished as the list that
its items are encoded as. -/
theorem afterAll_spec (requests : List Request) :
    Ascending (afterAll requests).items.toList ∧
    (∀ item,
      (afterAll requests).Exceeds item ∧
          (afterAll requests).push item = .ok ((afterAll requests).append item) ∧
          afterAll (requests ++ [.push item]) = (afterAll requests).append item ∨
        ¬ (afterAll requests).Exceeds item ∧
          (afterAll requests).push item = .error (.unsorted (afterAll requests).items.size) ∧
          afterAll (requests ++ [.push item]) = afterAll requests) ∧
    (∀ items,
      Extension (afterAll requests) items ((afterAll requests).extend items) ∧
        afterAll (requests ++ [.extend items]) = ((afterAll requests).extend items).1) ∧
    ∀ codec tuning, (afterAll requests).finish codec tuning
      = ItemSet.encode (afterAll requests).items.toList codec tuning := by
  have hascend := ascending_afterAll requests
  refine ⟨hascend, fun item => ?_, fun items => ⟨extension _ items, afterAll_append requests _⟩,
    finish_eq_encode hascend⟩
  rw [afterAll_append, after]
  by_cases hitem : (afterAll requests).Exceeds item
  · exact .inl ⟨hitem, push_of_exceeds hitem, by rw [push_of_exceeds hitem]⟩
  · exact .inr ⟨hitem, push_of_not_exceeds hitem, by rw [push_of_not_exceeds hitem]⟩

/-- A list that is cut short, a refused item, and one that is taken. -/
example : (afterAll [.extend [1, 5, 5, 9], .push 4, .push 6]).items = #[1, 5, 6] := by rfl

end Postings.Builder
