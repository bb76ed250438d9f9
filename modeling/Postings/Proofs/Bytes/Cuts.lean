/-
Byte strings that are cut into parts.

Starts that rise cut a byte string: a part goes from its start to the next one, the last
to the end.  Nothing between two parts is lost, so the parts joined again are the
string; and where the first part starts, the others can be told from their lengths.

* `Bytes.joined`, `Bytes.cuts` — parts put together, and the parts of a string;
* `Bytes.joined_cuts` — the parts of a string make it up;
* `Bytes.eq_of_cuts_eq` — strings with the same parts are cut at the same starts.
-/
import Postings.Bytes.Slice

namespace Postings.Bytes

/-- Byte strings one after the other. -/
def joined (parts : List ByteArray) : ByteArray :=
  parts.foldr (· ++ ·) ByteArray.empty

/-- The parts of a byte string from each start to the next one, the last up to the end. -/
def cuts (data : ByteArray) : List Nat → List ByteArray
  | [] => []
  | start :: rest => data.extract start (rest.headD data.size) :: cuts data rest

/-- The starts rise, and stay inside the byte string. -/
structure Cutting (data : ByteArray) (starts : List Nat) : Prop where
  rising : starts.Pairwise (· ≤ ·)
  inside : ∀ start ∈ starts, start ≤ data.size

variable {data other : ByteArray}

theorem length_cuts (data : ByteArray) (starts : List Nat) :
    (cuts data starts).length = starts.length := by
  induction starts with
  | nil => rfl
  | cons start rest ih => rw [cuts, List.length_cons, ih, List.length_cons]

theorem getElem?_cuts (data : ByteArray) (starts : List Nat) (id : Nat) :
    (cuts data starts)[id]? = starts[id]?.map fun start =>
      data.extract start (starts[id + 1]?.getD data.size) := by
  induction starts generalizing id with
  | nil => rfl
  | cons start rest ih =>
    rw [cuts, List.getElem?_cons_succ]
    cases id with
    | zero =>
      rw [List.getElem?_cons_zero, List.getElem?_cons_zero, Option.map_some,
        List.headD_eq_head?_getD, List.head?_eq_getElem?]
    | succ id =>
      rw [List.getElem?_cons_succ, List.getElem?_cons_succ]
      exact ih id

namespace Cutting

variable {start : Nat} {starts rest : List Nat}

theorem tail (h : Cutting data (start :: rest)) : Cutting data rest :=
  ⟨(List.pairwise_cons.1 h.rising).2,
    fun other hother => h.inside other (List.mem_cons_of_mem _ hother)⟩

/-- A part stops at its start or behind it, inside the string. -/
theorem bounds (h : Cutting data starts) {id : Nat} (hstart : starts[id]? = some start) :
    start ≤ starts[id + 1]?.getD data.size ∧ starts[id + 1]?.getD data.size ≤ data.size := by
  obtain ⟨hid, rfl⟩ := List.getElem?_eq_some_iff.1 hstart
  by_cases hnext : id + 1 < starts.length
  · rw [List.getElem?_eq_getElem hnext, Option.getD_some]
    exact ⟨List.pairwise_iff_getElem.1 h.rising id (id + 1) hid hnext (Nat.lt_succ_self id),
      h.inside _ (List.getElem_mem hnext)⟩
  · rw [List.getElem?_eq_none (Nat.le_of_not_lt hnext), Option.getD_none]
    exact ⟨h.inside _ (List.getElem_mem hid), Nat.le_refl _⟩

/-- The first part stops where the others start. -/
theorem headD_bounds (h : Cutting data (start :: rest)) :
    start ≤ rest.headD data.size ∧ rest.headD data.size ≤ data.size := by
  have hfirst := h.bounds (show (start :: rest)[0]? = some start from rfl)
  rw [List.getElem?_cons_succ, ← List.head?_eq_getElem?, ← List.headD_eq_head?_getD] at hfirst
  exact hfirst

end Cutting

/-- The parts make up the string from the first start on. -/
theorem joined_cuts {starts : List Nat} (h : Cutting data starts) :
    joined (cuts data starts) = data.extract (starts.headD data.size) data.size := by
  induction starts with
  | nil => exact ByteArray.extract_same.symm
  | cons start rest ih =>
    obtain ⟨hle, hinside⟩ := h.headD_bounds
    calc joined (cuts data (start :: rest))
        = data.extract start (rest.headD data.size) ++ joined (cuts data rest) := rfl
      _ = data.extract start (rest.headD data.size)
          ++ data.extract (rest.headD data.size) data.size := by rw [ih h.tail]
      _ = data.extract start data.size :=
          (ByteArray.extract_eq_extract_append_extract _ hle hinside).symm

/-- Strings with the same parts, of which the first starts at the same place, are cut at the same
starts. -/
theorem eq_of_cuts_eq {starts starts' : List Nat} (h : Cutting data starts)
    (h' : Cutting other starts') (hhead : starts.headD data.size = starts'.headD other.size)
    (hcuts : cuts data starts = cuts other starts') : starts = starts' := by
  induction starts generalizing starts' with
  | nil =>
    have hlength := congrArg List.length hcuts
    rw [length_cuts, length_cuts] at hlength
    exact (List.eq_nil_of_length_eq_zero hlength.symm).symm
  | cons start rest ih =>
    cases starts' with
    | nil => exact absurd hcuts (by simp [cuts])
    | cons start' rest' =>
      obtain ⟨hpart, hrest⟩ := List.cons.inj hcuts
      obtain rfl : start = start' := hhead
      -- Equal parts from one start have equal ends, which is where the next parts start.
      have hsize := congrArg ByteArray.size hpart
      rw [ByteArray.size_extract, ByteArray.size_extract] at hsize
      obtain ⟨hle, hinside⟩ := h.headD_bounds
      obtain ⟨hle', hinside'⟩ := h'.headD_bounds
      have hnext : rest.headD data.size = rest'.headD other.size := by omega
      rw [ih h.tail h'.tail hnext hrest]

end Postings.Bytes
