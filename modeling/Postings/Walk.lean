/-
Processes that hand out items and may take silent steps in between.

One move of a `Walk` stops, skips to a later state, or gives an item together
with a later state; the measure `left` falls with every move that does not stop.

* `Walk.runWhile` — hands the items to a stateful callback until it has had
  enough;
* `Walk.run` — hands over all items;
* `Walk.moves` — how many moves a walk makes before it stops.
-/
import Postings.Item

namespace Postings

/-- One move of a process. -/
inductive Move (σ : Type) where
  | stop
  | skip (next : σ)
  | give (item : Item) (next : σ)

/-- A process that ends. -/
class Walk (σ : Type) where
  move : σ → Move σ
  /-- A bound on the number of moves left. -/
  left : σ → Nat
  skip_lt : ∀ {s s' : σ}, move s = .skip s' → left s' < left s
  give_lt : ∀ {s s' : σ} {item : Item}, move s = .give item s' → left s' < left s

namespace Walk

variable {σ β : Type} [Walk σ]

/-- Hands items to `emit` until it answers `false`; answers the state that `emit` has built. -/
@[specialize] def runWhile (emit : β → Item → β × Bool) (acc : β) (s : σ) : β :=
  match _h : move s with
  | .stop => acc
  | .skip s' => runWhile emit acc s'
  | .give item s' =>
    match emit acc item with
    | (acc, true) => runWhile emit acc s'
    | (acc, false) => acc
termination_by left s
decreasing_by
  · exact skip_lt _h
  · exact give_lt _h

/-- Hands all items to `emit`. -/
@[inline] def run (emit : β → Item → β) (acc : β) (s : σ) : β :=
  runWhile (fun acc item => (emit acc item, true)) acc s

/-- The number of moves before the walk stops. -/
def moves (s : σ) : Nat :=
  match _h : move s with
  | .stop => 0
  | .skip s' => moves s' + 1
  | .give _ s' => moves s' + 1
termination_by left s
decreasing_by
  · exact skip_lt _h
  · exact give_lt _h

end Walk

end Postings
