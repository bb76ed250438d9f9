/-
Failures of a command: what was being done, and why it did not work.

A failure is a chain of messages, the outermost first.

* `Failure.within` — puts what was being done in front of a failure;
* `Failure.line` — the chain on one line;
* `Failure.report` — the chain as it is printed.
-/
import Postings.Error

namespace Postings

/-- A chain of messages: the outermost, and its causes. -/
structure Failure where
  message : String
  causes : List String := []
  deriving DecidableEq, Repr

namespace Failure

/-- The failure of the disk. -/
def ofFault (fault : DiskFault) : Failure :=
  ⟨fault.message, []⟩

/-- The failure of an operation on lists; what the disk answered is a cause of its own. -/
def ofError (error : Error) : Failure :=
  match error with
  | .disk fault => ⟨error.message, [fault.message]⟩
  | _ => ⟨error.message, []⟩

/-- The failure with what was being done in front. -/
def within (doing : String) (failure : Failure) : Failure :=
  ⟨doing, failure.message :: failure.causes⟩

/-- The chain on one line. -/
def line (failure : Failure) : String :=
  ": ".intercalate (failure.message :: failure.causes)

/-- A cause under the report's heading; further lines of it are set in as far as the first. -/
def indent (first later cause : String) : String :=
  first ++ ("\n" ++ later).intercalate (cause.splitOn "\n") ++ "\n"

/-- A number in five columns and a colon. -/
def ordinal (number : Nat) : String :=
  let digits := toString number
  String.ofList (List.replicate (5 - digits.length) ' ') ++ digits ++ ": "

/-- The chain as it is printed; several causes are numbered. -/
def report (failure : Failure) : String :=
  let head := s!"Error: {failure.message}\n"
  match failure.causes with
  | [] => head
  | [cause] => head ++ "\nCaused by:\n" ++ indent "    " "    " cause
  | causes =>
    let numbered := causes.mapIdx fun number cause => indent (ordinal number) "       " cause
    head ++ "\nCaused by:\n" ++ String.join numbered

end Failure

end Postings
