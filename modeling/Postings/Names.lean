/-
The names that codecs and set operations go by on the command line.

Letter case does not matter; an unknown name is refused in lower case.
-/
import Postings.Error
import Postings.SetOp
import Postings.Text.Lowercase

namespace Postings

/-- The codec of a name. -/
def Codec.ofName (name : String) : Except Error Codec :=
  match Text.lowercase name with
  | "native" => .ok .native
  | "vector" => .ok .vector
  | "range" | "rangegenerator" => .ok .range
  | "compact" | "boundedcompactuintarray" => .ok .compact
  | "regline" => .ok .line
  | "for" => .ok .frame
  | other => .error (.unsupported (.codecName other))

/-- The set operation of a name. -/
def SetOp.ofName (name : String) : Except Error SetOp :=
  match Text.lowercase name with
  | "union" | "or" => .ok .union
  | "intersect" | "intersection" | "and" => .ok .inter
  | "difference" | "diff" | "minus" => .ok .diff
  | "symdiff" | "xor" => .ok .symmDiff
  | other => .error (.unsupported (.setOpName other))

end Postings
