/-
The program: commands on the real disk.
-/
import Postings.Cli.Run

namespace Postings

/-- What the disk answered. -/
def DiskFault.ofIOError (error : IO.Error) : DiskFault :=
  match error with
  | .noFileOrDirectory .. => .notFound
  | .inappropriateType _ 20 _ => .notDirectory
  | .inappropriateType _ 21 _ => .isDirectory
  | .invalidArgument _ 36 _ => .nameTooLong
  | error => .other error.toString

/-- The files of the disk and the standard output. -/
instance : Host IO where
  read path := do
    try
      let handle ← IO.FS.Handle.mk path .read
      return .ok (← handle.readBinToEnd)
    catch error => return .error (.ofIOError error)
  write path bytes := do
    try
      IO.FS.writeBinFile path bytes
      return .ok ()
    catch error => return .error (.ofIOError error)
  present path := do
    try
      let _ ← IO.FS.Handle.mk path .read
      return true
    catch _ => return false
  print text := IO.print text

end Postings

/-- Runs the command line. -/
def main (args : List String) : IO UInt32 := do
  let (code, text) ← Postings.Cli.run args
  IO.eprint text
  return UInt32.ofNat code
