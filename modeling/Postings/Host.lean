/-
What commands need from the outside: files and a place to print to.

* `Host` — a monad with files and an output;
* `Desk` — files held in memory and text printed so far; `StateM Desk` is a host,
  so every command can be run and reasoned about without a disk;
* `Desk.locate` — what a path leads to: the directory of the files has none below it,
  and outside it only the directories above and those of every root are known;
* `Host.readText`, `Host.readRegion` — a file as text, and as bytes to be mapped.
-/
import Postings.Error

namespace Postings

/-- Access to files and to an output. -/
class Host (m : Type → Type) where
  /-- The bytes of a file. -/
  read : String → m (Except DiskFault ByteArray)
  /-- Replaces a file. -/
  write : String → ByteArray → m (Except DiskFault Unit)
  /-- Whether there is a file or directory. -/
  present : String → m Bool
  /-- Prints text. -/
  print : String → m Unit

namespace Host

variable {m : Type → Type} [Monad m] [Host m]

/-- The text of a file. -/
def readText (path : String) : m (Except DiskFault String) := do
  match ← read path with
  | .error fault => return .error fault
  | .ok bytes =>
    match String.fromUTF8? bytes with
    | some text => return .ok text
    | none => return .error .notText

/-- The bytes of a file that is opened to be mapped; a directory can be opened, not mapped. -/
def readRegion (path : String) : m (Except DiskFault ByteArray) := do
  match ← read path with
  | .error .isDirectory => return .error .noDevice
  | answer => return answer

end Host

/-- Steps that may fail reach the files and the output of the monad below. -/
instance {ε : Type} {m : Type → Type} [Monad m] [Host m] : Host (ExceptT ε m) where
  read path := ExceptT.lift (Host.read path)
  write path bytes := ExceptT.lift (Host.write path bytes)
  present path := ExceptT.lift (Host.present path)
  print text := ExceptT.lift (Host.print text)

/-- Files by their paths from one directory, and what was printed. -/
structure Desk where
  files : List (String × ByteArray) := []
  printed : String := ""

namespace Desk

/-- What a path leads to. -/
inductive Place where
  | directory
  /-- A name that a file has or may get. -/
  | file (name : String)
  /-- A name that only a directory could have, and why it has none. -/
  | folder (fault : DiskFault)
  | nowhere (fault : DiskFault)

/-- The most bytes that a step of a path has. -/
def stepLimit : Nat := 255

/-- The most bytes that a path has. -/
def pathLimit : Nat := 4095

/-- The directories that every root directory has. -/
def rootFolders : List String :=
  ["bin", "dev", "etc", "home", "lib", "opt", "root", "run", "sbin", "srv", "tmp", "usr", "var"]

/-- The file that is always there and always empty. -/
def sink : String := "/dev/null"

/-- The file under a name. -/
def find? (desk : Desk) (name : String) : Option ByteArray :=
  if name == sink then some ByteArray.empty
  else (desk.files.find? (·.1 == name)).map (·.2)

/-- Replaces the file under a name. -/
def put (desk : Desk) (name : String) (bytes : ByteArray) : Desk :=
  { desk with files := (name, bytes) :: desk.files.filter (·.1 != name) }

/-- The directory above a directory. -/
def above (base : String) : String :=
  if base.startsWith "/" then "/" else base ++ "../"

/-- Why a step leads to no directory. -/
def refusal (desk : Desk) (base step : String) : DiskFault :=
  if stepLimit < step.utf8ByteSize then .nameTooLong
  else if (desk.find? (base ++ step)).isSome then .notDirectory
  else .notFound

/-- Where the steps of a path lead from the directory `base`. -/
def follow (desk : Desk) (base : String) : List String → Place
  | [] => .directory
  | step :: rest =>
    if step.isEmpty || step == "." then desk.follow base rest
    else if step == ".." then desk.follow (above base) rest
    else if base == "/" && rootFolders.contains step then desk.follow (base ++ step ++ "/") rest
    else
      let fault := desk.refusal base step
      if rest.isEmpty then
        if fault = .nameTooLong then .nowhere fault else .file (base ++ step)
      else if rest.all String.isEmpty then .folder fault
      else .nowhere fault

/-- Where a path leads, taken from the directory of the files. -/
def locate (desk : Desk) (path : String) : Place :=
  if path.isEmpty then .nowhere .notFound
  else if pathLimit < path.utf8ByteSize then .nowhere .nameTooLong
  else desk.follow (if path.startsWith "/" then "/" else "") (path.splitOn "/")

end Desk

/-- The files and the output of a desk. -/
instance : Host (StateM Desk) where
  read path := do
    let desk ← get
    match desk.locate path with
    | .directory => return .error .isDirectory
    | .folder fault | .nowhere fault => return .error fault
    | .file name =>
      match desk.find? name with
      | some bytes => return .ok bytes
      | none => return .error .notFound
  write path bytes := do
    match (← get).locate path with
    | .directory | .folder _ => return .error .isDirectory
    | .nowhere fault => return .error fault
    | .file name =>
      modify (·.put name bytes)
      return .ok ()
  present path := do
    let desk ← get
    match desk.locate path with
    | .directory => return true
    | .folder _ | .nowhere _ => return false
    | .file name => return (desk.find? name).isSome
  print text := modify fun desk => { desk with printed := desk.printed ++ text }

end Postings
