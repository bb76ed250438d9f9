/-
Running commands.

* `runCommand` — does what a command asks for, or fails;
* `run` — runs a command line; answers the exit code and what goes to the error
  output: 0 when all went well, 1 after a failure, 2 for a malformed command line.

Design notes: everything works over any `Host`, so a run is a function of the files.
-/
import Postings.Algebra.Many
import Postings.Build
import Postings.Cli.Command
import Postings.Cli.Report
import Postings.Store.Cache

namespace Postings.Cli

/-- The usage text. -/
def usage : String :=
  "Usage: build INPUT OUTPUT | stats STORE | get STORE ID | op STORE OP ID ID... | "
    ++ "recode INPUT OUTPUT\n"

section

variable {m : Type → Type} [Monad m] [Host m]

/-- An answer as a step that may fail. -/
def attempt {ε α : Type} (failure : ε → Failure) (answer : Except ε α) :
    ExceptT Failure m α :=
  match answer with
  | .ok value => return value
  | .error error => throw (failure error)

/-- The settings of a file. -/
def loadConfig (path : String) : ExceptT Failure m Config := do
  let doing := s!"Failed to read config {path}"
  let text ← attempt (fun fault => (Failure.ofFault fault).within doing) (← Host.readText path)
  match Config.parse text with
  | some config => return config
  | none => throw ⟨s!"Invalid config {path}", []⟩

/-- The settings with the options that override them. -/
def Encoding.override (encoding : Encoding) (config : Config) : Config :=
  { config with
    codec := encoding.codec.getD config.codec
    tuning := { config.tuning with
      blockSize := encoding.blockSize.getD config.tuning.blockSize }
    deduplicate := config.deduplicate && !encoding.noDedup
    verify := config.verify || encoding.verify
    showProgress := !encoding.quiet }

/-- The settings that the options ask for. -/
def configOf (encoding : Encoding) : ExceptT Failure m Config := do
  match encoding.config with
  | some path => return encoding.override (← loadConfig path)
  | none => return encoding.override {}

/-- The store in a file. -/
def openStore (path : String) : ExceptT Failure m Store := do
  let doing := s!"Failed to open store {path}"
  let bytes ← attempt (fun fault => (Failure.ofError (.disk fault)).within doing)
    (← Host.readRegion path)
  attempt (fun error => (Failure.ofError error).within doing) (Store.ofBytes bytes)

/-- The store in a file that is there. -/
def openPresent (path : String) : ExceptT Failure m Store := do
  if ← Host.present path then openStore path
  else throw ⟨s!"Store not found: {path}", []⟩

/-- The lists of some ids. -/
def operands (store : Store) : List Nat → Cache → Except Failure (List ItemSet)
  | [], _ => .ok []
  | id :: ids, cache =>
    match store.get id cache with
    | (.ok set, cache) => (operands store ids cache).map (set :: ·)
    | (.error error, _) =>
      .error ((Failure.ofError error).within s!"Failed to load index {id}")

/-- Builds a store. -/
def runBuild (input output : String) (encoding : Encoding) : ExceptT Failure m Unit := do
  let config ← configOf encoding
  let (summary, _) ← buildStore input output config
  Host.print (s!"Built {output}: {summary.lines} lines, {summary.distinct} distinct "
    ++ s!"{config.codec.name} indexes, {summary.hits} duplicates, {summary.bytes} bytes\n")

/-- Shows totals. -/
def runStats (path : String) (json : Bool) : ExceptT Failure m Unit := do
  let store ← openStore path
  let stats ← attempt (fun error => (Failure.ofError error).within "Failed to decode store")
    store.stats
  Host.print (if json then statsJson stats ++ "\n" else statsText path stats)

/-- Prints a list. -/
def runGet (path : String) (id limit : Nat) : ExceptT Failure m Unit := do
  let store ← openPresent path
  let set ← attempt Failure.ofError (store.get id {}).1
  Host.print (setText set limit)

/-- Combines lists and prints the result. -/
def runCombine (path : String) (op : SetOp) (ids : List Nat) (codec : Codec) (limit : Nat) :
    ExceptT Failure m Unit := do
  let store ← openPresent path
  let sets ← attempt id (operands store ids {})
  let result ← attempt
    (fun error => (Failure.ofError error).within s!"Result cannot be encoded as {codec.name}")
    ((ItemSet.combine op sets).recode codec {})
  Host.print (setText result limit)

/-- Encodes a store anew. -/
def runRecode (input output : String) (encoding : Encoding) : ExceptT Failure m Unit := do
  let config ← configOf encoding
  let source ← openPresent input
  let factory ← attempt Failure.ofError (Factory.ofConfig config)
  match (Factory.insertStore source).run factory with
  | .error error _ => throw (Failure.ofError error)
  | .ok ids factory =>
    let bytes ← attempt Failure.ofError (← (writeStore factory output).run)
    Host.print (s!"Recoded {ids.size} indexes into {output} ({factory.size} distinct, "
      ++ s!"{source.totalSize} -> {bytes} bytes)\n")

/-- Does what a command asks for. -/
def runCommand : Command → ExceptT Failure m Unit
  | .build input output encoding => runBuild input output encoding
  | .stats store json => runStats store json
  | .get store id limit => runGet store id limit
  | .combine store op ids codec limit => runCombine store op ids codec limit
  | .recode input output encoding => runRecode input output encoding

/-- Runs a command line; answers the exit code and the text for the error output. -/
def run (args : List String) : m (Nat × String) := do
  match Command.ofArgs? args with
  | none => return (2, usage)
  | some command =>
    match ← (runCommand command).run with
    | .ok () => return (0, "")
    | .error failure => return (1, failure.report)

end

end Postings.Cli
