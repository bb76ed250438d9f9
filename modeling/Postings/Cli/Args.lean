/-
Splitting a command line into options and words.

A long option is `--name`, with its value after an equals sign or in the next
argument.  A short one is `-n`; flags can be run together, and a value can follow at
once, after an equals sign or in the next argument.  After `--` all is words.

* `scan` — the options and words of a command line, unless it is malformed;
* `wordGroups` — the words, grouped where nothing but words stands between them;
* `valueOf?`, `isSet?` — an option that may be given once at most.
-/

namespace Postings.Cli

/-- An option that a command knows. -/
structure OptionSpec where
  long : String
  short : Option Char
  takesValue : Bool

/-- A part of a command line; options go by their long names. -/
inductive Token where
  | word (text : String)
  | flag (name : String)
  | setting (name value : String)
  deriving DecidableEq, Repr

/-- Whether an argument can only be an option or the end of options. -/
def looksLikeOption (arg : String) : Bool :=
  arg.startsWith "-" && arg != "-"

/-- The argument in value position and the arguments after it. -/
def nextValue? : List String → Option (String × List String)
  | arg :: rest => if looksLikeOption arg then none else some (arg, rest)
  | [] => none

/-- A long option, from the characters after the dashes, and the arguments after it. -/
def scanLong (specs : List OptionSpec) (chars : List Char) (rest : List String) :
    Option (Token × List String) := do
  let name := String.ofList (chars.takeWhile (· != '='))
  let spec ← specs.find? (·.long == name)
  match spec.takesValue, chars.dropWhile (· != '=') with
  | true, _ :: value => return (.setting name (String.ofList value), rest)
  | true, [] =>
    let (value, rest) ← nextValue? rest
    return (.setting name value, rest)
  | false, [] => return (.flag name, rest)
  | false, _ :: _ => none

/-- Short options, from the characters after the dash, and the arguments after them; in reverse
before `found`. -/
def scanShort (specs : List OptionSpec) : List Char → List String → (found : List Token) →
    Option (List Token × List String)
  | [], rest, found => some (found.reverse, rest)
  | letter :: letters, rest, found => do
    let spec ← specs.find? (·.short == some letter)
    if spec.takesValue then
      -- What follows the letter is its value, up to an equals sign that may be left out.
      match letters with
      | [] =>
        let (value, rest) ← nextValue? rest
        return ((.setting spec.long value :: found).reverse, rest)
      | '=' :: value => return ((.setting spec.long (String.ofList value) :: found).reverse, rest)
      | value => return ((.setting spec.long (String.ofList value) :: found).reverse, rest)
    else scanShort specs letters rest (.flag spec.long :: found)

/-- The options and words of at most `fuel` arguments. -/
def scanUpTo (specs : List OptionSpec) : (fuel : Nat) → List String → Option (List Token)
  | _, [] => some []
  | 0, _ :: _ => none
  | fuel + 1, arg :: rest =>
    match arg.toList with
    | ['-', '-'] => some (rest.map .word)
    | '-' :: '-' :: chars => do
      let (token, rest) ← scanLong specs chars rest
      return token :: (← scanUpTo specs fuel rest)
    | '-' :: letter :: letters => do
      let (tokens, rest) ← scanShort specs (letter :: letters) rest []
      return tokens ++ (← scanUpTo specs fuel rest)
    | _ => do return .word arg :: (← scanUpTo specs fuel rest)

/-- The options and words of a command line. -/
def scan (specs : List OptionSpec) (args : List String) : Option (List Token) :=
  scanUpTo specs args.length args

/-- The words, grouped where nothing but words stands between them; the first group may be
empty. -/
def wordGroups : List Token → List (List String)
  | [] => [[]]
  | .word text :: rest =>
    match wordGroups rest with
    | group :: groups => (text :: group) :: groups
    | [] => [[text]]
  | _ :: rest => [] :: wordGroups rest

/-- The value of an option, if it is given; fails if it is given twice. -/
def valueOf? (tokens : List Token) (name : String) : Option (Option String) :=
  let values := tokens.filterMap fun
    | .setting other value => if other = name then some value else none
    | _ => none
  match values with
  | [] => some none
  | [value] => some (some value)
  | _ => none

/-- Whether a flag is given; fails if it is given twice. -/
def isSet? (tokens : List Token) (name : String) : Option Bool :=
  match tokens.filter (· == .flag name) with
  | [] => some false
  | [_] => some true
  | _ => none

end Postings.Cli
