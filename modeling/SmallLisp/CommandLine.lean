/-
The command line.

Options may stand anywhere among the words of a command.  A command reads at most one file or its
standard input; it writes to its output, and what goes wrong goes to its error output and makes
the exit code one.
-/
import SmallLisp.Listing
import SmallLisp.Repl

namespace SmallLisp.CommandLine

/-! ### Options

Options are taken out first, wherever they stand, and the words that are left make the command.
-/

/-- What options set. -/
structure Options where
  /-- How many calls can be active at once. -/
  maxCalls : Nat := Interpreter.defaultMaxCalls

/-- How the limit on active calls is spelled. -/
def maxCallsFlag : String := "--max-depth="

/-- The number that a word spells: decimal digits, perhaps after a plus sign, for less than
`2 ^ 64`. -/
def natural? (word : List Char) : Option Nat :=
  let digits := match word with
    | '+' :: cs => cs
    | cs => cs
  if digits.isEmpty || !digits.all Char.isDigit then none
  else
    let n := Decimal.natOfDigits digits
    if n < Nat.pow 2 64 then some n else none

/-- Takes a word as an option: the options it leads to, or nothing if it is no option.  An option
without a proper number is refused. -/
def Options.apply? (o : Options) (word : String) : Except String (Option Options) :=
  let flag := maxCallsFlag.toList
  if flag.isPrefixOf word.toList then
    let value := word.toList.drop flag.length
    match natural? value with
    | some n => .ok (some { o with maxCalls := n })
    | none => .error ("invalid --max-depth value '" ++ String.ofList value ++ "'")
  else .ok none

/-- Sets options apart from the other words, which come out in order. -/
def options (o : Options) (others : List String) :
    List String → Except String (Options × List String)
  | [] => .ok (o, others.reverse)
  | word :: words =>
    match o.apply? word with
    | .error e => .error e
    | .ok (some o) => options o others words
    | .ok none => options o (word :: others) words

/-! ### Commands -/

/-- A command. -/
inductive Command where
  /-- An interactive session on the standard input. -/
  | repl
  | help
  | version
  /-- Runs the program in a file. -/
  | run (path : String)
  /-- Lists the tokens in a file. -/
  | lex (path : String)
  /-- Lists the forms in a file. -/
  | parse (path : String)
  /-- A command that needs a file, without one. -/
  | noFile (name : String)
  /-- Words that are no command. -/
  | unknown (words : List String)
deriving DecidableEq, Repr

namespace Command

/-- The command that some words spell.  A single word that is no command and does not begin with
a hyphen is a file to run. -/
def ofWords : List String → Command
  | [] => repl
  | [word] =>
    if word = "repl" then repl
    else if word = "help" || word = "--help" || word = "-h" then help
    else if word = "version" || word = "--version" || word = "-V" then version
    else if word = "run" || word = "lex" || word = "parse" then noFile word
    else if word.toList.head? = some '-' then unknown [word]
    else run word
  | [word, path] =>
    if word = "run" then run path
    else if word = "lex" then lex path
    else if word = "parse" then parse path
    else unknown [word, path]
  | words => unknown words

/-- The file that a command reads. -/
def path? : Command → Option String
  | run path => some path
  | lex path => some path
  | parse path => some path
  | _ => none

end Command

/-! ### Files

A file is known by its contents or by the reason why they cannot be read, so that nothing here depends on a
file system.
-/

/-- What is known of a file: its contents, or why they cannot be read. -/
abbrev Contents := Except FileProblem ByteArray

/-- The text in the file at a path. -/
def textOf (path : String) (contents : Contents) : Except Failure String :=
  match contents with
  | .error problem => .error (.read path problem)
  | .ok bytes =>
    match String.fromUTF8? bytes with
    | some text => .ok text
    | none => .error (.read path .notText)

/-- Runs the program in a file.  Its value is written, unless it is `nil`. -/
def runFile (o : Options) (path : String) (contents : Contents) : String × Except Failure Value :=
  match textOf path contents with
  | .error f => ("", .error f)
  | .ok source =>
    let (i, s) := Interpreter.new o.maxCalls .empty
    match (i.runSource source s).1 with
    | .error f => ("", .error f)
    | .ok v => (Repl.showValue v, .ok v)

/-- Writes a listing of a file below a heading. -/
def listFile (heading : String) (listing : String → Except Failure String) (path : String)
    (contents : Contents) : String × Except Failure Unit :=
  match textOf path contents with
  | .error f => ("", .error f)
  | .ok source =>
    let heading := heading ++ " for '" ++ path ++ "':\n"
    match listing source with
    | .error f => (heading, .error f)
    | .ok text => (heading ++ text, .ok ())

/-- Lists the tokens in a file. -/
def lexFile : String → Contents → String × Except Failure Unit :=
  listFile "Tokens" Listing.tokens

/-- Lists the forms in a file. -/
def parseFile : String → Contents → String × Except Failure Unit :=
  listFile "Forms" Listing.forms

/-! ### Performing a command

A command writes, and goes well or not.  Only here does that become two texts and an exit code.
-/

/-- What a command leaves behind. -/
structure Outcome where
  out : String
  err : String
  exitCode : UInt32
deriving DecidableEq, Repr

namespace Outcome

/-- The outcome of a command that went well. -/
def success (out : String) : Outcome := ⟨out, "", 0⟩

/-- The outcome of a command that failed. -/
def failure (out err : String) : Outcome := ⟨out, err, 1⟩

/-- The outcome of what was written and how it ended. -/
def ofResult (out : String) : Except Failure Unit → Outcome
  | .ok () => success out
  | .error f => failure out (f.message ++ "\n")

end Outcome

/-- How a command ends when its output has been flushed: a failure of the command comes before one
of the output. -/
def finish (result : Except Failure Unit) (flush : Except String Unit) : Except Failure Unit :=
  match result with
  | .error f => .error f
  | .ok () => flush.mapError .output

/-- What `help` shows. -/
def usage : String :=
  String.join <| [
    "Lisp interpreter",
    "",
    "Usage: lisp [command] [options]",
    "",
    "Commands:",
    "  <file>              Run a program (same as `run <file>`)",
    "  run <file>          Evaluate every form in a file",
    "  repl                Start an interactive session (default)",
    "  lex <file>          Tokenize and display tokens",
    "  parse <file>        Parse and display each form",
    "  help                Show this help message",
    "  version             Show version information",
    "",
    "Options:",
    "  --max-depth=<n>     Maximum nested function calls (default: 10000)",
    "",
    "Environment:",
    "  LISP_LOG=<filter>   Enable tracing, e.g. LISP_LOG=lisp_eval=debug",
    "",
    "Examples:",
    "  lisp fact.lisp",
    "  lisp run deep.lisp --max-depth=50000",
    "  lisp parse fact.lisp"].map (· ++ "\n")

/-- What `version` shows. -/
def versionLine : String :=
  "lisp 0.1.0\n"

/-- Performs a command on a file with the given contents and on the given standard input. -/
def perform (o : Options) (contents : Contents) (stdin : ByteArray) : Command → Outcome
  | .repl =>
    let (i, s) := Interpreter.new o.maxCalls .empty
    let (out, result, _) := Repl.run i stdin s
    .ofResult out result
  | .help => .success usage
  | .version => .success versionLine
  | .run path =>
    let (out, result) := runFile o path contents
    .ofResult out (result.map fun _ => ())
  | .lex path =>
    let (out, result) := lexFile path contents
    .ofResult out result
  | .parse path =>
    let (out, result) := parseFile path contents
    .ofResult out result
  | .noFile name => .failure "" ("Usage: lisp " ++ name ++ " <file>\n")
  | .unknown words => .failure usage ("Unknown command: " ++ " ".intercalate words ++ "\n\n")

/-- Reads the words of a command line: the options and the command. -/
def read (words : List String) : Except String (Options × Command) := do
  let (o, others) ← options {} [] words
  pure (o, .ofWords others)

/-- The outcome of a command line that cannot be read. -/
def refuse (complaint : String) : Outcome :=
  .failure "" ("error: " ++ complaint ++ "\n")

/-- What a command line does, where `contents` tells of every file. -/
def run (words : List String) (contents : String → Contents) (stdin : ByteArray) : Outcome :=
  match read words with
  | .error complaint => refuse complaint
  | .ok (o, command) =>
    perform o ((command.path?.map contents).getD (.error .notFound)) stdin command

end SmallLisp.CommandLine
