/-
The program: performs its command line on the real files, input and output.
-/
import SmallLisp.CommandLine

namespace SmallLisp

/-- A problem as the system puts it, with its number. -/
def systemText (code : UInt32) (details : String) : String :=
  details.capitalize ++ " (os error " ++ toString code ++ ")"

/-- What an error of the system says. -/
def describeError : IO.Error → String
  | .inappropriateType _ code details => systemText code details
  | .invalidArgument _ code details => systemText code details
  | .resourceExhausted _ code details => systemText code details
  | .hardwareFault code details => systemText code details
  | .resourceVanished code details => systemText code details
  | .otherError code details => systemText code details
  | e => toString e

/-- The contents of a file. -/
def contentsOf (path : String) : IO CommandLine.Contents := do
  try
    return .ok (← IO.FS.readBinFile path)
  catch
    | .noFileOrDirectory .. => return .error .notFound
    | .permissionDenied .. => return .error .permissionDenied
    | e => return .error (.other (describeError e))

/-- The next line of input, with its line break; it is empty at the end of input. -/
partial def nextLine (stdin : IO.FS.Stream) (read : ByteArray) : IO ByteArray := do
  let bytes ← stdin.read 1
  if bytes.isEmpty || bytes[0]? = some 10 then return read ++ bytes
  else nextLine stdin (read ++ bytes)

/-- A session at a terminal, which shows each answer at once. -/
partial def converse (i : Interpreter) (st : Repl.State) : IO (Except Failure Unit) := do
  (← IO.getStdout).flush
  let bytes ← nextLine (← IO.getStdin) .empty
  if bytes.isEmpty then
    IO.print (Repl.finish i st).1
    return .ok ()
  else
    match String.fromUTF8? bytes with
    | none => return .error Repl.notText
    | some text =>
      let (answer, st) := Repl.line i (Text.withoutBreak text) st
      IO.print answer
      converse i st

/-- Shows what a command leaves behind. -/
def showOutcome (outcome : CommandLine.Outcome) : IO UInt32 := do
  IO.print outcome.out
  let flush ← (← IO.getStdout).flush.toBaseIO
  IO.eprint outcome.err
  if outcome.exitCode = 0 then
    match CommandLine.finish (.ok ()) (flush.mapError describeError) with
    | .ok () => return 0
    | .error f =>
      IO.eprintln f.message
      return 1
  else return outcome.exitCode

end SmallLisp

open SmallLisp in
def main (args : List String) : IO UInt32 := do
  match CommandLine.read args with
  | .error complaint => showOutcome (CommandLine.refuse complaint)
  | .ok (o, .repl) =>
    let (i, s) := Interpreter.new o.maxCalls .empty
    IO.print Repl.prompt
    let result ← converse i ⟨"", s⟩
    showOutcome (.ofResult "" result)
  | .ok (o, command) =>
    let contents ← match command.path? with
      | some path => contentsOf path
      | none => pure (.error .notFound)
    showOutcome (CommandLine.perform o contents .empty command)
