/-
What can go wrong between the text of a program and its result.
-/
import SmallLisp.Cursor
import SmallLisp.Eval.Error
import SmallLisp.Token.Scan

namespace SmallLisp

/-- Why a file cannot be read. -/
inductive FileProblem where
  /-- There is no such file. -/
  | notFound
  /-- The system does not let it be read. -/
  | permissionDenied
  /-- It is not valid UTF-8. -/
  | notText
  /-- Anything else, as the system puts it. -/
  | other (description : String)
deriving DecidableEq, Repr

/-- What went wrong with the file at a path. -/
def FileProblem.message (path : String) : FileProblem → String
  | notFound => "cannot find file '" ++ path ++ "'"
  | permissionDenied => "permission denied reading '" ++ path ++ "'"
  | notText => "'" ++ path ++ "' contains invalid UTF-8 data"
  | other description => "error reading '" ++ path ++ "': " ++ description

/-- Why a program has no result. -/
inductive Failure where
  /-- The file at this path cannot be read. -/
  | read (path : String) (problem : FileProblem)
  /-- The text is not a row of tokens. -/
  | scan (e : ScanError)
  /-- The tokens are not a row of expressions. -/
  | parse (e : ParseError)
  /-- An expression has no value. -/
  | eval (e : EvalError)
  /-- Output could not be written, as the system puts it. -/
  | output (description : String)

namespace Failure

/-- What went wrong, as it is reported. -/
def message : Failure → String
  | read path problem => problem.message path
  | scan e => e.message
  | parse e => e.message
  | eval e => e.message
  | output description => "error writing output: " ++ description

/-- Whether the program ended too early: inside a string, or before a form was complete. -/
def isIncomplete : Failure → Bool
  | scan (.unterminatedString _) => true
  | parse e => e.isIncomplete
  | _ => false

end Failure

end SmallLisp
