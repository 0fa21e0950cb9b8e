/-
Listings of what a program is made of: one token a line, or one form a line.
-/
import SmallLisp.Expr.Printer
import SmallLisp.Interpreter

namespace SmallLisp.Listing

/-- A number with spaces before it, up to a width of four. -/
def column (n : Nat) : String :=
  let digits := toString n
  String.ofList (List.replicate (4 - digits.length) ' ') ++ digits

/-- The line of a token: its line number, its kind and its spelling. -/
def tokenLine (t : Token) : String :=
  "  " ++ column t.line ++ "  " ++ t.kind.label ++ "  " ++ t.lexeme ++ "\n"

/-- The line of a form. -/
def formLine (e : Expr) : String :=
  "  " ++ e.print ++ "\n"

/-- Every token of a program. -/
def tokens (source : String) : Except Failure String := do
  let ts ← (scan source).mapError .scan
  pure (String.join (ts.map tokenLine))

/-- Every form of a program. -/
def forms (source : String) : Except Failure String := do
  let es ← readForms source
  pure (String.join (es.map formLine))

end SmallLisp.Listing
