/-
Expressions as text.

An expression is printed on one line, its words separated by single spaces and its lists in
parentheses.  A definition is printed in its nested form, whichever form it was read from.
Strings are quoted as in descriptions, numbers are plain.
-/
import SmallLisp.Expr.Basic

namespace SmallLisp

/-- A datum the way a program spells it. -/
def Datum.source : Datum → String
  | .number x => Decimal.Layout.plain.text x
  | .text s => Text.quoted s
  | .bool b => toString b
  | .nil => "nil"

namespace Expr

/-- Names with single spaces between them. -/
def nameList (names : List Token) : String :=
  " ".intercalate (names.map Token.lexeme)

mutual

/-- Appends the text of an expression to `text`. -/
def printTo (text : String) : Expr → String
  | datum d => text ++ d.source
  | symbol t => text ++ t.lexeme
  | operator t => text ++ t.lexeme
  | keyword t => text ++ t.lexeme
  | list head operands => operandsTo (head.printTo (text ++ "(")) operands ++ ")"
  | define name params body =>
    body.printTo (text ++ "(define (" ++ name.lexeme ++ " (" ++ nameList params ++ ")) ") ++ ")"

/-- Appends a space and the text of an expression for each of several expressions. -/
def operandsTo (text : String) : List Expr → String
  | [] => text
  | e :: es => operandsTo (e.printTo (text ++ " ")) es

end

/-- The text of an expression. -/
def print (e : Expr) : String :=
  e.printTo ""

end Expr

end SmallLisp
