/-
Values: what expressions compute.

A value is a datum, an operator or a function.  A function is a closure: a definition together
with the scope in which it was evaluated and an identity of its own, so that two evaluations of
one definition make two functions.
-/
import SmallLisp.Expr.Basic

namespace SmallLisp

/-- The number of a scope in the store. -/
abbrev ScopeId := Nat

/-- A function. -/
structure Closure where
  /-- Tells this function from all others. -/
  identity : Nat
  name : Token
  params : List Token
  body : Expr
  /-- Where the names in the body are looked up. -/
  scope : ScopeId

/-- A value. -/
inductive Value where
  | datum (d : Datum)
  /-- An operator, as the token that named it. -/
  | operator (t : Token)
  /-- A function that a program has defined. -/
  | function (c : Closure)

namespace Closure

/-- How many operands a call takes. -/
def arity (c : Closure) : Nat :=
  c.params.length

end Closure

namespace Value

instance : Inhabited Value := ⟨.datum .nil⟩

/-- The value of what has no other. -/
def nil : Value := .datum .nil

/-- A number as a value. -/
def ofNumber (x : Float) : Value := .datum (.number x)

/-- A truth value as a value. -/
def ofBool (b : Bool) : Value := .datum (.bool b)

/-- The number that a value is, if it is one. -/
def number? : Value → Option Float
  | datum (.number x) => some x
  | _ => none

/-- Whether a value is `nil`. -/
def isNil : Value → Bool
  | datum .nil => true
  | _ => false

/-- Whether a value counts as true: `nil`, `false` and zero do not, all else does. -/
def isTruthy : Value → Bool
  | datum .nil => false
  | datum (.bool b) => b
  | datum (.number x) => x != 0
  | _ => true

/-- Equality as programs see it.  Values of two types differ, numbers are compared as numbers,
operators by their kind and functions by their identity. -/
def equals : Value → Value → Bool
  | datum a, datum b => a == b
  | operator s, operator t => s.kind = t.kind
  | function c, function d => c.identity = d.identity
  | _, _ => false

/-- The name of a value's type. -/
def typeName : Value → String
  | datum (.number _) => "number"
  | datum (.text _) => "string"
  | datum (.bool _) => "bool"
  | datum .nil => "nil"
  | operator _ => "operator"
  | function _ => "function"

/-- The text of a value.  That of a string is the string itself. -/
def text : Value → String
  | datum (.number x) => Decimal.Layout.plain.text x
  | datum (.text s) => s
  | datum (.bool b) => toString b
  | datum .nil => "nil"
  | operator t => "<operator " ++ t.lexeme ++ ">"
  | function c => "<fn " ++ c.name.lexeme ++ ">"

/-- A value with its type, on one line. -/
def describe : Value → String
  | datum (.number x) => "Number(" ++ Decimal.Layout.marked.text x ++ ")"
  | datum (.text s) => "Str(" ++ Text.quoted s ++ ")"
  | datum (.bool b) => "Bool(" ++ toString b ++ ")"
  | datum .nil => "Nil"
  | operator t => "Callable(Operator(" ++ t.describe ++ "))"
  | function c =>
    "Callable(Function(Closure \x7b name: " ++ Text.quoted c.name.lexeme ++ ", arity: " ++
      toString c.arity ++ ", .. \x7d))"

end Value

end SmallLisp
