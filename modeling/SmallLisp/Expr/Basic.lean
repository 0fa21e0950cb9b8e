/-
Expressions: the trees that programs are made of.

A leaf is a datum that stands for itself, or a symbol, an operator or a keyword, which keeps its
token.  A list has a head and operands.  The definition of a function has a tree of its own,
since its parameters are names and not expressions.
-/
import SmallLisp.Token.Basic

namespace SmallLisp

/-- A value that a program can spell out.  Two data are the same (`==`) if they are of one type and
their contents are the same, numbers being compared as numbers. -/
inductive Datum where
  | number (x : Float)
  | text (s : String)
  | bool (b : Bool)
  | nil
deriving BEq, DecidableEq

/-- An expression. -/
inductive Expr where
  | datum (d : Datum)
  | symbol (t : Token)
  | operator (t : Token)
  | keyword (t : Token)
  | list (head : Expr) (operands : List Expr)
  /-- The definition of a function. -/
  | define (name : Token) (params : List Token) (body : Expr)

namespace Expr

instance : Inhabited Expr := ⟨.datum .nil⟩

/-- The token that stands for an expression in a message: that of the leaf which is found by
going to the head of a list until there is no list.  A datum has none. -/
def token? : Expr → Option Token
  | datum _ => none
  | symbol t => some t
  | operator t => some t
  | keyword t => some t
  | list head _ => head.token?
  | define name _ _ => some name

mutual

/-- Whether two expressions have the same shape and the same leaves, with tokens compared in every
field and numbers as numbers. -/
def same : Expr → Expr → Bool
  | datum a, datum b => a == b
  | symbol s, symbol t => s == t
  | operator s, operator t => s == t
  | keyword s, keyword t => s == t
  | list head operands, list head' operands' => head.same head' && sameAll operands operands'
  | define name params body, define name' params' body' =>
    name == name' && params == params' && body.same body'
  | _, _ => false

/-- `same`, element by element. -/
def sameAll : List Expr → List Expr → Bool
  | [], [] => true
  | e :: es, e' :: es' => e.same e' && sameAll es es'
  | _, _ => false

end

instance : BEq Expr := ⟨same⟩

end Expr

end SmallLisp
