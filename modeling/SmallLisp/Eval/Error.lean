/-
What can go wrong while a program runs.

Every error names its cause.  The token where it arose goes with it; only a call may have none,
when what is called was spelled as a datum.
-/
import SmallLisp.Token.Basic

namespace SmallLisp

/-- Why an expression has no value. -/
inductive EvalError where
  /-- A symbol that is bound nowhere. -/
  | undefinedVariable (name : Token)
  /-- An operand that had to be a number. -/
  | operandNotNumber (operator : Token)
  /-- One of two operands that had to be numbers. -/
  | operandsNotNumbers (operator : Token)
  /-- A token that was applied as an operator and is none. -/
  | notAnOperator (t : Token)
  /-- A call of a value of this type. -/
  | notCallable (callSite : Option Token) (type : String)
  /-- A keyword where no form begins. -/
  | unexpectedKeyword (keyword : Token)
  /-- A number of operands other than what is expected. -/
  | wrongOperandCount (callSite : Option Token) (expected : String) (got : Nat)
  /-- Calls nested more deeply than this. -/
  | callsTooDeep (callSite : Option Token) (limit : Nat)
  /-- A form of this keyword whose parts are not what it needs. -/
  | malformed (keyword : Token) (problem : String)
deriving BEq, DecidableEq

namespace EvalError

/-- Where an error arose. -/
def token? : EvalError → Option Token
  | undefinedVariable t => some t
  | operandNotNumber t => some t
  | operandsNotNumbers t => some t
  | notAnOperator t => some t
  | notCallable t _ => t
  | unexpectedKeyword t => some t
  | wrongOperandCount t _ _ => t
  | callsTooDeep t _ => t
  | malformed t _ => some t

/-- What went wrong. -/
def detail : EvalError → String
  | undefinedVariable t => "undefined variable '" ++ t.lexeme ++ "'"
  | operandNotNumber _ => "Operator must be a number"
  | operandsNotNumbers _ => "Operators must be numbers"
  | notAnOperator t => "'" ++ t.lexeme ++ "' is not an operator"
  | notCallable _ type => "can only call functions and operators, not " ++ type
  | unexpectedKeyword t => "unexpected keyword '" ++ t.lexeme ++ "'"
  | wrongOperandCount _ expected got =>
    "expected " ++ expected ++ (if expected = "1" then " argument" else " arguments") ++
      " but got " ++ toString got
  | callsTooDeep _ limit => "maximum call depth of " ++ toString limit ++ " exceeded"
  | malformed _ problem => problem

/-- What went wrong and where. -/
def message (e : EvalError) : String :=
  match e.token? with
  | some t => t.report e.detail
  | none => "Error: " ++ e.detail

end EvalError

end SmallLisp
