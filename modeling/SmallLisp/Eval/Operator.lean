/-
What operators compute.

Sums and products take any number of operands.  Differences and quotients take at least one; of a
single operand they are the negation and the reciprocal, and further operands are taken away from
the first in order.  Comparisons take two.  Only `=` takes operands that are not numbers.
-/
import SmallLisp.Eval.Error
import SmallLisp.Value

namespace SmallLisp.Operator

/-- The number that an operand has to be. -/
def operand (t : Token) (v : Value) : Except EvalError Float :=
  match v.number? with
  | some x => .ok x
  | none => .error (.operandNotNumber t)

/-- The numbers that a pair of operands has to be. -/
def operands (t : Token) (v w : Value) : Except EvalError (Float × Float) :=
  match v.number?, w.number? with
  | some x, some y => .ok (x, y)
  | _, _ => .error (.operandsNotNumbers t)

/-- Combines operands from left to right, beginning with `start`. -/
def fold (t : Token) (f : Float → Float → Float) (start : Float) : List Value → Except EvalError Value
  | [] => .ok (.ofNumber start)
  | v :: vs =>
    match operand t v with
    | .ok x => fold t f (f start x) vs
    | .error e => .error e

/-- Takes further operands away from the first; `alone` is what a single operand comes to. -/
def takeAway (t : Token) (f : Float → Float → Float) (alone : Float → Float) :
    List Value → Except EvalError Value
  | [] => .error (.wrongOperandCount (some t) "at least 1" 0)
  | v :: vs =>
    match operand t v with
    | .error e => .error e
    | .ok x => if vs.isEmpty then .ok (.ofNumber (alone x)) else fold t f x vs

/-- Compares two operands. -/
def pair (t : Token) (compare : Value → Value → Except EvalError Bool) (vs : List Value) :
    Except EvalError Value :=
  match vs with
  | [v, w] => (compare v w).map .ofBool
  | _ => .error (.wrongOperandCount (some t) "2" vs.length)

/-- Compares two numbers. -/
def order (t : Token) (r : Float → Float → Bool) (v w : Value) : Except EvalError Bool :=
  (operands t v w).map fun (x, y) => r x y

/-- Applies the operator that a token names. -/
def apply (t : Token) (vs : List Value) : Except EvalError Value :=
  match t.kind with
  | .operator .plus => fold t (· + ·) 0 vs
  | .operator .star => fold t (· * ·) 1 vs
  | .operator .minus => takeAway t (· - ·) (- ·) vs
  | .operator .slash => takeAway t (· / ·) (1 / ·) vs
  | .operator .equal => pair t (fun v w => .ok (v.equals w)) vs
  | .operator .less => pair t (order t fun x y => x < y) vs
  | .operator .greater => pair t (order t fun x y => x > y) vs
  | _ => .error (.notAnOperator t)

end SmallLisp.Operator
