/-
How expressions are evaluated.

Evaluation changes the store and ends with a value or an error; what was changed before an error
stays changed.

Two things bound it.  Inside one function body evaluation goes from an expression to its parts, so
`evaluate` is a recursion on the expression.  A call leaves the expression behind and goes on in
the body of a function, but only a limited number of calls can be active at once.  So `evaluate`
is told what entering a body means, and `inCalls` ties the knot by recursion on the number of
calls that may still be entered.  Together they are a total function: every evaluation ends.
-/
import SmallLisp.Eval.Operator
import SmallLisp.Store

namespace SmallLisp.Eval

/-- A computation on the store that may fail. -/
abbrev M := ExceptT EvalError (StateM Store)

/-- The evaluation of an expression in a scope. -/
abbrev Evaluator := ScopeId → Expr → M Value

/-! ### Names

All that an evaluation does to the store is done by these.  Looking up and assigning are the two that can
fail.
-/

/-- The value of a symbol. -/
def valueOf (scope : ScopeId) (name : Token) : M Value := do
  match (← get).lookup scope name.lexeme with
  | some v => pure v
  | none => throw (.undefinedVariable name)

/-- Gives a symbol another value where it is bound. -/
def assign (scope : ScopeId) (name : Token) (v : Value) : M Unit := do
  match (← get).assign? scope name.lexeme v with
  | some s => set s
  | none => throw (.undefinedVariable name)

/-- Makes a function in a scope and gives it its name there. -/
def define (scope : ScopeId) (name : Token) (params : List Token) (body : Expr) : M Unit :=
  modify fun s =>
    let (identity, s) := s.newFunction
    s.define scope name.lexeme (.function ⟨identity, name, params, body, scope⟩)

/-- Makes a scope for values under the given names. -/
def frame (scope : ScopeId) (names : List Token) (vs : List Value) : M ScopeId :=
  modifyGet fun s => s.newFrame scope ((names.map Token.lexeme).zip vs)

/-- Makes a scope without names. -/
def child (scope : ScopeId) : M ScopeId :=
  modifyGet fun s => s.newChild scope

/-- Gives a symbol a value in a scope itself. -/
def bindName (scope : ScopeId) (name : Token) (v : Value) : M Unit :=
  modify fun s => s.define scope name.lexeme v

/-! ### Calls -/

/-- Calls a function: its parameters are bound in a new scope inside its own, and its body is
evaluated there, if `enter?` allows one more body. -/
def call (limit : Nat) (enter? : Option Evaluator) (site : Option Token) (c : Closure)
    (vs : List Value) : M Value := do
  if vs.length = c.arity then
    match enter? with
    | some enter =>
      let scope ← frame c.scope c.params vs
      enter scope c.body
    | none => throw (.callsTooDeep site limit)
  else throw (.wrongOperandCount site (toString c.arity) vs.length)

/-! ### The shape of `let`

The bindings of a `let` are a list like any other until they are looked at.  All of them are checked before
the first is evaluated.
-/

/-- The name and the expression in `(name value)`. -/
def binding? : Expr → Option (Token × Expr)
  | .list (.symbol name) [e] => some (name, e)
  | _ => none

/-- The complaint about a binding of another shape. -/
def badBinding (keyword : Token) : EvalError :=
  .malformed keyword "each 'let' binding must be (name value)"

/-- The complaint about what should be a list of bindings. -/
def noBindings (keyword : Token) : EvalError :=
  .malformed keyword "expect binding list after 'let'"

/-! ### Expressions

One recursion over the expression and its parts, with a function for each form.  It never follows a call
into a body: what entering one means is a parameter, and `inCalls` supplies it.
-/

mutual

/-- Evaluates an expression in a scope. -/
def evaluate (limit : Nat) (enter? : Option Evaluator) (scope : ScopeId) :
    Expr → M Value
  | .datum d => pure (.datum d)
  | .symbol t => valueOf scope t
  | .operator t => pure (.operator t)
  | .keyword t => throw (.unexpectedKeyword t)
  | .define name params body => do
    define scope name params body
    pure .nil
  | .list (.keyword t) operands =>
    match t.kind with
    | .keyword .ifElse => branch limit enter? scope t operands
    | .keyword .begin => sequence limit enter? scope .nil operands
    | .keyword .bind => bindIn limit enter? scope t operands
    | .keyword .assign => assignment limit enter? scope t operands
    | .keyword .and => conjunction limit enter? scope (.ofBool true) operands
    | .keyword .or => disjunction limit enter? scope (.ofBool false) operands
    | .keyword .not => negation limit enter? scope t operands
    | _ => throw (.unexpectedKeyword t)
  | .list head operands => do
    match ← evaluate limit enter? scope head with
    | .operator t =>
      let vs ← evaluateAll limit enter? scope operands
      ExceptT.mk (pure (Operator.apply t vs))
    | .function c =>
      let vs ← evaluateAll limit enter? scope operands
      call limit enter? head.token? c vs
    | .datum d => throw (.notCallable head.token? (Value.datum d).typeName)

/-- Evaluates operands in order. -/
def evaluateAll (limit : Nat) (enter? : Option Evaluator) (scope : ScopeId) :
    List Expr → M (List Value)
  | [] => pure []
  | e :: es => do
    let v ← evaluate limit enter? scope e
    let vs ← evaluateAll limit enter? scope es
    pure (v :: vs)

/-- Evaluates expressions in order; the value is that of the last one, or `last` if there are
none. -/
def sequence (limit : Nat) (enter? : Option Evaluator) (scope : ScopeId)
    (last : Value) : List Expr → M Value
  | [] => pure last
  | e :: es => do
    let v ← evaluate limit enter? scope e
    sequence limit enter? scope v es

/-- `(if test yes no)`, where `no` may be left out. -/
def branch (limit : Nat) (enter? : Option Evaluator) (scope : ScopeId)
    (keyword : Token) : List Expr → M Value
  | [test, yes] => do
    let v ← evaluate limit enter? scope test
    if v.isTruthy then evaluate limit enter? scope yes else pure .nil
  | [test, yes, no] => do
    let v ← evaluate limit enter? scope test
    if v.isTruthy then evaluate limit enter? scope yes
    else evaluate limit enter? scope no
  | es => throw (.wrongOperandCount (some keyword) "2 or 3" es.length)

/-- `(and e...)`: the first value that is not truthy, else the last. -/
def conjunction (limit : Nat) (enter? : Option Evaluator) (scope : ScopeId)
    (last : Value) : List Expr → M Value
  | [] => pure last
  | e :: es => do
    let v ← evaluate limit enter? scope e
    if v.isTruthy then conjunction limit enter? scope v es else pure v

/-- `(or e...)`: the first value that is truthy, else the last. -/
def disjunction (limit : Nat) (enter? : Option Evaluator) (scope : ScopeId)
    (last : Value) : List Expr → M Value
  | [] => pure last
  | e :: es => do
    let v ← evaluate limit enter? scope e
    if v.isTruthy then pure v else disjunction limit enter? scope v es

/-- `(not e)`. -/
def negation (limit : Nat) (enter? : Option Evaluator) (scope : ScopeId)
    (keyword : Token) : List Expr → M Value
  | [e] => do
    let v ← evaluate limit enter? scope e
    pure (.ofBool (!v.isTruthy))
  | es => throw (.wrongOperandCount (some keyword) "1" es.length)

/-- `(set name value)`. -/
def assignment (limit : Nat) (enter? : Option Evaluator) (scope : ScopeId)
    (keyword : Token) : List Expr → M Value
  | [.symbol name, e] => do
    let v ← evaluate limit enter? scope e
    assign scope name v
    pure v
  | [_, _] => throw (.malformed keyword "expect variable name after 'set'")
  | es => throw (.wrongOperandCount (some keyword) "2" es.length)

/-- `(let ((name value)...) body...)`.  The bindings are checked before anything else is done.  Then a
scope is made for the names, and each of them has its value there as soon as it is computed; the
values are computed outside, the body is evaluated inside. -/
def bindIn (limit : Nat) (enter? : Option Evaluator) (scope : ScopeId)
    (keyword : Token) : List Expr → M Value
  | .list first others :: body =>
    match (first :: others).mapM binding? with
    | none => throw (badBinding keyword)
    | some _ => do
      let inner ← child scope
      fill limit enter? scope keyword inner first
      fillAll limit enter? scope keyword inner others
      sequence limit enter? inner .nil body
  | _ => throw (noBindings keyword)

/-- Evaluates the value in `(name value)` and gives it to the name in the scope `inner`. -/
def fill (limit : Nat) (enter? : Option Evaluator) (scope : ScopeId) (keyword : Token)
    (inner : ScopeId) : Expr → M Unit
  | .list (.symbol name) [e] => do
    let v ← evaluate limit enter? scope e
    bindName inner name v
  | _ => throw (badBinding keyword)

/-- Does so with bindings in order. -/
def fillAll (limit : Nat) (enter? : Option Evaluator) (scope : ScopeId) (keyword : Token)
    (inner : ScopeId) : List Expr → M Unit
  | [] => pure ()
  | b :: bs => do
    fill limit enter? scope keyword inner b
    fillAll limit enter? scope keyword inner bs

end

/-- Evaluates an expression where so many calls may still be entered, out of `limit`. -/
def inCalls (limit : Nat) : (remaining : Nat) → Evaluator
  | 0 => evaluate limit none
  | remaining + 1 => evaluate limit (some (inCalls limit remaining))

end SmallLisp.Eval
