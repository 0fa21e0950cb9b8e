/-
Interpreters: where programs run.

An interpreter is a scope for global names and a limit on the calls that can be active at once.
The store is kept apart from it, so that several interpreters can share scopes.
-/
import SmallLisp.Eval.Basic
import SmallLisp.Expr.Parse
import SmallLisp.Failure

namespace SmallLisp

/-- The forms of a program. -/
def readForms (source : String) : Except Failure (List Expr) := do
  let ts ← (scan source).mapError .scan
  (parse ts).mapError .parse

/-- A place where programs run. -/
structure Interpreter where
  /-- The scope of the global names. -/
  globals : ScopeId
  /-- How many calls can be active at once. -/
  maxCalls : Nat

namespace Interpreter

/-- The limit unless another is asked for. -/
def defaultMaxCalls : Nat := 10000

/-- An interpreter with a new scope for its global names. -/
def new (maxCalls : Nat) (s : Store) : Interpreter × Store :=
  let (globals, s) := s.newRoot
  (⟨globals, maxCalls⟩, s)

/-- Evaluates an expression in a scope, with no call active. -/
def evaluate (i : Interpreter) (scope : ScopeId) (e : Expr) : Eval.M Value :=
  Eval.inCalls i.maxCalls i.maxCalls scope e

/-- Evaluates forms in a scope, in order.  The value is that of the last, `nil` if there are
none. -/
def evaluateForms (i : Interpreter) (scope : ScopeId) (forms : List Expr) : Eval.M Value :=
  forms.foldlM (fun _ e => i.evaluate scope e) .nil

/-- Evaluates forms in the scope of the global names. -/
def run (i : Interpreter) (forms : List Expr) : Eval.M Value :=
  i.evaluateForms i.globals forms

/-- Runs a program.  Nothing is evaluated unless the whole program can be read. -/
def runSource (i : Interpreter) (source : String) (s : Store) : Except Failure Value × Store :=
  match readForms source with
  | .error e => (.error e, s)
  | .ok forms =>
    match i.run forms s with
    | (.ok v, s) => (.ok v, s)
    | (.error e, s) => (.error (.eval e), s)

end Interpreter

end SmallLisp
