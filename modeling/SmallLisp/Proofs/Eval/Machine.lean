/-
Evaluation in single steps.

`evaluate` is a recursion on the expression, and it is told how many bodies may still be entered.
That it ends, and that it leaves as many calls active as it has found, is part of how it is written
down.  The machine of this module takes nothing of the kind for granted.  It keeps a stack of what
waits for the value of a part, and a counter of the calls that are active, which goes up where a
body is entered and down where it is left, with a value or with an error.  One step does one thing.
The limit on active calls is checked against the counter, and a machine can be run without it.

Every evaluation of a part of an expression, and of a body, puts one frame on the stack and is over
when that frame is on top again.  So the stack is the recursion of the evaluator, made visible.

`steps_ofExpr` says that the evaluator and the machine with the limit do the same: from a machine
that is about to evaluate an expression, single steps lead to the outcome of the evaluation, in the
store that it leaves, with the counter as it was.  The proof follows the evaluator
function by function; `Comes.part` puts two of its computations together.
-/
import Mathlib.Logic.Function.Iterate
import Mathlib.Logic.Relation
import SmallLisp.Proofs.Eval.Invariant

namespace SmallLisp

namespace Eval

/-! ### Machines

A frame keeps what is needed to go on once a value is there: the scope, what has been computed before, what
is still to be evaluated.  There is one kind of frame for each place where the evaluator calls itself.
-/

/-- What waits for the value of a part. -/
inductive Frame where
  /-- An application, for what is applied. -/
  | head (scope : ScopeId) (site : Option Token) (operands : List Expr)
  /-- An application, for an operand that has others before it and after it. -/
  | operand (scope : ScopeId) (site : Option Token) (callee : Value) (before : List Value)
      (after : List Expr)
  /-- A call, for the body of the function. -/
  | body
  /-- An `if`, for its test and for the part that has been chosen. -/
  | test (scope : ScopeId) (yes : Expr) (no? : Option Expr)
  | chosen
  /-- `begin`, `and`, `or` and `not`, for an operand that has others after it. -/
  | sequence (scope : ScopeId) (after : List Expr)
  | conjunct (scope : ScopeId) (after : List Expr)
  | disjunct (scope : ScopeId) (after : List Expr)
  | negated
  /-- A `set`, for the value. -/
  | assigned (scope : ScopeId) (name : Token)
  /-- A `let` whose scope is being filled, for the value of a name that has others after it. -/
  | initialiser (scope inner : ScopeId) (name : Token) (after : List (Token × Expr))
      (body : List Expr)

/-- Whether a frame is that of a call whose body has been entered. -/
def Frame.isBody : Frame → Bool
  | body => true
  | _ => false

/-- What a machine does next. -/
inductive Control where
  /-- It evaluates an expression. -/
  | evaluate (scope : ScopeId) (e : Expr)
  /-- It hands an outcome to what waits for it. -/
  | yield (outcome : Except EvalError Value)

/-- An evaluation on its way. -/
structure Machine where
  control : Control
  /-- What waits for a value, innermost first. -/
  stack : List Frame
  /-- The counter of active calls. -/
  calls : Nat
  store : Store

/-- The limit that has been reached by so many active calls, if there is a limit. -/
def reached? (limit? : Option Nat) (calls : Nat) : Option Nat :=
  limit?.filter fun limit => limit ≤ calls

theorem reached?_none (calls : Nat) : reached? none calls = none :=
  rfl

theorem reached?_of_le {limit calls : Nat} (h : limit ≤ calls) :
    reached? (some limit) calls = some limit := by
  simp [reached?, h]

theorem reached?_eq_none_iff {limit calls : Nat} :
    reached? (some limit) calls = none ↔ calls < limit := by
  simp [reached?]

namespace Machine

/-- Hands on an outcome. -/
def yield (m : Machine) (outcome : Except EvalError Value) : Machine :=
  { m with control := .yield outcome }

/-- Does what touches the store and hands on the outcome. -/
def perform (m : Machine) (x : M Value) : Machine :=
  { m with control := .yield (x m.store).1, store := (x m.store).2 }

/-- Evaluates a part, for which the frame waits. -/
def ask (m : Machine) (f : Frame) (scope : ScopeId) (e : Expr) : Machine :=
  { m with control := .evaluate scope e, stack := f :: m.stack }

/-! ### Applications

The head is evaluated first, then the operands from left to right, then the body of a function.  Only the
last of these counts as a call.
-/

/-- Calls a function. -/
def enter (limit? : Option Nat) (m : Machine) (site : Option Token) (c : Closure)
    (vs : List Value) : Machine :=
  if vs.length = c.arity then
    match reached? limit? m.calls with
    | some limit => m.yield (.error (.callsTooDeep site limit))
    | none =>
      let (scope, s) := m.store.newFrame c.scope ((c.params.map Token.lexeme).zip vs)
      ⟨.evaluate scope c.body, .body :: m.stack, m.calls + 1, s⟩
  else m.yield (.error (.wrongOperandCount site (toString c.arity) vs.length))

/-- Applies a value to operands. -/
def apply (limit? : Option Nat) (m : Machine) (site : Option Token) (vs : List Value) :
    Value → Machine
  | .datum d => m.yield (.error (.notCallable site (Value.datum d).typeName))
  | .operator t => m.yield (Operator.apply t vs)
  | .function c => m.enter limit? site c vs

/-- Evaluates the operands that are left, then applies the value. -/
def operands (limit? : Option Nat) (m : Machine) (scope : ScopeId) (site : Option Token)
    (callee : Value) (before : List Value) : List Expr → Machine
  | [] => m.apply limit? site before callee
  | e :: es => m.ask (.operand scope site callee before es) scope e

/-- Goes on with an application once it is known what is applied. -/
def applied (limit? : Option Nat) (m : Machine) (scope : ScopeId) (site : Option Token)
    (es : List Expr) : Value → Machine
  | .datum d => m.yield (.error (.notCallable site (Value.datum d).typeName))
  | v => m.operands limit? scope site v [] es

/-! ### Forms

A form is begun here: its shape is checked, and the first part that it needs is asked for.  A `let` makes
its scope before that and goes on with it in the frame.
-/

/-- Evaluates expressions in order. -/
def sequence (m : Machine) (scope : ScopeId) (last : Value) : List Expr → Machine
  | [] => m.yield (.ok last)
  | e :: es => m.ask (.sequence scope es) scope e

/-- `(if test yes no)`, where `no` may be left out. -/
def branch (m : Machine) (scope : ScopeId) (keyword : Token) : List Expr → Machine
  | [test, yes] => m.ask (.test scope yes none) scope test
  | [test, yes, no] => m.ask (.test scope yes (some no)) scope test
  | es => m.yield (.error (.wrongOperandCount (some keyword) "2 or 3" es.length))

/-- Evaluates the part that a test has chosen. -/
def choose (m : Machine) (scope : ScopeId) (yes : Expr) (no? : Option Expr) (v : Value) : Machine :=
  if v.isTruthy then m.ask .chosen scope yes
  else
    match no? with
    | some no => m.ask .chosen scope no
    | none => m.yield (.ok .nil)

/-- `(and e...)`. -/
def conjunction (m : Machine) (scope : ScopeId) (last : Value) : List Expr → Machine
  | [] => m.yield (.ok last)
  | e :: es => m.ask (.conjunct scope es) scope e

/-- `(or e...)`. -/
def disjunction (m : Machine) (scope : ScopeId) (last : Value) : List Expr → Machine
  | [] => m.yield (.ok last)
  | e :: es => m.ask (.disjunct scope es) scope e

/-- `(not e)`. -/
def negation (m : Machine) (scope : ScopeId) (keyword : Token) : List Expr → Machine
  | [e] => m.ask .negated scope e
  | es => m.yield (.error (.wrongOperandCount (some keyword) "1" es.length))

/-- `(set name value)`. -/
def assignment (m : Machine) (scope : ScopeId) (keyword : Token) : List Expr → Machine
  | [.symbol name, e] => m.ask (.assigned scope name) scope e
  | [_, _] => m.yield (.error (.malformed keyword "expect variable name after 'set'"))
  | es => m.yield (.error (.wrongOperandCount (some keyword) "2" es.length))

/-- Evaluates the values that are left to bind, then the body of the `let` in its own scope. -/
def initialisers (m : Machine) (scope inner : ScopeId) (body : List Expr) :
    List (Token × Expr) → Machine
  | [] => m.sequence inner .nil body
  | b :: bs => m.ask (.initialiser scope inner b.1 bs body) scope b.2

/-- `(let ((name value)...) body...)`. -/
def bindIn (m : Machine) (scope : ScopeId) (keyword : Token) : List Expr → Machine
  | .list first others :: body =>
    match (first :: others).mapM binding? with
    | none => m.yield (.error (badBinding keyword))
    | some bs =>
      let (inner, s) := m.store.newChild scope
      { m with store := s }.initialisers scope inner body bs
  | _ => m.yield (.error (noBindings keyword))

/-- A form of a keyword. -/
def form (m : Machine) (scope : ScopeId) (keyword : Token) (es : List Expr) : Machine :=
  match keyword.kind with
  | .keyword .ifElse => m.branch scope keyword es
  | .keyword .begin => m.sequence scope .nil es
  | .keyword .bind => m.bindIn scope keyword es
  | .keyword .assign => m.assignment scope keyword es
  | .keyword .and => m.conjunction scope (.ofBool true) es
  | .keyword .or => m.disjunction scope (.ofBool false) es
  | .keyword .not => m.negation scope keyword es
  | _ => m.yield (.error (.unexpectedKeyword keyword))

/-! ### Steps

A step begins an expression or hands an outcome to the frame on top.  An error goes through one frame at a
time, so that the counter goes down at every call that it leaves.
-/

/-- Begins to evaluate an expression. -/
def start (m : Machine) (scope : ScopeId) : Expr → Machine
  | .datum d => m.yield (.ok (.datum d))
  | .symbol t => m.perform (valueOf scope t)
  | .operator t => m.yield (.ok (.operator t))
  | .keyword t => m.yield (.error (.unexpectedKeyword t))
  | .define name params body => m.perform do
    define scope name params body
    pure .nil
  | .list (.keyword t) es => m.form scope t es
  | .list head es => m.ask (.head scope head.token? es) scope head

/-- Goes on with the value that a frame has waited for. -/
def resume (limit? : Option Nat) (m : Machine) (v : Value) : Frame → Machine
  | .head scope site es => m.applied limit? scope site es v
  | .operand scope site callee before after =>
    m.operands limit? scope site callee (before ++ [v]) after
  | .test scope yes no? => m.choose scope yes no? v
  | .sequence scope after => m.sequence scope v after
  | .conjunct scope after =>
    if v.isTruthy then m.conjunction scope v after else m.yield (.ok v)
  | .disjunct scope after =>
    if v.isTruthy then m.yield (.ok v) else m.disjunction scope v after
  | .negated => m.yield (.ok (.ofBool (!v.isTruthy)))
  | .assigned scope name => m.perform do
    assign scope name v
    pure v
  | .initialiser scope inner name after body =>
    { m with store := m.store.define inner name.lexeme v }.initialisers scope inner body after
  | .body | .chosen => m.yield (.ok v)

/-- Hands an outcome to the topmost frame.  An error goes through to the next. -/
def settle (limit? : Option Nat) (m : Machine) (f : Frame) : Except EvalError Value → Machine
  | .ok v => m.resume limit? v f
  | .error e => m.yield (.error e)

/-- One step.  There is none once the outcome is that of the whole, nor can the counter go below
zero. -/
def step (limit? : Option Nat) (m : Machine) : Option Machine :=
  match m.control, m.stack with
  | .evaluate scope e, _ => some (m.start scope e)
  | .yield _, [] => none
  | .yield outcome, f :: stack =>
    if f.isBody then
      match m.calls with
      | 0 => none
      | calls + 1 => some { m with stack, calls }
    else some ({ m with stack }.settle limit? f outcome)

/-- Any number of steps. -/
abbrev Steps (limit? : Option Nat) : Machine → Machine → Prop :=
  Relation.ReflTransGen fun m m' => m.step limit? = some m'

/-- A machine that is about to evaluate an expression, with nothing that waits for it. -/
def ofExpr (calls : Nat) (scope : ScopeId) (e : Expr) (s : Store) : Machine :=
  ⟨.evaluate scope e, [], calls, s⟩

/-- A machine that is about to evaluate forms in order. -/
def ofForms (calls : Nat) (scope : ScopeId) (forms : List Expr) (s : Store) : Machine :=
  Machine.sequence ⟨.yield (.ok .nil), [], calls, s⟩ scope .nil forms

/-- A machine that has an outcome, with nothing that waits for it. -/
def ended (calls : Nat) (x : Except EvalError Value × Store) : Machine :=
  ⟨.yield x.1, [], calls, x.2⟩

theorem step_ended (limit? : Option Nat) (calls : Nat) (x : Except EvalError Value × Store) :
    (ended calls x).step limit? = none :=
  rfl

variable {limit? : Option Nat} {m m₁ m₂ : Machine}

/-- Of two machines that one machine comes to, one comes to the other. -/
theorem Steps.total (h₁ : Steps limit? m m₁) (h₂ : Steps limit? m m₂) :
    Steps limit? m₁ m₂ ∨ Steps limit? m₂ m₁ := by
  refine Relation.ReflTransGen.total_of_right_unique ?_ h₁ h₂
  intro m m₁ m₂ h₁ h₂
  rw [h₁] at h₂
  exact Option.some_inj.mp h₂

/-- A machine that can go no further comes to nothing but itself. -/
theorem Steps.eq_of_step_none (h : Steps limit? m m₁) (hm : m.step limit? = none) : m₁ = m := by
  obtain rfl | ⟨m', hstep, -⟩ := Relation.ReflTransGen.cases_head h
  · rfl
  · rw [hm] at hstep
    cases hstep

/-- Where steps end is where all steps lead to. -/
theorem Steps.to_end (h₁ : Steps limit? m m₁) (h₂ : Steps limit? m m₂)
    (hend : m₂.step limit? = none) : Steps limit? m₁ m₂ := by
  obtain h | h := h₁.total h₂
  · exact h
  · rw [h.eq_of_step_none hend]

theorem ended_inj {calls calls' : Nat} {x x' : Except EvalError Value × Store}
    (h : Steps limit? m (ended calls x)) (h' : Steps limit? m (ended calls' x')) :
    calls = calls' ∧ x = x' := by
  have heq := (h.to_end h' (step_ended ..)).eq_of_step_none (step_ended ..)
  unfold ended at heq
  obtain ⟨outcome, s⟩ := x
  obtain ⟨outcome', s'⟩ := x'
  simp only [Machine.mk.injEq, Control.yield.injEq] at heq
  obtain ⟨rfl, -, rfl, rfl⟩ := heq
  exact ⟨rfl, rfl⟩

/-- Whether steps go on for ever. -/
def Diverges (limit? : Option Nat) (m : Machine) : Prop :=
  ∃ run : Nat → Machine, run 0 = m ∧ ∀ n, (run n).step limit? = some (run (n + 1))

theorem Steps.not_diverges (h : Steps limit? m m₁) (hend : m₁.step limit? = none) :
    ¬ m.Diverges limit? := by
  induction h using Relation.ReflTransGen.head_induction_on with
  | refl =>
      rintro ⟨run, rfl, hrun⟩
      rw [hrun 0] at hend
      cases hend
  | head hstep _ ih =>
      rintro ⟨run, rfl, hrun⟩
      have hnext := hrun 0
      rw [hstep] at hnext
      exact ih ⟨fun n => run (n + 1), (Option.some_inj.mp hnext).symm, fun n => hrun (n + 1)⟩

/-- Steps come to an end or go on for ever. -/
theorem ends_or_diverges (limit? : Option Nat) (m : Machine) :
    (∃ m', Steps limit? m m' ∧ m'.step limit? = none) ∨ m.Diverges limit? := by
  refine or_iff_not_imp_left.mpr fun hend => ?_
  let next (m : Machine) : Machine := (m.step limit?).getD m
  have hnext (n : Nat) (h : Steps limit? m (next^[n] m)) :
      (next^[n] m).step limit? = some (next^[n + 1] m) := by
    rw [Function.iterate_succ_apply']
    rcases hstep : (next^[n] m).step limit? with _ | m'
    · exact absurd ⟨_, h, hstep⟩ hend
    · simp only [next, hstep, Option.getD_some]
  have hreach (n : Nat) : Steps limit? m (next^[n] m) := by
    induction n with
    | zero => exact .refl
    | succ n ih => exact ih.tail (hnext n ih)
  exact ⟨fun n => next^[n] m, rfl, fun n => hnext n (hreach n)⟩

end Machine

/-! ### The evaluator and the machine

`Comes` is stated for one part of the evaluator: steps lead from where the part is begun to its outcome,
with the stack and the counter as they were.  What waits below is not looked at, so parts are put
together by putting their runs one behind the other.
-/

open Machine

/-- Whether steps lead from `m'` to an outcome, in the store that goes with it, with the stack and
the counter of `m`. -/
def Comes (limit : Nat) (m m' : Machine) (x : Except EvalError Value × Store) : Prop :=
  Steps (some limit) m' { m with control := .yield x.1, store := x.2 }

namespace Comes

variable {limit : Nat} {m m' m'' : Machine}

/-- A step may be made first. -/
theorem step {x : Except EvalError Value × Store} (hstep : m'.step (some limit) = some m'')
    (h : Comes limit m m'' x) : Comes limit m m' x :=
  .head hstep h

theorem yield (m : Machine) (outcome : Except EvalError Value) :
    Comes limit m (m.yield outcome) (outcome, m.store) :=
  .refl

theorem perform (m : Machine) (x : M Value) : Comes limit m (m.perform x) (x m.store) :=
  .refl

/-- A part is evaluated, and what is done with its value is done by the frame that waits for it. -/
theorem part {f : Frame} {scope : ScopeId} {e : Expr} {x : M Value} {k : Value → M Value}
    (hf : f.isBody = false)
    (hpart : Comes limit { m with stack := f :: m.stack } (m.ask f scope e) (x m.store))
    (hrest : ∀ m' v, m'.stack = m.stack → m'.calls = m.calls →
      Comes limit m' (m'.resume (some limit) v f) (k v m'.store)) :
    Comes limit m (m.ask f scope e) ((x >>= k) m.store) := by
  rw [bind_apply]
  refine Relation.ReflTransGen.trans hpart ?_
  obtain ⟨outcome, s⟩ := x m.store
  let waits : Machine := { m with control := .yield outcome, store := s }
  refine Relation.ReflTransGen.head (b := waits.settle (some limit) f outcome) ?_ ?_
  · simp [waits, Machine.step, hf]
  · rcases outcome with e | v
    · exact .refl
    · exact hrest waits v rfl rfl

/-- What has been chosen is handed on as it is. -/
theorem chosen {scope : ScopeId} {e : Expr} {x : M Value}
    (hpart : Comes limit { m with stack := .chosen :: m.stack } (m.ask .chosen scope e)
      (x m.store)) : Comes limit m (m.ask .chosen scope e) (x m.store) := by
  have h := part (k := pure) rfl hpart fun m' v _ _ => yield m' (.ok v)
  rwa [bind_pure] at h

end Comes

/-- What entering a body means while so many calls are active: it is refused at the limit, and else
steps lead to its outcome. -/
structure Enters (limit : Nat) (enter? : Option Evaluator) (calls : Nat) : Prop where
  refused : enter? = none → limit ≤ calls
  room : ∀ enter, enter? = some enter → calls < limit
  comes : ∀ enter, enter? = some enter → ∀ m : Machine, m.calls = calls + 1 → ∀ scope e,
    Comes limit m { m with control := .evaluate scope e } (enter scope e m.store)

variable {limit calls : Nat} {enter? : Option Evaluator}

theorem comes_enter (h : Enters limit enter? calls) (site : Option Token) (c : Closure)
    (vs : List Value) (m : Machine) (hm : m.calls = calls) :
    Comes limit m (m.enter (some limit) site c vs) (call limit enter? site c vs m.store) := by
  subst hm
  unfold call Machine.enter
  by_cases harity : vs.length = c.arity
  · rw [if_pos harity, if_pos harity]
    rcases henter : enter? with _ | enter
    · rw [reached?_of_le (h.refused henter)]
      exact .yield m _
    · rw [reached?_eq_none_iff.mpr (h.room enter henter)]
      simp only [bind_apply, frame_apply]
      let bindings := (c.params.map Token.lexeme).zip vs
      let entered : Machine :=
        ⟨m.control, .body :: m.stack, m.calls + 1, (m.store.newFrame c.scope bindings).2⟩
      have hbody := h.comes enter henter entered rfl m.store.scopes.size c.body
      exact Relation.ReflTransGen.trans hbody (.single rfl)
  · rw [if_neg harity, if_neg harity]
    exact .yield m _

/-- Applies a value to operands that have been evaluated. -/
def applyTo (limit : Nat) (enter? : Option Evaluator) (site : Option Token) (callee : Value)
    (vs : List Value) : M Value :=
  match callee with
  | .datum d => throw (.notCallable site (Value.datum d).typeName)
  | .operator t => ExceptT.mk (pure (Operator.apply t vs))
  | .function c => call limit enter? site c vs

theorem comes_apply (h : Enters limit enter? calls) (site : Option Token) (callee : Value)
    (vs : List Value) (m : Machine) (hm : m.calls = calls) :
    Comes limit m (m.apply (some limit) site vs callee)
      (applyTo limit enter? site callee vs m.store) := by
  match callee with
  | .datum d => exact .yield m _
  | .operator t => exact .yield m _
  | .function c => exact comes_enter h site c vs m hm

theorem evaluate_list {scope : ScopeId} {head : Expr} (hhead : ∀ k, head ≠ .keyword k)
    (es : List Expr) :
    evaluate limit enter? scope (.list head es) =
      evaluate limit enter? scope head >>= fun v =>
        match v with
        | .datum d => throw (.notCallable head.token? (Value.datum d).typeName)
        | v => evaluateAll limit enter? scope es >>= applyTo limit enter? head.token? v := by
  rw [evaluate]
  · refine bind_congr fun v => ?_
    rcases v with d | t | c <;> rfl
  · exact hhead

theorem start_list (m : Machine) (scope : ScopeId) {head : Expr} (hhead : ∀ k, head ≠ .keyword k)
    (es : List Expr) :
    m.start scope (.list head es) = m.ask (.head scope head.token? es) scope head := by
  rw [Machine.start]
  exact hhead

mutual

/-- **Steps lead to the outcome of an evaluation.** -/
theorem comes_evaluate (h : Enters limit enter? calls) (scope : ScopeId) (e : Expr) (m : Machine)
    (hm : m.calls = calls) :
    Comes limit m { m with control := .evaluate scope e }
      (evaluate limit enter? scope e m.store) := by
  refine .step rfl ?_
  match e with
  | .datum d => exact .yield m _
  | .symbol t => exact .perform m _
  | .operator t => exact .yield m _
  | .keyword t => exact .yield m _
  | .define name params body => exact .perform m _
  | .list head es =>
      by_cases hhead : ∃ k, head = .keyword k
      · obtain ⟨k, rfl⟩ := hhead
        rw [evaluate]
        show Comes limit m (m.form scope k es) _
        unfold Machine.form
        generalize k.kind = kind
        match kind with
        | .keyword .ifElse => exact comes_branch h scope k es m hm
        | .keyword .begin => exact comes_sequence h scope .nil es m hm
        | .keyword .bind => exact comes_bindIn h scope k es m hm
        | .keyword .assign => exact comes_assignment h scope k es m hm
        | .keyword .and => exact comes_conjunction h scope (.ofBool true) es m hm
        | .keyword .or => exact comes_disjunction h scope (.ofBool false) es m hm
        | .keyword .not => exact comes_negation h scope k es m hm
        | .keyword .define | .leftParen | .rightParen | .operator _ | .number | .string | .symbol
        | .true | .nil | .endOfInput => exact .yield m _
      · have hhead : ∀ k, head ≠ .keyword k := fun k hk => hhead ⟨k, hk⟩
        rw [evaluate_list hhead]
        show Comes limit m (m.start scope (.list head es)) _
        rw [start_list m scope hhead]
        refine .part rfl (comes_evaluate h scope head _ hm) fun m' v _ hcalls => ?_
        match v with
        | .datum d => exact .yield m' _
        | .operator t =>
            exact comes_operands h scope head.token? (.operator t) [] es m' (hcalls.trans hm)
        | .function c =>
            exact comes_operands h scope head.token? (.function c) [] es m' (hcalls.trans hm)

theorem comes_operands (h : Enters limit enter? calls) (scope : ScopeId) (site : Option Token)
    (callee : Value) (before : List Value) (es : List Expr) (m : Machine) (hm : m.calls = calls) :
    Comes limit m (m.operands (some limit) scope site callee before es)
      ((evaluateAll limit enter? scope es >>= fun vs =>
        applyTo limit enter? site callee (before ++ vs)) m.store) := by
  match es with
  | [] =>
      rw [evaluateAll, pure_bind, List.append_nil]
      exact comes_apply h site callee before m hm
  | e :: es =>
      rw [evaluateAll]
      simp only [bind_assoc, pure_bind]
      refine .part rfl (comes_evaluate h scope e _ hm) fun m' v _ hcalls => ?_
      have hrest := comes_operands h scope site callee (before ++ [v]) es m' (hcalls.trans hm)
      simp only [List.append_assoc, List.singleton_append] at hrest
      exact hrest

theorem comes_sequence (h : Enters limit enter? calls) (scope : ScopeId) (last : Value)
    (es : List Expr) (m : Machine) (hm : m.calls = calls) :
    Comes limit m (m.sequence scope last es)
      (Eval.sequence limit enter? scope last es m.store) := by
  match es with
  | [] => exact .yield m _
  | e :: es =>
      rw [Eval.sequence]
      refine .part rfl (comes_evaluate h scope e _ hm) fun m' v _ hcalls => ?_
      exact comes_sequence h scope v es m' (hcalls.trans hm)

theorem comes_branch (h : Enters limit enter? calls) (scope : ScopeId) (k : Token)
    (es : List Expr) (m : Machine) (hm : m.calls = calls) :
    Comes limit m (m.branch scope k es) (Eval.branch limit enter? scope k es m.store) := by
  match es with
  | [test, yes] =>
      rw [Eval.branch]
      refine .part rfl (comes_evaluate h scope test _ hm) fun m' v _ hcalls => ?_
      show Comes limit m' (m'.choose scope yes none v) _
      unfold Machine.choose
      by_cases hv : v.isTruthy = true
      · rw [if_pos hv, if_pos hv]
        exact .chosen (comes_evaluate h scope yes _ (hcalls.trans hm))
      · rw [if_neg hv, if_neg hv]
        exact .yield m' _
  | [test, yes, no] =>
      rw [Eval.branch]
      refine .part rfl (comes_evaluate h scope test _ hm) fun m' v _ hcalls => ?_
      show Comes limit m' (m'.choose scope yes (some no) v) _
      unfold Machine.choose
      by_cases hv : v.isTruthy = true
      · rw [if_pos hv, if_pos hv]
        exact .chosen (comes_evaluate h scope yes _ (hcalls.trans hm))
      · rw [if_neg hv, if_neg hv]
        exact .chosen (comes_evaluate h scope no _ (hcalls.trans hm))
  | [] | [_] | _ :: _ :: _ :: _ :: _ => exact .yield m _

theorem comes_conjunction (h : Enters limit enter? calls) (scope : ScopeId) (last : Value)
    (es : List Expr) (m : Machine) (hm : m.calls = calls) :
    Comes limit m (m.conjunction scope last es)
      (Eval.conjunction limit enter? scope last es m.store) := by
  match es with
  | [] => exact .yield m _
  | e :: es =>
      rw [Eval.conjunction]
      refine .part rfl (comes_evaluate h scope e _ hm) fun m' v _ hcalls => ?_
      rw [Machine.resume]
      by_cases hv : v.isTruthy = true
      · rw [if_pos hv, if_pos hv]
        exact comes_conjunction h scope v es m' (hcalls.trans hm)
      · rw [if_neg hv, if_neg hv]
        exact .yield m' _

theorem comes_disjunction (h : Enters limit enter? calls) (scope : ScopeId) (last : Value)
    (es : List Expr) (m : Machine) (hm : m.calls = calls) :
    Comes limit m (m.disjunction scope last es)
      (Eval.disjunction limit enter? scope last es m.store) := by
  match es with
  | [] => exact .yield m _
  | e :: es =>
      rw [Eval.disjunction]
      refine .part rfl (comes_evaluate h scope e _ hm) fun m' v _ hcalls => ?_
      rw [Machine.resume]
      by_cases hv : v.isTruthy = true
      · rw [if_pos hv, if_pos hv]
        exact .yield m' _
      · rw [if_neg hv, if_neg hv]
        exact comes_disjunction h scope v es m' (hcalls.trans hm)

theorem comes_negation (h : Enters limit enter? calls) (scope : ScopeId) (k : Token)
    (es : List Expr) (m : Machine) (hm : m.calls = calls) :
    Comes limit m (m.negation scope k es) (Eval.negation limit enter? scope k es m.store) := by
  match es with
  | [e] => exact .part rfl (comes_evaluate h scope e _ hm) fun m' v _ _ => .yield m' _
  | [] | _ :: _ :: _ => exact .yield m _

theorem comes_assignment (h : Enters limit enter? calls) (scope : ScopeId) (k : Token)
    (es : List Expr) (m : Machine) (hm : m.calls = calls) :
    Comes limit m (m.assignment scope k es)
      (Eval.assignment limit enter? scope k es m.store) := by
  match es with
  | [.symbol name, e] =>
      exact .part rfl (comes_evaluate h scope e _ hm) fun m' v _ _ => .perform m' _
  | [.datum _, _] | [.operator _, _] | [.keyword _, _] | [.list _ _, _] | [.define _ _ _, _] =>
      exact .yield m _
  | [] | [_] | _ :: _ :: _ :: _ =>
      rw [Eval.assignment, Machine.assignment]
      · exact .yield m _
      all_goals simp

theorem comes_bindIn (h : Enters limit enter? calls) (scope : ScopeId) (k : Token)
    (es : List Expr) (m : Machine) (hm : m.calls = calls) :
    Comes limit m (m.bindIn scope k es) (Eval.bindIn limit enter? scope k es m.store) := by
  match es with
  | .list first others :: body =>
      rw [Eval.bindIn, Machine.bindIn]
      rcases hchecked : (first :: others).mapM binding? with _ | bs
      · exact .yield m _
      · obtain ⟨b, bs, rfl, hb, hbs⟩ := cons_of_bindings hchecked
        let made : Machine := { m with store := (m.store.newChild scope).2 }
        simp only
        rw [bind_apply, child_apply]
        refine comes_fill h scope m.store.scopes.size k bs body hb (fun m' hm' => ?_) made hm
        exact comes_fillAll h scope m.store.scopes.size k body hbs
          (comes_sequence h m.store.scopes.size .nil body) m' hm'
  | [] | .datum _ :: _ | .symbol _ :: _ | .operator _ :: _ | .keyword _ :: _
  | .define _ _ _ :: _ => exact .yield m _

theorem comes_fill (h : Enters limit enter? calls) (scope inner : ScopeId) (k : Token)
    (bs : List (Token × Expr)) (body : List Expr) {e : Expr} {b : Token × Expr}
    (hb : binding? e = some b) {rest : M Value}
    (hrest : ∀ m : Machine, m.calls = calls →
      Comes limit m (m.initialisers scope inner body bs) (rest m.store))
    (m : Machine) (hm : m.calls = calls) :
    Comes limit m (m.initialisers scope inner body (b :: bs))
      ((fill limit enter? scope k inner e >>= fun _ => rest) m.store) := by
  match e, hb with
  | .list (.symbol name) [e], rfl =>
      rw [fill]
      simp only [bind_assoc]
      refine .part rfl (comes_evaluate h scope e _ hm) fun m' v _ hcalls => ?_
      exact hrest { m' with store := m'.store.define inner name.lexeme v } (hcalls.trans hm)

theorem comes_fillAll (h : Enters limit enter? calls) (scope inner : ScopeId) (k : Token)
    (body : List Expr) {es : List Expr} {bs : List (Token × Expr)}
    (hbs : es.mapM binding? = some bs) {rest : M Value}
    (hrest : ∀ m : Machine, m.calls = calls →
      Comes limit m (m.sequence inner .nil body) (rest m.store))
    (m : Machine) (hm : m.calls = calls) :
    Comes limit m (m.initialisers scope inner body bs)
      ((fillAll limit enter? scope k inner es >>= fun _ => rest) m.store) := by
  match es, hbs with
  | [], rfl =>
      rw [fillAll, pure_bind]
      exact hrest m hm
  | e :: es, hbs =>
      obtain ⟨b, bs, rfl, hb, hbs⟩ := cons_of_bindings hbs
      rw [fillAll]
      simp only [bind_assoc]
      refine comes_fill h scope inner k bs body hb (fun m' hm' => ?_) m hm
      exact comes_fillAll h scope inner k body hbs hrest m' hm'

end

/-! ### Whole evaluations

The evaluator is told how many bodies may still be entered, the machine counts those that have been.  The
two add up to the limit, and that is kept by entering a body.
-/

/-- The evaluator and the counter agree on the bodies that may still be entered. -/
theorem enters_bodies {limit remaining calls : Nat} (h : calls + remaining = limit) :
    Enters limit (bodies limit remaining) calls := by
  induction remaining generalizing calls with
  | zero => exact ⟨fun _ => Nat.le_of_eq h.symm, by simp [bodies], by simp [bodies]⟩
  | succ remaining ih =>
      have hnext : Enters limit (bodies limit remaining) (calls + 1) := ih (by omega)
      refine ⟨by simp [bodies], fun _ _ => by omega, fun enter henter m hm scope e => ?_⟩
      obtain rfl : inCalls limit remaining = enter := Option.some_inj.mp henter
      rw [inCalls_eq]
      exact comes_evaluate hnext scope e m hm

/-- **An evaluation and its steps come to the same end.** -/
theorem steps_ofExpr {limit calls : Nat} (h : calls ≤ limit) (scope : ScopeId) (e : Expr)
    (s : Store) :
    Steps (some limit) (ofExpr calls scope e s)
      (ended calls (inCalls limit (limit - calls) scope e s)) := by
  rw [inCalls_eq]
  exact comes_evaluate (enters_bodies (Nat.add_sub_cancel' h)) scope e (ofExpr calls scope e s) rfl

/-- Forms are evaluated as the operands of `begin` are. -/
theorem run_eq_sequence (i : Interpreter) (forms : List Expr) :
    i.run forms = Eval.sequence i.maxCalls (bodies i.maxCalls i.maxCalls) i.globals .nil forms := by
  unfold Interpreter.run Interpreter.evaluateForms
  generalize Value.nil = last
  induction forms generalizing last with
  | nil => rfl
  | cons e forms ih =>
      rw [List.foldlM_cons, Eval.sequence, Interpreter.evaluate, inCalls_eq]
      exact bind_congr fun v => ih v

theorem steps_ofForms {limit calls : Nat} (h : calls ≤ limit) (globals : ScopeId)
    (forms : List Expr) (s : Store) :
    Steps (some limit) (ofForms calls globals forms s)
      (ended calls (Eval.sequence limit (bodies limit (limit - calls)) globals .nil forms s)) :=
  comes_sequence (enters_bodies (Nat.add_sub_cancel' h)) globals .nil forms
    ⟨.yield (.ok .nil), [], calls, s⟩ rfl

theorem steps_run (i : Interpreter) (forms : List Expr) (s : Store) :
    Steps (some i.maxCalls) (ofForms 0 i.globals forms s) (ended 0 (i.run forms s)) := by
  rw [run_eq_sequence]
  exact steps_ofForms (Nat.zero_le _) i.globals forms s

/-- What running the text of a program comes to: the outcome, the counter and the store. -/
inductive RunsSource (limit : Nat) (globals : ScopeId) (calls : Nat) (source : String)
    (s : Store) : Except Failure Value → Nat → Store → Prop where
  | unread {e : Failure} (h : readForms source = .error e) :
      RunsSource limit globals calls source s (.error e) calls s
  | ran {forms : List Expr} {outcome : Except EvalError Value} {calls' : Nat} {s' : Store}
      (h : readForms source = .ok forms)
      (hsteps : Steps (some limit) (ofForms calls globals forms s) (ended calls' (outcome, s'))) :
      RunsSource limit globals calls source s (outcome.mapError .eval) calls' s'

/-- A program can be run in steps, with no call active, and leaves no call active. -/
theorem runsSource_iff (i : Interpreter) (source : String) (s s' : Store)
    (r : Except Failure Value) (calls : Nat) :
    RunsSource i.maxCalls i.globals 0 source s r calls s' ↔
      calls = 0 ∧ i.runSource source s = (r, s') := by
  unfold Interpreter.runSource
  rcases hread : readForms source with e | forms
  · constructor
    · intro h
      rcases h with h | ⟨h, -⟩
      · rw [hread] at h
        obtain rfl := Except.error.inj h
        exact ⟨rfl, rfl⟩
      · rw [hread] at h
        cases h
    · rintro ⟨rfl, h⟩
      obtain ⟨rfl, rfl⟩ := Prod.mk.inj h
      exact .unread hread
  · have hends := steps_run i forms s
    simp only
    constructor
    · intro h
      rcases h with h | @⟨_, outcome, _, _, h, hsteps⟩
      · rw [hread] at h
        cases h
      · rw [hread] at h
        obtain rfl := Except.ok.inj h
        obtain ⟨rfl, hrun⟩ := ended_inj hsteps hends
        refine ⟨rfl, ?_⟩
        rw [← hrun]
        rcases outcome with e | v <;> rfl
    · rintro ⟨rfl, h⟩
      rcases hrun : i.run forms s with ⟨outcome, s₁⟩
      rw [hrun] at h hends
      have hruns := RunsSource.ran hread hends
      rcases outcome with e | v <;>
      · obtain ⟨rfl, rfl⟩ := Prod.mk.inj h
        exact hruns

end Eval

end SmallLisp
