/-
What is skipped cannot matter.

An evaluation does not come to all parts of an expression.  Operands are evaluated in order and only
as long as they have values; the operands of an application wait for a head that can be called, the
body of a `let` for all its values, and `if`, `and` and `or` choose.  Two expressions are the
`SameRun` if they are the same but for parts that the evaluation of the first one does not come to.
There they may be anything, and differ in number.

Whether a part is come to depends on what was evaluated before, so the relation follows the
evaluation: it speaks of one scope and one store, and what it asks of a part is asked in the store
that is left by the parts before, under the condition that they let it come that far.  It goes down
into every part that is evaluated, which makes it hold at any depth.

`inCalls_eq_of_sameRun` is by induction on the relation.  A row of operands is dealt with once, by
`SameValues`: the expressions of two rows come to the same, one by one, as far as the values permit,
which is all that any of the forms asks of them.
-/
import SmallLisp.Proofs.Eval.Forms

namespace SmallLisp

namespace Eval

open SmallLisp.Expr (binding letIn)

/-! ### The same but for what is skipped

One constructor for each kind of expression that has parts.  What is asked of a part is put behind a
premise, that the evaluation of the first expression comes to it; so for a part that is skipped nothing is
asked.
-/

/-- What holds of every value, so that a row goes on as long as there are values. -/
abbrev Always : Value → Prop :=
  fun _ => True

/-- Truthy values, with which `and` goes on. -/
abbrev Truthy : Value → Prop :=
  fun v => v.isTruthy = true

/-- Values that are not truthy, with which `or` goes on. -/
abbrev Falsy : Value → Prop :=
  fun v => v.isTruthy = false

mutual

/-- Expressions that are the same but for what is skipped when the first one is evaluated in a scope
of a store. -/
inductive SameRun (limit remaining : Nat) : ScopeId → Store → Expr → Expr → Prop where
  | refl {i : ScopeId} {s : Store} (e : Expr) : SameRun limit remaining i s e e
  /-- Operands are evaluated if the head has a value that can be called. -/
  | application {i : ScopeId} {s : Store} {head head' : Expr} {es es' : List Expr}
      (hhead : ∀ k, head ≠ .keyword k) (h : SameRun limit remaining i s head head')
      (hrow : ∀ v s', inCalls limit remaining i head s = (.ok v, s') → Callable v →
        SameRow limit remaining Always i s' es es') :
      SameRun limit remaining i s (.list head es) (.list head' es')
  /-- With a keyword that has no form nothing is evaluated. -/
  | noForm {i : ScopeId} {s : Store} {k : Token} {es es' : List Expr}
      (hk : ∀ word, k.kind = .keyword word → word = .define) :
      SameRun limit remaining i s (.list (.keyword k) es) (.list (.keyword k) es')
  /-- One branch of an `if` is evaluated. -/
  | branch {i : ScopeId} {s : Store} {k : Token} {test test' yes yes' : Expr} {no no' : List Expr}
      (hk : k.kind = .keyword .ifElse) (hno : no.length ≤ 1) (hno' : no'.length ≤ 1)
      (h : SameRun limit remaining i s test test')
      (hyes : ∀ v s', inCalls limit remaining i test s = (.ok v, s') → Truthy v →
        SameRun limit remaining i s' yes yes')
      (hrow : ∀ v s', inCalls limit remaining i test s = (.ok v, s') → Falsy v →
        SameRow limit remaining Always i s' no no') :
      SameRun limit remaining i s (.list (.keyword k) (test :: yes :: no))
        (.list (.keyword k) (test' :: yes' :: no'))
  | sequence {i : ScopeId} {s : Store} {k : Token} {es es' : List Expr}
      (hk : k.kind = .keyword .begin) (hrow : SameRow limit remaining Always i s es es') :
      SameRun limit remaining i s (.list (.keyword k) es) (.list (.keyword k) es')
  /-- `and` goes on with truthy values, and `or` with the others. -/
  | conjunction {i : ScopeId} {s : Store} {k : Token} {es es' : List Expr}
      (hk : k.kind = .keyword .and) (hrow : SameRow limit remaining Truthy i s es es') :
      SameRun limit remaining i s (.list (.keyword k) es) (.list (.keyword k) es')
  | disjunction {i : ScopeId} {s : Store} {k : Token} {es es' : List Expr}
      (hk : k.kind = .keyword .or) (hrow : SameRow limit remaining Falsy i s es es') :
      SameRun limit remaining i s (.list (.keyword k) es) (.list (.keyword k) es')
  | negation {i : ScopeId} {s : Store} {k : Token} {e e' : Expr} (hk : k.kind = .keyword .not)
      (h : SameRun limit remaining i s e e') :
      SameRun limit remaining i s (.list (.keyword k) [e]) (.list (.keyword k) [e'])
  | assignment {i : ScopeId} {s : Store} {k name : Token} {e e' : Expr}
      (hk : k.kind = .keyword .assign) (h : SameRun limit remaining i s e e') :
      SameRun limit remaining i s (.list (.keyword k) [.symbol name, e])
        (.list (.keyword k) [.symbol name, e'])
  /-- A `let` evaluates its body in its own scope, once all names have their values there. -/
  | letIn {i : ScopeId} {s : Store} {k : Token} {b b' : Token × Expr} {bs bs' : List (Token × Expr)}
      {body body' : List Expr} (hk : k.IsBind)
      (hbindings : SameBindings limit remaining i s.scopes.size (s.newChild i).2 (b :: bs)
        (b' :: bs'))
      (hbody : ∀ s', fillAll limit (bodies limit remaining) i k s.scopes.size
        ((b :: bs).map binding) (s.newChild i).2 = (.ok (), s') →
          SameRow limit remaining Always s.scopes.size s' body body') :
      SameRun limit remaining i s (letIn k b bs body) (letIn k b' bs' body')

/-- `SameRun` for expressions that are evaluated one after the other, as long as the values permit
it. -/
inductive SameRow (limit remaining : Nat) :
    (Value → Prop) → ScopeId → Store → List Expr → List Expr → Prop where
  | nil {permits : Value → Prop} {i : ScopeId} {s : Store} :
      SameRow limit remaining permits i s [] []
  | cons {permits : Value → Prop} {i : ScopeId} {s : Store} {e e' : Expr} {es es' : List Expr}
      (h : SameRun limit remaining i s e e')
      (hrest : ∀ v s', inCalls limit remaining i e s = (.ok v, s') → permits v →
        SameRow limit remaining permits i s' es es') :
      SameRow limit remaining permits i s (e :: es) (e' :: es')

/-- `SameRun` for expressions that are evaluated one after the other, with the names that get their
values in another scope.  Where there is no value, there is no use for the name either. -/
inductive SameBindings (limit remaining : Nat) :
    ScopeId → ScopeId → Store → List (Token × Expr) → List (Token × Expr) → Prop where
  | nil {i inner : ScopeId} {s : Store} : SameBindings limit remaining i inner s [] []
  | cons {i inner : ScopeId} {s : Store} {b b' : Token × Expr} {bs bs' : List (Token × Expr)}
      (h : SameRun limit remaining i s b.2 b'.2)
      (hname : ∀ v s', inCalls limit remaining i b.2 s = (.ok v, s') → b'.1 = b.1)
      (hrest : ∀ v s', inCalls limit remaining i b.2 s = (.ok v, s') →
        SameBindings limit remaining i inner (s'.define inner b.1.lexeme v) bs bs') :
      SameBindings limit remaining i inner s (b :: bs) (b' :: bs')

end

variable {limit remaining : Nat} {i : ScopeId} {s : Store}

/-- What is the same begins with the same token. -/
theorem SameRun.token?_eq {e e' : Expr} (h : SameRun limit remaining i s e e') :
    e'.token? = e.token? := by
  match h with
  | .refl _ => rfl
  | .application _ h _ => exact h.token?_eq
  | .noForm .. | .branch .. | .sequence .. | .conjunction .. | .disjunction .. | .negation ..
  | .assignment .. | .letIn .. => rfl

/-- A keyword is the same as nothing but itself. -/
theorem SameRun.ne_keyword {e e' : Expr} (h : SameRun limit remaining i s e e')
    (he : ∀ k, e ≠ .keyword k) : ∀ k, e' ≠ .keyword k := by
  rintro k rfl
  cases h
  exact he k rfl

/-- What comes after expressions of which one fails is skipped. -/
theorem SameRow.append_of_error {es : List Expr} {s s' : Store} {err : EvalError}
    (h : evaluateAll limit (bodies limit remaining) i es s = (.error err, s'))
    (rest rest' : List Expr) :
    SameRow limit remaining Always i s (es ++ rest) (es ++ rest') := by
  induction es generalizing s with
  | nil => cases h
  | cons e es ih =>
      refine .cons (.refl e) fun v s₁ hv _ => ?_
      rw [inCalls_eq] at hv
      rw [evaluateAll, bind_apply, hv] at h
      simp only [bind_apply] at h
      rcases hvs : evaluateAll limit (bodies limit remaining) i es s₁ with ⟨err' | vs, s₂⟩
      · rw [hvs] at h
        cases h
        exact ih hvs
      · rw [hvs] at h
        cases h

/-! ### Rows

A row stops at an error, and `and` and `or` stop at a value as well.  The condition to go on is a parameter,
so that the same relation serves all forms with operands.
-/

/-- Rows of expressions that come to the same, one by one, as far as the values permit. -/
inductive SameValues (limit remaining : Nat) (permits : Value → Prop) (i : ScopeId) :
    Store → List Expr → List Expr → Prop where
  | nil {s : Store} : SameValues limit remaining permits i s [] []
  | cons {s : Store} {e e' : Expr} {es es' : List Expr}
      (h : inCalls limit remaining i e' s = inCalls limit remaining i e s)
      (hrest : ∀ v s', inCalls limit remaining i e s = (.ok v, s') → permits v →
        SameValues limit remaining permits i s' es es') :
      SameValues limit remaining permits i s (e :: es) (e' :: es')

namespace SameValues

variable {permits : Value → Prop} {es es' : List Expr}

theorem evaluateAll_eq (h : SameValues limit remaining Always i s es es') :
    evaluateAll limit (bodies limit remaining) i es' s =
      evaluateAll limit (bodies limit remaining) i es s := by
  induction h with
  | nil => rfl
  | @cons s e e' es es' h _ ih =>
      rw [inCalls_eq] at h ih
      rw [evaluateAll, evaluateAll, bind_apply, bind_apply, h]
      rcases hv : evaluate limit (bodies limit remaining) i e s with ⟨_ | v, s'⟩
      · rfl
      · simp only [bind_apply, ih v s' hv trivial]

theorem sequence_eq (h : SameValues limit remaining Always i s es es') (last : Value) :
    sequence limit (bodies limit remaining) i last es' s =
      sequence limit (bodies limit remaining) i last es s := by
  induction h generalizing last with
  | nil => rfl
  | @cons s e e' es es' h _ ih =>
      rw [inCalls_eq] at h ih
      rw [sequence, sequence, bind_apply, bind_apply, h]
      rcases hv : evaluate limit (bodies limit remaining) i e s with ⟨_ | v, s'⟩
      · rfl
      · exact ih v s' hv trivial v

theorem conjunction_eq (h : SameValues limit remaining Truthy i s es es') (last : Value) :
    conjunction limit (bodies limit remaining) i last es' s =
      conjunction limit (bodies limit remaining) i last es s := by
  induction h generalizing last with
  | nil => rfl
  | @cons s e e' es es' h _ ih =>
      rw [inCalls_eq] at h ih
      rw [conjunction, conjunction, bind_apply, bind_apply, h]
      rcases hv : evaluate limit (bodies limit remaining) i e s with ⟨_ | v, s'⟩
      · rfl
      · cases htruthy : v.isTruthy
        · simp only [htruthy, Bool.false_eq_true, if_false]
        · simp only [htruthy, if_true]
          exact ih v s' hv htruthy v

theorem disjunction_eq (h : SameValues limit remaining Falsy i s es es') (last : Value) :
    disjunction limit (bodies limit remaining) i last es' s =
      disjunction limit (bodies limit remaining) i last es s := by
  induction h generalizing last with
  | nil => rfl
  | @cons s e e' es es' h _ ih =>
      rw [inCalls_eq] at h ih
      rw [disjunction, disjunction, bind_apply, bind_apply, h]
      rcases hv : evaluate limit (bodies limit remaining) i e s with ⟨_ | v, s'⟩
      · rfl
      · cases htruthy : v.isTruthy
        · simp only [htruthy, Bool.false_eq_true, if_false]
          exact ih v s' hv htruthy v
        · simp only [htruthy, if_true]

end SameValues

/-! ### Forms

For each form: if its parts come to the same, as far as it evaluates them, so does the form.
-/

section

variable {k : Token}

theorem application_eq {head head' : Expr} {es es' : List Expr} (hhead : ∀ k, head ≠ .keyword k)
    (hhead' : ∀ k, head' ≠ .keyword k) (htoken : head'.token? = head.token?)
    (h : inCalls limit remaining i head' s = inCalls limit remaining i head s)
    (hrow : ∀ v s', inCalls limit remaining i head s = (.ok v, s') → Callable v →
      SameValues limit remaining Always i s' es es') :
    inCalls limit remaining i (.list head' es') s =
      inCalls limit remaining i (.list head es) s := by
  rw [inCalls_eq] at h hrow ⊢
  rw [evaluate_list hhead, evaluate_list hhead', bind_apply, bind_apply, h, htoken]
  rcases hv : evaluate limit (bodies limit remaining) i head s with ⟨_ | v, s'⟩
  · rfl
  · cases v with
    | datum d => rfl
    | operator t => simp only [bind_apply, (hrow _ s' hv trivial).evaluateAll_eq]
    | function c => simp only [bind_apply, (hrow _ s' hv trivial).evaluateAll_eq]

theorem noForm_eq (hk : ∀ word, k.kind = .keyword word → word = .define) (es es' : List Expr) :
    inCalls limit remaining i (.list (.keyword k) es') s =
      inCalls limit remaining i (.list (.keyword k) es) s := by
  rw [inCalls_eq, evaluate_noForm hk, evaluate_noForm hk]

/-- An `if` evaluates a branch that is left out as it evaluates a sequence of no forms. -/
theorem branch_eq_sequence {enter? : Option Evaluator} {test yes : Expr} {no : List Expr}
    (hno : no.length ≤ 1) :
    branch limit enter? i k (test :: yes :: no) =
      (do
        let v ← evaluate limit enter? i test
        if v.isTruthy then evaluate limit enter? i yes else sequence limit enter? i .nil no) := by
  match no, hno with
  | [], _ => rw [branch]; rfl
  | [no], _ =>
      rw [branch]
      simp only [sequence, bind_pure]

theorem branch_eq (hk : k.kind = .keyword .ifElse) {test test' yes yes' : Expr}
    {no no' : List Expr} (hno : no.length ≤ 1) (hno' : no'.length ≤ 1)
    (h : inCalls limit remaining i test' s = inCalls limit remaining i test s)
    (hyes : ∀ v s', inCalls limit remaining i test s = (.ok v, s') → Truthy v →
      inCalls limit remaining i yes' s' = inCalls limit remaining i yes s')
    (hrow : ∀ v s', inCalls limit remaining i test s = (.ok v, s') → Falsy v →
      SameValues limit remaining Always i s' no no') :
    inCalls limit remaining i (.list (.keyword k) (test' :: yes' :: no')) s =
      inCalls limit remaining i (.list (.keyword k) (test :: yes :: no)) s := by
  rw [inCalls_eq] at h hyes hrow ⊢
  rw [evaluate_if hk, evaluate_if hk, branch_eq_sequence hno, branch_eq_sequence hno', bind_apply,
    bind_apply, h]
  rcases hv : evaluate limit (bodies limit remaining) i test s with ⟨_ | v, s'⟩
  · rfl
  · cases htruthy : v.isTruthy
    · simp only [htruthy, Bool.false_eq_true, if_false]
      exact (hrow v s' hv htruthy).sequence_eq .nil
    · simp only [htruthy, if_true]
      exact hyes v s' hv htruthy

theorem begin_eq (hk : k.kind = .keyword .begin) {es es' : List Expr}
    (h : SameValues limit remaining Always i s es es') :
    inCalls limit remaining i (.list (.keyword k) es') s =
      inCalls limit remaining i (.list (.keyword k) es) s := by
  rw [inCalls_eq, evaluate_begin hk, evaluate_begin hk]
  exact h.sequence_eq .nil

theorem and_eq (hk : k.kind = .keyword .and) {es es' : List Expr}
    (h : SameValues limit remaining Truthy i s es es') :
    inCalls limit remaining i (.list (.keyword k) es') s =
      inCalls limit remaining i (.list (.keyword k) es) s := by
  rw [inCalls_eq, evaluate_and hk, evaluate_and hk]
  exact h.conjunction_eq _

theorem or_eq (hk : k.kind = .keyword .or) {es es' : List Expr}
    (h : SameValues limit remaining Falsy i s es es') :
    inCalls limit remaining i (.list (.keyword k) es') s =
      inCalls limit remaining i (.list (.keyword k) es) s := by
  rw [inCalls_eq, evaluate_or hk, evaluate_or hk]
  exact h.disjunction_eq _

theorem not_eq (hk : k.kind = .keyword .not) {e e' : Expr}
    (h : inCalls limit remaining i e' s = inCalls limit remaining i e s) :
    inCalls limit remaining i (.list (.keyword k) [e']) s =
      inCalls limit remaining i (.list (.keyword k) [e]) s := by
  rw [inCalls_eq] at h ⊢
  rw [evaluate_not hk, evaluate_not hk, negation, negation, bind_apply, bind_apply, h]

theorem assign_eq (hk : k.kind = .keyword .assign) {name : Token} {e e' : Expr}
    (h : inCalls limit remaining i e' s = inCalls limit remaining i e s) :
    inCalls limit remaining i (.list (.keyword k) [.symbol name, e']) s =
      inCalls limit remaining i (.list (.keyword k) [.symbol name, e]) s := by
  rw [inCalls_eq] at h ⊢
  rw [evaluate_assign hk, evaluate_assign hk, assignment, assignment, bind_apply, bind_apply, h]

theorem fillAll_eq {inner : ScopeId} {b b' : Token × Expr} {bs bs' : List (Token × Expr)}
    (h : inCalls limit remaining i b'.2 s = inCalls limit remaining i b.2 s)
    (hname : ∀ v s', inCalls limit remaining i b.2 s = (.ok v, s') → b'.1 = b.1)
    (hrest : ∀ v s', inCalls limit remaining i b.2 s = (.ok v, s') →
      fillAll limit (bodies limit remaining) i k inner (bs'.map binding)
          (s'.define inner b.1.lexeme v) =
        fillAll limit (bodies limit remaining) i k inner (bs.map binding)
          (s'.define inner b.1.lexeme v)) :
    fillAll limit (bodies limit remaining) i k inner ((b' :: bs').map binding) s =
      fillAll limit (bodies limit remaining) i k inner ((b :: bs).map binding) s := by
  rw [inCalls_eq] at h hname hrest
  rw [fillAll_binding_apply, fillAll_binding_apply, h]
  rcases hv : evaluate limit (bodies limit remaining) i b.2 s with ⟨_ | v, s'⟩
  · rfl
  · simp only [hname v s' hv, hrest v s' hv]

theorem letIn_eq (hk : k.IsBind) {b b' : Token × Expr} {bs bs' : List (Token × Expr)}
    {body body' : List Expr}
    (h : fillAll limit (bodies limit remaining) i k s.scopes.size ((b' :: bs').map binding)
        (s.newChild i).2 =
      fillAll limit (bodies limit remaining) i k s.scopes.size ((b :: bs).map binding)
        (s.newChild i).2)
    (hbody : ∀ s', fillAll limit (bodies limit remaining) i k s.scopes.size
      ((b :: bs).map binding) (s.newChild i).2 = (.ok (), s') →
        SameValues limit remaining Always s.scopes.size s' body body') :
    inCalls limit remaining i (letIn k b' bs' body') s =
      inCalls limit remaining i (letIn k b bs body) s := by
  rw [inCalls_eq, evaluate_letIn_apply hk, evaluate_letIn_apply hk, h]
  rcases hfilled : fillAll limit (bodies limit remaining) i k s.scopes.size
    ((b :: bs).map binding) (s.newChild i).2 with ⟨_ | _, s'⟩
  · rfl
  · exact (hbody s' hfilled).sequence_eq .nil

end

/-! ### Evaluations

The recursion is on the relation, which is as deep as the expression is.  Bodies of functions are no part of
it, since they are not replaced.
-/

mutual

/-- Expressions that are the same but for what is skipped come to the same. -/
theorem SameRun.inCalls_eq {i : ScopeId} {s : Store} {e e' : Expr}
    (h : SameRun limit remaining i s e e') :
    inCalls limit remaining i e' s = inCalls limit remaining i e s := by
  match h with
  | .refl _ => rfl
  | .application hhead h hrow =>
      exact application_eq hhead (h.ne_keyword hhead) h.token?_eq h.inCalls_eq
        fun v s' hv hcall => (hrow v s' hv hcall).sameValues
  | .noForm hk => exact noForm_eq hk _ _
  | .branch hk hno hno' h hyes hrow =>
      exact branch_eq hk hno hno' h.inCalls_eq (fun v s' hv hv' => (hyes v s' hv hv').inCalls_eq)
        fun v s' hv hv' => (hrow v s' hv hv').sameValues
  | .sequence hk hrow => exact begin_eq hk hrow.sameValues
  | .conjunction hk hrow => exact and_eq hk hrow.sameValues
  | .disjunction hk hrow => exact or_eq hk hrow.sameValues
  | .negation hk h => exact not_eq hk h.inCalls_eq
  | .assignment hk h => exact assign_eq hk h.inCalls_eq
  | .letIn hk hbindings hbody =>
      exact letIn_eq hk (hbindings.fillAll_eq _) fun s' hfilled => (hbody s' hfilled).sameValues

/-- Rows that are the same but for what is skipped come to the same, one by one. -/
theorem SameRow.sameValues {permits : Value → Prop} {i : ScopeId} {s : Store} {es es' : List Expr}
    (h : SameRow limit remaining permits i s es es') :
    SameValues limit remaining permits i s es es' := by
  match h with
  | .nil => exact .nil
  | .cons h hrest =>
      exact .cons h.inCalls_eq fun v s' hv hpermits => (hrest v s' hv hpermits).sameValues

/-- Bindings that are the same but for what is skipped fill a scope with the same. -/
theorem SameBindings.fillAll_eq {i inner : ScopeId} {s : Store} {bs bs' : List (Token × Expr)}
    (h : SameBindings limit remaining i inner s bs bs') (k : Token) :
    fillAll limit (bodies limit remaining) i k inner (bs'.map binding) s =
      fillAll limit (bodies limit remaining) i k inner (bs.map binding) s := by
  match h with
  | .nil => rfl
  | .cons h hname hrest =>
      exact Eval.fillAll_eq h.inCalls_eq hname fun v s' hv => (hrest v s' hv).fillAll_eq k

end

/-- **What is skipped cannot matter.**  Expressions that are the same but for what is skipped when
the first one is evaluated come to the same outcome and leave the same store, however many calls may
be entered.  So do programs. -/
theorem skipped_irrelevant :
    (∀ limit remaining i s e e', SameRun limit remaining i s e e' →
      inCalls limit remaining i e' s = inCalls limit remaining i e s) ∧
    ∀ (interpreter : Interpreter) (s : Store) (forms forms' : List Expr),
      SameRow interpreter.maxCalls interpreter.maxCalls Always interpreter.globals s forms forms' →
        interpreter.run forms' s = interpreter.run forms s := by
  refine ⟨fun _ _ _ _ _ _ h => h.inCalls_eq, fun interpreter s forms forms' h => ?_⟩
  rw [run_eq_sequence, run_eq_sequence]
  exact h.sameValues.sequence_eq .nil

/-- A `begin` with an `and` that its first operand decides, and with a sum of which an operand is not
bound.  What comes behind these is left out, and so is a form behind the `begin`. -/
theorem skipped_irrelevant_nested :
    let x : Expr := .symbol ⟨.symbol, "x", none, 1⟩
    let call : Expr := .list x [x]
    let conj (es : List Expr) : Expr := .list (.keyword ⟨.keyword .and, "and", none, 1⟩) es
    let sum (es : List Expr) : Expr := .list (.operator ⟨.operator .plus, "+", none, 1⟩) es
    let e : Expr := .list (.keyword ⟨.keyword .begin, "begin", none, 1⟩)
      [conj [.datum (.bool false), call], sum [x, call, call], call]
    let e' : Expr := .list (.keyword ⟨.keyword .begin, "begin", none, 1⟩)
      [conj [.datum (.bool false)], sum [x]]
    let s := Store.empty.newRoot.2
    SameRun 5 5 0 s e e' ∧ inCalls 5 5 0 e' s = inCalls 5 5 0 e s ∧
      SameRow 5 5 Always 0 s [e, call] [e'] ∧
      Interpreter.run ⟨0, 5⟩ [e'] s = Interpreter.run ⟨0, 5⟩ [e, call] s := by
  intro x call conj sum e e' s
  have hconj : SameRun 5 5 0 s (conj [.datum (.bool false), call]) (conj [.datum (.bool false)]) :=
    .conjunction rfl (.cons (.refl _) (by rintro v s' ⟨⟩ ⟨⟩))
  have hsum : SameRun 5 5 0 s (sum [x, call, call]) (sum [x]) := by
    refine .application (by simp) (.refl _) fun v s' hv _ => ?_
    cases hv
    have hfails : evaluateAll 5 (bodies 5 5) 0 [x] s =
        (.error (.undefinedVariable ⟨.symbol, "x", none, 1⟩), s) := rfl
    exact SameRow.append_of_error hfails [call, call] []
  have hrun : SameRun 5 5 0 s e e' := by
    refine .sequence rfl (.cons hconj fun v s' hv _ => ?_)
    cases hv
    exact .cons hsum (by rintro v s' ⟨⟩)
  have hrow : SameRow 5 5 Always 0 s [e, call] [e'] := .cons hrun (by rintro v s' ⟨⟩)
  obtain ⟨hexpr, hprogram⟩ := skipped_irrelevant
  exact ⟨hrun, hexpr _ _ _ _ _ _ hrun, hrow, hprogram ⟨0, 5⟩ s _ _ hrow⟩

end Eval

end SmallLisp
