/-
A form that is not well formed fails before it does anything.

Each form checks its own shape, and says of itself what is wrong.  `Malformed` gathers what can be
wrong with a list that begins with a keyword: `if`, `set` and `not` with another number of operands
than they need, `set` with something else than a name to assign to, `let` without bindings or with
one among them, at any place, that is not a name with an expression, and `define`, which begins no
form.

None of these lists is evaluated in any part.  It is over in one step of the machine, which hands on
the error and leaves everything else as it is: the store with all its scopes, the counter of active
calls, what waits for the outcome.  Conversely no other list that begins with a keyword is over with
an error in one step, so that nothing is left out.

A `set` that is well formed may still fail, where its name is bound nowhere.  That can only be known
after the value, and then it leaves the store to which the value has led.
-/
import SmallLisp.Proofs.Eval.Forms

namespace SmallLisp

namespace Eval

open SmallLisp.Expr (binding)

/-! ### What can be wrong with a form

The list is written down as the language has it: the conditions are about the number and the shape of
operands and do not mention the evaluator.
-/

/-- Whether a form of a keyword is malformed, and what is said of it. -/
inductive Malformed (k : Token) : List Expr → EvalError → Prop where
  | ifCount {es : List Expr} (hk : k.kind = .keyword .ifElse) (htwo : es.length ≠ 2)
      (hthree : es.length ≠ 3) : Malformed k es (.wrongOperandCount (some k) "2 or 3" es.length)
  | noBindings {es : List Expr} (hk : k.kind = .keyword .bind)
      (hlist : ∀ first others, es.head? ≠ some (.list first others)) :
      Malformed k es (.malformed k "expect binding list after 'let'")
  | badBinding {first b : Expr} {others body : List Expr} (hk : k.kind = .keyword .bind)
      (hb : b ∈ first :: others) (hshape : ∀ name init, b ≠ .list (.symbol name) [init]) :
      Malformed k (.list first others :: body)
        (.malformed k "each 'let' binding must be (name value)")
  | setCount {es : List Expr} (hk : k.kind = .keyword .assign) (hcount : es.length ≠ 2) :
      Malformed k es (.wrongOperandCount (some k) "2" es.length)
  | setTarget {target value : Expr} (hk : k.kind = .keyword .assign)
      (htarget : ∀ name, target ≠ .symbol name) :
      Malformed k [target, value] (.malformed k "expect variable name after 'set'")
  | notCount {es : List Expr} (hk : k.kind = .keyword .not) (hcount : es.length ≠ 1) :
      Malformed k es (.wrongOperandCount (some k) "1" es.length)
  | noForm {es : List Expr} (hk : ∀ word, k.kind = .keyword word → word = .define) :
      Malformed k es (.unexpectedKeyword k)

variable {k : Token} {es : List Expr} {e : EvalError}

/-- The keyword is where a malformed form is complained of. -/
theorem Malformed.token? (h : Malformed k es e) : e.token? = some k := by
  cases h <;> rfl

theorem binding?_eq_none_iff {b : Expr} :
    binding? b = none ↔ ∀ name init, b ≠ .list (.symbol name) [init] := by
  unfold binding?
  split
  · rename_i name init
    exact ⟨fun h => (by cases h), fun h => absurd rfl (h name init)⟩
  · rename_i hshape
    exact ⟨fun _ => hshape, fun _ => rfl⟩

/-- The check of the bindings looks at all of them. -/
theorem bindings_eq_none_iff {bs : List Expr} :
    bs.mapM binding? = none ↔ ∃ b ∈ bs, ∀ name init, b ≠ .list (.symbol name) [init] := by
  simp only [← binding?_eq_none_iff]
  induction bs with
  | nil => simp
  | cons b bs ih =>
      rw [List.mapM_cons, List.exists_mem_cons_iff, ← ih]
      cases binding? b <;> cases bs.mapM binding? <;> simp

/-! ### The evaluator

In each case the evaluator ends before it has evaluated anything.  An assignment to an unbound name is the one
complaint that comes later.
-/

/-- A malformed form does nothing but complain. -/
theorem evaluate_malformed {limit : Nat} {enter? : Option Evaluator} {i : ScopeId}
    (h : Malformed k es e) : evaluate limit enter? i (.list (.keyword k) es) = throw e := by
  cases h with
  | ifCount hk htwo hthree =>
      rw [evaluate_if hk, branch.eq_def]
      split
      · exact absurd rfl htwo
      · exact absurd rfl hthree
      · rfl
  | noBindings hk hlist =>
      rw [evaluate_bind hk, bindIn.eq_def]
      split
      · rename_i first others body
        exact absurd rfl (hlist first others)
      · rfl
  | badBinding hk hb hshape =>
      rw [evaluate_bind hk, bindIn, bindings_eq_none_iff.mpr ⟨_, hb, hshape⟩]
      rfl
  | setCount hk hcount =>
      rw [evaluate_assign hk, assignment.eq_def]
      split
      · exact absurd rfl hcount
      · exact absurd rfl hcount
      · rfl
  | setTarget hk htarget =>
      rw [evaluate_assign hk, assignment.eq_def]
      split
      · rename_i name value heq
        exact absurd (List.cons.inj heq).1 (htarget name)
      · rfl
      · rename_i hother
        exact absurd rfl (hother _ _)
  | notCount hk hcount =>
      rw [evaluate_not hk, negation.eq_def]
      split
      · exact absurd rfl hcount
      · rfl
  | noForm hk => exact evaluate_noForm hk es

/-- An assignment to a name that is bound nowhere leaves the store to which its value has led. -/
theorem inCalls_assign_unbound {limit remaining : Nat} {scope : ScopeId} {name : Token}
    {value : Expr} {v : Value} {s s' : Store} (hk : k.kind = .keyword .assign)
    (hv : inCalls limit remaining scope value s = (.ok v, s'))
    (hfree : ∀ i ∈ s'.chain scope, s'.bindsLocally i name.lexeme = false) :
    inCalls limit remaining scope (.list (.keyword k) [.symbol name, value]) s =
      (.error (.undefinedVariable name), s') := by
  have hnone : s'.assign? scope name.lexeme v = none := by
    rw [Store.assign?, Store.resolve, Option.map_eq_none_iff, List.find?_eq_none]
    exact fun i hi => Bool.eq_false_iff.mp (hfree i hi)
  rw [inCalls_eq] at hv ⊢
  rw [evaluate_assign hk, assignment, bind_apply, hv]
  simp only [bind_apply, assign_apply, hnone]

/-! ### The machine

The same for single steps, and the converse: a form that asks for a value, or hands one on, is not malformed.
-/

namespace Machine

variable {m : Machine} {scope : ScopeId}

theorem yield_error_inj {e' : EvalError} (h : m.yield (.error e) = m.yield (.error e')) :
    e = e' :=
  Except.error.inj (Control.yield.inj (congrArg Machine.control h))

theorem yield_ok_ne_error {v : Value} : m.yield (.ok v) ≠ m.yield (.error e) := by
  intro h
  cases congrArg Machine.control h

theorem ask_ne_yield {m' : Machine} {f : Frame} {i : ScopeId} {x : Expr}
    {outcome : Except EvalError Value} : m'.ask f i x ≠ m.yield outcome := by
  intro h
  cases congrArg Machine.control h

theorem form_of_malformed (h : Malformed k es e) : m.form scope k es = m.yield (.error e) := by
  cases h with
  | ifCount hk htwo hthree =>
      simp only [form, hk]
      unfold branch
      split
      · exact absurd rfl htwo
      · exact absurd rfl hthree
      · rfl
  | noBindings hk hlist =>
      simp only [form, hk]
      unfold bindIn
      split
      · rename_i first others body
        exact absurd rfl (hlist first others)
      · rfl
  | badBinding hk hb hshape =>
      simp only [form, hk, bindIn]
      rw [bindings_eq_none_iff.mpr ⟨_, hb, hshape⟩]
      rfl
  | setCount hk hcount =>
      simp only [form, hk]
      unfold assignment
      split
      · exact absurd rfl hcount
      · exact absurd rfl hcount
      · rfl
  | setTarget hk htarget =>
      simp only [form, hk]
      unfold assignment
      split
      · rename_i name value heq
        exact absurd (List.cons.inj heq).1 (htarget name)
      · rfl
      · rename_i hother
        exact absurd rfl (hother _ _)
  | notCount hk hcount =>
      simp only [form, hk]
      unfold negation
      split
      · exact absurd rfl hcount
      · rfl
  | noForm hk =>
      unfold form
      cases hkind : k.kind with
      | keyword word =>
          obtain rfl := hk word hkind
          rfl
      | _ => rfl

theorem malformed_of_branch (hk : k.kind = .keyword .ifElse)
    (h : m.branch scope k es = m.yield (.error e)) : Malformed k es e := by
  unfold branch at h
  split at h
  · exact absurd h ask_ne_yield
  · exact absurd h ask_ne_yield
  · rename_i htwo hthree
    cases yield_error_inj h
    refine .ifCount hk (fun hlength => ?_) fun hlength => ?_
    · obtain ⟨test, yes, rfl⟩ := List.length_eq_two.mp hlength
      exact htwo test yes rfl
    · obtain ⟨test, yes, no, rfl⟩ := List.length_eq_three.mp hlength
      exact hthree test yes no rfl

theorem malformed_of_bindIn (hk : k.kind = .keyword .bind)
    (h : m.bindIn scope k es = m.yield (.error e)) : Malformed k es e := by
  unfold bindIn at h
  split at h
  · rename_i first others body
    split at h
    · rename_i hnone
      cases yield_error_inj h
      obtain ⟨b, hb, hshape⟩ := bindings_eq_none_iff.mp hnone
      exact .badBinding hk hb hshape
    · rename_i bs hchecked
      -- There is a first expression to be bound, and it is evaluated.
      obtain ⟨b, bs, rfl, -⟩ := cons_of_bindings hchecked
      exact absurd h ask_ne_yield
  · rename_i hlist
    cases yield_error_inj h
    refine .noBindings hk fun first others hhead => ?_
    obtain ⟨body, rfl⟩ := List.head?_eq_some_iff.mp hhead
    exact hlist first others body rfl

theorem malformed_of_assignment (hk : k.kind = .keyword .assign)
    (h : m.assignment scope k es = m.yield (.error e)) : Malformed k es e := by
  unfold assignment at h
  split at h
  · exact absurd h ask_ne_yield
  · rename_i htarget
    cases yield_error_inj h
    exact .setTarget hk fun name hname => htarget name hname
  · rename_i htwo
    cases yield_error_inj h
    refine .setCount hk fun hlength => ?_
    obtain ⟨target, value, rfl⟩ := List.length_eq_two.mp hlength
    exact htwo target value rfl

theorem malformed_of_negation (hk : k.kind = .keyword .not)
    (h : m.negation scope k es = m.yield (.error e)) : Malformed k es e := by
  unfold negation at h
  split at h
  · exact absurd h ask_ne_yield
  · rename_i hone
    cases yield_error_inj h
    refine .notCount hk fun hlength => ?_
    obtain ⟨x, rfl⟩ := List.length_eq_one_iff.mp hlength
    exact hone x rfl

/-- No other form is over with an error at once. -/
theorem malformed_of_form (h : m.form scope k es = m.yield (.error e)) : Malformed k es e := by
  unfold form at h
  split at h
  · rename_i hk
    exact malformed_of_branch hk h
  · cases es with
    | nil => exact absurd h yield_ok_ne_error
    | cons x es => exact absurd h ask_ne_yield
  · rename_i hk
    exact malformed_of_bindIn hk h
  · rename_i hk
    exact malformed_of_assignment hk h
  · cases es with
    | nil => exact absurd h yield_ok_ne_error
    | cons x es => exact absurd h ask_ne_yield
  · cases es with
    | nil => exact absurd h yield_ok_ne_error
    | cons x es => exact absurd h ask_ne_yield
  · rename_i hk
    exact malformed_of_negation hk h
  · rename_i hif hbegin hbind hassign hand hor hnot
    cases yield_error_inj h
    refine .noForm fun word hword => ?_
    cases word with
    | define => rfl
    | ifElse => exact absurd hword hif
    | begin => exact absurd hword hbegin
    | bind => exact absurd hword hbind
    | assign => exact absurd hword hassign
    | and => exact absurd hword hand
    | or => exact absurd hword hor
    | not => exact absurd hword hnot

/-- A machine that is about to evaluate a list that begins with a keyword is over with it in one
step, with an error, if the list is malformed and not otherwise. -/
theorem step_malformed_iff {limit? : Option Nat}
    (hm : m.control = .evaluate scope (.list (.keyword k) es)) :
    m.step limit? = some (m.yield (.error e)) ↔ Malformed k es e := by
  have hstep : m.step limit? = some (m.form scope k es) := by
    unfold step
    rw [hm]
    rfl
  rw [hstep, Option.some_inj]
  exact ⟨malformed_of_form, form_of_malformed⟩

end Machine

/--
**A malformed form fails before it does anything.**

Whatever its operands are, it complains at its keyword and leaves the store as it is; in the machine
this is the one step that there is, and nothing but the outcome is changed by it.  A `set` of a name
that is bound nowhere, after its value has been evaluated, leaves the store to which the value has
led.
-/
theorem malformed_changes_nothing :
    (∀ {k : Token} {es : List Expr} {e : EvalError}, Malformed k es e →
      e.token? = some k ∧ ∀ (limit remaining : Nat) (scope : ScopeId) (s : Store),
        inCalls limit remaining scope (.list (.keyword k) es) s = (.error e, s)) ∧
    (∀ {m : Machine} {scope : ScopeId} {k : Token} {es : List Expr} {e : EvalError},
      m.control = .evaluate scope (.list (.keyword k) es) → ∀ limit? : Option Nat,
        m.step limit? = some (m.yield (.error e)) ↔ Malformed k es e) ∧
    ∀ {limit remaining : Nat} {scope : ScopeId} {k name : Token} {value : Expr} {v : Value}
      {s s' : Store}, k.kind = .keyword .assign →
      inCalls limit remaining scope value s = (.ok v, s') →
      (∀ i ∈ s'.chain scope, s'.bindsLocally i name.lexeme = false) →
      inCalls limit remaining scope (.list (.keyword k) [.symbol name, value]) s =
        (.error (.undefinedVariable name), s') := by
  refine ⟨fun h => ⟨h.token?, fun limit remaining scope s => ?_⟩,
    fun hm _ => Machine.step_malformed_iff hm, inCalls_assign_unbound⟩
  rw [inCalls_eq, evaluate_malformed h]
  rfl

/-- An assignment in a binding before one without an expression does not happen; one in the value
of a `set` that fails does. -/
theorem malformed_changes_nothing_second_binding :
    let assigning : Token := ⟨.keyword .assign, "set", none, 1⟩
    let binding : Token := ⟨.keyword .bind, "let", none, 1⟩
    let x : Token := ⟨.symbol, "x", none, 1⟩
    let y : Token := ⟨.symbol, "y", none, 1⟩
    let clear : Expr := .list (.keyword assigning) [.symbol x, .datum .nil]
    let bindings : Expr := .list (.list (.symbol y) [clear]) [.list (.symbol y) []]
    let bad : EvalError := .malformed binding "each 'let' binding must be (name value)"
    let s := Store.empty.newRoot.2.define 0 "x" (.ofBool true)
    inCalls 5 5 0 (.list (.keyword binding) [bindings, clear]) s = (.error bad, s) ∧
      (Machine.ofExpr 3 0 (.list (.keyword binding) [bindings, clear]) s).step (some 5) =
        some (Machine.ended 3 (.error bad, s)) ∧
      inCalls 5 5 0 (.list (.keyword assigning) [.symbol y, clear]) s =
        (.error (.undefinedVariable y), s.define 0 "x" .nil) := by
  intro assigning binding x y clear bindings bad s
  have hbad : Malformed binding [bindings, clear] bad :=
    .badBinding rfl (List.mem_cons_of_mem _ List.mem_cons_self) (by rintro _ _ ⟨⟩)
  have hclear : inCalls 5 5 0 clear s = (.ok .nil, s.define 0 "x" .nil) := rfl
  have hfree : ∀ i ∈ (s.define 0 "x" .nil).chain 0,
      (s.define 0 "x" .nil).bindsLocally i y.lexeme = false := by decide
  obtain ⟨hfails, hstep, hset⟩ := malformed_changes_nothing
  exact ⟨(hfails hbad).2 5 5 0 s, (hstep rfl (some 5)).mpr hbad, hset rfl hclear hfree⟩

end Eval

end SmallLisp
