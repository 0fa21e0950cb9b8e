/-
What a step can do.

The machine has many kinds of frames and forms, but a step does one of five things.  It hands on a value
or an error, it asks for the value of a part, it enters the body of a function, or it leaves one.  `Move`
lists the first four and `step_cases` says that there are no others.  Whatever a step preserves is read off
from there, so that such proofs need not look at the forms of the language.

Nothing comes from nowhere.  What may be evaluated are parts of the expression that is begun, or what the
frame on top has kept.  A value that is bound, held or handed on was at hand (`AtHand`): it was somewhere
before the step, or it is a datum, or the step evaluates the operator or the definition that it comes
from.  And the two errors that speak of the program's text come from that text (`Raises`).
-/
import SmallLisp.Proofs.Eval.Machine
import SmallLisp.Proofs.Eval.Operator
import SmallLisp.Proofs.Store.WellFormed

namespace SmallLisp

/-! ### The parts of an expression

What is evaluated of an expression without entering a body.
-/

namespace Expr

/-- The values in what may be a list of bindings. -/
def boundIn : List Expr → List Expr
  | .list first others :: _ => (first :: others).filterMap fun b => (Eval.binding? b).map Prod.snd
  | _ => []

/-- The expressions that are evaluated as parts of another one.  Bindings are no expressions, so
the values in them have to be named. -/
def parts : Expr → List Expr
  | .list head es => head :: es ++ boundIn es
  | _ => []

theorem mem_parts_head (head : Expr) (es : List Expr) : head ∈ (Expr.list head es).parts :=
  List.mem_cons_self

theorem subset_parts_operands (head : Expr) (es : List Expr) :
    es ⊆ (Expr.list head es).parts := by
  intro e he
  exact List.mem_append_left _ (List.mem_cons_of_mem _ he)

theorem subset_parts_bound (head : Expr) (es : List Expr) :
    boundIn es ⊆ (Expr.list head es).parts :=
  List.subset_append_right _ _

/-- Of bindings that pass the check, all values are named. -/
theorem boundIn_of_bindings {first : Expr} {others : List Expr} {bs : List (Token × Expr)}
    (body : List Expr) (h : (first :: others).mapM Eval.binding? = some bs) :
    boundIn (.list first others :: body) = bs.map Prod.snd := by
  rw [boundIn, Eval.bindings_eq_some_iff.mp h, List.filterMap_map]
  exact congrFun List.filterMap_eq_map' bs

end Expr

/-! ### Errors

Two errors would not come of a well-formed tree, or only of a keyword in a wrong place.  All others may
come of any program.
-/

/-- Whether an error is one that any program may end in. -/
def EvalError.Ordinary : EvalError → Prop
  | notAnOperator _ | unexpectedKeyword _ => False
  | _ => True

theorem Operator.ordinary_or_of_apply {t : Token} {vs : List Value} {e : EvalError}
    (h : apply t vs = .error e) : e.Ordinary ∨ e = .notAnOperator t ∧ ∀ op, t.kind ≠ .operator op := by
  by_cases hoperator : ∃ op, t.kind = .operator op
  · obtain ⟨op, hkind⟩ := hoperator
    obtain ⟨-, hcount⟩ | ⟨-, -, -, hmisfit⟩ | ⟨v, -, hok⟩ := apply_cases hkind vs
    · obtain rfl := Except.error.inj (h.symm.trans hcount)
      exact .inl trivial
    · obtain rfl := Except.error.inj (h.symm.trans hmisfit)
      cases op <;> exact .inl trivial
    · cases h.symm.trans hok
  · have hnone := not_exists.mp hoperator
    exact .inr ⟨Except.error.inj (h.symm.trans (apply_eq_notAnOperator_iff.mpr hnone)), hnone⟩

namespace Eval

/-- The expressions that a frame may still evaluate. -/
def Frame.pending : Frame → List Expr
  | .head _ _ operands => operands
  | .operand _ _ _ _ after => after
  | .test _ yes no? => yes :: no?.toList
  | .sequence _ after => after
  | .conjunct _ after => after
  | .disjunct _ after => after
  | .initialiser _ _ _ after rest => after.map Prod.snd ++ rest
  | .body | .chosen | .negated | .assigned _ _ => []

/-- Whether a frame waits for the value of the head of a list. -/
def Frame.isHead : Frame → Bool
  | .head _ _ _ => true
  | _ => false

/-- The values that a frame holds. -/
def Frame.held : Frame → List Value
  | .operand _ _ callee before _ => callee :: before
  | _ => []

namespace Machine

/-! ### What a machine has for a step

The function that a definition makes is known before the step, by its identity as well.  So it counts as
at hand, and a step that makes a function need not be told from the others.
-/

/-- The function that the next step makes. -/
def made? (m : Machine) : Option Closure :=
  match m.control with
  | .evaluate scope (.define name params body) =>
    some ⟨m.store.functions, name, params, body, scope⟩
  | _ => none

/-- The values that a step can bind, hold or hand on. -/
inductive AtHand (m : Machine) : Value → Prop where
  | datum (d : Datum) : m.AtHand (.datum d)
  | bound {i : ScopeId} {name : String} {v : Value} (h : m.store.value? i name = some v) : m.AtHand v
  | held {f : Frame} {v : Value} (hf : f ∈ m.stack) (hv : v ∈ f.held) : m.AtHand v
  | yielded {v : Value} (h : m.control = .yield (.ok v)) : m.AtHand v
  | operator {scope : ScopeId} {t : Token} (h : m.control = .evaluate scope (.operator t)) :
      m.AtHand (.operator t)
  | made {c : Closure} (h : m.made? = some c) : m.AtHand (.function c)

/-- The errors that a step can hand on. -/
inductive Raises (m : Machine) : EvalError → Prop where
  | ordinary {e : EvalError} (h : e.Ordinary) : m.Raises e
  | passedOn {e : EvalError} (h : m.control = .yield (.error e)) : m.Raises e
  /-- What is applied as an operator is none. -/
  | operator {t : Token} (h : m.AtHand (.operator t)) (ht : ∀ op, t.kind ≠ .operator op) :
      m.Raises (.notAnOperator t)
  /-- A keyword is evaluated by itself. -/
  | keyword {scope : ScopeId} {t : Token} (h : m.control = .evaluate scope (.keyword t)) :
      m.Raises (.unexpectedKeyword t)
  /-- A list begins with a keyword that begins no form. -/
  | noForm {scope : ScopeId} {t : Token} {es : List Expr}
      (h : m.control = .evaluate scope (.list (.keyword t) es))
      (ht : ∀ word, t.kind = .keyword word → word = .define) : m.Raises (.unexpectedKeyword t)

/-- Whether a step can leave this store: it binds what was at hand, and counts the function that the
step makes. -/
structure Leaves (m : Machine) (s : Store) : Prop where
  bound : ∀ i name v, s.value? i name = some v → m.AtHand v
  functions_eq : s.functions = m.store.functions + if m.made?.isSome then 1 else 0

variable {limit? : Option Nat} {m m' w : Machine} {s : Store} {v : Value} {vs : List Value}
  {c : Closure} {scope : ScopeId} {e : Expr} {es : List Expr} {f : Frame} {below : List Frame}

/-- A machine that makes a function evaluates its definition, in the scope that the function
captures. -/
theorem made?_eq_some_iff : m.made? = some c ↔
    m.control = .evaluate c.scope (.define c.name c.params c.body) ∧
      c.identity = m.store.functions := by
  obtain ⟨identity, name, params, body, scope⟩ := c
  unfold made?
  split
  · rename_i hcontrol
    rw [hcontrol]
    simp only [Option.some.injEq, Closure.mk.injEq, Control.evaluate.injEq, Expr.define.injEq]
    constructor
    · rintro ⟨rfl, rfl, rfl, rfl, rfl⟩
      exact ⟨⟨rfl, rfl, rfl, rfl⟩, rfl⟩
    · rintro ⟨⟨rfl, rfl, rfl, rfl⟩, rfl⟩
      exact ⟨rfl, rfl, rfl, rfl, rfl⟩
  · rename_i hother
    exact iff_of_false nofun fun h => hother _ _ _ _ h.1

theorem made?_eq_none_of_yield {outcome : Except EvalError Value}
    (hcontrol : m.control = .yield outcome) : m.made? = none := by
  rw [made?, hcontrol]

namespace Leaves

theorem same (h : m.made? = none) : m.Leaves m.store where
  bound _ _ _ hv := .bound hv
  functions_eq := by
    rw [h]
    rfl

theorem lookup (h : m.Leaves s) {name : String} (hlookup : s.lookup scope name = some v) :
    m.AtHand v := by
  obtain ⟨i, -, hv⟩ := Store.exists_of_lookup hlookup
  exact h.bound i name v hv

theorem define (h : m.Leaves s) (hv : m.AtHand v) (i : ScopeId) (name : String) :
    m.Leaves (s.define i name v) where
  bound j name' w hw := by
    obtain rfl | hw := Store.eq_or_of_value?_define hw
    · exact hv
    · exact h.bound j name' w hw
  functions_eq := by rw [Store.functions_define, h.functions_eq]

theorem assign (h : m.Leaves s) (hv : m.AtHand v) {s' : Store} {name : String}
    (hassign : s.assign? scope name v = some s') : m.Leaves s' := by
  obtain ⟨i, -, -, rfl⟩ := Store.exists_of_assign? hassign
  exact h.define hv i name

theorem newFrame (h : m.Leaves s) (hvs : ∀ v ∈ vs, m.AtHand v) (i : ScopeId) (names : List String) :
    m.Leaves (s.newFrame i (names.zip vs)).2 where
  bound j name v hv := by
    obtain hv | hv := Store.mem_or_of_value?_newFrame hv
    · exact hvs v hv
    · exact h.bound j name v hv
  functions_eq := by rw [Store.functions_newFrame, h.functions_eq]

theorem withFunction {name : Token} {params : List Token} {body : Expr}
    (hcontrol : m.control = .evaluate scope (.define name params body)) :
    m.Leaves (m.store.withFunction scope name params body) := by
  have hmade : m.made? = some ⟨m.store.functions, name, params, body, scope⟩ :=
    made?_eq_some_iff.mpr ⟨hcontrol, rfl⟩
  refine ⟨fun i name' v hv => ?_, ?_⟩
  · obtain rfl | hv := Store.eq_or_of_value?_define hv
    · exact .made hmade
    · exact .bound hv
  · rw [hmade]
    rfl

end Leaves

/-! ### Moves

One lemma for each function of the machine says which move it is.  `m` is the machine before the step and
`w` the one that is at work: a frame may be gone from its stack, and its store may have been added to.
-/

/-- What a step can lead to if so many calls are active, these frames stay and these expressions
may be evaluated. -/
inductive Move (limit? : Option Nat) (m : Machine) (calls : Nat) (below : List Frame)
    (pending : List Expr) : Machine → Prop where
  /-- It hands on a value. -/
  | value {v : Value} {s : Store} (hv : m.AtHand v) (hs : m.Leaves s) :
      Move limit? m calls below pending ⟨.yield (.ok v), below, calls, s⟩
  /-- It hands on an error. -/
  | error {e : EvalError} {s : Store} (he : m.Raises e) (hs : m.Leaves s) :
      Move limit? m calls below pending ⟨.yield (.error e), below, calls, s⟩
  /-- It asks for the value of one expression, and keeps others for later. -/
  | ask (f : Frame) {e : Expr} {s : Store} (scope : ScopeId) (hbody : f.isBody = false)
      (he : e ∈ pending) (hpending : f.pending ⊆ pending) (hheld : ∀ v ∈ f.held, m.AtHand v)
      (hhead : f.isHead = false ∨ ∀ k, e ≠ .keyword k) (hs : m.Leaves s) :
      Move limit? m calls below pending ⟨.evaluate scope e, f :: below, calls, s⟩
  /-- It enters the body of a function, if there is room for one more. -/
  | enter {c : Closure} {s : Store} (hroom : reached? limit? calls = none) (scope : ScopeId)
      (hc : m.AtHand (.function c)) (hs : m.Leaves s) :
      Move limit? m calls below pending ⟨.evaluate scope c.body, .body :: below, calls + 1, s⟩

theorem Move.mono {calls : Nat} {pending pending' : List Expr}
    (h : Move limit? m calls below pending m') (hsub : pending ⊆ pending') :
    Move limit? m calls below pending' m' := by
  cases h with
  | value hv hs => exact .value hv hs
  | error he hs => exact .error he hs
  | ask f scope hbody he hpending hheld hhead hs =>
      exact .ask f scope hbody (hsub he) (List.Subset.trans hpending hsub) hheld hhead hs
  | enter hroom scope hc hs => exact .enter hroom scope hc hs

section

variable (hw : m.Leaves w.store)
include hw

theorem move_enter (site : Option Token) (hc : m.AtHand (.function c))
    (hvs : ∀ v ∈ vs, m.AtHand v) :
    Move limit? m w.calls w.stack [] (w.enter limit? site c vs) := by
  unfold Machine.enter
  by_cases harity : vs.length = c.arity
  · rw [if_pos harity]
    cases hroom : reached? limit? w.calls with
    | none => exact .enter hroom _ hc (hw.newFrame hvs c.scope (c.params.map Token.lexeme))
    | some limit => exact .error (.ordinary trivial) hw
  · rw [if_neg harity]
    exact .error (.ordinary trivial) hw

theorem move_apply (site : Option Token) {callee : Value} (hcallee : m.AtHand callee)
    (hvs : ∀ v ∈ vs, m.AtHand v) :
    Move limit? m w.calls w.stack [] (w.apply limit? site vs callee) := by
  cases callee with
  | datum d => exact .error (.ordinary trivial) hw
  | operator t =>
      show Move limit? m w.calls w.stack [] (w.yield (Operator.apply t vs))
      cases happly : Operator.apply t vs with
      | ok v =>
          obtain ⟨d, rfl⟩ := Operator.exists_datum_of_apply happly
          exact .value (.datum d) hw
      | error e =>
          obtain hordinary | ⟨rfl, ht⟩ := Operator.ordinary_or_of_apply happly
          · exact .error (.ordinary hordinary) hw
          · exact .error (.operator hcallee ht) hw
  | function c => exact move_enter hw site hcallee hvs

theorem move_operands (scope : ScopeId) (site : Option Token) {callee : Value}
    (hcallee : m.AtHand callee) {before : List Value} (hbefore : ∀ v ∈ before, m.AtHand v)
    (es : List Expr) :
    Move limit? m w.calls w.stack es (w.operands limit? scope site callee before es) := by
  cases es with
  | nil => exact move_apply hw site hcallee hbefore
  | cons e es =>
      exact .ask (.operand scope site callee before es) scope rfl List.mem_cons_self
        (List.subset_cons_self e es) (List.forall_mem_cons.mpr ⟨hcallee, hbefore⟩) (.inl rfl) hw

theorem move_applied (scope : ScopeId) (site : Option Token) (es : List Expr)
    (hv : m.AtHand v) : Move limit? m w.calls w.stack es (w.applied limit? scope site es v) := by
  cases v with
  | datum d => exact .error (.ordinary trivial) hw
  | operator _ | function _ => exact move_operands hw scope site hv (List.forall_mem_nil _) es

theorem move_sequence (scope : ScopeId) {last : Value} (hlast : m.AtHand last) (es : List Expr) :
    Move limit? m w.calls w.stack es (w.sequence scope last es) := by
  cases es with
  | nil => exact .value hlast hw
  | cons e es =>
      exact .ask (.sequence scope es) scope rfl List.mem_cons_self (List.subset_cons_self e es)
        (List.forall_mem_nil _) (.inl rfl) hw

theorem move_branch (scope : ScopeId) (k : Token) (es : List Expr) :
    Move limit? m w.calls w.stack es (w.branch scope k es) := by
  rcases es with _ | ⟨test, _ | ⟨yes, _ | ⟨no, _ | _⟩⟩⟩
  case cons.cons.nil =>
    exact .ask (.test scope yes none) scope rfl List.mem_cons_self (List.subset_cons_self _ _)
      (List.forall_mem_nil _) (.inl rfl) hw
  case cons.cons.cons.nil =>
    exact .ask (.test scope yes (some no)) scope rfl List.mem_cons_self
      (List.subset_cons_self _ _) (List.forall_mem_nil _) (.inl rfl) hw
  all_goals exact .error (.ordinary trivial) hw

theorem move_choose (scope : ScopeId) (yes : Expr) (no? : Option Expr) (v : Value) :
    Move limit? m w.calls w.stack (yes :: no?.toList) (w.choose scope yes no? v) := by
  unfold Machine.choose
  by_cases hv : v.isTruthy = true
  · rw [if_pos hv]
    exact .ask .chosen scope rfl List.mem_cons_self (List.nil_subset _) (List.forall_mem_nil _)
      (.inl rfl) hw
  · rw [if_neg hv]
    cases no? with
    | none => exact .value (.datum .nil) hw
    | some no =>
        exact .ask .chosen scope rfl (List.mem_cons_of_mem _ List.mem_cons_self)
          (List.nil_subset _) (List.forall_mem_nil _) (.inl rfl) hw

theorem move_conjunction (scope : ScopeId) {last : Value} (hlast : m.AtHand last)
    (es : List Expr) : Move limit? m w.calls w.stack es (w.conjunction scope last es) := by
  cases es with
  | nil => exact .value hlast hw
  | cons e es =>
      exact .ask (.conjunct scope es) scope rfl List.mem_cons_self (List.subset_cons_self e es)
        (List.forall_mem_nil _) (.inl rfl) hw

theorem move_disjunction (scope : ScopeId) {last : Value} (hlast : m.AtHand last)
    (es : List Expr) : Move limit? m w.calls w.stack es (w.disjunction scope last es) := by
  cases es with
  | nil => exact .value hlast hw
  | cons e es =>
      exact .ask (.disjunct scope es) scope rfl List.mem_cons_self (List.subset_cons_self e es)
        (List.forall_mem_nil _) (.inl rfl) hw

theorem move_negation (scope : ScopeId) (k : Token) (es : List Expr) :
    Move limit? m w.calls w.stack es (w.negation scope k es) := by
  rcases es with _ | ⟨e, _ | _⟩
  case cons.nil =>
    exact .ask .negated scope rfl List.mem_cons_self (List.nil_subset _) (List.forall_mem_nil _)
      (.inl rfl) hw
  all_goals exact .error (.ordinary trivial) hw

theorem move_assignment (scope : ScopeId) (k : Token) (es : List Expr) :
    Move limit? m w.calls w.stack es (w.assignment scope k es) := by
  unfold Machine.assignment
  split
  · exact .ask (.assigned scope _) scope rfl (List.mem_cons_of_mem _ List.mem_cons_self)
      (List.nil_subset _) (List.forall_mem_nil _) (.inl rfl) hw
  · exact .error (.ordinary trivial) hw
  · exact .error (.ordinary trivial) hw

theorem move_initialisers (scope inner : ScopeId) (body : List Expr) (bs : List (Token × Expr)) :
    Move limit? m w.calls w.stack (bs.map Prod.snd ++ body)
      (w.initialisers scope inner body bs) := by
  cases bs with
  | nil => exact move_sequence hw inner (.datum .nil) body
  | cons b bs =>
      exact .ask (.initialiser scope inner b.1 bs body) scope rfl List.mem_cons_self
        (List.subset_cons_self b.2 (bs.map Prod.snd ++ body)) (List.forall_mem_nil _) (.inl rfl) hw

theorem move_bindIn (scope : ScopeId) (k : Token) (es : List Expr) :
    Move limit? m w.calls w.stack (Expr.list (.keyword k) es).parts (w.bindIn scope k es) := by
  rcases es with _ | ⟨_ | _ | _ | _ | ⟨first, others⟩ | _, body⟩
  case cons.list =>
    rw [Machine.bindIn]
    cases hchecked : (first :: others).mapM binding? with
    | none => exact .error (.ordinary trivial) hw
    | some bs =>
        have hmade := hw.newFrame (List.forall_mem_nil _) scope []
        refine (move_initialisers (w := { w with store := (w.store.newChild scope).2 }) hmade scope
          (w.store.newChild scope).1 body bs).mono ?_
        rw [← Expr.boundIn_of_bindings body hchecked]
        refine List.append_subset.mpr ⟨Expr.subset_parts_bound _ _, ?_⟩
        exact List.Subset.trans (List.subset_cons_self _ body) (Expr.subset_parts_operands _ _)
  all_goals exact .error (.ordinary trivial) hw

theorem move_assigned (scope : ScopeId) (name : Token) (hv : m.AtHand v) (pending : List Expr) :
    Move limit? m w.calls w.stack pending
      (w.perform do assign scope name v; pure v) := by
  rw [Machine.perform, bind_apply, assign_apply]
  cases hassign : w.store.assign? scope name.lexeme v with
  | none => exact .error (.ordinary trivial) hw
  | some s => exact .value hv (hw.assign hv hassign)

end

theorem move_form {k : Token} (hcontrol : m.control = .evaluate scope (.list (.keyword k) es)) :
    Move limit? m m.calls m.stack (Expr.list (.keyword k) es).parts (m.form scope k es) := by
  have hs : m.Leaves m.store := .same (by rw [made?, hcontrol])
  have hoperands := Expr.subset_parts_operands (.keyword k) es
  unfold Machine.form
  cases hkind : k.kind with
  | keyword word =>
      cases word with
      | ifElse => exact (move_branch hs scope k es).mono hoperands
      | begin => exact (move_sequence hs scope (.datum .nil) es).mono hoperands
      | bind => exact move_bindIn hs scope k es
      | assign => exact (move_assignment hs scope k es).mono hoperands
      | and => exact (move_conjunction hs scope (.datum _) es).mono hoperands
      | or => exact (move_disjunction hs scope (.datum _) es).mono hoperands
      | not => exact (move_negation hs scope k es).mono hoperands
      | define =>
          refine .error (.noForm hcontrol fun word hword => ?_) hs
          exact (TokenKind.keyword.inj (hkind.symm.trans hword)).symm
  | _ =>
      refine .error (.noForm hcontrol fun word hword => ?_) hs
      cases hkind.symm.trans hword

theorem move_start (hcontrol : m.control = .evaluate scope e) :
    Move limit? m m.calls m.stack e.parts (m.start scope e) := by
  cases e with
  | datum d => exact .value (.datum d) (.same (by rw [made?, hcontrol]))
  | symbol t =>
      have hs : m.Leaves m.store := .same (by rw [made?, hcontrol])
      rw [Machine.start, Machine.perform, valueOf_apply]
      cases hlookup : m.store.lookup scope t.lexeme with
      | none => exact .error (.ordinary trivial) hs
      | some v => exact .value (hs.lookup hlookup) hs
  | operator t => exact .value (.operator hcontrol) (.same (by rw [made?, hcontrol]))
  | keyword t => exact .error (.keyword hcontrol) (.same (by rw [made?, hcontrol]))
  | define name params body => exact .value (.datum .nil) (.withFunction hcontrol)
  | list head es =>
      by_cases hhead : ∃ k, head = .keyword k
      · obtain ⟨k, rfl⟩ := hhead
        exact move_form hcontrol
      · have hhead : ∀ k, head ≠ .keyword k := not_exists.mp hhead
        rw [start_list m scope hhead]
        exact .ask (.head scope head.token? es) scope rfl (Expr.mem_parts_head head es)
          (Expr.subset_parts_operands head es) (List.forall_mem_nil _) (.inr hhead)
          (.same (by rw [made?, hcontrol]))

theorem move_resume (hcontrol : m.control = .yield (.ok v)) (hstack : m.stack = f :: below) :
    Move limit? m m.calls below f.pending ({ m with stack := below }.resume limit? v f) := by
  have hs : m.Leaves m.store := .same (made?_eq_none_of_yield hcontrol)
  have hv : m.AtHand v := .yielded hcontrol
  have hheld : ∀ w ∈ f.held, m.AtHand w := fun w hw =>
    .held (hstack ▸ List.mem_cons_self) hw
  cases f with
  | head scope site es => exact move_applied (w := { m with stack := below }) hs scope site es hv
  | operand scope site callee before after =>
      obtain ⟨hcallee, hbefore⟩ := List.forall_mem_cons.mp hheld
      exact move_operands (w := { m with stack := below }) hs scope site hcallee
        (List.forall_mem_append.mpr ⟨hbefore, List.forall_mem_singleton.mpr hv⟩) after
  | test scope yes no? => exact move_choose (w := { m with stack := below }) hs scope yes no? v
  | sequence scope after => exact move_sequence (w := { m with stack := below }) hs scope hv after
  | conjunct scope after =>
      rw [Machine.resume]
      split
      · exact move_conjunction (w := { m with stack := below }) hs scope hv after
      · exact .value hv hs
  | disjunct scope after =>
      rw [Machine.resume]
      split
      · exact .value hv hs
      · exact move_disjunction (w := { m with stack := below }) hs scope hv after
  | negated => exact .value (.datum _) hs
  | assigned scope name => exact move_assigned (w := { m with stack := below }) hs scope name hv _
  | initialiser scope inner name after body =>
      exact move_initialisers
        (w := { m with stack := below, store := m.store.define inner name.lexeme v })
        (hs.define hv inner name.lexeme) scope inner body after
  | body | chosen => exact .value hv hs

theorem move_settle {outcome : Except EvalError Value} (hcontrol : m.control = .yield outcome)
    (hstack : m.stack = f :: below) :
    Move limit? m m.calls below f.pending ({ m with stack := below }.settle limit? f outcome) := by
  cases outcome with
  | ok v => exact move_resume hcontrol hstack
  | error e => exact .error (.passedOn hcontrol) (.same (made?_eq_none_of_yield hcontrol))

/-! ### Steps

The functions of the machine are not unfolded any more after this.
-/

theorem eq_body_of_isBody {f : Frame} (hf : f.isBody = true) : f = .body := by
  rcases f
  case body => rfl
  all_goals cases hf

theorem step_yield_cons (outcome : Except EvalError Value) (calls : Nat) (s : Store) {f : Frame}
    {below : List Frame} (hf : f.isBody = false) :
    Machine.step limit? ⟨.yield outcome, f :: below, calls, s⟩ =
      some (Machine.settle limit? ⟨.yield outcome, below, calls, s⟩ f outcome) := by
  simp [Machine.step, hf]

/-- **What a step can do.**  It goes on with an expression or with the outcome that a frame waits
for, or it leaves the body of a function. -/
theorem step_cases (h : m.step limit? = some m') :
    (∃ scope e, m.control = .evaluate scope e ∧ Move limit? m m.calls m.stack e.parts m') ∨
      (∃ outcome f below, m.control = .yield outcome ∧ m.stack = f :: below ∧ f.isBody = false ∧
        Move limit? m m.calls below f.pending m') ∨
      ∃ outcome below, m.control = .yield outcome ∧ m.stack = .body :: below ∧
        m.calls = m'.calls + 1 ∧ m' = ⟨m.control, below, m'.calls, m.store⟩ := by
  obtain ⟨control, stack, calls, s⟩ := m
  match control, stack with
  | .evaluate scope e, stack =>
      obtain rfl := Option.some_inj.mp h
      exact .inl ⟨scope, e, rfl, move_start rfl⟩
  | .yield _, [] => cases h
  | .yield outcome, f :: below =>
      refine .inr ?_
      by_cases hf : f.isBody = true
      · obtain rfl := eq_body_of_isBody hf
        match calls with
        | 0 => cases h
        | calls + 1 =>
            obtain rfl := Option.some_inj.mp h
            exact .inr ⟨outcome, below, rfl, rfl, rfl, rfl⟩
      · have hf : f.isBody = false := by simpa using hf
        rw [step_yield_cons _ _ _ hf] at h
        obtain rfl := Option.some_inj.mp h
        exact .inl ⟨outcome, f, below, rfl, rfl, hf, move_settle rfl rfl⟩

end Machine

end Eval

end SmallLisp
