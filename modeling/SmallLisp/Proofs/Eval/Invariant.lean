/-
What one evaluation keeps, at its end and at every point on the way.

An invariant says something of stores, of the places where expressions are evaluated and of
functions.  `Invariant.Lawful` lists what has to be shown of it: one demand for each thing that the
evaluator does with a store, none for the forms of the language.  An invariant is a likeness of a
store to itself, so that the end of an evaluation is a case of `agree_inCalls`.

Not every statement is about the end.  `Asks` is the relation between a point of an evaluation, where
an expression is about to be evaluated, and the points that this evaluation begins next, in the order
of the evaluator's own recursion.  What is lawful holds at all of them (`holds_of_asks`), and from
there at everything that they come to (`holds_within`).
-/
import Mathlib.Logic.Relation
import SmallLisp.Proofs.Eval.Correspondence

namespace SmallLisp

namespace Eval

open SmallLisp.Expr (binding letIn)

/-! ### Invariants

An invariant is a correspondence of a store with itself, in which nothing is like anything but itself, and
only if the invariant holds of it.  Nothing has to be said about the forms of the language a second time.
-/

/-- Something to be kept by every evaluation. -/
structure Invariant where
  /-- What holds of the store. -/
  store : Store → Prop
  /-- What holds of an expression and the scope where it is evaluated. -/
  place : Store → ScopeId → Expr → Prop
  /-- What holds of a scope that a `let` fills. -/
  inner : Store → ScopeId → Prop
  /-- What holds of a function. -/
  closure : Store → Closure → Prop

namespace Invariant

/-- What holds of a value. -/
def value (I : Invariant) (s : Store) (v : Value) : Prop :=
  v.IfFunction (I.closure s)

/-- What has to be shown of an invariant. -/
structure Lawful (I : Invariant) : Prop where
  /-- What holds of functions and places holds in later stores. -/
  closure_later {s s' : Store} {c : Closure} (hs : s.Extends s') (h : I.closure s c) :
    I.closure s' c
  place_later {s s' : Store} {i : ScopeId} {e : Expr} (hs : s.Extends s') (h : I.place s i e) :
    I.place s' i e
  inner_later {s s' : Store} {i : ScopeId} (hs : s.Extends s') (h : I.inner s i) : I.inner s' i
  /-- A list is evaluated where its parts are evaluated. -/
  place_list {s : Store} {i : ScopeId} {head : Expr} {operands : List Expr}
    (hbind : ∀ k, head = .keyword k → ¬ k.IsBind) (h : I.place s i (.list head operands)) :
    I.place s i head ∧ ∀ e ∈ operands, I.place s i e
  place_bindings {s : Store} {i : ScopeId} {k : Token} {bindings : Expr} {body : List Expr}
    (hbind : k.IsBind) (h : I.place s i (.list (.keyword k) (bindings :: body))) :
    I.place s i bindings
  /-- What can be found under a name. -/
  lookup {s : Store} {i : ScopeId} {name : Token} {v : Value} (h : I.store s)
    (hplace : I.place s i (.symbol name)) (hlookup : s.lookup i name.lexeme = some v) :
    I.value s v
  /-- Assigning, defining, and making and filling a scope keep what holds. -/
  assign {s s' : Store} {i : ScopeId} {name : Token} {v : Value} (h : I.store s)
    (hplace : I.place s i (.symbol name)) (hvalue : I.value s v)
    (hassign : s.assign? i name.lexeme v = some s') : I.store s'
  define {s : Store} {i : ScopeId} {name : Token} {params : List Token} {body : Expr}
    (h : I.store s) (hplace : I.place s i (.define name params body)) :
    I.store (s.withFunction i name params body)
  enter {s : Store} {c : Closure} {vs : List Value} (h : I.store s) (hclosure : I.closure s c)
    (hvalues : ∀ v ∈ vs, I.value s v) :
    let s' := (s.newFrame c.scope ((c.params.map Token.lexeme).zip vs)).2
    I.store s' ∧ I.place s' s.scopes.size c.body
  bind {s : Store} {i : ScopeId} {k : Token} {bindings : Expr} {body : List Expr}
    (h : I.store s) (hbind : k.IsBind)
    (hplace : I.place s i (.list (.keyword k) (bindings :: body))) :
    let s' := (s.newChild i).2
    I.store s' ∧ I.inner s' s.scopes.size ∧ ∀ e ∈ body, I.place s' s.scopes.size e
  fill {s : Store} {i : ScopeId} {name : Token} {v : Value} (h : I.store s) (hinner : I.inner s i)
    (hvalue : I.value s v) : I.store (s.define i name.lexeme v)

variable {I : Invariant} {s : Store} {limit remaining : Nat} {i : ScopeId}

/-- The likeness of a store to itself where the invariant holds. -/
def twice (I : Invariant) : Correspondence where
  toRecasting := .same fun l l' => l' = l
  stores s t := t = s ∧ I.store s
  places s _ i j e := j = i ∧ I.place s i e
  inners s _ i j := j = i ∧ I.inner s i
  closures s _ c d := d = c ∧ I.closure s c

theorem alike_twice {t : Store} {v w : Value} :
    I.twice.Alike s t v w ↔ w = v ∧ I.value s v := by
  have hclosures {c d : Closure} : I.twice.closures s t c d ↔ d = id c ∧ I.closure s c := Iff.rfl
  have halike : I.twice.Alike s t v w ↔ _ := Value.alike_iff @hclosures
  rw [halike, Value.mapFunction_id]
  rfl

theorem alikes_twice {t : Store} {vs ws : List Value} :
    I.twice.Alikes s t vs ws ↔ ws = vs ∧ ∀ v ∈ vs, I.value s v := by
  have hclosures {c d : Closure} : I.twice.closures s t c d ↔ d = id c ∧ I.closure s c := Iff.rfl
  have hid : Value.mapFunction id = id := funext Value.mapFunction_id
  have halikes : I.twice.Alikes s t vs ws ↔ _ := Value.alikes_iff @hclosures
  rw [halikes, hid, List.map_id]
  rfl

theorem Lawful.twice (hI : I.Lawful) : I.twice.Lawful where
  closures_later hs _ h := ⟨h.1, hI.closure_later hs h.2⟩
  places_later hs _ h := ⟨h.1, hI.place_later hs h.2⟩
  inners_later hs _ h := ⟨h.1, hI.inner_later hs h.2⟩
  places_list hbind h := by
    obtain ⟨hhead, hoperands⟩ := hI.place_list hbind h.2
    exact ⟨⟨h.1, hhead⟩, fun e he => ⟨h.1, hoperands e he⟩⟩
  places_bindings hbind h := ⟨h.1, hI.place_bindings hbind h.2⟩
  closures_params h := Recasting.names_same_iff.mpr (by rw [h.1])
  closures_body h := (Recasting.sameExpr_same_iff _ _).mpr (by rw [h.1])
  closures_identity h h' := by rw [h.1, h'.1]
  lookup {s t i j name name'} h hplace hname := by
    obtain ⟨rfl, hstore⟩ := h
    obtain ⟨rfl, hplace⟩ := hplace
    obtain rfl : name' = name := hname
    cases hlookup : t.lookup j name'.lexeme with
    | none => exact .none
    | some v => exact .some (alike_twice.mpr ⟨rfl, hI.lookup hstore hplace hlookup⟩)
  assign {s t i j name name' v w} h hplace hname hvalue := by
    obtain ⟨rfl, hstore⟩ := h
    obtain ⟨rfl, hplace⟩ := hplace
    obtain rfl : name' = name := hname
    obtain ⟨rfl, hvalue⟩ := alike_twice.mp hvalue
    cases hassign : t.assign? j name'.lexeme w with
    | none => exact .none
    | some t' => exact .some ⟨rfl, hI.assign hstore hplace hvalue hassign⟩
  define h hplace hsame := by
    obtain ⟨rfl, hstore⟩ := h
    obtain ⟨rfl, hplace⟩ := hplace
    cases (Recasting.sameExpr_same_iff _ _).mp hsame
    exact ⟨rfl, hI.define hstore hplace⟩
  enter h hclosure hvalues := by
    obtain ⟨rfl, hstore⟩ := h
    obtain ⟨rfl, hclosure⟩ := hclosure
    obtain ⟨rfl, hvalues⟩ := alikes_twice.mp hvalues
    obtain ⟨hstore', hplace⟩ := hI.enter hstore hclosure hvalues
    exact ⟨⟨rfl, hstore'⟩, rfl, hplace⟩
  bind h hbind hplace := by
    obtain ⟨rfl, hstore⟩ := h
    obtain ⟨rfl, hplace⟩ := hplace
    obtain ⟨hstore', hinner, hbody⟩ := hI.bind hstore hbind hplace
    exact ⟨⟨rfl, hstore'⟩, ⟨rfl, hinner⟩, fun e he => ⟨rfl, hbody e he⟩⟩
  fill {s t i j name name' v w} h hinner hname hvalue := by
    obtain ⟨rfl, hstore⟩ := h
    obtain ⟨rfl, hinner⟩ := hinner
    obtain rfl : name' = name := hname
    obtain ⟨rfl, hvalue⟩ := alike_twice.mp hvalue
    exact ⟨rfl, hI.fill hstore hinner hvalue⟩

/-! ### The end of an evaluation

Each of the evaluator's functions that has to do with several expressions is of use by itself where the
middle of an evaluation is looked at: operands that have been evaluated, a scope that has been filled.
-/

/-- What is known once a computation is over: the store is a later one, the invariant holds of it,
and something holds of the result, if there is one. -/
structure Keeps (I : Invariant) {α : Type} (P : Store → α → Prop) (s : Store)
    (x : Except EvalError α × Store) : Prop where
  later : s.Extends x.2
  store : I.store x.2
  result : ∀ a, x.1 = .ok a → P x.2 a

theorem keeps_of_agree {α : Type} {P : Store → α → Prop} {Q : Store → Store → α → α → Prop}
    {x : Except EvalError α × Store} (hPQ : ∀ {s a b}, Q s s a b → P s a)
    (h : I.twice.Agree Q s s x x) : I.Keeps P s x := by
  obtain ⟨hlater, -, hstore, houtcome⟩ := h
  refine ⟨hlater, hstore.2, fun a ha => ?_⟩
  rw [ha] at houtcome
  cases houtcome with
  | ok h => exact hPQ h

/-- Several values of which the invariant holds. -/
def values (I : Invariant) (s : Store) (vs : List Value) : Prop :=
  ∀ v ∈ vs, I.value s v

/-- **What is lawful holds when an evaluation is over**, of the store and of the value. -/
theorem Lawful.keeps_inCalls (hI : I.Lawful) (limit remaining : Nat) {e : Expr} (h : I.store s)
    (hplace : I.place s i e) : I.Keeps I.value s (inCalls limit remaining i e s) := by
  have hagree := Correspondence.agree_inCalls hI.twice (i := i) (j := i)
    (show limit = limit from rfl) remaining ⟨rfl, h⟩ ((Recasting.sameExpr_same_iff e e).mpr rfl)
    ⟨rfl, hplace⟩
  exact keeps_of_agree (fun hvalue => (alike_twice.mp hvalue).2) hagree

theorem Lawful.keeps_evaluateAll (hI : I.Lawful) (limit remaining : Nat) {es : List Expr}
    (h : I.store s) (hplaces : ∀ e ∈ es, I.place s i e) :
    I.Keeps I.values s (evaluateAll limit (bodies limit remaining) i es s) := by
  have hlimit : I.twice.limit limit limit := rfl
  have hagree := Correspondence.agree_evaluateAll hI.twice hlimit
    (Correspondence.agree_bodies hI.twice hlimit remaining) (i := i) (j := i) ⟨rfl, h⟩ es
    ((Recasting.sameExprs_same_iff es es).mpr rfl) fun e he => ⟨rfl, hplaces e he⟩
  exact keeps_of_agree (fun hvalues => (alikes_twice.mp hvalues).2) hagree

theorem Lawful.keeps_fillAll (hI : I.Lawful) (limit remaining : Nat) (k : Token) {inner : ScopeId}
    {es : List Expr} (h : I.store s) (hinner : I.inner s inner)
    (hplaces : ∀ e ∈ es, I.place s i e) :
    I.Keeps (fun _ _ => True) s (fillAll limit (bodies limit remaining) i k inner es s) := by
  have hlimit : I.twice.limit limit limit := rfl
  have hagree : I.twice.Agree (fun _ _ _ _ => True) s s
      (fillAll limit (bodies limit remaining) i k inner es s)
      (fillAll limit (bodies limit remaining) i k inner es s) :=
    Correspondence.agree_fillAll hI.twice hlimit
      (Correspondence.agree_bodies hI.twice hlimit remaining) ⟨rfl, h⟩ rfl ⟨rfl, hinner⟩ es
      ((Recasting.sameExprs_same_iff es es).mpr rfl) fun e he => ⟨rfl, hplaces e he⟩
  exact keeps_of_agree (fun _ => trivial) hagree

end Invariant

/-! ### The points of an evaluation

A point is where the evaluator calls itself.  Between two of them it looks at what it has, makes a scope,
or gives a name a value, so that each store that there is in the course of an evaluation is the store of
some point or one that an evaluation leaves.
-/

/-- A point of an evaluation: an expression is about to be evaluated. -/
structure Point where
  /-- How many calls may still be entered. -/
  remaining : Nat
  scope : ScopeId
  expr : Expr
  store : Store

/-- What the evaluation that begins at a point comes to. -/
def Point.outcome (limit : Nat) (p : Point) : Except EvalError Value × Store :=
  inCalls limit p.remaining p.scope p.expr p.store

/-- Expressions are evaluated one after the other in one scope, as long as the values permit it:
the points that are met on the way. -/
inductive InRow (limit remaining : Nat) (i : ScopeId) (permits : Value → Prop) :
    List Expr → Store → Point → Prop where
  | here {e : Expr} {es : List Expr} {s : Store} :
      InRow limit remaining i permits (e :: es) s ⟨remaining, i, e, s⟩
  | later {e : Expr} {es : List Expr} {s s' : Store} {v : Value} {p : Point}
      (h : inCalls limit remaining i e s = (.ok v, s')) (hv : permits v)
      (hrest : InRow limit remaining i permits es s' p) :
      InRow limit remaining i permits (e :: es) s p

/-- The values that a `let` binds are computed one after the other in one scope, and each of them is
given to its name in another: the points that are met on the way. -/
inductive InBindings (limit remaining : Nat) (i inner : ScopeId) :
    List (Token × Expr) → Store → Point → Prop where
  | here {b : Token × Expr} {bs : List (Token × Expr)} {s : Store} :
      InBindings limit remaining i inner (b :: bs) s ⟨remaining, i, b.2, s⟩
  | later {b : Token × Expr} {bs : List (Token × Expr)} {s s' : Store} {v : Value} {p : Point}
      (h : inCalls limit remaining i b.2 s = (.ok v, s'))
      (hrest : InBindings limit remaining i inner bs (s'.define inner b.1.lexeme v) p) :
      InBindings limit remaining i inner (b :: bs) s p

/-- The values that can be called. -/
def Callable : Value → Prop
  | .datum _ => False
  | _ => True

/-- The points that the evaluation at a point begins by itself. -/
inductive Asks (limit : Nat) : Point → Point → Prop where
  /-- The head of an application, its operands and the body of the function. -/
  | head {r : Nat} {i : ScopeId} {head : Expr} {operands : List Expr} {s : Store}
      (hhead : ∀ k, head ≠ .keyword k) :
      Asks limit ⟨r, i, .list head operands, s⟩ ⟨r, i, head, s⟩
  | operand {r : Nat} {i : ScopeId} {head : Expr} {operands : List Expr} {s s' : Store} {v : Value}
      {p : Point} (hhead : ∀ k, head ≠ .keyword k) (hv : inCalls limit r i head s = (.ok v, s'))
      (hcall : Callable v) (hrow : InRow limit r i (fun _ => True) operands s' p) :
      Asks limit ⟨r, i, .list head operands, s⟩ p
  | body {r : Nat} {i : ScopeId} {head : Expr} {operands : List Expr} {s s' s'' : Store}
      {c : Closure} {vs : List Value} (hhead : ∀ k, head ≠ .keyword k)
      (hc : inCalls limit (r + 1) i head s = (.ok (.function c), s'))
      (hvs : evaluateAll limit (bodies limit (r + 1)) i operands s' = (.ok vs, s''))
      (harity : vs.length = c.arity) :
      Asks limit ⟨r + 1, i, .list head operands, s⟩
        ⟨r, s''.scopes.size, c.body,
          (s''.newFrame c.scope ((c.params.map Token.lexeme).zip vs)).2⟩
  /-- The parts of an `if`. -/
  | test {r : Nat} {i : ScopeId} {k : Token} {test yes : Expr} {no : List Expr} {s : Store}
      (hk : k.kind = .keyword .ifElse) (hno : no.length ≤ 1) :
      Asks limit ⟨r, i, .list (.keyword k) (test :: yes :: no), s⟩ ⟨r, i, test, s⟩
  | yes {r : Nat} {i : ScopeId} {k : Token} {test yes : Expr} {no : List Expr} {s s' : Store}
      {v : Value} (hk : k.kind = .keyword .ifElse) (hno : no.length ≤ 1)
      (htest : inCalls limit r i test s = (.ok v, s')) (hv : v.isTruthy = true) :
      Asks limit ⟨r, i, .list (.keyword k) (test :: yes :: no), s⟩ ⟨r, i, yes, s'⟩
  | no {r : Nat} {i : ScopeId} {k : Token} {test yes no : Expr} {s s' : Store} {v : Value}
      (hk : k.kind = .keyword .ifElse) (htest : inCalls limit r i test s = (.ok v, s'))
      (hv : v.isTruthy = false) :
      Asks limit ⟨r, i, .list (.keyword k) [test, yes, no], s⟩ ⟨r, i, no, s'⟩
  /-- The operands of `begin`, `and`, `or` and `not`. -/
  | sequence {r : Nat} {i : ScopeId} {k : Token} {es : List Expr} {s : Store} {p : Point}
      (hk : k.kind = .keyword .begin) (hrow : InRow limit r i (fun _ => True) es s p) :
      Asks limit ⟨r, i, .list (.keyword k) es, s⟩ p
  | conjunct {r : Nat} {i : ScopeId} {k : Token} {es : List Expr} {s : Store} {p : Point}
      (hk : k.kind = .keyword .and) (hrow : InRow limit r i (fun v => v.isTruthy = true) es s p) :
      Asks limit ⟨r, i, .list (.keyword k) es, s⟩ p
  | disjunct {r : Nat} {i : ScopeId} {k : Token} {es : List Expr} {s : Store} {p : Point}
      (hk : k.kind = .keyword .or) (hrow : InRow limit r i (fun v => v.isTruthy = false) es s p) :
      Asks limit ⟨r, i, .list (.keyword k) es, s⟩ p
  | negated {r : Nat} {i : ScopeId} {k : Token} {e : Expr} {s : Store}
      (hk : k.kind = .keyword .not) :
      Asks limit ⟨r, i, .list (.keyword k) [e], s⟩ ⟨r, i, e, s⟩
  /-- The value of a `set`. -/
  | assigned {r : Nat} {i : ScopeId} {k name : Token} {e : Expr} {s : Store}
      (hk : k.kind = .keyword .assign) :
      Asks limit ⟨r, i, .list (.keyword k) [.symbol name, e], s⟩ ⟨r, i, e, s⟩
  /-- The values that a `let` binds, outside of the scope that it has made, and its body, inside. -/
  | initialiser {r : Nat} {i : ScopeId} {k : Token} {b : Token × Expr} {bs : List (Token × Expr)}
      {body : List Expr} {s : Store} {p : Point} (hk : k.IsBind)
      (hrow : InBindings limit r i s.scopes.size (b :: bs) (s.newChild i).2 p) :
      Asks limit ⟨r, i, letIn k b bs body, s⟩ p
  | inner {r : Nat} {i : ScopeId} {k : Token} {b : Token × Expr} {bs : List (Token × Expr)}
      {body : List Expr} {s s' : Store} {p : Point} (hk : k.IsBind)
      (hfill : fillAll limit (bodies limit r) i k s.scopes.size ((b :: bs).map binding)
        (s.newChild i).2 = (.ok (), s'))
      (hrow : InRow limit r s.scopes.size (fun _ => True) body s' p) :
      Asks limit ⟨r, i, letIn k b bs body, s⟩ p

/-- The points of an evaluation that begins at a point: itself, those that it begins, those that
these begin, and so on. -/
abbrev Within (limit : Nat) : Point → Point → Prop :=
  Relation.ReflTransGen (Asks limit)

namespace Invariant

variable {I : Invariant} {limit : Nat}

/-- Whether an invariant holds at a point. -/
def Holds (I : Invariant) (p : Point) : Prop :=
  I.store p.store ∧ I.place p.store p.scope p.expr

theorem Lawful.after (hI : I.Lawful) {remaining : Nat} {i : ScopeId} {e : Expr} {s s' : Store}
    {v : Value} (heval : inCalls limit remaining i e s = (.ok v, s')) (h : I.store s)
    (hplace : I.place s i e) : s.Extends s' ∧ I.store s' ∧ I.value s' v := by
  have hkeeps := hI.keeps_inCalls limit remaining h hplace
  rw [heval] at hkeeps
  exact ⟨hkeeps.later, hkeeps.store, hkeeps.result v rfl⟩

theorem Lawful.holds_of_inRow (hI : I.Lawful) {remaining : Nat} {i : ScopeId}
    {permits : Value → Prop} {es : List Expr} {s : Store} {p : Point}
    (hrow : InRow limit remaining i permits es s p) (h : I.store s)
    (hplaces : ∀ e ∈ es, I.place s i e) : I.Holds p := by
  induction hrow with
  | here => exact ⟨h, hplaces _ List.mem_cons_self⟩
  | later heval _ _ ih =>
      obtain ⟨hfirst, hrest⟩ := List.forall_mem_cons.mp hplaces
      obtain ⟨hlater, hstore, -⟩ := hI.after heval h hfirst
      exact ih hstore fun e he => hI.place_later hlater (hrest e he)

/-- The bindings of a `let` are evaluated where it is, and so are the expressions in them. -/
theorem Lawful.place_of_bindings (hI : I.Lawful) {s : Store} {i : ScopeId} {k : Token}
    {b : Token × Expr} {bs : List (Token × Expr)} {body : List Expr} (hk : k.IsBind)
    (h : I.place s i (letIn k b bs body)) : ∀ e ∈ (b :: bs).map binding, I.place s i e :=
  List.forall_mem_cons.mpr (hI.place_list (by simp [binding]) (hI.place_bindings hk h))

theorem Lawful.place_of_binding (hI : I.Lawful) {s : Store} {i : ScopeId} {b : Token × Expr}
    (h : I.place s i (binding b)) : I.place s i b.2 :=
  (hI.place_list (by simp) h).2 b.2 List.mem_cons_self

theorem Lawful.holds_of_inBindings (hI : I.Lawful) {remaining : Nat} {i inner : ScopeId}
    {bs : List (Token × Expr)} {s : Store} {p : Point}
    (hrow : InBindings limit remaining i inner bs s p) (h : I.store s) (hinner : I.inner s inner)
    (hplaces : ∀ e ∈ bs.map binding, I.place s i e) : I.Holds p := by
  induction hrow with
  | here => exact ⟨h, hI.place_of_binding (hplaces _ List.mem_cons_self)⟩
  | @later b _ _ _ v _ heval _ ih =>
      obtain ⟨hfirst, hrest⟩ := List.forall_mem_cons.mp hplaces
      obtain ⟨hlater, hstore, hvalue⟩ := hI.after heval h (hI.place_of_binding hfirst)
      have hlater' := hlater.trans (Store.extends_define _ inner b.1.lexeme v)
      exact ih (hI.fill hstore (hI.inner_later hlater hinner) hvalue)
        (hI.inner_later hlater' hinner) fun e he => hI.place_later hlater' (hrest e he)

/-- The operands of a form that is no `let` are evaluated where it is. -/
theorem Lawful.place_of_operand (hI : I.Lawful) {s : Store} {i : ScopeId} {k : Token}
    {operands : List Expr} {word : Keyword} (hk : k.kind = .keyword word) (hword : word ≠ .bind)
    (h : I.place s i (.list (.keyword k) operands)) : ∀ e ∈ operands, I.place s i e := by
  refine (hI.place_list ?_ h).2
  intro k' hk' hbind
  cases hk'
  rw [Token.IsBind, hk] at hbind
  cases hbind
  exact hword rfl

/-- What is lawful holds at the points that an evaluation begins. -/
theorem Lawful.holds_of_asks (hI : I.Lawful) {p q : Point} (hasks : Asks limit p q)
    (h : I.Holds p) : I.Holds q := by
  obtain ⟨hstore, hplace⟩ := h
  have hnoBind {head : Expr} (hhead : ∀ k, head ≠ .keyword k) :
      ∀ k, head = .keyword k → ¬ k.IsBind :=
    fun k hk => absurd hk (hhead k)
  cases hasks with
  | head hhead => exact ⟨hstore, (hI.place_list (hnoBind hhead) hplace).1⟩
  | operand hhead hv _ hrow =>
      obtain ⟨hplace, hoperands⟩ := hI.place_list (hnoBind hhead) hplace
      obtain ⟨hlater, hstore', -⟩ := hI.after hv hstore hplace
      exact hI.holds_of_inRow hrow hstore' fun e he => hI.place_later hlater (hoperands e he)
  | @body r _ _ _ _ _ _ _ vs hhead hc hvs _ =>
      obtain ⟨hplace, hoperands⟩ := hI.place_list (hnoBind hhead) hplace
      obtain ⟨hlater, hstore', hclosure⟩ := hI.after hc hstore hplace
      have hkeeps := hI.keeps_evaluateAll limit (r + 1) hstore'
        fun e he => hI.place_later hlater (hoperands e he)
      rw [hvs] at hkeeps
      exact hI.enter hkeeps.store (hI.closure_later hkeeps.later hclosure) (hkeeps.result vs rfl)
  | test hk _ => exact ⟨hstore, hI.place_of_operand hk (by simp) hplace _ (by simp)⟩
  | yes hk _ htest _ =>
      have hoperands := hI.place_of_operand hk (by simp) hplace
      obtain ⟨hlater, hstore', -⟩ := hI.after htest hstore (hoperands _ List.mem_cons_self)
      exact ⟨hstore', hI.place_later hlater (hoperands _ (by simp))⟩
  | no hk htest _ =>
      have hoperands := hI.place_of_operand hk (by simp) hplace
      obtain ⟨hlater, hstore', -⟩ := hI.after htest hstore (hoperands _ List.mem_cons_self)
      exact ⟨hstore', hI.place_later hlater (hoperands _ (by simp))⟩
  | sequence hk hrow =>
      exact hI.holds_of_inRow hrow hstore (hI.place_of_operand hk (by simp) hplace)
  | conjunct hk hrow =>
      exact hI.holds_of_inRow hrow hstore (hI.place_of_operand hk (by simp) hplace)
  | disjunct hk hrow =>
      exact hI.holds_of_inRow hrow hstore (hI.place_of_operand hk (by simp) hplace)
  | negated hk => exact ⟨hstore, hI.place_of_operand hk (by simp) hplace _ (by simp)⟩
  | assigned hk => exact ⟨hstore, hI.place_of_operand hk (by simp) hplace _ (by simp)⟩
  | @initialiser r i k b bs body s p hk hrow =>
      have hlater := Store.extends_newChild s i
      obtain ⟨hmade, hinner, -⟩ := hI.bind hstore hk hplace
      exact hI.holds_of_inBindings hrow hmade hinner fun e he =>
        hI.place_later hlater (hI.place_of_bindings hk hplace e he)
  | @inner r i k b bs body s s' p hk hfill hrow =>
      have hlater := Store.extends_newChild s i
      obtain ⟨hmade, hinner, hbody⟩ := hI.bind hstore hk hplace
      have hkeeps := hI.keeps_fillAll limit r k hmade hinner fun e he =>
        hI.place_later hlater (hI.place_of_bindings hk hplace e he)
      rw [hfill] at hkeeps
      exact hI.holds_of_inRow hrow hkeeps.store fun e he =>
        hI.place_later hkeeps.later (hbody e he)

/-- **What is lawful holds at every point of an evaluation**, and when what begins there is over. -/
theorem Lawful.holds_within (hI : I.Lawful) {p q : Point} (hwithin : Within limit p q)
    (h : I.Holds p) : I.Holds q ∧ I.store (q.outcome limit).2 := by
  have hq : I.Holds q := by
    induction hwithin with
    | refl => exact h
    | tail _ hasks ih => exact hI.holds_of_asks hasks ih
  exact ⟨hq, (hI.keeps_inCalls limit q.remaining hq.1 hq.2).store⟩

end Invariant

end Eval

end SmallLisp
