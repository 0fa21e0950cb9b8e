/-
Two evaluations that go hand in hand.

An expression is evaluated in one store and an expression that is the same, up to a recasting, in
another store that is alike in some respect.  What has to be known so that the stores stay alike, and so
that the outcomes are alike too?  Only what the evaluator asks of a store: what names mean, what
assigning, defining and making a scope do, and where the parts of an expression are evaluated.
`Correspondence` names the likeness, `Lawful` lists these demands, and `agree_inCalls` is the theorem
that they are enough.

The proof follows the evaluator function by function, and no other proof has to: what is said here of
two expressions, two stores and two limits holds of one expression, one store or one limit as well.
`Agree` says of two computations that they lead from alike stores to alike stores with alike outcomes;
`Agree.bind` puts two of them together.  The body of a function is no part of the expression that calls
it, so there the hypothesis on entering bodies takes over, which is discharged by induction on the calls
that may still be entered.
-/
import SmallLisp.Proofs.Eval.Run
import SmallLisp.Proofs.Relabel.Recasting

namespace SmallLisp

/-- The keyword of a form whose first operand is a list of bindings. -/
def Token.IsBind (t : Token) : Prop :=
  t.kind = .keyword .bind

instance : DecidablePred Token.IsBind :=
  fun t => inferInstanceAs (Decidable (t.kind = .keyword .bind))

namespace Eval

/-! ### What is alike

A likeness is more than a relation of stores.  An expression is evaluated in a scope, a call makes a
scope inside the one of the function, a `let` makes one and fills it while it evaluates elsewhere: all of
these have to be alike in the two stores for the stores to stay alike.
-/

/-- A respect in which two stores can be alike, with their scopes and functions, and what may stand for
what in the expressions. -/
structure Correspondence extends Recasting where
  /-- Whether two stores are alike. -/
  stores : Store → Store → Prop
  /-- Whether two scopes are alike as places where an expression is evaluated. -/
  places : Store → Store → ScopeId → ScopeId → Expr → Prop
  /-- Whether two scopes are alike as those that a `let` fills. -/
  inners : Store → Store → ScopeId → ScopeId → Prop
  /-- Whether two functions are alike. -/
  closures : Store → Store → Closure → Closure → Prop

namespace Correspondence

/-- Values that are alike: the same datum, operators that stand for each other, or functions that are
alike. -/
abbrev Alike (R : Correspondence) (s t : Store) : Value → Value → Prop :=
  Value.Alike R.mark (R.closures s t)

/-- Several values that are alike, one by one. -/
abbrev Alikes (R : Correspondence) (s t : Store) : List Value → List Value → Prop :=
  List.Forall₂ (R.Alike s t)

/-- What the evaluator asks of a likeness. -/
structure Lawful (R : Correspondence) : Prop where
  /-- What is alike stays alike in later stores. -/
  closures_later {s s' t t' : Store} {c d : Closure} (hs : s.Extends s') (ht : t.Extends t')
    (h : R.closures s t c d) : R.closures s' t' c d
  places_later {s s' t t' : Store} {i j : ScopeId} {e : Expr} (hs : s.Extends s')
    (ht : t.Extends t') (h : R.places s t i j e) : R.places s' t' i j e
  inners_later {s s' t t' : Store} {i j : ScopeId} (hs : s.Extends s') (ht : t.Extends t')
    (h : R.inners s t i j) : R.inners s' t' i j
  /-- A list is evaluated where its parts are evaluated. -/
  places_list {s t : Store} {i j : ScopeId} {head : Expr} {operands : List Expr}
    (hbind : ∀ k, head = .keyword k → ¬ k.IsBind) (h : R.places s t i j (.list head operands)) :
    R.places s t i j head ∧ ∀ e ∈ operands, R.places s t i j e
  places_bindings {s t : Store} {i j : ScopeId} {k : Token} {bindings : Expr} {body : List Expr}
    (hbind : k.IsBind) (h : R.places s t i j (.list (.keyword k) (bindings :: body))) :
    R.places s t i j bindings
  /-- Functions that are alike do the same, and are told from others alike. -/
  closures_params {s t : Store} {c d : Closure} (h : R.closures s t c d) :
    List.Forall₂ R.name c.params d.params
  closures_body {s t : Store} {c d : Closure} (h : R.closures s t c d) : R.SameExpr c.body d.body
  closures_identity {s t : Store} {c c' d d' : Closure} (h : R.closures s t c d)
    (h' : R.closures s t c' d') : d.identity = d'.identity ↔ c.identity = c'.identity
  /-- Names mean what is alike. -/
  lookup {s t : Store} {i j : ScopeId} {name name' : Token} (h : R.stores s t)
    (hplace : R.places s t i j (.symbol name)) (hname : R.name name name') :
    Option.Rel (R.Alike s t) (s.lookup i name.lexeme) (t.lookup j name'.lexeme)
  /-- Assigning, defining, and making and filling a scope keep stores alike. -/
  assign {s t : Store} {i j : ScopeId} {name name' : Token} {v w : Value} (h : R.stores s t)
    (hplace : R.places s t i j (.symbol name)) (hname : R.name name name')
    (hvalue : R.Alike s t v w) :
    Option.Rel R.stores (s.assign? i name.lexeme v) (t.assign? j name'.lexeme w)
  define {s t : Store} {i j : ScopeId} {name name' : Token} {params params' : List Token}
    {body body' : Expr} (h : R.stores s t) (hplace : R.places s t i j (.define name params body))
    (hsame : R.SameExpr (.define name params body) (.define name' params' body')) :
    R.stores (s.withFunction i name params body) (t.withFunction j name' params' body')
  enter {s t : Store} {c d : Closure} {vs ws : List Value} (h : R.stores s t)
    (hclosure : R.closures s t c d) (hvalues : R.Alikes s t vs ws) :
    let s' := (s.newFrame c.scope ((c.params.map Token.lexeme).zip vs)).2
    let t' := (t.newFrame d.scope ((d.params.map Token.lexeme).zip ws)).2
    R.stores s' t' ∧ R.places s' t' s.scopes.size t.scopes.size c.body
  bind {s t : Store} {i j : ScopeId} {k : Token} {bindings : Expr} {body : List Expr}
    (h : R.stores s t) (hbind : k.IsBind)
    (hplace : R.places s t i j (.list (.keyword k) (bindings :: body))) :
    let s' := (s.newChild i).2
    let t' := (t.newChild j).2
    R.stores s' t' ∧ R.inners s' t' s.scopes.size t.scopes.size ∧
      ∀ e ∈ body, R.places s' t' s.scopes.size t.scopes.size e
  fill {s t : Store} {i j : ScopeId} {name name' : Token} {v w : Value} (h : R.stores s t)
    (hinner : R.inners s t i j) (hname : R.name name name') (hvalue : R.Alike s t v w) :
    R.stores (s.define i name.lexeme v) (t.define j name'.lexeme w)

variable {R : Correspondence} {s s' t t' : Store} {i j : ScopeId}

theorem later_alike (hR : R.Lawful) (hs : s.Extends s') (ht : t.Extends t') {v w : Value}
    (h : R.Alike s t v w) : R.Alike s' t' v w :=
  h.imp (hR.closures_later hs ht)

/-! ### Computations that go hand in hand

A computation is the store that it leaves and an outcome.  What is true of its start may be needed
after its end, so it is part of the statement that both stores only become later ones.
-/

/-- Whether two computations lead from two stores to later ones that are alike, with outcomes that
are alike there. -/
structure Agree (R : Correspondence) {α β : Type} (P : Store → Store → α → β → Prop) (s t : Store)
    (x : Except EvalError α × Store) (y : Except EvalError β × Store) : Prop where
  left : s.Extends x.2
  right : t.Extends y.2
  stores : R.stores x.2 y.2
  outcome : R.SameOutcome (P x.2 y.2) x.1 y.1

section

variable {α β γ δ : Type} {P : Store → Store → α → β → Prop} {Q : Store → Store → γ → δ → Prop}

theorem Agree.pure (h : R.stores s t) {a : α} {b : β} (hab : P s t a b) :
    R.Agree P s t ((Pure.pure a : M α) s) ((Pure.pure b : M β) t) :=
  ⟨.refl s, .refl t, h, .ok hab⟩

theorem Agree.throw (h : R.stores s t) {e e' : EvalError} (he : R.SameError e e') :
    R.Agree P s t ((MonadExcept.throw e : M α) s) ((MonadExcept.throw e' : M β) t) :=
  ⟨.refl s, .refl t, h, .error he⟩

/-- What follows from stores that are earlier still. -/
theorem Agree.earlier {x : Except EvalError α × Store} {y : Except EvalError β × Store}
    (hs : s.Extends s') (ht : t.Extends t') (h : R.Agree P s' t' x y) : R.Agree P s t x y :=
  ⟨hs.trans h.left, ht.trans h.right, h.stores, h.outcome⟩

theorem Agree.bind {x : M α} {y : M β} {k : α → M γ} {l : β → M δ}
    (hx : R.Agree P s t (x s) (y t))
    (hk : ∀ {s' t' a b}, s.Extends s' → t.Extends t' → R.stores s' t' → P s' t' a b →
      R.Agree Q s' t' (k a s') (l b t')) :
    R.Agree Q s t ((x >>= k) s) ((y >>= l) t) := by
  rw [bind_apply, bind_apply]
  revert hx
  rcases x s with ⟨a, s'⟩
  rcases y t with ⟨b, t'⟩
  rintro ⟨hs, ht, hstores, houtcome⟩
  cases houtcome with
  | error h => exact ⟨hs, ht, hstores, .error h⟩
  | ok h => exact (hk hs ht hstores h).earlier hs ht

end

/-! ### What touches the store

Each of these computations is one operation on the store, and the law for that operation says that it
goes hand in hand with its like.
-/

section

variable (hR : R.Lawful) (h : R.stores s t)
include hR h

theorem agree_valueOf {name name' : Token} (hplace : R.places s t i j (.symbol name))
    (hname : R.name name name') :
    R.Agree R.Alike s t (valueOf i name s) (valueOf j name' t) := by
  have hlookup := hR.lookup h hplace hname
  rw [valueOf_apply, valueOf_apply]
  revert hlookup
  cases s.lookup i name.lexeme <;> cases t.lookup j name'.lexeme <;> intro hlookup <;> cases hlookup
  · exact .throw h (.undefinedVariable hname)
  · rename_i hvalue
    exact .pure h hvalue

theorem agree_assign {name name' : Token} {v w : Value} (hplace : R.places s t i j (.symbol name))
    (hname : R.name name name') (hvalue : R.Alike s t v w) :
    R.Agree (fun _ _ _ _ => True) s t (assign i name v s) (assign j name' w t) := by
  have hassign := hR.assign h hplace hname hvalue
  rw [assign_apply, assign_apply]
  revert hassign
  cases hs : s.assign? i name.lexeme v <;> cases ht : t.assign? j name'.lexeme w <;>
    intro hassign <;> cases hassign
  · exact .throw h (.undefinedVariable hname)
  · rename_i hstores
    exact ⟨Store.extends_assign? hs, Store.extends_assign? ht, hstores, .ok trivial⟩

theorem agree_define {name name' : Token} {params params' : List Token} {body body' : Expr}
    (hplace : R.places s t i j (.define name params body))
    (hsame : R.SameExpr (.define name params body) (.define name' params' body')) :
    R.Agree (fun _ _ _ _ => True) s t (define i name params body s)
      (define j name' params' body' t) :=
  ⟨Store.extends_withFunction s i name params body,
    Store.extends_withFunction t j name' params' body', hR.define h hplace hsame, .ok trivial⟩

theorem agree_bindName {name name' : Token} {v w : Value} (hinner : R.inners s t i j)
    (hname : R.name name name') (hvalue : R.Alike s t v w) :
    R.Agree (fun _ _ _ _ => True) s t (bindName i name v s) (bindName j name' w t) :=
  ⟨Store.extends_define s i name.lexeme v, Store.extends_define t j name'.lexeme w,
    hR.fill h hinner hname hvalue, .ok trivial⟩

theorem agree_apply {u u' : Token} (hmark : R.mark u u') {vs ws : List Value}
    (hvalues : R.Alikes s t vs ws) :
    R.Agree R.Alike s t ((ExceptT.mk (Pure.pure (Operator.apply u vs)) : M Value) s)
      ((ExceptT.mk (Pure.pure (Operator.apply u' ws)) : M Value) t) :=
  ⟨.refl s, .refl t, h, R.apply_same hmark hR.closures_identity hvalues⟩

end

/-! ### Places

Operands are evaluated one after the other, and each of them in the store that the one before has left.
So what is known of the places of several expressions is taken along to later stores.
-/

/-- Several expressions that are evaluated in the same places. -/
def PlacesAll (R : Correspondence) (s t : Store) (i j : ScopeId) (es : List Expr) : Prop :=
  ∀ e ∈ es, R.places s t i j e

theorem PlacesAll.head {e : Expr} {es : List Expr} (h : R.PlacesAll s t i j (e :: es)) :
    R.places s t i j e :=
  h e List.mem_cons_self

theorem PlacesAll.tail {e : Expr} {es : List Expr} (h : R.PlacesAll s t i j (e :: es)) :
    R.PlacesAll s t i j es := by
  intro e' he'
  exact h e' (List.mem_cons_of_mem _ he')

theorem PlacesAll.later (hR : R.Lawful) (hs : s.Extends s') (ht : t.Extends t') {es : List Expr}
    (h : R.PlacesAll s t i j es) : R.PlacesAll s' t' i j es := by
  intro e he
  exact hR.places_later hs ht (h e he)

/-- The operands of a form that is no `let`. -/
theorem places_operands (hR : R.Lawful) {k : Token} {operands : List Expr} (hk : ¬ k.IsBind)
    (h : R.places s t i j (.list (.keyword k) operands)) : R.PlacesAll s t i j operands := by
  refine (hR.places_list ?_ h).2
  intro k' hk'
  cases hk'
  exact hk

/-- Of bindings that have passed the check, none is the keyword of a `let`. -/
theorem not_isBind_of_bindings {first : Expr} {others : List Expr} {bs : List (Token × Expr)}
    (h : (first :: others).mapM binding? = some bs) :
    ∀ k, first = .keyword k → ¬ k.IsBind := by
  rintro k rfl
  cases bs <;> cases bindings_eq_some_iff.mp h

/-! ### Calls and forms

The evaluator asks of two expressions that are the same for the same parts in the same order.  So the
recursion is on one of them, and the case splits are those of the evaluator.
-/

/-- Whether entering bodies goes hand in hand: both may be entered or neither, in places that are
alike. -/
def AgreeBodies (R : Correspondence) : Option Evaluator → Option Evaluator → Prop :=
  Option.Rel fun enter enter' => ∀ {s t : Store} {i j : ScopeId} {e e' : Expr}, R.stores s t →
    R.places s t i j e → R.SameExpr e e' → R.Agree R.Alike s t (enter i e s) (enter' j e' t)

section

variable {limit limit' : Nat} {enter? enter?' : Option Evaluator} (hR : R.Lawful)
  (hlimit : R.limit limit limit') (henter : R.AgreeBodies enter? enter?')
include hR hlimit henter

theorem agree_call {site site' : Option Token} (hsite : R.SameSite site site') {c d : Closure}
    {vs ws : List Value} (h : R.stores s t) (hclosure : R.closures s t c d)
    (hvalues : R.Alikes s t vs ws) :
    R.Agree R.Alike s t (call limit enter? site c vs s) (call limit' enter?' site' d ws t) := by
  have harity : d.arity = c.arity := (hR.closures_params hclosure).length_eq.symm
  unfold call
  rw [← hvalues.length_eq, harity]
  by_cases hlength : vs.length = c.arity
  · rw [if_pos hlength, if_pos hlength]
    cases henter with
    | none => exact .throw h (.callsTooDeep hlimit hsite)
    | some henter =>
        obtain ⟨hstores, hplace⟩ := hR.enter h hclosure hvalues
        simp only [bind_apply, frame_apply]
        exact (henter hstores hplace (hR.closures_body hclosure)).earlier
          (Store.extends_newFrame ..) (Store.extends_newFrame ..)
  · rw [if_neg hlength, if_neg hlength]
    exact .throw h (.wrongOperandCount _ _ hsite)

/-- An application, once its head and its operands are dealt with. -/
theorem agree_application {head head' : Expr} {operands operands' : List Expr}
    (hsame : R.SameExpr head head') (hne : ∀ k, head ≠ .keyword k)
    (hhead : R.Agree R.Alike s t (evaluate limit enter? i head s)
      (evaluate limit' enter?' j head' t))
    (hoperands : ∀ {s' t'}, s.Extends s' → t.Extends t' → R.stores s' t' →
      R.Agree R.Alikes s' t' (evaluateAll limit enter? i operands s')
        (evaluateAll limit' enter?' j operands' t')) :
    R.Agree R.Alike s t (evaluate limit enter? i (.list head operands) s)
      (evaluate limit' enter?' j (.list head' operands') t) := by
  rw [evaluate, evaluate]
  · refine hhead.bind fun hs ht h hvalue => ?_
    cases hvalue with
    | datum d => exact .throw h (.notCallable _ hsame.token?)
    | operator hmark =>
        exact (hoperands hs ht h).bind fun _ _ h' hvalues => agree_apply hR h' hmark hvalues
    | function hclosure =>
        refine (hoperands hs ht h).bind fun hs' ht' h' hvalues => ?_
        exact agree_call hR hlimit henter hsame.token? h' (hR.closures_later hs' ht' hclosure)
          hvalues
  · exact hsame.ne_keyword hne
  · exact hne

-- The hypotheses are used by way of the recursion.
set_option linter.unusedSectionVars false in
mutual

/-- **What is the same and is evaluated in alike places of alike stores goes hand in hand.** -/
theorem agree_evaluate {s t : Store} {i j : ScopeId} (h : R.stores s t) (e : Expr) {e' : Expr}
    (hsame : R.SameExpr e e') (hplace : R.places s t i j e) :
    R.Agree R.Alike s t (evaluate limit enter? i e s) (evaluate limit' enter?' j e' t) := by
  match e, hsame, hplace with
  | .datum d, .datum _, _ => exact .pure h (.datum d)
  | .symbol _, .symbol hname, hplace => exact agree_valueOf hR h hplace hname
  | .operator _, .operator hmark, _ => exact .pure h (.operator hmark)
  | .keyword _, .keyword hmark, _ => exact .throw h (.unexpectedKeyword hmark)
  | .define _ _ _, .define hname hparams hbody, hplace =>
      exact (agree_define hR h hplace (.define hname hparams hbody)).bind
        fun _ _ h' _ => .pure h' (.datum .nil)
  | .list head operands, .list hhead hoperands, hplace =>
      by_cases hkeyword : ∃ k, head = .keyword k
      · obtain ⟨k, rfl⟩ := hkeyword
        obtain ⟨⟩ := hhead
        rename_i k' hmark
        rw [evaluate, evaluate, R.kind_of_mark hmark]
        by_cases hbind : k.IsBind
        · rw [show k.kind = .keyword .bind from hbind]
          exact agree_bindIn h hmark hbind operands hoperands hplace
        · have hplaces := places_operands hR hbind hplace
          cases hk : k.kind with
          | keyword word =>
              cases word with
              | ifElse => exact agree_branch h hmark operands hoperands hplaces
              | begin => exact agree_sequence h (.datum .nil) operands hoperands hplaces
              | bind => exact absurd hk hbind
              | assign => exact agree_assignment h hmark operands hoperands hplaces
              | and => exact agree_conjunction h (.datum _) operands hoperands hplaces
              | or => exact agree_disjunction h (.datum _) operands hoperands hplaces
              | not => exact agree_negation h hmark operands hoperands hplaces
              | define => exact .throw h (.unexpectedKeyword hmark)
          | _ => exact .throw h (.unexpectedKeyword hmark)
      · have hne : ∀ k, head ≠ .keyword k := fun k hk => hkeyword ⟨k, hk⟩
        obtain ⟨hfirst, hrest⟩ := hR.places_list (fun k hk => absurd hk (hne k)) hplace
        exact agree_application hR hlimit henter hhead hne (agree_evaluate h head hhead hfirst)
          fun hs ht h' => agree_evaluateAll h' operands hoperands (PlacesAll.later hR hs ht hrest)
termination_by structural e

theorem agree_evaluateAll {s t : Store} {i j : ScopeId} (h : R.stores s t) (es : List Expr)
    {es' : List Expr} (hsame : List.Forall₂ R.SameExpr es es') (hplaces : R.PlacesAll s t i j es) :
    R.Agree R.Alikes s t (evaluateAll limit enter? i es s)
      (evaluateAll limit' enter?' j es' t) := by
  match es, hsame, hplaces with
  | [], .nil, _ => exact .pure h .nil
  | e :: es, .cons hfirst hrest, hplaces =>
      refine (agree_evaluate h e hfirst hplaces.head).bind fun hs ht h' hvalue => ?_
      refine (agree_evaluateAll h' es hrest (hplaces.tail.later hR hs ht)).bind
        fun hs' ht' h'' hvalues => ?_
      exact .pure h'' (.cons (later_alike hR hs' ht' hvalue) hvalues)
termination_by structural es

theorem agree_sequence {s t : Store} {i j : ScopeId} (h : R.stores s t) {last last' : Value}
    (hlast : R.Alike s t last last') (es : List Expr) {es' : List Expr}
    (hsame : List.Forall₂ R.SameExpr es es') (hplaces : R.PlacesAll s t i j es) :
    R.Agree R.Alike s t (sequence limit enter? i last es s)
      (sequence limit' enter?' j last' es' t) := by
  match es, hsame, hplaces with
  | [], .nil, _ => exact .pure h hlast
  | e :: es, .cons hfirst hrest, hplaces =>
      refine (agree_evaluate h e hfirst hplaces.head).bind fun hs ht h' hvalue => ?_
      exact agree_sequence h' hvalue es hrest (hplaces.tail.later hR hs ht)
termination_by structural es

theorem agree_branch {s t : Store} {i j : ScopeId} (h : R.stores s t) {k k' : Token}
    (hmark : R.mark k k') (es : List Expr) {es' : List Expr}
    (hsame : List.Forall₂ R.SameExpr es es') (hplaces : R.PlacesAll s t i j es) :
    R.Agree R.Alike s t (branch limit enter? i k es s) (branch limit' enter?' j k' es' t) := by
  have hsite : R.SameSite (some k) (some k') := R.sameSite_mark hmark
  match es, hsame, hplaces with
  | [test, yes], .cons htest (.cons hyes .nil), hplaces =>
      refine (agree_evaluate h test htest hplaces.head).bind fun hs ht h' hvalue => ?_
      rw [hvalue.isTruthy_eq]
      split
      · exact agree_evaluate h' yes hyes (hplaces.tail.later hR hs ht).head
      · exact .pure h' (.datum .nil)
  | [test, yes, no], .cons htest (.cons hyes (.cons hno .nil)), hplaces =>
      refine (agree_evaluate h test htest hplaces.head).bind fun hs ht h' hvalue => ?_
      rw [hvalue.isTruthy_eq]
      split
      · exact agree_evaluate h' yes hyes (hplaces.tail.later hR hs ht).head
      · exact agree_evaluate h' no hno (hplaces.tail.later hR hs ht).tail.head
  | [], .nil, _ => exact .throw h (.wrongOperandCount "2 or 3" 0 hsite)
  | [_], .cons _ .nil, _ => exact .throw h (.wrongOperandCount "2 or 3" 1 hsite)
  | _ :: _ :: _ :: _ :: es, .cons _ (.cons _ (.cons _ (.cons _ hrest))), _ =>
      simp only [branch, List.length_cons, ← hrest.length_eq]
      exact .throw h (.wrongOperandCount "2 or 3" _ hsite)
termination_by structural es

theorem agree_conjunction {s t : Store} {i j : ScopeId} (h : R.stores s t) {last last' : Value}
    (hlast : R.Alike s t last last') (es : List Expr) {es' : List Expr}
    (hsame : List.Forall₂ R.SameExpr es es') (hplaces : R.PlacesAll s t i j es) :
    R.Agree R.Alike s t (conjunction limit enter? i last es s)
      (conjunction limit' enter?' j last' es' t) := by
  match es, hsame, hplaces with
  | [], .nil, _ => exact .pure h hlast
  | e :: es, .cons hfirst hrest, hplaces =>
      refine (agree_evaluate h e hfirst hplaces.head).bind fun hs ht h' hvalue => ?_
      rw [hvalue.isTruthy_eq]
      split
      · exact agree_conjunction h' hvalue es hrest (hplaces.tail.later hR hs ht)
      · exact .pure h' hvalue
termination_by structural es

theorem agree_disjunction {s t : Store} {i j : ScopeId} (h : R.stores s t) {last last' : Value}
    (hlast : R.Alike s t last last') (es : List Expr) {es' : List Expr}
    (hsame : List.Forall₂ R.SameExpr es es') (hplaces : R.PlacesAll s t i j es) :
    R.Agree R.Alike s t (disjunction limit enter? i last es s)
      (disjunction limit' enter?' j last' es' t) := by
  match es, hsame, hplaces with
  | [], .nil, _ => exact .pure h hlast
  | e :: es, .cons hfirst hrest, hplaces =>
      refine (agree_evaluate h e hfirst hplaces.head).bind fun hs ht h' hvalue => ?_
      rw [hvalue.isTruthy_eq]
      split
      · exact .pure h' hvalue
      · exact agree_disjunction h' hvalue es hrest (hplaces.tail.later hR hs ht)
termination_by structural es

theorem agree_negation {s t : Store} {i j : ScopeId} (h : R.stores s t) {k k' : Token}
    (hmark : R.mark k k') (es : List Expr) {es' : List Expr}
    (hsame : List.Forall₂ R.SameExpr es es') (hplaces : R.PlacesAll s t i j es) :
    R.Agree R.Alike s t (negation limit enter? i k es s)
      (negation limit' enter?' j k' es' t) := by
  have hsite : R.SameSite (some k) (some k') := R.sameSite_mark hmark
  match es, hsame, hplaces with
  | [e], .cons hfirst .nil, hplaces =>
      refine (agree_evaluate h e hfirst hplaces.head).bind fun _ _ h' hvalue => ?_
      rw [hvalue.isTruthy_eq]
      exact .pure h' (.datum _)
  | [], .nil, _ => exact .throw h (.wrongOperandCount "1" 0 hsite)
  | _ :: _ :: es, .cons _ (.cons _ hrest), _ =>
      simp only [negation, List.length_cons, ← hrest.length_eq]
      exact .throw h (.wrongOperandCount "1" _ hsite)
termination_by structural es

theorem agree_assignment {s t : Store} {i j : ScopeId} (h : R.stores s t) {k k' : Token}
    (hmark : R.mark k k') (es : List Expr) {es' : List Expr}
    (hsame : List.Forall₂ R.SameExpr es es') (hplaces : R.PlacesAll s t i j es) :
    R.Agree R.Alike s t (assignment limit enter? i k es s)
      (assignment limit' enter?' j k' es' t) := by
  have hsite : R.SameSite (some k) (some k') := R.sameSite_mark hmark
  match es, hsame, hplaces with
  | [target, e], .cons htarget (.cons hvalue .nil), hplaces =>
      by_cases hsymbol : ∃ name, target = .symbol name
      · obtain ⟨name, rfl⟩ := hsymbol
        obtain ⟨⟩ := htarget
        rename_i name' hname
        refine (agree_evaluate h e hvalue hplaces.tail.head).bind fun hs ht h' hvalue => ?_
        have hplace := (hplaces.later hR hs ht).head
        refine (agree_assign hR h' hplace hname hvalue).bind fun hs' ht' h'' _ => ?_
        exact .pure h'' (later_alike hR hs' ht' hvalue)
      · have hne (name : Token) : target ≠ .symbol name := fun h => hsymbol ⟨name, h⟩
        rw [assignment, assignment]
        · exact .throw h (.malformed "expect variable name after 'set'" hmark)
        · exact htarget.ne_symbol hne
        · exact hne
  | [], .nil, _ => exact .throw h (.wrongOperandCount "2" 0 hsite)
  | [_], .cons _ .nil, _ =>
      rw [assignment, assignment]
      · exact .throw h (.wrongOperandCount "2" 1 hsite)
      all_goals simp
  | _ :: _ :: _ :: es, .cons _ (.cons _ (.cons _ hrest)), _ =>
      rw [assignment, assignment]
      · simp only [List.length_cons, ← hrest.length_eq]
        exact .throw h (.wrongOperandCount "2" _ hsite)
      all_goals simp
termination_by structural es

theorem agree_bindIn {s t : Store} {i j : ScopeId} (h : R.stores s t) {k k' : Token}
    (hmark : R.mark k k') (hk : k.IsBind) (es : List Expr) {es' : List Expr}
    (hsame : List.Forall₂ R.SameExpr es es') (hplace : R.places s t i j (.list (.keyword k) es)) :
    R.Agree R.Alike s t (bindIn limit enter? i k es s) (bindIn limit' enter?' j k' es' t) := by
  match es with
  | .list first others :: body =>
      rcases hsame with _ | ⟨⟨⟩, hbody⟩
      rename_i hfirst hothers
      have hsame := R.isSome_bindings_eq (.cons hfirst hothers)
      rw [bindIn, bindIn]
      revert hsame
      cases hchecked : (first :: others).mapM binding? <;>
        cases (_ :: _ : List Expr).mapM binding? <;> intro hsame <;> cases hsame
      · exact .throw h (.malformed _ hmark)
      · -- The scope is made first, and is filled while its outside is evaluated.
        obtain ⟨hmade, hinner, hplaces⟩ := hR.bind h hk hplace
        have hs := Store.extends_newChild s i
        have ht := Store.extends_newChild t j
        have hparts := hR.places_later hs ht (hR.places_bindings hk hplace)
        obtain ⟨hplace₁, hplace₂⟩ := hR.places_list (not_isBind_of_bindings hchecked) hparts
        simp only
        rw [bind_apply, bind_apply, child_apply, child_apply]
        refine Agree.earlier hs ht ?_
        refine (agree_fill hmade hmark hinner first hfirst hplace₁).bind fun hs₁ ht₁ h₁ _ => ?_
        refine (agree_fillAll h₁ hmark (hR.inners_later hs₁ ht₁ hinner) others hothers
          (PlacesAll.later hR hs₁ ht₁ hplace₂)).bind fun hs₂ ht₂ h₂ _ => ?_
        exact agree_sequence h₂ (.datum .nil) body hbody
          (PlacesAll.later hR (hs₁.trans hs₂) (ht₁.trans ht₂) hplaces)
  | [] =>
      cases hsame
      exact .throw h (.malformed _ hmark)
  | .datum _ :: _ | .symbol _ :: _ | .operator _ :: _ | .keyword _ :: _ | .define _ _ _ :: _ =>
      rcases hsame with _ | ⟨⟨⟩, _⟩
      exact .throw h (.malformed _ hmark)
termination_by structural es

theorem agree_fill {s t : Store} {i j a b : ScopeId} (h : R.stores s t) {k k' : Token}
    (hmark : R.mark k k') (hinner : R.inners s t a b) (e : Expr) {e' : Expr}
    (hsame : R.SameExpr e e') (hplace : R.places s t i j e) :
    R.Agree (fun _ _ _ _ => True) s t (fill limit enter? i k a e s)
      (fill limit' enter?' j k' b e' t) := by
  match e with
  | .list (.symbol name) [e] =>
      rcases hsame with _ | _ | _ | _ | ⟨⟨⟩, _ | ⟨hinit, ⟨⟩⟩⟩
      rename_i hname _
      have hparts := hR.places_list (by simp) hplace
      refine (agree_evaluate h e hinit (hparts.2 e List.mem_cons_self)).bind
        fun hs ht h' hvalue => ?_
      exact agree_bindName hR h' (hR.inners_later hs ht hinner) hname hvalue
  | .list (.symbol _) [] | .list (.symbol _) (_ :: _ :: _) =>
      rcases hsame with _ | _ | _ | _ | ⟨⟨⟩, hoperands⟩
      rcases hoperands with _ | ⟨_, _ | ⟨_, _⟩⟩
      exact .throw h (.malformed _ hmark)
  | .list (.datum _) _ | .list (.operator _) _ | .list (.keyword _) _ | .list (.list _ _) _
  | .list (.define _ _ _) _ =>
      rcases hsame with _ | _ | _ | _ | ⟨⟨⟩, _⟩
      exact .throw h (.malformed _ hmark)
  | .datum _ | .symbol _ | .operator _ | .keyword _ | .define _ _ _ =>
      cases hsame
      exact .throw h (.malformed _ hmark)
termination_by structural e

theorem agree_fillAll {s t : Store} {i j a b : ScopeId} (h : R.stores s t) {k k' : Token}
    (hmark : R.mark k k') (hinner : R.inners s t a b) (es : List Expr) {es' : List Expr}
    (hsame : List.Forall₂ R.SameExpr es es') (hplaces : R.PlacesAll s t i j es) :
    R.Agree (fun _ _ _ _ => True) s t (fillAll limit enter? i k a es s)
      (fillAll limit' enter?' j k' b es' t) := by
  match es, hsame, hplaces with
  | [], .nil, _ => exact .pure h trivial
  | e :: es, .cons hfirst hrest, hplaces =>
      refine (agree_fill h hmark hinner e hfirst hplaces.head).bind fun hs ht h' _ => ?_
      exact agree_fillAll h' hmark (hR.inners_later hs ht hinner) es hrest
        (hplaces.tail.later hR hs ht)
termination_by structural es

end

end

/-! ### Whole evaluations -/

/-- **Two evaluations that begin alike stay alike, however many calls they enter.** -/
theorem agree_inCalls (hR : R.Lawful) {limit limit' : Nat} (hlimit : R.limit limit limit')
    (remaining : Nat) {e e' : Expr} (h : R.stores s t) (hsame : R.SameExpr e e')
    (hplace : R.places s t i j e) :
    R.Agree R.Alike s t (inCalls limit remaining i e s) (inCalls limit' remaining j e' t) := by
  induction remaining generalizing s t i j e e' with
  | zero => exact agree_evaluate hR hlimit .none h e hsame hplace
  | succ remaining ih =>
      exact agree_evaluate hR hlimit (.some fun h hplace hsame => ih h hsame hplace) h e hsame
        hplace

theorem agree_bodies (hR : R.Lawful) {limit limit' : Nat} (hlimit : R.limit limit limit')
    (remaining : Nat) : R.AgreeBodies (bodies limit remaining) (bodies limit' remaining) := by
  cases remaining with
  | zero => exact .none
  | succ remaining =>
      exact .some fun h hplace hsame => agree_inCalls hR hlimit remaining h hsame hplace

end Correspondence

end Eval

end SmallLisp
