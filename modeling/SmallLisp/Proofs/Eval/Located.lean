/-
Errors say where they arose.

An error has a token unless something was called that is spelled as a datum, directly or at the head
of a head.  Such a list has no token that could stand for it, and it does nothing: the datum is no
function, so no operand is evaluated and the store stays as it is.  All other errors have a token, even
those of a call, which take it from the head of the list: a head without a token has no value that can
be called (`token?_ne_none_of_callable`).  So an error without a token is followed from point to point,
from where it ends an evaluation to where it was raised, and each time the evaluation is below the one
before.

The token of an error is one of the expression's, or one that the store held before, in an operator or
in the definition of a function.  This needs no invariant of its own.  Tokens that are in a set and
stand for themselves are a recasting; an expression is related to itself by it if its tokens are in the
set, and the error of its evaluation is related to itself as well.
-/
import SmallLisp.Proofs.Eval.Malformed
import SmallLisp.Proofs.Eval.Operator
import SmallLisp.Proofs.Eval.Skipped
import SmallLisp.Proofs.Eval.Termination
import SmallLisp.Proofs.Relabel.Renaming

namespace SmallLisp

/-! ### Tokens

Where a token can come from is a set of tokens, and `among` makes a recasting of it.  A set that has all
tokens of the expression and of the store is large enough for whatever happens.
-/

mutual

/-- The tokens that are in an expression. -/
def Expr.tokens : Expr → List Token
  | .datum _ => []
  | .symbol t | .operator t | .keyword t => [t]
  | .list head operands => head.tokens ++ tokensAll operands
  | .define name params body => name :: (params ++ body.tokens)

/-- The tokens that are in expressions. -/
def Expr.tokensAll : List Expr → List Token
  | [] => []
  | e :: es => e.tokens ++ tokensAll es

end

/-- The tokens that are in a value: that of an operator, and those of the definition of a function. -/
def Value.tokens : Value → List Token
  | .datum _ => []
  | .operator t => [t]
  | .function c => c.name :: (c.params ++ c.body.tokens)

/-- Whether a token is in a value that a scope binds. -/
def Store.Holds (s : Store) (t : Token) : Prop :=
  ∃ i, ∃ b ∈ (s.scope i).bindings, t ∈ b.2.tokens

namespace Recasting

/-- Tokens of a set that stand for themselves. -/
def among (T : Token → Prop) : Recasting where
  rename := id
  name t u := u = t ∧ T t
  mark t u := u = t ∧ T t
  limit l l' := l' = l
  rename_injective := Function.injective_id
  lexeme_of_name h := congrArg Token.lexeme h.1
  kind_of_mark h := congrArg Token.kind h.1

variable {T : Token → Prop}

theorem names_among {ts : List Token} (h : ∀ t ∈ ts, T t) :
    List.Forall₂ (among T).name ts ts :=
  List.forall₂_same.mpr fun t ht => ⟨rfl, h t ht⟩

mutual

theorem sameExpr_among (e : Expr) (h : ∀ t ∈ e.tokens, T t) : (among T).SameExpr e e := by
  match e with
  | .datum d => exact .datum d
  | .symbol t => exact .symbol ⟨rfl, h t List.mem_cons_self⟩
  | .operator t => exact .operator ⟨rfl, h t List.mem_cons_self⟩
  | .keyword t => exact .keyword ⟨rfl, h t List.mem_cons_self⟩
  | .list head operands =>
      rw [Expr.tokens, List.forall_mem_append] at h
      exact .list (sameExpr_among head h.1) (sameExprs_among operands h.2)
  | .define name params body =>
      rw [Expr.tokens, List.forall_mem_cons, List.forall_mem_append] at h
      exact .define ⟨rfl, h.1⟩ (names_among h.2.1) (sameExpr_among body h.2.2)

theorem sameExprs_among (es : List Expr) (h : ∀ t ∈ Expr.tokensAll es, T t) :
    List.Forall₂ (among T).SameExpr es es := by
  match es with
  | [] => exact .nil
  | e :: es =>
      rw [Expr.tokensAll, List.forall_mem_append] at h
      exact .cons (sameExpr_among e h.1) (sameExprs_among es h.2)

end

theorem sameValue_among {v : Value} (h : ∀ t ∈ v.tokens, T t) : (among T).SameValue v v := by
  cases v with
  | datum d => exact .datum d
  | operator t => exact .operator ⟨rfl, h t List.mem_cons_self⟩
  | function c =>
      rw [Value.tokens, List.forall_mem_cons, List.forall_mem_append] at h
      exact .function ⟨rfl, ⟨rfl, h.1⟩, names_among h.2.1, sameExpr_among c.body h.2.2, rfl⟩

theorem sameStore_among {s : Store} (h : ∀ t, s.Holds t → T t) : (among T).SameStore s s where
  size_eq := rfl
  functions_eq := rfl
  scope i := ⟨rfl, List.forall₂_same.mpr fun b hb =>
    ⟨rfl, sameValue_among fun t ht => h t ⟨i, b, hb, ht⟩⟩⟩

end Recasting

namespace Eval

variable {limit remaining : Nat} {i : ScopeId} {s s' : Store} {err : EvalError}

/-- The token of an error is not made up. -/
theorem token_of_error {e : Expr} {t : Token}
    (h : inCalls limit remaining i e s = (.error err, s')) (ht : err.token? = some t) :
    t ∈ e.tokens ∨ s.Holds t := by
  let T : Token → Prop := fun t => t ∈ e.tokens ∨ s.Holds t
  have he : (Recasting.among T).SameExpr e e := Recasting.sameExpr_among e fun _ ht => .inl ht
  have hs : (Recasting.among T).SameStore s s := Recasting.sameStore_among fun _ ht => .inr ht
  have hlimit : (Recasting.among T).limit limit limit := rfl
  obtain ⟨houtcome, -⟩ := Recasting.carries_inCalls hlimit remaining i he s s hs
  rw [h] at houtcome
  cases houtcome with
  | error herr =>
      have hsite := herr.token?
      rw [ht] at hsite
      cases hsite with
      | some hsame => exact hsame.elim And.right And.right

end Eval

/-! ### Heads that are spelled as data

Going to the head of the head and so on comes to a leaf.  If that is a datum the list has no token, and no
value either.
-/

namespace Expr

/-- The leaf that is found by going to the head of a list until there is no list. -/
def leaf : Expr → Expr
  | list head _ => head.leaf
  | e => e

/-- What is passed on the way to that leaf: an expression, its head, the head of that, and so on. -/
def heads : Expr → List Expr
  | list head operands => list head operands :: head.heads
  | e => [e]

/-- Only a datum has no token. -/
theorem token?_eq_none_iff {e : Expr} : e.token? = none ↔ ∃ d, e.leaf = .datum d := by
  induction e using token?.induct with
  | case1 d => exact iff_of_true rfl ⟨d, rfl⟩
  | case2 | case3 | case4 | case6 =>
      constructor
      · intro h
        cases h
      · rintro ⟨d, h⟩
        cases h
  | case5 head operands ih => exact ih

theorem ne_keyword_of_leaf {e : Expr} {d : Datum} (h : e.leaf = .datum d) (k : Token) :
    e ≠ .keyword k := by
  rintro rfl
  cases h

theorem mem_heads_self (e : Expr) : e ∈ e.heads := by
  cases e with
  | list head operands => exact List.mem_cons_self
  | _ => exact List.mem_cons_self

end Expr

namespace Eval

open SmallLisp.Expr (binding letIn)

variable {limit remaining : Nat} {i : ScopeId} {s s' : Store} {err : EvalError}

/-- What is spelled as a datum cannot be called. -/
theorem inCalls_of_leaf {d : Datum} (head : Expr) (h : head.leaf = .datum d)
    (operands : List Expr) :
    inCalls limit remaining i (.list head operands) s =
      (.error (.notCallable none (Value.datum d).typeName), s) := by
  have htoken : head.token? = none := Expr.token?_eq_none_iff.mpr ⟨d, h⟩
  rw [inCalls_eq, evaluate_list (Expr.ne_keyword_of_leaf h), htoken, bind_apply]
  match head, h with
  | .datum _, rfl => rfl
  | .list inner operands', h =>
      have hinner := inCalls_of_leaf inner h operands'
      rw [inCalls_eq] at hinner
      rw [hinner]

/-- What leads with a datum has no value but that datum, alone. -/
theorem eq_datum_of_leaf {d : Datum} {e : Expr} {v : Value} (hleaf : e.leaf = .datum d)
    (h : inCalls limit remaining i e s = (.ok v, s')) : e = .datum d ∧ v = .datum d := by
  match e, hleaf with
  | .datum _, rfl =>
      rw [inCalls_eq, evaluate] at h
      cases h
      exact ⟨rfl, rfl⟩
  | .list head operands, hleaf =>
      rw [inCalls_of_leaf head hleaf] at h
      cases h

/-- A head that has a value which can be called has a token. -/
theorem token?_ne_none_of_callable {head : Expr} {v : Value}
    (h : inCalls limit remaining i head s = (.ok v, s')) (hcall : Callable v) :
    head.token? ≠ none := by
  intro hnone
  obtain ⟨d, hleaf⟩ := Expr.token?_eq_none_iff.mp hnone
  obtain ⟨-, rfl⟩ := eq_datum_of_leaf hleaf h
  exact hcall

/-- The evaluation of a list that leads with a datum begins nothing but that of the head. -/
theorem eq_head_of_asks {head : Expr} {d : Datum} (h : head.leaf = .datum d)
    {operands : List Expr} {q : Point}
    (hasks : Asks limit ⟨remaining, i, .list head operands, s⟩ q) :
    q = ⟨remaining, i, head, s⟩ := by
  have hnone : head.token? = none := Expr.token?_eq_none_iff.mpr ⟨d, h⟩
  cases hasks with
  | head _ => rfl
  | operand _ hv hcall _ => exact absurd hnone (token?_ne_none_of_callable hv hcall)
  | body _ hc _ _ => exact absurd hnone (token?_ne_none_of_callable hc trivial)
  | test | yes | no | sequence | conjunct | disjunct | negated | assigned | initialiser | inner =>
      cases h

/-- So it comes to no operand. -/
theorem mem_heads_of_within {e : Expr} {d : Datum} (h : e.leaf = .datum d) {q : Point}
    (hwithin : Within limit ⟨remaining, i, e, s⟩ q) :
    q = ⟨remaining, i, q.expr, s⟩ ∧ q.expr ∈ e.heads := by
  obtain rfl | ⟨r, hasks, hrest⟩ := Relation.ReflTransGen.cases_head hwithin
  · exact ⟨rfl, e.mem_heads_self⟩
  · match e, h with
    | .datum _, _ => cases hasks
    | .list head operands, h =>
        have h : head.leaf = .datum d := h
        rw [eq_head_of_asks h hasks] at hrest
        obtain ⟨hq, hmem⟩ := mem_heads_of_within h hrest
        exact ⟨hq, List.mem_cons_of_mem _ hmem⟩

/-! ### From where an error ends an evaluation to where it was raised

An error without a token is either raised where it is met, at a datum that is called, or it has come from a
part or a body.  Following it ends, as evaluations do, so it was raised somewhere.
-/

theorem of_bind_error {α β : Type} {x : M α} {k : α → M β} (h : (x >>= k) s = (.error err, s')) :
    x s = (.error err, s') ∨ ∃ a s₁, x s = (.ok a, s₁) ∧ k a s₁ = (.error err, s') := by
  rw [bind_apply] at h
  rcases hx : x s with ⟨e | a, s₁⟩
  · rw [hx] at h
    cases h
    exact .inl rfl
  · rw [hx] at h
    exact .inr ⟨a, s₁, rfl, h⟩

/-- An error in a row is that of one of its expressions. -/
theorem exists_inRow_of_evaluateAll {es : List Expr}
    (h : evaluateAll limit (bodies limit remaining) i es s = (.error err, s')) :
    ∃ q, InRow limit remaining i (fun _ => True) es s q ∧ q.outcome limit = (.error err, s') := by
  induction es generalizing s with
  | nil => cases h
  | cons e es ih =>
      rw [evaluateAll, ← inCalls_eq] at h
      obtain herror | ⟨v, s₁, hv, hrest⟩ := of_bind_error h
      · exact ⟨_, .here, herror⟩
      · obtain hvs | ⟨vs, s₂, -, hpure⟩ := of_bind_error hrest
        · obtain ⟨q, hq, hout⟩ := ih hvs
          exact ⟨q, .later hv trivial hq, hout⟩
        · cases hpure

/-- The same for expressions whose values are given to names. -/
theorem exists_inBindings_of_fillAll {k : Token} {inner : ScopeId} {bs : List (Token × Expr)}
    (h : fillAll limit (bodies limit remaining) i k inner (bs.map binding) s =
      (.error err, s')) :
    ∃ q, InBindings limit remaining i inner bs s q ∧ q.outcome limit = (.error err, s') := by
  induction bs generalizing s with
  | nil => cases h
  | cons b bs ih =>
      rw [fillAll_binding_apply, ← inCalls_eq] at h
      rcases hv : inCalls limit remaining i b.2 s with ⟨e | v, s₁⟩
      · rw [hv] at h
        cases h
        exact ⟨_, .here, hv⟩
      · rw [hv] at h
        obtain ⟨q, hq, hout⟩ := ih h
        exact ⟨q, .later hv hq, hout⟩

/-- The same for what goes on from the value of one expression to the next one if that value permits
it. -/
theorem exists_inRow_of_error {permits : Value → Prop} [DecidablePred permits]
    {run : Value → List Expr → M Value} (hnil : ∀ last, run last [] = pure last)
    (hcons : ∀ last e es, run last (e :: es) =
      inCalls limit remaining i e >>= fun v => if permits v then run v es else pure v)
    {last : Value} {es : List Expr} (h : run last es s = (.error err, s')) :
    ∃ q, InRow limit remaining i permits es s q ∧ q.outcome limit = (.error err, s') := by
  induction es generalizing s last with
  | nil =>
      rw [hnil] at h
      cases h
  | cons e es ih =>
      rw [hcons] at h
      obtain herror | ⟨v, s₁, hv, hrest⟩ := of_bind_error h
      · exact ⟨_, .here, herror⟩
      · by_cases hpermits : permits v
        · rw [if_pos hpermits] at hrest
          obtain ⟨q, hq, hout⟩ := ih hrest
          exact ⟨q, .later hv hpermits hq, hout⟩
        · rw [if_neg hpermits] at hrest
          cases hrest

theorem exists_inRow_of_sequence {last : Value} {es : List Expr}
    (h : sequence limit (bodies limit remaining) i last es s = (.error err, s')) :
    ∃ q, InRow limit remaining i (fun _ => True) es s q ∧ q.outcome limit = (.error err, s') := by
  refine exists_inRow_of_error (fun _ => by rw [sequence]) (fun _ _ _ => ?_) h
  rw [sequence, inCalls_eq]
  simp only [if_true]

/-- The error of an operator points at the operator. -/
theorem token?_of_apply {t : Token} {vs : List Value} (h : Operator.apply t vs = .error err) :
    err.token? = some t := by
  by_cases hkind : ∃ op, t.kind = .operator op
  · obtain ⟨op, hkind⟩ := hkind
    obtain ⟨-, hcount⟩ | ⟨-, -, -, hmisfit⟩ | ⟨v, -, hok⟩ := Operator.apply_cases hkind vs
    · cases h.symm.trans hcount
      rfl
    · cases h.symm.trans hmisfit
      cases op <;> rfl
    · cases h.symm.trans hok
  · have hnot : Operator.apply t vs = .error (.notAnOperator t) :=
      Operator.apply_eq_notAnOperator_iff.mpr (not_exists.mp hkind)
    cases h.symm.trans hnot
    rfl

/-- Whether an error is handed on at a point: it is what an evaluation comes to that is begun
there. -/
def HandedOn (limit : Nat) (p : Point) (err : EvalError) (s' : Store) : Prop :=
  ∃ q, Asks limit p q ∧ q.outcome limit = (.error err, s')

/-- An error without a token in a call with a call site is one of the body. -/
theorem entered_of_call {site : Option Token} (hsite : site ≠ none) {c : Closure} {vs : List Value}
    (hnone : err.token? = none)
    (h : call limit (bodies limit remaining) site c vs s = (.error err, s')) :
    ∃ r, remaining = r + 1 ∧ vs.length = c.arity ∧
      inCalls limit r s.scopes.size c.body
        (s.newFrame c.scope ((c.params.map Token.lexeme).zip vs)).2 = (.error err, s') := by
  unfold call at h
  by_cases harity : vs.length = c.arity
  · rw [if_pos harity] at h
    cases remaining with
    | zero =>
        cases h
        exact absurd hnone hsite
    | succ r =>
        rw [bodies] at h
        simp only [bind_apply, frame_apply, Store.newFrame_fst] at h
        exact ⟨r, rfl, harity, h⟩
  · rw [if_neg harity] at h
    cases h
    exact absurd hnone hsite

/-- An error without a token in an application is handed on, unless the head is a datum. -/
theorem handedOn_of_application {head : Expr} (hhead : ∀ k, head ≠ .keyword k)
    (hdatum : ∀ d, head ≠ .datum d) {operands : List Expr} (hnone : err.token? = none)
    (h : inCalls limit remaining i (.list head operands) s = (.error err, s')) :
    HandedOn limit ⟨remaining, i, .list head operands, s⟩ err s' := by
  rw [inCalls_eq, evaluate_list hhead, ← inCalls_eq] at h
  obtain herror | ⟨callee, s₁, hv, hrest⟩ := of_bind_error h
  · exact ⟨_, .head hhead, herror⟩
  cases callee with
  | datum d =>
      cases hrest
      obtain ⟨d', hleaf⟩ := Expr.token?_eq_none_iff.mp hnone
      exact absurd (eq_datum_of_leaf hleaf hv).1 (hdatum d')
  | operator t =>
      obtain herror | ⟨vs, s₂, hvs, happly⟩ := of_bind_error hrest
      · obtain ⟨q, hq, hout⟩ := exists_inRow_of_evaluateAll herror
        exact ⟨q, .operand hhead hv trivial hq, hout⟩
      · have herror : Operator.apply t vs = .error err := congrArg Prod.fst happly
        rw [token?_of_apply herror] at hnone
        cases hnone
  | function c =>
      obtain herror | ⟨vs, s₂, hvs, hbody⟩ := of_bind_error hrest
      · obtain ⟨q, hq, hout⟩ := exists_inRow_of_evaluateAll herror
        exact ⟨q, .operand hhead hv trivial hq, hout⟩
      · obtain ⟨r, rfl, harity, hout⟩ :=
          entered_of_call (token?_ne_none_of_callable hv trivial) hnone hbody
        exact ⟨_, .body hhead hv hvs harity, hout⟩

section

variable {k : Token} {es : List Expr}

/-- The branches of an `if` that is not malformed. -/
theorem exists_branches (hk : k.kind = .keyword .ifElse) (hgood : ∀ e, ¬ Malformed k es e) :
    ∃ test yes no, es = test :: yes :: no ∧ no.length ≤ 1 := by
  match es, hgood with
  | [], hgood | [_], hgood | _ :: _ :: _ :: _ :: _, hgood =>
      exact absurd (.ifCount hk (by simp) (by simp)) (hgood _)
  | [test, yes], _ => exact ⟨test, yes, [], rfl, Nat.zero_le 1⟩
  | [test, yes, no], _ => exact ⟨test, yes, [no], rfl, Nat.le_refl 1⟩

theorem exists_target (hk : k.kind = .keyword .assign) (hgood : ∀ e, ¬ Malformed k es e) :
    ∃ name value, es = [.symbol name, value] := by
  match es, hgood with
  | [], hgood | [_], hgood | _ :: _ :: _ :: _, hgood =>
      exact absurd (.setCount hk (by simp)) (hgood _)
  | [target, value], hgood =>
      by_contra hshape
      refine hgood _ (.setTarget hk fun name hname => hshape ⟨name, value, ?_⟩)
      rw [hname]

theorem exists_negated (hk : k.kind = .keyword .not) (hgood : ∀ e, ¬ Malformed k es e) :
    ∃ e, es = [e] := by
  by_contra hshape
  exact hgood _ (.notCount hk fun hlength => hshape (List.length_eq_one_iff.mp hlength))

theorem exists_letIn (hk : k.IsBind) (hgood : ∀ e, ¬ Malformed k es e) :
    ∃ b bs body, .list (.keyword k) es = letIn k b bs body := by
  by_cases hlist : ∃ first others, es.head? = some (.list first others)
  · obtain ⟨first, others, hhead⟩ := hlist
    obtain ⟨body, rfl⟩ := List.head?_eq_some_iff.mp hhead
    cases hchecked : (first :: others).mapM binding? with
    | none =>
        obtain ⟨b, hb, hshape⟩ := bindings_eq_none_iff.mp hchecked
        exact absurd (.badBinding hk hb hshape) (hgood _)
    | some bs =>
        obtain ⟨b, bs, rfl, -⟩ := cons_of_bindings hchecked
        obtain ⟨rfl, rfl⟩ := List.cons.inj (bindings_eq_some_iff.mp hchecked)
        exact ⟨b, bs, body, rfl⟩
  · have hlist : ∀ first others, es.head? ≠ some (.list first others) :=
      fun first others hhead => hlist ⟨first, others, hhead⟩
    exact absurd (.noBindings hk hlist) (hgood _)

end

section

variable {k : Token}

theorem handedOn_of_if (hk : k.kind = .keyword .ifElse) {test yes : Expr} {no : List Expr}
    (hno : no.length ≤ 1)
    (h : inCalls limit remaining i (.list (.keyword k) (test :: yes :: no)) s =
      (.error err, s')) :
    HandedOn limit ⟨remaining, i, .list (.keyword k) (test :: yes :: no), s⟩ err s' := by
  rw [inCalls_eq, evaluate_if hk, branch_eq_sequence hno, ← inCalls_eq] at h
  obtain htest | ⟨v, s₁, htest, hrest⟩ := of_bind_error h
  · exact ⟨_, .test hk hno, htest⟩
  cases hv : v.isTruthy
  · simp only [hv, Bool.false_eq_true, if_false] at hrest
    obtain ⟨q, hq, hout⟩ := exists_inRow_of_sequence hrest
    match no, hq with
    | [no], .here => exact ⟨_, .no hk htest hv, hout⟩
  · simp only [hv, if_true] at hrest
    exact ⟨_, .yes hk hno htest hv, hrest⟩

theorem handedOn_of_letIn (hk : k.IsBind) {b : Token × Expr} {bs : List (Token × Expr)}
    {body : List Expr} (h : inCalls limit remaining i (letIn k b bs body) s = (.error err, s')) :
    HandedOn limit ⟨remaining, i, letIn k b bs body, s⟩ err s' := by
  rw [inCalls_eq, evaluate_letIn_apply hk] at h
  rcases hfilled : fillAll limit (bodies limit remaining) i k s.scopes.size
    ((b :: bs).map binding) (s.newChild i).2 with ⟨e | _, s₁⟩
  · rw [hfilled] at h
    cases h
    obtain ⟨q, hq, hout⟩ := exists_inBindings_of_fillAll hfilled
    exact ⟨q, .initialiser hk hq, hout⟩
  · rw [hfilled] at h
    obtain ⟨q, hq, hout⟩ := exists_inRow_of_sequence h
    exact ⟨q, .inner hk hfilled hq, hout⟩

/-- The assignment itself has an error with a token. -/
theorem handedOn_of_set (hk : k.kind = .keyword .assign) {name : Token} {value : Expr}
    (hnone : err.token? = none)
    (h : inCalls limit remaining i (.list (.keyword k) [.symbol name, value]) s =
      (.error err, s')) :
    HandedOn limit ⟨remaining, i, .list (.keyword k) [.symbol name, value], s⟩ err s' := by
  rw [inCalls_eq, evaluate_assign hk, assignment, ← inCalls_eq] at h
  obtain hvalue | ⟨v, s₁, hv, hrest⟩ := of_bind_error h
  · exact ⟨_, .assigned hk, hvalue⟩
  · rw [bind_apply, assign_apply] at hrest
    cases hassign : s₁.assign? i name.lexeme v <;> rw [hassign] at hrest <;> cases hrest
    cases hnone

theorem handedOn_of_and (hk : k.kind = .keyword .and) {es : List Expr}
    (h : inCalls limit remaining i (.list (.keyword k) es) s = (.error err, s')) :
    HandedOn limit ⟨remaining, i, .list (.keyword k) es, s⟩ err s' := by
  have hcons (last : Value) (e : Expr) (es : List Expr) :
      conjunction limit (bodies limit remaining) i last (e :: es) =
        inCalls limit remaining i e >>= fun v => if v.isTruthy = true then
          conjunction limit (bodies limit remaining) i v es else pure v := by
    rw [conjunction, inCalls_eq]
  rw [inCalls_eq, evaluate_and hk] at h
  obtain ⟨q, hq, hout⟩ := exists_inRow_of_error (fun _ => by rw [conjunction]) hcons h
  exact ⟨q, .conjunct hk hq, hout⟩

theorem handedOn_of_or (hk : k.kind = .keyword .or) {es : List Expr}
    (h : inCalls limit remaining i (.list (.keyword k) es) s = (.error err, s')) :
    HandedOn limit ⟨remaining, i, .list (.keyword k) es, s⟩ err s' := by
  have hcons (last : Value) (e : Expr) (es : List Expr) :
      disjunction limit (bodies limit remaining) i last (e :: es) =
        inCalls limit remaining i e >>= fun v => if v.isTruthy = false then
          disjunction limit (bodies limit remaining) i v es else pure v := by
    rw [disjunction, inCalls_eq]
    refine bind_congr fun v => ?_
    cases v.isTruthy <;> rfl
  rw [inCalls_eq, evaluate_or hk] at h
  obtain ⟨q, hq, hout⟩ := exists_inRow_of_error (fun _ => by rw [disjunction]) hcons h
  exact ⟨q, .disjunct hk hq, hout⟩

end

/-- An error without a token in a form is handed on. -/
theorem handedOn_of_form {k : Token} {es : List Expr} (hnone : err.token? = none)
    (h : inCalls limit remaining i (.list (.keyword k) es) s = (.error err, s')) :
    HandedOn limit ⟨remaining, i, .list (.keyword k) es, s⟩ err s' := by
  -- A form that is malformed has an error with a token.
  have hgood (e : EvalError) : ¬ Malformed k es e := by
    intro hbad
    rw [inCalls_eq, evaluate_malformed hbad] at h
    cases h
    exact absurd (hbad.token?.symm.trans hnone) (Option.some_ne_none k)
  by_cases hform : ∀ word, k.kind = .keyword word → word = .define
  · exact absurd (.noForm hform) (hgood _)
  obtain ⟨word, hk, hword⟩ : ∃ word, k.kind = .keyword word ∧ word ≠ .define := by
    simpa only [not_forall, exists_prop] using hform
  cases word with
  | define => exact absurd rfl hword
  | ifElse =>
      obtain ⟨test, yes, no, rfl, hno⟩ := exists_branches hk hgood
      exact handedOn_of_if hk hno h
  | begin =>
      rw [inCalls_eq, evaluate_begin hk] at h
      obtain ⟨q, hq, hout⟩ := exists_inRow_of_sequence h
      exact ⟨q, .sequence hk hq, hout⟩
  | bind =>
      obtain ⟨b, bs, body, hlet⟩ := exists_letIn hk hgood
      rw [hlet] at h ⊢
      exact handedOn_of_letIn hk h
  | assign =>
      obtain ⟨name, value, rfl⟩ := exists_target hk hgood
      exact handedOn_of_set hk hnone h
  | and => exact handedOn_of_and hk h
  | or => exact handedOn_of_or hk h
  | not =>
      obtain ⟨e, rfl⟩ := exists_negated hk hgood
      rw [inCalls_eq, evaluate_not hk, negation, ← inCalls_eq] at h
      obtain he | ⟨v, s₁, hv, hrest⟩ := of_bind_error h
      · exact ⟨_, .negated hk, he⟩
      · cases hrest

/-- An error without a token is handed on, unless a datum is called. -/
theorem handedOn_of_error {e : Expr} (hdatum : ∀ d operands, e ≠ .list (.datum d) operands)
    (hnone : err.token? = none) (h : inCalls limit remaining i e s = (.error err, s')) :
    HandedOn limit ⟨remaining, i, e, s⟩ err s' := by
  rw [inCalls_eq] at h
  cases e with
  | datum d | operator t | define name params body =>
      rw [evaluate] at h
      cases h
  | symbol t =>
      rw [evaluate, valueOf_apply] at h
      cases hlookup : s.lookup i t.lexeme <;> rw [hlookup] at h <;> cases h
      cases hnone
  | keyword t =>
      rw [evaluate] at h
      cases h
      cases hnone
  | list head operands =>
      rw [← inCalls_eq] at h
      by_cases hhead : ∃ k, head = .keyword k
      · obtain ⟨k, rfl⟩ := hhead
        exact handedOn_of_form hnone h
      · refine handedOn_of_application (not_exists.mp hhead) (fun d hd => ?_) hnone h
        exact hdatum d operands (by rw [hd])

theorem InRow.mem {permits : Value → Prop} {es : List Expr} {q : Point}
    (h : InRow limit remaining i permits es s q) : q.remaining = remaining ∧ q.expr ∈ es := by
  induction h with
  | here => exact ⟨rfl, List.mem_cons_self⟩
  | later _ _ _ ih => exact ⟨ih.1, List.mem_cons_of_mem _ ih.2⟩

theorem InBindings.mem {inner : ScopeId} {bs : List (Token × Expr)} {q : Point}
    (h : InBindings limit remaining i inner bs s q) :
    q.remaining = remaining ∧ q.expr ∈ bs.map Prod.snd := by
  induction h with
  | here => exact ⟨rfl, List.mem_cons_self⟩
  | later _ _ ih => exact ⟨ih.1, List.mem_cons_of_mem _ ih.2⟩

/-- A point begins the evaluation of parts, or of a body with one call less that may be entered. -/
theorem Asks.cases_parts {p q : Point} (h : Asks limit p q) :
    q.remaining < p.remaining ∨ q.remaining = p.remaining ∧ q.expr ∈ p.expr.parts := by
  have hoperand {head e : Expr} {es : List Expr} (he : e ∈ es) : e ∈ (Expr.list head es).parts :=
    Expr.subset_parts_operands head es he
  cases h with
  | head _ => exact .inr ⟨rfl, Expr.mem_parts_head _ _⟩
  | operand _ _ _ hrow | sequence _ hrow | conjunct _ hrow | disjunct _ hrow =>
      exact .inr ⟨hrow.mem.1, hoperand hrow.mem.2⟩
  | body => exact .inl (Nat.lt_succ_self _)
  | test | yes | no | negated | assigned => exact .inr ⟨rfl, hoperand (by simp)⟩
  | @initialiser r i k b bs body s q hk hrow =>
      have hchecked : (binding b :: bs.map binding).mapM binding? = some (b :: bs) :=
        bindings_eq_some_iff.mpr rfl
      refine .inr ⟨hrow.mem.1, Expr.subset_parts_bound _ _ ?_⟩
      rw [Expr.boundIn_of_bindings body hchecked]
      exact hrow.mem.2
  | inner _ _ hrow =>
      exact .inr ⟨hrow.mem.1, hoperand (List.mem_cons_of_mem _ hrow.mem.2)⟩

/-- Where an error without a token was raised. -/
theorem exists_raising (p : Point) (hnone : err.token? = none)
    (h : p.outcome limit = (.error err, s')) :
    ∃ q d operands, Within limit p q ∧ q.expr = .list (.datum d) operands ∧
      q.outcome limit = (.error err, s') := by
  by_cases hraised : ∃ d operands, p.expr = .list (.datum d) operands
  · obtain ⟨d, operands, hp⟩ := hraised
    exact ⟨p, d, operands, .refl, hp, h⟩
  · have hdatum (d : Datum) (operands : List Expr) : p.expr ≠ .list (.datum d) operands :=
      fun hp => hraised ⟨d, operands, hp⟩
    obtain ⟨r, hasks, hout⟩ := handedOn_of_error hdatum hnone h
    have hbelow : r.remaining < p.remaining ∨
        r.remaining = p.remaining ∧ r.expr.size < p.expr.size :=
      hasks.cases_parts.imp_right fun hpart => ⟨hpart.1, Expr.size_lt_of_mem_parts hpart.2⟩
    obtain ⟨q, d, operands, hwithin, hq, hout⟩ := exists_raising r hnone hout
    exact ⟨q, d, operands, .head hasks hwithin, hq, hout⟩
termination_by (p.remaining, p.expr.size)
decreasing_by exact Prod.lex_def.mpr hbelow

/--
**Errors say where they arose.**

An error with a token points at one that is in the expression, or in an operator or a function that the
store held before.  An error without a token is that of a list which calls a datum, and the evaluation
came to that list.  Conversely a list that leads with a datum always ends with this error; nothing is
evaluated but its head, the head of that, and so on, and the store stays as it is.
-/
theorem errors_located (limit remaining : Nat) (i : ScopeId) (s : Store) :
    (∀ e err s', inCalls limit remaining i e s = (.error err, s') →
      (∀ t, err.token? = some t → t ∈ e.tokens ∨ s.Holds t) ∧
      (err.token? = none → ∃ q d operands,
        Within limit ⟨remaining, i, e, s⟩ q ∧ q.expr = .list (.datum d) operands ∧
          q.outcome limit = (.error err, s') ∧
          err = .notCallable none (Value.datum d).typeName ∧ s' = q.store)) ∧
    ∀ head operands d, head.leaf = .datum d →
      inCalls limit remaining i (.list head operands) s =
        (.error (.notCallable none (Value.datum d).typeName), s) ∧
      ∀ q, Within limit ⟨remaining, i, .list head operands, s⟩ q →
        q = ⟨remaining, i, q.expr, s⟩ ∧ q.expr ∈ (Expr.list head operands).heads := by
  refine ⟨fun e err s' h => ⟨fun t ht => token_of_error h ht, fun hnone => ?_⟩,
    fun head operands d hleaf => ⟨inCalls_of_leaf head hleaf operands, fun q hwithin => ?_⟩⟩
  · obtain ⟨⟨r, j, e', s₁⟩, d, operands, hwithin, rfl, hout⟩ :=
      exists_raising ⟨remaining, i, e, s⟩ hnone h
    obtain ⟨herr, rfl⟩ := Prod.mk.inj ((inCalls_of_leaf (.datum d) rfl operands).symm.trans hout)
    exact ⟨_, d, operands, hwithin, rfl, hout, (Except.error.inj herr).symm, rfl⟩
  · have hlist : (Expr.list head operands).leaf = .datum d := hleaf
    exact mem_heads_of_within hlist hwithin

/-- Two functions without parameters, of which one calls what a call of a number comes to, and the
other one has a name in its body that is bound nowhere. -/
theorem errors_located_in_bodies :
    let name (lexeme : String) : Token := ⟨.symbol, lexeme, none, 1⟩
    let inner : Expr := .list (.datum (.number 1)) [.symbol (name "y")]
    let numeral : Expr := .list inner [.symbol (name "y")]
    let call (lexeme : String) : Expr := .list (.symbol (name lexeme)) []
    let f : Value := .function ⟨0, name "f", [], numeral, 0⟩
    let g : Value := .function ⟨1, name "g", [], .symbol (name "y"), 0⟩
    let s : Store := ⟨#[⟨[], [("f", f), ("g", g)]⟩], 2⟩
    let s' : Store := (s.newFrame 0 []).2
    let err : EvalError := .notCallable none "number"
    inCalls 5 5 0 (call "f") s = (.error err, s') ∧
      (∃ q d operands, Within 5 ⟨5, 0, call "f", s⟩ q ∧ q.expr = .list (.datum d) operands ∧
        q.outcome 5 = (.error err, s') ∧ err = .notCallable none (Value.datum d).typeName ∧
        s' = q.store) ∧
      inCalls 5 5 0 (call "g") s = (.error (.undefinedVariable (name "y")), s') ∧
      s.Holds (name "y") ∧
      inner.leaf = .datum (.number 1) ∧ inCalls 5 5 0 numeral s = (.error err, s) := by
  intro name inner numeral call f g s s' err
  have hf : inCalls 5 5 0 (call "f") s = (.error err, s') := rfl
  have hg : inCalls 5 5 0 (call "g") s = (.error (.undefinedVariable (name "y")), s') := rfl
  obtain ⟨herror, hleaf⟩ := errors_located 5 5 0 s
  refine ⟨hf, (herror _ _ _ hf).2 rfl, hg, ?_, rfl, (hleaf inner _ _ rfl).1⟩
  obtain hcall | hstore := (herror _ _ _ hg).1 (name "y") rfl
  · exact absurd (List.mem_singleton.mp hcall) (by decide)
  · exact hstore

end Eval

end SmallLisp
