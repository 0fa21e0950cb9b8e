/-
What may stand for what.

A recasting says which tokens may stand for which.  Where a token is a name, its spelling is renamed,
and no two spellings become one; where it is an operator or a keyword, its kind has to stay.  It also
says which limit of calls may stand for another in a message.  From that follows what it is for two
expressions, errors or outcomes to be the same up to the recasting.  It is a relation, as one name can
be on many lines and each of these can change on its own.

What a function is cannot be told without a store, so two values are alike (`Value.Alike`) with respect
to some likeness of functions.  Operators ask of a function at most which one it is, and so they compute
the same from operands that are alike (`apply_same`).
-/
import Mathlib.Data.List.Forall2
import SmallLisp.Eval.Basic
import SmallLisp.Proofs.Store.Operations

namespace SmallLisp

/-- Which tokens and limits may stand for which. -/
structure Recasting where
  rename : String → String
  /-- Whether a token may stand for another where it is a name. -/
  name : Token → Token → Prop
  /-- Whether a token may stand for another where it is an operator or a keyword. -/
  mark : Token → Token → Prop
  /-- Whether a limit of calls may stand for another. -/
  limit : Nat → Nat → Prop
  rename_injective : Function.Injective rename
  lexeme_of_name {t u : Token} (h : name t u) : u.lexeme = rename t.lexeme
  kind_of_mark {t u : Token} (h : mark t u) : u.kind = t.kind

/-- Values that are the same datum, or operators that stand for each other, or functions that are
alike. -/
inductive Value.Alike (mark : Token → Token → Prop) (closures : Closure → Closure → Prop) :
    Value → Value → Prop where
  | datum (d : Datum) : Alike mark closures (.datum d) (.datum d)
  | operator {t u : Token} (h : mark t u) : Alike mark closures (.operator t) (.operator u)
  | function {c d : Closure} (h : closures c d) : Alike mark closures (.function c) (.function d)

namespace Recasting

/-- Expressions of one shape, with the same data. -/
inductive SameExpr (R : Recasting) : Expr → Expr → Prop where
  | datum (d : Datum) : SameExpr R (.datum d) (.datum d)
  | symbol {t u : Token} (h : R.name t u) : SameExpr R (.symbol t) (.symbol u)
  | operator {t u : Token} (h : R.mark t u) : SameExpr R (.operator t) (.operator u)
  | keyword {t u : Token} (h : R.mark t u) : SameExpr R (.keyword t) (.keyword u)
  | list {head head' : Expr} {operands operands' : List Expr} (hhead : SameExpr R head head')
      (hoperands : List.Forall₂ (SameExpr R) operands operands') :
      SameExpr R (.list head operands) (.list head' operands')
  | define {name name' : Token} {params params' : List Token} {body body' : Expr}
      (hname : R.name name name') (hparams : List.Forall₂ R.name params params')
      (hbody : SameExpr R body body') :
      SameExpr R (.define name params body) (.define name' params' body')

/-- Places that errors point at. -/
def SameSite (R : Recasting) : Option Token → Option Token → Prop :=
  Option.Rel fun t u => R.name t u ∨ R.mark t u

/-- Errors of one kind. -/
inductive SameError (R : Recasting) : EvalError → EvalError → Prop where
  | undefinedVariable {t u : Token} (h : R.name t u) :
      SameError R (.undefinedVariable t) (.undefinedVariable u)
  | operandNotNumber {t u : Token} (h : R.mark t u) :
      SameError R (.operandNotNumber t) (.operandNotNumber u)
  | operandsNotNumbers {t u : Token} (h : R.mark t u) :
      SameError R (.operandsNotNumbers t) (.operandsNotNumbers u)
  | notAnOperator {t u : Token} (h : R.mark t u) :
      SameError R (.notAnOperator t) (.notAnOperator u)
  | notCallable {site site' : Option Token} (type : String) (h : R.SameSite site site') :
      SameError R (.notCallable site type) (.notCallable site' type)
  | unexpectedKeyword {t u : Token} (h : R.mark t u) :
      SameError R (.unexpectedKeyword t) (.unexpectedKeyword u)
  | wrongOperandCount {site site' : Option Token} (expected : String) (got : Nat)
      (h : R.SameSite site site') :
      SameError R (.wrongOperandCount site expected got) (.wrongOperandCount site' expected got)
  | callsTooDeep {site site' : Option Token} {limit limit' : Nat} (hlimit : R.limit limit limit')
      (h : R.SameSite site site') :
      SameError R (.callsTooDeep site limit) (.callsTooDeep site' limit')
  | malformed {t u : Token} (problem : String) (h : R.mark t u) :
      SameError R (.malformed t problem) (.malformed u problem)

/-- Outcomes that are the same: values that are related, or errors of one kind. -/
inductive SameOutcome (R : Recasting) {α β : Type} (P : α → β → Prop) :
    Except EvalError α → Except EvalError β → Prop where
  | ok {a : α} {b : β} (h : P a b) : SameOutcome R P (.ok a) (.ok b)
  | error {e e' : EvalError} (h : R.SameError e e') : SameOutcome R P (.error e) (.error e')

variable {R : Recasting}

theorem SameOutcome.map {α β γ δ : Type} {P : α → β → Prop} {Q : γ → δ → Prop}
    {x : Except EvalError α} {y : Except EvalError β} {f : α → γ} {g : β → δ}
    (h : R.SameOutcome P x y) (hfg : ∀ a b, P a b → Q (f a) (g b)) :
    R.SameOutcome Q (x.map f) (y.map g) := by
  cases h with
  | ok h => exact .ok (hfg _ _ h)
  | error h => exact .error h

/-! ### Expressions

The evaluator looks at the shape of an expression before it evaluates any part of it: which token it
reports, whether a form has a keyword in front, whether bindings are well formed.  Expressions that are
the same are alike in all of that.
-/

theorem sameSite_mark {t u : Token} (h : R.mark t u) : R.SameSite (some t) (some u) :=
  .some (.inr h)

theorem SameExpr.token? {e e' : Expr} (h : R.SameExpr e e') : R.SameSite e.token? e'.token? := by
  induction e using Expr.token?.induct generalizing e' with
  | case1 => cases h; exact .none
  | case2 => cases h with | symbol h => exact .some (.inl h)
  | case3 => cases h with | operator h => exact .some (.inr h)
  | case4 => cases h with | keyword h => exact .some (.inr h)
  | case5 head operands ih =>
      cases h with
      | list hhead _ =>
          have hsite := ih hhead
          exact hsite
  | case6 => cases h with | define hname _ _ => exact .some (.inl hname)

theorem SameExpr.ne_keyword {e e' : Expr} (h : R.SameExpr e e') (hne : ∀ t, e ≠ .keyword t)
    (u : Token) : e' ≠ .keyword u := by
  rintro rfl
  cases h with
  | keyword _ => exact hne _ rfl

theorem SameExpr.ne_symbol {e e' : Expr} (h : R.SameExpr e e') (hne : ∀ t, e ≠ .symbol t)
    (u : Token) : e' ≠ .symbol u := by
  rintro rfl
  cases h with
  | symbol _ => exact hne _ rfl

theorem isSome_binding?_eq {e e' : Expr} (h : R.SameExpr e e') :
    (Eval.binding? e').isSome = (Eval.binding? e).isSome := by
  cases h with
  | list hhead hoperands =>
      cases hhead with
      | symbol _ => rcases hoperands with _ | ⟨_, _ | ⟨_, _⟩⟩ <;> rfl
      | _ => rfl
  | _ => rfl

theorem isSome_bindings_eq {es es' : List Expr} (h : List.Forall₂ R.SameExpr es es') :
    (es'.mapM Eval.binding?).isSome = (es.mapM Eval.binding?).isSome := by
  induction h with
  | nil => rfl
  | @cons e e' es es' h _ ih =>
      rw [List.mapM_cons, List.mapM_cons]
      have hfirst := isSome_binding?_eq h
      revert hfirst ih
      cases Eval.binding? e <;> cases Eval.binding? e' <;> cases es.mapM Eval.binding? <;>
        cases es'.mapM Eval.binding? <;> simp

end Recasting

/-! ### Values

An operator can be told from a datum and a function, but what can be seen of it is only its kind.  What
can be seen of functions is whether they are equal, so a likeness of functions has to keep them apart.
-/

namespace Value.Alike

variable {mark : Token → Token → Prop} {closures : Closure → Closure → Prop} {v v' w w' : Value}

theorem number?_eq (h : Alike mark closures v w) : w.number? = v.number? := by
  cases h <;> rfl

theorem isTruthy_eq (h : Alike mark closures v w) : w.isTruthy = v.isTruthy := by
  cases h <;> rfl

theorem equals_eq (hmark : ∀ {t u}, mark t u → u.kind = t.kind)
    (hclosures : ∀ {c c' d d'}, closures c d → closures c' d' →
      (d.identity = d'.identity ↔ c.identity = c'.identity))
    (h : Alike mark closures v w) (h' : Alike mark closures v' w') :
    w.equals w' = v.equals v' := by
  cases h with
  | datum d => cases h' <;> rfl
  | operator h =>
      cases h' with
      | operator h' => simp only [Value.equals, hmark h, hmark h']
      | datum d => rfl
      | function h' => rfl
  | function h =>
      cases h' with
      | function h' => simp only [Value.equals, hclosures h h']
      | datum d => rfl
      | operator h' => rfl

theorem imp {closures' : Closure → Closure → Prop} (hcd : ∀ {c d}, closures c d → closures' c d)
    (h : Alike mark closures v w) : Alike mark closures' v w := by
  cases h with
  | datum d => exact .datum d
  | operator h => exact .operator h
  | function h => exact .function (hcd h)

end Value.Alike

section

variable {closures : Closure → Closure → Prop} {P : Closure → Prop} {f : Closure → Closure}
  (hclosures : ∀ {c d}, closures c d ↔ d = f c ∧ P c)
include hclosures

/-- What is alike if tokens stay and functions that are alike are of some kind and one is given by the
other. -/
theorem Value.alike_iff {v w : Value} :
    Value.Alike (fun t u => u = t) closures v w ↔ w = v.mapFunction f ∧ v.IfFunction P := by
  constructor
  · intro h
    cases h with
    | datum d => exact ⟨rfl, trivial⟩
    | operator h =>
        subst h
        exact ⟨rfl, trivial⟩
    | function h =>
        obtain ⟨rfl, hc⟩ := hclosures.mp h
        exact ⟨rfl, hc⟩
  · rintro ⟨rfl, h⟩
    cases v with
    | datum d => exact .datum d
    | operator t => exact .operator rfl
    | function c => exact .function (hclosures.mpr ⟨rfl, h⟩)

theorem Value.alikes_iff {vs ws : List Value} :
    List.Forall₂ (Value.Alike (fun t u => u = t) closures) vs ws ↔
      ws = vs.map (Value.mapFunction f) ∧ ∀ v ∈ vs, v.IfFunction P := by
  constructor
  · intro h
    induction h with
    | nil => simp
    | cons h _ ih =>
        obtain ⟨rfl, hv⟩ := (Value.alike_iff @hclosures).mp h
        obtain ⟨rfl, hvs⟩ := ih
        exact ⟨rfl, List.forall_mem_cons.mpr ⟨hv, hvs⟩⟩
  · rintro ⟨rfl, h⟩
    induction vs with
    | nil => exact .nil
    | cons v vs ih =>
        obtain ⟨hv, hvs⟩ := List.forall_mem_cons.mp h
        exact .cons ((Value.alike_iff @hclosures).mpr ⟨rfl, hv⟩) (ih hvs)

end

namespace Recasting

/-! ### Operators

Operators compute data from numbers and from what is equal, and point at their own token if they
refuse.
-/

section

variable {R : Recasting} {closures : Closure → Closure → Prop} {t u : Token} (h : R.mark t u)
  {vs ws : List Value}
include h

theorem fold_same (f : Float → Float → Float) (start : Float)
    (hvalues : List.Forall₂ (Value.Alike R.mark closures) vs ws) :
    R.SameOutcome (Value.Alike R.mark closures) (Operator.fold t f start vs)
      (Operator.fold u f start ws) := by
  induction hvalues generalizing start with
  | nil => exact .ok (.datum _)
  | @cons v w vs ws hv _ ih =>
      simp only [Operator.fold, Operator.operand, hv.number?_eq]
      cases v.number? with
      | none => exact .error (.operandNotNumber h)
      | some x => exact ih _

theorem takeAway_same (f : Float → Float → Float) (alone : Float → Float)
    (hvalues : List.Forall₂ (Value.Alike R.mark closures) vs ws) :
    R.SameOutcome (Value.Alike R.mark closures) (Operator.takeAway t f alone vs)
      (Operator.takeAway u f alone ws) := by
  cases hvalues with
  | nil => exact .error (.wrongOperandCount _ 0 (sameSite_mark h))
  | @cons v w vs ws hv hvalues =>
      simp only [Operator.takeAway, Operator.operand, hv.number?_eq]
      cases v.number? with
      | none => exact .error (.operandNotNumber h)
      | some x =>
          cases hvalues with
          | nil => exact .ok (.datum _)
          | cons hv hvalues => exact fold_same h f x (.cons hv hvalues)

theorem pair_same {compare compare' : Value → Value → Except EvalError Bool}
    (hcompare : ∀ {v v' w w'}, Value.Alike R.mark closures v w →
      Value.Alike R.mark closures v' w' →
      R.SameOutcome (fun b b' => b' = b) (compare v v') (compare' w w'))
    (hvalues : List.Forall₂ (Value.Alike R.mark closures) vs ws) :
    R.SameOutcome (Value.Alike R.mark closures) (Operator.pair t compare vs)
      (Operator.pair u compare' ws) := by
  have hlength := hvalues.length_eq
  rcases hvalues with _ | ⟨hv, _ | ⟨hv', _ | ⟨hv'', hvalues⟩⟩⟩
  · exact .error (.wrongOperandCount _ 0 (sameSite_mark h))
  · exact .error (.wrongOperandCount _ 1 (sameSite_mark h))
  · exact (hcompare hv hv').map fun _ _ hb => hb ▸ .datum _
  · simp only [Operator.pair, ← hlength]
    exact .error (.wrongOperandCount _ _ (sameSite_mark h))

theorem order_same (o : Float → Float → Bool) {v v' w w' : Value}
    (hv : Value.Alike R.mark closures v w) (hv' : Value.Alike R.mark closures v' w') :
    R.SameOutcome (fun b b' => b' = b) (Operator.order t o v v') (Operator.order u o w w') := by
  simp only [Operator.order, Operator.operands, hv.number?_eq, hv'.number?_eq]
  cases v.number? <;> cases v'.number?
  case some.some => exact .ok rfl
  all_goals exact .error (.operandsNotNumbers h)

/-- An operator is known by its kind, and it looks only at numbers and at what is equal. -/
theorem apply_same (hclosures : ∀ {c c' d d'}, closures c d → closures c' d' →
      (d.identity = d'.identity ↔ c.identity = c'.identity))
    (hvalues : List.Forall₂ (Value.Alike R.mark closures) vs ws) :
    R.SameOutcome (Value.Alike R.mark closures) (Operator.apply t vs) (Operator.apply u ws) := by
  unfold Operator.apply
  rw [R.kind_of_mark h]
  split
  · exact fold_same h _ _ hvalues
  · exact fold_same h _ _ hvalues
  · exact takeAway_same h _ _ hvalues
  · exact takeAway_same h _ _ hvalues
  · exact pair_same h (fun hv hv' => .ok (hv.equals_eq R.kind_of_mark hclosures hv')) hvalues
  · exact pair_same h (order_same h _) hvalues
  · exact pair_same h (order_same h _) hvalues
  · exact .error (.notAnOperator h)

end

/-! ### Where every token stays

Many likenesses of stores leave the expressions alone.  Then what is the same is equal, but for the
limit in a message.
-/

/-- Every token stays, and only limits change. -/
def same (limit : Nat → Nat → Prop) : Recasting where
  rename := id
  name t u := u = t
  mark t u := u = t
  limit := limit
  rename_injective := Function.injective_id
  lexeme_of_name h := congrArg Token.lexeme h
  kind_of_mark h := congrArg Token.kind h

variable {limit : Nat → Nat → Prop}

theorem names_same_iff {ts us : List Token} :
    List.Forall₂ (same limit).name ts us ↔ us = ts := by
  constructor
  · intro h
    induction h with
    | nil => rfl
    | cons h _ ih => rw [ih, show _ = _ from h]
  · rintro rfl
    exact List.forall₂_same.mpr fun _ _ => rfl

mutual

theorem sameExpr_same_iff (e e' : Expr) : (same limit).SameExpr e e' ↔ e' = e := by
  constructor
  · intro h
    match e, h with
    | .datum _, .datum _ => rfl
    | .symbol _, .symbol h => exact congrArg Expr.symbol h
    | .operator _, .operator h => exact congrArg Expr.operator h
    | .keyword _, .keyword h => exact congrArg Expr.keyword h
    | .list head operands, .list hhead hoperands =>
        rw [(sameExpr_same_iff head _).mp hhead, (sameExprs_same_iff operands _).mp hoperands]
    | .define name params body, .define hname hparams hbody =>
        rw [(sameExpr_same_iff body _).mp hbody, names_same_iff.mp hparams,
          show _ = name from hname]
  · rintro rfl
    match e' with
    | .datum _ => exact .datum _
    | .symbol _ => exact .symbol rfl
    | .operator _ => exact .operator rfl
    | .keyword _ => exact .keyword rfl
    | .list head operands =>
        exact .list ((sameExpr_same_iff head _).mpr rfl) ((sameExprs_same_iff operands _).mpr rfl)
    | .define _ _ body =>
        exact .define rfl (names_same_iff.mpr rfl) ((sameExpr_same_iff body _).mpr rfl)

theorem sameExprs_same_iff (es es' : List Expr) :
    List.Forall₂ (same limit).SameExpr es es' ↔ es' = es := by
  match es, es' with
  | [], [] => simp
  | [], _ :: _ => simp
  | _ :: _, [] => simp
  | e :: es, e' :: es' =>
      rw [List.forall₂_cons, sameExpr_same_iff e e', sameExprs_same_iff es es', List.cons.injEq]

end

theorem sameSite_same {site site' : Option Token} (h : (same limit).SameSite site site') :
    site' = site := by
  cases h with
  | some h => exact congrArg some (h.elim id id)
  | none => rfl

/-- Errors are equal, or both of them are that calls are nested too deeply. -/
theorem SameError.eq_or {e e' : EvalError} (h : (same limit).SameError e e') :
    e' = e ∨ ∃ site l l', limit l l' ∧ e = .callsTooDeep site l ∧ e' = .callsTooDeep site l' := by
  cases h with
  | callsTooDeep hlimit hsite => exact .inr ⟨_, _, _, hlimit, rfl, by rw [sameSite_same hsite]⟩
  | notCallable type hsite => exact .inl (by rw [sameSite_same hsite])
  | wrongOperandCount expected got hsite => exact .inl (by rw [sameSite_same hsite])
  | undefinedVariable h => exact .inl (congrArg _ h)
  | operandNotNumber h => exact .inl (congrArg _ h)
  | operandsNotNumbers h => exact .inl (congrArg _ h)
  | notAnOperator h => exact .inl (congrArg _ h)
  | unexpectedKeyword h => exact .inl (congrArg _ h)
  | malformed problem h => exact .inl (congrArg (EvalError.malformed · problem) h)

/-- If limits stay too, one outcome is given by the other. -/
theorem SameOutcome.eq_map {α β : Type} {P : α → β → Prop} {f : α → β} {x : Except EvalError α}
    {y : Except EvalError β} (h : (same fun l l' => l' = l).SameOutcome P x y)
    (hP : ∀ a b, P a b → b = f a) : y = x.map f := by
  cases h with
  | ok h => exact congrArg Except.ok (hP _ _ h)
  | error h =>
      obtain rfl | ⟨site, l, l', rfl, rfl, rfl⟩ := h.eq_or
      · rfl
      · rfl

end Recasting

end SmallLisp
