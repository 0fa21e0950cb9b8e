/-
What the forms of the language evaluate to.

The evaluator finds out by itself which form a list is.  The equations here begin where that is
known, one for each keyword, so that a proof about a form names the form.  The bindings of a `let`
are given as names with expressions: they have the shape that the evaluator checks.
-/
import SmallLisp.Proofs.Eval.Machine

namespace SmallLisp

namespace Eval

open SmallLisp.Expr (binding letIn)

variable {limit : Nat} {enter? : Option Evaluator} {i : ScopeId} {k : Token}

/-! ### Keywords

One equation for each keyword, so that later proofs choose the form by its keyword and do not unfold the
evaluator.
-/

theorem evaluate_if (hk : k.kind = .keyword .ifElse) (es : List Expr) :
    evaluate limit enter? i (.list (.keyword k) es) = branch limit enter? i k es := by
  rw [evaluate, hk]

theorem evaluate_begin (hk : k.kind = .keyword .begin) (es : List Expr) :
    evaluate limit enter? i (.list (.keyword k) es) = sequence limit enter? i .nil es := by
  rw [evaluate, hk]

theorem evaluate_bind (hk : k.IsBind) (es : List Expr) :
    evaluate limit enter? i (.list (.keyword k) es) = bindIn limit enter? i k es := by
  rw [evaluate, show k.kind = .keyword .bind from hk]

theorem evaluate_assign (hk : k.kind = .keyword .assign) (es : List Expr) :
    evaluate limit enter? i (.list (.keyword k) es) = assignment limit enter? i k es := by
  rw [evaluate, hk]

theorem evaluate_and (hk : k.kind = .keyword .and) (es : List Expr) :
    evaluate limit enter? i (.list (.keyword k) es) =
      conjunction limit enter? i (.ofBool true) es := by
  rw [evaluate, hk]

theorem evaluate_or (hk : k.kind = .keyword .or) (es : List Expr) :
    evaluate limit enter? i (.list (.keyword k) es) =
      disjunction limit enter? i (.ofBool false) es := by
  rw [evaluate, hk]

theorem evaluate_not (hk : k.kind = .keyword .not) (es : List Expr) :
    evaluate limit enter? i (.list (.keyword k) es) = negation limit enter? i k es := by
  rw [evaluate, hk]

/-- No form begins with `define`. -/
theorem evaluate_noForm (hk : ∀ word, k.kind = .keyword word → word = .define) (es : List Expr) :
    evaluate limit enter? i (.list (.keyword k) es) = throw (.unexpectedKeyword k) := by
  rw [evaluate]
  cases hkind : k.kind with
  | keyword word =>
      obtain rfl := hk word hkind
      rfl
  | _ => rfl

/-! ### `let`

A `let` makes its scope before anything is evaluated, and whatever is evaluated for a name, that name has
its value in the scope before the next one is dealt with.  So what follows an expression is evaluated in
a store where the scope is half filled.
-/

/-- A `let` makes its scope, fills it and evaluates its body there. -/
theorem evaluate_letIn (hk : k.IsBind) (b : Token × Expr) (bs : List (Token × Expr))
    (body : List Expr) :
    evaluate limit enter? i (letIn k b bs body) =
      (do
        let inner ← child i
        fillAll limit enter? i k inner ((b :: bs).map binding)
        sequence limit enter? inner .nil body) := by
  have hchecked : (binding b :: bs.map binding).mapM binding? = some (b :: bs) :=
    bindings_eq_some_iff.mpr rfl
  rw [letIn, evaluate_bind hk, bindIn, hchecked]
  simp only [List.map_cons, fillAll, bind_assoc]

/-- What a `let` comes to. -/
theorem evaluate_letIn_apply (hk : k.IsBind) (b : Token × Expr) (bs : List (Token × Expr))
    (body : List Expr) (s : Store) :
    evaluate limit enter? i (letIn k b bs body) s =
      match fillAll limit enter? i k s.scopes.size ((b :: bs).map binding) (s.newChild i).2 with
      | (.ok _, s') => sequence limit enter? s.scopes.size .nil body s'
      | (.error e, s') => (.error e, s') := by
  rw [evaluate_letIn hk, bind_apply, child_apply]
  simp only
  rw [bind_apply]
  rcases fillAll limit enter? i k s.scopes.size ((b :: bs).map binding) (s.newChild i).2 with
    ⟨e | _, s'⟩ <;> rfl

/-- A name has its value in the scope before the rest is dealt with. -/
theorem fillAll_binding_apply {inner : ScopeId} (b : Token × Expr) (bs : List (Token × Expr))
    (s : Store) :
    fillAll limit enter? i k inner ((b :: bs).map binding) s =
      match evaluate limit enter? i b.2 s with
      | (.ok v, s') =>
        fillAll limit enter? i k inner (bs.map binding) (s'.define inner b.1.lexeme v)
      | (.error e, s') => (.error e, s') := by
  rw [List.map_cons, fillAll, binding, fill]
  simp only [bind_apply, bindName_apply]
  rcases evaluate limit enter? i b.2 s with ⟨e | v, s'⟩ <;> rfl

end Eval

end SmallLisp
