/-
What the computations of the evaluator do to a store.

A computation is a function from a store to an outcome and another store, in the disguise of a
monad.  The equations here take the disguise off, one for the sequence of two computations and one
for each of those that touch the store, so that a proof about the evaluator meets the monad in no
other place.  A program is such a sequence, and `Interpreter.run_append` cuts it in two.
-/
import SmallLisp.Interpreter

namespace SmallLisp

/-! ### The shape of `let`

The evaluator finds out by itself whether what should be bindings are any.  Those that pass its check are
names with expressions, so that no `let` that evaluates anything is left out by writing it as `letIn`.
-/

namespace Expr

/-- `(name value)`. -/
def binding (b : Token × Expr) : Expr :=
  .list (.symbol b.1) [b.2]

/-- `(let ((name value)...) body...)`, with at least one binding. -/
def letIn (keyword : Token) (b : Token × Expr) (bs : List (Token × Expr)) (body : List Expr) :
    Expr :=
  .list (.keyword keyword) (.list (binding b) (bs.map binding) :: body)

end Expr

namespace Eval

open SmallLisp.Expr (binding)

theorem binding?_eq_some_iff {e : Expr} {b : Token × Expr} :
    binding? e = some b ↔ e = binding b := by
  constructor
  · intro h
    unfold binding? at h
    split at h
    · cases h
      rfl
    · cases h
  · rintro rfl
    rfl

/-- Bindings pass the check one by one. -/
theorem cons_of_bindings {e : Expr} {es : List Expr} {bs : List (Token × Expr)}
    (h : (e :: es).mapM binding? = some bs) :
    ∃ b bs', bs = b :: bs' ∧ binding? e = some b ∧ es.mapM binding? = some bs' := by
  rw [List.mapM_cons] at h
  obtain ⟨b, hb, hrest⟩ := Option.bind_eq_some_iff.mp h
  obtain ⟨bs', hbs', hcons⟩ := Option.bind_eq_some_iff.mp hrest
  cases hcons
  exact ⟨b, bs', rfl, hb, hbs'⟩

theorem bindings_eq_some_iff {es : List Expr} {bs : List (Token × Expr)} :
    es.mapM binding? = some bs ↔ es = bs.map binding := by
  induction es generalizing bs with
  | nil => cases bs <;> simp
  | cons e es ih =>
      constructor
      · intro h
        obtain ⟨b, bs, rfl, hb, hbs⟩ := cons_of_bindings h
        rw [List.map_cons, binding?_eq_some_iff.mp hb, ih.mp hbs]
      · intro h
        cases bs with
        | nil => cases h
        | cons b bs =>
            obtain ⟨rfl, hes⟩ := List.cons.inj h
            rw [List.mapM_cons, ih.mpr hes]
            rfl

/-! ### Computations

One equation for the sequence of two computations, and one for each of those that touch the store.
-/

theorem bind_apply {α β : Type} (x : M α) (k : α → M β) (s : Store) :
    (x >>= k) s =
      match x s with
      | (.ok a, s) => k a s
      | (.error e, s) => (.error e, s) := by
  show (x s >>= fun p => ExceptT.bindCont k p.1 p.2) = _
  rcases x s with ⟨a | e, s'⟩ <;> rfl

theorem get_apply (s : Store) : (get : M Store) s = (.ok s, s) :=
  rfl

theorem valueOf_apply (scope : ScopeId) (name : Token) (s : Store) :
    valueOf scope name s =
      match s.lookup scope name.lexeme with
      | some v => (.ok v, s)
      | none => (.error (.undefinedVariable name), s) := by
  unfold valueOf
  rw [bind_apply, get_apply]
  simp only
  cases s.lookup scope name.lexeme <;> rfl

theorem assign_apply (scope : ScopeId) (name : Token) (v : Value) (s : Store) :
    assign scope name v s =
      match s.assign? scope name.lexeme v with
      | some s' => (.ok (), s')
      | none => (.error (.undefinedVariable name), s) := by
  unfold assign
  rw [bind_apply, get_apply]
  simp only
  cases s.assign? scope name.lexeme v <;> rfl

theorem frame_apply (scope : ScopeId) (names : List Token) (vs : List Value) (s : Store) :
    frame scope names vs s =
      (.ok (s.newFrame scope ((names.map Token.lexeme).zip vs)).1,
        (s.newFrame scope ((names.map Token.lexeme).zip vs)).2) :=
  rfl

theorem child_apply (scope : ScopeId) (s : Store) :
    child scope s = (.ok s.scopes.size, (s.newChild scope).2) :=
  rfl

theorem bindName_apply (scope : ScopeId) (name : Token) (v : Value) (s : Store) :
    bindName scope name v s = (.ok (), s.define scope name.lexeme v) :=
  rfl

/-! ### Entering bodies

`inCalls` counts the calls that may still be entered.  The evaluator that it gives to `evaluate` has a
name here, so that what is proved of `evaluate` with such an evaluator is at once a statement about
`inCalls`.
-/

/-- What entering a body means while so many calls may still be entered. -/
def bodies (limit : Nat) : (remaining : Nat) → Option Evaluator
  | 0 => none
  | remaining + 1 => some (inCalls limit remaining)

theorem inCalls_eq (limit remaining : Nat) :
    inCalls limit remaining = evaluate limit (bodies limit remaining) := by
  cases remaining <;> rfl

end Eval

/-! ### Running one part after the other

Forms are run in order until one fails, so a program can be cut between any two of its forms.
-/

theorem Interpreter.run_nil (i : Interpreter) (s : Store) : i.run [] s = (.ok .nil, s) :=
  rfl

theorem Interpreter.run_singleton (i : Interpreter) (e : Expr) (s : Store) :
    i.run [e] s = i.evaluate i.globals e s := by
  unfold Interpreter.run Interpreter.evaluateForms
  rw [List.foldlM_cons, Eval.bind_apply]
  rcases i.evaluate i.globals e s with ⟨e | v, s'⟩ <;> rfl

/-- Forms run as those of the first part and then those of the second. -/
theorem Interpreter.run_append (i : Interpreter) {forms rest : List Expr} {s s₁ : Store}
    {v : Value} (h : i.run (forms ++ rest) s = (.ok v, s₁)) :
    ∃ v' s' v'', i.run forms s = (.ok v', s') ∧ i.run rest s' = (.ok v'', s₁) ∧
      v = if rest.isEmpty then v' else v'' := by
  unfold Interpreter.run Interpreter.evaluateForms at h ⊢
  rw [List.foldlM_append, Eval.bind_apply] at h
  rcases hfirst : List.foldlM (fun _ e => i.evaluate i.globals e) Value.nil forms s with
    ⟨e | v', s'⟩
  · rw [hfirst] at h
    cases h
  · rw [hfirst] at h
    cases rest with
    | nil =>
        cases h
        exact ⟨v, s₁, .nil, rfl, rfl, rfl⟩
    | cons e rest => exact ⟨v', s', v, rfl, h, rfl⟩

end SmallLisp
