/-
Other names, on other lines.

The names of a program are renamed so that no two become one, and every token is put on another line:
wherever a symbol stands, in the names of definitions and parameters, in every scope, and in the
operators and functions that the store holds.  Then nothing happens that did not happen before: the
same value under the new names or the same error about the new name, and the same store under the new
names.

Each place has a line of its own afterwards, so lines are related and not computed: `moved` says
which ones a token may be moved to.
-/
import SmallLisp.Proofs.Relabel.Eval

namespace SmallLisp

/-- What went wrong, with names under a renaming. -/
def EvalError.renamedDetail (ρ : String → String) : EvalError → String
  | .undefinedVariable t => "undefined variable '" ++ ρ t.lexeme ++ "'"
  | e => e.detail

namespace Recasting

variable {R : Recasting}

theorem SameError.token? {e e' : EvalError} (h : R.SameError e e') :
    R.SameSite e.token? e'.token? := by
  cases h with
  | undefinedVariable h => exact .some (.inl h)
  | operandNotNumber h | operandsNotNumbers h | notAnOperator h | unexpectedKeyword h
  | malformed _ h => exact sameSite_mark h
  | notCallable _ h | wrongOperandCount _ _ h | callsTooDeep _ h => exact h

/-- Nothing but a variable is called by its name in the details of an error. -/
theorem SameError.detail_eq (hmark : ∀ {t u}, R.mark t u → u.lexeme = t.lexeme)
    (hlimit : ∀ {l l'}, R.limit l l' → l' = l) {e e' : EvalError} (h : R.SameError e e') :
    e'.detail = e.renamedDetail R.rename := by
  cases h with
  | undefinedVariable h =>
      exact congrArg (fun name => "undefined variable '" ++ name ++ "'") (R.lexeme_of_name h)
  | notAnOperator h => exact congrArg (fun sign => "'" ++ sign ++ "' is not an operator") (hmark h)
  | unexpectedKeyword h =>
      exact congrArg (fun word => "unexpected keyword '" ++ word ++ "'") (hmark h)
  | callsTooDeep h _ =>
      rw [hlimit h]
      rfl
  | _ => rfl

/-- Names under a renaming, and tokens on lines to which they may be moved.  `names` are the tokens
that can be names, `marks` those that can be operators and keywords. -/
def renamed (ρ : String → String) (hρ : Function.Injective ρ) (names marks : Token → Prop)
    (moved : Nat → Nat → Prop) : Recasting where
  rename := ρ
  name t u := names t ∧ ∃ line, moved t.line line ∧ u = { t with lexeme := ρ t.lexeme, line }
  mark t u := marks t ∧ ∃ line, moved t.line line ∧ u = { t with line }
  limit l l' := l' = l
  rename_injective := hρ
  lexeme_of_name := by
    rintro t _ ⟨-, line, -, rfl⟩
    rfl
  kind_of_mark := by
    rintro t _ ⟨-, line, -, rfl⟩
    rfl

/--
**Names have no meaning of their own, and lines have none.**

An expression is evaluated in a store, and the same one under other names and on other lines is
evaluated in the same store under other names and on other lines.  The outcomes are the same and so
are the stores, under other names and on other lines.  An error points at the token that stands where
the other did, and says the same with the new name in it.
-/
theorem evaluation_sees_no_names (ρ : String → String) (hρ : Function.Injective ρ)
    (names marks : Token → Prop) (moved : Nat → Nat → Prop) (limit remaining : Nat)
    (scope : ScopeId) {e e' : Expr} (he : (renamed ρ hρ names marks moved).SameExpr e e')
    {s s' : Store} (hs : (renamed ρ hρ names marks moved).SameStore s s') :
    let R := renamed ρ hρ names marks moved
    R.SameOutcome R.SameValue (Eval.inCalls limit remaining scope e s).1
        (Eval.inCalls limit remaining scope e' s').1 ∧
      R.SameStore (Eval.inCalls limit remaining scope e s).2
        (Eval.inCalls limit remaining scope e' s').2 ∧
      ∀ x x', (Eval.inCalls limit remaining scope e s).1 = .error x →
        (Eval.inCalls limit remaining scope e' s').1 = .error x' →
          R.SameSite x.token? x'.token? ∧ x'.detail = x.renamedDetail ρ := by
  intro R
  have hlimit : R.limit limit limit := rfl
  obtain ⟨houtcome, hstore⟩ := carries_inCalls hlimit remaining scope he s s' hs
  refine ⟨houtcome, hstore, fun x x' hx hx' => ?_⟩
  rw [hx, hx'] at houtcome
  cases houtcome with
  | error h =>
      refine ⟨h.token?, h.detail_eq ?_ id⟩
      rintro t _ ⟨-, line, -, rfl⟩
      rfl

/-- A call of a function that adds its parameter to a variable that is bound nowhere, with the call
and the function on other lines. -/
theorem evaluation_sees_no_names_undefined :
    let ρ : String → String := fun name => "my-" ++ name
    let symbol (name : String) (line : Nat) : Token := ⟨.symbol, name, none, line⟩
    let plus (line : Nat) : Token := ⟨.operator .plus, "+", none, line⟩
    let e : Expr := .list (.symbol (symbol "f" 2)) [.datum .nil]
    let e' : Expr := .list (.symbol (symbol "my-f" 9)) [.datum .nil]
    let body : Expr := .list (.operator (plus 1)) [.symbol (symbol "x" 1), .symbol (symbol "y" 1)]
    let body' : Expr :=
      .list (.operator (plus 4)) [.symbol (symbol "my-x" 4), .symbol (symbol "my-y" 5)]
    let s : Store := ⟨#[⟨[], [("f", .function ⟨0, symbol "f" 1, [symbol "x" 1], body, 0⟩)]⟩], 1⟩
    let s' : Store :=
      ⟨#[⟨[], [("my-f", .function ⟨0, symbol "my-f" 3, [symbol "my-x" 3], body', 0⟩)]⟩], 1⟩
    ∃ hρ : Function.Injective ρ,
      let R := renamed ρ hρ (·.kind = .symbol) (·.kind ≠ .symbol) (fun _ _ => True)
      R.SameExpr e e' ∧ R.SameStore s s' ∧
        (Eval.inCalls 1 1 0 e s).1 = .error (.undefinedVariable (symbol "y" 1)) ∧
        (Eval.inCalls 1 1 0 e' s').1 = .error (.undefinedVariable (symbol "my-y" 5)) ∧
        R.SameSite (some (symbol "y" 1)) (some (symbol "my-y" 5)) ∧
        R.SameStore (Eval.inCalls 1 1 0 e s).2 (Eval.inCalls 1 1 0 e' s').2 := by
  intro ρ symbol plus e e' body body' s s'
  have hρ : Function.Injective ρ := fun a b h => by simpa [ρ] using h
  refine ⟨hρ, ?_⟩
  intro R
  have hname (name : String) (line line' : Nat) :
      R.name (symbol name line) (symbol ("my-" ++ name) line') := ⟨rfl, line', trivial, rfl⟩
  have he : R.SameExpr e e' := .list (.symbol (hname "f" 2 9)) (.cons (.datum .nil) .nil)
  have hbody : R.SameExpr body body' :=
    .list (.operator ⟨by decide, 4, trivial, rfl⟩)
      (.cons (.symbol (hname "x" 1 4)) (.cons (.symbol (hname "y" 1 5)) .nil))
  have hs : R.SameStore s s' := by
    refine ⟨rfl, rfl, fun id => ?_⟩
    match id with
    | 0 =>
        exact ⟨rfl, .cons ⟨rfl, .function ⟨rfl, hname "f" 1 3, .cons (hname "x" 1 3) .nil, hbody,
          rfl⟩⟩ .nil⟩
    | _ + 1 => exact ⟨rfl, .nil⟩
  have hx : (Eval.inCalls 1 1 0 e s).1 = .error (.undefinedVariable (symbol "y" 1)) := by cbv
  have hx' : (Eval.inCalls 1 1 0 e' s').1 = .error (.undefinedVariable (symbol "my-y" 5)) := by cbv
  obtain ⟨-, hstore, herror⟩ := evaluation_sees_no_names ρ hρ _ _ _ 1 1 0 he hs
  exact ⟨he, hs, hx, hx', (herror _ _ hx hx').1, hstore⟩

end Recasting

end SmallLisp
