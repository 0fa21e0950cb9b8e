/-
Another token for every token.

A relabelling replaces every token by one of the same kind, with the same value, whose spelling is
that of the old one under an injective renaming.  It reaches every place where a token or a name
can be: expressions, values, the bindings of scopes, errors.

A recasting that lets a token stand for just one other is a relabelling (`recasting`): what is the
same up to it is what has been relabelled.  So what holds of recastings holds of relabellings, and a
relabelled program does the relabelled thing.
-/
import SmallLisp.Proofs.Relabel.Eval

namespace SmallLisp

/-- Another token for every token. -/
structure Relabelling where
  name : String → String
  token : Token → Token
  name_injective : ∀ {a b : String}, name a = name b → a = b
  kind_token : ∀ t, (token t).kind = t.kind
  literal_token : ∀ t, (token t).literal = t.literal
  lexeme_token : ∀ t, (token t).lexeme = name t.lexeme

attribute [simp] Relabelling.kind_token Relabelling.literal_token Relabelling.lexeme_token

namespace Relabelling

variable (r : Relabelling)

/-! ### Everything that has a token in it

One definition for each type, as deep as the type is.  A relabelled store has the same scopes in the same
places, with other names.
-/

mutual

/-- An expression with its tokens relabelled. -/
def expr : Expr → Expr
  | .datum d => .datum d
  | .symbol t => .symbol (r.token t)
  | .operator t => .operator (r.token t)
  | .keyword t => .keyword (r.token t)
  | .list head operands => .list (expr head) (exprs operands)
  | .define name params body => .define (r.token name) (params.map r.token) (expr body)

/-- `expr`, element by element. -/
def exprs : List Expr → List Expr
  | [] => []
  | e :: es => expr e :: exprs es

end

theorem exprs_eq_map (es : List Expr) : r.exprs es = es.map r.expr := by
  induction es with
  | nil => rfl
  | cons e es ih => simp [exprs, ih]

/-- A function with its tokens relabelled.  It stands in the same scope. -/
def closure (c : Closure) : Closure :=
  ⟨c.identity, r.token c.name, c.params.map r.token, r.expr c.body, c.scope⟩

/-- A value with its tokens relabelled. -/
def value : Value → Value
  | .datum d => .datum d
  | .operator t => .operator (r.token t)
  | .function c => .function (r.closure c)

/-- A name and its value, relabelled. -/
def binding (b : String × Value) : String × Value :=
  (r.name b.1, r.value b.2)

/-- A scope with its names and values relabelled.  It stands in the same scopes. -/
def scope (s : Scope) : Scope :=
  ⟨s.outer, s.bindings.map r.binding⟩

/-- A store with all its scopes relabelled. -/
def store (s : Store) : Store :=
  ⟨s.scopes.map r.scope, s.functions⟩

/-- An error about relabelled tokens. -/
def error : EvalError → EvalError
  | .undefinedVariable t => .undefinedVariable (r.token t)
  | .operandNotNumber t => .operandNotNumber (r.token t)
  | .operandsNotNumbers t => .operandsNotNumbers (r.token t)
  | .notAnOperator t => .notAnOperator (r.token t)
  | .notCallable site type => .notCallable (site.map r.token) type
  | .unexpectedKeyword t => .unexpectedKeyword (r.token t)
  | .wrongOperandCount site expected got => .wrongOperandCount (site.map r.token) expected got
  | .callsTooDeep site limit => .callsTooDeep (site.map r.token) limit
  | .malformed t problem => .malformed (r.token t) problem

/-- An outcome, relabelled. -/
def outcome {α β : Type} (f : α → β) : Except EvalError α → Except EvalError β
  | .ok a => .ok (f a)
  | .error e => .error (r.error e)

/-- Whether a computation does in a relabelled store what another does in the store, with the
relabelled outcome. -/
def Carries {α β : Type} (f : α → β) (x : Eval.M α) (y : Eval.M β) : Prop :=
  ∀ s, y (r.store s) = (r.outcome f (x s).1, r.store (x s).2)

/-! ### The recasting that it is

A recasting is a relation and a relabelling a function.  For each type, the relation is shown to be the graph
of the function.
-/

/-- The recasting that lets a token stand for that by which it is replaced. -/
def recasting : Recasting where
  rename := r.name
  name t u := u = r.token t
  mark t u := u = r.token t
  limit l l' := l' = l
  rename_injective _ _ := r.name_injective
  lexeme_of_name h := h ▸ r.lexeme_token _
  kind_of_mark h := h ▸ r.kind_token _

/-- A row that is the same, one by one, is the row of what replaces each. -/
theorem forall₂_iff {α β : Type} {P : α → β → Prop} {f : α → β} (hP : ∀ a b, P a b ↔ b = f a)
    {as : List α} {bs : List β} : List.Forall₂ P as bs ↔ bs = as.map f := by
  constructor
  · intro h
    induction h with
    | nil => rfl
    | cons h _ ih => rw [List.map_cons, ← ih, (hP _ _).mp h]
  · rintro rfl
    induction as with
    | nil => exact .nil
    | cons a as ih => exact .cons ((hP _ _).mpr rfl) ih

mutual

theorem sameExpr_iff (e e' : Expr) : r.recasting.SameExpr e e' ↔ e' = r.expr e := by
  constructor
  · intro h
    match e, h with
    | .datum _, .datum _ => rfl
    | .symbol _, .symbol h => exact congrArg Expr.symbol h
    | .operator _, .operator h => exact congrArg Expr.operator h
    | .keyword _, .keyword h => exact congrArg Expr.keyword h
    | .list head operands, .list hhead hoperands =>
        rw [expr, ← (sameExpr_iff head _).mp hhead, ← (sameExprs_iff operands _).mp hoperands]
    | .define name params body, .define hname hparams hbody =>
        rw [expr, ← (sameExpr_iff body _).mp hbody, ← (forall₂_iff fun _ _ => .rfl).mp hparams,
          show _ = r.token name from hname]
  · rintro rfl
    match e with
    | .datum _ => exact .datum _
    | .symbol _ => exact .symbol rfl
    | .operator _ => exact .operator rfl
    | .keyword _ => exact .keyword rfl
    | .list head operands =>
        exact .list ((sameExpr_iff head _).mpr rfl) ((sameExprs_iff operands _).mpr rfl)
    | .define _ _ body =>
        exact .define rfl ((forall₂_iff fun _ _ => .rfl).mpr rfl) ((sameExpr_iff body _).mpr rfl)

theorem sameExprs_iff (es es' : List Expr) :
    List.Forall₂ r.recasting.SameExpr es es' ↔ es' = r.exprs es := by
  match es, es' with
  | [], [] => simp [exprs]
  | [], _ :: _ => simp [exprs]
  | _ :: _, [] => simp [exprs]
  | e :: es, e' :: es' =>
      rw [List.forall₂_cons, sameExpr_iff e e', sameExprs_iff es es', exprs, List.cons.injEq]

end

theorem sameClosure_iff (c d : Closure) : r.recasting.SameClosure c d ↔ d = r.closure c := by
  constructor
  · rintro ⟨hidentity, hname, hparams, hbody, hscope⟩
    obtain ⟨identity, name, params, body, scope⟩ := d
    rw [closure, ← (r.sameExpr_iff _ _).mp hbody, ← (forall₂_iff fun _ _ => .rfl).mp hparams,
      ← hidentity, ← hscope, ← show name = r.token c.name from hname]
  · rintro rfl
    exact ⟨rfl, rfl, (forall₂_iff fun _ _ => .rfl).mpr rfl, (r.sameExpr_iff _ _).mpr rfl, rfl⟩

theorem sameValue_iff (v w : Value) : r.recasting.SameValue v w ↔ w = r.value v := by
  constructor
  · intro h
    cases h with
    | datum d => rfl
    | operator h => exact congrArg Value.operator h
    | function h => exact congrArg Value.function ((r.sameClosure_iff _ _).mp h)
  · rintro rfl
    cases v with
    | datum d => exact .datum d
    | operator t => exact .operator rfl
    | function c => exact .function ((r.sameClosure_iff _ _).mpr rfl)

theorem sameBinding_iff (b b' : String × Value) :
    r.recasting.SameBinding b b' ↔ b' = r.binding b := by
  constructor
  · rintro ⟨hname, hvalue⟩
    exact Prod.ext hname ((r.sameValue_iff _ _).mp hvalue)
  · rintro rfl
    exact ⟨rfl, (r.sameValue_iff _ _).mpr rfl⟩

theorem sameScope_iff (s t : Scope) : r.recasting.SameScope s t ↔ t = r.scope s := by
  constructor
  · rintro ⟨houter, hbindings⟩
    obtain ⟨outer, bindings⟩ := t
    rw [scope, ← (forall₂_iff r.sameBinding_iff).mp hbindings, ← houter]
  · rintro rfl
    exact ⟨rfl, (forall₂_iff r.sameBinding_iff).mpr rfl⟩

theorem scope_store (s : Store) (id : ScopeId) : (r.store s).scope id = r.scope (s.scope id) := by
  unfold Store.scope
  by_cases h : id < s.scopes.size
  · simp [store, Array.getD, h]
  · simp [store, Array.getD, h, scope]
    rfl

theorem sameStore_iff (s t : Store) : r.recasting.SameStore s t ↔ t = r.store s := by
  constructor
  · rintro ⟨hsize, hfunctions, hscope⟩
    obtain ⟨scopes, functions⟩ := t
    rw [store, ← hfunctions]
    refine congrArg (Store.mk · functions) (Array.ext (by simpa using hsize) fun id hid hid' => ?_)
    have hid'' : id < s.scopes.size := by simpa using hid'
    have hsame := (r.sameScope_iff _ _).mp (hscope id)
    simpa [Store.scope, Array.getD, hid, hid''] using hsame
  · rintro rfl
    exact ⟨Array.size_map, rfl, fun id => (r.sameScope_iff _ _).mpr (r.scope_store s id)⟩

theorem sameSite_iff (site site' : Option Token) :
    r.recasting.SameSite site site' ↔ site' = site.map r.token := by
  constructor
  · rintro (h | _)
    · exact congrArg some (h.elim id id)
    · rfl
  · rintro rfl
    cases site with
    | none => exact .none
    | some t => exact .some (.inl rfl)

theorem eq_error_of_sameError {e e' : EvalError} (h : r.recasting.SameError e e') :
    e' = r.error e := by
  cases h with
  | notCallable _ h => exact congrArg (EvalError.notCallable · _) ((r.sameSite_iff _ _).mp h)
  | wrongOperandCount _ _ h =>
      exact congrArg (EvalError.wrongOperandCount · _ _) ((r.sameSite_iff _ _).mp h)
  | callsTooDeep hlimit h =>
      rw [error, ← (r.sameSite_iff _ _).mp h, show _ = _ from hlimit]
  | malformed _ h => exact congrArg (EvalError.malformed · _) h
  | undefinedVariable h => exact congrArg EvalError.undefinedVariable h
  | operandNotNumber h => exact congrArg EvalError.operandNotNumber h
  | operandsNotNumbers h => exact congrArg EvalError.operandsNotNumbers h
  | notAnOperator h => exact congrArg EvalError.notAnOperator h
  | unexpectedKeyword h => exact congrArg EvalError.unexpectedKeyword h

/-! ### Whole programs

What has been shown of recastings is carried over, and holds of evaluations and of rows of forms.
-/

variable {r}

theorem carries_of_recasting {x y : Eval.M Value}
    (h : r.recasting.Carries r.recasting.SameValue x y) : r.Carries r.value x y := by
  intro s
  obtain ⟨houtcome, hstore⟩ := h s (r.store s) ((r.sameStore_iff _ _).mpr rfl)
  refine Prod.ext ?_ ((r.sameStore_iff _ _).mp hstore)
  revert houtcome
  cases (x s).1 <;> cases (y (r.store s)).1 <;> intro houtcome <;> cases houtcome
  · rename_i he
    exact congrArg Except.error (r.eq_error_of_sameError he)
  · rename_i hv
    exact congrArg Except.ok ((r.sameValue_iff _ _).mp hv)

/-- **A relabelled program runs as the program does, from any value that would be its own if it
had no forms.** -/
theorem carries_forms (i : Interpreter) (last : Value) (forms : List Expr) :
    r.Carries r.value (forms.foldlM (fun _ e => i.evaluate i.globals e) last)
      ((r.exprs forms).foldlM (fun _ e => i.evaluate i.globals e) (r.value last)) :=
  carries_of_recasting (Recasting.carries_forms i rfl ((r.sameValue_iff _ _).mpr rfl)
    ((r.sameExprs_iff _ _).mpr rfl))

end Relabelling

end SmallLisp
