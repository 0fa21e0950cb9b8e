/-
Evaluation does not see names and lines.

Stores are the same up to a recasting if they have the same scopes in the same places, with bindings
that are the same under the renamed names.  Every operation on a store keeps that, so the evaluation of
an expression that is the same goes hand in hand with the other (`Correspondence.agree_inCalls`): the
places are equal, as scopes keep their numbers, and functions are alike if all their parts are.

`Carries` states it for any two computations, which is how whole programs are put together from their
forms.
-/
import SmallLisp.Interpreter
import SmallLisp.Proofs.Eval.Correspondence

namespace SmallLisp

namespace Recasting

open Eval

/-! ### What is the same

A function is the same if its parts are, in the same scope and with the same identity.  So here, other
than for a correspondence of stores in general, values are the same or not whatever the stores are.
-/

/-- Functions that were made in the same scope, as the same one, from parts that are the same. -/
structure SameClosure (R : Recasting) (c d : Closure) : Prop where
  identity_eq : d.identity = c.identity
  name : R.name c.name d.name
  params : List.Forall₂ R.name c.params d.params
  body : R.SameExpr c.body d.body
  scope_eq : d.scope = c.scope

/-- Values that are the same. -/
abbrev SameValue (R : Recasting) : Value → Value → Prop :=
  Value.Alike R.mark R.SameClosure

/-- A value under a name, and the same one under the renamed name. -/
structure SameBinding (R : Recasting) (b b' : String × Value) : Prop where
  name_eq : b'.1 = R.rename b.1
  value : R.SameValue b.2 b'.2

/-- Scopes that stand in the same scopes, with bindings that are the same. -/
structure SameScope (R : Recasting) (s t : Scope) : Prop where
  outer_eq : t.outer = s.outer
  bindings : List.Forall₂ R.SameBinding s.bindings t.bindings

/-- Stores with scopes that are the same. -/
structure SameStore (R : Recasting) (s t : Store) : Prop where
  size_eq : t.scopes.size = s.scopes.size
  functions_eq : t.functions = s.functions
  scope : ∀ id, R.SameScope (s.scope id) (t.scope id)

variable {R : Recasting}

/-! ### Bindings

No two names become one, so what is bound to a name is found under the renamed one, and is replaced
there.
-/

theorem get?_same {bs bs' : Bindings} (h : List.Forall₂ R.SameBinding bs bs') (name : String) :
    Option.Rel R.SameValue (bs.get? name) (bs'.get? (R.rename name)) := by
  induction h with
  | nil => exact .none
  | @cons b b' bs bs' h _ ih =>
      rw [Bindings.get?_cons, Bindings.get?_cons, h.name_eq]
      by_cases hname : name = b.1
      · rw [if_pos hname, if_pos (congrArg R.rename hname)]
        exact .some h.value
      · rw [if_neg hname, if_neg fun hr => hname (R.rename_injective hr)]
        exact ih

theorem set_same {bs bs' : Bindings} (h : List.Forall₂ R.SameBinding bs bs') (name : String)
    {v w : Value} (hv : R.SameValue v w) :
    List.Forall₂ R.SameBinding (Bindings.set name v bs) (Bindings.set (R.rename name) w bs') := by
  induction h with
  | nil => exact .cons ⟨rfl, hv⟩ .nil
  | @cons b b' bs bs' h hs ih =>
      rw [Bindings.set, Bindings.set, h.name_eq]
      by_cases hname : b.1 = name
      · rw [if_pos hname, if_pos (congrArg R.rename hname)]
        exact .cons ⟨rfl, hv⟩ hs
      · rw [if_neg hname, if_neg fun hr => hname (R.rename_injective hr)]
        exact .cons h ih

theorem zip_same {ts us : List Token} {vs ws : List Value} (hnames : List.Forall₂ R.name ts us)
    (hvalues : List.Forall₂ R.SameValue vs ws) :
    List.Forall₂ R.SameBinding ((ts.map Token.lexeme).zip vs) ((us.map Token.lexeme).zip ws) := by
  induction hnames generalizing vs ws with
  | nil => exact .nil
  | cons h _ ih =>
      cases hvalues with
      | nil => exact .nil
      | cons hv hvs => exact .cons ⟨R.lexeme_of_name h, hv⟩ (ih hvs)

/-! ### The store

Scopes keep their numbers and stand in the same scopes.  So a name is looked up along the same chain, and
is bound in the same scope.
-/

namespace SameStore

variable {s t : Store} (h : R.SameStore s t)
include h

theorem outer_eq (id : ScopeId) : t.outer id = s.outer id :=
  (h.scope id).outer_eq

theorem chain_eq (id : ScopeId) : t.chain id = s.chain id := by
  rw [Store.chain_eq, Store.chain_eq, h.outer_eq]

theorem value? (id : ScopeId) (name : String) :
    Option.Rel R.SameValue (s.value? id name) (t.value? id (R.rename name)) :=
  get?_same (h.scope id).bindings name

theorem lookup (id : ScopeId) (name : String) :
    Option.Rel R.SameValue (s.lookup id name) (t.lookup id (R.rename name)) := by
  rw [Store.lookup_eq, Store.lookup_eq, h.chain_eq]
  induction s.chain id with
  | nil => exact .none
  | cons i is ih =>
      rw [List.findSome?_cons, List.findSome?_cons]
      have hi := h.value? i name
      revert hi
      cases s.value? i name <;> cases t.value? i (R.rename name) <;> intro hi <;> cases hi
      · exact ih
      · rename_i hv
        exact .some hv

theorem resolve_eq (id : ScopeId) (name : String) :
    t.resolve id (R.rename name) = s.resolve id name := by
  unfold Store.resolve
  rw [h.chain_eq]
  congr 1
  funext i
  have hi := h.value? i name
  rw [Store.bindsLocally_eq, Store.bindsLocally_eq]
  revert hi
  cases s.value? i name <;> cases t.value? i (R.rename name) <;> intro hi <;> cases hi <;> rfl

theorem define (id : ScopeId) (name : String) {v w : Value} (hv : R.SameValue v w) :
    R.SameStore (s.define id name v) (t.define id (R.rename name) w) where
  size_eq := by rw [Store.size_define, Store.size_define, h.size_eq]
  functions_eq := h.functions_eq
  scope i := by
    rw [Store.scope_define, Store.scope_define, h.size_eq, h.outer_eq]
    split
    · exact ⟨rfl, set_same (h.scope id).bindings name hv⟩
    · exact h.scope i

theorem assign? (id : ScopeId) (name : String) {v w : Value} (hv : R.SameValue v w) :
    Option.Rel R.SameStore (s.assign? id name v) (t.assign? id (R.rename name) w) := by
  unfold Store.assign?
  rw [h.resolve_eq]
  cases s.resolve id name with
  | none => exact .none
  | some i => exact .some (h.define i name hv)

theorem newFunction : R.SameStore s.newFunction.2 t.newFunction.2 where
  size_eq := h.size_eq
  functions_eq := congrArg (· + 1) h.functions_eq
  scope := h.scope

theorem withFunction (id : ScopeId) {name name' : Token} {params params' : List Token}
    {body body' : Expr} (hname : R.name name name') (hparams : List.Forall₂ R.name params params')
    (hbody : R.SameExpr body body') :
    R.SameStore (s.withFunction id name params body) (t.withFunction id name' params' body') := by
  unfold Store.withFunction
  rw [R.lexeme_of_name hname]
  exact h.newFunction.define id name.lexeme
    (.function ⟨h.functions_eq, hname, hparams, hbody, rfl⟩)

theorem newScope (outer : List ScopeId) :
    R.SameStore (s.newScope outer).2 (t.newScope outer).2 where
  size_eq := by rw [Store.size_newScope, Store.size_newScope, h.size_eq]
  functions_eq := h.functions_eq
  scope i := by
    rw [Store.scope_newScope, Store.scope_newScope, h.size_eq]
    split
    · exact ⟨rfl, .nil⟩
    · exact h.scope i

theorem defineAll (id : ScopeId) {bs bs' : List (String × Value)}
    (hbs : List.Forall₂ R.SameBinding bs bs') :
    R.SameStore (s.defineAll id bs) (t.defineAll id bs') := by
  induction hbs generalizing s t with
  | nil => exact h
  | cons hb _ ih =>
      rw [Store.defineAll, Store.defineAll, hb.name_eq]
      exact ih (h.define id _ hb.value)

theorem newFrame (id : ScopeId) {bs bs' : List (String × Value)}
    (hbs : List.Forall₂ R.SameBinding bs bs') :
    R.SameStore (s.newFrame id bs).2 (t.newFrame id bs').2 := by
  simp only [Store.newFrame, Store.newChild, h.chain_eq]
  have hsize : (t.newScope (s.chain id)).1 = (s.newScope (s.chain id)).1 := h.size_eq
  rw [hsize]
  exact (h.newScope _).defineAll _ hbs

end SameStore

/-! ### The correspondence

Nothing depends on the stores but that they are the same, so what is alike is alike in later stores at
once.
-/

/-- Stores that are the same, with equal places. -/
def recast (R : Recasting) : Correspondence where
  toRecasting := R
  stores := R.SameStore
  places _ _ i j _ := j = i
  inners _ _ i j := j = i
  closures _ _ := R.SameClosure

theorem lawful_recast (R : Recasting) : R.recast.Lawful where
  closures_later _ _ hc := hc
  places_later _ _ hplace := hplace
  inners_later _ _ hinner := hinner
  places_list _ hplace := ⟨hplace, fun _ _ => hplace⟩
  places_bindings _ hplace := hplace
  closures_params hc := hc.params
  closures_body hc := hc.body
  closures_identity hc hc' := by rw [hc.identity_eq, hc'.identity_eq]
  lookup hs hplace hname := by
    cases hplace
    rw [R.lexeme_of_name hname]
    exact hs.lookup _ _
  assign hs hplace hname hvalue := by
    cases hplace
    rw [R.lexeme_of_name hname]
    exact hs.assign? _ _ hvalue
  define hs hplace hsame := by
    cases hplace
    cases hsame with
    | define hname hparams hbody => exact hs.withFunction _ hname hparams hbody
  enter {s t c d vs ws} hs hc hvalues := by
    rw [hc.scope_eq]
    exact ⟨hs.newFrame c.scope (zip_same hc.params hvalues), hs.size_eq⟩
  bind {s t i j k bindings body} hs _ hplace := by
    cases hplace
    exact ⟨hs.newFrame i .nil, hs.size_eq, fun _ _ => hs.size_eq⟩
  fill hs hinner hname hvalue := by
    cases hinner
    rw [R.lexeme_of_name hname]
    exact hs.define _ _ hvalue

/-! ### Whole programs

A program is the fold of its forms, each of which begins in the stores that the one before has left.
-/

/-- Whether two computations lead from stores that are the same to stores that are the same, with
outcomes that are the same. -/
def Carries (R : Recasting) {α β : Type} (P : α → β → Prop) (x : M α) (y : M β) : Prop :=
  ∀ s t, R.SameStore s t → R.SameOutcome P (x s).1 (y t).1 ∧ R.SameStore (x s).2 (y t).2

theorem Carries.bind {α β γ δ : Type} {P : α → β → Prop} {Q : γ → δ → Prop} {x : M α} {y : M β}
    {k : α → M γ} {l : β → M δ} (hx : R.Carries P x y)
    (hk : ∀ a b, P a b → R.Carries Q (k a) (l b)) : R.Carries Q (x >>= k) (y >>= l) := by
  intro s t hs
  rw [bind_apply, bind_apply]
  have hxs := hx s t hs
  revert hxs
  rcases x s with ⟨a, s'⟩
  rcases y t with ⟨b, t'⟩
  rintro ⟨houtcome, hs'⟩
  cases houtcome with
  | ok h => exact hk _ _ h s' t' hs'
  | error h => exact ⟨.error h, hs'⟩

theorem carries_inCalls {limit limit' : Nat} (hlimit : R.limit limit limit') (remaining : Nat)
    (scope : ScopeId) {e e' : Expr} (h : R.SameExpr e e') :
    R.Carries R.SameValue (inCalls limit remaining scope e)
      (inCalls limit' remaining scope e') := by
  intro s t hs
  obtain ⟨-, -, hstore, houtcome⟩ :=
    Correspondence.agree_inCalls R.lawful_recast hlimit remaining hs h (rfl : scope = scope)
  exact ⟨houtcome, hstore⟩

/-- **Forms that are the same run alike, from values that are the same if there are none.** -/
theorem carries_forms (i : Interpreter) (hlimit : R.limit i.maxCalls i.maxCalls) {last last' : Value}
    (hlast : R.SameValue last last') {forms forms' : List Expr}
    (h : List.Forall₂ R.SameExpr forms forms') :
    R.Carries R.SameValue (forms.foldlM (fun _ e => i.evaluate i.globals e) last)
      (forms'.foldlM (fun _ e => i.evaluate i.globals e) last') := by
  induction h generalizing last last' with
  | nil => exact fun _ _ hs => ⟨.ok hlast, hs⟩
  | cons h _ ih =>
      rw [List.foldlM_cons, List.foldlM_cons]
      exact .bind (carries_inCalls hlimit _ _ h) fun _ _ => ih

end Recasting

end SmallLisp
