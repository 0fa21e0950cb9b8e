/-
Which names an evaluation adds, and where.

An evaluation makes scopes for calls and for `let`, defines functions and assigns values.  Of the
scopes that were there before, only the one where it runs can gain a name, and only that of a
definition which stands in the expression itself: not in the body of a function, which is evaluated in
a scope of its own, nor in the body of a `let`.  Assigning gives values to names that are bound
already.  So a caller can tell from the text of an expression which names it adds to a scope.

A closure may have been made in the very scope that is looked at, and calling it runs code which stands
nowhere in the expression.  This does no harm since that code runs in a new scope: every place of an
evaluation is the scope where it began or one made since (`confinement`).
-/
import SmallLisp.Proofs.Eval.Invariant

namespace SmallLisp

/-- Whether an expression defines a name where it is evaluated: a definition of the name occurs in it
outside the bodies of functions and the bodies of `let`. -/
inductive Expr.Defines : Expr → String → Prop where
  | define (name : Token) (params : List Token) (body : Expr) :
      Defines (.define name params body) name.lexeme
  | head {head : Expr} {operands : List Expr} {name : String}
      (hbind : ∀ k, head = .keyword k → ¬ k.IsBind) (h : Defines head name) :
      Defines (.list head operands) name
  | operand {head e : Expr} {operands : List Expr} {name : String}
      (hbind : ∀ k, head = .keyword k → ¬ k.IsBind) (he : e ∈ operands) (h : Defines e name) :
      Defines (.list head operands) name
  /-- The values that a `let` binds are computed outside of it. -/
  | bindings {k : Token} {bindings : Expr} {body : List Expr} {name : String} (hbind : k.IsBind)
      (h : Defines bindings name) :
      Defines (.list (.keyword k) (bindings :: body)) name

/-! ### Names that are bound

Only defining binds a name, and it does so in one scope.  `Confined` compares the store before with the store
after, and each operation keeps it.
-/

namespace Store

theorem bindsLocally_define (s : Store) (id : ScopeId) (name : String) (v : Value) (i : ScopeId)
    (name' : String) :
    (s.define id name v).bindsLocally i name' =
      (decide (i = id ∧ id < s.scopes.size ∧ name' = name) || s.bindsLocally i name') := by
  rw [bindsLocally_eq, bindsLocally_eq, value?_define]
  by_cases h : i = id ∧ id < s.scopes.size ∧ name' = name
  · rw [if_pos h, decide_eq_true h, Option.isSome_some, Bool.true_or]
  · rw [if_neg h, decide_eq_false h, Bool.false_or]

/-- Assigning binds no name. -/
theorem bindsLocally_assign? {s s' : Store} {id : ScopeId} {name : String} {v : Value}
    (h : s.assign? id name v = some s') (i : ScopeId) (name' : String) :
    s'.bindsLocally i name' = s.bindsLocally i name' := by
  obtain ⟨j, -, hbinds, rfl⟩ := exists_of_assign? h
  rw [bindsLocally_define]
  by_cases hsame : i = j ∧ j < s.scopes.size ∧ name' = name
  · obtain ⟨rfl, -, rfl⟩ := hsame
    rw [hbinds, Bool.or_true]
  · rw [decide_eq_false hsame, Bool.false_or]

theorem bindsLocally_newFrame_of_ne (s : Store) (id : ScopeId) (bs : List (String × Value))
    {i : ScopeId} (h : i ≠ s.scopes.size) (name : String) :
    (s.newFrame id bs).2.bindsLocally i name = s.bindsLocally i name := by
  rw [bindsLocally_eq, bindsLocally_eq, value?_newFrame_of_ne s id bs h]

end Store

namespace Eval

/-- What an expression evaluated in a scope may do to the scopes of a store. -/
structure Confined (e : Expr) (own : ScopeId) (s s' : Store) : Prop where
  /-- No scope is lost. -/
  size_le : s.scopes.size ≤ s'.scopes.size
  /-- A scope keeps the scopes around it. -/
  outer_eq : ∀ i < s.scopes.size, s'.outer i = s.outer i
  /-- A scope keeps its names. -/
  keeps : ∀ i < s.scopes.size, ∀ name, s.bindsLocally i name = true →
    s'.bindsLocally i name = true
  /-- A scope where the expression is not evaluated binds the same names. -/
  elsewhere : ∀ i < s.scopes.size, i ≠ own → ∀ name,
    s'.bindsLocally i name = s.bindsLocally i name
  /-- The scope where it is evaluated gains only names that the expression defines. -/
  gains : own < s.scopes.size → ∀ name, s'.bindsLocally own name = true →
    s.bindsLocally own name = true ∨ e.Defines name

namespace Confined

variable {e : Expr} {own : ScopeId} {s₀ s s' : Store}

theorem refl (e : Expr) (own : ScopeId) (s : Store) : Confined e own s s :=
  ⟨Nat.le_refl _, fun _ _ => rfl, fun _ _ _ h => h, fun _ _ _ _ => rfl, fun _ _ h => .inl h⟩

/-- What binds no name in the scopes that were there stays confined. -/
theorem of_same (h : Confined e own s₀ s) (hlater : s.Extends s')
    (hsame : ∀ i < s₀.scopes.size, ∀ name, s'.bindsLocally i name = s.bindsLocally i name) :
    Confined e own s₀ s' where
  size_le := Nat.le_trans h.size_le hlater.size_le
  outer_eq i hi := by
    rw [hlater.outer_eq i (Nat.lt_of_lt_of_le hi h.size_le), h.outer_eq i hi]
  keeps i hi name hname := by
    rw [hsame i hi]
    exact h.keeps i hi name hname
  elsewhere i hi hne name := by rw [hsame i hi, h.elsewhere i hi hne]
  gains hown name hname := by
    rw [hsame own hown] at hname
    exact h.gains hown name hname

theorem newFrame (h : Confined e own s₀ s) (id : ScopeId) (bs : List (String × Value)) :
    Confined e own s₀ (s.newFrame id bs).2 := by
  refine h.of_same (Store.extends_newFrame s id bs) fun i hi name => ?_
  have hne : i ≠ s.scopes.size := Nat.ne_of_lt (Nat.lt_of_lt_of_le hi h.size_le)
  exact Store.bindsLocally_newFrame_of_ne s id bs hne name

/-- A name may be bound in a new scope, or in the scope of the expression if that defines it. -/
theorem define (h : Confined e own s₀ s) {id : ScopeId} {name : String}
    (hplace : s₀.scopes.size ≤ id ∨ id = own ∧ e.Defines name) (v : Value) :
    Confined e own s₀ (s.define id name v) := by
  have hlater := Store.extends_define s id name v
  have hold {i : ScopeId} (hi : i < s₀.scopes.size) (hne : i ≠ own) : i ≠ id := by
    rintro rfl
    obtain hnew | ⟨hown, -⟩ := hplace
    · exact Nat.not_le_of_lt hi hnew
    · exact hne hown
  refine ⟨Nat.le_trans h.size_le hlater.size_le, ?_, ?_, ?_, ?_⟩
  · intro i hi
    rw [hlater.outer_eq i (Nat.lt_of_lt_of_le hi h.size_le), h.outer_eq i hi]
  · intro i hi name' hname
    rw [Store.bindsLocally_define, h.keeps i hi name' hname, Bool.or_true]
  · intro i hi hne name'
    rw [Store.bindsLocally_define, decide_eq_false fun h => hold hi hne h.1, Bool.false_or,
      h.elsewhere i hi hne]
  · intro hown name' hname
    rw [Store.bindsLocally_define, Bool.or_eq_true, decide_eq_true_eq] at hname
    obtain ⟨rfl, -, rfl⟩ | hname := hname
    · obtain hnew | ⟨-, hdefines⟩ := hplace
      · exact absurd hnew (Nat.not_le_of_lt hown)
      · exact .inr hdefines
    · exact h.gains hown name' hname

theorem withFunction (h : Confined e own s₀ s) {id : ScopeId} {name : Token}
    (hplace : s₀.scopes.size ≤ id ∨ id = own ∧ e.Defines name.lexeme) (params : List Token)
    (body : Expr) : Confined e own s₀ (s.withFunction id name params body) :=
  define (s := s.newFunction.2) ⟨h.size_le, h.outer_eq, h.keeps, h.elsewhere, h.gains⟩ hplace
    (.function ⟨s.functions, name, params, body, id⟩)

end Confined

/-! ### Every place is the first one or a new one

Confinement is a property of one evaluation, and so an invariant in the sense of `Invariant`.  In a new scope
anything may happen, and in the scope where the evaluation began only what the expression says.
-/

/-- The invariant of an evaluation in a scope: what runs elsewhere runs in a new scope, and what runs
in the scope itself defines only what the whole expression defines. -/
def confinement (e : Expr) (own : ScopeId) (s₀ : Store) : Invariant where
  store s := Confined e own s₀ s
  place _ i part := s₀.scopes.size ≤ i ∨ i = own ∧ ∀ name, part.Defines name → e.Defines name
  inner _ i := s₀.scopes.size ≤ i
  closure _ _ := True

theorem value_confinement (e : Expr) (own : ScopeId) (s₀ s : Store) (v : Value) :
    (confinement e own s₀).value s v := by
  cases v <;> trivial

theorem lawful_confinement (e : Expr) (own : ScopeId) (s₀ : Store) :
    (confinement e own s₀).Lawful where
  closure_later _ h := h
  place_later _ h := h
  inner_later _ h := h
  place_list hbind h := by
    obtain hnew | ⟨hown, hdefines⟩ := h
    · exact ⟨.inl hnew, fun _ _ => .inl hnew⟩
    · refine ⟨.inr ⟨hown, fun name h => hdefines name (.head hbind h)⟩, fun part hpart => ?_⟩
      exact .inr ⟨hown, fun name h => hdefines name (.operand hbind hpart h)⟩
  place_bindings hbind h := by
    refine h.imp_right fun ⟨hown, hdefines⟩ => ⟨hown, fun name h => ?_⟩
    exact hdefines name (.bindings hbind h)
  lookup _ _ _ := value_confinement ..
  assign h _ _ hassign := h.of_same (Store.extends_assign? hassign)
    fun i _ name => Store.bindsLocally_assign? hassign i name
  define h hplace := by
    refine Confined.withFunction h (hplace.imp_right fun ⟨hown, hdefines⟩ => ⟨hown, ?_⟩) _ _
    exact hdefines _ (.define ..)
  enter h _ _ := ⟨Confined.newFrame h _ _, .inl h.size_le⟩
  bind h _ _ := ⟨Confined.newFrame h _ [], h.size_le, fun _ _ => .inl h.size_le⟩
  fill h hinner _ := Confined.define h (.inl hinner) _

/-- **An evaluation adds names only to the scope where it runs**, and only those that the expression
defines there, whether it ends with a value or with an error. -/
theorem confined_inCalls (limit remaining : Nat) (own : ScopeId) (e : Expr) (s : Store) :
    Confined e own s (inCalls limit remaining own e s).2 := by
  have hkeeps := (lawful_confinement e own s).keeps_inCalls limit remaining (.refl e own s)
    (.inr ⟨rfl, fun _ h => h⟩)
  exact hkeeps.store

end Eval

end SmallLisp
