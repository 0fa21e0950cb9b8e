/-
What cannot be reached is neither seen nor touched.

An expression is evaluated in a scope of one store and in the same scope of another.  If the stores agree
on what the scope reaches, the outcomes agree, and so do the stores afterwards, on what was reached and on
what is new.  What was not reached is as it was, in both.  Only the numbers of new scopes and the identities
of new functions depend on how much the stores had before, and the renumbering says how.

So two functions over separate scopes cannot affect each other, however they have come about: an
evaluation that reaches one scope and not the other leaves the other alone.
-/
import SmallLisp.Proofs.Eval.Correspondence
import SmallLisp.Proofs.Store.Reaches

namespace SmallLisp

namespace Store.Mirrors

variable {env i j : ScopeId} {s₀ t₀ s t : Store} {v : Value}

/-! ### Names

The scopes that an evaluation looks at are reached, and the stores mirror each other there.  So looking a name
up finds the same binding on both sides, or none.
-/

/-- A name means the same in both stores. -/
theorem lookup_eq (hm : Mirrors env s₀ t₀ s t) (hi : Inside env s₀ s i) (name : String) :
    t.lookup ((s₀.renumbering t₀).scope i) name =
      (s.lookup i name).map (s₀.renumbering t₀).value :=
  lookup_of_chain_eq_map (hm.chain_eq_map hi) fun k hk =>
    hm.value_eq k (hm.inside_chain hi hk) name

theorem inside_lookup (hm : Mirrors env s₀ t₀ s t) (hi : Inside env s₀ s i) {name : String}
    (hlookup : s.lookup i name = some v) : InsideValue env s₀ t₀ s v := by
  obtain ⟨k, hk, hv⟩ := exists_of_lookup hlookup
  exact hm.inside_value k (hm.inside_chain hi hk) name v hv

/-- A name is bound in the same scope in both stores. -/
theorem resolve_eq (hm : Mirrors env s₀ t₀ s t) (hi : Inside env s₀ s i) (name : String) :
    t.resolve ((s₀.renumbering t₀).scope i) name =
      (s.resolve i name).map (s₀.renumbering t₀).scope :=
  resolve_of_chain_eq_map (hm.chain_eq_map hi) fun k hk =>
    hm.value_eq k (hm.inside_chain hi hk) name

/-- Assigning keeps stores in step. -/
theorem assign?_rel (h : AgreeFrom env s₀ t₀) (hm : Mirrors env s₀ t₀ s t)
    (hi : Inside env s₀ s i) (hv : InsideValue env s₀ t₀ s v) (name : String) :
    Option.Rel (Mirrors env s₀ t₀) (s.assign? i name v)
      (t.assign? ((s₀.renumbering t₀).scope i) name ((s₀.renumbering t₀).value v)) := by
  unfold assign?
  rw [hm.resolve_eq hi]
  cases hresolve : s.resolve i name with
  | none => exact .none
  | some k =>
      have hk : k ∈ s.chain i := List.mem_of_find?_eq_some hresolve
      exact .some (hm.define h (hm.inside_chain hi hk) hv name)

end Store.Mirrors

namespace Eval

open Store (AgreeFrom Inside InsideClosure InsideValue Mirrors)

variable {env : ScopeId} {s t : Store}

/-! ### The correspondence

`Mirrors` becomes a respect in which stores can be alike, and the laws are those of the operations.  The
induction over forms is the common one.
-/

/-- Stores that mirror each other, with the places and the functions that the renumbering takes to each
other. -/
def mirroring (env : ScopeId) (s₀ t₀ : Store) : Correspondence where
  toRecasting := .same fun l l' => l' = l
  stores s t := Mirrors env s₀ t₀ s t
  places s _ i j _ := j = (s₀.renumbering t₀).scope i ∧ Inside env s₀ s i
  inners s _ i j := j = (s₀.renumbering t₀).scope i ∧ Inside env s₀ s i
  closures s _ c d := d = (s₀.renumbering t₀).closure c ∧ InsideClosure env s₀ t₀ s c

theorem alike_mirroring {s₀ t₀ : Store} {v w : Value} :
    (mirroring env s₀ t₀).Alike s t v w ↔
      w = (s₀.renumbering t₀).value v ∧ InsideValue env s₀ t₀ s v :=
  Value.alike_iff Iff.rfl

theorem alikes_mirroring {s₀ t₀ : Store} {vs ws : List Value} :
    (mirroring env s₀ t₀).Alikes s t vs ws ↔
      ws = vs.map (s₀.renumbering t₀).value ∧ ∀ v ∈ vs, InsideValue env s₀ t₀ s v :=
  Value.alikes_iff Iff.rfl

theorem inside_newFrame {s₀ : Store} (h : s₀.scopes.size ≤ s.scopes.size) (i : ScopeId)
    (bs : List (String × Value)) : Inside env s₀ (s.newFrame i bs).2 s.scopes.size :=
  ⟨Store.lt_size_newFrame s i bs, fun hold => absurd hold (Nat.not_lt_of_le h)⟩

theorem lawful_mirroring {s₀ t₀ : Store} (h : AgreeFrom env s₀ t₀) :
    (mirroring env s₀ t₀).Lawful where
  closures_later hs _ hc := ⟨hc.1, hc.2.later hs⟩
  places_later hs _ hplace := ⟨hplace.1, hplace.2.later hs⟩
  inners_later hs _ hinner := ⟨hinner.1, hinner.2.later hs⟩
  places_list _ hplace := ⟨hplace, fun _ _ => hplace⟩
  places_bindings _ hplace := hplace
  closures_params hc := Recasting.names_same_iff.mpr (by rw [hc.1, Renumbering.closure])
  closures_body hc := (Recasting.sameExpr_same_iff _ _).mpr (by rw [hc.1, Renumbering.closure])
  closures_identity hc hc' := by
    rw [hc.1, hc'.1]
    exact Renumbering.shift_inj hc.2.2.2 hc'.2.2.2
  lookup {s t i j name name'} hm hplace hname := by
    obtain ⟨rfl, hi⟩ := hplace
    obtain rfl : name' = name := hname
    rw [hm.lookup_eq hi]
    cases hlookup : s.lookup i name'.lexeme with
    | none => exact .none
    | some v => exact .some (alike_mirroring.mpr ⟨rfl, hm.inside_lookup hi hlookup⟩)
  assign {s t i j name name' v w} hm hplace hname hvalue := by
    obtain ⟨rfl, hi⟩ := hplace
    obtain rfl : name' = name := hname
    obtain ⟨rfl, hv⟩ := alike_mirroring.mp hvalue
    exact hm.assign?_rel h hi hv _
  define hm hplace hsame := by
    obtain ⟨rfl, hi⟩ := hplace
    cases (Recasting.sameExpr_same_iff _ _).mp hsame
    exact hm.withFunction h hi _ _ _
  enter {s t c d vs ws} hm hc hvalues := by
    obtain ⟨rfl, hc⟩ := hc
    obtain ⟨rfl, hvs⟩ := alikes_mirroring.mp hvalues
    exact ⟨hm.newFrame h hc.1 hvs _, hm.size_eq, inside_newFrame hm.size_le _ _⟩
  bind {s t i j k bindings body} hm _ hplace := by
    obtain ⟨rfl, hi⟩ := hplace
    have hinside : Inside env s₀ (s.newChild i).2 s.scopes.size := inside_newFrame hm.size_le i []
    exact ⟨hm.newFrame h hi (List.forall_mem_nil _) [], ⟨hm.size_eq, hinside⟩,
      fun _ _ => ⟨hm.size_eq, hinside⟩⟩
  fill {s t i j name name' v w} hm hinner hname hvalue := by
    obtain ⟨rfl, hi⟩ := hinner
    obtain rfl : name' = name := hname
    obtain ⟨rfl, hv⟩ := alike_mirroring.mp hvalue
    exact hm.define h hi hv _

/-! ### Isolation

At the beginning nothing has been made, and the renumbering moves only what is new.
-/

/-- What two evaluations in one scope of two stores have in common, and what they leave alone. -/
structure Isolated (env : ScopeId) (s t : Store) (x y : Except EvalError Value × Store) : Prop where
  /-- The outcomes are the same. -/
  outcome : y.1 = x.1.map (s.renumbering t).value
  /-- As many scopes are new, and as many functions. -/
  size_le : s.scopes.size ≤ x.2.scopes.size
  size_eq : y.2.scopes.size = (s.renumbering t).scope x.2.scopes.size
  functions_le : s.functions ≤ x.2.functions
  functions_eq : y.2.functions = (s.renumbering t).identity x.2.functions
  /-- What was reached and what is new stands in the same scope. -/
  parent?_eq : ∀ i < x.2.scopes.size, s.Reaches env i ∨ s.scopes.size ≤ i →
    y.2.parent? ((s.renumbering t).scope i) = (x.2.parent? i).map (s.renumbering t).scope
  /-- It binds the same names to the same values. -/
  value?_eq : ∀ i < x.2.scopes.size, s.Reaches env i ∨ s.scopes.size ≤ i → ∀ name,
    y.2.value? ((s.renumbering t).scope i) name = (x.2.value? i name).map (s.renumbering t).value
  /-- What was not reached is as it was. -/
  untouched : ∀ i < s.scopes.size, ¬ s.Reaches env i → x.2.scope i = s.scope i
  untouched' : ∀ i < t.scopes.size, ¬ t.Reaches env i → y.2.scope i = t.scope i

/-- **What a scope does not reach bears on no evaluation there and is left alone by it.** -/
theorem isolated_inCalls (limit remaining : Nat) (e : Expr) (h : AgreeFrom env s t) :
    Isolated env s t (inCalls limit remaining env e s) (inCalls limit remaining env e t) := by
  have hplace : (mirroring env s t).places s t env env e :=
    ⟨(h.scope_of_reaches .self).symm, h.inside_of_reaches .self⟩
  obtain ⟨-, -, hm, houtcome⟩ :=
    Correspondence.agree_inCalls (lawful_mirroring h) (show limit = limit from rfl) remaining
      h.mirrors ((Recasting.sameExpr_same_iff e e).mpr rfl) hplace
  revert hm houtcome
  generalize inCalls limit remaining env e s = x
  generalize inCalls limit remaining env e t = y
  intro hm houtcome
  have hinside {i : ScopeId} (hi : i < x.2.scopes.size)
      (hkind : s.Reaches env i ∨ s.scopes.size ≤ i) : Inside env s x.2 i := by
    refine ⟨hi, fun hold => ?_⟩
    obtain hreach | hnew := hkind
    · exact hreach
    · exact absurd hnew (Nat.not_le_of_lt hold)
  refine ⟨?_, hm.size_le, hm.size_eq, hm.functions_le, hm.functions_eq, ?_, ?_, hm.untouched,
    hm.untouched'⟩
  · exact houtcome.eq_map fun v w hvalue => (alike_mirroring.mp hvalue).1
  · intro i hi hkind
    rw [Store.parent?, hm.outer_eq i (hinside hi hkind), List.head?_map, Store.parent?]
  · intro i hi hkind name
    exact hm.value_eq i (hinside hi hkind) name

/-- A `let` in a scope that another one stands in, and without that one.  From the outer scope the inner
one cannot be reached. -/
theorem isolated_beside_scope :
    let s := Store.empty.newRoot.2
    let t := (s.newFrame 0 (["y"].zip [.nil])).2
    let x : Token := ⟨.symbol, "x", none, 1⟩
    let form : Expr := .list (.keyword ⟨.keyword .bind, "let", none, 1⟩)
      [.list (.list (.symbol x) [.datum (.bool true)]) [], .symbol x]
    ¬ t.Reaches 0 1 ∧ AgreeFrom 0 s t ∧
      Isolated 0 s t (inCalls 5 5 0 form s) (inCalls 5 5 0 form t) := by
  intro s t x form
  have hagree : AgreeFrom 0 s t :=
    Store.agreeFrom_newFrame Store.WellFormed.root Nat.one_pos Nat.one_pos (by simp [Store.Owns,
      Value.IfFunction, Value.nil])
  refine ⟨fun h => ?_, hagree, isolated_inCalls 5 5 form hagree⟩
  have hroot {i : ScopeId} (h : t.Reaches 0 i) : i = 0 := by
    induction h with
    | self => rfl
    | parent _ hp ih =>
        subst ih
        cases hp
    | captured _ hc ih =>
        subst ih
        cases hc
  exact absurd (hroot h) Nat.one_ne_zero

end Eval

end SmallLisp
