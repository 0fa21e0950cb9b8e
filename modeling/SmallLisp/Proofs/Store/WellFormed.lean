/-
Stores that evaluation can have made.

The first of the scopes around a scope is its parent, and the others are those around the parent; a
scope is made after its parent.  A function that is bound somewhere has been made, and so has the scope
that it captures.  A store is `WellFormed` if this is so of all its scopes and functions.  It is so of a
store with one empty scope, and every operation keeps it, provided that the functions it is given have been
made (`Owns`).

Since parents come first, a chain of scopes descends and ends.
-/
import Mathlib.Data.List.Chain
import SmallLisp.Proofs.Store.Operations

namespace SmallLisp

namespace Store

/-- The scope in which a scope stands, if it stands in one. -/
def parent? (s : Store) (i : ScopeId) : Option ScopeId :=
  (s.outer i).head?

/-- Whether a function and the scope that it captures have been made. -/
def OwnsClosure (s : Store) (c : Closure) : Prop :=
  c.scope < s.scopes.size ∧ c.identity < s.functions

/-- Whether a value is no function or one that has been made. -/
def Owns (s : Store) (v : Value) : Prop :=
  v.IfFunction s.OwnsClosure

/-- Scopes stand in earlier ones, and functions are made before they are bound. -/
structure WellFormed (s : Store) : Prop where
  /-- What is around a scope is its parent and what is around that. -/
  outer_cons : ∀ i p rest, s.outer i = p :: rest → p < i ∧ s.outer p = rest
  /-- What is bound has been made. -/
  owns : ∀ i name v, s.value? i name = some v → s.Owns v

variable {s s' : Store} {i : ScopeId} {v : Value}

theorem OwnsClosure.later {c : Closure} (hlater : s.Extends s') (h : s.OwnsClosure c) :
    s'.OwnsClosure c :=
  ⟨Nat.lt_of_lt_of_le h.1 hlater.size_le, Nat.lt_of_lt_of_le h.2 hlater.functions_le⟩

theorem Owns.later (hlater : s.Extends s') (h : s.Owns v) : s'.Owns v :=
  Value.IfFunction.imp (fun _ => OwnsClosure.later hlater) h

theorem value?_of_size_le (h : s.scopes.size ≤ i) (name : String) : s.value? i name = none := by
  rw [value?, scope_of_size_le h, Bindings.get?_nil]

theorem outer_of_size_le (h : s.scopes.size ≤ i) : s.outer i = [] := by
  rw [outer, scope_of_size_le h]

theorem outer_root (i : ScopeId) : Store.empty.newRoot.2.outer i = [] := by
  cases i with
  | zero => rfl
  | succ i => exact outer_of_size_le (Nat.le_add_left 1 i)

theorem value?_root (i : ScopeId) (name : String) :
    Store.empty.newRoot.2.value? i name = none := by
  cases i with
  | zero => rfl
  | succ i => exact value?_of_size_le (Nat.le_add_left 1 i) name

theorem chain_later (hlater : s.Extends s') (hi : i < s.scopes.size) : s'.chain i = s.chain i := by
  rw [chain_eq, chain_eq, hlater.outer_eq i hi]

/-- What a name means is bound on the chain. -/
theorem exists_of_lookup {name : String} (h : s.lookup i name = some v) :
    ∃ j ∈ s.chain i, s.value? j name = some v := by
  rw [lookup_eq] at h
  exact List.exists_of_findSome?_eq_some h

namespace WellFormed

/-! ### Chains

The list of scopes around a scope is one chain: each of them has the rest of the list around it.  So what
holds of a scope and its parent is carried along the list.
-/

/-- The scopes around a scope are earlier, and so are those around them. -/
theorem pairwise_outer (h : s.WellFormed) (i : ScopeId) :
    (s.chain i).Pairwise (fun j k => k < j) := by
  induction i using Nat.strongRecOn with
  | ind i ih =>
      rw [chain_eq]
      cases houter : s.outer i with
      | nil => exact List.pairwise_singleton _ _
      | cons p rest =>
          obtain ⟨hp, hrest⟩ := h.outer_cons i p rest houter
          have hchain := ih p hp
          rw [chain_eq, hrest] at hchain
          refine List.pairwise_cons.mpr ⟨fun j hj => ?_, hchain⟩
          obtain rfl | hj := List.mem_cons.mp hj
          · exact hp
          · exact Nat.lt_trans (List.rel_of_pairwise_cons hchain hj) hp

/-- A chain goes from parent to parent. -/
theorem isChain_chain (h : s.WellFormed) (i : ScopeId) :
    (s.chain i).IsChain (fun j k => s.parent? j = some k) := by
  induction i using Nat.strongRecOn with
  | ind i ih =>
      rw [chain_eq]
      cases houter : s.outer i with
      | nil => exact List.isChain_singleton _
      | cons p rest =>
          obtain ⟨hp, hrest⟩ := h.outer_cons i p rest houter
          have hchain := ih p hp
          rw [chain_eq, hrest] at hchain
          refine List.isChain_cons_cons.mpr ⟨?_, hchain⟩
          rw [parent?, houter, List.head?_cons]

/-! ### What every operation keeps

A scope is made inside one that exists, and a function is bound after it has been made.  For the other
operations there is nothing to show but that they bind values they were given.
-/

/-- A store with a single scope, which shows nothing. -/
theorem root : Store.empty.newRoot.2.WellFormed where
  outer_cons i p rest h := by
    rw [outer_root] at h
    cases h
  owns i name v h := by
    rw [value?_root] at h
    cases h

/-- What a name means has been made. -/
theorem lookup (h : s.WellFormed) {name : String} (hlookup : s.lookup i name = some v) :
    s.Owns v := by
  obtain ⟨j, -, hvalue⟩ := exists_of_lookup hlookup
  exact h.owns j name v hvalue

theorem define (h : s.WellFormed) (hv : s.Owns v) (i : ScopeId) (name : String) :
    (s.define i name v).WellFormed where
  outer_cons j p rest hj := by
    rw [outer_define] at hj ⊢
    exact h.outer_cons j p rest hj
  owns j name' w hw := by
    refine Owns.later (extends_define s i name v) ?_
    obtain rfl | hw := eq_or_of_value?_define hw
    · exact hv
    · exact h.owns j name' w hw

theorem newFunction (h : s.WellFormed) : s.newFunction.2.WellFormed :=
  ⟨h.outer_cons, fun j name v hv => (h.owns j name v hv).later (extends_newFunction s)⟩

theorem withFunction (h : s.WellFormed) (hi : i < s.scopes.size) (name : Token)
    (params : List Token) (body : Expr) : (s.withFunction i name params body).WellFormed :=
  h.newFunction.define (v := .function ⟨s.functions, name, params, body, i⟩)
    ⟨hi, Nat.lt_succ_self _⟩ i name.lexeme

theorem newFrame (h : s.WellFormed) (hi : i < s.scopes.size) {names : List String}
    {vs : List Value} (hvs : ∀ v ∈ vs, s.Owns v) :
    (s.newFrame i (names.zip vs)).2.WellFormed where
  outer_cons j p rest hj := by
    have hold {k : ScopeId} (hk : k < s.scopes.size) :
        (s.newFrame i (names.zip vs)).2.outer k = s.outer k :=
      outer_newFrame_of_ne s i _ (Nat.ne_of_lt hk)
    by_cases hnew : j = s.scopes.size
    · subst hnew
      rw [outer_newFrame, chain_eq] at hj
      cases hj
      exact ⟨hi, hold hi⟩
    · rw [outer_newFrame_of_ne s i _ hnew] at hj
      obtain ⟨hp, hrest⟩ := h.outer_cons j p rest hj
      have hj' : j < s.scopes.size := by
        refine Nat.lt_of_not_le fun hsize => ?_
        rw [outer_of_size_le hsize] at hj
        cases hj
      exact ⟨hp, by rw [hold (Nat.lt_trans hp hj'), hrest]⟩
  owns j name v hv := by
    refine Owns.later (extends_newFrame s i _) ?_
    obtain hv | hv := mem_or_of_value?_newFrame hv
    · exact hvs v hv
    · exact h.owns j name v hv

end WellFormed

end Store

end SmallLisp
