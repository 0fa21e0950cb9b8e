/-
Stores that differ in the numbers of their scopes.

The number of a scope says when it was made, and nothing depends on it.  One store has `Moved` to
another if it shows in the other under other numbers: what is around a scope and what is bound in it is
the same there, once the numbers are translated, and functions are told apart by the same identities.
The other store may have scopes besides.

Stores that go on in step make new scopes at once, so the translation has to take the next number of
one to the next number of the other, and so on (`InStep`).  Every operation keeps that, and leaves the
scopes besides alone.
-/
import SmallLisp.Proofs.Store.Reaches

namespace SmallLisp

/-- A function that captures the scope of another number. -/
def Closure.moved (ρ : ScopeId → ScopeId) (c : Closure) : Closure :=
  { c with scope := ρ c.scope }

/-- A value, with the scope that it may capture under another number. -/
def Value.moved (ρ : ScopeId → ScopeId) : Value → Value :=
  Value.mapFunction (Closure.moved ρ)

namespace Store

/-- Whether a store shows in another, with its scopes under other numbers. -/
structure Moved (ρ : ScopeId → ScopeId) (s t : Store) : Prop where
  functions_eq : t.functions = s.functions
  scope_lt : ∀ i < s.scopes.size, ρ i < t.scopes.size
  outer_eq : ∀ i < s.scopes.size, t.outer (ρ i) = (s.outer i).map ρ
  value?_eq : ∀ i < s.scopes.size, ∀ name,
    t.value? (ρ i) name = (s.value? i name).map (Value.moved ρ)

/-- Whether a store has moved to another, and what is made next in both has the numbers that the
translation says. -/
structure InStep (ρ : ScopeId → ScopeId) (s t : Store) : Prop extends Moved ρ s t where
  wellFormed : s.WellFormed
  next : ∀ k, ρ (s.scopes.size + k) = t.scopes.size + k

/-- Whether the scopes that a translation leads to are the only ones that have changed. -/
def OthersKept (ρ : ScopeId → ScopeId) (t t' : Store) : Prop :=
  ∀ j, (∀ i, ρ i ≠ j) → t'.scope j = t.scope j

variable {ρ σ : ScopeId → ScopeId} {s t t' : Store} {i j : ScopeId} {v : Value}

theorem OthersKept.trans {t'' : Store} (h : OthersKept ρ t t') (h' : OthersKept ρ t' t'') :
    OthersKept ρ t t'' :=
  fun j hj => (h' j hj).trans (h j hj)

/-- Translations that agree on the scopes of a store move its values alike. -/
theorem Owns.moved_congr (h : s.Owns v) (hsame : ∀ i < s.scopes.size, σ i = ρ i) :
    v.moved σ = v.moved ρ := by
  cases v with
  | function c =>
      show Value.function (c.moved σ) = Value.function (c.moved ρ)
      rw [Closure.moved, Closure.moved, hsame c.scope h.1]
  | _ => rfl

/-- Nothing on a chain was made later than its scope. -/
theorem WellFormed.le_of_mem_chain (h : s.WellFormed) (hj : j ∈ s.chain i) : j ≤ i := by
  have hchain := h.pairwise_outer i
  rw [chain_eq] at hj hchain
  obtain rfl | hj := List.mem_cons.mp hj
  · exact Nat.le_refl j
  · exact Nat.le_of_lt (List.rel_of_pairwise_cons hchain hj)

namespace Moved

theorem define (h : Moved ρ s t) (hρ : Function.Injective ρ) (hi : i < s.scopes.size)
    (name : String) (v : Value) :
    Moved ρ (s.define i name v) (t.define (ρ i) name (v.moved ρ)) := by
  refine ⟨h.functions_eq, fun k hk => ?_, fun k hk => ?_, fun k hk name' => ?_⟩
  · rw [size_define] at hk ⊢
    exact h.scope_lt k hk
  · rw [size_define] at hk
    rw [outer_define, outer_define, h.outer_eq k hk]
  · rw [size_define] at hk
    rw [value?_define, value?_define, h.value?_eq k hk]
    by_cases hhere : k = i ∧ name' = name
    · obtain ⟨rfl, rfl⟩ := hhere
      rw [if_pos ⟨rfl, h.scope_lt k hi, rfl⟩, if_pos ⟨rfl, hi, rfl⟩, Option.map_some]
    · rw [if_neg fun h => hhere ⟨hρ h.1, h.2.2⟩, if_neg fun h => hhere ⟨h.1, h.2.2⟩]

/-- What changes in a scope besides does not show. -/
theorem define_other (h : Moved ρ s t) {n : ScopeId} (hn : ∀ i, ρ i ≠ n) (name : String)
    (v : Value) : Moved ρ s (t.define n name v) := by
  refine ⟨h.functions_eq, fun k hk => ?_, fun k hk => ?_, fun k hk name' => ?_⟩
  · rw [size_define]
    exact h.scope_lt k hk
  · rw [outer_define, h.outer_eq k hk]
  · rw [value?_define, if_neg fun h => hn k h.1, h.value?_eq k hk]

end Moved

namespace InStep

theorem size_eq (h : InStep ρ s t) : ρ s.scopes.size = t.scopes.size :=
  h.next 0

theorem chain_eq_map (h : InStep ρ s t) (hi : i < s.scopes.size) :
    t.chain (ρ i) = (s.chain i).map ρ := by
  rw [chain_eq, chain_eq, h.outer_eq i hi, List.map_cons]

/-- A name means the same in both stores. -/
theorem lookup_eq (h : InStep ρ s t) (hi : i < s.scopes.size) (name : String) :
    t.lookup (ρ i) name = (s.lookup i name).map (Value.moved ρ) :=
  lookup_of_chain_eq_map (h.chain_eq_map hi) fun k hk =>
    h.value?_eq k (Nat.lt_of_le_of_lt (h.wellFormed.le_of_mem_chain hk) hi) name

/-- A name is bound in the same scope in both stores. -/
theorem resolve_eq (h : InStep ρ s t) (hi : i < s.scopes.size) (name : String) :
    t.resolve (ρ i) name = (s.resolve i name).map ρ :=
  resolve_of_chain_eq_map (h.chain_eq_map hi) fun k hk =>
    h.value?_eq k (Nat.lt_of_le_of_lt (h.wellFormed.le_of_mem_chain hk) hi) name

theorem define (h : InStep ρ s t) (hρ : Function.Injective ρ) (hi : i < s.scopes.size)
    (hv : s.Owns v) (name : String) :
    InStep ρ (s.define i name v) (t.define (ρ i) name (v.moved ρ)) := by
  refine ⟨h.toMoved.define hρ hi name v, h.wellFormed.define hv i name, fun k => ?_⟩
  rw [size_define, size_define]
  exact h.next k

theorem define_other (h : InStep ρ s t) {n : ScopeId} (hn : ∀ i, ρ i ≠ n) (name : String)
    (v : Value) : InStep ρ s (t.define n name v) := by
  refine ⟨h.toMoved.define_other hn name v, h.wellFormed, fun k => ?_⟩
  rw [size_define]
  exact h.next k

theorem newFunction (h : InStep ρ s t) : InStep ρ s.newFunction.2 t.newFunction.2 :=
  ⟨⟨congrArg (· + 1) h.functions_eq, h.scope_lt, h.outer_eq, h.value?_eq⟩,
    h.wellFormed.newFunction, h.next⟩

theorem withFunction (h : InStep ρ s t) (hρ : Function.Injective ρ) (hi : i < s.scopes.size)
    (name : Token) (params : List Token) (body : Expr) :
    InStep ρ (s.withFunction i name params body) (t.withFunction (ρ i) name params body) := by
  have hdefine := h.newFunction.define hρ (i := i)
    (v := .function ⟨s.functions, name, params, body, i⟩) hi ⟨hi, Nat.lt_succ_self _⟩ name.lexeme
  show InStep ρ _ (t.newFunction.2.define (ρ i) name.lexeme
    (.function ⟨t.functions, name, params, body, ρ i⟩))
  rw [h.functions_eq]
  exact hdefine

theorem newFrame (h : InStep ρ s t) (hi : i < s.scopes.size) {vs : List Value}
    (hvs : ∀ v ∈ vs, s.Owns v) (names : List String) :
    InStep ρ (s.newFrame i (names.zip vs)).2
      (t.newFrame (ρ i) (names.zip (vs.map (Value.moved ρ)))).2 := by
  have hne {k : ScopeId} (hk : k < s.scopes.size) : ρ k ≠ t.scopes.size :=
    Nat.ne_of_lt (h.scope_lt k hk)
  refine ⟨⟨?_, fun k hk => ?_, fun k hk => ?_, fun k hk name => ?_⟩,
    h.wellFormed.newFrame hi hvs, fun k => ?_⟩
  · rw [functions_newFrame, functions_newFrame, h.functions_eq]
  · rw [size_newFrame]
    obtain hk | rfl := old_or_new_of_newFrame hk
    · exact Nat.lt_succ_of_lt (h.scope_lt k hk)
    · rw [h.size_eq]
      exact Nat.lt_succ_self _
  · obtain hk | rfl := old_or_new_of_newFrame hk
    · rw [outer_newFrame_of_ne s i _ (Nat.ne_of_lt hk), outer_newFrame_of_ne t _ _ (hne hk),
        h.outer_eq k hk]
    · rw [h.size_eq, outer_newFrame, outer_newFrame, h.chain_eq_map hi]
  · obtain hk | rfl := old_or_new_of_newFrame hk
    · rw [value?_newFrame_of_ne s i _ (Nat.ne_of_lt hk), value?_newFrame_of_ne t _ _ (hne hk),
        h.value?_eq k hk]
    · rw [h.size_eq, value?_newFrame, value?_newFrame, List.zip_map_right, ← List.map_reverse,
        lookup_map]
  · rw [size_newFrame, size_newFrame, Nat.add_right_comm, Nat.add_assoc, h.next, Nat.add_right_comm,
      Nat.add_assoc]

end InStep

/-! ### What is left alone

The scopes that no number is translated to are not changed by what is done in step.
-/

theorem OthersKept.refl (t : Store) : OthersKept ρ t t :=
  fun _ _ => rfl

theorem othersKept_define (t : Store) (i : ScopeId) (name : String) (v : Value) :
    OthersKept ρ t (t.define (ρ i) name v) :=
  fun _ hj => scope_define_of_ne t (Ne.symm (hj i)) name v

theorem othersKept_newFrame (h : InStep ρ s t) (i : ScopeId) (bs : List (String × Value)) :
    OthersKept ρ t (t.newFrame i bs).2 := by
  intro j hj
  have hne : j ≠ t.scopes.size := by
    rw [← h.size_eq]
    exact Ne.symm (hj _)
  exact scope_newFrame_of_ne t i bs hne

/-! ### A scope that is made early

One store makes a scope before some other work and the other store makes it after.  In between the translation
leaves a gap (`early`); once both have it the gap is filled, and the numbers of what was made meanwhile are
off by one (`settled`).
-/

/-- The numbers of scopes where an empty scope has been made before all that is new. -/
def early (n : Nat) : Nat → Nat :=
  Renumbering.shift n (n + 1)

/-- The numbers of scopes where the scope of number `m` has been made early, as number `n`. -/
def settled (n m i : Nat) : Nat :=
  if i = m then n else if i < m then early n i else i

theorem early_of_lt {n i : Nat} (h : i < n) : early n i = i :=
  Renumbering.shift_of_lt _ h

theorem early_of_ge {n i : Nat} (h : n ≤ i) : early n i = i + 1 := by
  rw [early, Renumbering.shift_of_le _ h, Nat.add_right_comm, Nat.add_sub_cancel' h]

theorem early_injective (n : Nat) : Function.Injective (early n) :=
  fun _ _ h => (Renumbering.shift_inj Nat.lt_succ_of_lt Nat.lt_succ_of_lt).mp h

theorem early_ne (n i : Nat) : early n i ≠ n := by
  unfold early Renumbering.shift
  split <;> omega

theorem settled_of_lt {n m i : Nat} (h : i < m) : settled n m i = early n i := by
  rw [settled, if_neg (Nat.ne_of_lt h), if_pos h]

theorem settled_of_gt {n m i : Nat} (h : m < i) : settled n m i = i := by
  rw [settled, if_neg (Nat.ne_of_gt h), if_neg (Nat.lt_asymm h)]

theorem settled_injective {n m : Nat} (h : n ≤ m) : Function.Injective (settled n m) := by
  intro i j hij
  unfold settled early Renumbering.shift at hij
  split_ifs at hij <;> omega

/-- Translations that agree on the scopes of a store take what stands around a scope to the same. -/
theorem WellFormed.outer_map_congr (h : s.WellFormed) (hsame : ∀ i < s.scopes.size, σ i = ρ i)
    (hi : i < s.scopes.size) : (s.outer i).map σ = (s.outer i).map ρ := by
  refine List.map_congr_left fun j hj => hsame j ?_
  have hle : j ≤ i := h.le_of_mem_chain (List.mem_cons_of_mem i hj)
  exact Nat.lt_of_le_of_lt hle hi

/-- They take what is bound in it to the same as well. -/
theorem WellFormed.value?_map_congr (h : s.WellFormed) (hsame : ∀ i < s.scopes.size, σ i = ρ i)
    (i : ScopeId) (name : String) :
    (s.value? i name).map (Value.moved σ) = (s.value? i name).map (Value.moved ρ) := by
  cases hv : s.value? i name with
  | none => rfl
  | some v => rw [Option.map_some, Option.map_some, (h.owns i name v hv).moved_congr hsame]

/-- A store is in step with itself where a scope has been made early. -/
theorem WellFormed.inStep_newChild (h : s.WellFormed) (i : ScopeId) :
    InStep (early s.scopes.size) s (s.newChild i).2 := by
  have hsame : ∀ k < s.scopes.size, early s.scopes.size k = id k := fun k hk => early_of_lt hk
  have hold {k : ScopeId} (hk : k < s.scopes.size) :
      (s.newChild i).2.scope (early s.scopes.size k) = s.scope k := by
    rw [early_of_lt hk, newChild, scope_newScope, if_neg (Nat.ne_of_lt hk)]
  refine ⟨⟨rfl, fun k hk => ?_, fun k hk => ?_, fun k hk name => ?_⟩, h, fun k => ?_⟩
  · rw [early_of_lt hk, newChild, size_newScope]
    exact Nat.lt_succ_of_lt hk
  · rw [outer, hold hk, h.outer_map_congr hsame hk, List.map_id, outer]
  · rw [value?, hold hk, ← value?, h.value?_map_congr hsame]
    cases s.value? k name with
    | none => rfl
    | some v => cases v <;> rfl
  · rw [newChild, size_newScope, early, Renumbering.shift_of_le _ (Nat.le_add_right _ _),
      Nat.add_sub_cancel_left]

/-- The scope that was made early has been filled, and now the other store makes it too. -/
theorem InStep.enter {n : Nat} {names : List String} {vs : List Value}
    (h : InStep (early n) s t) (hi : i < n) (hn : n ≤ s.scopes.size) (hvs : ∀ v ∈ vs, s.Owns v)
    (houter : t.outer n = s.chain i)
    (hvalue : ∀ name, t.value? n name =
      (names.zip (vs.map (Value.moved (early n)))).reverse.lookup name) :
    InStep (settled n s.scopes.size) (s.newFrame i (names.zip vs)).2 t := by
  have hsame : ∀ k < s.scopes.size, settled n s.scopes.size k = early n k :=
    fun k hk => settled_of_lt hk
  have hnew : settled n s.scopes.size s.scopes.size = n := if_pos rfl
  have hsize : t.scopes.size = s.scopes.size + 1 := by
    rw [← h.size_eq, early_of_ge hn]
  refine ⟨⟨?_, fun k hk => ?_, fun k hk => ?_, fun k hk name => ?_⟩,
    h.wellFormed.newFrame (Nat.lt_of_lt_of_le hi hn) hvs, fun k => ?_⟩
  · rw [functions_newFrame, h.functions_eq]
  · obtain hk | rfl := old_or_new_of_newFrame hk
    · rw [hsame k hk]
      exact h.scope_lt k hk
    · rw [hnew, hsize]
      exact Nat.lt_succ_of_le hn
  · obtain hk | rfl := old_or_new_of_newFrame hk
    · rw [hsame k hk, outer_newFrame_of_ne s i _ (Nat.ne_of_lt hk), h.outer_eq k hk,
        h.wellFormed.outer_map_congr hsame hk]
    · have hfixed : ∀ j ∈ s.chain i, settled n s.scopes.size j = id j := by
        intro j hj
        have hjn : j < n := Nat.lt_of_le_of_lt (h.wellFormed.le_of_mem_chain hj) hi
        rw [hsame j (Nat.lt_of_lt_of_le hjn hn), early_of_lt hjn, id_eq]
      rw [hnew, houter, outer_newFrame, List.map_congr_left hfixed, List.map_id]
  · obtain hk | rfl := old_or_new_of_newFrame hk
    · rw [hsame k hk, value?_newFrame_of_ne s i _ (Nat.ne_of_lt hk), h.value?_eq k hk,
        h.wellFormed.value?_map_congr hsame]
    · have hmoved : vs.map (Value.moved (early n)) =
          vs.map (Value.moved (settled n s.scopes.size)) :=
        List.map_congr_left fun v hv => ((hvs v hv).moved_congr hsame).symm
      rw [hnew, hvalue, value?_newFrame, hmoved, List.zip_map_right, ← List.map_reverse, lookup_map]
  · rw [size_newFrame, hsize, settled, if_neg (by omega), if_neg (by omega)]

end Store

end SmallLisp
