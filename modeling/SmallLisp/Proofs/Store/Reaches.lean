/-
What can be reached from a scope, and two stores that differ elsewhere.

From a scope one can get to its parent and to the scopes that are captured by the functions bound in
it, and no further.  Two stores agree from a scope on if they agree on all that it reaches
(`AgreeFrom`); the rest of them may be of any kind and of any size.

What is made from there on is made in both stores at once but is numbered in continuation of what each
of them has.  `Renumbering` translates the numbers of the one into those of the other: what the stores
had keeps its number, what is new is counted from the end.  `Mirrors` says that a store shows in the other,
through the renumbering, all that was reached and all that is new, and that neither has changed anything
else.  Every operation keeps this.
-/
import SmallLisp.Proofs.Store.WellFormed

namespace SmallLisp

/-! ### Reachable scopes

A scope leads to its parent and to the scopes that its functions have captured.  What cannot be reached
this way is not seen by an evaluation, and stores need to agree on the rest only.
-/

/-- The scopes that can be reached from a scope. -/
inductive Store.Reaches (s : Store) (env : ScopeId) : ScopeId → Prop where
  | self : Reaches s env env
  | parent {i p : ScopeId} (h : Reaches s env i) (hp : s.parent? i = some p) : Reaches s env p
  | captured {i : ScopeId} {name : String} {c : Closure} (h : Reaches s env i)
      (hc : s.value? i name = some (.function c)) : Reaches s env c.scope

/-- Whether two stores have a scope and agree on every scope that can be reached from it. -/
structure Store.AgreeFrom (env : ScopeId) (s t : Store) : Prop where
  wellFormed : s.WellFormed
  wellFormed' : t.WellFormed
  env_lt : env < s.scopes.size
  env_lt' : env < t.scopes.size
  parent?_eq : ∀ i, s.Reaches env i → t.parent? i = s.parent? i
  value?_eq : ∀ i, s.Reaches env i → ∀ name, t.value? i name = s.value? i name

namespace Store

variable {s t : Store} {env i : ScopeId}

theorem Reaches.lt_size (hs : s.WellFormed) (henv : env < s.scopes.size) (h : s.Reaches env i) :
    i < s.scopes.size := by
  induction h with
  | self => exact henv
  | @parent i p _ hp ih =>
      obtain ⟨rest, houter⟩ := List.head?_eq_some_iff.mp hp
      exact Nat.lt_trans (hs.outer_cons i p rest houter).1 ih
  | captured _ hc _ => exact (hs.owns _ _ _ hc).1

/-- A scope reaches those around it. -/
theorem Reaches.of_mem_outer (hs : s.WellFormed) (h : s.Reaches env i) {j : ScopeId}
    (hj : j ∈ s.outer i) : s.Reaches env j := by
  induction i using Nat.strongRecOn with
  | ind i ih =>
      cases houter : s.outer i with
      | nil =>
          rw [houter] at hj
          cases hj
      | cons p rest =>
          obtain ⟨hp, hrest⟩ := hs.outer_cons i p rest houter
          have hparent : s.Reaches env p := h.parent (by rw [parent?, houter, List.head?_cons])
          rw [houter] at hj
          obtain rfl | hj := List.mem_cons.mp hj
          · exact hparent
          · exact ih p hp hparent (hrest ▸ hj)

/-- Stores that agree from a scope on reach the same scopes. -/
theorem AgreeFrom.reaches (h : AgreeFrom env s t) (hi : s.Reaches env i) : t.Reaches env i := by
  induction hi with
  | self => exact .self
  | parent hi hp ih => exact ih.parent (by rw [h.parent?_eq _ hi, hp])
  | captured hi hc ih => exact ih.captured (by rw [h.value?_eq _ hi, hc])

/-- Stores that agree from a scope on have the same scopes around the scopes that it reaches. -/
theorem AgreeFrom.outer_eq (h : AgreeFrom env s t) (hi : s.Reaches env i) :
    t.outer i = s.outer i := by
  induction i using Nat.strongRecOn with
  | ind i ih =>
      have hparent := h.parent?_eq i hi
      rw [parent?, parent?] at hparent
      cases houter : s.outer i with
      | nil =>
          rw [houter, List.head?_nil, List.head?_eq_none_iff] at hparent
          exact hparent
      | cons p rest =>
          rw [houter, List.head?_cons] at hparent
          obtain ⟨rest', houter'⟩ := List.head?_eq_some_iff.mp hparent
          obtain ⟨hp, hrest⟩ := h.wellFormed.outer_cons i p rest houter
          obtain ⟨-, hrest'⟩ := h.wellFormed'.outer_cons i p rest' houter'
          have hp' := ih p hp (hi.parent (by rw [parent?, houter, List.head?_cons]))
          rw [houter', ← hrest', hp', hrest]

/-- A new scope changes nothing for the others. -/
theorem agreeFrom_newFrame (hs : s.WellFormed) (henv : env < s.scopes.size)
    (hi : i < s.scopes.size) {names : List String} {vs : List Value} (hvs : ∀ v ∈ vs, s.Owns v) :
    AgreeFrom env s (s.newFrame i (names.zip vs)).2 where
  wellFormed := hs
  wellFormed' := hs.newFrame hi hvs
  env_lt := henv
  env_lt' := Nat.lt_of_lt_of_le henv (extends_newFrame s i _).size_le
  parent?_eq j hj := by
    rw [parent?, outer_newFrame_of_ne s i _ (Nat.ne_of_lt (hj.lt_size hs henv)), parent?]
  value?_eq j hj := value?_newFrame_of_ne s i _ (Nat.ne_of_lt (hj.lt_size hs henv))

end Store

/-! ### Renumbering

Scopes and functions are numbered in the order in which they are made.  Two stores of different sizes
number what is new differently, and the difference is a shift from some number on.
-/

/-- How many scopes and functions there are in one store and in another when both begin to make new
ones. -/
structure Renumbering where
  scopes : Nat
  scopes' : Nat
  functions : Nat
  functions' : Nat

/-- The renumbering that begins with two stores. -/
def Store.renumbering (s t : Store) : Renumbering :=
  ⟨s.scopes.size, t.scopes.size, s.functions, t.functions⟩

namespace Renumbering

/-- What is new is numbered in continuation of `n` in one store and of `n'` in the other. -/
def shift (n n' i : Nat) : Nat :=
  if i < n then i else n' + (i - n)

/-- The number that a scope has in the other store. -/
def scope (r : Renumbering) (i : ScopeId) : ScopeId :=
  shift r.scopes r.scopes' i

/-- The identity that a function has in the other store. -/
def identity (r : Renumbering) (i : Nat) : Nat :=
  shift r.functions r.functions' i

/-- A function as it is in the other store. -/
def closure (r : Renumbering) (c : Closure) : Closure :=
  { c with identity := r.identity c.identity, scope := r.scope c.scope }

/-- A value as it is in the other store. -/
def value (r : Renumbering) : Value → Value :=
  Value.mapFunction r.closure

theorem shift_of_lt {n i : Nat} (n' : Nat) (h : i < n) : shift n n' i = i :=
  if_pos h

theorem shift_of_le {n i : Nat} (n' : Nat) (h : n ≤ i) : shift n n' i = n' + (i - n) :=
  if_neg (Nat.not_lt_of_le h)

/-- What is new is told apart from what both stores had. -/
theorem shift_inj {n n' i j : Nat} (hi : i < n → i < n') (hj : j < n → j < n') :
    shift n n' i = shift n n' j ↔ i = j := by
  unfold shift
  split <;> split <;> omega

/-- The order is kept up to what is new. -/
theorem shift_lt_shift {n n' i k : Nat} (hi : i < n → i < n') (hk : n ≤ k) (h : i < k) :
    shift n n' i < shift n n' k := by
  unfold shift
  split <;> split <;> omega

theorem shift_succ {n n' k : Nat} (hk : n ≤ k) : shift n n' (k + 1) = shift n n' k + 1 := by
  rw [shift_of_le n' hk, shift_of_le n' (Nat.le_succ_of_le hk)]
  omega

end Renumbering

namespace Store

theorem scope_renumbering_of_lt {s : Store} {i : ScopeId} (t : Store) (h : i < s.scopes.size) :
    (s.renumbering t).scope i = i :=
  Renumbering.shift_of_lt _ h

theorem scope_renumbering_of_le {s : Store} {i : ScopeId} (t : Store) (h : s.scopes.size ≤ i) :
    (s.renumbering t).scope i = t.scopes.size + (i - s.scopes.size) :=
  Renumbering.shift_of_le _ h

theorem identity_renumbering_of_lt {s : Store} {i : Nat} (t : Store) (h : i < s.functions) :
    (s.renumbering t).identity i = i :=
  Renumbering.shift_of_lt _ h

theorem identity_renumbering_of_le {s : Store} {i : Nat} (t : Store) (h : s.functions ≤ i) :
    (s.renumbering t).identity i = t.functions + (i - s.functions) :=
  Renumbering.shift_of_le _ h

end Store

/-! ### Stores that mirror each other

The relation that an evaluation keeps.  Its scopes are those that could be reached at first and those that
are new; what could not be reached at first stays so, as only functions lead anywhere and none of those
that are handed around leads there.
-/

namespace Store

/-- Whether a scope could be reached at first or is new. -/
def Inside (env : ScopeId) (s₀ s : Store) (i : ScopeId) : Prop :=
  i < s.scopes.size ∧ (i < s₀.scopes.size → s₀.Reaches env i)

/-- Whether a function captures such a scope and was made in both stores or is new. -/
def InsideClosure (env : ScopeId) (s₀ t₀ s : Store) (c : Closure) : Prop :=
  Inside env s₀ s c.scope ∧ c.identity < s.functions ∧
    (c.identity < s₀.functions → c.identity < t₀.functions)

/-- Whether a value is no function or such a one. -/
def InsideValue (env : ScopeId) (s₀ t₀ s : Store) (v : Value) : Prop :=
  v.IfFunction (InsideClosure env s₀ t₀ s)

/-- Two stores that show the same where it could be reached at first and where it is new, and that have
changed nothing else. -/
structure Mirrors (env : ScopeId) (s₀ t₀ s t : Store) : Prop where
  wellFormed : s.WellFormed
  wellFormed' : t.WellFormed
  size_le : s₀.scopes.size ≤ s.scopes.size
  size_eq : t.scopes.size = (s₀.renumbering t₀).scope s.scopes.size
  functions_le : s₀.functions ≤ s.functions
  functions_eq : t.functions = (s₀.renumbering t₀).identity s.functions
  /-- What stands around an inside scope is inside, and is the same in the other store. -/
  inside_outer : ∀ i, Inside env s₀ s i → ∀ j ∈ s.outer i, Inside env s₀ s j
  outer_eq : ∀ i, Inside env s₀ s i →
    t.outer ((s₀.renumbering t₀).scope i) = (s.outer i).map (s₀.renumbering t₀).scope
  /-- What is bound in an inside scope is inside, and is the same in the other store. -/
  inside_value : ∀ i, Inside env s₀ s i → ∀ name v, s.value? i name = some v →
    InsideValue env s₀ t₀ s v
  value_eq : ∀ i, Inside env s₀ s i → ∀ name,
    t.value? ((s₀.renumbering t₀).scope i) name =
      (s.value? i name).map (s₀.renumbering t₀).value
  /-- What could not be reached is what it was. -/
  untouched : ∀ i < s₀.scopes.size, ¬ s₀.Reaches env i → s.scope i = s₀.scope i
  untouched' : ∀ i < t₀.scopes.size, ¬ t₀.Reaches env i → t.scope i = t₀.scope i

variable {env i j : ScopeId} {s₀ t₀ s s' t t' : Store} {c : Closure} {v : Value}

theorem Inside.later (hlater : s.Extends s') (h : Inside env s₀ s i) : Inside env s₀ s' i :=
  ⟨Nat.lt_of_lt_of_le h.1 hlater.size_le, h.2⟩

theorem InsideClosure.later (hlater : s.Extends s') (h : InsideClosure env s₀ t₀ s c) :
    InsideClosure env s₀ t₀ s' c :=
  ⟨h.1.later hlater, Nat.lt_of_lt_of_le h.2.1 hlater.functions_le, h.2.2⟩

theorem InsideValue.later (hlater : s.Extends s') (h : InsideValue env s₀ t₀ s v) :
    InsideValue env s₀ t₀ s' v :=
  Value.IfFunction.imp (fun _ => InsideClosure.later hlater) h

theorem InsideValue.owns (h : InsideValue env s₀ t₀ s v) : s.Owns v :=
  Value.IfFunction.imp (fun _ hc => ⟨hc.1.1, hc.2.1⟩) h

namespace AgreeFrom

variable (h : AgreeFrom env s₀ t₀)
include h

/-- An old scope is inside if the other store has it too. -/
theorem lt_of_inside (hi : Inside env s₀ s i) (hold : i < s₀.scopes.size) : i < t₀.scopes.size :=
  (h.reaches (hi.2 hold)).lt_size h.wellFormed' h.env_lt'

/-- Inside scopes are told apart in the other store as well. -/
theorem scope_inj (hi : Inside env s₀ s i) (hj : Inside env s₀ s j) :
    (s₀.renumbering t₀).scope i = (s₀.renumbering t₀).scope j ↔ i = j :=
  Renumbering.shift_inj (h.lt_of_inside hi) (h.lt_of_inside hj)

/-- An inside scope is none that could not be reached, in the other store. -/
theorem scope_ne (hi : Inside env s₀ s i) {k : ScopeId} (hk : k < t₀.scopes.size)
    (hnot : ¬ t₀.Reaches env k) : k ≠ (s₀.renumbering t₀).scope i := by
  rintro rfl
  by_cases hold : i < s₀.scopes.size
  · rw [scope_renumbering_of_lt t₀ hold] at hnot
    exact hnot (h.reaches (hi.2 hold))
  · rw [scope_renumbering_of_le t₀ (Nat.le_of_not_lt hold)] at hk
    exact Nat.not_lt_of_le (Nat.le_add_right _ _) hk

/-- A scope that could be reached keeps its number, and so does what it binds. -/
theorem inside_of_reaches (hi : s₀.Reaches env i) : Inside env s₀ s₀ i :=
  ⟨hi.lt_size h.wellFormed h.env_lt, fun _ => hi⟩

theorem scope_of_reaches (hi : s₀.Reaches env i) : (s₀.renumbering t₀).scope i = i :=
  scope_renumbering_of_lt t₀ (hi.lt_size h.wellFormed h.env_lt)

theorem inside_of_value? (hi : s₀.Reaches env i) {name : String}
    (hv : s₀.value? i name = some v) : InsideValue env s₀ t₀ s₀ v := by
  cases v with
  | function c =>
      have hv' := (h.value?_eq i hi name).trans hv
      exact ⟨h.inside_of_reaches (hi.captured hv), (h.wellFormed.owns i name _ hv).2,
        fun _ => (h.wellFormed'.owns i name _ hv').2⟩
  | _ => trivial

theorem value_of_value? (hi : s₀.Reaches env i) {name : String}
    (hv : s₀.value? i name = some v) : (s₀.renumbering t₀).value v = v := by
  cases v with
  | function c =>
      have hscope := h.scope_of_reaches (hi.captured hv)
      have hidentity : (s₀.renumbering t₀).identity c.identity = c.identity :=
        identity_renumbering_of_lt t₀ (h.wellFormed.owns i name _ hv).2
      rw [Renumbering.value, Value.mapFunction, Renumbering.closure, hscope, hidentity]
  | _ => rfl

/-- Stores that agree mirror each other. -/
theorem mirrors : Mirrors env s₀ t₀ s₀ t₀ where
  wellFormed := h.wellFormed
  wellFormed' := h.wellFormed'
  size_le := Nat.le_refl _
  size_eq := by
    rw [scope_renumbering_of_le t₀ (Nat.le_refl _), Nat.sub_self, Nat.add_zero]
  functions_le := Nat.le_refl _
  functions_eq := by
    rw [identity_renumbering_of_le t₀ (Nat.le_refl _), Nat.sub_self, Nat.add_zero]
  inside_outer i hi j hj := by
    have hreach := hi.2 hi.1
    exact h.inside_of_reaches (hreach.of_mem_outer h.wellFormed hj)
  outer_eq i hi := by
    have hreach := hi.2 hi.1
    have hsame : ∀ j ∈ s₀.outer i, (s₀.renumbering t₀).scope j = id j :=
      fun j hj => h.scope_of_reaches (hreach.of_mem_outer h.wellFormed hj)
    rw [h.scope_of_reaches hreach, h.outer_eq hreach, List.map_congr_left hsame, List.map_id]
  inside_value i hi name v hv := h.inside_of_value? (hi.2 hi.1) hv
  value_eq i hi name := by
    have hreach := hi.2 hi.1
    rw [h.scope_of_reaches hreach, h.value?_eq i hreach]
    cases hv : s₀.value? i name with
    | none => rfl
    | some v => rw [Option.map_some, h.value_of_value? hreach hv]
  untouched _ _ _ := rfl
  untouched' _ _ _ := rfl

end AgreeFrom

/-! ### Names under other numbers

Two chains of which one is the other under other numbers give the same answers, whatever the translation of
the numbers is.
-/

theorem lookup_map (f : Value → Value) (bs : List (String × Value)) (name : String) :
    (bs.map (Prod.map id f)).lookup name = (bs.lookup name).map f := by
  induction bs with
  | nil => rfl
  | cons b bs ih =>
      obtain ⟨name', v⟩ := b
      rw [List.map_cons, Prod.map_apply, id_eq, List.lookup_cons, List.lookup_cons, ih]
      split <;> rfl

theorem findSome?_congr {ks : List ScopeId} {f g : ScopeId → Option Value}
    (hfg : ∀ k ∈ ks, f k = g k) : ks.findSome? f = ks.findSome? g := by
  induction ks with
  | nil => rfl
  | cons k ks ih =>
      obtain ⟨hk, hks⟩ := List.forall_mem_cons.mp hfg
      rw [List.findSome?_cons, List.findSome?_cons, hk, ih hks]

theorem find?_congr {ks : List ScopeId} {p q : ScopeId → Bool} (hpq : ∀ k ∈ ks, p k = q k) :
    ks.find? p = ks.find? q := by
  induction ks with
  | nil => rfl
  | cons k ks ih =>
      obtain ⟨hk, hks⟩ := List.forall_mem_cons.mp hpq
      rw [List.find?_cons, List.find?_cons, hk, ih hks]

/-- A name means the same along a chain that has other numbers. -/
theorem lookup_of_chain_eq_map {ρ : ScopeId → ScopeId} {f : Value → Value} {name : String}
    (hchain : t.chain j = (s.chain i).map ρ)
    (hvalue : ∀ k ∈ s.chain i, t.value? (ρ k) name = (s.value? k name).map f) :
    t.lookup j name = (s.lookup i name).map f := by
  rw [lookup_eq, lookup_eq, hchain, List.findSome?_map, List.map_findSome?]
  exact findSome?_congr hvalue

/-- A name is bound in the same scope of a chain that has other numbers. -/
theorem resolve_of_chain_eq_map {ρ : ScopeId → ScopeId} {f : Value → Value} {name : String}
    (hchain : t.chain j = (s.chain i).map ρ)
    (hvalue : ∀ k ∈ s.chain i, t.value? (ρ k) name = (s.value? k name).map f) :
    t.resolve j name = (s.resolve i name).map ρ := by
  unfold resolve
  rw [hchain, List.find?_map]
  refine congrArg _ (find?_congr fun k hk => ?_)
  show t.bindsLocally (ρ k) name = s.bindsLocally k name
  rw [bindsLocally_eq, bindsLocally_eq, hvalue k hk, Option.isSome_map]

/-! ### What every operation keeps in step

One lemma for each operation on a store.  Each of them is done on both sides at scopes that correspond, with
values that correspond.
-/

namespace Mirrors

variable (h : AgreeFrom env s₀ t₀) (hm : Mirrors env s₀ t₀ s t)

include hm

theorem size_le' : t₀.scopes.size ≤ t.scopes.size := by
  rw [hm.size_eq, scope_renumbering_of_le t₀ hm.size_le]
  exact Nat.le_add_right _ _

theorem chain_eq_map (hi : Inside env s₀ s i) :
    t.chain ((s₀.renumbering t₀).scope i) = (s.chain i).map (s₀.renumbering t₀).scope := by
  rw [chain_eq, chain_eq, hm.outer_eq i hi, List.map_cons]

theorem inside_chain (hi : Inside env s₀ s i) (hj : j ∈ s.chain i) : Inside env s₀ s j := by
  rw [chain_eq] at hj
  obtain rfl | hj := List.mem_cons.mp hj
  · exact hi
  · exact hm.inside_outer i hi j hj

theorem newFunction : Mirrors env s₀ t₀ s.newFunction.2 t.newFunction.2 := by
  refine ⟨hm.wellFormed.newFunction, hm.wellFormed'.newFunction, hm.size_le, hm.size_eq,
    Nat.le_succ_of_le hm.functions_le, ?_, hm.inside_outer, hm.outer_eq, ?_, hm.value_eq,
    hm.untouched, hm.untouched'⟩
  · show t.functions + 1 = _
    rw [hm.functions_eq]
    exact (Renumbering.shift_succ hm.functions_le).symm
  · intro i hi name v hv
    exact (hm.inside_value i hi name v hv).later (extends_newFunction s)

include h

/-- Inside scopes and functions have been made in the other store as well. -/
theorem scope_lt (hi : Inside env s₀ s i) :
    (s₀.renumbering t₀).scope i < t.scopes.size := by
  rw [hm.size_eq]
  exact Renumbering.shift_lt_shift (h.lt_of_inside hi) hm.size_le hi.1

theorem owns_value (hv : InsideValue env s₀ t₀ s v) :
    t.Owns ((s₀.renumbering t₀).value v) := by
  refine hv.mapFunction fun c hc => ⟨hm.scope_lt h hc.1, ?_⟩
  rw [hm.functions_eq]
  exact Renumbering.shift_lt_shift hc.2.2 hm.functions_le hc.2.1

theorem define (hi : Inside env s₀ s i) (hv : InsideValue env s₀ t₀ s v) (name : String) :
    Mirrors env s₀ t₀ (s.define i name v)
      (t.define ((s₀.renumbering t₀).scope i) name ((s₀.renumbering t₀).value v)) := by
  have hsame {k : ScopeId} (hk : Inside env s₀ (s.define i name v) k) : Inside env s₀ s k :=
    ⟨size_define s i name v ▸ hk.1, hk.2⟩
  have hlater := extends_define s i name v
  refine ⟨hm.wellFormed.define hv.owns i name,
    hm.wellFormed'.define (hm.owns_value h hv) _ name, ?_, ?_, hm.functions_le, hm.functions_eq,
    ?_, ?_, ?_, ?_, ?_, ?_⟩
  · rw [size_define]
    exact hm.size_le
  · rw [size_define, size_define]
    exact hm.size_eq
  · intro k hk j hj
    rw [outer_define] at hj
    exact (hm.inside_outer k (hsame hk) j hj).later hlater
  · intro k hk
    rw [outer_define, outer_define]
    exact hm.outer_eq k (hsame hk)
  · intro k hk name' w hw
    obtain rfl | hw := eq_or_of_value?_define hw
    · exact hv.later hlater
    · exact (hm.inside_value k (hsame hk) name' w hw).later hlater
  · intro k hk name'
    have hinj := h.scope_inj (hsame hk) hi
    rw [value?_define, value?_define, hm.value_eq k (hsame hk)]
    by_cases hhere : k = i ∧ name' = name
    · obtain ⟨rfl, rfl⟩ := hhere
      rw [if_pos ⟨rfl, hm.scope_lt h hi, rfl⟩, if_pos ⟨rfl, hi.1, rfl⟩, Option.map_some]
    · rw [if_neg fun h => hhere ⟨hinj.mp h.1, h.2.2⟩, if_neg fun h => hhere ⟨h.1, h.2.2⟩]
  · intro k hk hnot
    have hne : k ≠ i := by
      rintro rfl
      exact hnot (hi.2 hk)
    rw [scope_define_of_ne s hne, hm.untouched k hk hnot]
  · intro k hk hnot
    rw [scope_define_of_ne t (h.scope_ne hi hk hnot), hm.untouched' k hk hnot]

theorem withFunction (hi : Inside env s₀ s i) (name : Token) (params : List Token) (body : Expr) :
    Mirrors env s₀ t₀ (s.withFunction i name params body)
      (t.withFunction ((s₀.renumbering t₀).scope i) name params body) := by
  have hnew : InsideValue env s₀ t₀ s.newFunction.2
      (.function ⟨s.functions, name, params, body, i⟩) := by
    refine ⟨hi, Nat.lt_succ_self _, fun hold => ?_⟩
    exact absurd hold (Nat.not_lt_of_le hm.functions_le)
  have hdefine := hm.newFunction.define h (i := i) hi hnew name.lexeme
  rw [Renumbering.value, Value.mapFunction, Renumbering.closure, ← hm.functions_eq] at hdefine
  exact hdefine

theorem newFrame (hi : Inside env s₀ s i) {vs : List Value}
    (hvs : ∀ v ∈ vs, InsideValue env s₀ t₀ s v) (names : List String) :
    Mirrors env s₀ t₀ (s.newFrame i (names.zip vs)).2
      (t.newFrame ((s₀.renumbering t₀).scope i)
        (names.zip (vs.map (s₀.renumbering t₀).value))).2 := by
  have hlater := extends_newFrame s i (names.zip vs)
  have hcases {k : ScopeId} (hk : Inside env s₀ (s.newFrame i (names.zip vs)).2 k) :
      k = s.scopes.size ∨ k ≠ s.scopes.size ∧ Inside env s₀ s k := by
    obtain hold | hnew := old_or_new_of_newFrame hk.1
    · exact .inr ⟨Nat.ne_of_lt hold, hold, hk.2⟩
    · exact .inl hnew
  have hne {k : ScopeId} (hk : Inside env s₀ s k) :
      (s₀.renumbering t₀).scope k ≠ t.scopes.size :=
    Nat.ne_of_lt (hm.scope_lt h hk)
  have hvs' : ∀ w ∈ vs.map (s₀.renumbering t₀).value, t.Owns w := by
    intro w hw
    obtain ⟨v, hv, rfl⟩ := List.mem_map.mp hw
    exact hm.owns_value h (hvs v hv)
  refine ⟨hm.wellFormed.newFrame hi.1 fun v hv => (hvs v hv).owns,
    hm.wellFormed'.newFrame (hm.scope_lt h hi) hvs', ?_, ?_, ?_, ?_, ?_, ?_, ?_, ?_, ?_, ?_⟩
  · rw [size_newFrame]
    exact Nat.le_succ_of_le hm.size_le
  · rw [size_newFrame, size_newFrame, hm.size_eq]
    exact (Renumbering.shift_succ hm.size_le).symm
  · rw [functions_newFrame]
    exact hm.functions_le
  · rw [functions_newFrame, functions_newFrame]
    exact hm.functions_eq
  · intro k hk j hj
    obtain rfl | ⟨hold, hk⟩ := hcases hk
    · rw [outer_newFrame] at hj
      exact (hm.inside_chain hi hj).later hlater
    · rw [outer_newFrame_of_ne s i _ hold] at hj
      exact (hm.inside_outer k hk j hj).later hlater
  · intro k hk
    obtain rfl | ⟨hold, hk⟩ := hcases hk
    · rw [← hm.size_eq, outer_newFrame, outer_newFrame, hm.chain_eq_map hi]
    · rw [outer_newFrame_of_ne s i _ hold, outer_newFrame_of_ne t _ _ (hne hk), hm.outer_eq k hk]
  · intro k hk name v hv
    obtain hv | hv := mem_or_of_value?_newFrame hv
    · exact (hvs v hv).later hlater
    · obtain rfl | ⟨-, hk⟩ := hcases hk
      · rw [value?_of_size_le (Nat.le_refl _)] at hv
        cases hv
      · exact (hm.inside_value k hk name v hv).later hlater
  · intro k hk name
    obtain rfl | ⟨hold, hk⟩ := hcases hk
    · rw [← hm.size_eq, value?_newFrame, value?_newFrame, List.zip_map_right, ← List.map_reverse,
        lookup_map]
    · rw [value?_newFrame_of_ne s i _ hold, value?_newFrame_of_ne t _ _ (hne hk),
        hm.value_eq k hk]
  · intro k hk hnot
    rw [scope_newFrame_of_ne s i _ (Nat.ne_of_lt (Nat.lt_of_lt_of_le hk hm.size_le)),
      hm.untouched k hk hnot]
  · intro k hk hnot
    rw [scope_newFrame_of_ne t _ _ (Nat.ne_of_lt (Nat.lt_of_lt_of_le hk hm.size_le')),
      hm.untouched' k hk hnot]

end Mirrors

end Store

end SmallLisp
