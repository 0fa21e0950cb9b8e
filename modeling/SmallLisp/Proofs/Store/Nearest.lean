/-
The nearest scope that has a name.

Looking a name up and assigning to it are two walks outward, each on its own.  Both end at the nearest
scope that has the name (`lookup_eq_some_iff`, `resolve_eq_some_iff`).

`Sees s name g i` is the walk apart from what is looked for: from `g` one gets outward to `i` and meets no
scope that has the name before.  Whatever changes the value of one name in one scope and nothing else
shows to those who see that scope, and to no one else (`lookup_of_changesOnly`).  Assigning and defining
are both such changes, in the nearest scope that has the name and in the scope itself.

The walks end since a scope stands in an earlier one.  Unlike in `WellFormed`, nothing is asked of the
functions that are bound.
-/
import Mathlib.Logic.Relation
import SmallLisp.Proofs.Store.WellFormed

namespace SmallLisp

namespace Store

/-! ### Walking outward

`Sees` is an inductive relation that knows nothing of lists, and the store looks along a list.  `sees_iff`
takes the first step of a walk off, as the equations of the list do, and then the induction is on the chain.
-/

/-- Whether a scope stands in another, with none between. -/
def StandsIn (s : Store) (i p : ScopeId) : Prop :=
  s.parent? i = some p

/-- Scopes stand in earlier ones, and what is around a scope is its parent and what is around that. -/
def IsTree (s : Store) : Prop :=
  ∀ i p rest, s.outer i = p :: rest → p < i ∧ s.outer p = rest

/-- Whether one gets from a scope outward to another, past none that has the name. -/
inductive Sees (s : Store) (name : String) : ScopeId → ScopeId → Prop where
  | self (i : ScopeId) : Sees s name i i
  | outward {g p i : ScopeId} (hnot : s.bindsLocally g name = false) (hp : s.StandsIn g p)
      (h : Sees s name p i) : Sees s name g i

/-- Whether a scope is the nearest one that has the name. -/
def Nearest (s : Store) (name : String) (g i : ScopeId) : Prop :=
  s.Sees name g i ∧ s.bindsLocally i name = true

variable {s s' : Store} {i j g p : ScopeId} {name : String} {v : Value}

theorem bindsLocally_eq_false_iff : s.bindsLocally i name = false ↔ s.value? i name = none := by
  rw [bindsLocally_eq, Option.isSome_eq_false_iff, Option.isNone_iff_eq_none]

theorem lt_size_of_binds (h : s.bindsLocally i name = true) : i < s.scopes.size := by
  refine Nat.lt_of_not_le fun hle => ?_
  rw [bindsLocally_eq, value?_of_size_le hle] at h
  cases h

/-- The first step of a walk. -/
theorem sees_iff : s.Sees name g i ↔
    g = i ∨ s.bindsLocally g name = false ∧ ∃ p, s.StandsIn g p ∧ s.Sees name p i := by
  constructor
  · intro h
    cases h with
    | self => exact .inl rfl
    | outward hnot hp h => exact .inr ⟨hnot, _, hp, h⟩
  · rintro (rfl | ⟨hnot, p, hp, h⟩)
    · exact .self g
    · exact .outward hnot hp h

namespace IsTree

variable (h : s.IsTree)
include h

theorem lt_of_standsIn (hp : s.StandsIn i p) : p < i := by
  obtain ⟨rest, houter⟩ := List.head?_eq_some_iff.mp hp
  exact (h i p rest houter).1

/-- No scope stands in itself, with others between or without. -/
theorem acyclic (i : ScopeId) : ¬ Relation.TransGen s.StandsIn i i := by
  have hlt {i j : ScopeId} (hij : Relation.TransGen s.StandsIn i j) : j < i := by
    induction hij with
    | single hp => exact h.lt_of_standsIn hp
    | tail _ hp ih => exact Nat.lt_trans (h.lt_of_standsIn hp) ih
  exact fun hi => Nat.lt_irrefl i (hlt hi)

/-- A chain is a scope and the chain of its parent. -/
theorem chain_eq_cons (i : ScopeId) : s.chain i = i :: (s.parent? i).elim [] s.chain := by
  rw [chain_eq, parent?]
  cases houter : s.outer i with
  | nil => rfl
  | cons p rest =>
      obtain ⟨-, hrest⟩ := h i p rest houter
      show _ = i :: s.chain p
      rw [chain_eq, hrest]

/-- Looking a name up: the value in the scope itself, or else what is found from its parent. -/
theorem lookup_eq_or (i : ScopeId) (name : String) :
    s.lookup i name = (s.value? i name).or ((s.parent? i).bind fun p => s.lookup p name) := by
  rw [lookup_eq, h.chain_eq_cons, List.findSome?_cons]
  cases s.value? i name with
  | some v => rfl
  | none => cases s.parent? i <;> rfl

/-- Finding the scope that has a name: the scope itself, or else what is found from its parent. -/
theorem resolve_eq_or (i : ScopeId) (name : String) :
    s.resolve i name = if s.bindsLocally i name then some i
      else (s.parent? i).bind fun p => s.resolve p name := by
  unfold resolve
  rw [h.chain_eq_cons, List.find?_cons]
  cases s.bindsLocally i name with
  | true => rfl
  | false => cases s.parent? i <;> rfl

/-- **Looking a name up finds its value in the nearest scope that has it.** -/
theorem lookup_eq_some_iff : s.lookup i name = some v ↔
    ∃ j, s.Nearest name i j ∧ s.value? j name = some v := by
  induction i using Nat.strongRecOn with
  | ind i ih =>
      rw [h.lookup_eq_or]
      cases hvalue : s.value? i name with
      | some w =>
          have hbinds : s.bindsLocally i name = true := by rw [bindsLocally_eq, hvalue]; rfl
          constructor
          · rintro ⟨⟩
            exact ⟨i, ⟨.self i, hbinds⟩, hvalue⟩
          · rintro ⟨j, ⟨hsees, -⟩, hv⟩
            obtain rfl | ⟨hnot, -⟩ := sees_iff.mp hsees
            · exact hvalue.symm.trans hv
            · rw [hbinds] at hnot
              cases hnot
      | none =>
          have hnot := bindsLocally_eq_false_iff.mpr hvalue
          rw [Option.none_or, Option.bind_eq_some_iff]
          constructor
          · rintro ⟨p, hp, hlookup⟩
            obtain ⟨j, ⟨hsees, hbinds⟩, hv⟩ := (ih p (h.lt_of_standsIn hp)).mp hlookup
            exact ⟨j, ⟨.outward hnot hp hsees, hbinds⟩, hv⟩
          · rintro ⟨j, ⟨hsees, hbinds⟩, hv⟩
            obtain rfl | ⟨-, p, hp, hsees⟩ := sees_iff.mp hsees
            · rw [hvalue] at hv
              cases hv
            · exact ⟨p, hp, (ih p (h.lt_of_standsIn hp)).mpr ⟨j, ⟨hsees, hbinds⟩, hv⟩⟩

/-- **Assigning finds the nearest scope that has the name.** -/
theorem resolve_eq_some_iff : s.resolve i name = some j ↔ s.Nearest name i j := by
  induction i using Nat.strongRecOn with
  | ind i ih =>
      rw [h.resolve_eq_or, Nearest, sees_iff]
      cases hbinds : s.bindsLocally i name with
      | true =>
          constructor
          · rintro ⟨⟩
            exact ⟨.inl rfl, hbinds⟩
          · rintro ⟨rfl | ⟨⟨⟩, -⟩, -⟩
            rfl
      | false =>
          rw [if_neg Bool.false_ne_true, Option.bind_eq_some_iff]
          constructor
          · rintro ⟨p, hp, hresolve⟩
            obtain ⟨hsees, hj⟩ := (ih p (h.lt_of_standsIn hp)).mp hresolve
            exact ⟨.inr ⟨rfl, p, hp, hsees⟩, hj⟩
          · rintro ⟨rfl | ⟨-, p, hp, hsees⟩, hj⟩
            · rw [hbinds] at hj
              cases hj
            · exact ⟨p, hp, (ih p (h.lt_of_standsIn hp)).mpr ⟨hsees, hj⟩⟩

/-- A name has a value if and only if a scope has it on the way outward. -/
theorem exists_lookup_iff : (∃ v, s.lookup i name = some v) ↔ ∃ j, s.Nearest name i j := by
  constructor
  · rintro ⟨v, hv⟩
    obtain ⟨j, hj, -⟩ := h.lookup_eq_some_iff.mp hv
    exact ⟨j, hj⟩
  · rintro ⟨j, hj⟩
    obtain ⟨v, hv⟩ := Option.isSome_iff_exists.mp (bindsLocally_eq s j name ▸ hj.2)
    exact ⟨v, h.lookup_eq_some_iff.mpr ⟨j, hj, hv⟩⟩

/-- Assigning defines the name in the nearest scope that has it. -/
theorem assign?_eq_some_iff :
    s.assign? i name v = some s' ↔ ∃ j, s.Nearest name i j ∧ s.define j name v = s' := by
  rw [assign?, Option.map_eq_some_iff]
  exact exists_congr fun j => and_congr_left fun _ => h.resolve_eq_some_iff

end IsTree

/-! ### Changing one value

A scope that is on the way to the one that has changed still has what it had.  So what is seen from it
changes only if the walk comes to the changed scope before any other that has the name.
-/

/-- Whether a later store differs in nothing but the value that a name has in one scope. -/
structure ChangesOnly (s s' : Store) (i : ScopeId) (name : String) (v : Value) : Prop where
  size_eq : s'.scopes.size = s.scopes.size
  functions_eq : s'.functions = s.functions
  outer_eq : ∀ j, s'.outer j = s.outer j
  value?_eq : ∀ j name', s'.value? j name' = if j = i ∧ name' = name then some v else s.value? j name'

theorem changesOnly_define (hi : i < s.scopes.size) (name : String) (v : Value) :
    s.ChangesOnly (s.define i name v) i name v where
  size_eq := size_define s i name v
  functions_eq := functions_define s i name v
  outer_eq := outer_define s i name v
  value?_eq j name' := by simp only [value?_define, hi, true_and]

/-- **A change shows to those who see the scope, and to no one else.** -/
theorem lookup_of_changesOnly (hs : s.IsTree) (h : s.ChangesOnly s' i name v) (g : ScopeId)
    (name' : String) :
    (name' = name ∧ s.Sees name' g i → s'.lookup g name' = some v) ∧
      (¬ (name' = name ∧ s.Sees name' g i) → s'.lookup g name' = s.lookup g name') := by
  have hs' : s'.IsTree := by
    intro j p rest hj
    rw [h.outer_eq] at hj ⊢
    exact hs j p rest hj
  induction g using Nat.strongRecOn with
  | ind g ih =>
      have hparent : s'.parent? g = s.parent? g := by rw [parent?, h.outer_eq, parent?]
      rw [hs'.lookup_eq_or, hs.lookup_eq_or, hparent, h.value?_eq, sees_iff]
      by_cases hhere : g = i ∧ name' = name
      · rw [if_pos hhere]
        exact ⟨fun _ => rfl, fun hnot => absurd ⟨hhere.2, .inl hhere.1⟩ hnot⟩
      · rw [if_neg hhere]
        cases hvalue : s.value? g name' with
        | some w =>
            have hbinds : s.bindsLocally g name' = true := by rw [bindsLocally_eq, hvalue]; rfl
            refine ⟨?_, fun _ => rfl⟩
            rintro ⟨hname, hg | ⟨hnot, -⟩⟩
            · exact absurd ⟨hg, hname⟩ hhere
            · rw [hbinds] at hnot
              cases hnot
        | none =>
            have hnot := bindsLocally_eq_false_iff.mpr hvalue
            rw [Option.none_or, Option.none_or]
            constructor
            · rintro ⟨hname, hg | ⟨-, p, hp, hsees⟩⟩
              · exact absurd ⟨hg, hname⟩ hhere
              · rw [show s.parent? g = some p from hp]
                exact (ih p (hs.lt_of_standsIn hp)).1 ⟨hname, hsees⟩
            · intro hno
              cases hp : s.parent? g with
              | none => rfl
              | some p =>
                  refine (ih p (hs.lt_of_standsIn hp)).2 fun h => hno ?_
                  exact ⟨h.1, .inr ⟨hnot, p, hp, h.2⟩⟩

/-! ### What every operation keeps

Scopes are added at the end and inside earlier ones, and nothing else touches what stands around a scope.
-/

theorem isTree_empty : Store.empty.IsTree := by
  intro i p rest hi
  rw [outer_of_size_le (Nat.zero_le i)] at hi
  cases hi

theorem extends_newScope (s : Store) (outer : List ScopeId) : s.Extends (s.newScope outer).2 where
  size_le := by
    rw [size_newScope]
    exact Nat.le_succ _
  functions_le := Nat.le_refl _
  outer_eq i hi := by
    unfold Store.outer
    rw [scope_newScope, if_neg (Nat.ne_of_lt hi)]

/-- A new scope stands in nothing or in one that has been made. -/
theorem IsTree.newScope (h : s.IsTree) {outer : List ScopeId}
    (houter : outer = [] ∨ ∃ i < s.scopes.size, outer = s.chain i) :
    (s.newScope outer).2.IsTree := by
  have hlater := extends_newScope s outer
  intro j p rest hj
  by_cases hnew : j = s.scopes.size
  · subst hnew
    unfold Store.outer at hj
    rw [scope_newScope, if_pos rfl] at hj
    obtain rfl | ⟨i, hi, rfl⟩ := houter
    · cases hj
    · cases hj
      exact ⟨hi, hlater.outer_eq p hi⟩
  · have hold : (s.newScope outer).2.outer j = s.outer j := by
      unfold Store.outer
      rw [scope_newScope, if_neg hnew]
    obtain ⟨hp, hrest⟩ := h j p rest (hold.symm.trans hj)
    have hj' : j < s.scopes.size := by
      refine Nat.lt_of_not_le fun hle => ?_
      rw [hold, outer_of_size_le hle] at hj
      cases hj
    exact ⟨hp, (hlater.outer_eq p (Nat.lt_trans hp hj')).trans hrest⟩

theorem IsTree.define (h : s.IsTree) (i : ScopeId) (name : String) (v : Value) :
    (s.define i name v).IsTree := by
  intro j p rest hj
  rw [outer_define] at hj ⊢
  exact h j p rest hj

end Store

end SmallLisp
