/-
What the operations on a store change.

A scope shows itself in two ways: by the scopes around it and by the value that each name has in
it.  The lemmas here say of every operation what becomes of both, for every scope and every name,
so that a proof about the store never looks at arrays or at the order of bindings.

Scopes are only ever added, and a scope keeps the scopes around it.  `Extends` is that relation
between an earlier store and a later one; nothing that a program does leaves it.
-/
import SmallLisp.Store

namespace SmallLisp

/-! ### Bindings

Every operation keeps the names of a scope apart, and no lemma below needs that.  What is said of bindings
is said through `get?`, the value that is found first.
-/

namespace Bindings

theorem get?_nil (name : String) : get? name [] = none :=
  rfl

theorem get?_cons (name : String) (b : String × Value) (bs : Bindings) :
    get? name (b :: bs) = if name = b.1 then some b.2 else get? name bs := by
  obtain ⟨name', v⟩ := b
  unfold get?
  rw [List.lookup_cons]
  by_cases h : name = name'
  · simp [h]
  · simp [h, beq_false_of_ne h]

theorem get?_set (name name' : String) (v : Value) (bs : Bindings) :
    get? name (set name' v bs) = if name = name' then some v else get? name bs := by
  induction bs with
  | nil => rw [set, get?_cons, get?_nil]
  | cons b bs ih =>
      rw [set]
      by_cases hb : b.1 = name'
      · rw [if_pos hb, get?_cons, get?_cons, hb]
        split <;> rfl
      · have hne : name = b.1 → name ≠ name' := fun hname hname' => hb (hname.symm.trans hname')
        rw [if_neg hb, get?_cons, get?_cons, ih]
        by_cases hname : name = b.1
        · rw [if_pos hname, if_neg (hne hname), if_pos hname]
        · rw [if_neg hname, if_neg hname]

/-- A name is bound if it has a value. -/
theorem binds_eq (name : String) (bs : Bindings) : binds name bs = (get? name bs).isSome := by
  induction bs with
  | nil => rfl
  | cons b bs ih =>
      rw [get?_cons]
      show (decide (b.1 = name) || binds name bs) = _
      rw [ih]
      by_cases h : name = b.1
      · simp [h]
      · simp [h, Ne.symm h]

end Bindings

/-! ### Functions among values

Only functions lead to scopes, so what is asked of a value is mostly asked of the function that it may be.
-/

namespace Value

/-- Whether a value is no function or a function of some kind. -/
def IfFunction (P : Closure → Prop) : Value → Prop
  | .function c => P c
  | _ => True

/-- A value, with another function in place of the one that it may be. -/
def mapFunction (f : Closure → Closure) : Value → Value
  | .function c => .function (f c)
  | v => v

theorem IfFunction.imp {P Q : Closure → Prop} (hPQ : ∀ c, P c → Q c) {v : Value}
    (h : v.IfFunction P) : v.IfFunction Q := by
  cases v with
  | function c => exact hPQ c h
  | _ => trivial

theorem IfFunction.mapFunction {P Q : Closure → Prop} {f : Closure → Closure}
    (hPQ : ∀ c, P c → Q (f c)) {v : Value} (h : v.IfFunction P) :
    (v.mapFunction f).IfFunction Q := by
  cases v with
  | function c => exact hPQ c h
  | _ => trivial

@[simp] theorem mapFunction_id (v : Value) : v.mapFunction id = v := by
  cases v <;> rfl

end Value

namespace Store

/-! ### What a scope shows

The small projections in which everything else is stated: what a scope binds itself, and what stands
around it.  A look-up is a search along the chain, and no lemma opens it any further.
-/

/-- The value that a name has in a scope itself. -/
def value? (s : Store) (id : ScopeId) (name : String) : Option Value :=
  (s.scope id).bindings.get? name

/-- The scopes around a scope, innermost first. -/
def outer (s : Store) (id : ScopeId) : List ScopeId :=
  (s.scope id).outer

theorem chain_eq (s : Store) (id : ScopeId) : s.chain id = id :: s.outer id :=
  rfl

theorem bindsLocally_eq (s : Store) (id : ScopeId) (name : String) :
    s.bindsLocally id name = (s.value? id name).isSome :=
  Bindings.binds_eq name _

theorem lookup_eq (s : Store) (id : ScopeId) (name : String) :
    s.lookup id name = (s.chain id).findSome? fun i => s.value? i name :=
  rfl

/-- A scope that was never made shows nothing. -/
theorem scope_of_size_le {s : Store} {id : ScopeId} (h : s.scopes.size ≤ id) :
    s.scope id = ⟨[], []⟩ := by
  unfold scope
  rw [Array.getD_eq_getD_getElem?, Array.getElem?_eq_none h]
  rfl

/-! ### Giving a name a value

One equation for each projection.  The scope that is defined in has to have been made: outside of the store
a definition changes nothing.
-/

@[simp] theorem size_define (s : Store) (id : ScopeId) (name : String) (v : Value) :
    (s.define id name v).scopes.size = s.scopes.size := by
  simp [define]

@[simp] theorem functions_define (s : Store) (id : ScopeId) (name : String) (v : Value) :
    (s.define id name v).functions = s.functions :=
  rfl

theorem scope_define (s : Store) (id : ScopeId) (name : String) (v : Value) (i : ScopeId) :
    (s.define id name v).scope i =
      if i = id ∧ id < s.scopes.size then
        ⟨s.outer id, (s.scope id).bindings.set name v⟩
      else s.scope i := by
  unfold outer scope define
  simp only [Array.getD_eq_getD_getElem?, Array.getElem?_modify]
  by_cases h : id = i
  · subst h
    by_cases hid : id < s.scopes.size
    · simp [hid]
    · simp [hid]
  · rw [if_neg h, if_neg fun h' => h h'.1.symm]

theorem scope_define_of_ne (s : Store) {id i : ScopeId} (h : i ≠ id) (name : String) (v : Value) :
    (s.define id name v).scope i = s.scope i := by
  rw [scope_define, if_neg (by simp [h])]

@[simp] theorem outer_define (s : Store) (id : ScopeId) (name : String) (v : Value) (i : ScopeId) :
    (s.define id name v).outer i = s.outer i := by
  unfold outer
  rw [scope_define]
  split
  · rename_i h
    rw [h.1, outer]
  · rfl

@[simp] theorem chain_define (s : Store) (id : ScopeId) (name : String) (v : Value) (i : ScopeId) :
    (s.define id name v).chain i = s.chain i := by
  rw [chain_eq, chain_eq, outer_define]

theorem value?_define (s : Store) (id : ScopeId) (name : String) (v : Value) (i : ScopeId)
    (name' : String) :
    (s.define id name v).value? i name' =
      if i = id ∧ id < s.scopes.size ∧ name' = name then some v else s.value? i name' := by
  unfold value?
  rw [scope_define]
  by_cases h : i = id ∧ id < s.scopes.size
  · rw [if_pos h, Bindings.get?_set, h.1]
    simp [h.2]
  · rw [if_neg h, if_neg fun h' => h ⟨h'.1, h'.2.1⟩]

/-- What is bound after a definition is what has been defined or was bound before. -/
theorem eq_or_of_value?_define {s : Store} {id i : ScopeId} {name name' : String} {v w : Value}
    (h : (s.define id name v).value? i name' = some w) : w = v ∨ s.value? i name' = some w := by
  rw [value?_define] at h
  split at h
  · cases h
    exact .inl rfl
  · exact .inr h

/-! ### Giving a name another value where it is bound -/

/-- A name is given another value in the nearest scope that binds it. -/
theorem exists_of_assign? {s s' : Store} {id : ScopeId} {name : String} {v : Value}
    (h : s.assign? id name v = some s') :
    ∃ i ∈ s.chain id, s.bindsLocally i name = true ∧ s' = s.define i name v := by
  obtain ⟨i, hi, rfl⟩ := Option.map_eq_some_iff.mp h
  unfold resolve at hi
  have hbinds := List.find?_some hi
  exact ⟨i, List.mem_of_find?_eq_some hi, hbinds, rfl⟩

/-! ### Making a function -/

/-- The store once a function has been made in a scope and given its name there. -/
def withFunction (s : Store) (id : ScopeId) (name : Token) (params : List Token) (body : Expr) :
    Store :=
  s.newFunction.2.define id name.lexeme (.function ⟨s.functions, name, params, body, id⟩)

/-! ### Making a scope

A new scope has the number that is the size of the store before.  So it is told apart from all others by
its number, and what is known of others is not affected (`scope_newFrame_of_ne`).
-/

@[simp] theorem newFrame_fst (s : Store) (id : ScopeId) (bs : List (String × Value)) :
    (s.newFrame id bs).1 = s.scopes.size :=
  rfl

theorem size_defineAll (s : Store) (id : ScopeId) (bs : List (String × Value)) :
    (s.defineAll id bs).scopes.size = s.scopes.size := by
  induction bs generalizing s with
  | nil => rfl
  | cons b bs ih => rw [defineAll, ih, size_define]

theorem functions_defineAll (s : Store) (id : ScopeId) (bs : List (String × Value)) :
    (s.defineAll id bs).functions = s.functions := by
  induction bs generalizing s with
  | nil => rfl
  | cons b bs ih => rw [defineAll, ih, functions_define]

theorem scope_defineAll_of_ne (s : Store) {id i : ScopeId} (h : i ≠ id)
    (bs : List (String × Value)) : (s.defineAll id bs).scope i = s.scope i := by
  induction bs generalizing s with
  | nil => rfl
  | cons b bs ih => rw [defineAll, ih, scope_define_of_ne s h]

theorem outer_defineAll (s : Store) (id : ScopeId) (bs : List (String × Value)) (i : ScopeId) :
    (s.defineAll id bs).outer i = s.outer i := by
  induction bs generalizing s with
  | nil => rfl
  | cons b bs ih => rw [defineAll, ih, outer_define]

/-- The last of a repeated name stays. -/
theorem value?_defineAll (s : Store) {id : ScopeId} (hid : id < s.scopes.size)
    (bs : List (String × Value)) (name : String) :
    (s.defineAll id bs).value? id name = (bs.reverse.lookup name).or (s.value? id name) := by
  induction bs generalizing s with
  | nil => rfl
  | cons b bs ih =>
      obtain ⟨name', v⟩ := b
      rw [defineAll, ih _ (by simpa using hid), value?_define, List.reverse_cons,
        List.lookup_append]
      by_cases h : name = name'
      · simp [h, hid]
      · simp [h, List.lookup_cons, beq_false_of_ne h]

theorem size_newScope (s : Store) (outer : List ScopeId) :
    (s.newScope outer).2.scopes.size = s.scopes.size + 1 := by
  simp [newScope]

theorem scope_newScope (s : Store) (outer : List ScopeId) (i : ScopeId) :
    (s.newScope outer).2.scope i = if i = s.scopes.size then ⟨outer, []⟩ else s.scope i := by
  unfold newScope scope
  simp only [Array.getD_eq_getD_getElem?, Array.getElem?_push]
  split <;> rfl

@[simp] theorem size_newFrame (s : Store) (id : ScopeId) (bs : List (String × Value)) :
    (s.newFrame id bs).2.scopes.size = s.scopes.size + 1 := by
  show ((s.newScope (s.chain id)).2.defineAll s.scopes.size bs).scopes.size = _
  rw [size_defineAll, size_newScope]

theorem lt_size_newFrame (s : Store) (id : ScopeId) (bs : List (String × Value)) :
    s.scopes.size < (s.newFrame id bs).2.scopes.size := by
  rw [size_newFrame]
  exact Nat.lt_succ_self _

/-- Once a scope has been made, a scope is an old one or the new one. -/
theorem old_or_new_of_newFrame {s : Store} {id i : ScopeId} {bs : List (String × Value)}
    (h : i < (s.newFrame id bs).2.scopes.size) : i < s.scopes.size ∨ i = s.scopes.size := by
  rw [size_newFrame] at h
  exact Nat.lt_succ_iff_lt_or_eq.mp h

@[simp] theorem functions_newFrame (s : Store) (id : ScopeId) (bs : List (String × Value)) :
    (s.newFrame id bs).2.functions = s.functions := by
  show ((s.newScope (s.chain id)).2.defineAll s.scopes.size bs).functions = _
  rw [functions_defineAll]
  rfl

/-- A new scope leaves the others alone. -/
theorem scope_newFrame_of_ne (s : Store) (id : ScopeId) (bs : List (String × Value)) {i : ScopeId}
    (h : i ≠ s.scopes.size) : (s.newFrame id bs).2.scope i = s.scope i := by
  show ((s.newScope (s.chain id)).2.defineAll s.scopes.size bs).scope i = _
  rw [scope_defineAll_of_ne _ h, scope_newScope, if_neg h]

theorem outer_newFrame_of_ne (s : Store) (id : ScopeId) (bs : List (String × Value)) {i : ScopeId}
    (h : i ≠ s.scopes.size) : (s.newFrame id bs).2.outer i = s.outer i := by
  rw [outer, scope_newFrame_of_ne s id bs h, outer]

theorem value?_newFrame_of_ne (s : Store) (id : ScopeId) (bs : List (String × Value)) {i : ScopeId}
    (h : i ≠ s.scopes.size) (name : String) :
    (s.newFrame id bs).2.value? i name = s.value? i name := by
  rw [value?, scope_newFrame_of_ne s id bs h, value?]

/-- A new scope stands in the given one. -/
theorem outer_newFrame (s : Store) (id : ScopeId) (bs : List (String × Value)) :
    (s.newFrame id bs).2.outer s.scopes.size = s.chain id := by
  show ((s.newScope (s.chain id)).2.defineAll s.scopes.size bs).outer s.scopes.size = _
  rw [outer_defineAll, outer, scope_newScope, if_pos rfl]

theorem value?_newFrame (s : Store) (id : ScopeId) (bs : List (String × Value)) (name : String) :
    (s.newFrame id bs).2.value? s.scopes.size name = bs.reverse.lookup name := by
  show ((s.newScope (s.chain id)).2.defineAll s.scopes.size bs).value? s.scopes.size name = _
  rw [value?_defineAll _ (by rw [size_newScope]; exact Nat.lt_succ_self _), value?,
    scope_newScope, if_pos rfl, Bindings.get?_nil, Option.or_none]

/-- What is bound once a scope has been made is among the values that it was made for, or was bound
before. -/
theorem mem_or_of_value?_newFrame {s : Store} {id i : ScopeId} {names : List String}
    {vs : List Value} {name : String} {v : Value}
    (h : (s.newFrame id (names.zip vs)).2.value? i name = some v) :
    v ∈ vs ∨ s.value? i name = some v := by
  by_cases hnew : i = s.scopes.size
  · subst hnew
    rw [value?_newFrame] at h
    obtain ⟨before, after, heq, -⟩ := List.lookup_eq_some_iff.mp h
    have hmem : (name, v) ∈ (names.zip vs).reverse := by rw [heq]; simp
    exact .inl (List.of_mem_zip (List.mem_reverse.mp hmem)).2
  · rw [value?_newFrame_of_ne s id _ hnew] at h
    exact .inr h

/-- A scope that is made without names is a frame for no values. -/
theorem newChild_eq (s : Store) (id : ScopeId) : s.newChild id = s.newFrame id [] :=
  rfl

/-! ### Later stores

Evaluation only adds: scopes and functions are never taken back, and what stands around a scope is settled
when it is made.  So what has been found out about the place of a scope may be kept while other things
are evaluated.
-/

/-- A store from which another can have come about: no scope and no function is lost, and every
scope keeps the scopes around it. -/
structure Extends (s s' : Store) : Prop where
  size_le : s.scopes.size ≤ s'.scopes.size
  functions_le : s.functions ≤ s'.functions
  outer_eq : ∀ i < s.scopes.size, s'.outer i = s.outer i

namespace Extends

variable {s s' s'' : Store}

theorem refl (s : Store) : s.Extends s :=
  ⟨Nat.le_refl _, Nat.le_refl _, fun _ _ => rfl⟩

theorem trans (h : s.Extends s') (h' : s'.Extends s'') : s.Extends s'' where
  size_le := Nat.le_trans h.size_le h'.size_le
  functions_le := Nat.le_trans h.functions_le h'.functions_le
  outer_eq := by
    intro i hi
    rw [h'.outer_eq i (Nat.lt_of_lt_of_le hi h.size_le), h.outer_eq i hi]

end Extends

theorem extends_define (s : Store) (id : ScopeId) (name : String) (v : Value) :
    s.Extends (s.define id name v) :=
  ⟨by simp, by simp, by simp⟩

theorem extends_assign? {s s' : Store} {id : ScopeId} {name : String} {v : Value}
    (h : s.assign? id name v = some s') : s.Extends s' := by
  obtain ⟨i, -, -, rfl⟩ := exists_of_assign? h
  exact extends_define s i name v

theorem extends_newFunction (s : Store) : s.Extends s.newFunction.2 :=
  ⟨Nat.le_refl _, Nat.le_succ _, fun _ _ => rfl⟩

theorem extends_withFunction (s : Store) (id : ScopeId) (name : Token) (params : List Token)
    (body : Expr) : s.Extends (s.withFunction id name params body) :=
  (extends_newFunction s).trans (extends_define _ _ _ _)

theorem extends_newFrame (s : Store) (id : ScopeId) (bs : List (String × Value)) :
    s.Extends (s.newFrame id bs).2 where
  size_le := by simp
  functions_le := by simp
  outer_eq := by
    intro i hi
    exact outer_newFrame_of_ne s id bs (Nat.ne_of_lt hi)

theorem extends_newChild (s : Store) (id : ScopeId) : s.Extends (s.newChild id).2 :=
  extends_newFrame s id []

end Store

end SmallLisp
