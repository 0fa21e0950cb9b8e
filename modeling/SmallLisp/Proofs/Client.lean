/-
What a name means to those who hold scopes.

A client makes scopes, keeps handles to them and reads and changes them through these, in any order and
through as many handles to one scope as it likes.  A definition may put a binding in the way of what
others look up or assign to.  Looking up, assigning and defining agree all the same: on every store that
a client can make, with whatever values, there is one binding that a name means from a scope, and each of
them is about that one (`one_binding`).
-/
import SmallLisp.Proofs.Eval.Run
import SmallLisp.Proofs.Store.Nearest

namespace SmallLisp

/-- What a client has: a store, and handles to some of its scopes.  A scope may have several. -/
structure Client where
  store : Store
  handles : List ScopeId

namespace Client

/-- Nothing has been made. -/
def start : Client := ⟨.empty, []⟩

/-- One operation, through a handle that the client has. -/
inductive Performs : Client → Client → Prop where
  | new {s : Store} {hs : List ScopeId} : Performs ⟨s, hs⟩ ⟨s.newRoot.2, s.newRoot.1 :: hs⟩
  | child {s : Store} {hs : List ScopeId} {e : ScopeId} (he : e ∈ hs) :
      Performs ⟨s, hs⟩ ⟨(s.newChild e).2, (s.newChild e).1 :: hs⟩
  | clone {s : Store} {hs : List ScopeId} {e : ScopeId} (he : e ∈ hs) :
      Performs ⟨s, hs⟩ ⟨s, e :: hs⟩
  | define {s : Store} {hs : List ScopeId} {e : ScopeId} (he : e ∈ hs) (name : String)
      (v : Value) : Performs ⟨s, hs⟩ ⟨s.define e name v, hs⟩
  /-- Assigning leaves the store that it leaves, whether it succeeds or not. -/
  | assign {s : Store} {hs : List ScopeId} {e : ScopeId} (he : e ∈ hs) (name : Token)
      (v : Value) : Performs ⟨s, hs⟩ ⟨(Eval.assign e name v s).2, hs⟩
  | get {s : Store} {hs : List ScopeId} {e : ScopeId} (he : e ∈ hs) (name : Token) :
      Performs ⟨s, hs⟩ ⟨(Eval.valueOf e name s).2, hs⟩
  | lookup {s : Store} {hs : List ScopeId} {e : ScopeId} (he : e ∈ hs) (name : String) :
      Performs ⟨s, hs⟩ ⟨s, hs⟩

/-- Any number of operations. -/
abbrev Comes : Client → Client → Prop :=
  Relation.ReflTransGen Performs

/-- What is so of everything that a client can have. -/
structure Sound (c : Client) : Prop where
  isTree : c.store.IsTree
  lt_size : ∀ e ∈ c.handles, e < c.store.scopes.size

theorem snd_assign (e : ScopeId) (name : Token) (v : Value) (s : Store) :
    (Eval.assign e name v s).2 = s ∨
      ∃ i, (Eval.assign e name v s).2 = s.define i name.lexeme v := by
  rw [Eval.assign_apply]
  cases hassign : s.assign? e name.lexeme v with
  | none => exact .inl rfl
  | some s' =>
      obtain ⟨i, -, -, rfl⟩ := Store.exists_of_assign? hassign
      exact .inr ⟨i, rfl⟩

theorem snd_valueOf (e : ScopeId) (name : Token) (s : Store) :
    (Eval.valueOf e name s).2 = s := by
  rw [Eval.valueOf_apply]
  cases s.lookup e name.lexeme <;> rfl

/-- An operation loses no scope. -/
theorem Performs.extends {c c' : Client} (h : c.Performs c') : c.store.Extends c'.store := by
  cases h with
  | new => exact Store.extends_newScope _ _
  | child => exact Store.extends_newScope _ _
  | clone => exact .refl _
  | define => exact Store.extends_define _ _ _ _
  | @assign s _ e _ name v =>
      obtain heq | ⟨i, heq⟩ := snd_assign e name v s <;> simp only [heq]
      · exact .refl _
      · exact Store.extends_define _ _ _ _
  | @get s _ e _ name =>
      rw [snd_valueOf]
      exact .refl _
  | lookup => exact .refl _

theorem Performs.sound {c c' : Client} (h : c.Performs c') (hc : c.Sound) : c'.Sound := by
  have hold : ∀ e ∈ c.handles, e < c'.store.scopes.size :=
    fun e he => Nat.lt_of_lt_of_le (hc.lt_size e he) h.extends.size_le
  have htree := hc.isTree
  cases h with
  | new =>
      refine ⟨htree.newScope (.inl rfl), List.forall_mem_cons.mpr ⟨?_, hold⟩⟩
      exact Nat.lt_of_lt_of_eq (Nat.lt_succ_self _) (Store.size_newScope _ _).symm
  | @child s hs e he =>
      refine ⟨htree.newScope (.inr ⟨e, hc.lt_size e he, rfl⟩), List.forall_mem_cons.mpr ⟨?_, hold⟩⟩
      exact Nat.lt_of_lt_of_eq (Nat.lt_succ_self _) (Store.size_newScope _ _).symm
  | @clone s hs e he => exact ⟨htree, List.forall_mem_cons.mpr ⟨hc.lt_size e he, hold⟩⟩
  | define => exact ⟨htree.define _ _ _, hold⟩
  | @assign s _ e _ name v =>
      refine ⟨?_, hold⟩
      obtain heq | ⟨i, heq⟩ := snd_assign e name v s <;> simp only [heq]
      · exact htree
      · exact htree.define _ _ _
  | @get s _ e _ name =>
      refine ⟨?_, hold⟩
      simp only [snd_valueOf]
      exact htree
  | lookup => exact ⟨htree, hold⟩

theorem Comes.extends {c c' : Client} (h : c.Comes c') : c.store.Extends c'.store := by
  induction h with
  | refl => exact .refl _
  | tail _ hstep ih => exact ih.trans hstep.extends

theorem sound_of_comes {c : Client} (h : start.Comes c) : c.Sound := by
  induction h with
  | refl => exact ⟨Store.isTree_empty, nofun⟩
  | tail _ hstep ih => exact hstep.sound ih

/-! ### One binding

The scope that has the binding is found once, as the nearest one.  Looking up, assigning and defining are then
compared with it and not with each other.
-/

/-- What looking a name up, assigning to it and defining it come to, from one scope. -/
structure OneBinding (s : Store) (e : ScopeId) (x : Token) (v : Value) : Prop where
  /-- A name has the value that the nearest scope with it gives it. -/
  lookup_iff : ∀ w, s.lookup e x.lexeme = some w ↔
    ∃ i, s.Nearest x.lexeme e i ∧ s.value? i x.lexeme = some w
  /-- It can be assigned to just when it has a value. -/
  assign_iff : (∃ s', Eval.assign e x v s = (.ok (), s')) ↔ ∃ w, s.lookup e x.lexeme = some w
  /-- Then nothing changes but its value in the nearest scope that has it, and that shows to those
  who find it there. -/
  assigned : ∀ s', Eval.assign e x v s = (.ok (), s') → ∃ i, s.Nearest x.lexeme e i ∧
    s.ChangesOnly s' i x.lexeme v ∧ ∀ g y,
      (y = x.lexeme ∧ s.Nearest y g i → s'.lookup g y = some v) ∧
      (¬ (y = x.lexeme ∧ s.Nearest y g i) → s'.lookup g y = s.lookup g y)
  /-- Otherwise nothing changes. -/
  unassigned : ∀ error s', Eval.assign e x v s = (.error error, s') →
    error = .undefinedVariable x ∧ s' = s
  /-- Defining it changes nothing but its value in the scope itself, and that shows to those who
  see this scope. -/
  defined : s.ChangesOnly (s.define e x.lexeme v) e x.lexeme v
  lookup_defined : ∀ g y,
    (y = x.lexeme ∧ s.Sees y g e → (s.define e x.lexeme v).lookup g y = some v) ∧
    (¬ (y = x.lexeme ∧ s.Sees y g e) → (s.define e x.lexeme v).lookup g y = s.lookup g y)

theorem assign_eq_ok_iff {e : ScopeId} {x : Token} {v : Value} {s s' : Store} :
    Eval.assign e x v s = (.ok (), s') ↔ s.assign? e x.lexeme v = some s' := by
  rw [Eval.assign_apply]
  cases s.assign? e x.lexeme v with
  | none =>
      constructor
      · rintro ⟨⟩
      · rintro ⟨⟩
  | some s₁ =>
      constructor
      · rintro ⟨⟩
        rfl
      · rintro ⟨⟩
        rfl

theorem eq_of_assign_error {e : ScopeId} {x : Token} {v : Value} {s s' : Store}
    {error : EvalError} (h : Eval.assign e x v s = (.error error, s')) :
    error = .undefinedVariable x ∧ s' = s := by
  rw [Eval.assign_apply] at h
  cases hassign : s.assign? e x.lexeme v with
  | none =>
      rw [hassign] at h
      cases h
      exact ⟨rfl, rfl⟩
  | some s₁ =>
      rw [hassign] at h
      cases h

theorem oneBinding_of_isTree {s : Store} (hs : s.IsTree) {e : ScopeId} (he : e < s.scopes.size)
    (x : Token) (v : Value) : OneBinding s e x v := by
  have hdefined := Store.changesOnly_define he x.lexeme v
  refine ⟨fun w => hs.lookup_eq_some_iff, ?_, ?_, fun _ _ => eq_of_assign_error, hdefined,
    Store.lookup_of_changesOnly hs hdefined⟩
  · simp only [assign_eq_ok_iff, hs.assign?_eq_some_iff, hs.exists_lookup_iff]
    constructor
    · rintro ⟨_, i, hnearest, -⟩
      exact ⟨i, hnearest⟩
    · rintro ⟨i, hnearest⟩
      exact ⟨_, i, hnearest, rfl⟩
  · intro s' hassign
    obtain ⟨i, hnearest, rfl⟩ := hs.assign?_eq_some_iff.mp (assign_eq_ok_iff.mp hassign)
    have hchange := Store.changesOnly_define (Store.lt_size_of_binds hnearest.2) x.lexeme v
    refine ⟨i, hnearest, hchange, fun g y => ?_⟩
    -- The scope has the name already, so those who see it find the name there.
    have hsees : y = x.lexeme ∧ s.Nearest y g i ↔ y = x.lexeme ∧ s.Sees y g i := by
      refine and_congr_right fun hy => and_iff_left ?_
      rw [hy]
      exact hnearest.2
    rw [hsees]
    exact Store.lookup_of_changesOnly hs hchange g y

/-- **Looking up, assigning and defining agree on one binding.**  On every store that a client can
make, no scope stands in itself, and what a scope stands in never changes; and from every handle a
name is looked up, assigned to and shadowed in one and the same place. -/
theorem one_binding {c : Client} (hc : start.Comes c) :
    (∀ i, ¬ Relation.TransGen c.store.StandsIn i i) ∧
      (∀ i, c.store.chain i = i :: (c.store.parent? i).elim [] c.store.chain) ∧
      (∀ c', c.Comes c' → ∀ i < c.store.scopes.size,
        c'.store.parent? i = c.store.parent? i ∧ c'.store.chain i = c.store.chain i) ∧
      ∀ e ∈ c.handles, e < c.store.scopes.size ∧ ∀ x v, OneBinding c.store e x v := by
  have hsound := sound_of_comes hc
  refine ⟨hsound.isTree.acyclic, hsound.isTree.chain_eq_cons, fun c' hlater i hi => ?_,
    fun e he => ⟨hsound.lt_size e he, oneBinding_of_isTree hsound.isTree (hsound.lt_size e he)⟩⟩
  have houter := hlater.extends.outer_eq i hi
  exact ⟨by rw [Store.parent?, houter, Store.parent?],
    by rw [Store.chain_eq, houter, Store.chain_eq]⟩

/-- Of three scopes, each in the one before, the first two have a name.  Assigned to from the third,
it changes in the second. -/
theorem one_binding_shadowed :
    let x : Token := ⟨.symbol, "x", none, 1⟩
    let s : Store := ⟨#[⟨[], [("x", .ofBool true)]⟩, ⟨[0], [("x", .ofBool false)]⟩, ⟨[1, 0], []⟩], 0⟩
    start.Comes ⟨s, [2, 1, 0]⟩ ∧ OneBinding s 2 x .nil ∧
      ∃ s', Eval.assign 2 x .nil s = (.ok (), s') ∧ s.ChangesOnly s' 1 "x" .nil ∧
        s'.lookup 2 "x" = some .nil ∧ s'.lookup 0 "x" = some (.ofBool true) := by
  intro x s
  have hfirst : start.Comes ⟨⟨#[⟨[], []⟩], 0⟩, [0]⟩ := .single .new
  have hsecond := (hfirst.tail (.define (e := 0) (by decide) "x" (.ofBool true))).tail
    (.child (e := 0) (by decide))
  have hthird := (hsecond.tail (.define (e := 1) (by decide) "x" (.ofBool false))).tail
    (.child (e := 1) (by decide))
  have hc : start.Comes ⟨s, [2, 1, 0]⟩ := hthird
  obtain ⟨-, -, -, hhandles⟩ := one_binding hc
  have hbinding := (hhandles 2 (by decide)).2 x .nil
  have hnearest : s.Nearest "x" 2 1 := ⟨.outward rfl rfl (.self 1), rfl⟩
  obtain ⟨s', hassign⟩ := hbinding.assign_iff.mpr ⟨.ofBool false, rfl⟩
  obtain ⟨i, hi, hchange, hshows⟩ := hbinding.assigned s' hassign
  have htree := (sound_of_comes hc).isTree
  obtain rfl : 1 = i := Option.some_inj.mp
    ((htree.resolve_eq_some_iff.mpr hnearest).symm.trans (htree.resolve_eq_some_iff.mpr hi))
  have hoff : ¬ s.Nearest "x" 0 1 := by
    rintro ⟨hsees, -⟩
    obtain h | ⟨h, -⟩ := Store.sees_iff.mp hsees <;> cases h
  exact ⟨hc, hbinding, s', hassign, hchange, (hshows 2 "x").1 ⟨rfl, hnearest⟩,
    (hshows 0 "x").2 fun h => hoff h.2⟩

end Client

end SmallLisp
