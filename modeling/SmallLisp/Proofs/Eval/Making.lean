/-
Where functions come from.

A machine has values in three places: scopes bind them, frames hold them, and one can be handed on.  A
step moves values from place to place, and makes some, but it makes a function in one case only, where
a definition is evaluated.  The machine at that moment says which one it will be (`made?`), and its
identity is the number of functions that have been made before.

`Knows` says that all functions which a machine has are of some kind, and how many have been made.  A
step keeps the kind, whatever it is, if the function that is made is of that kind (`Knows.step`).  So
functions are never altered on their way.
-/
import SmallLisp.Proofs.Eval.Moves

namespace SmallLisp

namespace Store

/-- Whether all functions that are bound somewhere are of some kind. -/
def Binds (s : Store) (Q : Closure → Prop) : Prop :=
  ∀ i name v, s.value? i name = some v → v.IfFunction Q

end Store

namespace Eval

namespace Machine

variable {limit? : Option Nat} {m m' : Machine} {c : Closure}

/-- The function is bound to its name, and the definition has no value. -/
theorem eq_of_made (hmade : m.made? = some c) (hstep : m.step limit? = some m') :
    m' = ⟨.yield (.ok .nil), m.stack, m.calls,
      m.store.newFunction.2.define c.scope c.name.lexeme (.function c)⟩ := by
  obtain ⟨hcontrol, hidentity⟩ := made?_eq_some_iff.mp hmade
  obtain ⟨control, stack, calls, s⟩ := m
  obtain ⟨identity, name, params, body, scope⟩ := c
  obtain rfl : control = .evaluate scope (.define name params body) := hcontrol
  obtain rfl : identity = s.functions := hidentity
  exact (Option.some_inj.mp hstep).symm

/-- Whether all functions that a machine has, in scopes, in frames and in its control, are of some kind,
and so many have been made. -/
structure Knows (Q : Closure → Prop) (n : Nat) (m : Machine) : Prop where
  bound : m.store.Binds Q
  held : ∀ f ∈ m.stack, ∀ v ∈ f.held, v.IfFunction Q
  count : m.store.functions = n
  yields : ∀ v, m.control = .yield (.ok v) → v.IfFunction Q

variable {Q : Closure → Prop} {n : Nat}

theorem Knows.mono {Q' : Closure → Prop} (hQ : ∀ c, Q c → Q' c) (h : m.Knows Q n) :
    m.Knows Q' n where
  bound i name v hv := (h.bound i name v hv).imp hQ
  held f hf v hv := (h.held f hf v hv).imp hQ
  count := h.count
  yields v hv := (h.yields v hv).imp hQ

/-- What is at hand are functions that are known, and the one that is made. -/
theorem Knows.value_of_atHand (h : m.Knows Q n) (hmade : ∀ c, m.made? = some c → Q c) {v : Value}
    (hv : m.AtHand v) : v.IfFunction Q := by
  cases hv with
  | datum d => trivial
  | bound hv => exact h.bound _ _ _ hv
  | held hf hv => exact h.held _ hf _ hv
  | yielded hcontrol => exact h.yields _ hcontrol
  | operator hcontrol => trivial
  | made hc => exact hmade _ hc

theorem Knows.move (h : m.Knows Q n) (hmade : ∀ c, m.made? = some c → Q c) {calls : Nat}
    {below : List Frame} (hbelow : ∀ f ∈ below, ∀ v ∈ f.held, v.IfFunction Q) {pending : List Expr}
    (hmove : Move limit? m calls below pending m') :
    m'.Knows Q (n + if m.made?.isSome then 1 else 0) := by
  have hbinds {s : Store} (hs : m.Leaves s) : s.Binds Q := fun i name v hv =>
    h.value_of_atHand hmade (hs.bound i name v hv)
  have hcount {s : Store} (hs : m.Leaves s) :
      s.functions = n + if m.made?.isSome then 1 else 0 := by
    rw [hs.functions_eq, h.count]
  cases hmove with
  | value hv hs =>
      refine ⟨hbinds hs, hbelow, hcount hs, fun v hcontrol => ?_⟩
      cases hcontrol
      exact h.value_of_atHand hmade hv
  | error _ hs => exact ⟨hbinds hs, hbelow, hcount hs, fun _ => nofun⟩
  | ask f _ _ _ _ hheld _ hs =>
      have hf : ∀ v ∈ f.held, v.IfFunction Q := fun v hv => h.value_of_atHand hmade (hheld v hv)
      exact ⟨hbinds hs, List.forall_mem_cons.mpr ⟨hf, hbelow⟩, hcount hs, fun _ => nofun⟩
  | enter _ _ _ hs =>
      have hbody : ∀ v ∈ Frame.body.held, v.IfFunction Q := List.forall_mem_nil _
      exact ⟨hbinds hs, List.forall_mem_cons.mpr ⟨hbody, hbelow⟩, hcount hs, fun _ => nofun⟩

/-- **A step only moves functions**, and brings in none but the one that it makes and counts. -/
theorem Knows.step (h : m.Knows Q n) (hmade : ∀ c, m.made? = some c → Q c)
    (hstep : m.step limit? = some m') : m'.Knows Q (n + if m.made?.isSome then 1 else 0) := by
  obtain ⟨scope, e, -, hmove⟩ | ⟨outcome, f, below, -, hstack, -, hmove⟩ |
    ⟨outcome, below, hcontrol, hstack, -, hm'⟩ := step_cases hstep
  · exact h.move hmade h.held hmove
  · exact h.move hmade (List.forall_mem_cons.mp (hstack ▸ h.held)).2 hmove
  · rw [hm', made?_eq_none_of_yield hcontrol]
    exact ⟨h.bound, (List.forall_mem_cons.mp (hstack ▸ h.held)).2, h.count, h.yields⟩

theorem knows_ofForms {s : Store} (hbound : s.Binds Q) (calls : Nat) (scope : ScopeId)
    (forms : List Expr) : (ofForms calls scope forms s).Knows Q s.functions := by
  cases forms with
  | nil =>
      refine ⟨hbound, List.forall_mem_nil _, rfl, fun v hcontrol => ?_⟩
      cases hcontrol
      trivial
  | cons e forms =>
      exact ⟨hbound, List.forall_mem_singleton.mpr (List.forall_mem_nil _), rfl, fun _ => nofun⟩

end Machine

end Eval

end SmallLisp
