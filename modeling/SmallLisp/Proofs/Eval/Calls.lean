/-
What the counter of active calls counts.

The counter counts the bodies on the stack: where one is entered both go up by one, and where one
is left both go down.  So it is never below what it was at the beginning, and at the end, with
nothing on the stack, it is what it was.  Nor is it ever above the limit, since no body is entered
there.

All of this is a matter of single steps, and of a step only the kind of its move counts.
-/
import SmallLisp.Proofs.Eval.Moves

namespace SmallLisp

namespace Eval

namespace Machine

variable {limit? : Option Nat} {m m' : Machine}

/-! ### The counter

Counting the frames of bodies on the stack is another way to have the counter, up to where it began.  The two
are compared along a run, from which the bounds follow.
-/

/-- How many bodies have been entered and not left. -/
def active (m : Machine) : Nat :=
  m.stack.countP Frame.isBody

/-- The counter and the bodies on the stack go up and down together. -/
theorem calls_add_active (h : m.step limit? = some m') :
    m'.calls + m.active = m.calls + m'.active := by
  have hmove {below : List Frame} {pending : List Expr}
      (hbelow : below.countP Frame.isBody = m.active)
      (h : Move limit? m m.calls below pending m') :
      m'.calls + m.active = m.calls + m'.active := by
    cases h with
    | value _ _ | error _ _ =>
        simp only [active] at hbelow ⊢
        omega
    | ask f _ hf _ _ _ _ _ =>
        simp only [active, List.countP_cons, hf] at hbelow ⊢
        simp only [Bool.false_eq_true, if_false]
        omega
    | enter _ _ _ _ =>
        simp only [active, List.countP_cons, Frame.isBody, if_true] at hbelow ⊢
        omega
  obtain ⟨scope, e, -, h⟩ | ⟨outcome, f, below, -, hstack, hf, h⟩ |
    ⟨outcome, below, -, hstack, hcalls, hm'⟩ := step_cases h
  · exact hmove rfl h
  · refine hmove ?_ h
    simp [active, hstack, hf]
  · have hactive : m.active = below.countP Frame.isBody + 1 := by
      rw [active, hstack, List.countP_cons_of_pos rfl]
    have hactive' : m'.active = below.countP Frame.isBody := by rw [hm', active]
    omega

/-- The counter goes up by one where there is room, or down by one, or stays. -/
theorem calls_of_step (h : m.step limit? = some m') :
    m'.calls = m.calls ∨ m'.calls = m.calls + 1 ∧ reached? limit? m.calls = none ∨
      m.calls = m'.calls + 1 := by
  have hmove {below : List Frame} {pending : List Expr}
      (h : Move limit? m m.calls below pending m') :
      m'.calls = m.calls ∨ m'.calls = m.calls + 1 ∧ reached? limit? m.calls = none := by
    cases h with
    | value _ _ | error _ _ | ask _ _ _ _ _ _ _ _ => exact .inl rfl
    | enter hroom _ _ _ => exact .inr ⟨rfl, hroom⟩
  obtain ⟨scope, e, -, h⟩ | ⟨outcome, f, below, -, -, -, h⟩ | ⟨outcome, below, -, -, hcalls, -⟩ :=
    step_cases h
  · exact (hmove h).imp_right .inl
  · exact (hmove h).imp_right .inl
  · exact .inr (.inr hcalls)

/-- No step takes the counter past the limit. -/
theorem calls_le_of_step {limit : Nat} (h : m.step (some limit) = some m')
    (hle : m.calls ≤ limit) : m'.calls ≤ limit := by
  obtain hcalls | ⟨hcalls, hroom⟩ | hcalls := calls_of_step h
  · omega
  · have := reached?_eq_none_iff.mp hroom
    omega
  · omega

theorem Steps.calls_add_active (h : Steps limit? m m') :
    m'.calls + m.active = m.calls + m'.active := by
  induction h with
  | refl => rfl
  | tail _ hstep ih =>
      have := Machine.calls_add_active hstep
      omega

theorem Steps.calls_le {limit : Nat} (h : Steps (some limit) m m') (hle : m.calls ≤ limit) :
    m'.calls ≤ limit := by
  induction h with
  | refl => exact hle
  | tail _ hstep ih => exact calls_le_of_step hstep ih

/-- Where no call has waited at the beginning, the counter has gone up by the bodies that have been
entered and not left. -/
theorem Steps.calls_eq (h : Steps limit? m m') (hactive : m.active = 0) :
    m'.calls = m.calls + m'.active := by
  have := h.calls_add_active
  omega

theorem active_ofExpr (calls : Nat) (scope : ScopeId) (e : Expr) (s : Store) :
    (ofExpr calls scope e s).active = 0 :=
  rfl

theorem active_ofForms (calls : Nat) (scope : ScopeId) (forms : List Expr) (s : Store) :
    (ofForms calls scope forms s).active = 0 := by
  rcases forms with _ | ⟨e, forms⟩ <;> rfl

theorem calls_ofForms (calls : Nat) (scope : ScopeId) (forms : List Expr) (s : Store) :
    (ofForms calls scope forms s).calls = calls := by
  rcases forms with _ | ⟨e, forms⟩ <;> rfl

/-- If the counter accounts for the bodies on the stack, nothing but the end stops a machine. -/
theorem eq_ended_of_step_none {calls : Nat} (h : m.step limit? = none)
    (hcalls : m.calls = calls + m.active) : ∃ x, m = ended calls x := by
  obtain ⟨control, stack, calls', s⟩ := m
  match control, stack with
  | .evaluate _ _, _ => cases h
  | .yield outcome, [] =>
      obtain rfl : calls' = calls := hcalls
      exact ⟨(outcome, s), rfl⟩
  | .yield outcome, f :: below =>
      by_cases hf : f.isBody = true
      · obtain rfl := eq_body_of_isBody hf
        rw [active, List.countP_cons_of_pos rfl] at hcalls
        match calls', hcalls with
        | calls' + 1, _ => cases h
      · rw [step_yield_cons _ _ _ (by simpa using hf)] at h
        cases h

end Machine

end Eval

end SmallLisp
