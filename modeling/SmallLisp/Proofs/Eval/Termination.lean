/-
Evaluation ends.

A part of an expression is evaluated with as many calls active as the expression itself, and is
smaller.  A body may be of any size, since it is taken from the store and programs write the store
while they run; but while it is evaluated one more call is active, and there are never more than the
limit.  So every evaluation that another one begins is below it: either fewer calls may still be
made, or the same number and the expression is smaller.  There is no infinite descent.

The evaluations that an evaluation begins itself are found on the machine: they are the moments
where it is about to evaluate an expression and one frame waits.  What the bottom frame may still
evaluate are parts of the expression that was begun with (`Inside`), whatever is above it.
-/
import Mathlib.Order.WellFounded
import SmallLisp.Proofs.Eval.Calls

namespace SmallLisp

/-! ### Sizes

The bindings of a `let` are counted as the lists that they are.  The size only has to go down from an
expression to what is evaluated of it, so more may be counted than is evaluated.
-/

mutual

/-- How many nodes an expression has. -/
def Expr.size : Expr → Nat
  | .list head operands => 1 + head.size + sizeAll operands
  | .define _ _ body => 1 + body.size
  | .datum _ | .symbol _ | .operator _ | .keyword _ => 1

/-- How many nodes expressions have together. -/
def Expr.sizeAll : List Expr → Nat
  | [] => 0
  | e :: es => e.size + sizeAll es

end

namespace Expr

theorem size_le_of_mem {e : Expr} {es : List Expr} (h : e ∈ es) : e.size ≤ sizeAll es := by
  induction h with
  | head es => exact Nat.le_add_right _ _
  | tail e' _ ih => exact Nat.le_trans ih (Nat.le_add_left _ _)

theorem size_binding (b : Token × Expr) : b.2.size < (binding b).size := by
  simp only [binding, size, sizeAll]
  omega

theorem size_lt_of_mem_boundIn {e : Expr} {es : List Expr} (h : e ∈ boundIn es) :
    e.size < sizeAll es := by
  unfold boundIn at h
  split at h
  · obtain ⟨b, hb, hsome⟩ := List.mem_filterMap.mp h
    obtain ⟨b, hbinding, rfl⟩ := Option.map_eq_some_iff.mp hsome
    obtain rfl := Eval.binding?_eq_some_iff.mp hbinding
    have hpart := size_binding b
    have hall := size_le_of_mem hb
    simp only [sizeAll, size] at hall ⊢
    omega
  · cases h

/-- The parts of an expression are smaller than the expression. -/
theorem size_lt_of_mem_parts {e part : Expr} (h : part ∈ e.parts) : part.size < e.size := by
  unfold parts at h
  split at h
  · rw [size]
    obtain h | h := List.mem_append.mp h
    · obtain rfl | h := List.mem_cons.mp h
      · omega
      · have := size_le_of_mem h
        omega
    · have := size_lt_of_mem_boundIn h
      omega
  · cases h

end Expr

namespace Eval

open Machine

/-! ### What an evaluation begins

An evaluation begins another itself if a single frame waits for it.  What that frame may still evaluate are
parts of the expression, and this is an invariant of steps.
-/

/-- An evaluation that is begun: how many calls are active, and the expression, its scope and the
store. -/
structure Task where
  calls : Nat
  scope : ScopeId
  expr : Expr
  store : Store

/-- The machine that carries out a task. -/
def Task.machine (t : Task) : Machine :=
  ofExpr t.calls t.scope t.expr t.store

/-- Whether the evaluation of the one begins the other itself, not within a third. -/
def Task.Begins (limit : Nat) (t t' : Task) : Prop :=
  ∃ f, Steps (some limit) t.machine ⟨.evaluate t'.scope t'.expr, [f], t'.calls, t'.store⟩

namespace Machine

/-- Where an evaluation of an expression can be. -/
structure Inside (e : Expr) (m : Machine) : Prop where
  /-- With nothing that waits, it evaluates the expression itself. -/
  whole : m.stack = [] → ∀ scope e', m.control = .evaluate scope e' → e' = e
  /-- With one frame that waits, it evaluates a part, unless that is a call. -/
  part : ∀ f, m.stack = [f] → f.isBody = false → ∀ scope e', m.control = .evaluate scope e' →
    e' ∈ e.parts
  /-- What the bottom frame may still evaluate are parts. -/
  bottom : ∀ above f, m.stack = above ++ [f] → f.pending ⊆ e.parts

variable {limit? : Option Nat} {m m' : Machine} {e : Expr}

theorem inside_ofExpr (calls : Nat) (scope : ScopeId) (e : Expr) (s : Store) :
    Inside e (ofExpr calls scope e s) where
  whole _ scope' e' h := (Control.evaluate.inj h).2.symm
  part f h := by cases h
  bottom above f h := absurd h (by simp [ofExpr])

/-- Where an outcome is handed on, only the bottom frame counts. -/
theorem inside_yield {below : List Frame}
    (hbottom : ∀ above f, below = above ++ [f] → f.pending ⊆ e.parts)
    (outcome : Except EvalError Value) (calls : Nat) (s : Store) :
    Inside e ⟨.yield outcome, below, calls, s⟩ where
  whole _ _ _ h := by cases h
  part _ _ _ _ _ h := by cases h
  bottom := hbottom

/-- It stays inside, if no more may be evaluated than parts when nothing is left that waits. -/
theorem Inside.move {calls : Nat} {below : List Frame} {pending : List Expr}
    (hpending : below = [] → pending ⊆ e.parts)
    (hbottom : ∀ above f, below = above ++ [f] → f.pending ⊆ e.parts)
    (h : Move limit? m calls below pending m') : Inside e m' := by
  have hpushed (f : Frame) (hf : below = [] → f.pending ⊆ e.parts) (above : List Frame)
      (f' : Frame) (h : f :: below = above ++ [f']) : f'.pending ⊆ e.parts := by
    rcases above with _ | ⟨g, above⟩
    · obtain ⟨rfl, hnil⟩ := List.cons.inj h
      exact hf hnil
    · exact hbottom above f' (List.cons.inj h).2
  cases h with
  | value _ _ => exact inside_yield hbottom _ calls _
  | error _ _ => exact inside_yield hbottom _ calls _
  | ask f _ _ he hsub _ _ _ =>
      refine ⟨fun h => absurd h (List.cons_ne_nil _ _), fun f' h _ scope e' hcontrol => ?_,
        hpushed f fun hnil => ?_⟩
      · obtain ⟨-, rfl⟩ := Control.evaluate.inj hcontrol
        exact hpending (List.cons.inj h).2 he
      · exact List.Subset.trans hsub (hpending hnil)
  | enter _ _ _ _ =>
      refine ⟨fun h => absurd h (List.cons_ne_nil _ _), fun f' h hf => ?_,
        hpushed .body fun _ => List.nil_subset _⟩
      obtain ⟨rfl, -⟩ := List.cons.inj h
      cases hf

/-- **A step stays inside.** -/
theorem Inside.step (h : Inside e m) (hstep : m.step limit? = some m') : Inside e m' := by
  obtain ⟨scope, e', hcontrol, hmove⟩ | ⟨outcome, f, below, -, hstack, -, hmove⟩ |
    ⟨outcome, below, hcontrol, hstack, -, hm'⟩ := step_cases hstep
  · refine .move (fun hnil => ?_) h.bottom hmove
    rw [h.whole hnil scope e' hcontrol]
    exact List.Subset.refl _
  · refine .move (fun hnil => ?_) (fun above f' hbelow => ?_) hmove
    · exact h.bottom [] f (by rw [hstack, hnil, List.nil_append])
    · exact h.bottom (f :: above) f' (by rw [hstack, hbelow, List.cons_append])
  · rw [hm', hcontrol]
    refine inside_yield (fun above f hbelow => ?_) outcome _ _
    exact h.bottom (.body :: above) f (by rw [hstack, List.cons_append, ← hbelow])

theorem Inside.steps (h : Inside e m) (hsteps : Steps limit? m m') : Inside e m' := by
  induction hsteps with
  | refl => exact h
  | tail _ hstep ih => exact ih.step hstep

end Machine

/-! ### The descent

The order is lexicographic: first the calls that may still be made, then the size.  It is well-founded
because the limit bounds the calls, and a limit is all that is needed.
-/

namespace Task

variable {limit : Nat} {t t' : Task}

/-- Whether a task is below another one: fewer calls may still be made, or the same number and the
expression is smaller. -/
def Below (limit : Nat) (t' t : Task) : Prop :=
  limit - t'.calls < limit - t.calls ∨
    limit - t'.calls = limit - t.calls ∧ t'.expr.size < t.expr.size

theorem below_iff_lex : Below limit t' t ↔
    Prod.Lex (· < ·) (· < ·) (limit - t'.calls, t'.expr.size) (limit - t.calls, t.expr.size) := by
  rw [Prod.lex_def, Below]

theorem wellFounded_below (limit : Nat) : WellFounded (Below limit) := by
  have hlex : WellFounded (Prod.Lex (· < · : Nat → Nat → Prop) (· < · : Nat → Nat → Prop)) :=
    WellFounded.prod_lex wellFounded_lt wellFounded_lt
  refine Subrelation.wf ?_ (InvImage.wf (fun t => (limit - t.calls, t.expr.size)) hlex)
  exact fun h => below_iff_lex.mp h

/-- The evaluations that one begins itself are of its parts, or of a body with one more call. -/
theorem Begins.cases (h : t.Begins limit t') :
    t'.calls = t.calls ∧ t'.expr ∈ t.expr.parts ∨ t'.calls = t.calls + 1 := by
  obtain ⟨f, hsteps⟩ := h
  have hcalls : t'.calls = t.calls + active ⟨_, [f], _, _⟩ := hsteps.calls_eq (active_ofExpr ..)
  by_cases hf : f.isBody = true
  · refine .inr ?_
    simpa [active, hf] using hcalls
  · have hf : f.isBody = false := by simpa using hf
    refine .inl ⟨by simpa [active, hf] using hcalls, ?_⟩
    exact ((inside_ofExpr ..).steps hsteps).part f rfl hf t'.scope t'.expr rfl

theorem Begins.calls_le (h : t.Begins limit t') (hle : t.calls ≤ limit) : t'.calls ≤ limit :=
  h.choose_spec.calls_le hle

theorem Begins.below (h : t.Begins limit t') (hle : t.calls ≤ limit) : Below limit t' t := by
  have hle' := h.calls_le hle
  obtain ⟨hcalls, hpart⟩ | hcalls := h.cases
  · exact .inr ⟨by rw [hcalls], Expr.size_lt_of_mem_parts hpart⟩
  · exact .inl (by omega)

end Task

/-- **Every evaluation ends**, under every limit and whatever is in the store.  Steps lead from an
expression to a value or an error, and do not go on for ever; every evaluation that another one
begins is below it, and this is a well-founded recursion.  So forms and programs end as well. -/
theorem evaluation_ends (limit : Nat) :
    (∀ calls ≤ limit, ∀ scope e s,
      Steps (some limit) (ofExpr calls scope e s)
        (ended calls (inCalls limit (limit - calls) scope e s)) ∧
      ¬ (ofExpr calls scope e s).Diverges (some limit)) ∧
    (∀ t t' : Task, t.calls ≤ limit → t.Begins limit t' →
      t'.calls ≤ limit ∧ Task.Below limit t' t) ∧
    WellFounded (fun t' t : Task => t.calls ≤ limit ∧ t.Begins limit t') ∧
    (∀ calls ≤ limit, ∀ globals forms s,
      (∃ x, Steps (some limit) (ofForms calls globals forms s) (ended calls x)) ∧
      ¬ (ofForms calls globals forms s).Diverges (some limit)) ∧
    ∀ globals source s,
      (∀ calls ≤ limit, ∃ r s', RunsSource limit globals calls source s r calls s') ∧
      ∃ r s', RunsSource limit globals 0 source s r 0 s' ∧
        Interpreter.runSource ⟨globals, limit⟩ source s = (r, s') := by
  have hforms (calls : Nat) (hle : calls ≤ limit) (globals : ScopeId) (forms : List Expr)
      (s : Store) : ∃ x, Steps (some limit) (ofForms calls globals forms s) (ended calls x) :=
    ⟨_, steps_ofForms hle globals forms s⟩
  refine ⟨fun calls hle scope e s => ?_, fun t t' hle h => ⟨h.calls_le hle, h.below hle⟩, ?_,
    fun calls hle globals forms s => ?_, fun globals source s => ⟨fun calls hle => ?_, ?_⟩⟩
  · have hsteps := steps_ofExpr hle scope e s
    exact ⟨hsteps, hsteps.not_diverges (step_ended ..)⟩
  · exact Subrelation.wf (fun h => h.2.below h.1) (Task.wellFounded_below limit)
  · obtain ⟨x, hsteps⟩ := hforms calls hle globals forms s
    exact ⟨⟨x, hsteps⟩, hsteps.not_diverges (step_ended ..)⟩
  · rcases hread : readForms source with e | forms
    · exact ⟨_, _, .unread hread⟩
    · obtain ⟨⟨outcome, s'⟩, hsteps⟩ := hforms calls hle globals forms s
      exact ⟨_, _, .ran hread hsteps⟩
  · exact ⟨_, _, (runsSource_iff ⟨globals, limit⟩ source s _ _ 0).mpr ⟨rfl, rfl⟩, rfl⟩

/-- A function that calls itself, where one call is active and two may be.  The evaluation of its
body is below that of the call, and ends at the limit. -/
theorem evaluation_ends_self_call :
    let spin : Token := ⟨.symbol, "spin", none, 1⟩
    let call : Expr := .list (.symbol spin) []
    let s : Store := ⟨#[⟨[], [("spin", .function ⟨0, spin, [], call, 0⟩)]⟩], 1⟩
    let s' : Store := (s.newFrame 0 []).2
    Task.Begins 2 ⟨1, 0, call, s⟩ ⟨2, 1, call, s'⟩ ∧
      Task.Below 2 ⟨2, 1, call, s'⟩ ⟨1, 0, call, s⟩ ∧
      Steps (some 2) (ofExpr 1 0 call s) (ended 1 (.error (.callsTooDeep (some spin) 2), s')) ∧
      ¬ (ofExpr 1 0 call s).Diverges (some 2) ∧
      ¬ (ofForms 1 0 [call] s).Diverges (some 2) := by
  intro spin call s s'
  have hone : 1 ≤ 2 := by decide
  obtain ⟨hexpr, hbegins, -, hforms, -⟩ := evaluation_ends 2
  have hcalls : Task.Begins 2 ⟨1, 0, call, s⟩ ⟨2, 1, call, s'⟩ :=
    ⟨.body, .head rfl (.head rfl (.head rfl .refl))⟩
  obtain ⟨hsteps, hends⟩ := hexpr 1 hone 0 call s
  exact ⟨hcalls, (hbegins _ _ hone hcalls).2, hsteps, hends, (hforms 1 hone 0 [call] s).2⟩

end Eval

end SmallLisp
