/-
Interpreters that share their global scope.

An interpreter counts its active calls, and the count is kept from one program to the next.  That
does no harm: whatever way an evaluation ends, it leaves as many calls active as it has found.  On
the way there the counter is never below what it was at the beginning, and never above the limit
(`Balanced`).

So every program meets the counter at zero, whichever interpreter runs it and whatever this one has
run before.  Programs can be given to any number of interpreters with one limit and one global
scope: the outcomes are those of a single one that runs them all.
-/
import Mathlib.Logic.Function.Basic
import SmallLisp.Proofs.Eval.Calls

namespace SmallLisp

namespace Eval

open Machine

/-! ### The counter during an evaluation

What is known of single steps is put together for one evaluation, with the counter that it has found.
-/

/-- What holds of the counter at every moment of an evaluation that has begun with so many calls
active. -/
structure Machine.Balanced (limit start : Nat) (m : Machine) : Prop where
  start_le : start ≤ m.calls
  le_limit : m.calls ≤ limit
  /-- It goes up by one below the limit only, and down by one above the start only. -/
  next : ∀ m', m.step (some limit) = some m' → m'.calls = m.calls ∨
    m'.calls = m.calls + 1 ∧ m.calls < limit ∨ m.calls = m'.calls + 1 ∧ start < m.calls
  /-- Nothing stops the evaluation but its end, where the counter is back at the start. -/
  stops : m.step (some limit) = none → ∃ x, m = ended start x

theorem Machine.Steps.balanced {limit : Nat} {m m' : Machine} (h : Steps (some limit) m m')
    (hle : m.calls ≤ limit) (hactive : m.active = 0) : Balanced limit m.calls m' := by
  have hcalls := h.calls_eq hactive
  refine ⟨by omega, h.calls_le hle, fun m'' hstep => ?_, fun hend => ?_⟩
  · have hcalls' := Steps.calls_eq (h.tail hstep) hactive
    obtain hstay | ⟨hup, hroom⟩ | hdown := calls_of_step hstep
    · exact .inl hstay
    · exact .inr (.inl ⟨hup, reached?_eq_none_iff.mp hroom⟩)
    · exact .inr (.inr ⟨hdown, by omega⟩)
  · exact eq_ended_of_step_none hend hcalls

/-! ### Several interpreters

Each interpreter has a counter, and each run puts its counter back to zero.  So the counters never differ and
need not be told apart.
-/

/-- What it comes to if programs are run in order, each by the interpreter that is named with it:
the outcomes, the counters and the store. -/
inductive RunsAll {ι : Type} [DecidableEq ι] (limit : Nat) (globals : ScopeId) :
    (ι → Nat) → Store → List (ι × String) → List (Except Failure Value) → (ι → Nat) → Store →
      Prop where
  | done (counters : ι → Nat) (s : Store) : RunsAll limit globals counters s [] [] counters s
  | next {counters counters' : ι → Nat} {s s' s'' : Store} {k : ι} {source : String}
      {schedule : List (ι × String)} {r : Except Failure Value}
      {rs : List (Except Failure Value)} {calls : Nat}
      (h : RunsSource limit globals (counters k) source s r calls s')
      (hrest : RunsAll limit globals (Function.update counters k calls) s' schedule rs counters' s'') :
      RunsAll limit globals counters s ((k, source) :: schedule) (r :: rs) counters' s''

end Eval

/-- Runs programs in order. -/
def Interpreter.runSources (i : Interpreter) :
    List String → Store → List (Except Failure Value) × Store
  | [], s => ([], s)
  | source :: sources, s =>
    let (r, s) := i.runSource source s
    let (rs, s) := i.runSources sources s
    (r :: rs, s)

namespace Eval

open Machine

variable {ι : Type} [DecidableEq ι]

/-- Programs leave the counters of all interpreters at zero, and it does not matter which one has
run them. -/
theorem runsAll_iff (i : Interpreter) (schedule : List (ι × String)) (s s' : Store)
    (rs : List (Except Failure Value)) (counters : ι → Nat) :
    RunsAll i.maxCalls i.globals (fun _ => 0) s schedule rs counters s' ↔
      (counters = fun _ => 0) ∧ i.runSources (schedule.map Prod.snd) s = (rs, s') := by
  induction schedule generalizing s rs with
  | nil =>
      constructor
      · rintro ⟨⟩
        exact ⟨rfl, rfl⟩
      · rintro ⟨rfl, h⟩
        obtain ⟨rfl, rfl⟩ := Prod.mk.inj h
        exact .done _ s
  | cons p schedule ih =>
      obtain ⟨k, source⟩ := p
      have hzero : Function.update (fun _ : ι => 0) k 0 = fun _ => 0 := Function.update_eq_self k _
      constructor
      · rintro (_ | ⟨h, hrest⟩)
        obtain ⟨rfl, hrun⟩ := (runsSource_iff i source s _ _ _).mp h
        rw [hzero] at hrest
        obtain ⟨hcounters, hrest⟩ := (ih _ _).mp hrest
        refine ⟨hcounters, ?_⟩
        rw [List.map_cons, Interpreter.runSources, hrun]
        simp only [hrest]
      · rintro ⟨hcounters, h⟩
        obtain ⟨rfl, rfl⟩ := Prod.mk.inj h
        refine .next ((runsSource_iff i source s _ _ 0).mpr ⟨rfl, rfl⟩) ?_
        rw [hzero]
        exact (ih _ _).mpr ⟨hcounters, rfl⟩

/-- **The counter balances**, for values and errors alike.  Hence programs that are run in order have
the same outcomes and leave the same store, whatever number of interpreters with one limit and one
global scope they are given to. -/
theorem calls_balance (limit : Nat) :
    (∀ calls ≤ limit, ∀ scope e s,
      (∀ m, Steps (some limit) (ofExpr calls scope e s) m → Balanced limit calls m) ∧
      Steps (some limit) (ofExpr calls scope e s)
        (ended calls (inCalls limit (limit - calls) scope e s))) ∧
    ∀ (ι : Type) [DecidableEq ι] globals (schedule : List (ι × String)) s rs counters s',
      RunsAll limit globals (fun _ : ι => 0) s schedule rs counters s' ↔
        (counters = fun _ => 0) ∧
        Interpreter.runSources ⟨globals, limit⟩ (schedule.map Prod.snd) s = (rs, s') := by
  refine ⟨fun calls hle scope e s => ⟨fun m h => ?_, steps_ofExpr hle scope e s⟩, ?_⟩
  · exact h.balanced hle (active_ofExpr ..)
  · exact fun ι _ globals schedule s rs counters s' =>
      runsAll_iff ⟨globals, limit⟩ schedule s s' rs counters

/-- An error at the limit, with one call active at the beginning, and three programs for two
interpreters, of which the first makes a function that calls itself, the second calls it, and the
third names it. -/
theorem calls_balance_after_error :
    let spin : Token := ⟨.symbol, "spin", none, 1⟩
    let call : Expr := .list (.symbol spin) []
    let s : Store := ⟨#[⟨[], [("spin", .function ⟨0, spin, [], call, 0⟩)]⟩], 1⟩
    let s' : Store := (s.newFrame 0 []).2
    let fails : Machine := ⟨.yield (.error (.callsTooDeep (some spin) 2)), [.body], 2, s'⟩
    let sources := ["(define spin () (spin))", "(spin)", "nil"]
    let ran := Interpreter.runSources ⟨0, 2⟩ sources ⟨#[⟨[], []⟩], 0⟩
    Steps (some 2) (ofExpr 1 0 call s) fails ∧ Balanced 2 1 fails ∧
      RunsAll 2 0 (fun _ : Bool => 0) ⟨#[⟨[], []⟩], 0⟩
        [(true, sources[0]), (true, sources[1]), (false, sources[2])] ran.1 (fun _ => 0) ran.2 := by
  intro spin call s s' fails sources ran
  obtain ⟨hcounter, hshared⟩ := calls_balance 2
  have hfails : Steps (some 2) (ofExpr 1 0 call s) fails :=
    .head rfl (.head rfl (.head rfl (.head rfl (.head rfl (.head rfl .refl)))))
  exact ⟨hfails, (hcounter 1 (by decide) 0 call s).1 fails hfails,
    (hshared Bool 0 _ _ _ _ _).mpr ⟨rfl, rfl⟩⟩

end Eval

end SmallLisp
