/-
What the limit on active calls does.

A machine with a limit does what the machine without one does, step by step, until a body would be
entered where the limit is reached.  There it fails instead, and nothing in the language takes hold
of an error: it goes through every frame to the end.  So an evaluation without a limit that ends is
the evaluation under every limit that is no smaller than the largest number of calls it has active at
once, and under every smaller one the evaluation fails.  One that goes on for ever has no largest
number: as long as it stays below a limit it does what the machine with the limit does, and that
one ends.  So it fails under every limit.
-/
import Mathlib.Order.Bounds.Basic
import SmallLisp.Proofs.Eval.Calls

namespace SmallLisp

namespace Eval

namespace Machine

variable {limit : Nat} {m m₀ m₁ m' : Machine}

/-! ### One step with a limit and without

There is one place where a machine asks for the limit, the call of a function.  Everywhere else the step
is the same.
-/

/-- What a limit makes of a machine that goes on as another one without a limit: the same, or a
failure where the other one enters a body. -/
def Limited (limit : Nat) (m limited free : Machine) : Prop :=
  limited = free ∨ limit ≤ m.calls ∧ free.calls = m.calls + 1 ∧
    ∃ site, limited = m.yield (.error (.callsTooDeep site limit))

theorem limited_enter (m : Machine) (site : Option Token) (c : Closure) (vs : List Value) :
    Limited limit m (m.enter (some limit) site c vs) (m.enter none site c vs) := by
  unfold Machine.enter
  by_cases harity : vs.length = c.arity
  · simp only [if_pos harity, reached?_none]
    by_cases hle : limit ≤ m.calls
    · rw [reached?_of_le hle]
      exact .inr ⟨hle, rfl, site, rfl⟩
    · rw [reached?_eq_none_iff.mpr (Nat.lt_of_not_le hle)]
      exact .inl rfl
  · rw [if_neg harity, if_neg harity]
    exact .inl rfl

theorem limited_operands (m : Machine) (scope : ScopeId) (site : Option Token) (callee : Value)
    (before : List Value) (es : List Expr) :
    Limited limit m (m.operands (some limit) scope site callee before es)
      (m.operands none scope site callee before es) := by
  match es, callee with
  | [], .function c => exact limited_enter m site c before
  | [], .datum _ | [], .operator _ | _ :: _, _ => exact .inl rfl

theorem limited_settle (limit : Nat) (m : Machine) (f : Frame) (outcome : Except EvalError Value) :
    Limited limit m (m.settle (some limit) f outcome) (m.settle none f outcome) := by
  match f, outcome with
  | .head scope site es, .ok (.operator t) => exact limited_operands m scope site (.operator t) [] es
  | .head scope site es, .ok (.function c) => exact limited_operands m scope site (.function c) [] es
  | .operand scope site callee before after, .ok v =>
      exact limited_operands m scope site callee (before ++ [v]) after
  | .head _ _ _, .ok (.datum _) | .test _ _ _, .ok _ | .sequence _ _, .ok _
  | .conjunct _ _, .ok _ | .disjunct _ _, .ok _ | .negated, .ok _ | .assigned _ _, .ok _
  | .initialiser _ _ _ _ _, .ok _ | .body, .ok _ | .chosen, .ok _ | _, .error _ => exact .inl rfl

/-- **What a step does with a limit and without.**  If they differ, a body is entered without the
limit, and with the limit, which has been reached, there is an error. -/
theorem step_limited (limit : Nat) (m : Machine) :
    m.step (some limit) = m.step none ∨
      limit ≤ m.calls ∧ (∃ m', m.step none = some m' ∧ m'.calls = m.calls + 1) ∧
      ∃ site below, m.step (some limit) =
          some ⟨.yield (.error (.callsTooDeep site limit)), below, m.calls, m.store⟩ ∧
        below.countP Frame.isBody = m.active := by
  obtain ⟨control, stack, calls, s⟩ := m
  match control, stack with
  | .evaluate _ _, _ => exact .inl rfl
  | .yield _, [] => exact .inl rfl
  | .yield outcome, f :: below =>
      by_cases hf : f.isBody = true
      · obtain rfl := eq_body_of_isBody hf
        exact .inl rfl
      · have hf : f.isBody = false := by simpa using hf
        rw [step_yield_cons _ _ _ hf, step_yield_cons _ _ _ hf]
        obtain heq | ⟨hle, hcalls, site, heq⟩ :=
          limited_settle limit ⟨.yield outcome, below, calls, s⟩ f outcome
        · exact .inl (by rw [heq])
        · refine .inr ⟨hle, ⟨_, rfl, hcalls⟩, site, below, by rw [heq]; rfl, ?_⟩
          simp [active, hf]

/-! ### Errors

At the limit a call fails, and nothing catches an error.  So a run that is cut off is over.
-/

/-- An error goes through all frames, also through those of calls. -/
theorem steps_error (limit? : Option Nat) (e : EvalError) (stack : List Frame) (calls : Nat)
    (s : Store) :
    Steps limit? ⟨.yield (.error e), stack, calls + stack.countP Frame.isBody, s⟩
      (ended calls (.error e, s)) := by
  induction stack with
  | nil => exact .refl
  | cons f stack ih =>
      refine .head ?_ ih
      by_cases hf : f.isBody = true
      · obtain rfl := eq_body_of_isBody hf
        rw [List.countP_cons_of_pos rfl]
        rfl
      · have hf : f.isBody = false := by simpa using hf
        rw [step_yield_cons _ _ _ hf, List.countP_cons_of_neg (by simp [hf])]
        rfl

/-! ### Runs with a limit and without

Two runs from one machine are the same up to the first call that the limit refuses.  From the run without
a limit the other can be told, and conversely.
-/

/-- Whether a run with the limit fails because of it, where the run without goes past it. -/
structure CutOff (limit : Nat) (m : Machine) : Prop where
  fails : ∃ site s, Steps (some limit) m (ended m.calls (.error (.callsTooDeep site limit), s))
  past : ∃ m', Steps none m m' ∧ limit < m'.calls

theorem cutOff_of_step (hactive : m₀.active = 0) (hlimited : Steps (some limit) m₀ m)
    (hfree : Steps none m₀ m) (hne : m.step (some limit) ≠ m.step none) : CutOff limit m₀ := by
  obtain heq | ⟨hle, ⟨m', hstep, hcalls⟩, site, below, hfails, hbelow⟩ := step_limited limit m
  · exact absurd heq hne
  · have hm := hlimited.calls_eq hactive
    rw [hm, ← hbelow] at hfails
    exact ⟨⟨site, m.store, hlimited.trans (.head hfails (steps_error ..))⟩,
      ⟨m', hfree.tail hstep, by omega⟩⟩

/-- A run without a limit is a run with the limit, or cut off there. -/
theorem Steps.limited (limit : Nat) (hactive : m₀.active = 0) (h : Steps none m₀ m) :
    Steps (some limit) m₀ m ∨ CutOff limit m₀ := by
  induction h with
  | refl => exact .inl .refl
  | @tail m m' hfree hstep ih =>
      obtain hlimited | hcut := ih
      · by_cases heq : m.step (some limit) = m.step none
        · exact .inl (hlimited.tail (heq.trans hstep))
        · exact .inr (cutOff_of_step hactive hlimited hfree heq)
      · exact .inr hcut

/-- A run with a limit is a run without one, unless that is cut off. -/
theorem Steps.free (hactive : m₀.active = 0) (h : Steps (some limit) m₀ m) :
    Steps none m₀ m ∨ CutOff limit m₀ := by
  induction h with
  | refl => exact .inl .refl
  | @tail m m' hlimited hstep ih =>
      obtain hfree | hcut := ih
      · by_cases heq : m.step (some limit) = m.step none
        · exact .inl (hfree.tail (heq.symm.trans hstep))
        · exact .inr (cutOff_of_step hactive hlimited hfree heq)
      · exact .inr hcut

/-! ### The largest number of active calls

How many calls a run needs is a property of the run without a limit.  If the numbers have a greatest one
it is the threshold; if they have none, the run has infinitely many machines and does not end.
-/

/-- Whether so many calls are active at once, and never more, in the run without a limit. -/
def Peak (m : Machine) (most : Nat) : Prop :=
  IsGreatest {n | ∃ m', Steps none m m' ∧ m'.active = n} most

theorem exists_peak (h : Steps none m m') (hend : m'.step none = none) : ∃ most, m.Peak most := by
  induction h using Relation.ReflTransGen.head_induction_on with
  | refl =>
      refine ⟨m'.active, ⟨m', .refl, rfl⟩, ?_⟩
      rintro _ ⟨m'', h, rfl⟩
      rw [h.eq_of_step_none hend]
  | @head m m₁ hstep _ ih =>
      obtain ⟨most, hpeak⟩ := ih
      refine ⟨max m.active most, ?_⟩
      have hset : {n | ∃ m', Steps none m m' ∧ m'.active = n} =
          insert m.active {n | ∃ m', Steps none m₁ m' ∧ m'.active = n} := by
        ext n
        constructor
        · rintro ⟨m', h, rfl⟩
          obtain rfl | ⟨m₂, hstep', h⟩ := Relation.ReflTransGen.cases_head h
          · exact .inl rfl
          · rw [hstep] at hstep'
            obtain rfl := Option.some_inj.mp hstep'
            exact .inr ⟨m', h, rfl⟩
        · rintro (rfl | ⟨m', h, rfl⟩)
          · exact ⟨m, .refl, rfl⟩
          · exact ⟨m', .head hstep h, rfl⟩
      rw [Peak, hset]
      exact hpeak.insert _

/-- If there is no largest number of active calls, steps go on for ever. -/
theorem diverges_of_unbounded (h : ∀ n, ∃ m', Steps none m m' ∧ n < m'.active) :
    m.Diverges none := by
  obtain ⟨m', hsteps, hend⟩ | hdiverges := ends_or_diverges none m
  · obtain ⟨most, hpeak⟩ := exists_peak hsteps hend
    obtain ⟨m'', hsteps'', hmore⟩ := h most
    have := hpeak.2 ⟨m'', hsteps'', rfl⟩
    omega
  · exact hdiverges

/-! ### A function that calls itself

An example of a run without an end.  The function and the scope of each call look alike, so one turn is
enough and the rest is by induction on the number of calls.
-/

/-- Whether a name is that of a function in the outermost scope that does nothing but call itself. -/
structure CallsItself (name : Token) (c : Closure) (s : Store) : Prop where
  exists_scope : 0 < s.scopes.size
  outer_eq : s.outer 0 = []
  value?_eq : s.value? 0 name.lexeme = some (.function c)
  params_eq : c.params = []
  scope_eq : c.scope = 0
  body_eq : c.body = .list (.symbol name) []

variable {name : Token} {c : Closure} {s : Store}

theorem CallsItself.lookup_eq (h : CallsItself name c s) :
    s.lookup 0 name.lexeme = some (.function c) := by
  rw [Store.lookup_eq, Store.chain_eq, h.outer_eq, List.findSome?_cons, h.value?_eq]

/-- The scope of a call shows the function, and the function is as it was. -/
theorem CallsItself.newFrame (h : CallsItself name c s) :
    CallsItself name c (s.newFrame 0 []).2 ∧
      (s.newFrame 0 []).2.lookup s.scopes.size name.lexeme = some (.function c) := by
  have hne : 0 ≠ s.scopes.size := Nat.ne_of_lt h.exists_scope
  have hsame : CallsItself name c (s.newFrame 0 []).2 :=
    { h with
      exists_scope := by simp
      outer_eq := by rw [Store.outer_newFrame_of_ne s 0 [] hne, h.outer_eq]
      value?_eq := by rw [Store.value?_newFrame_of_ne s 0 [] hne, h.value?_eq] }
  refine ⟨hsame, ?_⟩
  rw [Store.lookup_eq, Store.chain_eq, Store.outer_newFrame, Store.chain_eq, h.outer_eq,
    List.findSome?_cons, Store.value?_newFrame, List.reverse_nil, List.lookup_nil]
  simp only [List.findSome?_cons, hsame.value?_eq]

/-- Each call leads to the next, with one more active. -/
theorem CallsItself.steps_call (h : CallsItself name c s) {i : ScopeId}
    (hlookup : s.lookup i name.lexeme = some (.function c)) (stack : List Frame) (calls : Nat) :
    Steps none ⟨.evaluate i (.list (.symbol name) []), stack, calls, s⟩
      ⟨.evaluate s.scopes.size (.list (.symbol name) []), .body :: stack, calls + 1,
        (s.newFrame 0 []).2⟩ := by
  let waits : List Frame := .head i (some name) [] :: stack
  have hvalue : Machine.step none ⟨.evaluate i (.symbol name), waits, calls, s⟩ =
      some ⟨.yield (.ok (.function c)), waits, calls, s⟩ := by
    show some (Machine.perform _ (valueOf i name)) = _
    rw [perform, valueOf_apply, hlookup]
  have henter : Machine.step none ⟨.yield (.ok (.function c)), waits, calls, s⟩ =
      some ⟨.evaluate s.scopes.size (.list (.symbol name) []), .body :: stack, calls + 1,
        (s.newFrame 0 []).2⟩ := by
    obtain ⟨identity, name', params, body, scope⟩ := c
    obtain rfl : params = [] := h.params_eq
    obtain rfl : scope = 0 := h.scope_eq
    obtain rfl : body = .list (.symbol name) [] := h.body_eq
    rfl
  exact .head rfl (.head hvalue (.single henter))

theorem CallsItself.climbs (h : CallsItself name c s) {i : ScopeId}
    (hlookup : s.lookup i name.lexeme = some (.function c)) (stack : List Frame) (calls n : Nat) :
    ∃ m', Steps none ⟨.evaluate i (.list (.symbol name) []), stack, calls, s⟩ m' ∧
      n + stack.countP Frame.isBody ≤ m'.active := by
  induction n generalizing i stack calls s with
  | zero => exact ⟨_, .refl, Nat.le_of_eq (Nat.zero_add _)⟩
  | succ n ih =>
      obtain ⟨hnext, hlookup'⟩ := h.newFrame
      obtain ⟨m', hsteps, hactive⟩ := ih hnext hlookup' (.body :: stack) (calls + 1)
      refine ⟨m', (h.steps_call hlookup stack calls).trans hsteps, ?_⟩
      rw [List.countP_cons_of_pos rfl] at hactive
      omega

theorem CallsItself.diverges (h : CallsItself name c s) :
    (ofForms 0 0 [.list (.symbol name) []] s).Diverges none := by
  refine diverges_of_unbounded fun n => ?_
  obtain ⟨m', hsteps, hactive⟩ := h.climbs h.lookup_eq [.sequence 0 []] 0 (n + 1)
  exact ⟨m', hsteps, by omega⟩

end Machine

/-! ### Forms -/

open Machine

/-- Whether an outcome is the failure at a limit. -/
def TooDeep (limit : Nat) (x : Except EvalError Value × Store) : Prop :=
  ∃ site, x.1 = .error (.callsTooDeep site limit)

theorem tooDeep_run {globals : ScopeId} {limit : Nat} {forms : List Expr} {s : Store}
    (h : CutOff limit (ofForms 0 globals forms s)) :
    TooDeep limit (Interpreter.run ⟨globals, limit⟩ forms s) := by
  obtain ⟨site, s', hsteps⟩ := h.fails
  rw [calls_ofForms] at hsteps
  obtain ⟨-, hrun⟩ := ended_inj (steps_run ⟨globals, limit⟩ forms s) hsteps
  exact ⟨site, congrArg Prod.fst hrun⟩

section

variable {globals : ScopeId} {forms : List Expr} {s : Store}

theorem calls_eq_active {m : Machine} (h : Steps none (ofForms 0 globals forms s) m) :
    m.calls = m.active := by
  rw [h.calls_eq (active_ofForms ..), calls_ofForms, Nat.zero_add]

/-- Forms come to an outcome without a limit or go on for ever. -/
theorem exists_ended_or_diverges (globals : ScopeId) (forms : List Expr) (s : Store) :
    (∃ x, Steps none (ofForms 0 globals forms s) (ended 0 x)) ∨
      (ofForms 0 globals forms s).Diverges none := by
  obtain ⟨m, hsteps, hend⟩ | h := ends_or_diverges none (ofForms 0 globals forms s)
  · have hcalls := (calls_eq_active hsteps).trans (Nat.zero_add m.active).symm
    obtain ⟨x, rfl⟩ := eq_ended_of_step_none hend hcalls
    exact .inl ⟨x, hsteps⟩
  · exact .inr h

/-- Where no more calls are active than the limit allows, it does not show. -/
theorem run_eq_of_peak_le {x : Except EvalError Value × Store} {most limit : Nat}
    (hx : Steps none (ofForms 0 globals forms s) (ended 0 x))
    (hpeak : (ofForms 0 globals forms s).Peak most) (hle : most ≤ limit) :
    Interpreter.run ⟨globals, limit⟩ forms s = x := by
  obtain hlimited | ⟨-, m, hm, hpast⟩ := hx.limited limit (active_ofForms ..)
  · exact (ended_inj (steps_run ⟨globals, limit⟩ forms s) hlimited).2
  · have := hpeak.2 ⟨m, hm, rfl⟩
    rw [calls_eq_active hm] at hpast
    omega

/-- Where more calls are active than the limit allows, it is met. -/
theorem tooDeep_of_lt_peak {most limit : Nat} (hpeak : (ofForms 0 globals forms s).Peak most)
    (hlt : limit < most) : TooDeep limit (Interpreter.run ⟨globals, limit⟩ forms s) := by
  obtain ⟨m, hm, hmost⟩ := hpeak.1
  obtain hlimited | hcut := hm.limited limit (active_ofForms ..)
  · -- The run with the limit cannot get to where the most calls are active.
    have hle := hlimited.calls_le (by rw [calls_ofForms]; exact Nat.zero_le _)
    rw [calls_eq_active hm] at hle
    omega
  · exact tooDeep_run hcut

theorem tooDeep_of_diverges (h : (ofForms 0 globals forms s).Diverges none) (limit : Nat) :
    TooDeep limit (Interpreter.run ⟨globals, limit⟩ forms s) := by
  obtain hfree | hcut := (steps_run ⟨globals, limit⟩ forms s).free (active_ofForms ..)
  · exact absurd h (hfree.not_diverges (step_ended ..))
  · exact tooDeep_run hcut

end

/-- **The limit is an exact threshold, and else it does not show.**  If forms come to an outcome
without a limit, it is their outcome under every limit that is not below the largest number of calls
active at once, and under every one that is below they fail at the limit.  If they go on for ever
without a limit, they fail at every limit.  So a higher limit changes no other outcome. -/
theorem limit_exact (globals : ScopeId) (forms : List Expr) (s : Store) :
    let free := ofForms 0 globals forms s
    let run (limit : Nat) := Interpreter.run ⟨globals, limit⟩ forms s
    ((∃ x, Steps none free (ended 0 x)) ∨ free.Diverges none) ∧
    (∀ x, Steps none free (ended 0 x) → ∃ most, free.Peak most ∧
      (∀ limit, most ≤ limit → run limit = x) ∧ ∀ limit < most, TooDeep limit (run limit)) ∧
    (free.Diverges none → ∀ limit, TooDeep limit (run limit)) ∧
    ∀ limit limit', limit ≤ limit' → ¬ TooDeep limit (run limit) → run limit' = run limit := by
  intro free run
  have hends := exists_ended_or_diverges globals forms s
  refine ⟨hends, fun x hx => ?_, tooDeep_of_diverges, fun limit limit' hle hrun => ?_⟩
  · obtain ⟨most, hpeak⟩ := exists_peak hx (step_ended ..)
    exact ⟨most, hpeak, fun limit => run_eq_of_peak_le hx hpeak,
      fun limit => tooDeep_of_lt_peak hpeak⟩
  · obtain ⟨x, hx⟩ | h := hends
    · obtain ⟨most, hpeak⟩ := exists_peak hx (step_ended ..)
      have hmost : most ≤ limit :=
        Nat.le_of_not_lt fun hlt => hrun (tooDeep_of_lt_peak hpeak hlt)
      exact (run_eq_of_peak_le hx hpeak (hmost.trans hle)).trans
        (run_eq_of_peak_le hx hpeak hmost).symm
    · exact absurd (tooDeep_of_diverges h limit) hrun

/-- A function that does not call is called: one call is needed and enough.  A function that calls
itself is called: no limit is enough. -/
theorem limit_exact_one_call_and_no_end :
    let f : Token := ⟨.symbol, "f", none, 1⟩
    let call : Expr := .list (.symbol f) []
    let s : Store := ⟨#[⟨[], []⟩], 0⟩
    let forms : List Expr := [.define f [] (.datum .nil), call]
    let run (limit : Nat) := Interpreter.run ⟨0, limit⟩ forms s
    let spins : Store := ⟨#[⟨[], [("f", .function ⟨0, f, [], call, 0⟩)]⟩], 1⟩
    (Steps none (ofForms 0 0 forms s) (ended 0 (run 1)) ∧ (run 1).1 = .ok .nil ∧
      (∀ limit, 1 ≤ limit → run limit = run 1) ∧ TooDeep 0 (run 0)) ∧
    (ofForms 0 0 [call] spins).Diverges none ∧
      ∀ limit, TooDeep limit (Interpreter.run ⟨0, limit⟩ [call] spins) := by
  intro f call s forms run spins
  have hdeep : ¬ TooDeep 1 (run 1) := by rintro ⟨site, ⟨⟩⟩
  have hends : Steps none (ofForms 0 0 forms s) (ended 0 (run 1)) :=
    .head rfl (.head rfl (.head rfl (.head rfl (.head rfl (.head rfl (.head rfl (.head rfl
      .refl)))))))
  obtain ⟨-, hthreshold, -, hraise⟩ := limit_exact 0 forms s
  obtain ⟨most, -, habove, hbelow⟩ := hthreshold (run 1) hends
  have hzero : 0 < most := by
    by_contra hle
    have hrun := habove 0 (by omega)
    cases hrun
  have hdiverges : (ofForms 0 0 [call] spins).Diverges none :=
    CallsItself.diverges (c := ⟨0, f, [], call, 0⟩) ⟨Nat.one_pos, rfl, rfl, rfl, rfl, rfl⟩
  exact ⟨⟨hends, rfl, fun limit hle => hraise 1 limit hle hdeep, hbelow 0 hzero⟩, hdiverges,
    (limit_exact 0 [call] spins).2.2.1 hdiverges⟩

end Eval

end SmallLisp
