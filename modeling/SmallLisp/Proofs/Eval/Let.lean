/-
A `let` is the call of a function.

The values are computed outside, the names are bound in a new scope, the body is evaluated there: a
`let` does what a call does with a function that is made in place and has the names for its parameters.
A call counts, though, so it needs one more call to be allowed, and then it says so where too many are
active.

The values of a call are all there when its scope is made.  A `let` makes its scope first and binds each
name as soon as it has a value.  Meanwhile the scopes that are made on the way get other numbers, and the
scope of the `let` is half filled, but nothing leads to it: the expressions are evaluated outside.
`fills_of_inStep` follows the two ways of computing the values in step, and `Store.InStep.enter` says that
they have caught up once all names are bound.  From there on the bodies are evaluated in step.
-/
import SmallLisp.Proofs.Eval.Correspondence
import SmallLisp.Proofs.Eval.Forms
import SmallLisp.Proofs.Store.Moved

namespace SmallLisp

/-- The error under another limit. -/
def EvalError.atLimit (limit : Nat) : EvalError → EvalError
  | callsTooDeep site _ => callsTooDeep site limit
  | e => e

namespace Eval

open SmallLisp.Expr (binding letIn)
open Store (InStep Moved OthersKept early settled)

/-! ### Outcomes up to scopes and limits

The limit shows in one message and nowhere else, so outcomes under two limits are compared under a third
one, whichever it is.
-/

/-- Whether an outcome is another one with other numbers for the scopes, and perhaps with another limit
in a message. -/
def SameOutcome (ρ : ScopeId → ScopeId) (x y : Except EvalError Value) : Prop :=
  ∀ n, y.mapError (EvalError.atLimit n) =
    (x.map (Value.moved ρ)).mapError (EvalError.atLimit n)

/-- Whether an outcome is that too many calls were active. -/
def HitsLimit (x : Except EvalError Value) : Prop :=
  ∃ site limit, x = .error (.callsTooDeep site limit)

theorem hitsLimit_atLimit (n : Nat) (x : Except EvalError Value) :
    HitsLimit (x.mapError (EvalError.atLimit n)) ↔ HitsLimit x := by
  constructor
  · rintro ⟨site, limit, h⟩
    cases x with
    | ok v => cases h
    | error e =>
        cases e with
        | callsTooDeep site' limit' => exact ⟨site', limit', rfl⟩
        | _ => cases h
  · rintro ⟨site, limit, rfl⟩
    exact ⟨site, n, rfl⟩

theorem hitsLimit_map (f : Value → Value) (x : Except EvalError Value) :
    HitsLimit (x.map f) ↔ HitsLimit x := by
  cases x with
  | ok v => exact iff_of_false (by rintro ⟨_, _, ⟨⟩⟩) (by rintro ⟨_, _, ⟨⟩⟩)
  | error e => exact .rfl

/-- One hits the limit exactly if the other does. -/
theorem SameOutcome.hitsLimit_iff {ρ : ScopeId → ScopeId} {x y : Except EvalError Value}
    (h : SameOutcome ρ x y) : HitsLimit x ↔ HitsLimit y := by
  rw [← hitsLimit_atLimit 0 y, h 0, hitsLimit_atLimit, hitsLimit_map]

/-! ### In step

Two evaluations that differ in the numbers of scopes make new ones at once and so stay in step.  What the
translation does not lead to is left alone by the second of them.
-/

section

variable {ρ : ScopeId → ScopeId} {s t t₀ : Store}

/-- Stores in step of which the second one has kept its scopes besides, with the places and the
functions that the translation takes to each other.  Limits may differ. -/
def moving (ρ : ScopeId → ScopeId) (t₀ : Store) : Correspondence where
  toRecasting := .same fun _ _ => True
  stores s t := InStep ρ s t ∧ OthersKept ρ t₀ t
  places s _ i j _ := j = ρ i ∧ i < s.scopes.size
  inners s _ i j := j = ρ i ∧ i < s.scopes.size
  closures s _ c d := d = c.moved ρ ∧ s.OwnsClosure c

theorem alike_moving {v w : Value} :
    (moving ρ t₀).Alike s t v w ↔ w = v.moved ρ ∧ s.Owns v :=
  Value.alike_iff Iff.rfl

theorem alikes_moving {vs ws : List Value} :
    (moving ρ t₀).Alikes s t vs ws ↔ ws = vs.map (Value.moved ρ) ∧ ∀ v ∈ vs, s.Owns v :=
  Value.alikes_iff Iff.rfl

theorem lawful_moving (hρ : Function.Injective ρ) : (moving ρ t₀).Lawful where
  closures_later hs _ hc := ⟨hc.1, hc.2.later hs⟩
  places_later hs _ hplace := ⟨hplace.1, Nat.lt_of_lt_of_le hplace.2 hs.size_le⟩
  inners_later hs _ hinner := ⟨hinner.1, Nat.lt_of_lt_of_le hinner.2 hs.size_le⟩
  places_list _ hplace := ⟨hplace, fun _ _ => hplace⟩
  places_bindings _ hplace := hplace
  closures_params hc := Recasting.names_same_iff.mpr (by rw [hc.1, Closure.moved])
  closures_body hc := (Recasting.sameExpr_same_iff _ _).mpr (by rw [hc.1, Closure.moved])
  closures_identity hc hc' := by rw [hc.1, hc'.1, Closure.moved, Closure.moved]
  lookup {s t i j name name'} h hplace hname := by
    obtain ⟨rfl, hi⟩ := hplace
    obtain rfl : name' = name := hname
    rw [h.1.lookup_eq hi]
    cases hlookup : s.lookup i name'.lexeme with
    | none => exact .none
    | some v => exact .some (alike_moving.mpr ⟨rfl, h.1.wellFormed.lookup hlookup⟩)
  assign {s t i j name name' v w} h hplace hname hvalue := by
    obtain ⟨rfl, hi⟩ := hplace
    obtain rfl : name' = name := hname
    obtain ⟨rfl, hv⟩ := alike_moving.mp hvalue
    unfold Store.assign?
    rw [h.1.resolve_eq hi]
    cases hresolve : s.resolve i name'.lexeme with
    | none => exact .none
    | some k =>
        have hk : k ∈ s.chain i := List.mem_of_find?_eq_some hresolve
        exact .some ⟨h.1.define hρ (Nat.lt_of_le_of_lt (h.1.wellFormed.le_of_mem_chain hk) hi) hv _,
          h.2.trans (Store.othersKept_define t k _ _)⟩
  define {s t i j name name' params params' body body'} h hplace hsame := by
    obtain ⟨rfl, hi⟩ := hplace
    cases (Recasting.sameExpr_same_iff _ _).mp hsame
    exact ⟨h.1.withFunction hρ hi name params body,
      h.2.trans (Store.othersKept_define t.newFunction.2 i _ _)⟩
  enter {s t c d vs ws} h hc hvalues := by
    obtain ⟨rfl, hc⟩ := hc
    obtain ⟨rfl, hvs⟩ := alikes_moving.mp hvalues
    exact ⟨⟨h.1.newFrame hc.1 hvs _, h.2.trans (Store.othersKept_newFrame h.1 _ _)⟩,
      h.1.size_eq.symm, Store.lt_size_newFrame s _ _⟩
  bind {s t i j k bindings body} h _ hplace := by
    obtain ⟨rfl, hi⟩ := hplace
    have hmade : s.scopes.size < (s.newChild i).2.scopes.size := Store.lt_size_newFrame s i []
    exact ⟨⟨h.1.newFrame hi (List.forall_mem_nil _) [],
      h.2.trans (Store.othersKept_newFrame h.1 _ [])⟩, ⟨h.1.size_eq.symm, hmade⟩,
      fun _ _ => ⟨h.1.size_eq.symm, hmade⟩⟩
  fill {s t i j name name' v w} h hinner hname hvalue := by
    obtain ⟨rfl, hi⟩ := hinner
    obtain rfl : name' = name := hname
    obtain ⟨rfl, hv⟩ := alike_moving.mp hvalue
    exact ⟨h.1.define hρ hi hv _, h.2.trans (Store.othersKept_define t i _ _)⟩

/-- Errors are the same but for the limit in a message. -/
theorem atLimit_of_sameError {e e' : EvalError} (h : (moving ρ t₀).SameError e e') (n : Nat) :
    e'.atLimit n = e.atLimit n := by
  obtain rfl | ⟨site, l, l', -, rfl, rfl⟩ := Recasting.SameError.eq_or h
  · rfl
  · rfl

end

/-! ### A scope that is filled while the values are computed

On the left the values are only computed.  On the right a scope is there from the beginning that nothing
on the left goes to, and each value is given to its name at once.
-/

/-- What is known once names have got their values: the stores are in step, and the scope has what a
frame for the values has, and what it had before. -/
structure Filled (ρ : ScopeId → ScopeId) (inner : ScopeId) (names : List Token) (vs : List Value)
    (s s' t t' : Store) : Prop where
  later : s.Extends s'
  inStep : InStep ρ s' t'
  owns : ∀ v ∈ vs, s'.Owns v
  outer_eq : t'.outer inner = t.outer inner
  value?_eq : ∀ name, t'.value? inner name =
    (((names.map Token.lexeme).zip (vs.map (Value.moved ρ))).reverse.lookup name).or
      (t.value? inner name)

/-- What computing values and filling a scope with them come to: all have a value, or one fails. -/
inductive Fills (ρ : ScopeId → ScopeId) (inner : ScopeId) (names : List Token) (s t : Store) :
    Except EvalError (List Value) × Store → Except EvalError Unit × Store → Prop where
  | ok {vs : List Value} {s' t' : Store} (hlength : vs.length = names.length)
      (h : Filled ρ inner names vs s s' t t') : Fills ρ inner names s t (.ok vs, s') (.ok (), t')
  | error {e e' : EvalError} {s' t' : Store} (he : ∀ n, e'.atLimit n = e.atLimit n)
      (hlater : s.Extends s') (h : InStep ρ s' t') :
      Fills ρ inner names s t (.error e, s') (.error e', t')

variable {limit remaining : Nat} {i inner : ScopeId} {k : Token} {s s' t t' : Store}
  {ρ : ScopeId → ScopeId}

/-- One more name has got its value, before the others. -/
theorem Filled.cons {name : Token} {names : List Token} {v : Value} {vs : List Value}
    {s₁ t₁ : Store} (hinner : ∀ j, ρ j ≠ inner) (hmade : inner < t₁.scopes.size)
    (hs : s.Extends s₁) (hv : s₁.Owns v) (hkept : OthersKept ρ t t₁)
    (h : Filled ρ inner names vs s₁ s' (t₁.define inner name.lexeme (v.moved ρ)) t') :
    Filled ρ inner (name :: names) (v :: vs) s s' t t' := by
  have hsame : t₁.scope inner = t.scope inner := hkept inner hinner
  refine ⟨hs.trans h.later, h.inStep, ?_, ?_, fun x => ?_⟩
  · exact List.forall_mem_cons.mpr ⟨hv.later h.later, h.owns⟩
  · rw [h.outer_eq, Store.outer_define, Store.outer, hsame, Store.outer]
  · rw [h.value?_eq, Store.value?_define, List.map_cons, List.map_cons, List.zip_cons_cons,
      List.reverse_cons, List.lookup_append]
    have hbefore : t₁.value? inner x = t.value? inner x := by
      rw [Store.value?, hsame, Store.value?]
    by_cases hx : x = name.lexeme
    · simp [hx, hmade]
    · simp [hx, List.lookup_cons, beq_false_of_ne hx, hbefore]

/-- Values are computed in step, whether their names get them at once or not. -/
theorem fills_of_inStep (hρ : Function.Injective ρ) (hinner : ∀ j, ρ j ≠ inner) (hfixed : ρ i = i)
    (bs : List (Token × Expr)) (h : InStep ρ s t) (hi : i < s.scopes.size)
    (hmade : inner < t.scopes.size) :
    Fills ρ inner (bs.map Prod.fst) s t
      (evaluateAll limit (bodies limit remaining) i (bs.map Prod.snd) s)
      (fillAll limit (bodies limit remaining) i k inner (bs.map binding) t) := by
  induction bs generalizing s t with
  | nil => exact .ok rfl ⟨.refl s, h, by simp, rfl, fun _ => rfl⟩
  | cons b bs ih =>
      have hagree : (moving ρ t).Agree (moving ρ t).Alike s t (inCalls limit remaining i b.2 s)
          (inCalls limit remaining i b.2 t) :=
        Correspondence.agree_inCalls (lawful_moving hρ) trivial remaining ⟨h, .refl t⟩
          ((Recasting.sameExpr_same_iff b.2 b.2).mpr rfl) ⟨hfixed.symm, hi⟩
      rw [List.map_cons, List.map_cons, evaluateAll, fillAll_binding_apply, bind_apply,
        ← inCalls_eq]
      revert hagree
      rcases inCalls limit remaining i b.2 s with ⟨e | v, s₁⟩ <;>
        rcases inCalls limit remaining i b.2 t with ⟨e' | w, t₁⟩ <;>
        rintro ⟨hs, ht, ⟨hstep, hkept⟩, houtcome⟩ <;> cases houtcome
      · rename_i herror
        exact .error (atLimit_of_sameError herror) hs hstep
      · rename_i hvalue
        obtain ⟨rfl, hv⟩ := alike_moving.mp hvalue
        have hmade₁ : inner < t₁.scopes.size := Nat.lt_of_lt_of_le hmade ht.size_le
        have hrest := ih (hstep.define_other hinner b.1.lexeme (v.moved ρ))
          (Nat.lt_of_lt_of_le hi hs.size_le) (by rw [Store.size_define]; exact hmade₁)
        simp only [bind_apply]
        revert hrest
        rcases evaluateAll limit (bodies limit remaining) i (bs.map Prod.snd) s₁ with ⟨x, s₂⟩
        rcases fillAll limit (bodies limit remaining) i k inner (bs.map binding)
          (t₁.define inner b.1.lexeme (v.moved ρ)) with ⟨y, t₂⟩
        intro hrest
        cases hrest with
        | error he hlater h => exact .error he (hs.trans hlater) h
        | ok hlength h => exact .ok (congrArg (· + 1) hlength) (h.cons hinner hmade₁ hs hv hkept)

/-- The scope that was made first and has been filled is the one that a call makes last. -/
theorem Filled.enter {names : List Token} {vs : List Value} (hi : i < s.scopes.size)
    (h : Filled (early s.scopes.size) s.scopes.size names vs s s' (s.newChild i).2 t') :
    InStep (settled s.scopes.size s'.scopes.size)
      (s'.newFrame i ((names.map Token.lexeme).zip vs)).2 t' := by
  have hscope : (s.newChild i).2.scope s.scopes.size = ⟨s.chain i, []⟩ := by
    rw [Store.newChild, Store.scope_newScope, if_pos rfl]
  refine h.inStep.enter hi h.later.size_le h.owns ?_ fun name => ?_
  · rw [h.outer_eq, Store.outer, hscope, Store.chain_later h.later hi]
  · rw [h.value?_eq, Store.value?, hscope, Bindings.get?_nil, Option.or_none]

/-! ### The two evaluations

A call makes its scope after the scopes that the values have needed, a `let` before them.  So the
translation that was right for the values is settled for the body: the scope of the call goes to the one
that was made first.
-/

/-- Whether two outcomes with the stores that they leave are the same up to the numbers of scopes and the
limit in a message, where the scopes of an earlier store have kept their numbers. -/
structure SameUnder (ρ : ScopeId → ScopeId) (s : Store) (x y : Except EvalError Value × Store) :
    Prop where
  injective : Function.Injective ρ
  fixed : ∀ j < s.scopes.size, ρ j = j
  stores : Moved ρ x.2 y.2
  outcome : SameOutcome ρ x.1 y.1

/-- Bodies are evaluated in step, under whatever limits. -/
theorem sequence_inStep (limit limit' remaining : Nat) (hρ : Function.Injective ρ)
    (h : InStep ρ s t) (hi : i < s.scopes.size) (body : List Expr) :
    let x := sequence limit (bodies limit remaining) i .nil body s
    let y := sequence limit' (bodies limit' remaining) (ρ i) .nil body t
    s.Extends x.2 ∧ InStep ρ x.2 y.2 ∧ SameOutcome ρ x.1 y.1 := by
  intro x y
  have hR : (moving ρ t).Lawful := lawful_moving hρ
  have hlimit : (moving ρ t).limit limit limit' := trivial
  have hagree : (moving ρ t).Agree (moving ρ t).Alike s t x y :=
    Correspondence.agree_sequence hR hlimit (Correspondence.agree_bodies hR hlimit remaining)
      ⟨h, .refl t⟩ (.datum .nil) body ((Recasting.sameExprs_same_iff body body).mpr rfl)
      fun _ _ => ⟨rfl, hi⟩
  clear_value x y
  obtain ⟨x, s'⟩ := x
  obtain ⟨y, t'⟩ := y
  obtain ⟨hlater, -, ⟨hstep, -⟩, houtcome⟩ := hagree
  refine ⟨hlater, hstep, fun n => ?_⟩
  cases houtcome with
  | error herror => exact congrArg Except.error (atLimit_of_sameError herror n)
  | ok hvalue =>
      obtain ⟨rfl, -⟩ := alike_moving.mp hvalue
      rfl

/-- A call of a function whose body is a `begin` evaluates the forms of it in a new scope. -/
theorem call_apply {w : Token} (hw : w.kind = .keyword .begin) {c : Closure} {body : List Expr}
    (hbody : c.body = .list (.keyword w) body) {vs : List Value} (hvs : vs.length = c.arity)
    (site : Option Token) (s : Store) :
    call limit (bodies limit (remaining + 1)) site c vs s =
      sequence limit (bodies limit remaining) s.scopes.size .nil body
        (s.newFrame c.scope ((c.params.map Token.lexeme).zip vs)).2 := by
  unfold call
  rw [if_pos hvs, bodies]
  simp only [bind_apply, frame_apply, Store.newFrame_fst]
  rw [hbody, inCalls_eq, evaluate_begin hw]

/-- The body of a function is evaluated in step with that of the `let` whose scope was made first. -/
theorem Filled.body {names : List Token} {vs : List Value} (hi : i < s.scopes.size)
    (h : Filled (early s.scopes.size) s.scopes.size names vs s s' (s.newChild i).2 t')
    (limit limit' remaining : Nat) (body : List Expr) :
    let x := sequence limit (bodies limit remaining) s'.scopes.size .nil body
      (s'.newFrame i ((names.map Token.lexeme).zip vs)).2
    let y := sequence limit' (bodies limit' remaining) s.scopes.size .nil body t'
    SameUnder (settled s.scopes.size s'.scopes.size) s x y ∧
      y.2.scopes.size = x.2.scopes.size := by
  have hold := h.later.size_le
  have hinjective := Store.settled_injective hold
  have hhere : settled s.scopes.size s'.scopes.size s'.scopes.size = s.scopes.size := if_pos rfl
  have hmade : s'.scopes.size <
      (s'.newFrame i ((names.map Token.lexeme).zip vs)).2.scopes.size :=
    Store.lt_size_newFrame s' i _
  have hsequence := sequence_inStep limit limit' remaining hinjective (h.enter hi) hmade body
  rw [hhere] at hsequence
  obtain ⟨hlater, hstep, houtcome⟩ := hsequence
  refine ⟨⟨hinjective, fun j hj => ?_, hstep.toMoved, houtcome⟩, ?_⟩
  · rw [Store.settled_of_lt (Nat.lt_of_lt_of_le hj hold), Store.early_of_lt hj]
  · rw [← hstep.size_eq, Store.settled_of_gt (Nat.lt_of_lt_of_le hmade hlater.size_le)]

/-- **A `let` is the call of a function that is made in place.**  The function captures the scope of the
`let`, has the names for its parameters and has the body as one `begin`.  It is called with the values,
which are computed before, under a limit that is one higher and with as many calls active.  Then the
outcome and the store are the same, up to the numbers of new scopes and the limit in a message, and both
hit the limit or neither does.  If a value cannot be computed, the scope that the `let` has made is left
over; else both have made as many. -/
theorem let_is_call {k w : Token} (hk : k.IsBind) (hw : w.kind = .keyword .begin)
    {limit calls : Nat} (hcalls : calls ≤ limit) {s : Store} (hs : s.WellFormed)
    (b : Token × Expr) (bs : List (Token × Expr)) (body : List Expr) {c : Closure}
    (hscope : c.scope < s.scopes.size) (hparams : c.params = (b :: bs).map Prod.fst)
    (hbody : c.body = .list (.keyword w) body) (site : Option Token) :
    let values :=
      evaluateAll limit (bodies limit (limit - calls)) c.scope ((b :: bs).map Prod.snd)
    let called :=
      (values >>= call (limit + 1) (bodies (limit + 1) (limit + 1 - calls)) site c) s
    let bound := inCalls limit (limit - calls) c.scope (letIn k b bs body) s
    (∃ ρ, SameUnder ρ s called bound) ∧ (HitsLimit called.1 ↔ HitsLimit bound.1) ∧
      (∀ vs s', values s = (.ok vs, s') → bound.2.scopes.size = called.2.scopes.size) ∧
      ∀ err s', values s = (.error err, s') →
        bound.2.scopes.size = called.2.scopes.size + 1 := by
  have hremaining : limit + 1 - calls = limit - calls + 1 := Nat.succ_sub hcalls
  have hmade : s.scopes.size < (s.newChild c.scope).2.scopes.size :=
    Store.lt_size_newFrame s c.scope []
  have hfills : Fills (early s.scopes.size) s.scopes.size ((b :: bs).map Prod.fst) s
      (s.newChild c.scope).2
      (evaluateAll limit (bodies limit (limit - calls)) c.scope ((b :: bs).map Prod.snd) s)
      (fillAll limit (bodies limit (limit - calls)) c.scope k s.scopes.size
        ((b :: bs).map binding) (s.newChild c.scope).2) :=
    fills_of_inStep (Store.early_injective _) (Store.early_ne _) (Store.early_of_lt hscope)
      (b :: bs) (hs.inStep_newChild c.scope) hscope hmade
  revert hfills
  simp only [hremaining, inCalls_eq, evaluate_letIn_apply hk, bind_apply]
  rcases evaluateAll limit (bodies limit (limit - calls)) c.scope ((b :: bs).map Prod.snd) s with
    ⟨values, s'⟩
  rcases fillAll limit (bodies limit (limit - calls)) c.scope k s.scopes.size
    ((b :: bs).map binding) (s.newChild c.scope).2 with ⟨filled, t'⟩
  rintro (⟨hlength, hfilled⟩ | ⟨herror, hlater, hstep⟩)
  · rename_i vs
    have harity : vs.length = c.arity := by
      rw [hlength, Closure.arity, hparams]
    simp only [call_apply hw hbody harity, hparams]
    obtain ⟨hsame, hsize⟩ :=
      hfilled.body hscope (limit + 1) limit (limit - calls) body
    refine ⟨⟨_, hsame⟩, hsame.outcome.hitsLimit_iff, fun _ _ _ => hsize, ?_⟩
    rintro err s' ⟨⟩
  · rename_i err err'
    have houtcome : SameOutcome (early s.scopes.size) (.error err) (.error err') :=
      fun n => congrArg Except.error (herror n)
    refine ⟨⟨_, Store.early_injective _, fun j hj => Store.early_of_lt hj, hstep.toMoved, houtcome⟩,
      houtcome.hitsLimit_iff, ?_, fun _ _ _ => ?_⟩
    · rintro vs s' ⟨⟩
    · rw [← hstep.size_eq, Store.early_of_ge hlater.size_le]

/-- A `let` that gives a name two values and calls a function, where no call is allowed.  Both the
`let` and the call come to the limit, which is one higher for the call. -/
theorem let_is_call_limit :
    let x : Token := ⟨.symbol, "x", none, 1⟩
    let g : Token := ⟨.symbol, "g", none, 1⟩
    let k : Token := ⟨.keyword .bind, "let", none, 1⟩
    let w : Token := ⟨.keyword .begin, "begin", none, 1⟩
    let s := Store.empty.newRoot.2.withFunction 0 g [] (.datum .nil)
    let b : Token × Expr := (x, .datum .nil)
    let b' : Token × Expr := (x, .datum (.bool true))
    let body : List Expr := [.list (.symbol g) []]
    let c : Closure := ⟨7, x, [x, x], .list (.keyword w) body, 0⟩
    let called := (evaluateAll 0 (bodies 0 0) 0 [b.2, b'.2] >>= call 1 (bodies 1 1) none c) s
    let bound := inCalls 0 0 0 (letIn k b [b'] body) s
    k.IsBind ∧ w.kind = .keyword .begin ∧ s.WellFormed ∧ 0 < s.scopes.size ∧
      bound.1 = .error (.callsTooDeep (some g) 0) ∧
      called.1 = .error (.callsTooDeep (some g) 1) ∧
      (∃ ρ, SameUnder ρ s called bound) ∧ (HitsLimit called.1 ↔ HitsLimit bound.1) ∧
      bound.2.scopes.size = called.2.scopes.size := by
  intro x g k w s b b' body c called bound
  have hs : s.WellFormed := Store.WellFormed.root.withFunction Nat.one_pos g [] (.datum .nil)
  obtain ⟨hsame, hlimit, hsize, -⟩ := let_is_call (k := k) (w := w) (c := c) rfl rfl
    (Nat.le_refl 0) hs b [b'] body Nat.one_pos rfl rfl none
  exact ⟨rfl, rfl, hs, Nat.one_pos, rfl, rfl, hsame, hlimit, hsize _ _ rfl⟩

end Eval

end SmallLisp
