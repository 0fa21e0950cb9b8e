/-
What trees of the grammar evaluate to.

Nothing that evaluation makes leaves the grammar.  An operator among the values is one of the seven,
since the leaf that named it is, and the body of a function is a tree of the grammar, since its
definition was.  This is so of the values that are bound anywhere, of those that a frame holds, and
of every value that is handed on: `Machine.Sound`.  What is at hand in a sound machine is sound, so a
step leads from sound to sound (`Sound.step`), and runs follow by induction.

Two errors are ruled out that way, or tied to their cause.  What is applied as an operator is one.  And
a list that begins with a keyword is a form, for the one keyword without a form is `define`, which is
the head of no list; so where a keyword is unexpected, it has been evaluated by itself (`Meets`).
-/
import SmallLisp.Proofs.Eval.Moves
import SmallLisp.Proofs.Parse.Solid
import SmallLisp.Proofs.Store.WellFormed

namespace SmallLisp

open Parse (Grammatical)

namespace TokenKind

theorem exists_of_isOperator {kind : TokenKind} (h : kind.isOperator = Bool.true) :
    ∃ op, kind = .operator op := by
  cases kind <;> first | exact ⟨_, rfl⟩ | cases h

theorem exists_of_isKeyword {kind : TokenKind} (h : kind.isKeyword = Bool.true) :
    ∃ word, kind = .keyword word := by
  cases kind <;> first | exact ⟨_, rfl⟩ | cases h

end TokenKind

/-! ### Values and stores

Values come from trees, and what is bound is a value.  So a store is sound if all that has been put into it
was, and no operation takes a value apart.
-/

/-- Whether a value is made of what the grammar allows. -/
def Value.Sound : Value → Prop
  | .datum _ => True
  | .operator t => t.kind.isOperator = true
  | .function c => Grammatical c.body

namespace Store

/-- Whether every value that is bound somewhere is made of what the grammar allows. -/
def Sound (s : Store) : Prop :=
  ∀ i name v, s.value? i name = some v → v.Sound

theorem sound_root : Store.empty.newRoot.2.Sound := by
  intro i name v h
  rw [value?_root] at h
  cases h

end Store

/-! ### Expressions

A part of a tree is a tree.  This is where the bindings of a `let` matter: they are lists in the tree but
are not evaluated as lists.
-/

namespace Parse

theorem Grammatical.of_binding {b : Token × Expr} (h : Grammatical (.binding b)) :
    Grammatical b.2 :=
  h.2.2.1

/-- The parts of a tree of the grammar are trees of the grammar. -/
theorem Grammatical.parts {e part : Expr} (h : Grammatical e) (hpart : part ∈ e.parts) :
    Grammatical part := by
  match e with
  | .list head es =>
      obtain ⟨-, hhead, hes⟩ := h
      have hes := grammaticalAll_iff.mp hes
      obtain hpart | hpart := List.mem_append.mp hpart
      · exact List.forall_mem_cons.mpr ⟨hhead, hes⟩ part hpart
      · match es with
        | .list first others :: _ =>
            obtain ⟨e, he, hpart⟩ := List.mem_filterMap.mp hpart
            obtain ⟨b, hbinding, rfl⟩ := Option.map_eq_some_iff.mp hpart
            obtain rfl := Eval.binding?_eq_some_iff.mp hbinding
            obtain ⟨-, hfirst, hothers⟩ := hes _ List.mem_cons_self
            have hbindings := List.forall_mem_cons.mpr ⟨hfirst, grammaticalAll_iff.mp hothers⟩
            exact (hbindings _ he).of_binding
        | [] | .datum _ :: _ | .symbol _ :: _ | .operator _ :: _ | .keyword _ :: _
        | .define _ _ _ :: _ => cases hpart
  | .datum _ | .symbol _ | .operator _ | .keyword _ | .define _ _ _ => cases hpart

end Parse

namespace Eval

/-! ### Outcomes

Errors that need not be excluded are left open, as a sound program may well fail.  Two are excluded: a token
that should be an operator and is none, and a keyword where none was met.
-/

/-- Whether an error can come of sound values, where the keywords that have been evaluated by
themselves are among the given ones. -/
def SoundError (met : Token → Prop) : EvalError → Prop
  | .notAnOperator _ => False
  | .unexpectedKeyword t => met t
  | _ => True

/-- Whether an outcome is a sound value or an error that can come of sound values. -/
def SoundOutcome (met : Token → Prop) : Except EvalError Value → Prop
  | .ok v => v.Sound
  | .error e => SoundError met e

variable {met : Token → Prop}

theorem SoundOutcome.mono {met' : Token → Prop} (hmet : ∀ t, met t → met' t)
    {outcome : Except EvalError Value} (h : SoundOutcome met outcome) :
    SoundOutcome met' outcome := by
  match outcome with
  | .ok _ => exact h
  | .error e =>
      cases e
      case unexpectedKeyword t => exact hmet t h
      case notAnOperator t => exact h
      all_goals trivial

theorem SoundError.of_ordinary {e : EvalError} (h : e.Ordinary) : SoundError met e := by
  cases e
  case notAnOperator | unexpectedKeyword => exact h.elim
  all_goals trivial

/-! ### Machines

Everything that a machine has is in its frames, its store and its control.  If all of that is sound, then
what is at hand for a step is sound, and what the step raises can come of sound values.
-/

namespace Frame

/-- Whether a frame holds sound values and may go on with trees of the grammar only. -/
structure Sound (f : Frame) : Prop where
  pending : ∀ e ∈ f.pending, Grammatical e
  held : ∀ v ∈ f.held, v.Sound

end Frame

namespace Machine

/-- Whether the head of a list is about to be evaluated, or has been. -/
def atHead (m : Machine) : Bool :=
  m.stack.head?.any Frame.isHead

/-- Whether everything that a machine has is sound. -/
structure Sound (met : Token → Prop) (m : Machine) : Prop where
  frames : ∀ f ∈ m.stack, f.Sound
  store : m.store.Sound
  evaluates : ∀ scope e, m.control = .evaluate scope e →
    Grammatical e ∧ ∀ k, e = .keyword k → m.atHead = false
  yields : ∀ outcome, m.control = .yield outcome → SoundOutcome met outcome

variable {limit? : Option Nat} {m m' : Machine}

theorem Sound.mono {met' : Token → Prop} (hmet : ∀ t, met t → met' t) (h : m.Sound met) :
    m.Sound met' :=
  ⟨h.frames, h.store, h.evaluates, fun outcome hcontrol => (h.yields outcome hcontrol).mono hmet⟩

theorem Sound.value_of_atHand (h : m.Sound met) {v : Value} (hv : m.AtHand v) : v.Sound := by
  cases hv with
  | datum d => trivial
  | bound hv => exact h.store _ _ _ hv
  | held hf hv => exact (h.frames _ hf).held _ hv
  | yielded hcontrol => exact h.yields _ hcontrol
  | operator hcontrol => exact (h.evaluates _ _ hcontrol).1
  | made hmade => exact (h.evaluates _ _ (made?_eq_some_iff.mp hmade).1).1.2.2

/-- Whether a keyword is about to be evaluated by itself, and not as the head of a list. -/
def Meets (m : Machine) (t : Token) : Prop :=
  (∃ scope, m.control = .evaluate scope (.keyword t)) ∧ m.atHead = false

theorem Sound.error_of_raises (h : m.Sound met) (hmet : ∀ t, m.Meets t → met t) {e : EvalError}
    (he : m.Raises e) : SoundError met e := by
  cases he with
  | ordinary he => exact .of_ordinary he
  | passedOn hcontrol => exact h.yields _ hcontrol
  | operator ht hnone =>
      obtain ⟨op, hop⟩ := TokenKind.exists_of_isOperator (h.value_of_atHand ht)
      exact absurd hop (hnone op)
  | @keyword scope t hcontrol =>
      exact hmet t ⟨⟨scope, hcontrol⟩, (h.evaluates _ _ hcontrol).2 t rfl⟩
  | @noForm scope t es hcontrol hnone =>
      obtain ⟨hdefine, hkeyword, -⟩ := (h.evaluates _ _ hcontrol).1
      obtain ⟨word, hword⟩ := TokenKind.exists_of_isKeyword hkeyword
      obtain rfl := hnone word hword
      exact absurd ⟨t, rfl, hword⟩ hdefine

/-! ### Steps and runs

The invariant is carried along a run together with the keywords that have been met on the way.
-/

/-- Whatever moves a machine makes, it stays sound. -/
theorem Sound.move (h : m.Sound met) (hmet : ∀ t, m.Meets t → met t) {calls : Nat}
    {below : List Frame} (hbelow : ∀ f ∈ below, f.Sound) {pending : List Expr}
    (hpending : ∀ e ∈ pending, Grammatical e)
    (hmove : Move limit? m calls below pending m') : m'.Sound met := by
  have hstore {s : Store} (hs : m.Leaves s) : s.Sound := fun i name v hv =>
    h.value_of_atHand (hs.bound i name v hv)
  cases hmove with
  | value hv hs =>
      refine ⟨hbelow, hstore hs, fun _ _ => nofun, fun outcome hcontrol => ?_⟩
      cases hcontrol
      exact h.value_of_atHand hv
  | error he hs =>
      refine ⟨hbelow, hstore hs, fun _ _ => nofun, fun outcome hcontrol => ?_⟩
      cases hcontrol
      exact h.error_of_raises hmet he
  | ask f scope _ he hsub hheld hhead hs =>
      have hf : f.Sound := ⟨fun e' he' => hpending e' (hsub he'),
        fun v hv => h.value_of_atHand (hheld v hv)⟩
      refine ⟨List.forall_mem_cons.mpr ⟨hf, hbelow⟩, hstore hs, fun _ _ hcontrol => ?_,
        fun _ => nofun⟩
      cases hcontrol
      exact ⟨hpending _ he, fun k hk => hhead.resolve_right fun hne => hne k hk⟩
  | enter _ scope hc hs =>
      have hbody : Frame.body.Sound := ⟨List.forall_mem_nil _, List.forall_mem_nil _⟩
      refine ⟨List.forall_mem_cons.mpr ⟨hbody, hbelow⟩, hstore hs, fun _ _ hcontrol => ?_,
        fun _ => nofun⟩
      cases hcontrol
      exact ⟨h.value_of_atHand hc, fun _ _ => rfl⟩

/-- **A step leads from sound to sound.** -/
theorem Sound.step (h : m.Sound met) (hmet : ∀ t, m.Meets t → met t)
    (hstep : m.step limit? = some m') : m'.Sound met := by
  obtain ⟨scope, e, hcontrol, hmove⟩ | ⟨outcome, f, below, -, hstack, -, hmove⟩ |
    ⟨outcome, below, hcontrol, hstack, -, hm'⟩ := step_cases hstep
  · exact h.move hmet h.frames (fun _ he => (h.evaluates scope e hcontrol).1.parts he) hmove
  · obtain ⟨hf, hbelow⟩ := List.forall_mem_cons.mp (hstack ▸ h.frames)
    exact h.move hmet hbelow hf.pending hmove
  · rw [hm', hcontrol]
    have hbelow := (List.forall_mem_cons.mp (hstack ▸ h.frames)).2
    exact ⟨hbelow, h.store, fun _ _ => nofun, fun _ houtcome => h.yields _ (hcontrol.trans houtcome)⟩

/-- The keywords that have been evaluated by themselves on the way from one machine to another. -/
def MetOnTheWay (limit? : Option Nat) (m m' : Machine) (t : Token) : Prop :=
  ∃ m₁, Steps limit? m m₁ ∧ Steps limit? m₁ m' ∧ m₁.Meets t

/-- **A run leads from sound to sound**, and where a keyword is unexpected it has been evaluated by
itself. -/
theorem Sound.steps (h : m.Sound fun _ => False) (hsteps : Steps limit? m m') :
    m'.Sound (MetOnTheWay limit? m m') := by
  induction hsteps with
  | refl => exact h.mono fun _ => False.elim
  | @tail m₁ m₂ hbefore hstep ih =>
      have hnow := ih.step (fun t ht => ⟨m₁, hbefore, .refl, ht⟩) hstep
      exact hnow.mono fun t ⟨m₀, hstart, hend, hmeets⟩ => ⟨m₀, hstart, hend.tail hstep, hmeets⟩

theorem sound_ofForms {forms : List Expr} (hforms : ∀ e ∈ forms, Grammatical e) {s : Store}
    (hs : s.Sound) (calls : Nat) (scope : ScopeId) :
    (ofForms calls scope forms s).Sound fun _ => False := by
  cases forms with
  | nil =>
      refine ⟨List.forall_mem_nil _, hs, fun _ _ => nofun, fun outcome hcontrol => ?_⟩
      cases hcontrol
      trivial
  | cons e forms =>
      obtain ⟨he, hforms⟩ := List.forall_mem_cons.mp hforms
      have hf : (Frame.sequence scope forms).Sound := ⟨hforms, List.forall_mem_nil _⟩
      refine ⟨List.forall_mem_singleton.mpr hf, hs, fun _ _ hcontrol => ?_, fun _ => nofun⟩
      cases hcontrol
      exact ⟨he, fun _ _ => rfl⟩

end Machine

end Eval

end SmallLisp
