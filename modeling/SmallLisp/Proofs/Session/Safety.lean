/-
What source text cannot do.

The scanner, the parser and the evaluator have cases for what they should never meet: lexemes that
are not what their rules say, numbers and strings without a value, operators that are none, and
lists with `define` for their head.  A tree that is made by hand can lead there.  A text cannot,
whatever texts have been run before it.

Every part of that has been shown where it belongs, of the scanner, of the tokens, of the trees and of
the evaluation of a tree in a sound store.  What is left is the session: a fresh store is sound, and a
text that is run leaves it sound (`sound_runSources`), so every text meets a sound store.
-/
import SmallLisp.Proofs.Eval.Sound
import SmallLisp.Proofs.Incomplete
import SmallLisp.Proofs.Scan.Checked
import SmallLisp.Proofs.Session.Shared

namespace SmallLisp

open Eval Eval.Machine
open Parse (Grammatical)

/-- The forms of a text are trees of the grammar. -/
theorem grammatical_of_readForms {source : String} {forms : List Expr}
    (h : readForms source = .ok forms) : ∀ e ∈ forms, Grammatical e := by
  obtain ⟨ts, -, hparse⟩ := readForms_eq_ok_iff.mp h
  exact Parse.grammaticalAll_iff.mp
    (Parse.grammaticalAll_of_spellsAll (Parse.parse_eq_ok_iff.mp hparse))

theorem readForms_ne_eval {source : String} {e : EvalError} : readForms source ≠ .error (.eval e) := by
  intro h
  cases hscan : scan source with
  | error e' => rw [readForms_of_scan_error hscan] at h; cases h
  | ok ts =>
      rw [readForms_of_scan hscan] at h
      cases hparse : parse ts <;> rw [hparse] at h <;> cases h

namespace Eval

/-- Whether a machine has a value: it is bound in some scope, or a frame holds it, or it is handed on,
as what an evaluation or a call returns. -/
def Machine.Has (m : Machine) (v : Value) : Prop :=
  (∃ i name, m.store.value? i name = some v) ∨ (∃ f ∈ m.stack, v ∈ f.held) ∨
    m.control = .yield (.ok v)

/-- What holds at a moment of an evaluation that has begun with the given machine. -/
structure Machine.Guarded (limit? : Option Nat) (m start : Machine) : Prop where
  /-- An operator is one of the seven. -/
  operator : ∀ t, m.Has (.operator t) → ∃ op, t.kind = .operator op
  /-- No function has a list with `define` for its head in its body. -/
  body : ∀ c, m.Has (.function c) → ¬ c.body.HeadedByDefine
  /-- What has been applied as an operator is one. -/
  applied : ∀ t, m.control ≠ .yield (.error (.notAnOperator t))
  /-- A keyword that is unexpected has been evaluated by itself, not as the head of a list. -/
  keyword : ∀ t, m.control = .yield (.error (.unexpectedKeyword t)) → MetOnTheWay limit? start m t

theorem Machine.Sound.of_has {met : Token → Prop} {m : Machine} {v : Value} (h : m.Sound met)
    (hv : m.Has v) : v.Sound := by
  obtain ⟨i, name, hv⟩ | ⟨f, hf, hv⟩ | hv := hv
  · exact h.store i name v hv
  · exact (h.frames f hf).held v hv
  · exact h.yields _ hv

theorem Machine.Sound.guarded {limit? : Option Nat} {m start : Machine}
    (h : m.Sound (MetOnTheWay limit? start m)) : m.Guarded limit? start where
  operator _ ht := TokenKind.exists_of_isOperator (h.of_has ht)
  body _ hc := Grammatical.not_headedByDefine (h.of_has hc)
  applied _ ht := h.yields _ ht
  keyword _ ht := h.yields _ ht

end Eval

namespace Interpreter

variable {i : Interpreter} {s : Store}

/-- **Every moment at which a text is run in a sound store is sound.** -/
theorem sound_of_steps (hs : s.Sound) {source : String} {forms : List Expr}
    (h : readForms source = .ok forms) {m : Machine}
    (hm : Steps (some i.maxCalls) (ofForms 0 i.globals forms s) m) :
    m.Sound (MetOnTheWay (some i.maxCalls) (ofForms 0 i.globals forms s) m) :=
  (sound_ofForms (grammatical_of_readForms h) hs 0 i.globals).steps hm

/-- A text that can be read ends where the steps of its forms end. -/
theorem exists_of_readForms (i : Interpreter) (s : Store) {source : String} {forms : List Expr}
    (h : readForms source = .ok forms) : ∃ outcome s',
      i.runSource source s = (outcome.mapError .eval, s') ∧
      Steps (some i.maxCalls) (ofForms 0 i.globals forms s) (ended 0 (outcome, s')) := by
  rcases hrun : i.runSource source s with ⟨r, s'⟩
  cases (runsSource_iff i source s s' r 0).mpr ⟨rfl, hrun⟩ with
  | unread hread => cases hread.symm.trans h
  | ran hread hsteps =>
      obtain rfl := Except.ok.inj (hread.symm.trans h)
      exact ⟨_, s', rfl, hsteps⟩

/-- **What comes of a text is sound**: the store, and the result. -/
theorem sound_runSource (hs : s.Sound) (source : String) :
    (i.runSource source s).2.Sound ∧ (∀ v, (i.runSource source s).1 = .ok v → v.Sound) ∧
      ∀ t, (i.runSource source s).1 ≠ .error (.eval (.notAnOperator t)) := by
  rcases hrun : i.runSource source s with ⟨r, s'⟩
  cases (runsSource_iff i source s s' r 0).mpr ⟨rfl, hrun⟩ with
  | unread hread =>
      refine ⟨hs, fun v hv => (by cases hv), fun t ht => ?_⟩
      cases ht
      exact readForms_ne_eval hread
  | @ran forms outcome _ _ hread hsteps =>
      have hsound := sound_of_steps hs hread hsteps
      have houtcome := hsound.yields outcome rfl
      refine ⟨hsound.store, fun v hv => ?_, fun t ht => ?_⟩ <;> rcases outcome with e | w
      · cases hv
      · cases hv
        exact houtcome
      · cases ht
        exact houtcome
      · cases ht

/-- Texts that are run leave a sound store sound. -/
theorem sound_runSources (hs : s.Sound) (sources : List String) :
    (i.runSources sources s).2.Sound := by
  induction sources generalizing s with
  | nil => exact hs
  | cons source sources ih => exact ih (sound_runSource hs source).1

/--
**No text makes a malformed tree**, whatever texts a fresh interpreter has run before.

It is scanned without a fault, the parser does not complain about the type of a literal, and no form
has a list with `define` for its head.  While its forms are evaluated, every operator is one of
the seven and no function has such a list in its body, wherever they are bound, held or handed on;
what is applied as an operator is one, and a keyword that is unexpected has been evaluated by itself.
-/
theorem no_malformed_trees (maxCalls : Nat) (ran : List String) (source : String) :
    let fresh := Interpreter.new maxCalls .empty
    let i := fresh.1
    let s := (i.runSources ran fresh.2).2
    (∀ r, Scan.Lexes [] source.toList r ↔ r = .ok (scan source)) ∧
    (∀ ts e, scan source = .ok ts → parse ts = .error e → e.detail ≠ "unexpected literal type") ∧
    (∀ forms, readForms source = .ok forms → (∀ e ∈ forms, ¬ e.HeadedByDefine) ∧
      (∀ m, Steps (some maxCalls) (ofForms 0 i.globals forms s) m →
        m.Guarded (some maxCalls) (ofForms 0 i.globals forms s)) ∧
      ∃ outcome s', i.runSource source s = (outcome.mapError .eval, s') ∧
        Steps (some maxCalls) (ofForms 0 i.globals forms s) (ended 0 (outcome, s'))) ∧
    s.Sound ∧ (∀ v, (i.runSource source s).1 = .ok v → v.Sound) ∧
      ∀ t, (i.runSource source s).1 ≠ .error (.eval (.notAnOperator t)) := by
  intro fresh i s
  have hs : s.Sound := sound_runSources Store.sound_root ran
  have hi : i.maxCalls = maxCalls := rfl
  clear_value s i
  subst hi
  refine ⟨fun r => Scan.lexes_iff, fun ts e hts => Parse.detail_of_solid (Scan.solid_of_scan hts),
    fun forms hforms => ⟨fun e he => ?_, fun m hm => ?_, ?_⟩, hs, (sound_runSource hs source).2⟩
  · exact (grammatical_of_readForms hforms e he).not_headedByDefine
  · exact (sound_of_steps hs hforms hm).guarded
  · exact exists_of_readForms i s hforms

/-- A list that does not end; then a call that is given an operator and returns it, and a keyword by
itself. -/
theorem no_malformed_trees_define_by_itself :
    let define : Token := ⟨.keyword .define, "define", none, 1⟩
    let ran := ["(define f (x) x)"]
    let source := "(f =) define"
    let forms : List Expr := [.list (.symbol ⟨.symbol, "f", none, 1⟩)
      [.operator ⟨.operator .equal, "=", none, 1⟩], .keyword define]
    let i : Interpreter := ⟨0, 1⟩
    let s := (i.runSources ran Store.empty.newRoot.2).2
    (∃ ts e, scan "(" = .ok ts ∧ parse ts = .error e ∧ e.detail ≠ "unexpected literal type") ∧
    readForms source = .ok forms ∧ (∀ e ∈ forms, ¬ e.HeadedByDefine) ∧
    ∃ m, Steps (some 1) (ofForms 0 0 forms s) m ∧
      m.control = .yield (.error (.unexpectedKeyword define)) ∧
      MetOnTheWay (some 1) (ofForms 0 0 forms s) m define := by
  intro define ran source forms i s
  have hscan : scan "(" = .ok [⟨.leftParen, "(", none, 1⟩, .endAt 1] := by cbv
  have hparse : parse [⟨.leftParen, "(", none, 1⟩, .endAt 1] =
      .error ⟨.endAt 1, "unexpected token: end of input"⟩ := by cbv
  have hread : readForms source = .ok forms := by cbv
  have hresult : (i.runSource source s).1 = .error (.eval (.unexpectedKeyword define)) := by
    rw [show s = (i.runSources ran Store.empty.newRoot.2).2 from rfl]
    cbv
  obtain ⟨-, hdetail, -⟩ := no_malformed_trees 1 [] "("
  obtain ⟨-, -, hforms, -⟩ := no_malformed_trees 1 ran source
  obtain ⟨hheads, hguarded, outcome, s', hrun, hsteps⟩ := hforms forms hread
  have houtcome : outcome = .error (.unexpectedKeyword define) := by
    have hmapped : outcome.mapError Failure.eval = .error (.eval (.unexpectedKeyword define)) :=
      (congrArg Prod.fst hrun).symm.trans hresult
    rcases outcome with e | v
    · exact congrArg Except.error (Failure.eval.inj (Except.error.inj hmapped))
    · cases hmapped
  subst houtcome
  exact ⟨⟨_, _, hscan, hparse, hdetail _ _ hscan hparse⟩, hread, hheads, _, hsteps, rfl,
    (hguarded _ hsteps).keyword define rfl⟩

end Interpreter

end SmallLisp
