/-
Programs up to their lines.

The same text has other lines when it stands further down, and the tokens in the values of a
program keep the lines they had.  Two programs are the same up to lines if they are the same once
every line has been taken away, which is a relabelling.

Lines bear on neither of the stages behind the scanner.  The parser looks at the kind, the value
and the spelling of a token and puts the token itself into the tree, so it reads tokens without
lines as it reads the tokens (`parse_unlined`).  The evaluator carries every relabelling, so a
program that is the same up to lines does the same up to lines (`run_unlined`).
-/
import SmallLisp.Proofs.Parse.Reading
import SmallLisp.Proofs.Relabel.Relabelling
import SmallLisp.Proofs.Scan.Lines

namespace SmallLisp

namespace Relabelling

/-- Takes every line away. -/
def unlined : Relabelling where
  name n := n
  token t := { t with line := 0 }
  name_injective h := h
  kind_token _ := rfl
  literal_token _ := rfl
  lexeme_token _ := rfl

/-! ### What has been read

The state of the parser holds tokens, so it is relabelled as trees are.  Every function of the parser is then
followed once, with lines and without.
-/

variable (r : Relabelling)

/-- An open form with its tokens relabelled. -/
def openForm : Parse.OpenForm → Parse.OpenForm
  | .head => .head
  | .operands head read => .operands (r.expr head) (r.exprs read)
  | .body name params => .body (r.token name) (params.map r.token)

/-- An open definition with its tokens relabelled. -/
def openDefinition : Parse.OpenDefinition → Parse.OpenDefinition
  | .signature => .signature
  | .nestedName => .nestedName
  | .openParams nested name => .openParams nested (r.token name)
  | .params nested name read => .params nested (r.token name) (read.map r.token)
  | .closeSignature name params => .closeSignature (r.token name) (params.map r.token)
  | .close name params body => .close (r.token name) (params.map r.token) (r.expr body)

/-- A state with its tokens relabelled. -/
def state (s : Parse.State) : Parse.State :=
  ⟨s.definition.map r.openDefinition, s.forms.map r.openForm⟩

/-- What reading a token comes to, with tokens relabelled. -/
def step : Parse.Step → Parse.Step
  | .more s => .more (r.state s)
  | .done e => .done (r.expr e)
  | .refuse detail => .refuse detail
  | .hollow => .hollow

/-- What has been read of a program, with tokens relabelled. -/
def reading (x : Parse.Reading) : Parse.Reading :=
  ⟨r.exprs x.found, r.state x.current⟩

variable {r}

theorem complete_relabelled (e : Expr) (forms : List Parse.OpenForm) :
    Parse.complete (r.expr e) (forms.map r.openForm) = r.step (Parse.complete e forms) := by
  rcases forms with _ | ⟨_ | _ | _, forms⟩ <;> rfl

end Relabelling

namespace Parse

open Relabelling (unlined)

theorem start_unlined (t : Token) (forms : List OpenForm) :
    start (unlined.token t) (forms.map unlined.openForm) = unlined.step (start t forms) := by
  unfold start
  rw [Relabelling.kind_token, Relabelling.literal_token]
  split
  · rfl
  · exact Relabelling.complete_relabelled (.keyword t) forms
  · exact Relabelling.complete_relabelled (.operator t) forms
  · exact Relabelling.complete_relabelled (.symbol t) forms
  · exact Relabelling.complete_relabelled (.datum (.bool true)) forms
  · exact Relabelling.complete_relabelled (.datum .nil) forms
  · split
    · exact Relabelling.complete_relabelled (.datum (.number _)) forms
    · rfl
  · split
    · exact Relabelling.complete_relabelled (.datum (.text _)) forms
    · rfl
  · rfl
  · rfl

theorem inForms_unlined (t : Token) (forms : List OpenForm) :
    inForms (unlined.token t) (forms.map unlined.openForm) = unlined.step (inForms t forms) := by
  rcases forms with _ | ⟨_ | ⟨head, read⟩ | ⟨name, params⟩, forms⟩
  · exact start_unlined t []
  · simp only [inForms, List.map_cons, Relabelling.openForm, Relabelling.kind_token]
    split
    · rfl
    · exact start_unlined t (.head :: forms)
  · simp only [inForms, List.map_cons, Relabelling.openForm, Relabelling.kind_token]
    split
    · rw [← Relabelling.complete_relabelled, Relabelling.expr, Relabelling.exprs_eq_map,
        Relabelling.exprs_eq_map, List.map_reverse]
    · exact start_unlined t (.operands head read :: forms)
  · exact start_unlined t (.body name params :: forms)

theorem expect_unlined {kind : TokenKind} {detail : String} {t : Token} {next next' : Step}
    (h : next' = unlined.step next) :
    expect kind detail (unlined.token t) next' = unlined.step (expect kind detail t next) := by
  unfold expect
  rw [Relabelling.kind_token, h]
  split <;> rfl

theorem inDefinition_unlined (t : Token) (forms : List OpenForm) (d : OpenDefinition) :
    inDefinition (unlined.token t) (forms.map unlined.openForm) (unlined.openDefinition d) =
      unlined.step (inDefinition t forms d) := by
  cases d with
  | signature =>
      simp only [inDefinition, Relabelling.openDefinition, Relabelling.kind_token]
      split
      · rfl
      · exact expect_unlined rfl
  | nestedName => exact expect_unlined rfl
  | openParams nested name => exact expect_unlined rfl
  | params nested name read =>
      simp only [inDefinition, Relabelling.openDefinition, Relabelling.kind_token,
        ← List.map_reverse]
      split
      · split <;> rfl
      · exact expect_unlined rfl
  | closeSignature name params => exact expect_unlined rfl
  | close name params body =>
      exact expect_unlined (Relabelling.complete_relabelled (.define name params body) forms)

theorem step_unlined (t : Token) (s : State) :
    step (unlined.token t) (unlined.state s) = unlined.step (step t s) := by
  obtain ⟨_ | d, forms⟩ := s
  · exact inForms_unlined t forms
  · exact inDefinition_unlined t forms d

theorem take_unlined (x : Reading) (t : Token) :
    (unlined.reading x).take (unlined.token t) = (x.take t).map unlined.reading := by
  simp only [Reading.take, Relabelling.reading, step_unlined]
  cases step t x.current with
  | done e => simp [Relabelling.step, Reading.settle, Except.map, Relabelling.reading,
      Relabelling.exprs_eq_map]; rfl
  | _ => rfl

theorem takeAll_unlined (x : Reading) (ts : List Token) :
    (unlined.reading x).takeAll (ts.map unlined.token) =
      ((x.takeAll ts).map unlined.reading).mapError fun e => ⟨unlined.token e.token, e.detail⟩ := by
  induction ts generalizing x with
  | nil => rfl
  | cons t ts ih =>
      have htake := take_unlined x t
      cases h : x.take t with
      | error detail =>
          rw [h] at htake
          rw [List.map_cons, Reading.takeAll_cons_error htake, Reading.takeAll_cons_error h]
          rfl
      | ok x' =>
          rw [h] at htake
          rw [List.map_cons, Reading.takeAll_cons_ok htake, Reading.takeAll_cons_ok h]
          exact ih x'

theorem state_unlined_eq_initial {s : State} (h : unlined.state s = .initial) : s = .initial := by
  obtain ⟨_ | d, _ | ⟨form, forms⟩⟩ := s <;> first | rfl | cases h

theorem beforeEnd_unlined (ts : List Token) :
    beforeEnd (ts.map unlined.token) = (beforeEnd ts).map unlined.token := by
  unfold beforeEnd
  rw [List.takeWhile_map]
  rfl

end Parse

open Relabelling (unlined)

/-- **Rows of tokens that are the same up to lines are programs together.** -/
theorem parse_unlined {ts us : List Token} (h : us.map unlined.token = ts.map unlined.token)
    {forms : List Expr} (hparse : parse ts = .ok forms) :
    ∃ forms', parse us = .ok forms' ∧ unlined.exprs forms' = unlined.exprs forms := by
  have hts := Parse.takeAll_unlined .initial (Parse.beforeEnd ts)
  have hus := Parse.takeAll_unlined .initial (Parse.beforeEnd us)
  rw [Parse.parse_eq_ok_iff_takeAll.mp hparse, ← Parse.beforeEnd_unlined, ← h,
    Parse.beforeEnd_unlined] at hts
  rw [hts] at hus
  cases htake : Parse.Reading.takeAll .initial (Parse.beforeEnd us) with
  | error e => rw [htake] at hus; cases hus
  | ok x =>
      rw [htake] at hus
      obtain ⟨hfound, hcurrent⟩ := Parse.Reading.mk.inj (Except.ok.inj hus)
      refine ⟨x.found, ?_, hfound.symm⟩
      rw [Parse.parse_eq_ok_iff_takeAll, htake, ← Parse.state_unlined_eq_initial hcurrent.symm]

/-! ### Running programs

Two programs that become one without their lines are each carried to that one.
-/

/-- **Programs that are the same up to lines do the same up to lines.** -/
theorem Interpreter.run_unlined (i : Interpreter) {forms forms' : List Expr} {s s' s₁ : Store}
    {v : Value} (hforms : unlined.exprs forms' = unlined.exprs forms)
    (hstore : unlined.store s' = unlined.store s) (h : i.run forms s = (.ok v, s₁)) :
    ∃ v' s₁', i.run forms' s' = (.ok v', s₁') ∧ unlined.value v' = unlined.value v ∧
      unlined.store s₁' = unlined.store s₁ := by
  have hrun := Relabelling.carries_forms (r := unlined) i .nil forms s
  have hrun' := Relabelling.carries_forms (r := unlined) i .nil forms' s'
  rw [← hforms, ← hstore, hrun'] at hrun
  change _ = (unlined.outcome unlined.value (i.run forms s).1, unlined.store (i.run forms s).2)
    at hrun
  rw [h] at hrun
  obtain ⟨houtcome, hstore'⟩ := Prod.mk.inj hrun
  change unlined.outcome unlined.value (i.run forms' s').1 = _ at houtcome
  change unlined.store (i.run forms' s').2 = _ at hstore'
  rcases hresult : i.run forms' s' with ⟨e | v', s₁'⟩
  · rw [hresult] at houtcome
    cases houtcome
  · rw [hresult] at houtcome hstore'
    exact ⟨v', s₁', rfl, Except.ok.inj houtcome, hstore'⟩

end SmallLisp
