/-
What would complete a program.

A reader that has refused nothing can always be satisfied.  Whatever it is in the middle of, a few
more tokens close every form that is open: a name where one is awaited, then parentheses.
`completion` writes them down for every state, and `takeAll_completion` reads them.

So what a reader says at the end of input is never the last word: a program that has only ended too
early has a continuation.  That is also a continuation of its text, since the words of a completion
can be spelled with spaces between them and are scanned as what they are.
-/
import SmallLisp.Proofs.Parse.Grammar
import SmallLisp.Proofs.Scan.Reads

namespace SmallLisp

namespace Parse

/-! ### The words that are missing

Three words are enough.  What a definition lacks depends on how far it has come, what a list lacks is its
parenthesis.
-/

/-- The words of which completions are made. -/
inductive Filler where
  | name | leftParen | rightParen

namespace Filler

/-- How a word is spelled. -/
def char : Filler → Char
  | name => 'x'
  | leftParen => '('
  | rightParen => ')'

/-- The kind of a word. -/
def kind : Filler → TokenKind
  | name => .symbol
  | leftParen => .leftParen
  | rightParen => .rightParen

/-- A word as a token. -/
def token (line : Nat) (w : Filler) : Token :=
  ⟨w.kind, w.char.toString, none, line⟩

/-- Words with a space behind each. -/
def text (ws : List Filler) : List Char :=
  ws.flatMap fun w => [w.char, ' ']

end Filler

/-- What a definition lacks once its signature is closed. -/
def bodyCompletion : List Filler := [.name, .rightParen]

/-- What a definition lacks once its parameters are closed. -/
def signatureCompletion (nested : Bool) : List Filler :=
  if nested then .rightParen :: bodyCompletion else bodyCompletion

/-- What a definition lacks. -/
def OpenDefinition.completion : OpenDefinition → List Filler
  | signature => .name :: .leftParen :: .rightParen :: signatureCompletion false
  | nestedName => .name :: .leftParen :: .rightParen :: signatureCompletion true
  | openParams nested _ => .leftParen :: .rightParen :: signatureCompletion nested
  | params nested _ _ => .rightParen :: signatureCompletion nested
  | closeSignature _ _ => .rightParen :: bodyCompletion
  | close _ _ _ => [.rightParen]

/-- The ends of open forms. -/
def closers (forms : List OpenForm) : List Filler :=
  List.replicate forms.length .rightParen

/-- The words that complete what has been read of an expression. -/
def State.completion (s : State) : List Filler :=
  match s.definition, s.forms with
  | some d, forms => d.completion ++ closers forms
  | none, [] => []
  | none, forms => .name :: closers forms

/-! ### Reading them

The open forms are closed from the innermost to the outermost, so the induction is on the stack.
-/

/-- Once an expression has been handed to the forms around it, their ends complete it. -/
theorem takeAll_closers (line : Nat) (found : List Expr) (e : Expr) (forms : List OpenForm) :
    ∃ found', Reading.takeAll (handed found e forms) ((closers forms).map (Filler.token line)) =
      .ok ⟨found', .initial⟩ := by
  have hclose : (Filler.token line .rightParen).kind = .rightParen := rfl
  induction forms generalizing e with
  | nil => exact ⟨found ++ [e], rfl⟩
  | cons form forms ih =>
      rw [show (closers (form :: forms)).map (Filler.token line) =
        Filler.token line .rightParen :: (closers forms).map (Filler.token line) from rfl]
      cases form with
      | head =>
          rw [handed, Reading.takeAll_cons_ok (take_close hclose ..)]
          exact ih _
      | operands head read =>
          rw [handed, Reading.takeAll_cons_ok (take_close hclose ..)]
          exact ih _
      | body name params =>
          rw [handed, Reading.takeAll_cons_ok (take_close_definition hclose ..)]
          exact ih _

/-- A name where an expression is awaited, then the ends of all forms. -/
theorem takeAll_name_closers (line : Nat) (found : List Expr) (forms : List OpenForm) :
    ∃ found', Reading.takeAll ⟨found, ⟨none, forms⟩⟩
      ((.name :: closers forms).map (Filler.token line)) = .ok ⟨found', .initial⟩ := by
  have hleaf : Leaf (Filler.token line .name) (.symbol (Filler.token line .name)) := .symbol rfl
  rw [List.map_cons, Reading.takeAll_cons_ok (take_leaf hleaf found (by simp [Admits, IsDefine]))]
  exact takeAll_closers line found _ forms

theorem takeAll_signatureCompletion (line : Nat) (found : List Expr) (nested : Bool) (name : Token)
    (read : List Token) (forms : List OpenForm) :
    ∃ found', Reading.takeAll ⟨found, ⟨some (.params nested name read), forms⟩⟩
      ((.rightParen :: signatureCompletion nested ++ closers forms).map (Filler.token line)) =
        .ok ⟨found', .initial⟩ := by
  cases nested <;> exact takeAll_name_closers line found (.body name read.reverse :: forms)

/-- **Whatever is open, its completion closes it.** -/
theorem takeAll_completion (line : Nat) (r : Reading) :
    ∃ found, r.takeAll (r.current.completion.map (Filler.token line)) = .ok ⟨found, .initial⟩ := by
  obtain ⟨found, ⟨definition, forms⟩⟩ := r
  cases definition with
  | none =>
      cases forms with
      | nil => exact ⟨found, rfl⟩
      | cons form forms => exact takeAll_name_closers line found (form :: forms)
  | some d =>
      cases d with
      | signature => exact takeAll_signatureCompletion line found false _ [] forms
      | nestedName => exact takeAll_signatureCompletion line found true _ [] forms
      | openParams nested name => exact takeAll_signatureCompletion line found nested name [] forms
      | params nested name read => exact takeAll_signatureCompletion line found nested name read forms
      | closeSignature name params =>
          exact takeAll_name_closers line found (.body name params :: forms)
      | close name params body =>
          exact takeAll_closers line found body (.body name params :: forms)

/-- What has been read of a program, its completion and an end are a program. -/
theorem parse_completion {ts : List Token} {r : Reading} (hts : Endless ts)
    (h : Reading.takeAll .initial ts = .ok r) (line : Nat) :
    ∃ forms, parse (ts ++ r.current.completion.map (Filler.token line) ++ [Token.endAt line]) =
      .ok forms := by
  obtain ⟨found, hfound⟩ := takeAll_completion line r
  refine ⟨found, ?_⟩
  have hendless : Endless (ts ++ r.current.completion.map (Filler.token line)) := by
    intro t ht
    rcases List.mem_append.mp ht with ht | ht
    · exact hts t ht
    · obtain ⟨w, -, rfl⟩ := List.mem_map.mp ht
      cases w <;> simp [Filler.token, Filler.kind]
  rw [parse_of_takeAll hendless (ended_endAt _)
    ((Reading.takeAll_append_ok h _).trans hfound)]
  rfl

end Parse

namespace Scan

open Parse (Filler)

/-! ### Their text

Each word of a completion is followed by a space.  So it is read as that word, whatever has been read before
it.
-/

theorem skip_char (line : Nat) (w : Filler) (cs : List Char) :
    skip line false (w.char :: cs) = (line, w.char :: cs) := by
  cases w <;> simp [skip, Filler.char, isGap]

theorem token_char (line : Nat) (w : Filler) (cs : List Char) :
    token line w.char (' ' :: cs) = .ok (w.token line, ' ' :: cs) := by
  cases w <;> rfl

/-- The words of a completion are scanned one by one. -/
theorem tokens_text (line : Nat) (ws : List Filler) :
    tokens line (Filler.text ws) =
      .ok (ws.map (Filler.token (min line lastLine)) ++ [Token.endAt (min line lastLine)]) := by
  induction ws with
  | nil => exact tokens_of_end rfl
  | cons w ws ih =>
      have hskip : skip line false (Filler.text (w :: ws)) =
          (line, w.char :: ' ' :: Filler.text ws) := skip_char line w _
      have hspace : skip line false (' ' :: Filler.text ws) = skip line false (Filler.text ws) := by
        rw [skip]
        simp [isGap]
      have hline : line + lineBreaks (w.token (min line lastLine)).lexeme.toList = line := by
        cases w <;> simp [Filler.token, Filler.char, lineBreaks]
      rw [tokens_of_token hskip (token_char _ w _), hline, tokens_congr hspace, ih]
      rfl

end Scan

end SmallLisp
