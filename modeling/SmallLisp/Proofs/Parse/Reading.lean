/-
Reading a whole program as one fold over its tokens.

`program` reads expression after expression, and each of them token after token, with a cursor
that remembers where it is.  What is proved about programs needs none of that: it needs to know
what the tokens read so far have come to.  `Reading` is that, the expressions that are complete
and the state of the one that is open, and `readAll` takes it from the first token to the last.

`parse_eq_readAll` says that the two are the same function.  Everything else about the parser is
proved of `readAll`, where reading one row of tokens after another is reading the two in turn.
-/
import SmallLisp.Expr.Parse

namespace SmallLisp

/-! ### Results that there may not be -/

theorem exists_of_map_eq_ok {ε α β : Type} {x : Except ε α} {f : α → β} {b : β}
    (h : x.map f = .ok b) : ∃ a, x = .ok a ∧ f a = b := by
  cases x with
  | error e => cases h
  | ok a => exact ⟨a, rfl, Except.ok.inj h⟩

theorem exists_of_bind_eq_ok {ε α β : Type} {x : Except ε α} {k : α → Except ε β} {b : β}
    (h : x.bind k = .ok b) : ∃ a, x = .ok a ∧ k a = .ok b := by
  cases x with
  | error e => cases h
  | ok a => exact ⟨a, rfl, h⟩

namespace Parse

/-! ### Before and after the end of input

A row of tokens need not end with the mark of the end, nor have only one.  The parser looks at the tokens
before the first mark and complains about that mark, or about one that stands in for it.
-/

/-- The tokens before the first that marks the end of input. -/
def beforeEnd (ts : List Token) : List Token :=
  ts.takeWhile fun t => t.kind ≠ .endOfInput

/-- The token that marks the end of input, or the one that stands in for it. -/
def endToken (ts : List Token) : Token :=
  (ts.dropWhile fun t => t.kind ≠ .endOfInput).headD Cursor.standIn

/-- Whether no token of a row marks the end of input. -/
def Endless (ts : List Token) : Prop :=
  ∀ t ∈ ts, t.kind ≠ .endOfInput

theorem endToken_kind (ts : List Token) : (endToken ts).kind = .endOfInput := by
  unfold endToken
  induction ts with
  | nil => rfl
  | cons t ts ih =>
      by_cases h : t.kind = .endOfInput
      · simp [h]
      · simpa [h] using ih

theorem beforeEnd_append {ts : List Token} (h : Endless ts) (us : List Token) :
    beforeEnd (ts ++ us) = ts ++ beforeEnd us := by
  unfold beforeEnd
  rw [List.takeWhile_append_of_pos (by simpa [Endless] using h)]

theorem endToken_append {ts : List Token} (h : Endless ts) (us : List Token) :
    endToken (ts ++ us) = endToken us := by
  unfold endToken
  rw [List.dropWhile_append_of_pos (by simpa [Endless] using h)]

/-! ### Expressions of one token

Where an expression is awaited, a token is looked at in three ways, and the cases are listed once.
-/

/-- A token that is an expression by itself. -/
inductive Leaf : Token → Expr → Prop where
  | number {t : Token} {x : Float} (hkind : t.kind = .number)
      (hvalue : t.literal = some (.number x)) : Leaf t (.datum (.number x))
  | text {t : Token} {s : String} (hkind : t.kind = .string)
      (hvalue : t.literal = some (.text s)) : Leaf t (.datum (.text s))
  | true {t : Token} (hkind : t.kind = .true) : Leaf t (.datum (.bool Bool.true))
  | nil {t : Token} (hkind : t.kind = .nil) : Leaf t (.datum .nil)
  | symbol {t : Token} (hkind : t.kind = .symbol) : Leaf t (.symbol t)
  | operator {t : Token} {op : Operator} (hkind : t.kind = .operator op) : Leaf t (.operator t)
  | keyword {t : Token} {k : Keyword} (hkind : t.kind = .keyword k) : Leaf t (.keyword t)

theorem start_of_leaf {t : Token} {e : Expr} (h : Leaf t e) (forms : List OpenForm) :
    start t forms = complete e forms := by
  cases h <;> simp [start, *]

/-- What a token can be where an expression is awaited: the start of a list, an expression by
itself, a number or a string without a value, or out of place. -/
theorem start_cases (t : Token) (forms : List OpenForm) :
    (t.kind = .leftParen ∧ start t forms = .more ⟨none, .head :: forms⟩) ∨
      (∃ e, Leaf t e ∧ start t forms = complete e forms) ∨
      start t forms = .hollow ∨ ∃ detail, start t forms = .refuse detail := by
  have leaf {e : Expr} (h : Leaf t e) :
      ∃ e, Leaf t e ∧ start t forms = complete e forms := ⟨e, h, start_of_leaf h forms⟩
  cases hkind : t.kind with
  | leftParen => exact .inl ⟨rfl, by simp [start, hkind]⟩
  | rightParen => exact .inr (.inr (.inr ⟨_, by simp [start, hkind]; rfl⟩))
  | endOfInput => exact .inr (.inr (.inr ⟨_, by simp [start, hkind]; rfl⟩))
  | operator op => exact .inr (.inl (leaf (.operator hkind)))
  | keyword k => exact .inr (.inl (leaf (.keyword hkind)))
  | symbol => exact .inr (.inl (leaf (.symbol hkind)))
  | true => exact .inr (.inl (leaf (.true hkind)))
  | nil => exact .inr (.inl (leaf (.nil hkind)))
  | number =>
      rcases hvalue : t.literal with _ | ⟨x | s⟩
      · exact .inr (.inr (.inl (by simp [start, hkind, hvalue])))
      · exact .inr (.inl (leaf (.number hkind hvalue)))
      · exact .inr (.inr (.inl (by simp [start, hkind, hvalue])))
  | string =>
      rcases hvalue : t.literal with _ | ⟨x | s⟩
      · exact .inr (.inr (.inl (by simp [start, hkind, hvalue])))
      · exact .inr (.inr (.inl (by simp [start, hkind, hvalue])))
      · exact .inr (.inl (leaf (.text hkind hvalue)))

/-! ### What has been read of a program

The state of the reader with the expressions that are complete, as a fold over tokens.  A fold can be cut
anywhere, so the lemmas about `takeAll` and `++` are what later proofs use, and not the cursor.
-/

/-- Nothing has been read of an expression. -/
def State.initial : State := ⟨none, []⟩

/-- What has been read of a program: the complete expressions, and the state of the open one. -/
structure Reading where
  found : List Expr
  current : State

namespace Reading

/-- Nothing has been read. -/
def initial : Reading := ⟨[], .initial⟩

/-- What the outcome of a token makes of the expressions before it. -/
def settle (found : List Expr) : Step → Except String Reading
  | .more s => .ok ⟨found, s⟩
  | .done e => .ok ⟨found ++ [e], .initial⟩
  | .refuse detail => .error detail
  | .hollow => .error "unexpected literal type"

/-- Reads one token. -/
def take (r : Reading) (t : Token) : Except String Reading :=
  settle r.found (step t r.current)

/-- Reads a row of tokens, up to the first that is out of place. -/
def takeAll (r : Reading) : List Token → Except ParseError Reading
  | [] => .ok r
  | t :: ts =>
    match r.take t with
    | .ok r => r.takeAll ts
    | .error detail => .error ⟨t, detail⟩

/-- The program that has been read, if no expression is open at its end. -/
def finish (r : Reading) (t : Token) : Except ParseError (List Expr) :=
  match r.current with
  | ⟨none, []⟩ => .ok r.found
  | s => .error ⟨t, s.missing⟩

@[simp] theorem takeAll_nil (r : Reading) : r.takeAll [] = .ok r := rfl

theorem takeAll_cons_ok {r r' : Reading} {t : Token} (h : r.take t = .ok r') (ts : List Token) :
    r.takeAll (t :: ts) = r'.takeAll ts := by
  simp [takeAll, h]

theorem takeAll_cons_error {r : Reading} {t : Token} {detail : String}
    (h : r.take t = .error detail) (ts : List Token) :
    r.takeAll (t :: ts) = .error ⟨t, detail⟩ := by
  simp [takeAll, h]

theorem takeAll_append (r : Reading) (ts us : List Token) :
    r.takeAll (ts ++ us) = (r.takeAll ts).bind fun r => r.takeAll us := by
  induction ts generalizing r with
  | nil => rfl
  | cons t ts ih =>
      rw [List.cons_append]
      cases h : r.take t with
      | error detail => rw [takeAll_cons_error h, takeAll_cons_error h]; rfl
      | ok r' => rw [takeAll_cons_ok h, takeAll_cons_ok h, ih]

theorem takeAll_append_ok {r r' : Reading} {ts : List Token} (h : r.takeAll ts = .ok r')
    (us : List Token) : r.takeAll (ts ++ us) = r'.takeAll us := by
  rw [takeAll_append, h]; rfl

theorem takeAll_append_error {r : Reading} {ts : List Token} {e : ParseError}
    (h : r.takeAll ts = .error e) (us : List Token) : r.takeAll (ts ++ us) = .error e := by
  rw [takeAll_append, h]; rfl

theorem exists_of_takeAll_append {r r' : Reading} {ts us : List Token}
    (h : r.takeAll (ts ++ us) = .ok r') :
    ∃ r₁, r.takeAll ts = .ok r₁ ∧ r₁.takeAll us = .ok r' := by
  rw [takeAll_append] at h
  exact exists_of_bind_eq_ok h

theorem exists_of_takeAll_cons {r r' : Reading} {t : Token} {ts : List Token}
    (h : r.takeAll (t :: ts) = .ok r') : ∃ r₁, r.take t = .ok r₁ ∧ r₁.takeAll ts = .ok r' := by
  cases ht : r.take t with
  | error detail =>
      rw [takeAll_cons_error ht] at h
      cases h
  | ok r₁ =>
      rw [takeAll_cons_ok ht] at h
      exact ⟨r₁, rfl, h⟩

/-- A complaint before the end is about one of the tokens, where that one was read. -/
theorem exists_of_takeAll_error {r : Reading} {ts : List Token} {e : ParseError}
    (h : r.takeAll ts = .error e) :
    e.token ∈ ts ∧ ∃ r' : Reading, r'.take e.token = .error e.detail := by
  induction ts generalizing r with
  | nil => cases h
  | cons t ts ih =>
      cases htake : r.take t with
      | error detail =>
          rw [takeAll_cons_error htake] at h
          cases h
          exact ⟨List.mem_cons_self, r, htake⟩
      | ok r' =>
          rw [takeAll_cons_ok htake] at h
          obtain ⟨hmem, hrefused⟩ := ih h
          exact ⟨List.mem_cons_of_mem _ hmem, hrefused⟩

theorem finish_initial (found : List Expr) (t : Token) :
    finish ⟨found, .initial⟩ t = .ok found := rfl

theorem finish_eq_ok {r : Reading} {t : Token} {forms : List Expr}
    (h : r.finish t = .ok forms) : r = ⟨forms, .initial⟩ := by
  obtain ⟨found, ⟨definition, forms'⟩⟩ := r
  cases definition <;> cases forms' <;> simp_all [finish, State.initial]

theorem finish_eq_error {r : Reading} {t : Token} {e : ParseError}
    (h : r.finish t = .error e) : e.token = t := by
  obtain ⟨found, ⟨definition, forms'⟩⟩ := r
  cases definition <;> cases forms' <;> simp_all [finish] <;> rw [← h]

end Reading

/-- Reads a row of tokens as a whole program. -/
def readAll (r : Reading) (ts : List Token) : Except ParseError (List Expr) :=
  (r.takeAll (beforeEnd ts)).bind fun r => r.finish (endToken ts)

/-! ### The reader with a cursor is this fold

A cursor that stands at some tokens reads what the fold takes from them.  Each token is met once by both,
so the induction is on the tokens that are left.
-/

theorem readAll_end (r : Reading) {t : Token} (ht : t.kind = .endOfInput) (ts : List Token) :
    readAll r (t :: ts) = r.finish t := by
  simp [readAll, beforeEnd, endToken, ht, Except.bind]

theorem readAll_cons (r : Reading) {t : Token} (ht : t.kind ≠ .endOfInput) (ts : List Token) :
    readAll r (t :: ts) =
      match r.take t with
      | .ok r => readAll r ts
      | .error detail => .error ⟨t, detail⟩ := by
  have hbefore : beforeEnd (t :: ts) = t :: beforeEnd ts := by simp [beforeEnd, ht]
  have hend : endToken (t :: ts) = endToken ts := by simp [endToken, ht]
  unfold readAll
  rw [hbefore, hend, Reading.takeAll]
  cases r.take t <;> rfl

theorem complete_ne_initial {e : Expr} {forms : List OpenForm} {s : State}
    (h : complete e forms = .more s) : s ≠ .initial := by
  rcases forms with _ | ⟨_ | _ | _, forms⟩ <;> simp only [complete] at h <;> cases h <;>
    simp [State.initial]

theorem start_ne_initial {t : Token} {forms : List OpenForm} {s : State}
    (h : start t forms = .more s) : s ≠ .initial := by
  rcases start_cases t forms with ⟨-, hstart⟩ | ⟨e, -, hstart⟩ | hstart | ⟨detail, hstart⟩ <;>
    rw [hstart] at h
  · cases h
    simp [State.initial]
  · exact complete_ne_initial h
  · cases h
  · cases h

/-- A token that leaves an expression open leaves a trace. -/
theorem step_ne_initial {t : Token} {s s' : State} (h : step t s = .more s') : s' ≠ .initial := by
  obtain ⟨definition, forms⟩ := s
  cases definition with
  | none =>
      rcases forms with _ | ⟨_ | _ | _, forms⟩ <;> simp only [step, inForms] at h
      · exact start_ne_initial h
      · split at h
        · cases h; simp [State.initial]
        · exact start_ne_initial h
      · split at h
        · exact complete_ne_initial h
        · exact start_ne_initial h
      · exact start_ne_initial h
  | some d =>
      cases d <;> simp only [step, inDefinition, expect] at h
      case close =>
        split at h
        · exact complete_ne_initial h
        · cases h
      all_goals
        repeat' split at h
        all_goals cases h
        all_goals simp [State.initial]

/-- Reading one expression, as a part of reading a program. -/
theorem readAll_run {s : State} {after : List Token} (before : List Token) (found : List Expr)
    (hs : s ≠ .initial ∨ (Cursor.mk before after).atEnd = false) :
    readAll ⟨found, s⟩ after =
      match run s before after with
      | (.ok e, c) => readAll ⟨found ++ [e], .initial⟩ c.after
      | (.error e, _) => .error e := by
  induction after generalizing s before with
  | nil =>
      obtain hs | hs := hs
      · obtain ⟨definition, forms⟩ := s
        cases definition <;> cases forms <;>
          simp_all [run, readAll, beforeEnd, endToken, Reading.finish, State.initial, Except.bind]
      · simp [Cursor.atEnd, Cursor.peek, Cursor.standIn, Token.endAt] at hs
  | cons t after ih =>
      by_cases ht : t.kind = .endOfInput
      · obtain hs | hs := hs
        · rw [readAll_end _ ht]
          obtain ⟨definition, forms⟩ := s
          cases definition <;> cases forms <;> simp_all [run, Reading.finish, State.initial]
        · simp [Cursor.atEnd, Cursor.peek, ht] at hs
      · rw [readAll_cons _ ht]
        unfold run
        rw [if_neg ht]
        simp only [Reading.take]
        cases hstep : step t s with
        | more s' => exact ih _ (Or.inl (step_ne_initial hstep))
        | done e => rfl
        | refuse detail => rfl
        | hollow => rfl

theorem readAll_program (c : Cursor) (found : List Expr) :
    readAll ⟨found, .initial⟩ c.after = (program c).1.map (found ++ ·) := by
  fun_induction program c generalizing found with
  | case1 c hend =>
      obtain ⟨before, after⟩ := c
      cases after with
      | nil => simp [readAll, beforeEnd, Except.bind, Reading.finish_initial, Except.map]
      | cons t after =>
          have ht : t.kind = .endOfInput := by simpa [Cursor.atEnd, Cursor.peek] using hend
          simp [readAll_end _ ht, Reading.finish_initial, Except.map]
  | case2 c hend e next h =>
      rw [readAll_run c.before found (Or.inr (by simpa using hend))]
      unfold expression at h
      simp only [State.initial, h, Except.map]
  | case3 c hend e next h hlt es last hrec ih =>
      rw [readAll_run c.before found (Or.inr (by simpa using hend))]
      unfold expression at h
      simp only [State.initial, h]
      have hnext := ih (found ++ [e])
      rw [hrec] at hnext
      rw [show (⟨none, []⟩ : State) = .initial from rfl, hnext]
      cases es <;> simp [Except.map]

end Parse

/-- **Parsing is reading every token in turn.** -/
theorem parse_eq_readAll (ts : List Token) : parse ts = Parse.readAll .initial ts := by
  have h := Parse.readAll_program (Cursor.ofList ts) []
  rw [show (Cursor.ofList ts).after = ts from rfl] at h
  rw [Parse.Reading.initial, h, parse]
  cases (Parse.program (Cursor.ofList ts)).1 <;> rfl

namespace Parse

theorem parse_eq_ok_iff_takeAll {ts : List Token} {forms : List Expr} :
    parse ts = .ok forms ↔ Reading.takeAll .initial (beforeEnd ts) = .ok ⟨forms, .initial⟩ := by
  rw [parse_eq_readAll, readAll]
  constructor
  · intro h
    obtain ⟨r, htake, hfinish⟩ := exists_of_bind_eq_ok h
    rw [htake, Reading.finish_eq_ok hfinish]
  · intro h
    rw [h]
    rfl

/-- Expressions that are complete are kept in front of those that follow. -/
theorem readAll_found (found : List Expr) (ts : List Token) :
    readAll ⟨found, .initial⟩ ts = (parse ts).map (found ++ ·) :=
  readAll_program (Cursor.ofList ts) found

/-! ### The beginning of a program

A beginning of a program is one that the fold does not refuse.  Whether a complaint comes at the end of
input or before is what tells an incomplete program from a wrong one.
-/

/-- A row of tokens after which the input has ended. -/
def Ended (ts : List Token) : Prop :=
  ∀ t ∈ ts.head?, t.kind = .endOfInput

theorem ended_nil : Ended [] := by
  simp [Ended]

theorem ended_endAt (line : Nat) : Ended [Token.endAt line] := by
  simp [Ended, Token.endAt]

theorem beforeEnd_of_ended {ts : List Token} (h : Ended ts) : beforeEnd ts = [] := by
  cases ts with
  | nil => rfl
  | cons t ts => simp [beforeEnd, show t.kind = .endOfInput from h t rfl]

/-- The outcome for tokens that have all been read, whatever stands behind them. -/
theorem parse_of_takeAll {ts us : List Token} {r : Reading} (hts : Endless ts) (hus : Ended us)
    (h : Reading.takeAll .initial ts = .ok r) : parse (ts ++ us) = r.finish (endToken us) := by
  rw [parse_eq_readAll, readAll, beforeEnd_append hts, endToken_append hts,
    beforeEnd_of_ended hus, List.append_nil, h]
  rfl

/-- Tokens at the beginning of a program are not refused. -/
theorem takeAll_of_parse {ts us : List Token} {forms : List Expr} (hts : Endless ts)
    (h : parse (ts ++ us) = .ok forms) :
    ∃ r, Reading.takeAll .initial ts = .ok r ∧ readAll r us = .ok forms := by
  rw [parse_eq_readAll, readAll, beforeEnd_append hts, endToken_append hts] at h
  obtain ⟨r', htake, hfinish⟩ := exists_of_bind_eq_ok h
  obtain ⟨r, hts', hus⟩ := Reading.exists_of_takeAll_append htake
  refine ⟨r, hts', ?_⟩
  rw [readAll, hus]
  exact hfinish

/-- A complaint at the end of input says that the program is incomplete. -/
theorem isIncomplete_of_finish {r : Reading} {us : List Token} {e : ParseError}
    (h : r.finish (endToken us) = .error e) : e.isIncomplete = true := by
  simp [ParseError.isIncomplete, Reading.finish_eq_error h, endToken_kind]

/-- Where the end of input is the only complaint, every token has been read. -/
theorem takeAll_of_isIncomplete {ts us : List Token} {e : ParseError} (hts : Endless ts)
    (h : parse (ts ++ us) = .error e) (he : e.isIncomplete = true) :
    ∃ r, Reading.takeAll .initial ts = .ok r := by
  cases htake : Reading.takeAll .initial ts with
  | ok r => exact ⟨r, rfl⟩
  | error e' =>
      rw [parse_eq_readAll, readAll, beforeEnd_append hts, Reading.takeAll_append_error htake] at h
      cases h
      have hmem := hts e.token (Reading.exists_of_takeAll_error htake).1
      simp [ParseError.isIncomplete, hmem] at he

end Parse

end SmallLisp
