/-
Recursive descent, and that it comes to an end.

The grammar can be read off by functions that call each other: one for expressions, one for the rest
of a definition, and three loops, for operands, for parameters and for the expressions of a program.
Nothing in their text says that they come to an end.  The cursor does not move at the end of input,
so each loop depends on its body to fail or to take a token.  Here they are written down with a
`depth`, to which calls and the turns of loops can be nested; beyond it there is no outcome.

The depth never matters.  Twice the number of tokens that are left, and two more, is always enough,
and then the outcome is that of the reader with a stack (`expression_eq`, `program_eq`), errors and
the place of the cursor included.  The proof goes with the depth.  It follows the reader from state
to state: `Tracks` says that a part of the descent ends, and leaves the reader where the rest of the
descent takes over.

The reader needs one fact besides.  An expression that is awaited by an open form is read as it is
by itself, and is then handed to that form (`read_on`).
-/
import SmallLisp.Proofs.Parse.Progress

namespace SmallLisp.Parse

variable {c c' : Cursor} {s : State}

/-! ### The reader at a cursor

The reader with a stack takes its tokens from a cursor here, so that it can be compared with the descent
place by place.  It stops at the end of input, with an error about what it waits for.
-/

/-- What the reader comes to from a state. -/
def State.read (s : State) (c : Cursor) : Except ParseError Expr × Cursor :=
  run s c.before c.after

theorem expression_eq_read (c : Cursor) : expression c = State.initial.read c :=
  rfl

theorem read_end (h : c.atEnd = true) : s.read c = (.error (c.error s.missing), c) := by
  obtain ⟨before, after⟩ := c
  cases after with
  | nil => rfl
  | cons t after =>
      have ht : t.kind = .endOfInput := by simpa [Cursor.atEnd, Cursor.peek] using h
      rw [State.read, run, if_pos ht]
      rfl

/-- How the reader goes on after a token. -/
def Step.read (c : Cursor) : Step → Except ParseError Expr × Cursor
  | .more s => s.read c.advance
  | .done e => (.ok e, c.advance)
  | .refuse detail => (.error (c.error detail), c)
  | .hollow => (.error (c.error "unexpected literal type"), c.advance)

theorem read_step (h : c.atEnd = false) : s.read c = (step c.peek s).read c := by
  obtain ⟨before, after⟩ := c
  cases after with
  | nil => simp [Cursor.atEnd, Cursor.peek, Cursor.standIn, Token.endAt] at h
  | cons t after =>
      have ht : t.kind ≠ .endOfInput := by simpa [Cursor.atEnd, Cursor.peek] using h
      have hpeek : (Cursor.mk before (t :: after)).peek = t := rfl
      have hadvance : (Cursor.mk before (t :: after)).advance = ⟨t :: before, after⟩ := by
        simp [Cursor.advance, ht]
      rw [State.read, run, if_neg ht, hpeek]
      cases step t s <;> simp [Step.read, State.read, Cursor.error, hpeek, hadvance]

theorem length_advance (c : Cursor) : c.advance.after.length ≤ c.after.length := by
  unfold Cursor.advance
  split
  · exact Nat.le_refl _
  · split
    · exact Nat.le_refl _
    · simp [*]

theorem length_advance_lt (h : c.atEnd = false) : c.advance.after.length < c.after.length := by
  obtain ⟨before, after⟩ := c
  cases after with
  | nil => simp [Cursor.atEnd, Cursor.peek, Cursor.standIn, Token.endAt] at h
  | cons t after =>
      have ht : t.kind ≠ .endOfInput := by simpa [Cursor.atEnd, Cursor.peek] using h
      simp [Cursor.advance, ht]

/-! ### An expression that is awaited

The reader keeps the open forms on a stack, the descent keeps them in its calls.  What lies below an open
expression is not looked at until the expression is complete.  So the stack can be cut there, and what is
above the cut is what one call of the descent reads.
-/

/-- What a form waits for after an expression has been handed to it. -/
def OpenForm.take (e : Expr) : OpenForm → State
  | head => ⟨none, [operands e []]⟩
  | operands first read => ⟨none, [operands first (e :: read)]⟩
  | body name params => ⟨some (.close name params e), []⟩

/-- A state on top of an open form. -/
def State.on (form : OpenForm) (s : State) : State :=
  ⟨s.definition, s.forms ++ [form]⟩

/-- What a token comes to on top of an open form. -/
def Step.on (form : OpenForm) : Step → Step
  | .more s => .more (s.on form)
  | .done e => .more (form.take e)
  | .refuse detail => .refuse detail
  | .hollow => .hollow

variable {form : OpenForm}

theorem complete_on (e : Expr) (forms : List OpenForm) (form : OpenForm) :
    complete e (forms ++ [form]) = (complete e forms).on form := by
  rcases forms with _ | ⟨_ | _ | _, forms⟩
  · cases form <;> rfl
  all_goals rfl

theorem start_on (t : Token) (forms : List OpenForm) (form : OpenForm) :
    start t (forms ++ [form]) = (start t forms).on form := by
  unfold start
  cases t.kind with
  | leftParen | rightParen | endOfInput => rfl
  | operator | keyword | symbol | true | nil => exact complete_on ..
  | number | string => rcases t.literal with _ | ⟨_ | _⟩ <;> first | rfl | exact complete_on ..

theorem step_on (hs : s ≠ .initial) (t : Token) (form : OpenForm) :
    step t (s.on form) = (step t s).on form := by
  obtain ⟨_ | d, forms⟩ := s
  · rcases forms with _ | ⟨_ | ⟨first, read⟩ | ⟨name, params⟩, forms⟩
    · exact absurd rfl hs
    · simp only [step, State.on, List.cons_append, inForms]
      split
      · rfl
      · exact start_on t (.head :: forms) form
    · simp only [step, State.on, List.cons_append, inForms]
      split
      · exact complete_on _ forms form
      · exact start_on t (.operands first read :: forms) form
    · exact start_on t (.body name params :: forms) form
  · cases d <;> simp only [step, State.on, inDefinition, expect]
    case close => split <;> first | rfl | exact complete_on _ forms form
    all_goals repeat' split
    all_goals rfl

theorem missing_on (hs : s ≠ .initial) (form : OpenForm) : (s.on form).missing = s.missing := by
  obtain ⟨_ | d, forms⟩ := s
  · rcases forms with _ | ⟨_ | _ | _, forms⟩
    · exact absurd rfl hs
    all_goals rfl
  · rfl

/-- What an expression comes to once it has been read for a form: it is handed to the form, and the
reader goes on from there. -/
def OpenForm.receive (form : OpenForm) :
    Except ParseError Expr × Cursor → Except ParseError Expr × Cursor
  | (.ok e, c) => (form.take e).read c
  | (.error e, c) => (.error e, c)

/-- The form below an open expression plays no part until the expression is complete. -/
theorem read_on (hs : s ≠ .initial) (form : OpenForm) (c : Cursor) :
    (s.on form).read c = form.receive (s.read c) := by
  induction hn : c.after.length using Nat.strongRecOn generalizing s c with
  | _ n ih =>
      cases hend : c.atEnd with
      | true => rw [read_end hend, read_end hend, missing_on hs]; rfl
      | false =>
          rw [read_step hend, read_step hend, step_on hs]
          cases hstep : step c.peek s with
          | more s' =>
              exact ih _ (hn ▸ length_advance_lt hend) (step_ne_initial hstep) _ rfl
          | done e => rfl
          | refuse detail => rfl
          | hollow => rfl

/-- Where an expression begins, it is read as it is by itself. -/
theorem read_begun (hend : c.atEnd = false) (hbegin : inForms c.peek [form] = start c.peek [form]) :
    State.read ⟨none, [form]⟩ c = form.receive (expression c) := by
  rw [expression_eq_read, read_step hend, read_step hend]
  show (inForms c.peek [form]).read c = form.receive ((start c.peek []).read c)
  rw [hbegin, show start c.peek [form] = (start c.peek []).on form from start_on c.peek [] form]
  cases hstart : start c.peek [] with
  | more s => exact read_on (start_ne_initial hstart) form c.advance
  | done e => rfl
  | refuse detail => rfl
  | hollow => rfl

theorem read_head (hdefine : c.peek.kind ≠ .keyword .define) :
    State.read ⟨none, [.head]⟩ c = OpenForm.head.receive (expression c) := by
  cases hend : c.atEnd with
  | true => rw [expression_eq_read, read_end hend, read_end hend]; rfl
  | false => exact read_begun hend (if_neg hdefine)

theorem read_body (name : Token) (params : List Token) (c : Cursor) :
    State.read ⟨none, [.body name params]⟩ c =
      (OpenForm.body name params).receive (expression c) := by
  cases hend : c.atEnd with
  | true => rw [expression_eq_read, read_end hend, read_end hend]; rfl
  | false => exact read_begun hend rfl

theorem read_operand (first : Expr) (read : List Expr) (hend : c.atEnd = false)
    (hclose : c.check .rightParen = false) :
    State.read ⟨none, [.operands first read]⟩ c =
      (OpenForm.operands first read).receive (expression c) :=
  read_begun hend (if_neg (by simpa [Cursor.check] using hclose))

/-! ### The descent

Each function takes the depth that is left and hands on one less.  What it comes to is optional: there is
no outcome if the depth runs out, which no error of the parser stands for.
-/

/-- A part of the descent: what it comes to at a cursor, and where it leaves the cursor.  There is
nothing that it comes to if it goes too deep. -/
abbrev Descent := ExceptT ParseError (StateT Cursor Option)

namespace Descent

/-- A part that is too deep to come to anything. -/
def cutOff {α : Type} : Descent α := fun _ =>
  none

/-- Takes the next token. -/
def advance : Descent Token := fun c =>
  some (.ok c.peek, c.advance)

/-- Takes a token of the given kind. -/
def consume (kind : TokenKind) (detail : String) : Descent Token := fun c =>
  match c.consume kind detail with
  | .ok (t, c') => some (.ok t, c')
  | .error e => some (.error e, c)

/-- Looks at the cursor, and leaves it where it is. -/
def look {α : Type} (f : Cursor → α) : Descent α := fun c =>
  some (.ok (f c), c)

/-- Whether the next token is of the given kind. -/
def check (kind : TokenKind) : Descent Bool :=
  look fun c => c.check kind

/-- Whether a list of operands or of parameters goes no further: at its parenthesis, and at the end
of input. -/
def stops : Descent Bool :=
  look fun c => c.check .rightParen || c.atEnd

/-- Whether every token has been read. -/
def atEnd : Descent Bool :=
  look Cursor.atEnd

/-- An expression of one token. -/
def leaf : Descent Expr := fun c =>
  let t := c.peek
  match t.kind, t.literal with
  | .keyword _, _ => some (.ok (.keyword t), c.advance)
  | .operator _, _ => some (.ok (.operator t), c.advance)
  | .symbol, _ => some (.ok (.symbol t), c.advance)
  | .true, _ => some (.ok (.datum (.bool true)), c.advance)
  | .nil, _ => some (.ok (.datum .nil), c.advance)
  | .number, some (.number x) => some (.ok (.datum (.number x)), c.advance)
  | .string, some (.text s) => some (.ok (.datum (.text s)), c.advance)
  | .number, _ => some (.error (c.error "unexpected literal type"), c.advance)
  | .string, _ => some (.error (c.error "unexpected literal type"), c.advance)
  | .endOfInput, _ =>
    some (.error (c.error ("unexpected token: " ++ TokenKind.endOfInput.name)), c)
  | .leftParen, _ => some (.error (c.error ("unexpected token: " ++ t.lexeme)), c)
  | .rightParen, _ => some (.error (c.error ("unexpected token: " ++ t.lexeme)), c)

/-- The loop over the names of parameters. -/
def names : (depth : Nat) → Descent (List Token)
  | 0 => cutOff
  | depth + 1 => do
    if ← stops then
      return []
    else
      let name ← consume .symbol "expect parameter name"
      return name :: (← names depth)

/-- Parameters in their parentheses. -/
def params (depth : Nat) : Descent (List Token) := do
  let _ ← consume .leftParen "expect '(' before parameter list"
  let found ← names depth
  let _ ← consume .rightParen "expect ')' after parameter list"
  return found

/-- The name and the parameters of a definition, in parentheses of their own or without. -/
def signature (depth : Nat) : Descent (Token × List Token) := do
  if ← check .leftParen then
    let _ ← advance
    let name ← consume .symbol "expect function name"
    let found ← params depth
    let _ ← consume .rightParen "expect ')' after function signature"
    return (name, found)
  else
    let name ← consume .symbol "expect function name"
    return (name, ← params depth)

/-- Whether an expression makes the list whose head it is a definition. -/
def defines : Expr → Bool
  | .keyword t => t.kind = .keyword .define
  | _ => false

mutual

/-- An expression. -/
def expression : (depth : Nat) → Descent Expr
  | 0 => cutOff
  | depth + 1 => do
    if ← check .leftParen then
      let _ ← advance
      let head ← expression depth
      if defines head then
        definition depth
      else
        let found ← operands depth
        let _ ← consume .rightParen "expect ')' after expression"
        return .list head found
    else
      leaf

/-- The rest of a definition. -/
def definition : (depth : Nat) → Descent Expr
  | 0 => cutOff
  | depth + 1 => do
    let (name, found) ← signature depth
    let body ← expression depth
    let _ ← consume .rightParen "expect ')' after function definition"
    return .define name found body

/-- The loop over the operands of a list. -/
def operands : (depth : Nat) → Descent (List Expr)
  | 0 => cutOff
  | depth + 1 => do
    if ← stops then
      return []
    else
      let e ← expression depth
      return e :: (← operands depth)

end

/-- The loop over the expressions of a program. -/
def program : (depth : Nat) → Descent (List Expr)
  | 0 => cutOff
  | depth + 1 => do
    if ← atEnd then
      return []
    else
      let e ← expression depth
      return e :: (← program depth)

/-! ### One part after the other

The descent is a sequence of parts, and the reader has no parts.  `Tracks` relates the two at the place
where a part ends: `rest` is what the reader does from there.  `Tracks.bind` is the only lemma that puts
parts together.
-/

variable {α β : Type}

/-- What is left to the reader when a part of the descent has been left with an outcome. -/
def follow (rest : α → Cursor → Except ParseError Expr × Cursor) :
    Except ParseError α × Cursor → Except ParseError Expr × Cursor
  | (.ok a, c) => rest a c
  | (.error e, c) => (.error e, c)

/-- Whether a part of the descent comes to an end at a cursor, and its outcome and what it leaves to
the `rest` of the reader make up `whole`. -/
def Tracks (d : Descent α) (c : Cursor) (whole : Except ParseError Expr × Cursor)
    (rest : α → Cursor → Except ParseError Expr × Cursor) : Prop :=
  ∃ x c', d c = some (x, c') ∧ (∀ a, x = .ok a → c'.after.length ≤ c.after.length) ∧
    whole = follow rest (x, c')

/-- Nothing is left to the reader. -/
def done (e : Expr) (c : Cursor) : Except ParseError Expr × Cursor :=
  (.ok e, c)

variable {d d' : Descent α} {k : α → Descent β} {c c' : Cursor} {s : State}
  {whole : Except ParseError Expr × Cursor} {rest : α → Cursor → Except ParseError Expr × Cursor}
  {rest' : β → Cursor → Except ParseError Expr × Cursor}

theorem bind_ok {a : α} (h : d c = some (.ok a, c')) : (d >>= k) c = k a c' := by
  show (d c).bind _ = _
  rw [h]
  rfl

theorem bind_error {e : ParseError} (h : d c = some (.error e, c')) :
    (d >>= k) c = some (.error e, c') := by
  show (d c).bind _ = _
  rw [h]
  rfl

/-- A part of what comes to an end comes to an end. -/
theorem exists_of_bind {r : Except ParseError β × Cursor} (h : (d >>= k) c = some r) :
    ∃ r', d c = some r' := by
  cases hd : d c with
  | none =>
      rw [show (d >>= k) c = (d c).bind _ from rfl, hd] at h
      cases h
  | some r' => exact ⟨r', rfl⟩

theorem tracks_pure {a : α} (h : whole = rest a c) : Tracks (pure a) c whole rest :=
  ⟨.ok a, c, rfl, fun _ _ => Nat.le_refl _, h⟩

theorem Tracks.bind (h : Tracks d c whole rest)
    (hk : ∀ a c', d c = some (.ok a, c') → c'.after.length ≤ c.after.length →
      Tracks (k a) c' (rest a c') rest') : Tracks (d >>= k) c whole rest' := by
  obtain ⟨x, c', hd, hle, rfl⟩ := h
  cases x with
  | error e => exact ⟨.error e, c', bind_error hd, nofun, rfl⟩
  | ok a =>
      have hle := hle a rfl
      obtain ⟨y, c'', hka, hle', hrest⟩ := hk a c' hd hle
      exact ⟨y, c'', (bind_ok hd).trans hka, fun b hb => Nat.le_trans (hle' b hb) hle, hrest⟩

theorem Tracks.congr (h : Tracks d c whole rest) (hd : d' c = d c) : Tracks d' c whole rest := by
  obtain ⟨x, c', hx, hle, hwhole⟩ := h
  exact ⟨x, c', hd.trans hx, hle, hwhole⟩

theorem eq_of_tracks {d : Descent Expr} (h : Tracks d c whole done) : d c = some whole := by
  obtain ⟨x, c', hd, -, rfl⟩ := h
  rw [hd]
  cases x <;> rfl

theorem look_bind (f : Cursor → α) (k : α → Descent β) (c : Cursor) :
    (look f >>= k) c = k (f c) c :=
  rfl

/-! ### Tokens

A token is taken on both sides or refused on both sides, with the same complaint.  That it is taken needs
to be known besides that it brings the end of input nearer, which is what the loops end by.
-/

theorem kind_of_check {kind : TokenKind} (h : c.check kind = true) : c.peek.kind = kind := by
  simpa [Cursor.check] using h

theorem ne_of_check {kind : TokenKind} (h : c.check kind = false) : c.peek.kind ≠ kind := by
  simpa [Cursor.check] using h

theorem atEnd_of_check {kind : TokenKind} (hkind : kind ≠ .endOfInput) (h : c.check kind = true) :
    c.atEnd = false := by
  simp [Cursor.atEnd, kind_of_check h, hkind]

theorem tracks_advance {rest : Token → Cursor → Except ParseError Expr × Cursor}
    (hend : c.atEnd = false) (hnext : (step c.peek s).read c = rest c.peek c.advance) :
    Tracks advance c (s.read c) rest := by
  refine ⟨.ok c.peek, c.advance, rfl, fun _ _ => length_advance c, ?_⟩
  rw [read_step hend]
  exact hnext

theorem consume_of_check {kind : TokenKind} {detail : String} (h : c.check kind = true) :
    consume kind detail c = some (.ok c.peek, c.advance) := by
  simp [consume, Cursor.consume, h]

theorem consume_of_not_check {kind : TokenKind} {detail : String} (h : c.check kind = false) :
    consume kind detail c = some (.error (c.error detail), c) := by
  simp [consume, Cursor.consume, h]

/-- Taking a token brings the end of input nearer. -/
theorem length_consume {kind : TokenKind} {detail : String} {t : Token}
    (hkind : kind ≠ .endOfInput) (h : consume kind detail c = some (.ok t, c')) :
    c'.after.length < c.after.length := by
  cases hcheck : c.check kind with
  | true =>
      cases (consume_of_check hcheck).symm.trans h
      exact length_advance_lt (atEnd_of_check hkind hcheck)
  | false => cases (consume_of_not_check hcheck).symm.trans h

/-- A token is taken where the reader waits for it, and complained about where the reader does. -/
theorem tracks_consume {kind : TokenKind} {detail : String}
    {rest : Token → Cursor → Except ParseError Expr × Cursor} (hkind : kind ≠ .endOfInput)
    (hmissing : c.atEnd = true → s.missing = detail)
    (hother : c.atEnd = false → c.peek.kind ≠ kind → step c.peek s = .refuse detail)
    (hnext : c.peek.kind = kind → (step c.peek s).read c = rest c.peek c.advance) :
    Tracks (consume kind detail) c (s.read c) rest := by
  cases hcheck : c.check kind with
  | true =>
      have hend := atEnd_of_check hkind hcheck
      exact (tracks_advance hend (hnext (kind_of_check hcheck))).congr (consume_of_check hcheck)
  | false =>
      refine ⟨.error (c.error detail), c, consume_of_not_check hcheck, nofun, ?_⟩
      cases hend : c.atEnd with
      | true => rw [read_end hend, hmissing hend]; rfl
      | false => rw [read_step hend, hother hend (ne_of_check hcheck)]; rfl

/-- The reader waits for one kind of token. -/
theorem tracks_expect {kind : TokenKind} {detail : String} {next : Token → Step}
    {rest : Token → Cursor → Except ParseError Expr × Cursor} (hkind : kind ≠ .endOfInput)
    (hmissing : s.missing = detail) (hstep : ∀ t, step t s = expect kind detail t (next t))
    (hnext : (next c.peek).read c = rest c.peek c.advance) :
    Tracks (consume kind detail) c (s.read c) rest := by
  refine tracks_consume hkind (fun _ => hmissing) (fun _ hother => ?_) fun hkind => ?_
  · rw [hstep, expect, if_neg hother]
  · rw [hstep, expect, if_pos hkind, hnext]

/-! ### Lists up to their parenthesis

The two loops that a parenthesis ends have one proof.  The induction is on the tokens that are left, and
what the loop has gathered is carried along.
-/

/-- A loop, and the parenthesis behind it. -/
def closed (loop : Descent α) (detail : String) : Descent α := do
  let found ← loop
  let _ ← consume .rightParen detail
  return found

/-- What is made of the outcome of a loop can wait until its parenthesis has been read. -/
theorem closed_map (f : α → β) (loop : Descent α) (detail : String) :
    (do
      let found ← loop
      let _ ← consume .rightParen detail
      return f found) = (do return f (← closed loop detail)) := by
  simp only [closed, bind_assoc, pure_bind]

/-- **A loop up to a parenthesis ends**, if each turn that does not fail takes a token.  The reader
is in a state of its own for what has been read. -/
theorem tracks_loop {loop : Nat → Descent (List α)} {body : Nat → Descent α} {depth : Nat}
    (detail : String) (state : List α → State)
    (rest : List α → Cursor → Except ParseError Expr × Cursor)
    (hloop : ∀ n, loop (n + 1) = do
      if ← stops then
        return []
      else
        let a ← body n
        return a :: (← loop n))
    (hturn : ∀ n < depth, ∀ read c, 2 * c.after.length + 1 ≤ n →
      c.check .rightParen = false → c.atEnd = false →
        Tracks (body n) c ((state read).read c) fun a c' => (state (a :: read)).read c')
    (htaken : ∀ n < depth, ∀ c a c', 2 * c.after.length + 1 ≤ n → body n c = some (.ok a, c') →
      c'.after.length < c.after.length)
    (hclose : ∀ read c, c.check .rightParen = true ∨ c.atEnd = true →
      Tracks (consume .rightParen detail) c ((state read).read c) fun _ => rest read)
    (n : Nat) (hn : n ≤ depth) (read : List α) (c : Cursor) (hc : 2 * c.after.length + 2 ≤ n) :
    Tracks (closed (loop n) detail) c ((state read).read c)
      fun found => rest (found.reverse ++ read) := by
  induction n generalizing read c with
  | zero => omega
  | succ n ih =>
      rw [closed, hloop, bind_assoc]
      refine Tracks.congr ?_ (look_bind _ _ c)
      cases hstop : c.check .rightParen || c.atEnd with
      | true =>
          simp only [if_true, pure_bind]
          have hend := hclose read c (by simpa using hstop)
          exact hend.bind fun _ c' _ _ => tracks_pure rfl
      | false =>
          simp only [Bool.false_eq_true, if_false, bind_assoc, pure_bind]
          obtain ⟨hparen, hend⟩ := Bool.or_eq_false_iff.mp hstop
          have hc' : 2 * c.after.length + 1 ≤ n := by omega
          refine (hturn n hn read c hc' hparen hend).bind fun a c' hbody _ => ?_
          -- The turn has taken a token, so the others need two levels less; there is one less.
          have hlt := htaken n hn c a c' hc' hbody
          rw [closed_map]
          exact (ih (by omega) (a :: read) c' (by omega)).bind fun found c'' _ _ =>
            tracks_pure (by simp)

/-! ### Definitions -/

/-- What the reader waits for after the parameters of a definition. -/
def afterParams (name : Token) (found : List Token) : (nested : Bool) → State
  | true => ⟨some (.closeSignature name found), []⟩
  | false => ⟨none, [.body name found]⟩

theorem tracks_names {depth : Nat} (nested : Bool) (name : Token) (c : Cursor)
    (hc : 2 * c.after.length + 2 ≤ depth) :
    Tracks (closed (names depth) "expect ')' after parameter list") c
      (State.read ⟨some (.params nested name []), []⟩ c)
      fun found c' => (afterParams name found nested).read c' := by
  have hloop := tracks_loop "expect ')' after parameter list"
    (fun read => ⟨some (.params nested name read), []⟩)
    (fun read c' => (afterParams name read.reverse nested).read c') names.eq_2 ?turn
    (fun _ _ _ _ _ _ h => length_consume (by decide) h) ?close depth (Nat.le_refl _) [] c hc
  case turn =>
    intro n _ read c _ hparen hend
    refine tracks_consume (by decide) (fun hend' => ?_) (fun _ hother => ?_) fun hnext => ?_
    · cases hend.symm.trans hend'
    · simp [step, inDefinition, expect, ne_of_check hparen, hother]
    · simp [step, inDefinition, expect, hnext, Step.read]
  case close =>
    intro read c hstop
    refine tracks_consume (by decide) (fun _ => rfl) (fun hend hother => ?_) fun hnext => ?_
    · simp [Cursor.check, hend, hother] at hstop
    · cases nested <;> simp [step, inDefinition, hnext, Step.read, afterParams]
  simpa using hloop

theorem tracks_params {depth : Nat} (nested : Bool) (name : Token) (c : Cursor)
    (hc : 2 * c.after.length + 2 ≤ depth) :
    Tracks (params depth) c (State.read ⟨some (.openParams nested name), []⟩ c)
      fun found c' => (afterParams name found nested).read c' := by
  have hopen : Tracks (consume .leftParen "expect '(' before parameter list") c
      (State.read ⟨some (.openParams nested name), []⟩ c)
      fun _ c' => State.read ⟨some (.params nested name []), []⟩ c' :=
    tracks_expect (by decide) rfl (fun _ => rfl) rfl
  exact hopen.bind fun _ c' _ _ => tracks_names nested name c' (by omega)

theorem tracks_signature {depth : Nat} (c : Cursor) (hc : 2 * c.after.length + 2 ≤ depth) :
    Tracks (signature depth) c (State.read ⟨some .signature, []⟩ c)
      fun (name, found) c' => State.read ⟨none, [.body name found]⟩ c' := by
  rw [signature]
  refine Tracks.congr ?_ (look_bind _ _ c)
  cases hopen : c.check .leftParen with
  | true =>
      have hl : Tracks advance c (State.read ⟨some .signature, []⟩ c)
          fun _ c' => State.read ⟨some .nestedName, []⟩ c' := by
        refine tracks_advance (atEnd_of_check (by decide) hopen) ?_
        simp [step, inDefinition, kind_of_check hopen, Step.read]
      have hname (c : Cursor) : Tracks (consume .symbol "expect function name") c
          (State.read ⟨some .nestedName, []⟩ c)
          fun name c' => State.read ⟨some (.openParams true name), []⟩ c' :=
        tracks_expect (by decide) rfl (fun _ => rfl) rfl
      have hclose (name : Token) (found : List Token) (c : Cursor) :
          Tracks (consume .rightParen "expect ')' after function signature") c
            (State.read ⟨some (.closeSignature name found), []⟩ c)
            fun _ c' => State.read ⟨none, [.body name found]⟩ c' :=
        tracks_expect (by decide) rfl (fun _ => rfl) rfl
      rw [if_pos rfl]
      refine hl.bind fun _ c' _ _ => (hname c').bind fun name c' _ _ => ?_
      refine (tracks_params true name c' (by omega)).bind fun found c' _ _ => ?_
      exact (hclose name found c').bind fun _ c' _ _ => tracks_pure rfl
  | false =>
      have hname : Tracks (consume .symbol "expect function name") c
          (State.read ⟨some .signature, []⟩ c)
          fun name c' => State.read ⟨some (.openParams false name), []⟩ c' := by
        refine tracks_consume (by decide) (fun _ => rfl) (fun _ hother => ?_) fun hnext => ?_
        · simp [step, inDefinition, expect, ne_of_check hopen, hother]
        · simp [step, inDefinition, expect, hnext, Step.read]
      rw [if_neg (by decide)]
      refine hname.bind fun name c' _ _ => ?_
      exact (tracks_params false name c' (by omega)).bind fun found c' _ _ => tracks_pure rfl

/-! ### Expressions

`Agrees` is the claim at one depth, for all places with few enough tokens left.  The functions that call
`expression` are followed under the assumption that it holds one level down, and `expression_eq` closes the
circle by induction on the depth.
-/

/-- A depth at which the descent has the outcome of the reader wherever so few tokens are left that
it should be enough. -/
def Agrees (depth : Nat) : Prop :=
  ∀ c, 2 * c.after.length + 1 ≤ depth → expression depth c = some (Parse.expression c)

theorem Agrees.length_lt {depth : Nat} {e : Expr} (h : Agrees depth)
    (hc : 2 * c.after.length + 1 ≤ depth) (he : expression depth c = some (.ok e, c')) :
    c'.after.length < c.after.length :=
  length_after_run (Option.some.inj ((h c hc).symm.trans he))

/-- The expression that a form waits for. -/
theorem tracks_expression {depth : Nat} (h : Agrees depth) (hc : 2 * c.after.length + 1 ≤ depth)
    (form : OpenForm) :
    Tracks (expression depth) c (form.receive (Parse.expression c))
      fun e c' => (form.take e).read c' := by
  refine ⟨(Parse.expression c).1, (Parse.expression c).2, h c hc, fun e he => ?_, ?_⟩
  · exact Nat.le_of_lt (length_after_run (Prod.ext he rfl))
  · rcases Parse.expression c with ⟨e | e, c'⟩ <;> rfl

theorem tracks_definition {depth : Nat} (h : Agrees depth) (hc : 2 * c.after.length + 2 ≤ depth) :
    Tracks (definition (depth + 1)) c (State.read ⟨some .signature, []⟩ c) done := by
  have hclose (name : Token) (found : List Token) (body : Expr) (c : Cursor) :
      Tracks (consume .rightParen "expect ')' after function definition") c
        (State.read ⟨some (.close name found body), []⟩ c)
        fun _ => done (.define name found body) :=
    tracks_expect (by decide) rfl (fun _ => rfl) rfl
  rw [definition]
  refine (tracks_signature c hc).bind fun (name, found) c' _ hle => ?_
  have hbody := tracks_expression h (c := c') (by omega) (.body name found)
  rw [← read_body] at hbody
  refine hbody.bind fun body c' _ _ => ?_
  exact (hclose name found body c').bind fun _ c' _ _ => tracks_pure rfl

theorem tracks_operands {depth : Nat} (head : Expr) (h : ∀ n < depth, Agrees n)
    (hc : 2 * c.after.length + 2 ≤ depth) :
    Tracks (closed (operands depth) "expect ')' after expression") c
      (State.read ⟨none, [.operands head []]⟩ c) fun found => done (.list head found) := by
  have hloop := tracks_loop "expect ')' after expression"
    (fun read => ⟨none, [.operands head read]⟩) (fun read => done (.list head read.reverse))
    operands.eq_2 ?turn (fun n hn c e c' hc => (h n hn).length_lt hc) ?close depth (Nat.le_refl _)
    [] c hc
  case turn =>
    intro n hn read c' hc' hparen hend
    rw [read_operand head read hend hparen]
    exact tracks_expression (h n hn) hc' (.operands head read)
  case close =>
    intro read c hstop
    refine tracks_consume (by decide) (fun _ => rfl) (fun hend hother => ?_) fun hnext => ?_
    · simp [Cursor.check, hend, hother] at hstop
    · simp [step, inForms, hnext, complete, Step.read, done]
  simpa using hloop

/-- An expression of one token. -/
theorem leaf_eq (hopen : c.check .leftParen = false) : leaf c = some (Parse.expression c) := by
  have hne := ne_of_check hopen
  rw [expression_eq_read]
  cases hend : c.atEnd with
  | true =>
      have hpeek : c.peek.kind = .endOfInput := by simpa [Cursor.atEnd] using hend
      rw [read_end hend]
      simp [leaf, hpeek, State.missing, State.initial]
  | false =>
      have hpeek : c.peek.kind ≠ .endOfInput := by simpa [Cursor.atEnd] using hend
      rw [read_step hend]
      show leaf c = some ((start c.peek []).read c)
      cases hkind : c.peek.kind with
      | leftParen => exact absurd hkind hne
      | endOfInput => exact absurd hkind hpeek
      | number =>
          rcases hliteral : c.peek.literal with _ | ⟨_ | _⟩ <;>
            simp [leaf, start, hkind, hliteral, complete, Step.read]
      | string =>
          rcases hliteral : c.peek.literal with _ | ⟨_ | _⟩ <;>
            simp [leaf, start, hkind, hliteral, complete, Step.read]
      | rightParen | operator | keyword | symbol | true | nil =>
          simp [leaf, start, hkind, complete, Step.read]

/-- An expression that begins with `define` is that word. -/
theorem peek_of_defines {e : Expr} (h : Parse.expression c = (.ok e, c')) (he : defines e = true) :
    c.peek.kind = .keyword .define := by
  obtain ⟨ts, hpasses, hspells⟩ := exists_spells_of_expression h
  cases hspells with
  | @leaf t _ hleaf =>
      have hpeek : c.peek = t := by rw [Cursor.peek, hpasses.after_eq]; rfl
      cases hleaf with
      | keyword hkind => simpa [defines, hpeek] using he
      | _ => cases he
  | list => cases he
  | define => cases he

/-- How the reader goes on behind the head of a list. -/
def behindHead (e : Expr) (c : Cursor) : Except ParseError Expr × Cursor :=
  if defines e then State.read ⟨some .signature, []⟩ c
  else State.read ⟨none, [.operands e []]⟩ c

theorem tracks_head {depth : Nat} (h : Agrees depth) (hc : 2 * c.after.length + 1 ≤ depth) :
    Tracks (expression depth) c (State.read ⟨none, [.head]⟩ c) behindHead := by
  by_cases hdefine : c.peek.kind = .keyword .define
  · have hend : c.atEnd = false := by simp [Cursor.atEnd, hdefine]
    have hword : Parse.expression c = (.ok (.keyword c.peek), c.advance) := by
      rw [expression_eq_read, read_step hend]
      simp [step, State.initial, inForms, start, hdefine, complete, Step.read]
    refine ⟨.ok (.keyword c.peek), c.advance, (h c hc).trans (congrArg some hword),
      fun _ _ => length_advance c, ?_⟩
    rw [read_step hend]
    simp [step, inForms, hdefine, Step.read, follow, behindHead, defines]
  · rw [read_head hdefine]
    obtain ⟨x, c', hx, hle, hwhole⟩ := tracks_expression h hc .head
    refine ⟨x, c', hx, hle, ?_⟩
    cases x with
    | error e => exact hwhole
    | ok e =>
        have hother : defines e = false := by
          by_contra hdefines
          have hrun := Option.some.inj ((h c hc).symm.trans hx)
          exact hdefine (peek_of_defines hrun (by simpa using hdefines))
        rw [hwhole, follow, follow, behindHead, hother]
        rfl

/-- **The descent comes to an end at every place, with the outcome of the reader.** -/
theorem expression_eq (depth : Nat) : Agrees depth := by
  induction depth using Nat.strongRecOn with
  | _ depth ih =>
      intro c hc
      obtain ⟨n, rfl⟩ : ∃ n, depth = n + 1 := Nat.exists_eq_add_one.mpr (by omega)
      rw [expression, check, look_bind]
      cases hopen : c.check .leftParen with
      | false => exact leaf_eq hopen
      | true =>
          rw [if_pos rfl]
          have hend := atEnd_of_check (by decide) hopen
          have hl : Tracks advance c (State.initial.read c)
              fun _ c' => State.read ⟨none, [.head]⟩ c' := by
            refine tracks_advance hend ?_
            simp [step, State.initial, inForms, start, kind_of_check hopen, Step.read]
          refine eq_of_tracks (hl.bind fun _ c' hadvance _ => ?_)
          obtain rfl : c' = c.advance := by cases hadvance; rfl
          -- The parenthesis and the head take a token each, which pays for the level of the operands
          -- or of the definition.
          have hlt := length_advance_lt hend
          have hhead := ih n (by omega)
          refine (tracks_head hhead (by omega)).bind fun head c' hexpression _ => ?_
          have hlt' := hhead.length_lt (by omega) hexpression
          unfold behindHead
          split
          · obtain ⟨m, rfl⟩ : ∃ m, n = m + 1 := Nat.exists_eq_add_one.mpr (by omega)
            exact tracks_definition (ih m (by omega)) (by omega)
          · rw [closed_map (Expr.list head)]
            have hleft : 2 * c'.after.length + 2 ≤ n := by omega
            have hoperands := tracks_operands head (fun m hm => ih m (by omega)) hleft
            exact hoperands.bind fun found _ _ _ => tracks_pure rfl

theorem program_eq (depth : Nat) (c : Cursor) (hc : 2 * c.after.length + 2 ≤ depth) :
    program depth c = some (Parse.program c) := by
  induction depth generalizing c with
  | zero => omega
  | succ n ih =>
      rw [program, atEnd, look_bind]
      cases hend : c.atEnd with
      | true =>
          rw [program_end hend]
          rfl
      | false =>
          rw [if_neg (by decide)]
          have hexpression := expression_eq n c (by omega)
          rcases hfirst : Parse.expression c with ⟨e | e, next⟩
          · rw [hfirst] at hexpression
            rw [program_error hend hfirst]
            exact bind_error hexpression
          · rw [hfirst] at hexpression
            have hlt : next.after.length < c.after.length := length_after_run hfirst
            have hrest := ih next (by omega)
            rw [program_ok hend hfirst, bind_ok hexpression]
            rcases hlast : Parse.program next with ⟨e' | es, last⟩
            · exact bind_error (hrest.trans (congrArg some hlast))
            · exact bind_ok (hrest.trans (congrArg some hlast))

/-- The loop over operands ends wherever it begins. -/
theorem exists_operands {depth : Nat} (c : Cursor) (hc : 2 * c.after.length + 2 ≤ depth) :
    ∃ r, operands depth c = some r := by
  obtain ⟨x, c', hclosed, -, -⟩ := tracks_operands (.datum .nil) (fun n _ => expression_eq n) hc
  exact exists_of_bind hclosed

/-- The loop over the names of parameters ends wherever it begins. -/
theorem exists_names {depth : Nat} (c : Cursor) (hc : 2 * c.after.length + 2 ≤ depth) :
    ∃ r, names depth c = some r := by
  obtain ⟨x, c', hclosed, -, -⟩ := tracks_names false Cursor.standIn c hc
  exact exists_of_bind hclosed

end Descent

/-! ### Progress

With the descent at hand, what is known of single calls and of sequences of calls also holds of its loops:
each of them ends wherever it begins.
-/

/-- **The parser makes progress and does not pass the end.**  Wherever some calls have led, failed
or not, the cursor has gone over tokens before the first end of input only.  An expression that is
read from there takes the tokens that spell it, and no others.  Expressions, programs and the loops
over operands and parameters come to an end at every place, errors included, with calls and turns
nested no deeper than twice the number of tokens left, and two more.  What stands from the first end
of input on, if it is there at all, changes nothing but the token in a complaint about it. -/
theorem progress_before_end (ts : List Token) (calls : List Call) :
    let c := reach ts calls
    (ts = c.before.reverse ++ c.after ∧
        c.before.length ≤ ts.findIdx fun t => t.kind = .endOfInput) ∧
      (∀ e c', expression c = (.ok e, c') →
        ∃ taken, taken ≠ [] ∧ Passes c taken c' ∧ Spells e taken) ∧
      (∀ depth place, 2 * place.after.length + 2 ≤ depth →
        Descent.expression depth place = some (expression place) ∧
          Descent.program depth place = some (program place) ∧
          (∃ r, Descent.operands depth place = some r) ∧
          ∃ r, Descent.names depth place = some r) ∧
      ∀ us, beforeEnd us = beforeEnd ts →
        (reach us calls).before = c.before ∧
          SameButEnd (endToken ts) (endToken us)
            (expression c).1 (expression (reach us calls)).1 ∧
          SameButEnd (endToken ts) (endToken us) (program c).1 (program (reach us calls)).1 := by
  intro c
  have hwithin : Within ts c := within_reach ts calls
  refine ⟨⟨hwithin.tokens_eq, hwithin.length_before_le⟩, ?taken, ?ends, ?same⟩
  case taken =>
    intro e c' he
    obtain ⟨taken, hpasses, hspells⟩ := exists_spells_of_expression he
    exact ⟨taken, ne_nil_of_spells hspells, hpasses, hspells⟩
  case ends =>
    intro depth place hdepth
    exact ⟨Descent.expression_eq depth place (by omega), Descent.program_eq depth place hdepth,
      Descent.exists_operands place hdepth, Descent.exists_names place hdepth⟩
  case same =>
    intro us hus
    have hplace : SamePlace c (reach us calls) := samePlace_reach hus calls
    have hexpression := (same_expression hplace).1
    have hprogram := (same_program hplace).1
    rw [hwithin.endToken_eq, (within_reach us calls).endToken_eq] at hexpression hprogram
    exact ⟨hplace.before_eq.symm, hexpression, hprogram⟩

/-- `(define define` fails at its last word.  That word is then read by itself, up to the end of
input, whether there is a token for it and a parenthesis behind it or not. -/
theorem progress_behind_definition :
    let l : Token := ⟨.leftParen, "(", none, 1⟩
    let word : Token := ⟨.keyword .define, "define", none, 1⟩
    let r : Token := ⟨.rightParen, ")", none, 2⟩
    let ts := [l, word, word, .endAt 1, r]
    let c := reach ts [.program]
    (program (.ofList ts)).1 = .error ⟨word, "expect function name"⟩ ∧
      (∃ taken, taken ≠ [] ∧ Passes c taken ⟨[word, word, l], [.endAt 1, r]⟩ ∧
        Spells (.keyword word) taken) ∧
      Descent.program 8 c = some (program c) ∧
      SameButEnd (.endAt 1) Cursor.standIn (program c).1
        (program (reach [l, word, word] [.program])).1 := by
  intro l word r ts c
  have hfail : program (.ofList ts) = (.error ⟨word, "expect function name"⟩,
      ⟨[word, l], [word, .endAt 1, r]⟩) :=
    program_error rfl rfl
  have hc : c = ⟨[word, l], [word, .endAt 1, r]⟩ := congrArg Prod.snd hfail
  have hword : expression c = (.ok (.keyword word), ⟨[word, word, l], [.endAt 1, r]⟩) := by
    rw [hc]; rfl
  have hdepth : 2 * c.after.length + 2 ≤ 8 := by rw [hc]; decide
  obtain ⟨-, htaken, hends, hsame⟩ := progress_before_end ts [.program]
  exact ⟨congrArg Prod.fst hfail, htaken _ _ hword, (hends 8 c hdepth).2.1,
    (hsame [l, word, word] rfl).2.2⟩

end SmallLisp.Parse
