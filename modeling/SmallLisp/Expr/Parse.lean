/-
From tokens to expressions.

    expression  ::=  leaf
                  |  "(" expression expression* ")"
                  |  "(" "define" name "(" name* ")" expression ")"
                  |  "(" "define" "(" name "(" name* ")" ")" expression ")"

The reader keeps a stack of the forms that are open and wait for an expression, innermost first.
Every token moves the innermost form one step, and a token that completes an expression hands it
to the form around it.  So the reader looks at no token twice, and it complains at the first token
that no continuation can mend.

`define` opens a definition only where the head of a list is awaited.  In every other place it is
a leaf like any keyword.
-/
import SmallLisp.Cursor
import SmallLisp.Expr.Basic

namespace SmallLisp.Parse

/-- A form that is open and waits for an expression. -/
inductive OpenForm where
  /-- After `(`: the head. -/
  | head
  /-- After `(head operand*`: another operand, if the list does not end.  The operands that have
  been read are in reverse. -/
  | operands (head : Expr) (read : List Expr)
  /-- After the signature of a definition: the body. -/
  | body (name : Token) (params : List Token)

/-- A definition that is open and waits for a name or a parenthesis. -/
inductive OpenDefinition where
  /-- After `(define`: the name, or the opening of a nested signature. -/
  | signature
  /-- After `(define (`: the name. -/
  | nestedName
  /-- After the name: the opening of the parameters. -/
  | openParams (nested : Bool) (name : Token)
  /-- Among the parameters: another one, if they do not end.  Those that have been read are in
  reverse. -/
  | params (nested : Bool) (name : Token) (read : List Token)
  /-- After the parameters of a nested signature: its end. -/
  | closeSignature (name : Token) (params : List Token)
  /-- After the body: the end of the definition. -/
  | close (name : Token) (params : List Token) (body : Expr)

/-- What a reader has read of an expression: the definition that is innermost and waits for no
expression, if there is one, and the forms around it. -/
structure State where
  definition : Option OpenDefinition
  forms : List OpenForm

/-- What reading one token comes to. -/
inductive Step where
  /-- The expression goes on. -/
  | more (s : State)
  /-- The expression is complete. -/
  | done (e : Expr)
  /-- The token is out of place. -/
  | refuse (detail : String)
  /-- The token is in place, but spells no value of its kind. -/
  | hollow

/-! ### One token

A token is read in one of three ways: as an expression, as the end of a list, or as what a definition waits
for.  No function here is recursive, since a complete expression goes to the innermost form and that form
waits for more.
-/

/-- Hands a complete expression to the innermost open form. -/
def complete (e : Expr) : List OpenForm → Step
  | [] => .done e
  | .head :: forms => .more ⟨none, .operands e [] :: forms⟩
  | .operands head read :: forms => .more ⟨none, .operands head (e :: read) :: forms⟩
  | .body name params :: forms => .more ⟨some (.close name params e), forms⟩

/-- Reads a token as an expression or the start of one. -/
def start (t : Token) (forms : List OpenForm) : Step :=
  match t.kind with
  | .leftParen => .more ⟨none, .head :: forms⟩
  | .keyword _ => complete (.keyword t) forms
  | .operator _ => complete (.operator t) forms
  | .symbol => complete (.symbol t) forms
  | .true => complete (.datum (.bool true)) forms
  | .nil => complete (.datum .nil) forms
  | .number =>
    match t.literal with
    | some (.number x) => complete (.datum (.number x)) forms
    | _ => .hollow
  | .string =>
    match t.literal with
    | some (.text s) => complete (.datum (.text s)) forms
    | _ => .hollow
  | .rightParen | .endOfInput => .refuse ("unexpected token: " ++ t.lexeme)

/-- Reads a token where an expression is awaited, or perhaps the end of a list. -/
def inForms (t : Token) : List OpenForm → Step
  | [] => start t []
  | .head :: forms =>
    if t.kind = .keyword .define then .more ⟨some .signature, forms⟩ else start t (.head :: forms)
  | .operands head read :: forms =>
    if t.kind = .rightParen then complete (.list head read.reverse) forms
    else start t (.operands head read :: forms)
  | .body name params :: forms => start t (.body name params :: forms)

/-- Reads a token that has to be of a given kind. -/
def expect (kind : TokenKind) (detail : String) (t : Token) (next : Step) : Step :=
  if t.kind = kind then next else .refuse detail

/-- Reads a token that a definition waits for. -/
def inDefinition (t : Token) (forms : List OpenForm) : OpenDefinition → Step
  | .signature =>
    if t.kind = .leftParen then .more ⟨some .nestedName, forms⟩
    else expect .symbol "expect function name" t (.more ⟨some (.openParams false t), forms⟩)
  | .nestedName =>
    expect .symbol "expect function name" t (.more ⟨some (.openParams true t), forms⟩)
  | .openParams nested name =>
    expect .leftParen "expect '(' before parameter list" t
      (.more ⟨some (.params nested name []), forms⟩)
  | .params nested name read =>
    if t.kind = .rightParen then
      if nested then .more ⟨some (.closeSignature name read.reverse), forms⟩
      else .more ⟨none, .body name read.reverse :: forms⟩
    else
      expect .symbol "expect parameter name" t (.more ⟨some (.params nested name (t :: read)), forms⟩)
  | .closeSignature name params =>
    expect .rightParen "expect ')' after function signature" t
      (.more ⟨none, .body name params :: forms⟩)
  | .close name params body =>
    expect .rightParen "expect ')' after function definition" t
      (complete (.define name params body) forms)

/-- Reads one token. -/
def step (t : Token) (s : State) : Step :=
  match s.definition with
  | none => inForms t s.forms
  | some d => inDefinition t s.forms d

/-! ### The end of input

Whatever is open when there are no more tokens, there is one thing that is missing next.
-/

/-- The complaint of an open definition when there are no more tokens. -/
def OpenDefinition.missing : OpenDefinition → String
  | signature => "expect function name"
  | nestedName => "expect function name"
  | openParams _ _ => "expect '(' before parameter list"
  | params _ _ _ => "expect ')' after parameter list"
  | closeSignature _ _ => "expect ')' after function signature"
  | close _ _ _ => "expect ')' after function definition"

/-- The complaint when there are no more tokens. -/
def State.missing (s : State) : String :=
  match s.definition, s.forms with
  | some d, _ => d.missing
  | none, .operands _ _ :: _ => "expect ')' after expression"
  | none, _ => "unexpected token: " ++ TokenKind.endOfInput.name

/-! ### Expressions and programs

Reading stops with the first complete expression.  As it takes a token at least, reading one expression after
the other comes to an end.
-/

/-- Reads tokens until the expression is complete, a token is refused or there are no more.  The
refused token has not been read then; one that spells no value has. -/
def run (s : State) (before : List Token) :
    (after : List Token) → Except ParseError Expr × Cursor
  | [] => (.error ⟨Cursor.standIn, s.missing⟩, ⟨before, []⟩)
  | t :: after =>
    if t.kind = .endOfInput then (.error ⟨t, s.missing⟩, ⟨before, t :: after⟩)
    else
      match step t s with
      | .more s => run s (t :: before) after
      | .done e => (.ok e, ⟨t :: before, after⟩)
      | .refuse detail => (.error ⟨t, detail⟩, ⟨before, t :: after⟩)
      | .hollow => (.error ⟨t, "unexpected literal type"⟩, ⟨t :: before, after⟩)

/-- Reads one expression. -/
def expression (c : Cursor) : Except ParseError Expr × Cursor :=
  run ⟨none, []⟩ c.before c.after

/-- Reading an expression takes at least one token. -/
theorem length_after_run {s : State} {before after : List Token} {e : Expr} {c : Cursor}
    (h : run s before after = (.ok e, c)) : c.after.length < after.length := by
  induction after generalizing s before with
  | nil => simp [run] at h
  | cons t after ih =>
    unfold run at h
    split at h
    · simp at h
    · split at h
      · have := ih h
        simp only [List.length_cons]
        omega
      · cases h
        exact Nat.lt_succ_self _
      · simp at h
      · simp at h

/-- Reads expressions until there are no more tokens. -/
def program (c : Cursor) : Except ParseError (List Expr) × Cursor :=
  if c.atEnd then (.ok [], c)
  else
    match h : expression c with
    | (.error e, next) => (.error e, next)
    | (.ok e, next) =>
      have : next.after.length < c.after.length := length_after_run h
      let (es, last) := program next
      (es.map (e :: ·), last)
termination_by c.after.length

end SmallLisp.Parse

namespace SmallLisp

/-- The expressions that a row of tokens holds. -/
def parse (ts : List Token) : Except ParseError (List Expr) :=
  (Parse.program (.ofList ts)).1

end SmallLisp
