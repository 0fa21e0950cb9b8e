/-
A place in a row of tokens.

A cursor stands before the token that is to be read next.  The row ends before its first token of
kind `endOfInput`, which no cursor ever passes; where there is none, a stand-in is seen at the
end.
-/
import SmallLisp.Token.Basic

namespace SmallLisp

/-- Why a row of tokens is not a program: a token, and what is wrong there. -/
structure ParseError where
  token : Token
  detail : String
deriving BEq, DecidableEq

namespace ParseError

/-- What is wrong with a row of tokens, and where. -/
def message (e : ParseError) : String :=
  e.token.report e.detail

/-- Whether the row of tokens ended too early. -/
def isIncomplete (e : ParseError) : Bool :=
  e.token.kind = .endOfInput

end ParseError

/-- A place in a row of tokens: the tokens before it, the nearest first, and those after it. -/
structure Cursor where
  before : List Token
  after : List Token

namespace Cursor

/-- What is seen where there is no token. -/
def standIn : Token :=
  .endAt 0

/-- The place before the first token. -/
def ofList (ts : List Token) : Cursor :=
  ⟨[], ts⟩

/-- The token that is to be read next. -/
def peek (c : Cursor) : Token :=
  c.after.headD standIn

/-- The token that was read last. -/
def previous (c : Cursor) : Token :=
  c.before.headD standIn

/-- Whether every token has been read. -/
def atEnd (c : Cursor) : Bool :=
  c.peek.kind = .endOfInput

/-- The place after the next token, or the same place at the end. -/
def advance (c : Cursor) : Cursor :=
  match c.after with
  | [] => c
  | t :: ts => if t.kind = .endOfInput then c else ⟨t :: c.before, ts⟩

/-- Whether the next token is of the given kind. -/
def check (c : Cursor) (kind : TokenKind) : Bool :=
  c.peek.kind = kind

/-- A complaint about the next token. -/
def error (c : Cursor) (detail : String) : ParseError :=
  ⟨c.peek, detail⟩

/-- Reads the next token, which must be of the given kind. -/
def consume (c : Cursor) (kind : TokenKind) (detail : String) :
    Except ParseError (Token × Cursor) :=
  if c.check kind then .ok (c.peek, c.advance) else .error (c.error detail)

end Cursor

end SmallLisp
