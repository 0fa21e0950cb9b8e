/-
Tokens: the words of a program.

A token knows what kind of word it is, how it was spelled, the value it spells if it is a number
or a string, and the line it starts on.  Seven signs are operators, eight words are keywords,
and `true` and `nil` are the two words that stand for a value.
-/
import SmallLisp.Decimal.Layout
import SmallLisp.Text.Basic

namespace SmallLisp

/-- The signs that compute. -/
inductive Operator where
  | plus | minus | star | slash | equal | less | greater
deriving DecidableEq, Repr

/-- The words that begin a form with rules of its own.  `bind` is spelled `let` and `assign` is
spelled `set`. -/
inductive Keyword where
  | define | ifElse | begin | bind | assign | and | or | not
deriving DecidableEq, Repr

/-- The kinds of tokens. -/
inductive TokenKind where
  | leftParen
  | rightParen
  | operator (op : Operator)
  | keyword (word : Keyword)
  | number
  | string
  | symbol
  | true
  | nil
  | endOfInput
deriving DecidableEq, Repr

/-- The value that a number or a string token spells. -/
inductive Literal where
  | number (x : Float)
  | text (s : String)
deriving BEq, DecidableEq

/-- A token.  Two tokens are the same (`==`) if they agree in every field, numbers being compared
as numbers. -/
structure Token where
  kind : TokenKind
  lexeme : String
  literal : Option Literal
  line : Nat
deriving BEq, DecidableEq

/-! ### Spellings

Operators and keywords have one spelling each.  It is looked up in the list of them all, so that spelling a
word and recognising it cannot disagree.
-/

namespace Operator

/-- Every operator. -/
def all : List Operator := [plus, minus, star, slash, equal, less, greater]

/-- The sign of an operator. -/
def sign : Operator → Char
  | plus => '+'
  | minus => '-'
  | star => '*'
  | slash => '/'
  | equal => '='
  | less => '<'
  | greater => '>'

/-- The operator with a given sign. -/
def ofSign? (c : Char) : Option Operator :=
  all.find? fun op => op.sign = c

theorem ofSign?_sign (op : Operator) : ofSign? op.sign = some op := by
  cases op <;> rfl

/-- What an operator is called in a listing of tokens. -/
def label : Operator → String
  | plus => "Plus"
  | minus => "Minus"
  | star => "Star"
  | slash => "Slash"
  | equal => "Equal"
  | less => "Less"
  | greater => "Greater"

end Operator

namespace Keyword

/-- Every keyword. -/
def all : List Keyword := [define, ifElse, begin, bind, assign, and, or, not]

/-- The word itself. -/
def word : Keyword → String
  | define => "define"
  | ifElse => "if"
  | begin => "begin"
  | bind => "let"
  | assign => "set"
  | and => "and"
  | or => "or"
  | not => "not"

/-- The keyword spelled by a word. -/
def ofWord? (w : String) : Option Keyword :=
  all.find? fun k => k.word = w

theorem ofWord?_word (k : Keyword) : ofWord? k.word = some k := by
  cases k <;> rfl

/-- What a keyword is called in a listing of tokens. -/
def label : Keyword → String
  | define => "Define"
  | ifElse => "If"
  | begin => "Begin"
  | bind => "Let"
  | assign => "Set"
  | and => "And"
  | or => "Or"
  | not => "Not"

end Keyword

namespace TokenKind

/-- Every kind of token. -/
def all : List TokenKind :=
  [leftParen, rightParen] ++ Operator.all.map operator ++ [number, string, symbol, true, nil] ++
    Keyword.all.map keyword ++ [endOfInput]

/-- Whether a kind is that of an operator. -/
def isOperator : TokenKind → Bool
  | operator _ => Bool.true
  | _ => Bool.false

/-- Whether a kind is that of a keyword. -/
def isKeyword : TokenKind → Bool
  | keyword _ => Bool.true
  | _ => Bool.false

/-- How messages call a kind of token: by its spelling if it has just one. -/
def name : TokenKind → String
  | leftParen => "("
  | rightParen => ")"
  | operator op => op.sign.toString
  | keyword k => k.word
  | number => "number"
  | string => "string"
  | symbol => "symbol"
  | true => "true"
  | nil => "nil"
  | endOfInput => "end of input"

/-- What a kind is called in a listing of tokens. -/
def label : TokenKind → String
  | leftParen => "LeftParen"
  | rightParen => "RightParen"
  | operator op => op.label
  | keyword k => k.label
  | number => "Number"
  | string => "String"
  | symbol => "Symbol"
  | true => "True"
  | nil => "Nil"
  | endOfInput => "Eof"

/-- The kind of a reserved word: a keyword, `true` or `nil`. -/
def reserved? (w : String) : Option TokenKind :=
  match Keyword.ofWord? w with
  | some k => some (keyword k)
  | none => if w = "true" then some true else if w = "nil" then some nil else none

end TokenKind

/-! ### Descriptions -/

/-- A literal with its type, as descriptions show it. -/
def Literal.describe : Literal → String
  | .number x => "Number(" ++ Decimal.Layout.marked.text x ++ ")"
  | .text s => "Str(" ++ Text.quoted s ++ ")"

namespace Token

/-- The token that stands after the last one of a program. -/
def endAt (line : Nat) : Token :=
  ⟨.endOfInput, "", none, line⟩

/-- Where a message about a token points. -/
def place (t : Token) : String :=
  if t.kind = .endOfInput then "at end" else "at '" ++ t.lexeme ++ "'"

/-- A token with all its fields. -/
def describe (t : Token) : String :=
  t.kind.label ++ " " ++ Text.quoted t.lexeme ++ " @ line " ++ toString t.line ++
    match t.literal with
    | none => ""
    | some l => " = " ++ l.describe

/-- A message about a token, with its line and place. -/
def report (t : Token) (detail : String) : String :=
  "[line " ++ toString t.line ++ "] Error " ++ t.place ++ ": " ++ detail

end Token

end SmallLisp
