/-
From the text of a program to its tokens.

White space and comments separate tokens and are dropped.  What follows them is read as the
longest token that begins there: a parenthesis or an operator, a number, a symbol or reserved
word, or a string.  A string ends at the first quote that no backslash precedes; its backslashes
each take the next character with them, which may be anything but a line break.

Scanning stops at the first place where no token begins, where a string does not end, or where a
string that does end has an escape without meaning.  Otherwise the tokens are followed by one
that marks the end of input.  A token's line is one more than the number of line breaks before
it, as far as a line number goes.
-/
import SmallLisp.Token.Basic

namespace SmallLisp

/-- Why a text is not a row of tokens. -/
inductive ScanError where
  /-- No token begins with this character. -/
  | unexpectedCharacter (c : Char) (line : Nat)
  /-- A string that begins on this line does not end. -/
  | unterminatedString (line : Nat)
  /-- A string that begins on this line has a backslash before this character. -/
  | invalidEscape (c : Char) (line : Nat)
deriving DecidableEq, Repr

namespace ScanError

/-- The line of the token that could not be read. -/
def line : ScanError → Nat
  | unexpectedCharacter _ line => line
  | unterminatedString line => line
  | invalidEscape _ line => line

/-- The character that is at fault, if there is one. -/
def character? : ScanError → Option Char
  | unexpectedCharacter c _ => some c
  | unterminatedString _ => none
  | invalidEscape c _ => some c

/-- What is wrong with a text, and on which line. -/
def message (e : ScanError) : String :=
  "[line " ++ toString e.line ++ "] Error: " ++
    match e with
    | unexpectedCharacter c _ => "unexpected character '" ++ c.toString ++ "'"
    | unterminatedString _ => "unterminated string"
    | invalidEscape c _ => "invalid escape sequence '\\" ++ c.toString ++ "' in string"

end ScanError

namespace Scan

/-! ### Lines -/

/-- Line numbers go no further than this. -/
def lastLine : Nat := 4294967295

/-- The number of line breaks in a piece of text. -/
def lineBreaks (cs : List Char) : Nat :=
  cs.count '\n'

/-! ### Between tokens

The line goes along while text is dropped.  A comment leaves its line break where it is, to be counted as
any other.
-/

/-- The white space that separates tokens, line breaks apart. -/
def isGap (c : Char) : Bool :=
  c = ' ' || c = '\t' || c = '\r' || c = '\x0c'

/-- Drops white space and comments, and counts lines.  A comment, begun by a semicolon, goes on
to the next line break. -/
def skip (line : Nat) (inComment : Bool) : List Char → Nat × List Char
  | [] => (line, [])
  | c :: cs =>
    if c = '\n' then skip (line + 1) false cs
    else if inComment || isGap c then skip line inComment cs
    else if c = ';' then skip line true cs
    else (line, c :: cs)

/-! ### Single signs -/

/-- The kind of a token that is one sign. -/
def sign? (c : Char) : Option TokenKind :=
  if c = '(' then some .leftParen
  else if c = ')' then some .rightParen
  else (Operator.ofSign? c).map .operator

/-! ### Numbers

A point belongs to a number only if a digit follows it.  So whether it does is asked before it is taken.
-/

/-- A decimal digit. -/
def isDigit (c : Char) : Bool :=
  c.isDigit

/-- The digits after a point, and what follows them, if the text begins with a point and a
digit. -/
def fraction? : List Char → Option (List Char × List Char)
  | '.' :: d :: cs =>
    if isDigit d then some (d :: cs.takeWhile isDigit, cs.dropWhile isDigit) else none
  | _ => none

/-- The number at the start of a text that begins with a digit, and what follows it. -/
def number (line : Nat) (cs : List Char) : Token × List Char :=
  let whole := cs.takeWhile isDigit
  let rest := cs.dropWhile isDigit
  match fraction? rest with
  | none => (token whole (Decimal.ofDigits whole []), rest)
  | some (fraction, rest) =>
    (token (whole ++ '.' :: fraction) (Decimal.ofDigits whole fraction), rest)
where
  token (spelling : List Char) (value : Decimal) : Token :=
    ⟨.number, String.ofList spelling, some (.number value.toFloat), line⟩

/-! ### Symbols

A reserved word is read as a symbol is, to its end, and only then recognised.  So a symbol may begin with
a reserved word.
-/

/-- A character that may begin a symbol. -/
def isSymbolStart (c : Char) : Bool :=
  c.isAlpha || c = '_' || c = '!' || c = '?' || c = '$' || c = '%' || c = '&' || c = '^' || c = '~'

/-- A character that may continue a symbol. -/
def isSymbolPart (c : Char) : Bool :=
  isSymbolStart c || isDigit c || c = '-'

/-- The symbol or reserved word at the start of a text, and what follows it. -/
def word (line : Nat) (cs : List Char) : Token × List Char :=
  let spelling := String.ofList (cs.takeWhile isSymbolPart)
  (⟨(TokenKind.reserved? spelling).getD .symbol, spelling, none, line⟩, cs.dropWhile isSymbolPart)

/-! ### Strings

A string is read twice.  The first pass looks for its end and asks nothing of the escapes but that they take
a character; what they mean is asked when the end is known.
-/

/-- Splits a text at the quote that ends the string in front of it. -/
def closeString : List Char → Option (List Char × List Char)
  | [] => none
  | '"' :: cs => some ([], cs)
  | '\\' :: c :: cs =>
    if c = '\n' then none
    else (closeString cs).map fun (inside, rest) => ('\\' :: c :: inside, rest)
  | '\\' :: [] => none
  | c :: cs => (closeString cs).map fun (inside, rest) => (c :: inside, rest)

/-- The characters with an escape: each with what stands for it after a backslash. -/
def escapes : List (Char × Char) :=
  [('n', '\n'), ('t', '\t'), ('r', '\r'), ('\\', '\\'), ('"', '"')]

/-- The text that the inside of a string spells, or the first character that has no meaning after
a backslash. -/
def unescape : List Char → Except Char (List Char)
  | [] => .ok []
  | '\\' :: c :: cs =>
    match escapes.lookup c with
    | some meaning => (unescape cs).map (meaning :: ·)
    | none => .error c
  | c :: cs => (unescape cs).map (c :: ·)

/-- The string whose first quote has just been read, and what follows it. -/
def string (line : Nat) (cs : List Char) : Except ScanError (Token × List Char) :=
  match closeString cs with
  | none => .error (.unterminatedString line)
  | some (inside, rest) =>
    match unescape inside with
    | .error c => .error (.invalidEscape c line)
    | .ok text =>
      .ok (⟨.string, String.ofList ('"' :: inside ++ ['"']), some (.text (String.ofList text)), line⟩,
        rest)

/-! ### Tokens -/

/-- The token that begins with `c`, and what follows it. -/
def token (line : Nat) (c : Char) (cs : List Char) : Except ScanError (Token × List Char) :=
  match sign? c with
  | some kind => .ok (⟨kind, c.toString, none, line⟩, cs)
  | none =>
    if isDigit c then .ok (number line (c :: cs))
    else if c = '"' then string line cs
    else if isSymbolStart c then .ok (word line (c :: cs))
    else .error (.unexpectedCharacter c line)

/-! ### Every token is shorter than the text it is read from

Dropping, splitting and reading each leave no more text than there was, and a token takes its first
character.  This is what lets `tokens` be a recursion on the text.
-/

theorem length_skip (line : Nat) (inComment : Bool) (cs : List Char) :
    (skip line inComment cs).2.length ≤ cs.length := by
  fun_induction skip line inComment cs <;> simp <;> omega

theorem length_dropWhile (p : Char → Bool) (cs : List Char) :
    (cs.dropWhile p).length ≤ cs.length :=
  (List.dropWhile_sublist p).length_le

theorem length_fraction? {cs digits rest : List Char} (h : fraction? cs = some (digits, rest)) :
    rest.length < cs.length := by
  unfold fraction? at h
  split at h
  · split at h
    · cases h
      have := length_dropWhile isDigit ‹_›
      simp
      omega
    · cases h
  · cases h

theorem length_number (line : Nat) {c : Char} (cs : List Char) (hc : isDigit c = true) :
    (number line (c :: cs)).2.length ≤ cs.length := by
  have hdrop : (List.dropWhile isDigit (c :: cs)).length ≤ cs.length := by
    rw [List.dropWhile_cons_of_pos hc]
    exact length_dropWhile isDigit cs
  unfold number
  simp only
  split
  · exact hdrop
  · rename_i h
    have := length_fraction? h
    simp only
    omega

theorem length_closeString {cs inside rest : List Char}
    (h : closeString cs = some (inside, rest)) : rest.length < cs.length := by
  fun_induction closeString cs generalizing inside with
  | case1 => cases h
  | case2 => cases h; simp
  | case3 => cases h
  | case4 _ _ _ ih =>
    obtain ⟨p, hp, heq⟩ := Option.map_eq_some_iff.1 h
    cases heq
    have := ih hp
    simp
    omega
  | case5 => cases h
  | case6 _ _ _ _ _ ih =>
    obtain ⟨p, hp, heq⟩ := Option.map_eq_some_iff.1 h
    cases heq
    have := ih hp
    simp
    omega

theorem length_string {line : Nat} {cs rest : List Char} {t : Token}
    (h : string line cs = .ok (t, rest)) : rest.length ≤ cs.length := by
  unfold string at h
  split at h
  · cases h
  · rename_i hclose
    split at h
    · cases h
    · cases h
      exact Nat.le_of_lt (length_closeString hclose)

theorem isSymbolPart_of_isSymbolStart {c : Char} (hc : isSymbolStart c = true) :
    isSymbolPart c = true := by
  simp [isSymbolPart, hc]

/-- What follows a token is no longer than what followed its first character. -/
theorem length_token {line : Nat} {c : Char} {cs rest : List Char} {t : Token}
    (h : token line c cs = .ok (t, rest)) : rest.length ≤ cs.length := by
  unfold token at h
  split at h
  · cases h
    exact Nat.le_refl _
  · split at h
    · rename_i hc
      have hle := length_number line cs hc
      rw [Except.ok.inj h] at hle
      exact hle
    · split at h
      · exact length_string h
      · split at h
        · rename_i hc
          cases h
          show (List.dropWhile isSymbolPart (c :: cs)).length ≤ _
          rw [List.dropWhile_cons_of_pos (isSymbolPart_of_isSymbolStart hc)]
          exact length_dropWhile isSymbolPart cs
        · cases h

/-- What follows the first token of a text is shorter than the text. -/
theorem length_of_skip_of_token {line start next : Nat} {c : Char} {cs following rest : List Char}
    {t : Token} (hskip : skip line false cs = (start, c :: following))
    (htoken : token next c following = .ok (t, rest)) : rest.length < cs.length := by
  have hle := length_skip line false cs
  rw [hskip] at hle
  exact Nat.lt_of_le_of_lt (length_token htoken) hle

/-! ### The whole text -/

/-- The tokens of a text that begins on the given line. -/
def tokens (line : Nat) (cs : List Char) : Except ScanError (List Token) :=
  match hskip : skip line false cs with
  | (last, []) => .ok [Token.endAt (min last lastLine)]
  | (start, c :: following) =>
    match htoken : token (min start lastLine) c following with
    | .error e => .error e
    | .ok (t, rest) =>
      have : rest.length < cs.length := length_of_skip_of_token hskip htoken
      (tokens (start + lineBreaks t.lexeme.toList) rest).map (t :: ·)
termination_by cs.length

end Scan

/-- The tokens of a program, the last of which marks its end. -/
def scan (source : String) : Except ScanError (List Token) :=
  Scan.tokens 1 source.toList

end SmallLisp
