/-
Texts: when one is blank, what its lines are, and how it is shown between quotes.
-/
import SmallLisp.Text.Unseen

namespace SmallLisp.Text

/-! ### Blank texts

A text that holds white space only is blank.  White space is the Unicode property of that name, which
is wider than what separates tokens: it also has the no-break space and the typographic spaces.
-/

/-- White space: the twenty-five characters that have the Unicode property `White_Space`. -/
def isSpace (c : Char) : Bool :=
  let n := c.toNat
  (0x9 ≤ n && n ≤ 0xd) || n = 0x20 || n = 0x85 || n = 0xa0 || n = 0x1680 ||
    (0x2000 ≤ n && n ≤ 0x200a) || n = 0x2028 || n = 0x2029 || n = 0x202f || n = 0x205f ||
    n = 0x3000

/-- Whether a text holds white space only. -/
def isBlank (s : String) : Bool :=
  s.toList.all isSpace

/-! ### Lines

A line ends with a line break, which may have a carriage return before it; the last line may end
without one.
-/

/-- Cuts input after every line break.  `line` and `found` are what has been read of the current
line and the lines before it, in reverse. -/
def cutLines (line : List UInt8) (found : List ByteArray) : List UInt8 → List ByteArray
  | [] => (if line.isEmpty then found else toBytes line :: found).reverse
  | b :: bs =>
    if b = 10 then cutLines [] (toBytes (b :: line) :: found) bs
    else cutLines (b :: line) found bs
where
  toBytes (reversed : List UInt8) : ByteArray := ⟨reversed.reverse.toArray⟩

/-- The lines of some input, each with its line break. -/
def lines (input : ByteArray) : List ByteArray :=
  cutLines [] [] input.toList

/-- A line without the line break that ends it. -/
def withoutBreak (line : String) : String :=
  match line.toList.reverse with
  | '\n' :: '\r' :: cs => String.ofList cs.reverse
  | '\n' :: cs => String.ofList cs.reverse
  | _ => line

/-! ### Texts between quotes

A quote and a backslash are escaped, four control characters have an escape of their own, and any
other character that cannot be seen is written by its code point between braces.  So a description is
one visible line whatever the text holds.
-/

/-- The code point of a character in hexadecimal, between braces. -/
def codePoint (c : Char) : List Char :=
  ['\\', 'u', '\x7b'] ++ Nat.toDigits 16 c.toNat ++ ['\x7d']

/-- How one character is shown between double quotes. -/
def quotedChar (c : Char) : List Char :=
  if c = '\x00' then ['\\', '0']
  else if c = '\t' then ['\\', 't']
  else if c = '\r' then ['\\', 'r']
  else if c = '\n' then ['\\', 'n']
  else if c = '\\' || c = '"' then ['\\', c]
  else if isUnseen c then codePoint c
  else [c]

/-- A text in double quotes. -/
def quoted (s : String) : String :=
  "\"" ++ String.ofList (s.toList.flatMap quotedChar) ++ "\""

end SmallLisp.Text
