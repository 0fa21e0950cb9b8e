/-
How a floating-point number is written.

Both layouts show the shortest digits that read back.  The plain one, for values, never has an
exponent and shows a whole number without a point.  The marked one, for descriptions, keeps
`.0` on whole numbers and turns to an exponent for very large and very small numbers.
-/
import SmallLisp.Decimal.Shortest

namespace SmallLisp.Decimal

/-- Digits without zeros at either end, and how many of them stand before the point: the number
is `0.d₁d₂…` times ten to the power of `point`. -/
structure Digits where
  digits : List Char
  point : Int

/-- The digits of a decimal, less the zeros that end them. -/
def toDigits (d : Decimal) : Digits :=
  let all := Nat.toDigits 10 d.digits
  ⟨(all.reverse.dropWhile (· = '0')).reverse, all.length + d.exponent⟩

/-- What a layout decides. -/
structure Layout where
  /-- The least `point` that is still written without an exponent, if there is a limit. -/
  least : Option Int
  /-- The greatest such `point`, if there is a limit. -/
  greatest : Option Int
  /-- Whether a whole number keeps `.0`. -/
  marksWhole : Bool

/-- Values: always positional, whole numbers bare. -/
def Layout.plain : Layout := ⟨none, none, false⟩

/-- Descriptions: positional from `10 ^ (-4)` up to but not including `10 ^ 16`, whole numbers
marked. -/
def Layout.marked : Layout := ⟨some (-3), some 16, true⟩

namespace Layout

/-- Whether numbers of this size are written without an exponent. -/
def isPositional (l : Layout) (point : Int) : Bool :=
  l.least.all (· ≤ point) && l.greatest.all (point ≤ ·)

/-- What a layout adds to a whole number. -/
def wholeMark (l : Layout) : List Char :=
  if l.marksWhole then ['.', '0'] else []

/-- Digits with the point among, before or after them, and zeros where there is no digit. -/
def positional (l : Layout) (d : Digits) : List Char :=
  if d.point ≤ 0 then '0' :: '.' :: List.replicate (-d.point).toNat '0' ++ d.digits
  else if d.digits.length ≤ d.point.toNat then
    d.digits ++ List.replicate (d.point.toNat - d.digits.length) '0' ++ l.wholeMark
  else d.digits.take d.point.toNat ++ '.' :: d.digits.drop d.point.toNat

/-- One digit before the point, the others after it, and the power of ten. -/
def scientific (d : Digits) : List Char :=
  let fraction := if d.digits.length ≤ 1 then [] else '.' :: d.digits.drop 1
  d.digits.take 1 ++ fraction ++ 'e' :: (toString (d.point - 1)).toList

/-- A positive number. -/
def magnitude (l : Layout) (d : Digits) : List Char :=
  if l.isPositional d.point then l.positional d else scientific d

/-- The sign that precedes a number. -/
def sign : Float.Model.UnpackedFloat.Sign → List Char
  | .positive => []
  | .negative => ['-']

/-- The text of any floating-point number.  A number that is none has no sign. -/
def text (l : Layout) (x : Float) : String :=
  String.ofList <|
    match x.toModel.unpack with
    | .notANumber => ['N', 'a', 'N']
    | .infinity s => sign s ++ ['i', 'n', 'f']
    | .zero s => sign s ++ '0' :: l.wholeMark
    | .finite s m q _ => sign s ++ l.magnitude (shortest x.abs m q).toDigits

end Layout

end SmallLisp.Decimal
