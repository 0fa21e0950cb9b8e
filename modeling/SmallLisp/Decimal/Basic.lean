/-
Decimal numbers and the floating-point numbers they name.

A program writes a number as digits with at most one point.  It names the binary
floating-point number nearest to it; halfway between two, the one with the even significand.

The nearest number is computed from the number itself and not from its digits, so that two ways
of writing a number name the same.
-/
namespace SmallLisp

/-- The number `digits * 10 ^ exponent`. -/
structure Decimal where
  digits : Nat
  exponent : Int
deriving DecidableEq, Repr

namespace Decimal

open Float.Model (UnpackedFloat)

/-- The number that a decimal is. -/
def value (d : Decimal) : Rat :=
  mkRat (d.digits * Nat.pow 10 d.exponent.toNat) (Nat.pow 10 (-d.exponent).toNat)

/-- The quotient of numerator and denominator, rounded to a significand of 53 bits. -/
def rounded (q : Rat) : UnpackedFloat :=
  if h : 0 < q.num.toNat then
    .div .binary64 (.finite .positive q.num.toNat 0 h) (.finite .positive q.den 0 q.den_pos)
  else .zero .positive

/-- The floating-point number nearest to a number that is not negative, infinity where the number is
too large for one. -/
def nearest (q : Rat) : Float :=
  .ofModel (.pack (rounded q))

/-- The floating-point number that a decimal names. -/
def toFloat (d : Decimal) : Float :=
  nearest d.value

/-- The number that a row of decimal digits names. -/
def natOfDigits (digits : List Char) : Nat :=
  digits.foldl (fun n c => 10 * n + (c.toNat - '0'.toNat)) 0

/-- The number with the given digits before and after its point. -/
def ofDigits (whole fraction : List Char) : Decimal :=
  ⟨natOfDigits (whole ++ fraction), -fraction.length⟩

end Decimal

end SmallLisp
