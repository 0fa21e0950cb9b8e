/-
The shortest decimal that names a floating-point number.

A finite number `m * 2 ^ q` other than zero is looked for on coarser grids first: the decimals
of one significant digit, then those of two, and so on.  On each grid only the two neighbours
of the number can be nearest to it, and a neighbour counts when it reads back as the number.
Of two that do, the nearer is taken, and of two equally near ones the upper.  Seventeen digits
are enough for every number; the exact decimal stands after the last grid, so that what is
returned names the number in any case.
-/
import SmallLisp.Decimal.Basic

namespace SmallLisp.Decimal

/-- Numerator and denominator of `m * 2 ^ q / 10 ^ e`. -/
def inUnits (m : Nat) (q e : Int) : Nat × Nat :=
  (m * Nat.pow 2 q.toNat * Nat.pow 10 (-e).toNat, Nat.pow 2 (-q).toNat * Nat.pow 10 e.toNat)

/-- How many digits `m * 2 ^ q` has before its point; for a number below one, minus the number of
zeros after the point.  The digits are counted in a unit below `2 ^ q`, so that there is at least
one: the decimal logarithm of two is a little less than 0.30103. -/
def magnitude (m : Nat) (q : Int) : Int :=
  let unit := q * 30103 / 100000 - 1
  let (above, below) := inUnits m q unit
  (Nat.toDigits 10 (above / below)).length + unit

/-- The neighbours of `m * 2 ^ q` among the multiples of `10 ^ e`, the nearer one first, and of
two equally near ones the upper. -/
def neighbours (m : Nat) (q e : Int) : List Decimal :=
  let (above, below) := inUnits m q e
  let lower : Decimal := ⟨above / below, e⟩
  let upper : Decimal := ⟨above / below + 1, e⟩
  if 2 * (above % below) < below then [lower, upper] else [upper, lower]

/-- The first neighbour among the multiples of `10 ^ e` that reads back as `x`, which is
`m * 2 ^ q`. -/
def neighbour? (x : Float) (m : Nat) (q e : Int) : Option Decimal :=
  (neighbours m q e).find? fun d => d.toFloat = x

/-- The number `m * 2 ^ q` with all its digits. -/
def exact (m : Nat) (q : Int) : Decimal :=
  if 0 ≤ q then ⟨m * Nat.pow 2 q.toNat, 0⟩ else ⟨m * Nat.pow 5 (-q).toNat, q⟩

/-- The first neighbour that reads back on the grids of one, two, … seventeen significant digits of
a number of the given magnitude. -/
def search (x : Float) (m : Nat) (q magnitude : Int) : Option Decimal :=
  (List.range 17).findSome? fun n => neighbour? x m q (magnitude - (n + 1 : Nat))

/-- The shortest decimal that reads back as `x`, which is `m * 2 ^ q`. -/
def shortest (x : Float) (m : Nat) (q : Int) : Decimal :=
  (search x m q (magnitude m q)).getD (exact m q)

/-- A neighbour is only taken if it reads back. -/
theorem toFloat_of_neighbour? {x : Float} {m : Nat} {q e : Int} {d : Decimal}
    (h : neighbour? x m q e = some d) : d.toFloat = x := by
  simpa using List.find?_some h

end SmallLisp.Decimal
