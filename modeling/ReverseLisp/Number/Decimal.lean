import ReverseLisp.Number.Binary

/-!
# Decimal text of numbers

An integer is written with its decimal digits. A finite binary number is written with the fewest
significant digits that read back as the same number; of the decimals with that many digits the
nearest is taken, and halfway between two the one with the even last digit.

The search is exact: the decimals that read back are those in an interval around the number, and
if an interval holds a point of the grid `10 ^ k · ℤ`, then it holds one of the two grid points
next to the number. Seventeen digits always suffice.
-/

namespace ReverseLisp

namespace Decimal

/-- The decimal digits of a natural number. -/
def natText (n : Nat) : List Char := Nat.toDigits 10 n

/-- The decimal digits of an integer after its sign, which is written only if negative. -/
def intText (n : Int) : List Char :=
  if n < 0 then '-' :: natText n.natAbs else natText n.natAbs

/-- The greatest `e` with `10 ^ e ≤ x`, for positive `x`. Below one, it is minus the number of
digits of the greatest integer less than `1 / x`. -/
def leadingExponent (x : Rat) : Int :=
  let n := x.num.natAbs
  if x.den ≤ n then (natText (n / x.den)).length - 1
  else -((natText ((x.den - 1) / n)).length : Int)

/-- The rationals that round to one binary number: an interval, closed at both ends or open at
both. -/
structure Neighbourhood where
  low : Rat
  high : Rat
  closed : Bool

/-- Membership in a neighbourhood. -/
def Neighbourhood.contains (i : Neighbourhood) (x : Rat) : Bool :=
  if i.closed then i.low ≤ x && x ≤ i.high else i.low < x && x < i.high

/-- The positive rationals that round to `m · 2 ^ q`. Above, half a unit; below, half a unit as
well, or a quarter if the next number below belongs to the next finer grid. The ends round to an
even significand. -/
def neighbourhood (m : Nat) (q : Int) : Neighbourhood :=
  let ulp := (2 : Rat) ^ q
  let below := if m = Binary.leastNormal ∧ Binary.minExponent < q then ulp / 4 else ulp / 2
  { low := m * ulp - below, high := m * ulp + ulp / 2, closed := m % 2 == 0 }

/-- The multiple of `10 ^ k` nearest to `x` among its two neighbours that lie in `i`, counted in
units of `10 ^ k`; halfway between them, the even one. -/
def onGrid? (i : Neighbourhood) (x : Rat) (k : Int) : Option Nat :=
  let unit := (10 : Rat) ^ k
  let scaled := x / unit
  let d := scaled.floor.toNat
  match i.contains (d * unit), i.contains ((d + 1 : Nat) * unit) with
  | false, false => none
  | true, false => some d
  | false, true => some (d + 1)
  | true, true =>
    let twice := 2 * (scaled - d)
    some (if twice < 1 ∨ twice = 1 ∧ d % 2 = 0 then d else d + 1)

/-- The significant digits of a positive binary number, without trailing zeros, and the power of
ten of the first of them. -/
def shortest (m : Nat) (q : Int) : List Char × Int :=
  let x := m * (2 : Rat) ^ q
  let i := neighbourhood m q
  let e := leadingExponent x
  let (d, k) := ((List.range 17).findSome? fun (n : Nat) ↦
    (onGrid? i x (e - n)).map (·, e - n)).getD (0, 0)
  let digits := natText d
  ((digits.reverse.dropWhile (· == '0')).reverse, digits.length - 1 + k)

/-! ## Layout -/

/-- Exponents written positionally: at least this one. -/
def leastPositional : Int := -4

/-- Exponents written positionally: below this one. -/
def endPositional : Int := 16

/-- An exponent after `e`: its sign and at least two digits. -/
def exponentText (e : Int) : List Char :=
  let ds := natText e.natAbs
  'e' :: (if e < 0 then '-' else '+') :: (List.replicate (2 - ds.length) '0' ++ ds)

/-- Digits with leading exponent `e` as a decimal. A positional decimal keeps a digit after the
point, so that it reads as a binary number; otherwise one digit stands before the point. -/
def layout (digits : List Char) (e : Int) : List Char :=
  if leastPositional ≤ e ∧ e < 0 then
    '0' :: '.' :: (List.replicate (e.natAbs - 1) '0' ++ digits)
  else if 0 ≤ e ∧ e < endPositional then
    let whole := e.toNat + 1
    let fraction := digits.drop whole
    digits.take whole ++ List.replicate (whole - digits.length) '0' ++
      '.' :: (if fraction.isEmpty then ['0'] else fraction)
  else
    match digits with
    | d :: f :: fs => d :: '.' :: f :: fs ++ exponentText e
    | _ => digits ++ exponentText e

end Decimal

/-- The text of a binary number. -/
def Binary.text : Binary → List Char
  | finite negative m q =>
    let body := if m = 0 then ['0', '.', '0'] else
      let (digits, e) := Decimal.shortest m q
      Decimal.layout digits e
    if negative then '-' :: body else body
  | infinite negative => if negative then ['-', 'i', 'n', 'f'] else ['i', 'n', 'f']

end ReverseLisp
