/-!
# Binary floating-point numbers

Numbers of the form `± m · 2 ^ q` with at most 53 significant bits, and the two infinities. A
number is kept as its sign, significand and exponent, so that its exact value is a rational and
every operation can be stated as "compute exactly, then round once". What is not a number is no
value of this type: an operation that has no meaningful result returns `none`.

The significand of a rounded number is below `2 ^ 53`, the exponent lies between `-1074` and
`971`, and the significand is at least `2 ^ 52` unless the exponent is the least one. Zero carries
a sign, and so does the infinity that stands for a result out of range.
-/

namespace ReverseLisp

/-- A finite number `± significand · 2 ^ exponent` or an infinity. -/
inductive Binary where
  | finite (negative : Bool) (significand : Nat) (exponent : Int)
  | infinite (negative : Bool)
deriving DecidableEq, Inhabited

namespace Binary

/-- The least exponent, that of zero and of the numbers too small for 53 bits. -/
def minExponent : Int := -1074

/-- The greatest exponent of a finite number. -/
def maxExponent : Int := 971

/-- The number of significant bits. -/
def precision : Nat := 53

/-- The significands of rounded numbers are below this bound. -/
def significandBound : Nat := Nat.pow 2 precision

/-- The significands of numbers with all their bits are at least this. -/
def leastNormal : Nat := Nat.pow 2 (precision - 1)

/-- Zero with a sign. -/
def zero (negative : Bool) : Binary := finite negative 0 minExponent

/-- The sign, which zeros and infinities have as well. -/
def isNegative : Binary → Bool
  | finite negative _ _ => negative
  | infinite negative => negative

/-- Either zero. -/
def isZero : Binary → Bool
  | finite _ m _ => m == 0
  | infinite _ => false

/-- The exact value of a finite number; infinities have none. -/
def toRat? : Binary → Option Rat
  | finite negative m q => some ((if negative then -(m : Int) else (m : Int) : Int) * (2 : Rat) ^ q)
  | infinite _ => none

/-- The integer that a number is, if it is one. -/
def toInt? (x : Binary) : Option Int :=
  x.toRat?.bind fun r ↦ if r.den = 1 then some r.num else none

/-! ## Rounding -/

/-- The integer nearest to `n / d`; halfway between two integers, the even one. -/
def nearest (n d : Nat) : Nat :=
  let k := n / d
  let twice := 2 * (n % d)
  if twice < d ∨ twice = d ∧ k % 2 = 0 then k else k + 1

/-- The greatest `e` with `2 ^ e ≤ n / d`, for positive `n` and `d`. -/
def leadingExponent (n d : Nat) : Int :=
  let e : Int := (n.log2 : Int) - d.log2
  if (2 : Rat) ^ e ≤ mkRat n d then e else e - 1

/-- The number nearest to `± x`, of two equally near ones that with the even significand. A result
beyond the largest finite number is infinite. -/
def round (negative : Bool) (x : Rat) : Binary :=
  let n := x.num.natAbs
  if n = 0 then zero negative
  else
    let q := max (leadingExponent n x.den - (precision - 1)) minExponent
    let scaled := mkRat n x.den / (2 : Rat) ^ q
    let m := nearest scaled.num.natAbs scaled.den
    let (m, q) := if m = significandBound then (leastNormal, q + 1) else (m, q)
    if maxExponent < q then infinite negative else finite negative m q

/-- The number nearest to a rational; zero comes out positive. -/
def ofRat (x : Rat) : Binary := round (x < 0) x

/-- The number nearest to an integer. -/
def ofInt (n : Int) : Binary := ofRat n

/-! ## Arithmetic: the exact result, rounded once -/

/-- The number with the other sign. -/
def neg : Binary → Binary
  | finite negative m q => finite (!negative) m q
  | infinite negative => infinite (!negative)

/-- The sum. An exact zero is negative only if both terms are; opposite infinities have no sum. -/
def add (x y : Binary) : Option Binary :=
  match x.toRat?, y.toRat? with
  | some a, some b =>
    if a + b = 0 then some (zero (x.isNegative && y.isNegative)) else some (ofRat (a + b))
  | none, some _ => some x
  | some _, none => some y
  | none, none => if x = y then some x else none

/-- The difference, as the sum with the second number negated. -/
def sub (x y : Binary) : Option Binary := x.add y.neg

/-- The product. Zero times an infinity is not a number. -/
def mul (x y : Binary) : Option Binary :=
  let negative := x.isNegative != y.isNegative
  match x.toRat?, y.toRat? with
  | some a, some b => some (round negative (a * b))
  | _, _ => if x.isZero || y.isZero then none else some (infinite negative)

/-- The quotient by a number other than zero. A quotient of infinities is not a number. -/
def div (x y : Binary) : Option Binary :=
  let negative := x.isNegative != y.isNegative
  match x.toRat?, y.toRat? with
  | some a, some b => some (round negative (a / b))
  | some _, none => some (zero negative)
  | none, some _ => some (infinite negative)
  | none, none => none

end Binary

end ReverseLisp
