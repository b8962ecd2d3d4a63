import ReverseLisp.Error
import ReverseLisp.Number.Binary

/-!
# Numbers

The three kinds of numeric result: integers of any size, binary numbers, and the result that is
not a number. Integers meet integers exactly. When an integer meets a binary number it is first
rounded to a binary number, which fails beyond their range. Comparison never rounds: it compares
exact values, and what is not a number has none.
-/

namespace ReverseLisp

/-- A numeric argument or result. -/
inductive Number where
  | int (n : Int)
  | binary (x : Binary)
  | nan
deriving DecidableEq, Inhabited

namespace Number

/-- The result of a binary operation that may have none. -/
def ofBinary? : Option Binary → Number
  | some x => binary x
  | none => nan

/-- The operand of a binary operation; `none` stands for what is not a number. -/
def toBinary : Number → Except Error (Option Binary)
  | int n =>
    match Binary.ofInt n with
    | .infinite _ => .error .integerTooLarge
    | x => .ok (some x)
  | binary x => .ok (some x)
  | nan => .ok none

/-- Both operands as binary numbers, then the operation. -/
def lift (f : Binary → Binary → Option Binary) (x y : Number) : Except Error Number := do
  match ← x.toBinary, ← y.toBinary with
  | some a, some b => return ofBinary? (f a b)
  | _, _ => return nan

/-! ## Arithmetic -/

/-- The sum. -/
def add : Number → Number → Except Error Number
  | int a, int b => .ok (int (a + b))
  | x, y => lift Binary.add x y

/-- The difference. -/
def sub : Number → Number → Except Error Number
  | int a, int b => .ok (int (a - b))
  | x, y => lift Binary.sub x y

/-- The product. -/
def mul : Number → Number → Except Error Number
  | int a, int b => .ok (int (a * b))
  | x, y => lift Binary.mul x y

/-- The number with the other sign. -/
def neg : Number → Number
  | int n => int (-n)
  | binary x => binary x.neg
  | nan => nan

/-- The quotient. That of two integers is the binary number nearest to the exact one; a zero has
the sign that the quotient rule gives it, counting the integer zero as positive. Only after both
operands are binary numbers is a zero divisor noticed. -/
def div : Number → Number → Except Error Number
  | int a, int b =>
    if b = 0 then .error .divisionByZero
    else
      match Binary.round (decide (a < 0) != decide (b < 0)) ((a : Rat) / b) with
      | .infinite _ => .error .quotientTooLarge
      | x => .ok (binary x)
  | x, y => do
    let a ← x.toBinary
    let b ← y.toBinary
    if b.any Binary.isZero then .error .divisionByZero
    else
      match a, b with
      | some a, some b => return ofBinary? (a.div b)
      | _, _ => return nan

/-! ## Comparison -/

/-- An exact value: a rational, or one of the two infinities around them. -/
inductive Exact where
  | below
  | rational (x : Rat)
  | above
deriving DecidableEq

/-- The strict order of exact values. -/
def Exact.lt : Exact → Exact → Bool
  | below, below => false
  | below, _ => true
  | rational x, rational y => x < y
  | rational _, above => true
  | _, _ => false

/-- The exact value of a number. -/
def exactValue? : Number → Option Exact
  | int n => some (.rational n)
  | binary (.infinite negative) => some (if negative then .below else .above)
  | binary x => x.toRat?.map .rational
  | nan => none

/-- Strictly less, by exact value. -/
def lt (x y : Number) : Bool :=
  match x.exactValue?, y.exactValue? with
  | some a, some b => a.lt b
  | _, _ => false

/-- Equal exact values. -/
def eq (x y : Number) : Bool :=
  match x.exactValue?, y.exactValue? with
  | some a, some b => a = b
  | _, _ => false

end Number

end ReverseLisp
