import ReverseLisp.Number
import ReverseLisp.Text.Blank
import ReverseLisp.Text.Digit

/-!
# Numbers in text

Which texts denote an integer, and which a binary number. Both grammars are over ASCII, and both
ignore spaces at the ends. Beyond ASCII a blank reads as a space, a decimal digit of any script as
the ASCII digit of its value, and every other character makes the text no number. An underscore
may stand between two digits.

```text
integer  ::=  sign? digits                      (at most 4300 digits)
decimal  ::=  sign? (digits ('.' digits?)? | '.' digits) ([eE] sign? digits)?
           |  sign? ("inf" | "infinity" | "nan")   (in either case)
```
-/

namespace ReverseLisp

namespace Literal

/-! ## Characters -/

/-- The value of an ASCII digit. -/
def asciiDigit? (c : Char) : Option Nat :=
  if '0' ≤ c ∧ c ≤ '9' then some (c.toNat - '0'.toNat) else none

/-- An ASCII digit. -/
def isAsciiDigit (c : Char) : Bool := (asciiDigit? c).isSome

/-- A space within ASCII that is ignored at the ends of a number. The four separators, though
blank, are not. -/
def isSpace (c : Char) : Bool := c == ' ' || ('\t' ≤ c && c ≤ '\r')

/-- The ASCII character that a character reads as; `?` occurs in no number. -/
def toAscii (c : Char) : Char :=
  if c.toNat < 127 then c
  else if Text.isBlank c then ' '
  else (Text.digit? c).elim '?' fun d ↦ Char.ofNat ('0'.toNat + d)

/-- The text of a number in ASCII, without the spaces at its ends. -/
def normalize (text : List Char) : List Char :=
  (((text.map toAscii).dropWhile isSpace).reverse.dropWhile isSpace).reverse

/-- Whether the text starts with a minus sign, and the text after its sign. -/
def splitSign : List Char → Bool × List Char
  | '+' :: cs => (false, cs)
  | '-' :: cs => (true, cs)
  | cs => (false, cs)

/-- The natural number with the given decimal digits. -/
def ofDigits (ds : List Nat) : Nat := ds.foldl (fun n d ↦ 10 * n + d) 0

/-! ## Integers -/

/-- The digits of a text of digits in which single underscores may stand between two digits. -/
def digitRun? : List Char → Option (List Nat)
  | [] => none
  | [c] => (asciiDigit? c).map ([·])
  | c :: '_' :: cs => do return (← asciiDigit? c) :: (← digitRun? cs)
  | c :: cs => do return (← asciiDigit? c) :: (← digitRun? cs)

/-- The most digits that an integer may have, leading zeros included, to be read or written. -/
def maxDigits : Nat := 4300

/-- The integer that a text denotes. -/
def int? (text : List Char) : Option Int := do
  let (negative, body) := splitSign (normalize text)
  let ds ← digitRun? body
  if maxDigits < ds.length then none
  else return if negative then -(ofDigits ds : Int) else ofDigits ds

/-! ## Binary numbers -/

/-- The text without its underscores, each of which has to stand between two digits. -/
def dropUnderscores? : List Char → Option (List Char)
  | [] => some []
  | c :: '_' :: d :: cs =>
    if isAsciiDigit c && isAsciiDigit d then (dropUnderscores? (d :: cs)).map (c :: ·) else none
  | '_' :: _ => none
  | [_, '_'] => none
  | c :: cs => (dropUnderscores? cs).map (c :: ·)

/-- The exponent after the digits of a decimal; none is zero. -/
def exponent? : List Char → Option Int
  | [] => some 0
  | e :: cs =>
    if e == 'e' || e == 'E' then
      let (negative, ds) := splitSign cs
      if ds.isEmpty then none
      else (ds.mapM asciiDigit?).map fun ds ↦ if negative then -(ofDigits ds : Int) else ofDigits ds
    else none

/-- The number nearest to `± n · 10 ^ e`. Exponents far out of range are decided by the number of
digits, so that no power of ten of that size is formed. -/
def ofScientific (negative : Bool) (n : Nat) (e : Int) : Binary :=
  let size := (Nat.toDigits 10 n).length + e
  if n = 0 ∨ size < -400 then Binary.zero negative
  else if 400 < size then .infinite negative
  else Binary.round negative (n * (10 : Rat) ^ e)

/-- The unsigned decimal with a sign put before it. -/
def decimal? (negative : Bool) (cs : List Char) : Option Binary := do
  let whole := cs.takeWhile isAsciiDigit
  let rest := cs.dropWhile isAsciiDigit
  let (fraction, rest) := match rest with
    | '.' :: rest => (rest.takeWhile isAsciiDigit, rest.dropWhile isAsciiDigit)
    | rest => ([], rest)
  let ds ← (whole ++ fraction).mapM asciiDigit?
  if ds.isEmpty then none
  else
    let e ← exponent? rest
    return ofScientific negative (ofDigits ds) (e - fraction.length)

/-- The binary number that a text denotes, or what is not a number. -/
def binary? (text : List Char) : Option Number := do
  let (negative, body) := splitSign (← dropUnderscores? (normalize text))
  let word := String.ofList (body.map Char.toLower)
  if word = "inf" ∨ word = "infinity" then return .binary (.infinite negative)
  else if word = "nan" then return .nan
  else return .binary (← decimal? negative body)

end Literal

end ReverseLisp
