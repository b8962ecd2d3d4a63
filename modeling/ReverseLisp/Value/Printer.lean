import ReverseLisp.Number.Decimal
import ReverseLisp.Number.Literal
import ReverseLisp.Text.Quoted
import ReverseLisp.Value

/-!
# Texts of values

A value has two texts. Its *source* is how it would be written in a program, and is what a session
prints. Its *diagnosis* tells values of different types apart and is used in messages and for
environments. Neither exists for a value that holds an integer of too many digits.

Texts are made by recursion on the value, with no limit on how deeply it nests: the limit of a
session is one of analysing and running.
-/

namespace ReverseLisp

/-- The least integer that has too many digits to be written. -/
def Decimal.tooLarge : Nat := Nat.pow 10 Literal.maxDigits

/-- The digits of an integer, unless they are too many. -/
def Decimal.intText? (n : Int) : Option (List Char) :=
  if n.natAbs < tooLarge then some (intText n) else none

namespace Value

/-- The texts of several values with something between them. -/
def joined (between : String) (texts : List (List Char)) : List Char :=
  List.intercalate between.toList texts

/-- The text of a closure: its parameters. -/
def closureText (params : List Symbol) : List Char :=
  "#<fun (".toList ++ joined " " (params.map (·.name.toList)) ++ ")>".toList

/-- The diagnosis of a symbol. -/
def symbolDiagnosis (x : Symbol) : List Char :=
  "Symbol(".toList ++ (Text.quoted x.name).toList ++ [')']

/-- The text of a foreign value. -/
def foreignText : Foreign → List Char
  | .nothing => "None".toList
  | .text s => (Text.quoted s).toList

mutual

/-- The diagnosis of a value. -/
def diagnosis? : Value → Option (List Char)
  | int n => Decimal.intText? n
  | binary x => some x.text
  | nan _ => some "nan".toList
  | bool b => some (if b then "True".toList else "False".toList)
  | symbol x => some (symbolDiagnosis x)
  | list items => (diagnoses? items).map fun ts ↦ '[' :: joined ", " ts ++ [']']
  | closure _ params => some (closureText params)
  | primitive p => some ("<function ".toList ++ p.label.toList ++ ['>'])
  | foreign f => some (foreignText f)

/-- The diagnoses of several values. -/
def diagnoses? : List Value → Option (List (List Char))
  | [] => some []
  | v :: vs => do return (← diagnosis? v) :: (← diagnoses? vs)

end

/-- The source of a binary number: an integer is written without a point. -/
def binarySource (x : Binary) : List Char :=
  match x.toInt? with
  | some n => Decimal.intText n
  | none => x.text

mutual

/-- The source of a value. -/
def source? : Value → Option (List Char)
  | int n => Decimal.intText? n
  | binary x => some (binarySource x)
  | nan _ => some "nan".toList
  | bool b => some (if b then "#t".toList else "#f".toList)
  | symbol x => some x.name.toList
  | list items => (sources? items).map fun ts ↦ '(' :: joined " " ts ++ [')']
  | closure _ params => some (closureText params)
  | primitive p => some ("#<primitive ".toList ++ p.label.toList ++ ['>'])
  | foreign f => some (foreignText f)

/-- The sources of several values. -/
def sources? : List Value → Option (List (List Char))
  | [] => some []
  | v :: vs => do return (← source? v) :: (← sources? vs)

end

/-- How a message mentions a value by name: a symbol or a foreign text as it is, any other value by
its diagnosis. -/
def mention? : Value → Option (List Char)
  | symbol x => some x.name.toList
  | foreign (.text s) => some s.toList
  | v => v.diagnosis?

/-- An error about a text, or about the lack of it. -/
def errorAbout (text? : Option (List Char)) (mk : String → Error) : Error :=
  match text? with
  | some cs => mk (String.ofList cs)
  | none => .digitLimit

/-- An error that shows a value by its diagnosis. -/
def errorShowing (v : Value) (mk : String → Error) : Error := errorAbout v.diagnosis? mk

/-- An error that mentions a value by name. -/
def errorMentioning (v : Value) (mk : String → Error) : Error := errorAbout v.mention? mk

end Value

end ReverseLisp
