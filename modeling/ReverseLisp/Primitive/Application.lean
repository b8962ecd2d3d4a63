import ReverseLisp.Store
import ReverseLisp.Value.Equality

/-!
# Applying primitives

Arithmetic folds its operation over the arguments from the left and checks first that all of them
are numbers. Comparisons hold if they hold between neighbours. The list primitives never change a
list.
-/

namespace ReverseLisp

namespace Primitive

/-- The arguments as numbers. The first that is none is reported. -/
def numbers (p : Primitive) : List Value → Except Error (List Number)
  | [] => .ok []
  | v :: vs =>
    match v.toNumber? with
    | some n => (numbers p vs).map (n :: ·)
    | none => .error (v.errorShowing (.notNumber p))

/-- Differences from left to right; of one number, its negative. -/
def difference : List Number → Except Error Number
  | [] => .error (.noArguments .sub)
  | [x] => .ok x.neg
  | x :: xs => xs.foldlM Number.sub x

/-- Quotients from left to right; of one number, its reciprocal. -/
def quotient : List Number → Except Error Number
  | [] => .error (.noArguments .div)
  | [x] => Number.div (.int 1) x
  | x :: xs => xs.foldlM Number.div x

/-- Whether a relation holds between all neighbours. -/
def chained (r : Number → Number → Bool) (xs : List Number) : Bool :=
  (xs.zip xs.tail).all fun (x, y) ↦ r x y

/-- Whether all values equal the first. -/
def allEqual : List Value → Bool
  | [] => true
  | v :: vs => vs.all v.equal

/-- The result of a primitive. It is marked with `mark` if it is not a number. -/
def apply (mark : Nat) : Primitive → List Value → Except Error Value
  | add, args => do return .ofNumber mark (← (← add.numbers args).foldlM Number.add (.int 0))
  | sub, args => do return .ofNumber mark (← difference (← sub.numbers args))
  | mul, args => do return .ofNumber mark (← (← mul.numbers args).foldlM Number.mul (.int 1))
  | div, args => do return .ofNumber mark (← quotient (← div.numbers args))
  | less, args => do return .bool (chained Number.lt (← less.numbers args))
  | greater, args => do return .bool (chained (fun x y ↦ y.lt x) (← greater.numbers args))
  | equal, args => .ok (.bool (allEqual args))
  | isNull, [.list []] => .ok (.bool true)
  | isNull, [_] => .ok (.bool false)
  | isNull, _ => .error (.argumentCount .isNull 1)
  | cons, [v, .list vs] => .ok (.list (v :: vs))
  | cons, [_, v] => .error (v.errorShowing .notList)
  | cons, _ => .error (.argumentCount .cons 2)
  | car, [.list (v :: _)] => .ok v
  | car, [v] => .error (v.errorShowing (.notNonemptyList .car))
  | car, _ => .error (.argumentCount .car 1)
  | cdr, [.list (_ :: vs)] => .ok (.list vs)
  | cdr, [v] => .error (v.errorShowing (.notNonemptyList .cdr))
  | cdr, _ => .error (.argumentCount .cdr 1)
  | list, args => .ok (.list args)

end Primitive

/-- Applies a primitive, with a new mark at hand. -/
def Action.applyPrimitive {β : Type} (p : Primitive) (args : List Value) : Action β Value := fun s ↦
  match p.apply s.marks args with
  | .ok v => .ok v { s with marks := s.marks + 1 }
  | .error e => .error e s

end ReverseLisp
