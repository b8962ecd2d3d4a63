import ReverseLisp.Number
import ReverseLisp.Primitive

/-!
# Values

One type for programs and for the data they compute: code is data, and a quoted expression is a
value like any other.

A closure shows its parameters and an identity; its body and its environment are kept in the store
under that identity, so that two closures are the same only if one evaluation made them. A result
that is not a number has an identity for the same reason: it equals nothing but itself, and
copies of it are copies of one result. Foreign values are what a host program may pass in and no
program can write.
-/

namespace ReverseLisp

/-- A value of the host that has no counterpart here: nothing at all, or a text. Sequences and
functions of the host are left out, since analysis takes them for lists and functions. -/
inductive Foreign where
  | nothing
  | text (s : String)
deriving DecidableEq, Inhabited

/-- A program or a piece of data. -/
inductive Value where
  | int (n : Int)
  | binary (x : Binary)
  | nan (mark : Nat)
  | bool (b : Bool)
  | symbol (x : Symbol)
  | list (items : List Value)
  | closure (id : Nat) (params : List Symbol)
  | primitive (p : Primitive)
  | foreign (f : Foreign)
deriving Inhabited

namespace Value

/-- The value of a number; `mark` becomes the identity of what is not a number. -/
def ofNumber (mark : Nat) : Number → Value
  | .int n => int n
  | .binary x => binary x
  | .nan => nan mark

/-- The number that a value is. Booleans are no numbers. -/
def toNumber? : Value → Option Number
  | int n => some (.int n)
  | binary x => some (.binary x)
  | nan _ => some .nan
  | _ => none

/-- The one value that counts as false; zero and the empty list count as true. -/
def isFalse : Value → Bool
  | bool b => !b
  | _ => false

theorem toNumber?_ofNumber (mark : Nat) (n : Number) : (ofNumber mark n).toNumber? = some n := by
  cases n <;> rfl

theorem isFalse_iff {v : Value} : v.isFalse = true ↔ v = bool false := by
  cases v <;> simp [isFalse]

/-! ## Sameness -/

mutual

/-- Sameness of values as a test. -/
def isSame : Value → Value → Bool
  | int m, int n => m == n
  | binary x, binary y => x == y
  | nan i, nan j => i == j
  | bool a, bool b => a == b
  | symbol x, symbol y => x == y
  | list vs, list ws => areSame vs ws
  | closure i xs, closure j ys => i == j && xs == ys
  | primitive p, primitive q => p == q
  | foreign f, foreign g => f == g
  | _, _ => false

/-- Sameness of lists of values as a test. -/
def areSame : List Value → List Value → Bool
  | [], [] => true
  | v :: vs, w :: ws => isSame v w && areSame vs ws
  | _, _ => false

end

mutual

theorem isSame_iff (v w : Value) : v.isSame w = true ↔ v = w := by
  cases v with
  | list vs =>
    cases w with
    | list ws => simp [isSame, areSame_iff vs ws]
    | _ => simp [isSame]
  | _ => cases w <;> simp [isSame]

theorem areSame_iff (vs ws : List Value) : areSame vs ws = true ↔ vs = ws := by
  cases vs with
  | nil => cases ws <;> simp [areSame]
  | cons v vs =>
    cases ws with
    | nil => simp [areSame]
    | cons w ws => simp [areSame, isSame_iff v w, areSame_iff vs ws]

end

instance : DecidableEq Value := fun v w ↦ decidable_of_iff _ (isSame_iff v w)

end Value

end ReverseLisp
