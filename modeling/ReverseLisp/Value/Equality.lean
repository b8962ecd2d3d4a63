import ReverseLisp.Value

/-!
# Equality of values

Numbers are equal if their exact values are, whatever their types; lists if they have the same
length and equal items; all other values only if they are the same. A boolean is no number, and
what is not a number equals only copies of itself.
-/

namespace ReverseLisp.Value

/-- Equality of values that are no lists. -/
def equalAtom : Value → Value → Bool
  | nan i, nan j => i == j
  | bool a, bool b => a == b
  | symbol x, symbol y => x == y
  | closure i _, closure j _ => i == j
  | primitive p, primitive q => p == q
  | foreign f, foreign g => f == g
  | v, w =>
    match v.toNumber?, w.toNumber? with
    | some m, some n => m.eq n
    | _, _ => false

mutual

/-- Equality of values. -/
def equal : Value → Value → Bool
  | list vs, list ws => equalAll vs ws
  | list _, _ => false
  | _, list _ => false
  | v, w => equalAtom v w

/-- Equality of lists of values, item by item. -/
def equalAll : List Value → List Value → Bool
  | [], [] => true
  | v :: vs, w :: ws => equal v w && equalAll vs ws
  | _, _ => false

end

end ReverseLisp.Value
