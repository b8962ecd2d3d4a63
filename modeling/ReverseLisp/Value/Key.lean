import ReverseLisp.Value

/-!
# Keys of names

A frame finds a binding by the key of its name. Programs bind symbols only, and a symbol is its own
key. A host program may bind and look up other values too: then numbers of one exact value have one
key, whatever their types, and the booleans count as one and zero. A list is never a name.
-/

namespace ReverseLisp.Value

/-- The one value that stands for all names of the same binding. -/
def key : Value → Value
  | bool b => int (if b then 1 else 0)
  | binary x =>
    match x.toInt? with
    | some n => int n
    | none => binary x
  | v => v

/-- Whether a value is a list, and so no name. -/
def isList : Value → Bool
  | list _ => true
  | _ => false

@[simp] theorem key_symbol (x : Symbol) : (symbol x).key = symbol x := rfl

/-- Only a symbol is found under its key. -/
theorem key_eq_symbol_iff {v : Value} {x : Symbol} : v.key = symbol x ↔ v = symbol x := by
  cases v with
  | binary y => cases h : y.toInt? <;> simp [key, h]
  | _ => simp [key]

/-- A key is the key of itself. -/
theorem key_key (v : Value) : v.key.key = v.key := by
  cases v with
  | binary y => cases h : y.toInt? <;> simp [key, h]
  | _ => rfl

end ReverseLisp.Value
