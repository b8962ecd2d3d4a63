import ReverseLisp.Symbol

/-!
# Primitives

The functions that every session starts with. A primitive is bound to a symbol in the base frame
and has a label, under which it is shown.
-/

namespace ReverseLisp

/-- The built-in functions. -/
inductive Primitive where
  | add
  | sub
  | mul
  | div
  | less
  | greater
  | equal
  | isNull
  | cons
  | car
  | cdr
  | list
deriving DecidableEq, Inhabited

namespace Primitive

/-- Every primitive, in the order of the base frame. -/
def all : List Primitive :=
  [add, sub, mul, div, less, greater, equal, isNull, cons, car, cdr, list]

/-- The symbol to which the primitive is bound. -/
def symbol : Primitive → Symbol
  | add => ⟨"+"⟩
  | sub => ⟨"-"⟩
  | mul => ⟨"*"⟩
  | div => ⟨"/"⟩
  | less => ⟨"<"⟩
  | greater => ⟨">"⟩
  | equal => ⟨"="⟩
  | isNull => ⟨"null?"⟩
  | cons => ⟨"cons"⟩
  | car => ⟨"car"⟩
  | cdr => ⟨"cdr"⟩
  | list => ⟨"list"⟩

/-- The word under which the primitive is shown. -/
def label : Primitive → String
  | add => "add"
  | sub => "sub"
  | mul => "mul"
  | div => "div"
  | less => "lt"
  | greater => "gt"
  | equal => "equals"
  | isNull => "null"
  | cons => "cons"
  | car => "car"
  | cdr => "cdr"
  | list => "list_builtin"

/-- The primitive bound to a symbol in the base frame. -/
def ofSymbol? (x : Symbol) : Option Primitive := all.find? (·.symbol = x)

theorem mem_all (p : Primitive) : p ∈ all := by cases p <;> decide

theorem ofSymbol?_symbol (p : Primitive) : ofSymbol? p.symbol = some p := by cases p <;> decide

end Primitive

end ReverseLisp
