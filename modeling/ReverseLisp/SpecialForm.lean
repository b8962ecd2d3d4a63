import ReverseLisp.Symbol

/-!
# Special forms

The nine words that, at the head of a list, make it something other than an application. They are
recognised by name alone: a variable of the same name is never consulted there.
-/

namespace ReverseLisp

/-- The kinds of list that are not applications. -/
inductive SpecialForm where
  | quote
  | branch
  | conjunction
  | disjunction
  | definition
  | assignment
  | function
  | sequence
  | delay
deriving DecidableEq, Inhabited

/-- The special forms whose operands are counted. The others take any number of them. -/
inductive CountedForm where
  | quote
  | branch
  | definition
  | assignment
  | function
  | delay
deriving DecidableEq, Inhabited

namespace SpecialForm

/-- Every special form. -/
def all : List SpecialForm :=
  [quote, branch, conjunction, disjunction, definition, assignment, function, sequence, delay]

/-- The word at the head of the form. -/
def word : SpecialForm → Symbol
  | quote => ⟨"quote"⟩
  | branch => ⟨"if"⟩
  | conjunction => ⟨"and"⟩
  | disjunction => ⟨"or"⟩
  | definition => ⟨"def"⟩
  | assignment => ⟨"set!"⟩
  | function => ⟨"fun"⟩
  | sequence => ⟨"begin"⟩
  | delay => ⟨"delay"⟩

/-- The special form that a head symbol announces. -/
def ofSymbol? (x : Symbol) : Option SpecialForm := all.find? (·.word = x)

theorem mem_all (f : SpecialForm) : f ∈ all := by cases f <;> decide

theorem ofSymbol?_word (f : SpecialForm) : ofSymbol? f.word = some f := by cases f <;> decide

theorem ofSymbol?_eq_some_iff {x : Symbol} {f : SpecialForm} :
    ofSymbol? x = some f ↔ x = f.word := by
  constructor
  · intro h
    have := List.find?_some h
    simp only [decide_eq_true_eq] at this
    exact this.symm
  · rintro rfl
    exact ofSymbol?_word f

end SpecialForm

end ReverseLisp
