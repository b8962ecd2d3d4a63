import ReverseLisp.Node

/-!
# Analysis

Checking the form of an expression, once and before anything runs. Numbers, booleans and functions
stand for themselves, symbols are variables, and a list is a special form if its head is one of the
nine words, and an application otherwise. Every part that could ever run is checked, whether or not
it will: the error reported is the first in reading order, that of a form before those of its
parts.

Conjunction and disjunction become nested branches that give exactly true or false. A delayed
expression becomes the body of a function without parameters.
-/

namespace ReverseLisp

namespace Value

/-- The parameters of a function: a list of symbols. The first item that is none is reported. -/
def parameterSymbols : List Value → Except Error (List Symbol)
  | [] => .ok []
  | symbol x :: vs => (parameterSymbols vs).map (x :: ·)
  | v :: _ => .error (v.errorMentioning .parameterNotSymbol)

/-- The parameters of a function: a list of distinct symbols. -/
def parameters : Value → Except Error (List Symbol)
  | list items => do
    let xs ← parameterSymbols items
    if xs.Nodup then return xs else throw ((list items).errorShowing .parametersRepeated)
  | v => .error (v.errorMentioning .parametersNotList)

/-- The name in a definition or an assignment. -/
def nameIn (form : SpecialForm) : Value → Except Error Symbol
  | symbol x => .ok x
  | v => .error (v.errorMentioning (.nameExpected form))

mutual

/-- The node of an expression. -/
def analyze : Value → Except Error Node
  | symbol x => .ok (.lookup x)
  | list [] => .ok (.literal (list []))
  | list (symbol x :: operands) =>
    match SpecialForm.ofSymbol? x, operands with
    | none, operands => do return .application (.lookup x) (← analyzeEach operands)
    | some .quote, [v] => .ok (.literal v)
    | some .quote, _ => .error (.formArity .quote)
    | some .branch, [test, yes] => do
      return .branch (← analyze test) (← analyze yes) (.literal (bool false))
    | some .branch, [test, yes, no] => do
      return .branch (← analyze test) (← analyze yes) (← analyze no)
    | some .branch, _ => .error (.formArity .branch)
    | some .conjunction, operands => analyzeAnd operands
    | some .disjunction, operands => analyzeOr operands
    | some .definition, [name, value] => do
      return .define (← nameIn .definition name) (← analyze value)
    | some .definition, _ => .error (.formArity .definition)
    | some .assignment, [name, value] => do
      return .assign (← nameIn .assignment name) (← analyze value)
    | some .assignment, _ => .error (.formArity .assignment)
    | some .function, params :: body => do
      return .function (← parameters params) (.ofList (← analyzeEach body)) body
    | some .function, [] => .error (.formArity .function)
    | some .sequence, operands => do return .ofList (← analyzeEach operands)
    | some .delay, [v] => do return .function [] (← analyze v) [v]
    | some .delay, _ => .error (.formArity .delay)
  | list (operator :: operands) => do
    return .application (← analyze operator) (← analyzeEach operands)
  | foreign f => .error ((foreign f).errorShowing .notExpression)
  | v => .ok (.literal v)

/-- The nodes of several expressions. -/
def analyzeEach : List Value → Except Error (List Node)
  | [] => .ok []
  | v :: vs => do return (← analyze v) :: (← analyzeEach vs)

/-- Whether all operands are true, tried from the left until one is false. -/
def analyzeAnd : List Value → Except Error Node
  | [] => .ok (.literal (bool true))
  | v :: vs => do return .branch (← analyze v) (← analyzeAnd vs) (.literal (bool false))

/-- Whether some operand is true, tried from the left until one is. -/
def analyzeOr : List Value → Except Error Node
  | [] => .ok (.literal (bool false))
  | v :: vs => do return .branch (← analyze v) (.literal (bool true)) (← analyzeOr vs)

end

end Value

end ReverseLisp
