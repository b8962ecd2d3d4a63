import ReverseLisp.Node.Analysis
import ReverseLisp.Primitive.Application

/-!
# Evaluation

Running nodes in environments. A closure is applied by running its body in a new environment that
binds its parameters and is enclosed by the one the closure was made in; a primitive gets its
arguments directly.

Every run has a limit on how deeply nodes may run inside one another. Reaching it is an error like
any other, except that a larger limit may remove it: the limit decides only whether a run is cut
off, never what it gives otherwise.
-/

namespace ReverseLisp

/-- Runs checked programs. -/
abbrev Machine := Action Node

namespace Machine

/-- Runs nodes in order and collects their values. -/
def collect (run : Node → Machine Value) : List Node → Machine (List Value)
  | [] => pure []
  | n :: ns => do
    let v ← run n
    let vs ← collect run ns
    return v :: vs

/-- Runs nodes in order and keeps the last value. -/
def inOrder (run : Node → Machine Value) : List Node → Machine Value
  | [] => pure (.list [])
  | [n] => run n
  | n :: ns => do
    let _ ← run n
    inOrder run ns

/-- Applies a value to arguments, where `run` runs the body of a closure. -/
def applyWith (run : Node → EnvId → Machine Value) (fn : Value) (args : List Value) :
    Machine Value :=
  match fn with
  | .closure id params =>
    if params.length = args.length then do
      match ← Action.code? id with
      | some code => run code.body (← Action.extend code.env (params.map .symbol) args)
      | none => throw (fn.errorShowing .notFunction)
    else throw (fn.errorShowing (.closureArity · params.length args.length))
  | .primitive p => Action.applyPrimitive p args
  | fn => throw (fn.errorShowing .notFunction)

/-- Runs a node in an environment, with at most `limit` nodes running inside one another. -/
def run (limit : Nat) (node : Node) (e : EnvId) : Machine Value :=
  match limit with
  | 0 => throw .recursionLimit
  | limit + 1 =>
    match node with
    | .literal v => pure v
    | .lookup x => Action.lookup e (.symbol x)
    | .branch test yes no => do
      let v ← run limit test e
      if v.isFalse then run limit no e else run limit yes e
    | .define x value => do Action.define e (.symbol x) (← run limit value e)
    | .assign x value => do Action.assign e (.symbol x) (← run limit value e)
    | .function params body source => Action.newClosure params ⟨body, e, source⟩
    | .sequence nodes => inOrder (run limit · e) nodes
    | .application operator operands => do
      let fn ← run limit operator e
      let args ← collect (run limit · e) operands
      applyWith (run limit) fn args

/-- Applies a value to arguments. -/
def apply (limit : Nat) (fn : Value) (args : List Value) : Machine Value :=
  applyWith (run limit) fn args

/-- The node of an expression that is not nested too deeply. -/
def analyze (limit : Nat) (expr : Value) : Machine Node := do
  let node ← Action.ofExcept expr.analyze
  if limit < node.depth then throw .recursionLimit else return node

/-- Checks an expression and runs it once. -/
def evaluate (limit : Nat) (expr : Value) (e : EnvId) : Machine Value := do
  run limit (← analyze limit expr) e

end Machine

end ReverseLisp
