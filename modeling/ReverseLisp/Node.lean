import ReverseLisp.Store

/-!
# Nodes

What an expression becomes once its form has been checked. A node says everything about how it
runs except in which environment, so that it can run many times without its expression being
looked at again.
-/

namespace ReverseLisp

/-- A checked expression. -/
inductive Node where
  /-- Gives a value. -/
  | literal (v : Value)
  /-- Gives the value of a variable. -/
  | lookup (x : Symbol)
  /-- Runs one of two nodes, the second only if the test gives false. -/
  | branch (test yes no : Node)
  /-- Binds a symbol in the environment itself. -/
  | define (x : Symbol) (value : Node)
  /-- Changes the nearest binding of a symbol. -/
  | assign (x : Symbol) (value : Node)
  /-- Makes a closure. -/
  | function (params : List Symbol) (body : Node) (source : List Value)
  /-- Runs nodes in order and gives the last value. -/
  | sequence (nodes : List Node)
  /-- Applies the value of the operator to the values of the operands. -/
  | application (operator : Node) (operands : List Node)
deriving Inhabited

namespace Node

mutual

/-- How deeply nodes are nested, bodies of functions included. -/
def depth : Node → Nat
  | literal _ | lookup _ => 1
  | branch test yes no => max test.depth (max yes.depth no.depth) + 1
  | define _ value | assign _ value => value.depth + 1
  | function _ body _ => body.depth + 1
  | sequence nodes => depthAll nodes + 1
  | application operator operands => max operator.depth (depthAll operands) + 1

/-- The greatest depth among nodes. -/
def depthAll : List Node → Nat
  | [] => 0
  | n :: ns => max n.depth (depthAll ns)

end

/-- The node that runs others in order: none gives the empty list, and one is itself. -/
def ofList : List Node → Node
  | [] => literal (.list [])
  | [n] => n
  | ns => sequence ns

end Node

end ReverseLisp
