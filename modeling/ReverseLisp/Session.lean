import ReverseLisp.Evaluation
import ReverseLisp.Reader

/-!
# Sessions

A session evaluates program texts one after another in one global environment, so that later texts
see what earlier ones defined. A text is read whole before any of it runs. It then runs expression
by expression, and what ran before an error stays done.
-/

namespace ReverseLisp

namespace Machine

/-- Evaluates expressions in order and collects their values. -/
def evaluateAll (limit : Nat) (e : EnvId) : List Value → Machine (List Value)
  | [] => pure []
  | expr :: exprs => do
    let v ← evaluate limit expr e
    let vs ← evaluateAll limit e exprs
    return v :: vs

/-- Reads a program and evaluates its expressions. A program with unequally many opening and
closing brackets is not read at all. -/
def evaluateText (limit : Nat) (e : EnvId) (program : String) : Machine (List Value) := do
  if isBalanced program.toList then
    evaluateAll limit e (← Action.ofExcept (read program))
  else throw .unbalanced

/-- Evaluates programs in order. -/
def load (limit : Nat) (e : EnvId) : List String → Machine Unit
  | [] => pure ()
  | program :: programs => do
    let _ ← evaluateText limit e program
    load limit e programs

end Machine

/-- A store, the global environment in it, and the limit on nested runs. -/
structure Session where
  store : Store Node
  env : EnvId
  limit : Nat

namespace Session

/-- A session in which nothing but the base frame is bound. -/
def start (limit : Nat) : Session :=
  match Action.newGlobal Store.empty with
  | .ok e store => ⟨store, e, limit⟩
  | .error _ store => ⟨store, 0, limit⟩

/-- Performs an action on the store of a session. -/
def perform {α : Type} (action : Machine α) (s : Session) : Except Error α × Session :=
  let ⟨store, env, limit⟩ := s
  match action store with
  | .ok a store => (.ok a, ⟨store, env, limit⟩)
  | .error e store => (.error e, ⟨store, env, limit⟩)

/-- The values of the expressions of a program. -/
def evalAll (program : String) (s : Session) : Except Error (List Value) × Session :=
  s.perform (Machine.evaluateText s.limit s.env program)

/-- The value of a program: that of its only expression, or the list of all values. -/
def eval (program : String) (s : Session) : Except Error Value × Session :=
  let (values, s) := s.evalAll program
  (values.map fun | [v] => v | vs => .list vs, s)

/-- Evaluates programs for what they define. -/
def load (programs : List String) (s : Session) : Except Error Unit × Session :=
  s.perform (Machine.load s.limit s.env programs)

/-- A session in which programs have been evaluated for what they define. There is none if one of
them fails. -/
def withLibrary (limit : Nat) (programs : List String) : Except Error Session :=
  let (result, s) := (start limit).load programs
  result.map fun _ ↦ s

/-- The frame of the global environment. -/
def frame (s : Session) : Frame := (s.store.env? s.env).elim Frame.empty Env.frame

end Session

end ReverseLisp
