import ReverseLisp.Value.Key
import ReverseLisp.Value.Printer

/-!
# Environments

An environment is one frame of bindings and a reference to the environment around it, its
enclosure. Frames are shared: a closure keeps a reference to the environment it was made in, so a
binding that is made or changed there later is seen by every closure that refers to it. References
are numbers, and the store gives each its environment. Number zero is the empty environment, which
has no frame and ends every chain.

The store also keeps the code of closures under their identities, and counts the results that are
not numbers. Its parameter `β` is the form in which a closure keeps its body.

Environments are made after their enclosures, so enclosures have smaller numbers. Walking outward
uses this to end: it stops at a reference that does not decrease.
-/

namespace ReverseLisp

/-! ## Frames -/

/-- Bindings of names, in the order in which the names were first bound. -/
structure Frame where
  bindings : List (Value × Value)
deriving Inhabited

namespace Frame

/-- No bindings. -/
def empty : Frame := ⟨[]⟩

/-- The bound names, in order. -/
def names (f : Frame) : List Value := f.bindings.map (·.1)

/-- The keys of the bound names, in order. -/
def keys (f : Frame) : List Value := f.names.map Value.key

/-- The value bound to a name. -/
def get? (f : Frame) (x : Value) : Option Value :=
  (f.bindings.find? fun b ↦ b.1.key = x.key).map (·.2)

/-- Whether a name is bound. -/
def binds (f : Frame) (x : Value) : Bool := (f.get? x).isSome

/-- Replaces the first value bound to a name, or adds a binding at the end. -/
def setBinding (x v : Value) : List (Value × Value) → List (Value × Value)
  | [] => [(x, v)]
  | (y, w) :: bs => if y.key = x.key then (y, v) :: bs else (y, w) :: setBinding x v bs

/-- Binds a name. One that is bound already keeps its place and its form. -/
def set (f : Frame) (x v : Value) : Frame := ⟨setBinding x v f.bindings⟩

/-- The frame that comes from binding one pair after another. -/
def ofPairs (ps : List (Value × Value)) : Frame := ps.foldl (fun f p ↦ f.set p.1 p.2) empty

/-- The frame of pairs whose names are checked to be no lists. -/
def ofPairs? (ps : List (Value × Value)) : Except Error Frame :=
  if ps.any (·.1.isList) then .error .listName else .ok (ofPairs ps)

/-- The frame that every session starts from: the primitives, the two booleans, and the name of
the empty list. -/
def base : Frame :=
  ofPairs (Primitive.all.map (fun p ↦ (.symbol p.symbol, .primitive p)) ++
    [(.symbol ⟨"#t"⟩, .bool true), (.symbol ⟨"#f"⟩, .bool false), (.symbol ⟨"nil"⟩, .list [])])

end Frame

/-! ## The store -/

/-- The number of an environment. -/
abbrev EnvId := Nat

/-- A frame and the environment around it. -/
structure Env where
  frame : Frame
  enclosure : EnvId
deriving Inhabited

/-- What a closure does when it is applied: its body, the environment that it extends, and the
expressions that the body was made from. -/
structure Code (β : Type) where
  body : β
  env : EnvId
  source : List Value

/-- Environments, the code of closures, and the number of marks given out. Environment `n + 1` is
found at index `n`. -/
structure Store (β : Type) where
  envs : Array Env
  codes : Array (Code β)
  marks : Nat

namespace Store

variable {β : Type}

/-- A store with no environment but the empty one. -/
def empty : Store β := ⟨#[], #[], 0⟩

/-- The environment with a number; the empty one has no frame, hence none. -/
def env? (s : Store β) : EnvId → Option Env
  | 0 => none
  | n + 1 => s.envs[n]?

/-- The environments met when walking outward, the innermost first, the empty one left out. -/
def chain (s : Store β) (e : EnvId) : List EnvId :=
  match e with
  | 0 => []
  | n + 1 =>
    match s.envs[n]? with
    | none => []
    | some env => (n + 1) :: if env.enclosure < n + 1 then s.chain env.enclosure else []
termination_by e
decreasing_by assumption

/-- Whether the frame of an environment binds a name. -/
def binds (s : Store β) (e : EnvId) (x : Value) : Bool := (s.env? e).any (·.frame.binds x)

/-- The nearest environment that binds a name. -/
def find? (s : Store β) (e : EnvId) (x : Value) : Option EnvId :=
  (s.chain e).find? (s.binds · x)

/-- The value of a name in its nearest binding. -/
def value? (s : Store β) (e : EnvId) (x : Value) : Option Value := do
  let env ← s.env? (← s.find? e x)
  env.frame.get? x

/-- Binds a name in the frame of an environment; the empty one stays empty. -/
def put (s : Store β) (e : EnvId) (x v : Value) : Store β :=
  match e with
  | 0 => s
  | n + 1 => { s with envs := s.envs.modify n fun env ↦ { env with frame := env.frame.set x v } }

/-- The number that the next environment gets. -/
def nextEnv (s : Store β) : EnvId := s.envs.size + 1

/-- Adds an environment. -/
def pushEnv (s : Store β) (env : Env) : Store β := { s with envs := s.envs.push env }

end Store

/-! ## Actions -/

/-- A step that may change the store. What an action did before it failed stays done. -/
abbrev Action (β : Type) := EStateM Error (Store β)

namespace Action

variable {β : Type}

/-- Makes an environment. -/
def newEnv (frame : Frame) (enclosure : EnvId) : Action β EnvId := fun s ↦
  .ok s.nextEnv (s.pushEnv ⟨frame, enclosure⟩)

/-- Makes an environment with the base frame. -/
def newBase : Action β EnvId := newEnv Frame.base 0

/-- Makes an environment with no bindings yet, within a new base environment. -/
def newGlobal : Action β EnvId := do newEnv Frame.empty (← newBase)

/-- The error of a name that is not bound. That a list is no name shows once there is a frame to
find it in. -/
def errorUnbound (e : EnvId) (name : Value) (mk : String → Error) : Error :=
  if name.isList ∧ e ≠ 0 then .listName else name.errorMentioning mk

/-- The nearest environment that binds a name, if there is one. -/
def find (e : EnvId) (name : Value) : Action β (Option EnvId) := fun s ↦
  if name.isList ∧ e ≠ 0 then .error .listName s else .ok (s.find? e name) s

/-- The value of a name. -/
def lookup (e : EnvId) (name : Value) : Action β Value := fun s ↦
  match s.value? e name with
  | some v => .ok v s
  | none => .error (errorUnbound e name .unboundLookup) s

/-- Binds a name, which has to be a symbol, in the environment itself, in place of an earlier
binding there. -/
def define (e : EnvId) (name v : Value) : Action β Value := fun s ↦
  match name with
  | .symbol x =>
    if e = 0 then .error (.emptyEnvironment x.name) s else .ok v (s.put e (.symbol x) v)
  | name => .error (name.errorMentioning .invalidName) s

/-- Changes the nearest binding of a name. -/
def assign (e : EnvId) (name v : Value) : Action β Value := fun s ↦
  match s.find? e name with
  | some e' => .ok v (s.put e' name v)
  | none => .error (errorUnbound e name .unboundAssignment) s

/-- Makes an environment that binds parameters to arguments. Of a repeated parameter the last
argument counts. -/
def extend (e : EnvId) (params args : List Value) : Action β EnvId :=
  if params.length = args.length then
    match Frame.ofPairs? (params.zip args) with
    | .ok frame => newEnv frame e
    | .error err => throw err
  else throw (.frameArity params.length args.length)

/-- Binds several names in order. Of a repeated name the last value counts, at its first place. -/
def update (e : EnvId) (pairs : List (Value × Value)) : Action β Unit :=
  match Frame.ofPairs? pairs with
  | .ok frame => frame.bindings.forM fun b ↦ do
    let _ ← define e b.1 b.2
  | .error err => throw err

/-- Makes a closure. -/
def newClosure (params : List Symbol) (code : Code β) : Action β Value := fun s ↦
  .ok (.closure s.codes.size params) { s with codes := s.codes.push code }

/-- The code of a closure. -/
def code? (id : Nat) : Action β (Option (Code β)) := fun s ↦ .ok s.codes[id]? s

/-- Stops with the error of a failed computation. -/
def ofExcept {α : Type} (x : Except Error α) : Action β α :=
  match x with
  | .ok a => pure a
  | .error e => throw e

end Action

end ReverseLisp
