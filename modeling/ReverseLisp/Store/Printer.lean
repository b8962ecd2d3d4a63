import ReverseLisp.Store

/-!
# Texts of environments

A frame is shown as its bindings in order, the names as messages mention them and the values by
their diagnoses. Like the text of a value, it may not exist because an integer in it is too long.
-/

namespace ReverseLisp

/-- One binding of a frame. -/
def Frame.bindingText? (b : Value × Value) : Option (List Char) := do
  return (← b.1.mention?) ++ ": ".toList ++ (← b.2.diagnosis?)

/-- The bindings of a frame. -/
def Frame.text? (f : Frame) : Option (List Char) :=
  (f.bindings.mapM bindingText?).map fun ts ↦ '\x7b' :: Value.joined ", " ts ++ ['\x7d']

namespace Store

variable {β : Type}

/-- The frame of an environment, with a sign that others enclose it. -/
def envText? (s : Store β) (e : EnvId) : Option (List Char) :=
  match s.env? e with
  | none => Frame.empty.text?
  | some env => env.frame.text?.map (· ++ if env.enclosure = 0 then [] else " -> ...".toList)

/-- The frames of the environments met when walking outward. -/
def chainText? (s : Store β) (e : EnvId) : Option (List Char) :=
  ((s.chain e).mapM fun e' ↦ (s.env? e').bind (·.frame.text?)).map fun ts ↦
    "<Environment chain: ".toList ++ Value.joined " -> " (ts ++ ["<empty>".toList]) ++ ['>']

end Store

end ReverseLisp
