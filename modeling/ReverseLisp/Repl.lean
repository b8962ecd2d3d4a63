import ReverseLisp.Session

/-!
# The read-eval-print loop

Lines are gathered until no bracket is left open, then evaluated as one program. Each value is
printed on a line of its own. Most errors are reported, and the loop goes on in the state that the
failed program left; an overflow, or a value that cannot be printed, ends the loop.
-/

namespace ReverseLisp

/-- Whether the loop reports an error and goes on. -/
def Error.isReported (e : Error) : Bool :=
  match e.kind with
  | .invalidKey | .overflow | .badValue | .fileNotFound => false
  | _ => true

/-- The lines of a text, each with the line feed that ends it. -/
def textLines : List Char → List (List Char)
  | [] => []
  | c :: cs =>
    if c = '\n' then [c] :: textLines cs
    else
      match textLines cs with
      | [] => [[c]]
      | l :: ls => (c :: l) :: ls

/-- Cutting into lines loses nothing. -/
theorem flatten_textLines (cs : List Char) : (textLines cs).flatten = cs := by
  induction cs with
  | nil => rfl
  | cons c cs ih =>
    rw [textLines]
    split
    · next h => simp [ih]
    · cases h : textLines cs with
      | nil => simpa [h] using ih
      | cons l ls =>
        rw [h, List.flatten_cons] at ih
        simp [ih]

/-- The sources of values, one to a line, up to the first that has none. -/
def printedLines : List Value → List Char × Option Error
  | [] => ([], none)
  | v :: vs =>
    match v.source? with
    | none => ([], some .digitLimit)
    | some text =>
      let (rest, error) := printedLines vs
      (text ++ '\n' :: rest, error)

/-- The state between two lines: the session, what is asked with, and the lines gathered so far. -/
structure Repl where
  session : Session
  prompt : List Char
  continuation : List Char
  pending : List Char

namespace Repl

/-- The words that ask for a program, unless others are given. -/
def defaultPrompt : String := "rtl> "

/-- The words that ask for another line of a program, unless others are given. -/
def defaultContinuation : String := "...  "

/-- A loop that has not read anything. -/
def ofSession (session : Session) (prompt continuation : String) : Repl :=
  ⟨session, prompt.toList, continuation.toList, []⟩

/-- Evaluates a complete program: what is written, and the error that ends the loop, if any. -/
def respond (r : Repl) (program : List Char) : List Char × Option Error × Repl :=
  let ⟨session, prompt, continuation, _⟩ := r
  match session.evalAll (String.ofList program) with
  | (.ok values, session) =>
    let r := ⟨session, prompt, continuation, []⟩
    match printedLines values with
    | (text, none) => (text ++ prompt, none, r)
    | (text, some e) => (text, some e, r)
  | (.error e, session) =>
    let r := ⟨session, prompt, continuation, []⟩
    if e.isReported then ("error: ".toList ++ e.message.toList ++ '\n' :: prompt, none, r)
    else ([], some e, r)

/-- Takes one line: what is written, and the error that ends the loop, if any. -/
def step (r : Repl) (line : List Char) : List Char × Option Error × Repl :=
  let program := r.pending ++ line
  if 0 < bracketDepth program then (r.continuation, none, { r with pending := program })
  else r.respond program

/-- Takes lines until they end or an error ends the loop. -/
def steps (r : Repl) : List (List Char) → List Char × Option Error × Repl
  | [] => (['\n'], none, r)
  | line :: lines =>
    match r.step line with
    | (text, none, r) =>
      let (rest, error, r) := r.steps lines
      (text ++ rest, error, r)
    | (text, some e, r) => (text, some e, r)

/-- The whole loop over an input: everything written, the error that ended it early, if any, and
the last state. -/
def run (r : Repl) (input : String) : List Char × Option Error × Repl :=
  let (text, error, last) := r.steps (textLines input.toList)
  (r.prompt ++ text, error, last)

end Repl

end ReverseLisp
