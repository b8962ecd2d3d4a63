import ReverseLisp.Reader

/-!
# Cursors

Reading step by step: a list of tokens and a position in it. Every step leaves the tokens as they
are and moves the position forward or not at all, also when it fails.
-/

namespace ReverseLisp

/-- Tokens and the position of the next one. -/
structure Cursor where
  tokens : List Token
  position : Nat
deriving Inhabited

namespace Cursor

/-- A cursor before the first token. -/
def ofTokens (ts : List Token) : Cursor := ⟨ts, 0⟩

/-- The tokens from the position on. -/
def rest (c : Cursor) : List Token := c.tokens.drop c.position

/-- Moves to where only `rest` is left. -/
def moveTo (c : Cursor) (rest : List Token) : Cursor :=
  { c with position := c.tokens.length - rest.length }

/-- Whether no token is left. -/
def atEnd (c : Cursor) : Bool := c.tokens.length ≤ c.position

/-- The next token. -/
def peek? (c : Cursor) : Option Token := c.tokens[c.position]?

/-- The next token, and the cursor behind it. -/
def advance (c : Cursor) : Option Token × Cursor :=
  match c.peek? with
  | some t => (some t, { c with position := c.position + 1 })
  | none => (none, c)

/-- Reads the next expression. -/
def readExpr (c : Cursor) : Except Error Value × Cursor :=
  let (v, rest) := ReverseLisp.readExpr c.rest
  (v, c.moveTo rest)

/-- Reads the expressions that are left. -/
def readAll (c : Cursor) : Except Error (List Value) × Cursor :=
  let (vs, rest) := ReverseLisp.readAll c.rest
  (vs, c.moveTo rest)

end Cursor

end ReverseLisp
