import ReverseLisp.Number.Literal
import ReverseLisp.Reader.Transform
import ReverseLisp.Token.Bracket

/-!
# Reading expressions

A literal reads as a number if its text denotes one, and as a symbol otherwise. A list is found by
counting brackets: the tokens between an opening bracket and the closing one that matches it are
read by themselves, as a sequence of expressions that has to use them up.

Reading reports, besides its result, the tokens that are left. After an error these tell where it
stopped: past the markers and, if the error lies inside a list, past that list, but not past a
token that no expression can start with.

Lists and markers may nest as deeply as the tokens have it. The limit of a session is one of
analysing and running, so nothing is too deep to be read.
-/

namespace ReverseLisp

/-- The expression that a literal denotes: an integer, else a binary number, else a symbol. A text
for what is not a number is a symbol. -/
def atom (text : String) : Value :=
  match Literal.int? text.toList with
  | some n => .int n
  | none =>
    match Literal.binary? text.toList with
    | some (.binary x) => .binary x
    | _ => .symbol ⟨text⟩

/-- What stands behind the markers at the start of an expression. -/
inductive Core where
  | literal (text : String)
  | list (inner : List Token)
deriving DecidableEq, Inhabited

/-- Markers, outermost first, and what they stand before. -/
structure Extent where
  markers : List Transform
  core : Core
deriving DecidableEq, Inhabited

namespace Extent

/-- Adds a marker at the front. -/
def mark (f : Transform) (x : Extent) : Extent := { x with markers := f :: x.markers }

/-- The expression, given that of the core: the innermost marker acts first. -/
def transform (x : Extent) (v : Value) : Value := x.markers.foldr Transform.apply v

end Extent

/-- The extent of the first expression, without reading into lists, and the tokens left. -/
def nextExtent : List Token → Except Error Extent × List Token
  | [] => (.error .endOfInput, [])
  | t :: ts =>
    match MarkerTable.standard.transform? t.kind with
    | some f =>
      if ts.isEmpty then (.error (.nothingToRead (Text.quoted t.text)), [])
      else
        let (extent, rest) := nextExtent ts
        (extent.map (.mark f), rest)
    | none =>
      match t.kind with
      | .literal => (.ok ⟨[], .literal t.text⟩, ts)
      | .opening =>
        match Token.splitAtCloser 0 ts with
        | some (inner, rest) => (.ok ⟨[], .list inner⟩, rest)
        | none => (.error .unterminatedList, t :: ts)
      | .closing => (.error .unexpectedCloser, t :: ts)
      | kind => (.error (.unknownToken kind.name t.text), t :: ts)

/-- An extent uses up at least one token, and the tokens of a list are fewer still. -/
theorem length_of_nextExtent {ts rest : List Token} {x : Extent}
    (h : nextExtent ts = (.ok x, rest)) :
    rest.length < ts.length ∧ ∀ inner, x.core = .list inner → inner.length < ts.length := by
  induction ts generalizing x with
  | nil => simp [nextExtent] at h
  | cons t ts ih =>
    rw [nextExtent] at h
    split at h
    · split at h
      · simp at h
      · cases hn : nextExtent ts with
        | mk e r =>
          cases e with
          | error e => simp [hn, Except.map] at h
          | ok y =>
            simp only [hn, Except.map, Prod.mk.injEq, Except.ok.injEq] at h
            obtain ⟨rfl, rfl⟩ := h
            obtain ⟨h₁, h₂⟩ := ih hn
            exact ⟨Nat.lt_succ_of_lt h₁, fun inner hi ↦ Nat.lt_succ_of_lt (h₂ inner hi)⟩
    · split at h
      · simp only [Prod.mk.injEq, Except.ok.injEq] at h
        obtain ⟨rfl, rfl⟩ := h
        simp
      · split at h
        · next hs =>
          simp only [Prod.mk.injEq, Except.ok.injEq] at h
          obtain ⟨rfl, rfl⟩ := h
          have := Token.length_splitAtCloser hs
          simp only [List.length_cons, Core.list.injEq, forall_eq']
          omega
        · simp at h
      · simp at h
      · simp at h

/-- Puts an expression before the result of reading the rest. -/
def consResult (v : Value) : Except Error (List Value) × List Token →
    Except Error (List Value) × List Token
  | (vs, rest) => (vs.map (v :: ·), rest)

/-- Reads expressions until no token is left or one cannot be read. -/
def readAll (ts : List Token) : Except Error (List Value) × List Token :=
  match ts with
  | [] => (.ok [], [])
  | t :: ts =>
    match _h : nextExtent (t :: ts) with
    | (.error e, rest) => (.error e, rest)
    | (.ok ⟨markers, .literal text⟩, rest) =>
      consResult (Extent.transform ⟨markers, .literal text⟩ (atom text)) (readAll rest)
    | (.ok ⟨markers, .list inner⟩, rest) =>
      match (readAll inner).1 with
      | .error e => (.error e, rest)
      | .ok vs => consResult (Extent.transform ⟨markers, .list inner⟩ (.list vs)) (readAll rest)
termination_by ts.length
decreasing_by
  · exact (length_of_nextExtent _h).1
  · exact (length_of_nextExtent _h).2 inner rfl
  · exact (length_of_nextExtent _h).1

/-- The expression of an extent. -/
def Extent.read (x : Extent) : Except Error Value :=
  match x.core with
  | .literal text => .ok (x.transform (atom text))
  | .list inner => (readAll inner).1.map fun vs ↦ x.transform (.list vs)

/-- Reads one expression. -/
def readExpr (ts : List Token) : Except Error Value × List Token :=
  let (extent, rest) := nextExtent ts
  (extent.bind Extent.read, rest)

/-- All expressions of a program. -/
def read (source : String) : Except Error (List Value) := (readAll (Token.tokenize source)).1

/-- The expression of a text that holds exactly one. -/
def readOne (source : String) : Except Error Value := do
  match ← read source with
  | [v] => return v
  | vs => throw (.notOneExpression vs.length)

end ReverseLisp
