import ReverseLisp.Error
import ReverseLisp.Token

/-!
# Brackets

Counting brackets in a text and matching them in a list of tokens. Any closing bracket matches any
opening one, whatever their families.
-/

namespace ReverseLisp

/-! ## In a text -/

/-- What a character adds to the depth of brackets. -/
def bracketWeight (c : Char) : Int :=
  if c ∈ openers then 1 else if c ∈ closers then -1 else 0

/-- Opening minus closing brackets. -/
def bracketDepth : List Char → Int
  | [] => 0
  | c :: cs => bracketWeight c + bracketDepth cs

theorem bracketDepth_append (cs ds : List Char) :
    bracketDepth (cs ++ ds) = bracketDepth cs + bracketDepth ds := by
  induction cs with
  | nil => simp [bracketDepth]
  | cons c cs ih => rw [List.cons_append, bracketDepth, bracketDepth, ih, Int.add_assoc]

/-- Equally many opening and closing brackets, in any order. -/
def isBalanced (cs : List Char) : Bool := bracketDepth cs == 0

/-- Whether `cs` is a contiguous part of a text. -/
def occursIn (cs : List Char) : List Char → Bool
  | [] => cs.isEmpty
  | d :: ds => cs.isPrefixOf (d :: ds) || occursIn cs ds

/-- A run of consecutive opening brackets, in the order round, square, curly. -/
def isOpenerRun (cs : List Char) : Bool := occursIn cs openers

/-- A run of consecutive closing brackets, in the order round, square, curly. -/
def isCloserRun (cs : List Char) : Bool := occursIn cs closers

/-! ## In a list of tokens -/

namespace Token

/-- Splits tokens at the bracket that closes the outermost of `depth + 1` open lists: the tokens
before that bracket, and those after it. -/
def splitAtCloser (depth : Nat) : List Token → Option (List Token × List Token)
  | [] => none
  | t :: ts =>
    match t.kind, depth with
    | .closing, 0 => some ([], ts)
    | .closing, d + 1 => (splitAtCloser d ts).map fun (inner, rest) ↦ (t :: inner, rest)
    | .opening, d => (splitAtCloser (d + 1) ts).map fun (inner, rest) ↦ (t :: inner, rest)
    | _, d => (splitAtCloser d ts).map fun (inner, rest) ↦ (t :: inner, rest)

/-- The position of the closing bracket that matches the opening one at `start`. A `start` of `-1`
asks for the first closing bracket that nothing before it opens. -/
def sublistEnd (ts : List Token) (start : Int) : Except Error Nat :=
  let first := (start + 1).toNat
  match splitAtCloser 0 (ts.drop first) with
  | some (inner, _) => .ok (first + inner.length)
  | none => .error .unterminatedList

/-- A split loses nothing but the closing bracket. -/
theorem splitAtCloser_eq_some {depth : Nat} {ts inner rest : List Token}
    (h : splitAtCloser depth ts = some (inner, rest)) :
    ∃ t : Token, t.kind = .closing ∧ ts = inner ++ t :: rest := by
  induction ts generalizing depth inner with
  | nil => simp [splitAtCloser] at h
  | cons t ts ih =>
    unfold splitAtCloser at h
    split at h
    · next hk =>
      simp only [Option.some.injEq, Prod.mk.injEq] at h
      obtain ⟨rfl, rfl⟩ := h
      exact ⟨t, hk, rfl⟩
    all_goals
      obtain ⟨⟨inner', rest'⟩, h', heq⟩ := Option.map_eq_some_iff.1 h
      simp only [Prod.mk.injEq] at heq
      obtain ⟨rfl, rfl⟩ := heq
      obtain ⟨t', hk, rfl⟩ := ih h'
      exact ⟨t', hk, rfl⟩

/-- A split is shorter than what it splits. -/
theorem length_splitAtCloser {depth : Nat} {ts inner rest : List Token}
    (h : splitAtCloser depth ts = some (inner, rest)) :
    inner.length + rest.length < ts.length := by
  obtain ⟨t, -, rfl⟩ := splitAtCloser_eq_some h
  simp

end Token

end ReverseLisp
