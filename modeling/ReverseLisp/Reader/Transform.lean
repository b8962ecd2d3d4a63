import ReverseLisp.SpecialForm
import ReverseLisp.Text.Quoted
import ReverseLisp.Token
import ReverseLisp.Value

/-!
# Transformations of what a marker precedes

A marker token stands before one expression and changes it as it is read: the quotation marker
wraps it in a `quote` form, and the reversal marker turns round the order of every list in it. A
table says which kinds of token are markers.
-/

namespace ReverseLisp

namespace Value

mutual

/-- The expression with the order of every list in it turned round, at every depth. -/
def deepReverse : Value → Value
  | list items => list (deepReverseEach items).reverse
  | v => v

/-- Each expression with its lists turned round; the expressions keep their order. -/
def deepReverseEach : List Value → List Value
  | [] => []
  | v :: vs => deepReverse v :: deepReverseEach vs

end

/-- The form that evaluates to the expression itself. -/
def quoted (v : Value) : Value := list [symbol SpecialForm.quote.word, v]

theorem deepReverseEach_eq_map (vs : List Value) : deepReverseEach vs = vs.map deepReverse := by
  induction vs with
  | nil => rfl
  | cons v vs ih => rw [deepReverseEach, ih, List.map_cons]

end Value

/-- What a marker does to the expression after it. -/
inductive Transform where
  | deepReverse
  | quote
deriving DecidableEq, Inhabited

/-- The transformed expression. -/
def Transform.apply : Transform → Value → Value
  | deepReverse, v => v.deepReverse
  | quote, v => v.quoted

/-- Which kinds of token are markers, and what they do. -/
structure MarkerTable where
  entries : List (Kind × Transform)
deriving Inhabited

namespace MarkerTable

/-- No markers. -/
def empty : MarkerTable := ⟨[]⟩

/-- Makes a kind of token a marker; what it did before is forgotten. -/
def insert (m : MarkerTable) (k : Kind) (f : Transform) : MarkerTable :=
  ⟨(k, f) :: m.entries.filter (·.1 != k)⟩

/-- What tokens of a kind do, if they are markers. -/
def transform? (m : MarkerTable) (k : Kind) : Option Transform := m.entries.lookup k

/-- Whether tokens of a kind are markers. -/
def contains (m : MarkerTable) (k : Kind) : Bool := (m.transform? k).isSome

/-- Applies the transformation of a kind of token. -/
def apply (m : MarkerTable) (k : Kind) (v : Value) : Except Error Value :=
  match m.transform? k with
  | some f => .ok (f.apply v)
  | none => .error (.noTransform (Text.quoted k.name))

/-- The markers of the language. -/
def standard : MarkerTable := (empty.insert .reverse .deepReverse).insert .quote .quote

theorem transform?_standard (k : Kind) :
    standard.transform? k =
      match k with
      | .reverse => some .deepReverse
      | .quote => some .quote
      | _ => none := by
  cases k <;> rfl

end MarkerTable

end ReverseLisp
