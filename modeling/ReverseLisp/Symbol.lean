/-!
# Symbols

A symbol is a name. Two symbols are the same exactly if their names are.
-/

namespace ReverseLisp

/-- The name of a variable, or a word of quoted data. -/
structure Symbol where
  name : String
deriving DecidableEq, Inhabited

end ReverseLisp
