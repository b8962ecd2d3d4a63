import ReverseLisp.Text.Blank

/-!
# Tokens

A program text is cut into tokens: each bracket, each reversal marker and each quotation marker is
a token of its own, and every other maximal run of characters that are not blank is a literal. The
three families of brackets are one: a bracket token has the text of a round bracket, whichever
family it was written in.
-/

namespace ReverseLisp

/-- The kinds of token. The reader knows five; a host may make tokens of other kinds. -/
inductive Kind where
  | opening
  | closing
  | reverse
  | quote
  | literal
  | other (name : String)
deriving DecidableEq, Inhabited

namespace Kind

/-- The kinds that the reader knows. -/
def known : List Kind := [opening, closing, reverse, quote, literal]

/-- The name of a kind. -/
def name : Kind → String
  | opening => "open"
  | closing => "close"
  | reverse => "reverse"
  | quote => "quote"
  | literal => "literal"
  | other name => name

/-- The kind with a given name. -/
def ofName (name : String) : Kind := (known.find? (·.name = name)).getD (other name)

theorem name_ofName (s : String) : (ofName s).name = s := by
  unfold ofName
  cases h : known.find? (·.name = s) with
  | none => rfl
  | some k => simpa using List.find?_some h

end Kind

/-- A kind and the text of a token. -/
structure Token where
  kind : Kind
  text : String
deriving DecidableEq, Inhabited

/-! ## Characters -/

/-- The opening brackets. -/
def openers : List Char := ['(', '[', '\x7b']

/-- The closing brackets. -/
def closers : List Char := [')', ']', '\x7d']

namespace Token

/-- The token that a character makes by itself. -/
def ofChar? (c : Char) : Option Token :=
  if c ∈ openers then some ⟨.opening, "("⟩
  else if c ∈ closers then some ⟨.closing, ")"⟩
  else if c = '$' then some ⟨.reverse, "$"⟩
  else if c = '\x27' then some ⟨.quote, "'"⟩
  else none

/-- A character of literals: neither blank nor a token by itself. -/
def isLiteral (c : Char) : Bool := !Text.isBlank c && (ofChar? c).isNone

/-! ## Scanning -/

/-- The tokens of a text, with literals as long as possible. -/
def scan : List Char → List Token
  | [] => []
  | c :: cs =>
    if Text.isBlank c then scan cs
    else
      match ofChar? c with
      | some t => t :: scan cs
      | none =>
        ⟨.literal, String.ofList (c :: cs.takeWhile isLiteral)⟩ :: scan (cs.dropWhile isLiteral)
termination_by cs => cs.length
decreasing_by
  all_goals simp only [List.length_cons]
  · omega
  · omega
  · have := (List.dropWhile_sublist isLiteral (l := cs)).length_le
    omega

theorem scan_nil : scan [] = [] := by rw [scan]

/-- Blanks before a token do not matter. -/
theorem scan_cons_of_isBlank {c : Char} (h : Text.isBlank c = true) (cs : List Char) :
    scan (c :: cs) = scan cs := by
  rw [scan, if_pos h]

theorem not_isBlank_of_ofChar? {c : Char} {t : Token} (h : ofChar? c = some t) :
    Text.isBlank c = false := by
  have hc : c ∈ openers ∨ c ∈ closers ∨ c = '$' ∨ c = '\x27' := by
    unfold ofChar? at h
    split at h
    · next ho => exact .inl ho
    split at h
    · next hc => exact .inr (.inl hc)
    split at h
    · next hd => exact .inr (.inr (.inl hd))
    split at h
    · next hq => exact .inr (.inr (.inr hq))
    · simp at h
  rcases hc with ho | hc | rfl | rfl
  · simp only [openers, List.mem_cons, List.not_mem_nil, or_false] at ho
    rcases ho with rfl | rfl | rfl <;> rfl
  · simp only [closers, List.mem_cons, List.not_mem_nil, or_false] at hc
    rcases hc with rfl | rfl | rfl <;> rfl
  · rfl
  · rfl

theorem scan_cons_of_ofChar? {c : Char} {t : Token} (h : ofChar? c = some t) (cs : List Char) :
    scan (c :: cs) = t :: scan cs := by
  rw [scan, if_neg (by simp [not_isBlank_of_ofChar? h]), h]

/-- A literal goes on as long as its characters do. -/
theorem scan_cons_of_isLiteral {c : Char} (h : isLiteral c = true) (cs : List Char) :
    scan (c :: cs) =
      ⟨.literal, String.ofList (c :: cs.takeWhile isLiteral)⟩ :: scan (cs.dropWhile isLiteral) := by
  simp only [isLiteral, Bool.and_eq_true, Bool.not_eq_true', Option.isNone_iff_eq_none] at h
  rw [scan, if_neg (by simp [h.1]), h.2]

/-- The tokens of a program. -/
def tokenize (source : String) : List Token := scan source.toList

end Token

end ReverseLisp
