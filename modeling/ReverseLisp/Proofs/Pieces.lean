import Mathlib.Data.List.Chain
import ReverseLisp.Proofs.Scanning
import ReverseLisp.Session

/-!
# How a text divides into tokens

Said without a scanner, a text is a row of tokens with blanks between them. A bracket of any family
and a marker are tokens of one character, any other token is a run of characters that are neither
blank nor one of these, and two such runs have a blank between them. A text has exactly one
`Division` of this shape, and scanning finds its tokens (`Division.tokens_eq_scan`). The division
keeps every character, so no part of a text is lost.

Two things follow for how a program may be written. Tokens that are written with blanks between
them are scanned back. And a bracket may be replaced by one of another family: scanning, reading
and evaluation see a text only through `roundChar`, which makes every bracket a round one.
-/

namespace ReverseLisp

namespace Token

/-! ## Spellings -/

/-- The characters that a token is written with. -/
inductive Spells : List Char → Token → Prop
  | opening {c : Char} (h : c ∈ openers) : Spells [c] ⟨.opening, "("⟩
  | closing {c : Char} (h : c ∈ closers) : Spells [c] ⟨.closing, ")"⟩
  | reverse : Spells ['$'] ⟨.reverse, "$"⟩
  | quote : Spells ['\x27'] ⟨.quote, "'"⟩
  | literal {cs : List Char} (hne : cs ≠ [])
      (h : ∀ c ∈ cs, Text.isBlank c = false ∧ c ∉ openers ∧ c ∉ closers ∧ c ≠ '$' ∧ c ≠ '\x27') :
      Spells cs ⟨.literal, String.ofList cs⟩

theorem ofChar?_of_mem_closers {c : Char} (h : c ∈ closers) : ofChar? c = some ⟨.closing, ")"⟩ := by
  simp only [closers, List.mem_cons, List.not_mem_nil, or_false] at h
  rcases h with rfl | rfl | rfl <;> rfl

theorem isLiteral_iff {c : Char} :
    isLiteral c = true ↔
      Text.isBlank c = false ∧ c ∉ openers ∧ c ∉ closers ∧ c ≠ '$' ∧ c ≠ '\x27' := by
  unfold isLiteral ofChar?
  split_ifs <;> simp_all

/-- In terms of scanning, a spelling is a character that is a token by itself or a run of characters
of literals. -/
theorem spells_iff {cs : List Char} {t : Token} :
    Spells cs t ↔ (∃ c, cs = [c] ∧ ofChar? c = some t) ∨
      (cs ≠ [] ∧ (∀ c ∈ cs, isLiteral c = true) ∧ t = ⟨.literal, String.ofList cs⟩) := by
  constructor
  · rintro (h | h | _ | _ | ⟨hne, h⟩)
    · exact .inl ⟨_, rfl, if_pos h⟩
    · exact .inl ⟨_, rfl, ofChar?_of_mem_closers h⟩
    · exact .inl ⟨_, rfl, rfl⟩
    · exact .inl ⟨_, rfl, rfl⟩
    · exact .inr ⟨hne, fun c hc ↦ isLiteral_iff.2 (h c hc), rfl⟩
  · rintro (⟨c, rfl, h⟩ | ⟨hne, h, rfl⟩)
    · unfold ofChar? at h
      split_ifs at h with ho hc hd hq <;> obtain rfl := Option.some.inj h
      · exact .opening ho
      · exact .closing hc
      · exact hd ▸ .reverse
      · exact hq ▸ .quote
    · exact .literal hne fun c hc ↦ isLiteral_iff.1 (h c hc)

theorem Spells.exists_cons {cs : List Char} {t : Token} (h : Spells cs t) :
    ∃ c cs', cs = c :: cs' ∧ Text.isBlank c = false := by
  obtain ⟨c, rfl, hc⟩ | ⟨hne, hlit, -⟩ := spells_iff.1 h
  · exact ⟨c, [], rfl, not_isBlank_of_ofChar? hc⟩
  · obtain ⟨c, cs', rfl⟩ := List.exists_cons_of_ne_nil hne
    exact ⟨c, cs', rfl, (isLiteral_iff.1 (hlit c List.mem_cons_self)).1⟩

theorem Spells.scan_eq {cs : List Char} {t : Token} (h : Spells cs t) : scan cs = [t] := by
  obtain ⟨c, rfl, hc⟩ | ⟨hne, hlit, rfl⟩ := spells_iff.1 h
  · rw [scan_cons_of_ofChar? hc, scan_nil]
  · have htext : IsLiteralText (String.ofList cs) := by
      unfold IsLiteralText
      rw [String.toList_ofList]
      exact ⟨hne, hlit⟩
    rw [← scan_of_isLiteralText htext, String.toList_ofList]

/-- The spellings of a token differ at most in the families of brackets. -/
theorem Spells.length_eq {cs ds : List Char} {t : Token} (h : Spells cs t) (h' : Spells ds t) :
    cs.length = ds.length := by
  obtain ⟨c, rfl, hc⟩ | ⟨-, -, rfl⟩ := spells_iff.1 h <;>
    obtain ⟨d, rfl, hd⟩ | ⟨-, -, ht⟩ := spells_iff.1 h'
  · rfl
  · exact absurd (congrArg kind ht) (kind_ne_literal_of_ofChar? hc)
  · exact absurd rfl (kind_ne_literal_of_ofChar? hd)
  · rw [String.ofList_injective (congrArg text ht)]

/-! ## Divisions -/

/-- A token in a text, with the blanks before it. -/
@[ext]
structure Piece where
  gap : List Char
  chars : List Char
  token : Token
  gap_blank : ∀ c ∈ gap, Text.isBlank c = true
  spells : Spells chars token

namespace Piece

/-- The part of the text that a piece takes up. -/
def text (p : Piece) : List Char := p.gap ++ p.chars

/-- Two literals do not touch. -/
def Separated (p q : Piece) : Prop :=
  p.token.kind = .literal → q.token.kind = .literal → q.gap ≠ []

end Piece

/-- A row of tokens with blanks between them that makes up a text. -/
@[ext]
structure Division (cs : List Char) where
  pieces : List Piece
  tail : List Char
  tail_blank : ∀ c ∈ tail, Text.isBlank c = true
  separated : pieces.IsChain Piece.Separated
  text_eq : pieces.flatMap Piece.text ++ tail = cs

namespace Division

/-- The tokens of a division. -/
def tokens {cs : List Char} (d : Division cs) : List Token := d.pieces.map Piece.token

end Division

/-! ## Scanning finds the tokens of any division -/

theorem scan_append_of_isBlank {gap : List Char} (h : ∀ c ∈ gap, Text.isBlank c = true)
    (cs : List Char) : scan (gap ++ cs) = scan cs := by
  induction gap with
  | nil => rfl
  | cons c gap ih =>
    rw [List.cons_append, scan_cons_of_isBlank (h c List.mem_cons_self),
      ih fun d hd ↦ h d (List.mem_cons_of_mem c hd)]

/-- What follows blanks matters only if there are none. -/
theorem apart_append_of_isBlank {gap cs ds : List Char} (h : ∀ c ∈ gap, Text.isBlank c = true)
    (hnil : gap = [] → Apart cs ds) : Apart cs (gap ++ ds) := by
  cases gap with
  | nil => exact hnil rfl
  | cons c gap => exact apart_cons (isLiteral_of_isBlank (h c List.mem_cons_self)) cs _

/-- A literal does not go on into the next piece: that starts with a blank, or one of the two is a
token of one character. -/
theorem Piece.Separated.apart {p q : Piece} (h : p.Separated q) (ds : List Char) :
    Apart p.chars (q.text ++ ds) := by
  rw [Piece.text, List.append_assoc]
  refine apart_append_of_isBlank q.gap_blank fun hgap ↦ ?_
  obtain ⟨c, hp, hc⟩ | ⟨-, -, hp⟩ := spells_iff.1 p.spells
  · exact apart_of_getLast? (by rw [hp]; rfl) (isLiteral_of_ofChar? hc) _
  obtain ⟨d, hq, hd⟩ | ⟨-, -, hq⟩ := spells_iff.1 q.spells
  · rw [hq]
    exact apart_cons (isLiteral_of_ofChar? hd) _ _
  · exact absurd hgap (h (by rw [hp]) (by rw [hq]))

theorem apart_pieces {p : Piece} {ps : List Piece} {tail : List Char}
    (htail : ∀ c ∈ tail, Text.isBlank c = true) (h : ∀ q ∈ ps.head?, p.Separated q) :
    Apart p.chars (ps.flatMap Piece.text ++ tail) := by
  cases ps with
  | nil =>
    have := apart_append_of_isBlank htail fun _ ↦ apart_nil p.chars
    rwa [List.append_nil] at this
  | cons q ps =>
    rw [List.flatMap_cons, List.append_assoc]
    exact (h q rfl).apart _

theorem scan_pieces {ps : List Piece} {tail : List Char}
    (htail : ∀ c ∈ tail, Text.isBlank c = true) (hps : ps.IsChain Piece.Separated) :
    scan (ps.flatMap Piece.text ++ tail) = ps.map Piece.token := by
  induction ps with
  | nil =>
    have := scan_append_of_isBlank htail []
    rwa [List.append_nil, scan_nil] at this
  | cons p ps ih =>
    obtain ⟨hp, hps⟩ := List.isChain_cons.1 hps
    rw [List.flatMap_cons, Piece.text, List.append_assoc, List.append_assoc,
      scan_append_of_isBlank p.gap_blank, scan_append (apart_pieces htail hp), p.spells.scan_eq,
      ih hps]
    rfl

theorem Division.tokens_eq_scan {cs : List Char} (d : Division cs) : d.tokens = scan cs := by
  obtain ⟨ps, tail, htail, hps, rfl⟩ := d
  exact (scan_pieces htail hps).symm

/-! ## Every text has one division -/

/-- The blanks before a piece end where its characters begin. -/
theorem Piece.takeWhile_text_append (p : Piece) (ds : List Char) :
    (p.text ++ ds).takeWhile Text.isBlank = p.gap := by
  obtain ⟨c, cs, hcs, hc⟩ := p.spells.exists_cons
  rw [Piece.text, hcs, List.append_assoc, List.takeWhile_append_of_pos p.gap_blank]
  simp [hc]

/-- Where two rows of pieces make up one text, they start with the same piece: the two have the same
blanks before them, and the token tells how many characters follow. -/
theorem Piece.eq_of_text_append_eq {p q : Piece} {cs ds : List Char}
    (h : p.text ++ cs = q.text ++ ds) (ht : p.token = q.token) : p = q ∧ cs = ds := by
  have hgap : p.gap = q.gap := by
    rw [← p.takeWhile_text_append cs, h, q.takeWhile_text_append]
  have hlen : p.chars.length = q.chars.length := p.spells.length_eq (ht ▸ q.spells)
  rw [Piece.text, Piece.text, List.append_assoc, List.append_assoc, hgap,
    List.append_cancel_left_eq] at h
  obtain ⟨hchars, hrest⟩ := List.append_inj h hlen
  exact ⟨Piece.ext hgap hchars ht, hrest⟩

theorem pieces_unique {ps qs : List Piece} {cs ds : List Char}
    (h : ps.flatMap Piece.text ++ cs = qs.flatMap Piece.text ++ ds)
    (ht : ps.map Piece.token = qs.map Piece.token) : ps = qs ∧ cs = ds := by
  induction ps generalizing qs with
  | nil =>
    obtain rfl : qs = [] := List.map_eq_nil_iff.1 ht.symm
    exact ⟨rfl, h⟩
  | cons p ps ih =>
    cases qs with
    | nil => cases ht
    | cons q qs =>
      rw [List.map_cons, List.map_cons, List.cons.injEq] at ht
      rw [List.flatMap_cons, List.flatMap_cons, List.append_assoc, List.append_assoc] at h
      obtain ⟨rfl, hrest⟩ := Piece.eq_of_text_append_eq h ht.1
      obtain ⟨rfl, rfl⟩ := ih hrest ht.2
      exact ⟨rfl, rfl⟩

/-- A text divides in one way, since scanning fixes the tokens. -/
instance (cs : List Char) : Subsingleton (Division cs) := by
  refine ⟨fun d d' ↦ ?_⟩
  have ht : d.tokens = d'.tokens := by rw [d.tokens_eq_scan, d'.tokens_eq_scan]
  obtain ⟨hps, htail⟩ := pieces_unique (d.text_eq.trans d'.text_eq.symm) ht
  exact Division.ext hps htail

namespace Division

/-- A blank goes to the gap before the first token. -/
theorem nonempty_cons_of_isBlank {c : Char} {cs : List Char} (hc : Text.isBlank c = true)
    (d : Division cs) : Nonempty (Division (c :: cs)) := by
  obtain ⟨ps, tail, htail, hps, rfl⟩ := d
  cases ps with
  | nil => exact ⟨[], c :: tail, List.forall_mem_cons.2 ⟨hc, htail⟩, .nil, rfl⟩
  | cons p ps =>
    obtain ⟨hp, hps⟩ := List.isChain_cons.1 hps
    have hgap : ∀ d ∈ c :: p.gap, Text.isBlank d = true :=
      List.forall_mem_cons.2 ⟨hc, p.gap_blank⟩
    exact ⟨⟨c :: p.gap, p.chars, p.token, hgap, p.spells⟩ :: ps, tail, htail,
      List.isChain_cons.2 ⟨hp, hps⟩, rfl⟩

/-- A token goes before the others, unless it is a literal that would go on. -/
theorem nonempty_append {cs ds : List Char} {t : Token} (ht : Spells cs t)
    (hcs : t.kind = .literal → ∀ c ∈ ds.head?, isLiteral c = false) (d : Division ds) :
    Nonempty (Division (cs ++ ds)) := by
  obtain ⟨ps, tail, htail, hps, rfl⟩ := d
  have hp : ∀ q ∈ ps.head?, Piece.Separated ⟨[], cs, t, by simp, ht⟩ q := by
    intro q hq hlit hqlit hgap
    obtain ⟨ps', rfl⟩ := List.head?_eq_some_iff.1 hq
    obtain ⟨c, -, hc⟩ | ⟨hne, hall, -⟩ := spells_iff.1 q.spells
    · exact kind_ne_literal_of_ofChar? hc hqlit
    obtain ⟨c, cs', hchars⟩ := List.exists_cons_of_ne_nil hne
    have hstop := hcs hlit c (by simp [Piece.text, hgap, hchars])
    rw [hall c (by simp [hchars])] at hstop
    cases hstop
  exact ⟨⟨[], cs, t, by simp, ht⟩ :: ps, tail, htail, List.isChain_cons.2 ⟨hp, hps⟩, by
    rw [List.flatMap_cons, Piece.text, List.nil_append, List.append_assoc]⟩

theorem nonempty (cs : List Char) : Nonempty (Division cs) := by
  fun_induction scan cs with
  | case1 => exact ⟨[], [], by simp, .nil, rfl⟩
  | case2 c cs hc ih =>
    obtain ⟨d⟩ := ih
    exact d.nonempty_cons_of_isBlank hc
  | case3 c cs hc t ht ih =>
    obtain ⟨d⟩ := ih
    exact d.nonempty_append (spells_iff.2 (.inl ⟨c, rfl, ht⟩))
      fun hlit ↦ absurd hlit (kind_ne_literal_of_ofChar? ht)
  | case4 c cs hc ht ih =>
    obtain ⟨d⟩ := ih
    have hlit : ∀ d ∈ c :: cs.takeWhile isLiteral, isLiteral d = true := by
      refine List.forall_mem_cons.2 ⟨by simp [isLiteral, hc, ht], fun d hd ↦ ?_⟩
      exact List.mem_takeWhile_imp hd
    have hstop : ∀ d ∈ (cs.dropWhile isLiteral).head?, isLiteral d = false := by
      intro d hd
      have := List.head?_dropWhile_not isLiteral cs
      rwa [hd] at this
    have := d.nonempty_append (spells_iff.2 (.inr ⟨List.cons_ne_nil _ _, hlit, rfl⟩))
      fun _ ↦ hstop
    rwa [List.cons_append, List.takeWhile_append_dropWhile] at this

end Division

/-! ## Tokens written with blanks between them -/

/-- The texts of tokens, each after a gap. -/
def joined (ts : List (List Char × Token)) : List Char :=
  ts.flatMap fun p ↦ p.1 ++ p.2.text.toList

/-- A token that is written with its own text. -/
def IsSpelled (t : Token) : Prop := Spells t.text.toList t

theorem isSpelled_of_spells {cs : List Char} {t : Token} (h : Spells cs t) : t.IsSpelled := by
  obtain _ | _ | _ | _ | ⟨hne, h⟩ := h
  · exact .opening (c := '(') (by decide)
  · exact .closing (c := ')') (by decide)
  · exact .reverse
  · exact .quote
  · unfold IsSpelled
    rw [String.toList_ofList]
    exact .literal hne h

/-- Scanning makes no other tokens. -/
theorem isSpelled_of_mem_scan {cs : List Char} {t : Token} (h : t ∈ scan cs) : t.IsSpelled := by
  obtain ⟨d⟩ := Division.nonempty cs
  rw [← d.tokens_eq_scan] at h
  obtain ⟨p, -, rfl⟩ := List.mem_map.1 h
  exact isSpelled_of_spells p.spells

/-- A token may be written with its text if scanning the text gives it back. -/
theorem isSpelled_iff_scan_eq {t : Token} : t.IsSpelled ↔ scan t.text.toList = [t] := by
  refine ⟨Spells.scan_eq, fun h ↦ ?_⟩
  have ht : t ∈ scan t.text.toList := by simp [h]
  exact isSpelled_of_mem_scan ht

instance (t : Token) : Decidable t.IsSpelled := decidable_of_iff _ isSpelled_iff_scan_eq.symm

/-- Pieces whose gaps hold blanks are separated, whatever their tokens. -/
theorem isChain_separated {ps : List Piece} (h : ∀ p ∈ ps.tail, p.gap ≠ []) :
    ps.IsChain Piece.Separated := by
  cases ps with
  | nil => exact .nil
  | cons p ps =>
    refine List.Pairwise.isChain (List.pairwise_cons.2 ⟨fun q hq _ _ ↦ h q hq, ?_⟩)
    exact List.pairwise_of_forall_mem_list fun _ _ q hq _ _ ↦ h q hq

theorem exists_pieces_joined {ts : List (List Char × Token)}
    (hgap : ∀ p ∈ ts, ∀ c ∈ p.1, Text.isBlank c = true) (ht : ∀ p ∈ ts, p.2.IsSpelled) :
    ∃ ps : List Piece, ps.map (fun p ↦ (p.gap, p.token)) = ts ∧
      ps.flatMap Piece.text = joined ts := by
  induction ts with
  | nil => exact ⟨[], rfl, rfl⟩
  | cons p ts ih =>
    rw [List.forall_mem_cons] at hgap ht
    obtain ⟨ps, rfl, htext⟩ := ih hgap.2 ht.2
    exact ⟨⟨p.1, p.2.text.toList, p.2, hgap.1, ht.1⟩ :: ps, rfl, congrArg (_ ++ ·) htext⟩

/-- Tokens that are written with blanks between them are scanned back. -/
theorem scan_joined {ts : List (List Char × Token)} {tail : List Char}
    (hgap : ∀ p ∈ ts, ∀ c ∈ p.1, Text.isBlank c = true) (ht : ∀ p ∈ ts, p.2.IsSpelled)
    (hne : ∀ p ∈ ts.tail, p.1 ≠ []) (htail : ∀ c ∈ tail, Text.isBlank c = true) :
    scan (joined ts ++ tail) = ts.map Prod.snd := by
  obtain ⟨ps, rfl, htext⟩ := exists_pieces_joined hgap ht
  have hchain : ps.IsChain Piece.Separated := by
    refine isChain_separated fun p hp ↦ hne (p.gap, p.token) ?_
    rw [← List.map_tail]
    exact List.mem_map_of_mem hp
  rw [← htext, scan_pieces htail hchain, List.map_map]
  rfl

/-! ## Families of brackets -/

/-- Two characters that are the same, or brackets of two families. -/
def Alike (c d : Char) : Prop :=
  c = d ∨ (c ∈ openers ∧ d ∈ openers) ∨ (c ∈ closers ∧ d ∈ closers)

instance (c d : Char) : Decidable (Alike c d) := inferInstanceAs (Decidable (_ ∨ _))

/-- Makes every bracket a round one. -/
def roundChar (c : Char) : Char :=
  if c ∈ openers then '(' else if c ∈ closers then ')' else c

theorem Alike.roundChar_eq {c d : Char} (h : Alike c d) : roundChar c = roundChar d := by
  have hdisjoint : ∀ c ∈ closers, c ∉ openers := by simp [closers, openers]
  unfold roundChar
  obtain rfl | ⟨hc, hd⟩ | ⟨hc, hd⟩ := h
  · rfl
  · rw [if_pos hc, if_pos hd]
  · rw [if_neg (hdisjoint c hc), if_neg (hdisjoint d hd), if_pos hc, if_pos hd]

theorem map_roundChar_eq {cs ds : List Char} (h : List.Forall₂ Alike cs ds) :
    cs.map roundChar = ds.map roundChar := by
  induction h with
  | nil => rfl
  | cons hcd _ ih => rw [List.map_cons, List.map_cons, hcd.roundChar_eq, ih]

/-- What does not tell the families of brackets apart does not see that brackets become round. -/
theorem apply_roundChar {α : Type} {f : Char → α} (ho : f '[' = f '(' ∧ f '\x7b' = f '(')
    (hc : f ']' = f ')' ∧ f '\x7d' = f ')') (c : Char) : f (roundChar c) = f c := by
  unfold roundChar
  split_ifs with h h'
  · simp only [openers, List.mem_cons, List.not_mem_nil, or_false] at h
    rcases h with rfl | rfl | rfl
    · rfl
    · exact ho.1.symm
    · exact ho.2.symm
  · simp only [closers, List.mem_cons, List.not_mem_nil, or_false] at h'
    rcases h' with rfl | rfl | rfl
    · rfl
    · exact hc.1.symm
    · exact hc.2.symm
  · rfl

theorem ofChar?_roundChar (c : Char) : ofChar? (roundChar c) = ofChar? c :=
  apply_roundChar ⟨rfl, rfl⟩ ⟨rfl, rfl⟩ c

theorem isBlank_roundChar (c : Char) : Text.isBlank (roundChar c) = Text.isBlank c :=
  apply_roundChar ⟨rfl, rfl⟩ ⟨rfl, rfl⟩ c

theorem isLiteral_roundChar (c : Char) : isLiteral (roundChar c) = isLiteral c := by
  rw [isLiteral, isLiteral, isBlank_roundChar, ofChar?_roundChar]

theorem bracketWeight_roundChar (c : Char) : bracketWeight (roundChar c) = bracketWeight c :=
  apply_roundChar ⟨rfl, rfl⟩ ⟨rfl, rfl⟩ c

theorem roundChar_of_isLiteral {c : Char} (h : isLiteral c = true) : roundChar c = c := by
  obtain ⟨-, ho, hc, -, -⟩ := isLiteral_iff.1 h
  rw [roundChar, if_neg ho, if_neg hc]

theorem scan_map_roundChar (cs : List Char) : scan (cs.map roundChar) = scan cs := by
  have hpred : isLiteral ∘ roundChar = isLiteral := funext isLiteral_roundChar
  fun_induction scan cs with
  | case1 => exact scan_nil
  | case2 c cs hc ih =>
    rw [List.map_cons, scan_cons_of_isBlank (by rwa [isBlank_roundChar]), ih]
  | case3 c cs hc t ht ih =>
    rw [List.map_cons, scan_cons_of_ofChar? (by rwa [ofChar?_roundChar]), ih]
  | case4 c cs hc ht ih =>
    -- The characters of a literal are no brackets, so the literal stays and ends where it did.
    have hlit : isLiteral c = true := by simp [isLiteral, hc, ht]
    have hword : (cs.takeWhile isLiteral).map roundChar = cs.takeWhile isLiteral := by
      rw [List.map_congr_left fun d hd ↦ roundChar_of_isLiteral (List.mem_takeWhile_imp hd),
        List.map_id']
    rw [List.map_cons, roundChar_of_isLiteral hlit, scan_cons_of_isLiteral hlit,
      List.takeWhile_map, List.dropWhile_map, hpred, hword, ih]

theorem bracketDepth_map_roundChar (cs : List Char) :
    bracketDepth (cs.map roundChar) = bracketDepth cs := by
  induction cs with
  | nil => rfl
  | cons c cs ih => rw [List.map_cons, bracketDepth, bracketDepth, bracketWeight_roundChar, ih]

/-- Texts that differ in the families of their brackets have the same tokens. -/
theorem tokenize_eq_of_alike {s s' : String} (h : List.Forall₂ Alike s.toList s'.toList) :
    tokenize s' = tokenize s := by
  rw [tokenize, tokenize, ← scan_map_roundChar s'.toList, ← map_roundChar_eq h,
    scan_map_roundChar]

theorem isBalanced_eq_of_alike {cs ds : List Char} (h : List.Forall₂ Alike cs ds) :
    isBalanced ds = isBalanced cs := by
  rw [isBalanced, isBalanced, ← bracketDepth_map_roundChar ds, ← map_roundChar_eq h,
    bracketDepth_map_roundChar]

end Token

open Token

theorem read_eq_of_alike {s s' : String} (h : List.Forall₂ Alike s.toList s'.toList) :
    read s' = read s := by
  rw [read, read, tokenize_eq_of_alike h]

theorem Session.evalAll_eq_of_alike {s s' : String} (h : List.Forall₂ Alike s.toList s'.toList)
    (σ : Session) : σ.evalAll s' = σ.evalAll s := by
  rw [evalAll, evalAll, Machine.evaluateText, Machine.evaluateText, isBalanced_eq_of_alike h,
    read_eq_of_alike h]

/-! ## The division of a text -/

/-- **A text has one division.** It divides into tokens and blanks in exactly one way, and its
tokens are those of the division. Tokens that are written one after another, with blanks between
them, are the tokens of the text that they make. And texts that differ only in the families of their
brackets have the same tokens, expressions and values. -/
theorem tokenize_finds_unique_division (s : String) :
    (∃ d : Division s.toList, d.tokens = tokenize s ∧ ∀ d' : Division s.toList, d' = d) ∧
      (∀ t ∈ tokenize s, t.IsSpelled) ∧
      (∀ (ts : List (List Char × Token)) (tail : List Char),
        (∀ p ∈ ts, (∀ c ∈ p.1, Text.isBlank c = true) ∧ p.2.IsSpelled) →
        (∀ p ∈ ts.tail, p.1 ≠ []) → (∀ c ∈ tail, Text.isBlank c = true) →
        tokenize (String.ofList (joined ts ++ tail)) = ts.map Prod.snd) ∧
      ∀ s' : String, List.Forall₂ Alike s.toList s'.toList →
        tokenize s' = tokenize s ∧ read s' = read s ∧
          ∀ σ : Session, σ.evalAll s' = σ.evalAll s := by
  refine ⟨?_, fun t ↦ isSpelled_of_mem_scan, ?_, ?_⟩
  · obtain ⟨d⟩ := Division.nonempty s.toList
    exact ⟨d, d.tokens_eq_scan, fun d' ↦ Subsingleton.elim d' d⟩
  · intro ts tail hts hne htail
    rw [tokenize, String.toList_ofList]
    exact scan_joined (fun p hp ↦ (hts p hp).1) (fun p hp ↦ (hts p hp).2) hne htail
  · intro s' h
    exact ⟨tokenize_eq_of_alike h, read_eq_of_alike h, fun σ ↦ σ.evalAll_eq_of_alike h⟩

/-- No bracket of the second program has the family that it has in the first. -/
theorem tokenize_finds_unique_division_quoted :
    List.Forall₂ Alike "(f '$[x y])".toList "[f '$\x7bx y)\x7d".toList ∧
      (∃ d : Division "(f '$[x y])".toList, d.tokens.length = 9) ∧
      read "[f '$\x7bx y)\x7d" = read "(f '$[x y])" ∧
      tokenize (String.ofList (joined [([], ⟨.quote, "'"⟩), ([' ', '\n'], ⟨.literal, "x"⟩)] ++
        ['\t'])) = [⟨.quote, "'"⟩, ⟨.literal, "x"⟩] := by
  have halike : List.Forall₂ Alike "(f '$[x y])".toList "[f '$\x7bx y)\x7d".toList := by decide
  obtain ⟨⟨d, hd, -⟩, -, hjoined, hbrackets⟩ := tokenize_finds_unique_division "(f '$[x y])"
  refine ⟨halike, ⟨d, ?_⟩, (hbrackets _ halike).2.1, hjoined _ _ ?_ ?_ ?_⟩
  · rw [hd]
    decide +kernel
  · simp only [List.forall_mem_cons]
    exact ⟨⟨by simp, .quote⟩, ⟨⟨rfl, rfl, by simp⟩, by decide +kernel⟩, by simp⟩
  · simp
  · simp [Text.isBlank]

end ReverseLisp
