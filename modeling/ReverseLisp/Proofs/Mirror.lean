import Mathlib.Algebra.Group.Nat.Even
import ReverseLisp.Proofs.Analysis
import ReverseLisp.Proofs.Readable

/-!
# Mirror images

The reversal marker turns round every list of the expression after it, once that expression has been
read. It could as well have turned round the tokens before they were read: the *mirror image* of
tokens has them from right to left, with opening and closing brackets exchanged, and it reads as
what the tokens read as, turned round at every depth.

## The argument

Brackets are matched from left to right, and a mirror image has them matched from right to left. On
derivations there is no such difference: the mirror image of a derivation is a derivation, with the
items of every list in the opposite order, and its frontier is the mirror image of the frontier.
Without quotation markers its value is the value turned round.

Turning round twice changes nothing, neither for tokens nor for expressions. So the equivalence
needs one direction only, and of several reversal markers one behind the other only the parity of
their number matters.
-/

namespace ReverseLisp

/-! ## Tokens -/

namespace Token

/-- The text of a bracket that faces the other way. -/
def turnedText (text : String) : String :=
  if text = "(" then ")" else if text = ")" then "(" else text

/-- The token as it is seen in a mirror: a bracket faces the other way. -/
def turned : Token → Token
  | ⟨.opening, text⟩ => ⟨.closing, turnedText text⟩
  | ⟨.closing, text⟩ => ⟨.opening, turnedText text⟩
  | t => t

/-- The tokens from right to left, with opening and closing brackets exchanged. -/
def mirror (ts : List Token) : List Token := (ts.map turned).reverse

theorem turnedText_turnedText (text : String) : turnedText (turnedText text) = text := by
  by_cases ho : text = "("
  · simp [turnedText, ho]
  · by_cases hc : text = ")"
    · simp [turnedText, hc]
    · simp [turnedText, ho, hc]

theorem turned_turned (t : Token) : t.turned.turned = t := by
  obtain ⟨kind, text⟩ := t
  cases kind with
  | opening => simp [turned, turnedText_turnedText]
  | closing => simp [turned, turnedText_turnedText]
  | _ => rfl

theorem isMarker_turned (t : Token) : t.turned.IsMarker ↔ t.IsMarker := by
  obtain ⟨kind, text⟩ := t
  cases kind <;> simp [turned, IsMarker]

theorem mirror_append (ts us : List Token) : mirror (ts ++ us) = mirror us ++ mirror ts := by
  rw [mirror, List.map_append, List.reverse_append, mirror, mirror]

theorem mirror_cons (t : Token) (ts : List Token) : mirror (t :: ts) = mirror ts ++ [t.turned] := by
  rw [mirror, List.map_cons, List.reverse_cons, mirror]

/-- A mirror shows a mirror image as it was. -/
theorem mirror_mirror (ts : List Token) : mirror (mirror ts) = ts := by
  have hturned : turned ∘ turned = id := funext turned_turned
  rw [mirror, mirror, List.map_reverse, List.reverse_reverse, List.map_map, hturned, List.map_id]

theorem not_isMarker_of_mem_mirror {ts : List Token} (h : ∀ t ∈ ts, ¬ t.IsMarker) :
    ∀ t ∈ mirror ts, ¬ t.IsMarker := by
  intro t ht
  obtain ⟨u, hu, rfl⟩ := List.mem_map.1 (List.mem_reverse.1 ht)
  rw [isMarker_turned]
  exact h u hu

end Token

/-! ## Expressions -/

namespace Value

theorem deepReverse_list (vs : List Value) :
    (list vs).deepReverse = list (vs.map deepReverse).reverse := by
  rw [deepReverse, deepReverseEach_eq_map]

/-- Turning round twice changes nothing, at any depth. -/
theorem deepReverse_deepReverse (v : Value) : v.deepReverse.deepReverse = v := by
  induction v using induction_items with
  | step v ih =>
    cases v with
    | list vs =>
      have hitems : vs.map (deepReverse ∘ deepReverse) = vs :=
        (List.map_congr_left ih).trans (List.map_id vs)
      rw [deepReverse_list, deepReverse_list, List.map_reverse, List.reverse_reverse,
        List.map_map, hitems]
    | _ => rfl

end Value

theorem deepReverse_atom (text : String) : (atom text).deepReverse = atom text := by
  unfold atom
  split
  · rfl
  · split <;> rfl

/-! ## Derivations -/

namespace Derivation

mutual

/-- The derivation with the items of every list in the opposite order. -/
def mirror : Derivation → Derivation
  | literal text => literal text
  | reversal marker d => reversal marker d.mirror
  | quotation marker d => quotation marker d.mirror
  | list opener items closer =>
    list (Token.turnedText closer) (mirrorAll items) (Token.turnedText opener)

/-- The mirror images of derivations, the last one first. -/
def mirrorAll : List Derivation → List Derivation
  | [] => []
  | d :: ds => mirrorAll ds ++ [d.mirror]

end

mutual

/-- The frontier of the mirror image is the mirror image of the frontier. -/
theorem tokens_mirror (d : Derivation) (h : ∀ t ∈ d.tokens, ¬ t.IsMarker) :
    d.mirror.tokens = Token.mirror d.tokens := by
  cases d with
  | literal text => rfl
  | reversal marker d => exact absurd (.inl rfl) (h _ List.mem_cons_self)
  | quotation marker d => exact absurd (.inr rfl) (h _ List.mem_cons_self)
  | list opener items closer =>
    have hitems := tokensAll_mirrorAll items fun t ht ↦
      h t (List.mem_cons_of_mem _ (List.mem_append_left _ ht))
    rw [mirror, tokens, tokens, hitems, Token.mirror_cons, Token.mirror_append]
    rfl

theorem tokensAll_mirrorAll (ds : List Derivation) (h : ∀ t ∈ tokensAll ds, ¬ t.IsMarker) :
    tokensAll (mirrorAll ds) = Token.mirror (tokensAll ds) := by
  cases ds with
  | nil => rfl
  | cons d ds =>
    rw [tokensAll, List.forall_mem_append] at h
    rw [mirrorAll, tokensAll_append, tokensAll_mirrorAll ds h.2, tokensAll, tokensAll,
      List.append_nil, tokens_mirror d h.1, tokensAll, Token.mirror_append]

end

mutual

/-- The value of the mirror image is the value turned round. A quotation would keep its word in
front, so there may be none. -/
theorem value_mirror (d : Derivation) (h : ∀ t ∈ d.tokens, ¬ t.IsMarker) :
    d.mirror.value = d.value.deepReverse := by
  cases d with
  | literal text => exact (deepReverse_atom text).symm
  | reversal marker d => exact absurd (.inl rfl) (h _ List.mem_cons_self)
  | quotation marker d => exact absurd (.inr rfl) (h _ List.mem_cons_self)
  | list opener items closer =>
    have hitems := values_mirrorAll items fun t ht ↦
      h t (List.mem_cons_of_mem _ (List.mem_append_left _ ht))
    rw [mirror, value, value, hitems, Value.deepReverse_list]

theorem values_mirrorAll (ds : List Derivation) (h : ∀ t ∈ tokensAll ds, ¬ t.IsMarker) :
    values (mirrorAll ds) = ((values ds).map Value.deepReverse).reverse := by
  cases ds with
  | nil => rfl
  | cons d ds =>
    rw [tokensAll, List.forall_mem_append] at h
    rw [mirrorAll, values_append, values_mirrorAll ds h.2, values, values, values,
      value_mirror d h.1, List.map_cons, List.reverse_cons]

end

end Derivation

/-! ## Reading mirror images -/

open ReverseLisp.Derivation

/-- What reads, reads in a mirror, turned round. -/
theorem readAll_mirror {ts : List Token} (hts : ∀ t ∈ ts, ¬ t.IsMarker) {vs : List Value}
    (h : (readAll ts).1 = .ok vs) :
    (readAll (Token.mirror ts)).1 = .ok (vs.map Value.deepReverse).reverse := by
  obtain ⟨ds, rfl, rfl⟩ := exists_of_readAll h
  rw [← tokensAll_mirrorAll ds hts, readAll_tokensAll, values_mirrorAll ds hts]

theorem readAll_mirror_eq_ok_iff {ts : List Token} (hts : ∀ t ∈ ts, ¬ t.IsMarker)
    {ws : List Value} :
    (readAll (Token.mirror ts)).1 = .ok ws ↔
      ∃ vs, (readAll ts).1 = .ok vs ∧ Value.list ws = (Value.list vs).deepReverse := by
  constructor
  · intro h
    have hback := readAll_mirror (Token.not_isMarker_of_mem_mirror hts) h
    rw [Token.mirror_mirror] at hback
    refine ⟨_, hback, ?_⟩
    rw [← Value.deepReverse_list, Value.deepReverse_deepReverse]
  · rintro ⟨vs, hvs, h⟩
    rw [Value.deepReverse_list, Value.list.injEq] at h
    rw [readAll_mirror hts hvs, h]

/-! ## Reversal markers -/

/-- A reversal marker turns round the first expression and no other. -/
theorem readAll_reversal {ts : List Token} {v : Value} {vs : List Value}
    (h : (readAll ts).1 = .ok (v :: vs)) (marker : String) :
    (readAll (⟨.reverse, marker⟩ :: ts)).1 = .ok (v.deepReverse :: vs) := by
  obtain ⟨ds, rfl, hds⟩ := exists_of_readAll h
  match ds with
  | d :: ds =>
    rw [values, List.cons.injEq] at hds
    have htokens : ⟨.reverse, marker⟩ :: tokensAll (d :: ds) =
        tokensAll (reversal marker d :: ds) := rfl
    rw [htokens, readAll_tokensAll, values, value, hds.1, hds.2]

/-- Of a run of reversal markers only the parity counts. -/
theorem readAll_reversals {ts markers : List Token} (hmarkers : ∀ t ∈ markers, t.kind = .reverse)
    {v : Value} {vs : List Value} (h : (readAll ts).1 = .ok (v :: vs)) :
    (readAll (markers ++ ts)).1 =
      .ok ((if Even markers.length then v else v.deepReverse) :: vs) := by
  induction markers with
  | nil => exact h
  | cons t markers ih =>
    obtain ⟨kind, marker⟩ := t
    have ⟨hkind, hrest⟩ := List.forall_mem_cons.1 hmarkers
    obtain rfl : kind = .reverse := hkind
    rw [List.cons_append, readAll_reversal (ih hrest), List.length_cons]
    by_cases heven : Even markers.length
    · rw [if_pos heven, if_neg (by rwa [Nat.even_add_one, not_not])]
    · rw [if_neg heven, if_pos (by rwa [Nat.even_add_one]), Value.deepReverse_deepReverse]

/-- **Reversal of an expression is reversal of its tokens.** Let there be no markers among the
tokens. Their mirror image can be read exactly if they can be read, and reads as what they read as,
turned round at every depth. So if they read as one expression, a reversal marker before them reads
as their mirror image does without one.

Before any expression, with markers in it or without, an even number of reversal markers has no
effect, and an odd number has that of one. -/
theorem reversal_reads_mirror_image (ts : List Token) :
    ((∀ t ∈ ts, ¬ t.IsMarker) →
      (∀ ws, (Cursor.ofTokens (Token.mirror ts)).readAll.1 = .ok ws ↔
        ∃ vs, (Cursor.ofTokens ts).readAll.1 = .ok vs ∧
          Value.list ws = (Value.list vs).deepReverse) ∧
      ∀ v marker, (Cursor.ofTokens ts).readAll.1 = .ok [v] →
        (Cursor.ofTokens (⟨.reverse, marker⟩ :: ts)).readAll.1 =
          (Cursor.ofTokens (Token.mirror ts)).readAll.1) ∧
    ∀ v vs (markers : List Token), (Cursor.ofTokens ts).readAll.1 = .ok (v :: vs) →
      (∀ t ∈ markers, t.kind = .reverse) →
        (Cursor.ofTokens (markers ++ ts)).readAll.1 =
          .ok ((if Even markers.length then v else v.deepReverse) :: vs) := by
  simp only [Cursor.readAll_ofTokens]
  refine ⟨fun hts ↦ ⟨fun ws ↦ readAll_mirror_eq_ok_iff hts, ?_⟩, ?_⟩
  · intro v marker h
    rw [readAll_reversal h, readAll_mirror hts h, List.map_singleton, List.reverse_singleton]
  · exact fun v vs markers h hmarkers ↦ readAll_reversals hmarkers h

/-- A call with a call in it. Written with a reversal marker it is what its mirror image says, and
with three markers as well. -/
theorem reversal_reads_mirror_image_call :
    let ts := Token.tokenize "((1 2 f) [3 g] h)"
    let v := Value.list [.symbol ⟨"h"⟩, .list [.symbol ⟨"g"⟩, .int 3],
      .list [.symbol ⟨"f"⟩, .int 2, .int 1]]
    Token.mirror ts = Token.tokenize "(h (g 3) (f 2 1))" ∧
      (Cursor.ofTokens (Token.mirror ts)).readAll.1 = .ok [v] ∧
      (Cursor.ofTokens (⟨.reverse, "$"⟩ :: ts)).readAll.1 = .ok [v] ∧
      (Cursor.ofTokens (Token.tokenize "$ $$" ++ ts)).readAll.1 = .ok [v] := by
  intro ts v
  obtain ⟨hmirror, hrun⟩ := reversal_reads_mirror_image ts
  have hts : ∀ t ∈ ts, ¬ t.IsMarker := by
    unfold Token.IsMarker
    decide +kernel
  have hread : (Cursor.ofTokens ts).readAll.1 = .ok [v.deepReverse] := by decide +kernel
  have himage : (Cursor.ofTokens (Token.mirror ts)).readAll.1 = .ok [v] :=
    ((hmirror hts).1 [v]).2 ⟨_, hread, by decide +kernel⟩
  refine ⟨by decide +kernel, himage, ((hmirror hts).2 _ "$" hread).trans himage, ?_⟩
  have hthree : ¬ Even (Token.tokenize "$ $$").length := by decide +kernel
  rw [hrun _ [] (Token.tokenize "$ $$") hread (by decide +kernel), if_neg hthree,
    Value.deepReverse_deepReverse]

end ReverseLisp
