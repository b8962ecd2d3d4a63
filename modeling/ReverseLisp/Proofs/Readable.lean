import ReverseLisp.Proofs.Grammar
import ReverseLisp.Session

/-!
# Readable texts

Whether a text can be read is a matter of its brackets and its markers alone, and can be told
without recursion: no part of the text from its start closes more lists than it opens, the whole
text closes every list, and every marker has a token behind it that is no closing bracket.

Brackets are counted twice, once in the characters of a text, before anything else looks at it, and
once in its tokens, by the reader. Both counts go through the same values (`neverNegative_scan`), so
the first count never turns away a text that could be read.

The condition holds of every frontier, since a count passes over a derivation unchanged. Conversely
it cuts down to the tokens inside the first pair of brackets and to those behind it, so that it
yields a derivation by induction on the number of tokens.
-/

namespace ReverseLisp

/-! ## Counts that never become negative -/

section Count

variable {α : Type}

/-- A count that starts at `d` and adds the weights of items one after another is never negative. -/
def NeverNegative (weight : α → Int) (d : Int) : List α → Prop
  | [] => 0 ≤ d
  | a :: l => 0 ≤ d ∧ NeverNegative weight (d + weight a) l

namespace NeverNegative

variable {weight : α → Int} {d : Int} {l : List α}

theorem nonneg (h : NeverNegative weight d l) : 0 ≤ d := by
  cases l with
  | nil => exact h
  | cons a l => exact h.1

/-- Items without weight make no difference. -/
theorem cons_iff_of_eq_zero {a : α} (ha : weight a = 0) :
    NeverNegative weight d (a :: l) ↔ NeverNegative weight d l := by
  rw [NeverNegative, ha, Int.add_zero]
  exact ⟨And.right, fun h ↦ ⟨h.nonneg, h⟩⟩

end NeverNegative

end Count

theorem forall_prefix_bracketDepth_iff (d : Int) (cs : List Char) :
    (∀ p, p <+: cs → 0 ≤ d + bracketDepth p) ↔ NeverNegative bracketWeight d cs := by
  induction cs generalizing d with
  | nil => simp [NeverNegative, bracketDepth]
  | cons c cs ih =>
    rw [NeverNegative, ← ih]
    constructor
    · intro h
      refine ⟨by simpa [bracketDepth] using h [] List.nil_prefix, ?_⟩
      intro p hp
      have := h (c :: p) (List.cons_prefix_cons.2 ⟨rfl, hp⟩)
      rwa [bracketDepth, ← Int.add_assoc] at this
    · rintro ⟨hd, h⟩ p hp
      rcases List.prefix_cons_iff.1 hp with rfl | ⟨q, rfl, hq⟩
      · simpa [bracketDepth] using hd
      · rw [bracketDepth, ← Int.add_assoc]
        exact h q hq

/-! ## Brackets of tokens -/

namespace Token

/-- What a token adds to the depth of brackets. -/
def weight (t : Token) : Int :=
  match t.kind with
  | .opening => 1
  | .closing => -1
  | _ => 0

/-- Opening minus closing tokens. -/
def depth : List Token → Int
  | [] => 0
  | t :: ts => t.weight + depth ts

theorem depth_append (ts us : List Token) : depth (ts ++ us) = depth ts + depth us := by
  induction ts with
  | nil => simp [depth]
  | cons t ts ih => rw [List.cons_append, depth, depth, ih, Int.add_assoc]

theorem depth_eq_countP (ts : List Token) :
    depth ts = (ts.countP (·.kind = .opening) : Int) - ts.countP (·.kind = .closing) := by
  induction ts with
  | nil => rfl
  | cons t ts ih =>
    obtain ⟨kind, text⟩ := t
    rw [depth, ih]
    cases kind <;> simp [weight] <;> omega

/-! ## Characters and tokens -/

/-- Only a character that is a token by itself can be a bracket. -/
theorem bracketWeight_of_ofChar?_eq_none {c : Char} (h : ofChar? c = none) :
    bracketWeight c = 0 := by
  unfold ofChar? at h
  unfold bracketWeight
  split at h
  · simp at h
  · next ho =>
    split at h
    · simp at h
    · next hc => rw [if_neg ho, if_neg hc]

theorem weight_of_ofChar? {c : Char} {t : Token} (h : ofChar? c = some t) :
    t.weight = bracketWeight c := by
  unfold ofChar? at h
  unfold bracketWeight
  split at h
  · next ho =>
    cases h
    rw [if_pos ho]
    rfl
  · next ho =>
    split at h
    · next hc =>
      cases h
      rw [if_neg ho, if_pos hc]
      rfl
    · next hc =>
      rw [if_neg ho, if_neg hc]
      split at h
      · cases h
        rfl
      · split at h
        · cases h
          rfl
        · simp at h

theorem bracketWeight_of_isLiteral {c : Char} (h : isLiteral c = true) : bracketWeight c = 0 := by
  simp only [isLiteral, Bool.and_eq_true, Option.isNone_iff_eq_none] at h
  exact bracketWeight_of_ofChar?_eq_none h.2

theorem bracketWeight_of_isBlank {c : Char} (h : Text.isBlank c = true) : bracketWeight c = 0 := by
  refine bracketWeight_of_ofChar?_eq_none ?_
  cases ht : ofChar? c with
  | none => rfl
  | some t =>
    rw [not_isBlank_of_ofChar? ht] at h
    cases h

/-- The rest of a literal holds no bracket. -/
theorem bracketDepth_dropWhile (cs : List Char) :
    bracketDepth (cs.dropWhile isLiteral) = bracketDepth cs := by
  induction cs with
  | nil => rfl
  | cons c cs ih =>
    rw [List.dropWhile_cons]
    split
    · next hc => rw [ih, bracketDepth, bracketWeight_of_isLiteral hc, Int.zero_add]
    · rfl

theorem neverNegative_dropWhile (d : Int) (cs : List Char) :
    NeverNegative bracketWeight d (cs.dropWhile isLiteral) ↔ NeverNegative bracketWeight d cs := by
  induction cs with
  | nil => rfl
  | cons c cs ih =>
    rw [List.dropWhile_cons]
    split
    · next hc =>
      rw [ih, NeverNegative.cons_iff_of_eq_zero (bracketWeight_of_isLiteral hc)]
    · rfl

/-- Characters and tokens have the same depth of brackets. -/
theorem depth_scan (cs : List Char) : depth (scan cs) = bracketDepth cs := by
  fun_induction scan cs with
  | case1 => rfl
  | case2 c cs hc ih => rw [ih, bracketDepth, bracketWeight_of_isBlank hc, Int.zero_add]
  | case3 c cs hc t ht ih => rw [depth, ih, bracketDepth, weight_of_ofChar? ht]
  | case4 c cs hc ht ih =>
    rw [depth, ih, bracketDepth_dropWhile, bracketDepth, bracketWeight_of_ofChar?_eq_none ht]
    rfl

/-- The depth of brackets goes through the same values in characters and in tokens. -/
theorem neverNegative_scan (d : Int) (cs : List Char) :
    NeverNegative weight d (scan cs) ↔ NeverNegative bracketWeight d cs := by
  fun_induction scan cs generalizing d with
  | case1 => rfl
  | case2 c cs hc ih =>
    rw [ih, NeverNegative.cons_iff_of_eq_zero (bracketWeight_of_isBlank hc)]
  | case3 c cs hc t ht ih => rw [NeverNegative, NeverNegative, ih, weight_of_ofChar? ht]
  | case4 c cs hc ht ih =>
    rw [NeverNegative.cons_iff_of_eq_zero (bracketWeight_of_ofChar?_eq_none ht),
      NeverNegative.cons_iff_of_eq_zero (show weight ⟨.literal, _⟩ = 0 from rfl), ih,
      neverNegative_dropWhile]

/-- A text has tokens of the known kinds only. -/
theorem kind_mem_known_of_mem_scan {cs : List Char} {t : Token} (h : t ∈ scan cs) :
    t.kind ∈ Kind.known := by
  fun_induction scan cs with
  | case1 => simp at h
  | case2 c cs hc ih => exact ih h
  | case3 c cs hc u hu ih =>
    rcases List.mem_cons.1 h with rfl | h
    · unfold ofChar? at hu
      split at hu
      · cases hu; decide
      split at hu
      · cases hu; decide
      split at hu
      · cases hu; decide
      split at hu
      · cases hu; decide
      · simp at hu
    · exact ih h
  | case4 c cs hc hu ih =>
    rcases List.mem_cons.1 h with rfl | h
    · simp [Kind.known]
    · exact ih h

/-! ## Markers -/

/-- Whether a token is a marker. -/
def IsMarker (t : Token) : Prop := t.kind = .reverse ∨ t.kind = .quote

instance (t : Token) : Decidable t.IsMarker := inferInstanceAs (Decidable (_ ∨ _))

/-- Every marker has a token behind it that is no closing bracket. -/
def MarkersLead (ts : List Token) : Prop :=
  ∀ i t, ts[i]? = some t → t.IsMarker → ∃ u, ts[i + 1]? = some u ∧ u.kind ≠ .closing

theorem markersLead_nil : MarkersLead [] := by
  intro i t h
  simp at h

theorem markersLead_cons_iff {t : Token} {ts : List Token} :
    MarkersLead (t :: ts) ↔
      (t.IsMarker → ∃ u ∈ ts.head?, u.kind ≠ .closing) ∧ MarkersLead ts := by
  constructor
  · intro h
    refine ⟨fun ht ↦ ?_, fun i u hu ↦ h (i + 1) u hu⟩
    obtain ⟨u, hu, hk⟩ := h 0 t rfl ht
    exact ⟨u, by rwa [List.head?_eq_getElem?], hk⟩
  · rintro ⟨ht, h⟩ i u hu hm
    cases i with
    | zero =>
      cases hu
      obtain ⟨u, hu, hk⟩ := ht hm
      exact ⟨u, by rwa [List.head?_eq_getElem?] at hu, hk⟩
    | succ i => exact h i u hu hm

theorem markersLead_cons_iff_of_not {t : Token} (ht : ¬ t.IsMarker) {ts : List Token} :
    MarkersLead (t :: ts) ↔ MarkersLead ts := by
  rw [markersLead_cons_iff]
  exact ⟨And.right, fun h ↦ ⟨fun hm ↦ absurd hm ht, h⟩⟩

theorem MarkersLead.of_append_right {ts us : List Token} (h : MarkersLead (ts ++ us)) :
    MarkersLead us := by
  induction ts with
  | nil => exact h
  | cons t ts ih => exact ih (markersLead_cons_iff.1 h).2

/-- A closing bracket cuts off no marker from the token behind it. -/
theorem MarkersLead.of_append_closing {ts us : List Token} {text : String}
    (h : MarkersLead (ts ++ ⟨.closing, text⟩ :: us)) : MarkersLead ts := by
  induction ts with
  | nil => exact markersLead_nil
  | cons t ts ih =>
    obtain ⟨ht, h⟩ := markersLead_cons_iff.1 h
    refine markersLead_cons_iff.2 ⟨fun hm ↦ ?_, ih h⟩
    obtain ⟨u, hu, hk⟩ := ht hm
    cases ts with
    | nil =>
      cases hu
      exact absurd rfl hk
    | cons t' ts => exact ⟨u, hu, hk⟩

/-! ## The first unmatched closing bracket -/

/-- Tokens whose depth ends below `-k` have a closing bracket that is the first to go there. -/
theorem exists_closing {k : Nat} {ts : List Token} (h : depth ts < -(k : Int)) :
    ∃ inner text rest, ts = inner ++ ⟨.closing, text⟩ :: rest ∧
      NeverNegative weight k inner ∧ depth inner = -(k : Int) := by
  induction ts generalizing k with
  | nil =>
    rw [depth] at h
    omega
  | cons t ts ih =>
    obtain ⟨kind, text⟩ := t
    rw [depth] at h
    -- any token but the bracket itself is passed over, with the depth that it leaves
    have pass : ∀ j : Nat, (j : Int) = k + weight ⟨kind, text⟩ → ∃ inner text' rest,
        (⟨kind, text⟩ :: ts : List Token) = inner ++ ⟨.closing, text'⟩ :: rest ∧
          NeverNegative weight k inner ∧ depth inner = -(k : Int) := by
      intro j hj
      obtain ⟨inner, text', rest, rfl, hn, hd⟩ := ih (k := j) (by omega)
      refine ⟨⟨kind, text⟩ :: inner, text', rest, rfl, ⟨Int.natCast_nonneg k, hj ▸ hn⟩, ?_⟩
      rw [depth]
      omega
    cases kind with
    | opening => exact pass (k + 1) rfl
    | closing =>
      cases k with
      | zero => exact ⟨[], text, ts, rfl, Int.le_refl 0, rfl⟩
      | succ k => exact pass k (Int.add_neg_cancel_right k 1).symm
    | _ => exact pass k (Int.add_zero _).symm

end Token

namespace Derivation

open Token

/-! ## Every frontier is readable -/

theorem head_tokens_ne_closing (d : Derivation) (ts : List Token) :
    ∃ u ∈ (d.tokens ++ ts).head?, u.kind ≠ .closing := by
  cases d <;> simp [tokens]

mutual

theorem neverNegative_tokens (k : Int) (d : Derivation) (ts : List Token) :
    NeverNegative weight k (d.tokens ++ ts) ↔ NeverNegative weight k ts := by
  cases d with
  | literal text => exact NeverNegative.cons_iff_of_eq_zero rfl
  | reversal marker d =>
    have hw : weight ⟨.reverse, marker⟩ = 0 := rfl
    rw [tokens, List.cons_append, NeverNegative.cons_iff_of_eq_zero hw, neverNegative_tokens k d]
  | quotation marker d =>
    have hw : weight ⟨.quote, marker⟩ = 0 := rfl
    rw [tokens, List.cons_append, NeverNegative.cons_iff_of_eq_zero hw, neverNegative_tokens k d]
  | list opener items closer =>
    rw [tokens, List.cons_append, List.append_assoc, NeverNegative,
      neverNegative_tokensAll _ items, List.singleton_append, NeverNegative]
    have hk : k + weight ⟨.opening, opener⟩ + weight ⟨.closing, closer⟩ = k :=
      Int.add_neg_cancel_right k 1
    rw [hk]
    refine ⟨fun h ↦ h.2.2, fun h ↦ ⟨h.nonneg, ?_, h⟩⟩
    exact Int.add_nonneg h.nonneg Int.one_nonneg

theorem neverNegative_tokensAll (k : Int) (ds : List Derivation) (ts : List Token) :
    NeverNegative weight k (tokensAll ds ++ ts) ↔ NeverNegative weight k ts := by
  cases ds with
  | nil => rfl
  | cons d ds =>
    rw [tokensAll, List.append_assoc, neverNegative_tokens k d, neverNegative_tokensAll k ds]

end

mutual

theorem depth_tokens (d : Derivation) : depth d.tokens = 0 := by
  cases d with
  | literal text => rfl
  | reversal marker d =>
    rw [tokens, depth, depth_tokens d]
    rfl
  | quotation marker d =>
    rw [tokens, depth, depth_tokens d]
    rfl
  | list opener items closer =>
    rw [tokens, depth, depth_append, depth_tokensAll items]
    rfl

theorem depth_tokensAll (ds : List Derivation) : depth (tokensAll ds) = 0 := by
  cases ds with
  | nil => rfl
  | cons d ds => rw [tokensAll, depth_append, depth_tokens d, depth_tokensAll ds, Int.add_zero]

end

mutual

theorem markersLead_tokens (d : Derivation) (ts : List Token) :
    MarkersLead (d.tokens ++ ts) ↔ MarkersLead ts := by
  cases d with
  | literal text => exact markersLead_cons_iff_of_not (by simp [IsMarker])
  | reversal marker d =>
    rw [tokens, List.cons_append, markersLead_cons_iff, markersLead_tokens d]
    exact ⟨And.right, fun h ↦ ⟨fun _ ↦ d.head_tokens_ne_closing ts, h⟩⟩
  | quotation marker d =>
    rw [tokens, List.cons_append, markersLead_cons_iff, markersLead_tokens d]
    exact ⟨And.right, fun h ↦ ⟨fun _ ↦ d.head_tokens_ne_closing ts, h⟩⟩
  | list opener items closer =>
    rw [tokens, List.cons_append, List.append_assoc,
      markersLead_cons_iff_of_not (by simp [IsMarker]), markersLead_tokensAll items,
      List.singleton_append, markersLead_cons_iff_of_not (by simp [IsMarker])]

theorem markersLead_tokensAll (ds : List Derivation) (ts : List Token) :
    MarkersLead (tokensAll ds ++ ts) ↔ MarkersLead ts := by
  cases ds with
  | nil => rfl
  | cons d ds => rw [tokensAll, List.append_assoc, markersLead_tokens d, markersLead_tokensAll ds]

end

/-! ## Every readable list of tokens is a frontier -/

/-- By induction on the number of tokens: brackets are cut off in pairs, the first one with the
closing bracket that brings the depth back to zero. -/
theorem exists_tokensAll_eq {ts : List Token} (known : ∀ t ∈ ts, t.kind ∈ Kind.known)
    (hn : NeverNegative weight 0 ts) (hd : depth ts = 0) (hm : MarkersLead ts) :
    ∃ ds, tokensAll ds = ts := by
  induction hlen : ts.length using Nat.strongRecOn generalizing ts with
  | _ n ih =>
    subst hlen
    cases ts with
    | nil => exact ⟨[], rfl⟩
    | cons t ts =>
      obtain ⟨kind, text⟩ := t
      rw [depth] at hd
      obtain ⟨hlead, hm'⟩ := markersLead_cons_iff.1 hm
      have known' : ∀ t ∈ ts, t.kind ∈ Kind.known := fun t ht ↦ known t (List.mem_cons_of_mem _ ht)
      have rest_of_weight : weight ⟨kind, text⟩ = 0 → ∃ ds, tokensAll ds = ts := by
        intro hw
        exact ih _ (Nat.lt_succ_self _) known' ((NeverNegative.cons_iff_of_eq_zero hw).1 hn)
          (by omega) hm' rfl
      -- a marker has an expression behind it, since the sequence behind it is not empty
      have rest_of_marker : weight ⟨kind, text⟩ = 0 → IsMarker ⟨kind, text⟩ →
          ∃ (d : Derivation) (ds : List Derivation), d.tokens ++ tokensAll ds = ts := by
        intro hw hmark
        obtain ⟨ds, rfl⟩ := rest_of_weight hw
        obtain ⟨u, hu, -⟩ := hlead hmark
        cases ds with
        | nil => simp [tokensAll] at hu
        | cons d ds => exact ⟨d, ds, rfl⟩
      cases kind with
      | literal =>
        obtain ⟨ds, rfl⟩ := rest_of_weight rfl
        exact ⟨literal text :: ds, rfl⟩
      | reverse =>
        obtain ⟨d, ds, rfl⟩ := rest_of_marker rfl (.inl rfl)
        exact ⟨reversal text d :: ds, rfl⟩
      | quote =>
        obtain ⟨d, ds, rfl⟩ := rest_of_marker rfl (.inr rfl)
        exact ⟨quotation text d :: ds, rfl⟩
      | opening =>
        have hw : weight ⟨.opening, text⟩ = 1 := rfl
        have hbelow : depth ts < -((0 : Nat) : Int) := by omega
        obtain ⟨inner, closer, rest, rfl, hin, hid⟩ := exists_closing hbelow
        have hw' : weight ⟨.closing, closer⟩ = -1 := rfl
        have hlength : inner.length + (rest.length + 1) =
            (inner ++ ⟨.closing, closer⟩ :: rest : List Token).length := by
          rw [List.length_append, List.length_cons]
        obtain ⟨items, rfl⟩ := ih inner.length (by rw [List.length_cons]; omega)
          (fun t ht ↦ known' t (List.mem_append_left _ ht)) hin hid hm'.of_append_closing rfl
        rw [depth_append, depth] at hd
        have hrest : NeverNegative weight 0 rest := by
          have := ((neverNegative_tokensAll _ items _).1 hn.2).2
          rwa [hw, hw'] at this
        obtain ⟨ds, rfl⟩ := ih rest.length (by rw [List.length_cons]; omega)
          (fun t ht ↦ known' t (List.mem_append_right _ (List.mem_cons_of_mem _ ht))) hrest
          (by omega) (markersLead_cons_iff.1 hm'.of_append_right).2 rfl
        exact ⟨list text items closer :: ds, by simp [tokensAll, tokens]⟩
      | closing =>
        have hw : weight ⟨.closing, text⟩ = -1 := rfl
        have := hn.2.nonneg
        omega
      | other name => exact absurd (known _ List.mem_cons_self) (by simp [Kind.known])

end Derivation

/-! ## Errors of the reader -/

theorem kind_of_nextExtent_error {ts rest : List Token} {e : Error}
    (h : nextExtent ts = (.error e, rest)) : e.kind = .malformed := by
  induction ts generalizing e rest with
  | nil =>
    cases h
    rfl
  | cons t ts ih =>
    cases hf : MarkerTable.standard.transform? t.kind with
    | some f =>
      rw [nextExtent_marker hf] at h
      split at h
      · cases h
        rfl
      · rcases hx : nextExtent ts with ⟨x, rest'⟩
        rw [hx] at h
        cases x with
        | error e' =>
          cases h
          exact ih hx
        | ok x => cases h
    | none =>
      rw [nextExtent, hf] at h
      dsimp only at h
      split at h
      · cases h
      · split at h
        · cases h
        · cases h
          rfl
      · cases h
        rfl
      · cases h
        rfl

/-- Whatever stops the reader, it reports a malformed text. -/
theorem kind_of_readAll_error {ts : List Token} {e : Error} (h : (readAll ts).1 = .error e) :
    e.kind = .malformed := by
  induction hn : ts.length using Nat.strongRecOn generalizing ts e with
  | _ n ih =>
    subst hn
    cases ts with
    | nil => simp [readAll] at h
    | cons t ts =>
      rw [readAll_cons] at h
      rcases hx : nextExtent (t :: ts) with ⟨x | x, rest⟩
      · rw [hx] at h
        cases h
        exact kind_of_nextExtent_error hx
      · obtain ⟨hrest, hinner⟩ := length_of_nextExtent hx
        cases hv : x.read with
        | error e' =>
          simp only [hx, hv, Except.error.injEq] at h
          subst h
          -- only a list can fail to be read once it has been cut out
          obtain ⟨markers, core⟩ := x
          cases core with
          | literal text => cases hv
          | list inner =>
            cases hin : (readAll inner).1 with
            | error e'' =>
              simp only [Extent.read, hin, Except.map, Except.error.injEq] at hv
              subst hv
              exact ih _ (hinner inner rfl) hin rfl
            | ok vs => simp [Extent.read, hin, Except.map] at hv
        | ok v =>
          simp only [hx, hv, consResult] at h
          cases hr : (readAll rest).1 with
          | error e' =>
            simp only [hr, Except.map, Except.error.injEq] at h
            subst h
            exact ih _ hrest hr rfl
          | ok vs => simp [hr, Except.map] at h

/-! ## What can be read -/

open ReverseLisp.Derivation ReverseLisp.Token

/-- A text can be read exactly if its tokens are a frontier. -/
theorem exists_read_iff (s : String) :
    (∃ vs, read s = .ok vs) ↔ ∃ ds, tokensAll ds = tokenize s := by
  constructor
  · rintro ⟨vs, h⟩
    obtain ⟨ds, hds, -⟩ := exists_of_readAll h
    exact ⟨ds, hds⟩
  · rintro ⟨ds, hds⟩
    refine ⟨values ds, ?_⟩
    rw [read, ← hds, readAll_tokensAll]

theorem exists_read_iff_flat (s : String) :
    (∃ vs, read s = .ok vs) ↔
      (∀ p, p <+: s.toList → 0 ≤ bracketDepth p) ∧ bracketDepth s.toList = 0 ∧
        MarkersLead (tokenize s) := by
  have hparts : (∀ p, p <+: s.toList → 0 ≤ bracketDepth p) ↔
      NeverNegative weight 0 (tokenize s) := by
    rw [tokenize, neverNegative_scan, ← forall_prefix_bracketDepth_iff]
    simp only [Int.zero_add]
  have hdepth : bracketDepth s.toList = depth (tokenize s) := (depth_scan s.toList).symm
  rw [exists_read_iff, hparts, hdepth]
  constructor
  · rintro ⟨ds, hds⟩
    have hnil : tokensAll ds ++ [] = tokenize s := by rw [List.append_nil, hds]
    refine ⟨?_, ?_, ?_⟩
    · rw [← hnil, neverNegative_tokensAll]
      exact Int.le_refl 0
    · rw [← hds, depth_tokensAll]
    · rw [← hnil, markersLead_tokensAll]
      exact markersLead_nil
  · rintro ⟨hn, hd, hm⟩
    exact exists_tokensAll_eq (fun _ ht ↦ kind_mem_known_of_mem_scan ht) hn hd hm

/-- **What can be read.** The depth of brackets is the same in a text and in its tokens. A text can
be read exactly if no part of it from its start closes more lists than it opens, the whole closes
every list, and no marker stands before a closing bracket or at the end. A text that cannot be read
is reported as malformed, and a text that can be read passes the count of brackets that comes
first. -/
theorem read_succeeds_iff_flat (s : String) :
    bracketDepth s.toList = ((tokenize s).countP (·.kind = .opening) : Int) -
        (tokenize s).countP (·.kind = .closing) ∧
      ((∃ vs, read s = .ok vs) ↔
        (∀ p, p <+: s.toList → 0 ≤ bracketDepth p) ∧ bracketDepth s.toList = 0 ∧
          MarkersLead (tokenize s)) ∧
      (∀ e, read s = .error e → e.kind = .malformed) ∧
      (∀ vs, read s = .ok vs → isBalanced s.toList = true ∧ ∀ limit e,
        Machine.evaluateText limit e s = Machine.evaluateAll limit e vs) := by
  refine ⟨?_, exists_read_iff_flat s, fun e ↦ kind_of_readAll_error, ?_⟩
  · rw [← depth_eq_countP, tokenize, depth_scan]
  · intro vs h
    have hbalanced : isBalanced s.toList = true := by
      have := ((exists_read_iff_flat s).1 ⟨vs, h⟩).2.1
      simp [isBalanced, this]
    refine ⟨hbalanced, ?_⟩
    intro limit e
    rw [Machine.evaluateText, if_pos hbalanced, h]
    rfl

/-- Brackets that match are not enough: in `($)` the marker has nothing to reverse, and the text is
malformed. In `$[1 '(2)]` each marker has an expression behind it, so the text runs. -/
theorem read_succeeds_iff_flat_markers :
    (isBalanced "($)".toList = true ∧ ¬ MarkersLead (tokenize "($)") ∧
      ∃ e, read "($)" = .error e ∧ e.kind = .malformed) ∧
    ∃ vs, read "$[1 '(2)]" = .ok vs ∧ MarkersLead (tokenize "$[1 '(2)]") ∧ ∀ limit e,
      Machine.evaluateText limit e "$[1 '(2)]" = Machine.evaluateAll limit e vs := by
  have hbad : ∃ e, read "($)" = .error e := ⟨_, by with_unfolding_all rfl⟩
  have hgood : ∃ vs, read "$[1 '(2)]" = .ok vs := ⟨_, by with_unfolding_all rfl⟩
  obtain ⟨-, hiff, hkind, -⟩ := read_succeeds_iff_flat "($)"
  obtain ⟨-, hiff', -, hruns⟩ := read_succeeds_iff_flat "$[1 '(2)]"
  refine ⟨⟨by decide, ?_, ?_⟩, ?_⟩
  · intro hlead
    have hparts : ∀ p, p <+: "($)".toList → 0 ≤ bracketDepth p := by
      have hn : NeverNegative bracketWeight 0 "($)".toList := by
        simp [NeverNegative, bracketWeight, openers, closers]
      simpa only [Int.zero_add] using (forall_prefix_bracketDepth_iff 0 _).2 hn
    obtain ⟨vs, hvs⟩ := hiff.2 ⟨hparts, by decide, hlead⟩
    obtain ⟨e, he⟩ := hbad
    rw [he] at hvs
    cases hvs
  · obtain ⟨e, he⟩ := hbad
    exact ⟨e, he, hkind e he⟩
  · obtain ⟨vs, hvs⟩ := hgood
    exact ⟨vs, hvs, (hiff'.1 ⟨vs, hvs⟩).2.2, (hruns vs hvs).2⟩

end ReverseLisp
