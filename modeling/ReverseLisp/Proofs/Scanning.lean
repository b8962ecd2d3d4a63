import Mathlib.Data.List.TakeWhile
import ReverseLisp.Token

/-!
# Scanning joined texts

A literal ends before the first character that is not of literals, and nothing else about scanning
depends on what comes later. So if no literal goes on from one text into the next, the tokens of
both together are those of the one and then those of the other (`scan_append`). A text of characters
of literals is a single token, and every literal has such a text.
-/

namespace ReverseLisp.Token

/-! ## Characters -/

theorem isLiteral_of_isBlank {c : Char} (h : Text.isBlank c = true) : isLiteral c = false := by
  simp [isLiteral, h]

theorem isLiteral_of_ofChar? {c : Char} {t : Token} (h : ofChar? c = some t) :
    isLiteral c = false := by
  simp [isLiteral, h]

/-- A character that is a token by itself is no literal. -/
theorem kind_ne_literal_of_ofChar? {c : Char} {t : Token} (h : ofChar? c = some t) :
    t.kind ≠ .literal := by
  unfold ofChar? at h
  split at h
  · cases h
    simp
  split at h
  · cases h
    simp
  split at h
  · cases h
    simp
  split at h
  · cases h
    simp
  · cases h

/-! ## Where a text may be cut -/

/-- No literal goes on from the first text into the second. -/
def Apart (cs ds : List Char) : Prop :=
  ∀ c ∈ cs.getLast?, ∀ d ∈ ds.head?, isLiteral c = true → isLiteral d = false

theorem apart_nil (cs : List Char) : Apart cs [] := by
  intro c _ d hd
  cases hd

/-- A text that starts with no character of literals may follow any other. -/
theorem apart_cons {d : Char} (h : isLiteral d = false) (cs ds : List Char) :
    Apart cs (d :: ds) := by
  rintro c - d' hd' -
  cases hd'
  exact h

/-- Any text may follow one that ends with no character of literals. -/
theorem apart_of_getLast? {c : Char} {cs : List Char} (hc : cs.getLast? = some c)
    (h : isLiteral c = false) (ds : List Char) : Apart cs ds := by
  intro c' hc' d _ hlit
  rw [hc] at hc'
  cases hc'
  rw [h] at hlit
  cases hlit

/-- What matters of the first text is its end. -/
theorem Apart.of_suffix {cs cs' ds : List Char} (h : Apart cs ds) (hs : cs' <:+ cs) :
    Apart cs' ds := by
  obtain ⟨front, rfl⟩ := hs
  intro c hc
  refine h c ?_
  rw [List.getLast?_append, Option.mem_def.1 hc]
  rfl

/-- What matters of the second text is its start. -/
theorem Apart.of_prefix {cs ds ds' : List Char} (h : Apart cs ds) (hp : ds' <+: ds) :
    Apart cs ds' := by
  obtain ⟨back, rfl⟩ := hp
  intro c hc d hd
  refine h c hc d ?_
  rw [List.head?_append, Option.mem_def.1 hd]
  rfl

/-- What stands before the first text matters only if that is empty. -/
theorem Apart.append_left {cs cs' ds : List Char} (h : Apart cs' ds)
    (hnil : cs' = [] → Apart cs ds) : Apart (cs ++ cs') ds := by
  cases cs' with
  | nil =>
    rw [List.append_nil]
    exact hnil rfl
  | cons c' cs' =>
    intro c hc
    refine h c ?_
    rwa [List.getLast?_append, List.getLast?_cons, Option.some_or, ← List.getLast?_cons] at hc

/-! ## Tokens of joined texts -/

/-- A literal that starts with `c` ends where it would without the second text. By induction on the
rest of the first text, which the literal may use up. -/
theorem span_append_of_apart {c : Char} {cs ds : List Char} (hc : isLiteral c = true)
    (h : Apart (c :: cs) ds) :
    (cs ++ ds).takeWhile isLiteral = cs.takeWhile isLiteral ∧
      (cs ++ ds).dropWhile isLiteral = cs.dropWhile isLiteral ++ ds := by
  induction cs generalizing c with
  | nil =>
    cases ds with
    | nil => exact ⟨rfl, rfl⟩
    | cons d ds =>
      have hd : isLiteral d = false := h c rfl d rfl hc
      simp [hd]
  | cons c' cs ih =>
    by_cases hc' : isLiteral c' = true
    · obtain ⟨htake, hdrop⟩ := ih hc' (h.of_suffix (List.suffix_cons c _))
      simp [hc', htake, hdrop]
    · simp [hc']

/-- Texts that are apart are scanned one after the other. -/
theorem scan_append {cs ds : List Char} (h : Apart cs ds) :
    scan (cs ++ ds) = scan cs ++ scan ds := by
  fun_induction scan cs with
  | case1 => rfl
  | case2 c cs hc ih =>
    rw [List.cons_append, scan_cons_of_isBlank hc, ih (h.of_suffix (List.suffix_cons c cs))]
  | case3 c cs hc t ht ih =>
    rw [List.cons_append, scan_cons_of_ofChar? ht, ih (h.of_suffix (List.suffix_cons c cs)),
      List.cons_append]
  | case4 c cs hc ht ih =>
    have hlit : isLiteral c = true := by simp [isLiteral, hc, ht]
    have hsuffix : cs.dropWhile isLiteral <:+ c :: cs :=
      (List.dropWhile_suffix isLiteral).trans (List.suffix_cons c cs)
    obtain ⟨htake, hdrop⟩ := span_append_of_apart hlit h
    rw [List.cons_append, scan_cons_of_isLiteral hlit, htake, hdrop, ih (h.of_suffix hsuffix),
      List.cons_append]

/-! ## Literals -/

/-- A text of which scanning makes one literal. -/
def IsLiteralText (text : String) : Prop :=
  text.toList ≠ [] ∧ ∀ c ∈ text.toList, isLiteral c = true

instance (text : String) : Decidable (IsLiteralText text) :=
  @instDecidableAnd _ _ _ (List.decidableBAll (isLiteral · = true) text.toList)

theorem scan_of_isLiteralText {text : String} (h : IsLiteralText text) :
    scan text.toList = [⟨.literal, text⟩] := by
  obtain ⟨hne, hall⟩ := h
  cases hcs : text.toList with
  | nil => exact absurd hcs hne
  | cons c cs =>
    rw [hcs] at hall
    have htail : ∀ c' ∈ cs, isLiteral c' = true := fun c' hc' ↦ hall c' (List.mem_cons_of_mem c hc')
    have htake : cs.takeWhile isLiteral = cs := List.takeWhile_eq_self_iff.2 htail
    rw [scan_cons_of_isLiteral (hall c List.mem_cons_self), htake,
      List.dropWhile_eq_nil_iff.2 htail, scan_nil, ← hcs, String.ofList_toList]

/-- Every literal of a text is made of characters of literals. -/
theorem isLiteralText_of_mem_scan {cs : List Char} {t : Token} (h : t ∈ scan cs)
    (hk : t.kind = .literal) : IsLiteralText t.text := by
  fun_induction scan cs with
  | case1 => cases h
  | case2 c cs hc ih => exact ih h
  | case3 c cs hc u hu ih =>
    rcases List.mem_cons.1 h with rfl | h
    · exact absurd hk (kind_ne_literal_of_ofChar? hu)
    · exact ih h
  | case4 c cs hc hu ih =>
    rcases List.mem_cons.1 h with rfl | h
    · refine ⟨by simp, ?_⟩
      intro c' hc'
      rw [String.toList_ofList] at hc'
      rcases List.mem_cons.1 hc' with rfl | hc'
      · simp [isLiteral, hc, hu]
      · exact List.mem_takeWhile_imp hc'
    · exact ih h

end ReverseLisp.Token
