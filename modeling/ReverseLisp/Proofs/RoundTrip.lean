import Mathlib.Data.Bool.AllAny
import Mathlib.Data.Nat.Digits.Lemmas
import ReverseLisp.Proofs.Atoms
import ReverseLisp.Value.Printer

/-!
# Printing undoes reading

The source of an expression that was read is a text of exactly that expression. Binary numbers are
left out: one that is an integer is printed like one, and reads back as one.

## The argument

An atom that was read is denoted by a literal. If it is a symbol, its source is that literal. If it
is an integer, its source is another literal of the same integer: leading zeros, underscores and the
digits of other scripts are gone, and there are not more digits than before, so the text can be
written and can be read (`int?_intText`). A list is printed with a blank between its items, and the
literals next to a blank or a bracket are scanned as if they stood alone. So the tokens of a source
are the frontier of a derivation, and the reader reads what the derivation denotes.
-/

namespace ReverseLisp

/-! ## Integers that are written -/

namespace Literal

/-- A digit is one of ten characters, so that its properties can be checked one by one. -/
theorem mem_digits_of_isDigit {c : Char} (h : c.isDigit = true) : c ∈ "0123456789".toList := by
  have hall : ∀ n < 58, 48 ≤ n → Char.ofNat n ∈ "0123456789".toList := by decide
  simp only [Char.isDigit, Bool.and_eq_true, decide_eq_true_eq, UInt32.le_iff_toNat_le] at h
  rw [← Char.ofNat_toNat c]
  exact hall c.toNat (Nat.lt_succ_of_le h.2) h.1

theorem mem_intText {n : Int} {c : Char} (h : c ∈ Decimal.intText n) :
    c ∈ "-0123456789".toList := by
  have hdigit : ∀ c ∈ Decimal.natText n.natAbs, c ∈ "0123456789".toList := fun c hc ↦
    mem_digits_of_isDigit (Nat.isDigit_of_mem_toDigits (by decide) (by decide) hc)
  rw [Decimal.intText] at h
  split at h
  · rcases List.mem_cons.1 h with rfl | h
    · decide
    · exact List.mem_cons_of_mem '-' (hdigit c h)
  · exact List.mem_cons_of_mem '-' (hdigit c h)

/-- The text of an integer is a literal. -/
theorem isLiteralText_intText (n : Int) :
    Token.IsLiteralText (String.ofList (Decimal.intText n)) := by
  have hall : ∀ c ∈ "-0123456789".toList, Token.isLiteral c = true := List.all_eq_true.1 (by decide)
  rw [Token.IsLiteralText, String.toList_ofList]
  refine ⟨?_, fun c hc ↦ hall c (mem_intText hc)⟩
  rw [Decimal.intText]
  split
  · exact List.cons_ne_nil _ _
  · exact Nat.toDigits_ne_nil

theorem normalize_intText (n : Int) : normalize (Decimal.intText n) = Decimal.intText n := by
  have hall : ∀ c ∈ "-0123456789".toList, toAscii c = c ∧ isSpace c = false :=
    List.all_iff_forall_prop.1 (by decide)
  have hascii : (Decimal.intText n).map toAscii = Decimal.intText n := by
    conv_rhs => rw [← List.map_id (Decimal.intText n)]
    exact List.map_congr_left fun c hc ↦ (hall c (mem_intText hc)).1
  have hspace : ∀ cs : List Char, (∀ c ∈ cs, c ∈ Decimal.intText n) →
      cs.dropWhile isSpace = cs := by
    intro cs hcs
    rw [List.dropWhile_eq_self_iff]
    intro hl
    rw [(hall _ (mem_intText (hcs _ (List.getElem_mem hl)))).2]
    exact Bool.false_ne_true
  rw [normalize, hascii, hspace _ fun c hc ↦ hc, hspace _ fun c hc ↦ List.mem_reverse.1 hc,
    List.reverse_reverse]

/-- Digits without underscores are taken as they are. -/
theorem digitRun?_of_isDigit {cs : List Char} (hne : cs ≠ []) (h : ∀ c ∈ cs, c.isDigit = true) :
    digitRun? cs = some (cs.map fun c ↦ c.toNat - '0'.toNat) := by
  have hdigit : ∀ c : Char, c.isDigit = true → asciiDigit? c = some (c.toNat - '0'.toNat) := by
    intro c hc
    simp only [Char.isDigit, Bool.and_eq_true, decide_eq_true_eq] at hc
    rw [asciiDigit?]
    exact if_pos hc
  fun_induction digitRun? cs with
  | case1 => exact absurd rfl hne
  | case2 c =>
    rw [hdigit c (h c List.mem_cons_self)]
    rfl
  | case3 c cs ih =>
    have hunderscore := h '_' (List.mem_cons_of_mem c List.mem_cons_self)
    exact absurd hunderscore (by decide)
  | case4 c cs hnil _ ih =>
    rw [hdigit c (h c List.mem_cons_self), ih hnil fun c' hc' ↦ h c' (List.mem_cons_of_mem c hc')]
    rfl

theorem digitRun?_natText (n : Nat) :
    ∃ ds, digitRun? (Decimal.natText n) = some ds ∧ ofDigits ds = n ∧
      ds.length = (Decimal.natText n).length := by
  have hdigits : ∀ c ∈ Decimal.natText n, c.isDigit = true := fun c hc ↦
    Nat.isDigit_of_mem_toDigits (by decide) (by decide) hc
  refine ⟨_, digitRun?_of_isDigit Nat.toDigits_ne_nil hdigits, ?_, List.length_map _⟩
  rw [ofDigits, List.foldl_map, ← Nat.ofDigitChars_eq_foldl, Decimal.natText,
    Nat.ofDigitChars_ten_toDigits]

theorem length_natText_le {n : Nat} (h : n < Decimal.tooLarge) :
    (Decimal.natText n).length ≤ maxDigits := by
  have hpos : 0 < maxDigits := by decide
  -- for any limit, so that the power of ten is never computed
  unfold Decimal.tooLarge at h
  generalize maxDigits = k at h hpos ⊢
  exact (Nat.length_toDigits_le_iff (by decide) hpos).2 h

/-- The sign of an integer is split off again. -/
theorem splitSign_intText (n : Int) :
    splitSign (Decimal.intText n) = (decide (n < 0), Decimal.natText n.natAbs) := by
  rw [Decimal.intText]
  split
  · next hn => rw [splitSign, decide_eq_true hn]
  · next hn =>
    have hsign : ∀ c ∈ "0123456789".toList, c ≠ '+' ∧ c ≠ '-' :=
      List.all_iff_forall_prop.1 (by decide)
    rw [decide_eq_false hn]
    cases hcs : Decimal.natText n.natAbs with
    | nil => exact absurd hcs Nat.toDigits_ne_nil
    | cons c cs =>
      have hmem : c ∈ Decimal.natText n.natAbs := hcs ▸ List.mem_cons_self
      obtain ⟨hplus, hminus⟩ := hsign c
        (mem_digits_of_isDigit (Nat.isDigit_of_mem_toDigits (by decide) (by decide) hmem))
      rw [splitSign]
      · exact fun cs' h ↦ hplus (List.cons.inj h).1
      · exact fun cs' h ↦ hminus (List.cons.inj h).1

/-- An integer reads back from its text, if it has one. -/
theorem int?_intText {n : Int} (h : n.natAbs < Decimal.tooLarge) :
    int? (Decimal.intText n) = some n := by
  obtain ⟨ds, hds, hvalue, hlength⟩ := digitRun?_natText n.natAbs
  have hshort : ¬ maxDigits < ds.length := by
    rw [hlength]
    exact Nat.not_lt.2 (length_natText_le h)
  have hsign : (if decide (n < 0) = true then -(n.natAbs : Int) else n.natAbs) = n := by
    split
    · next hn =>
      have := of_decide_eq_true hn
      omega
    · next hn =>
      have := of_decide_eq_false (Bool.not_eq_true _ ▸ hn)
      omega
  rw [int?, normalize_intText, splitSign_intText]
  simp only [hds, Option.bind_eq_bind, Option.bind_some, if_neg hshort, hvalue, hsign]
  rfl

/-! ## Integers that are read -/

theorem asciiDigit?_lt {c : Char} {d : Nat} (h : asciiDigit? c = some d) : d < 10 := by
  rw [asciiDigit?] at h
  split at h
  · next hc =>
    have hnine : c.toNat ≤ '9'.toNat := UInt32.le_iff_toNat_le.1 hc.2
    have hd : c.toNat - '0'.toNat = d := Option.some.inj h
    have hzero : '0'.toNat = 48 := rfl
    have hnine' : '9'.toNat = 57 := rfl
    omega
  · cases h

theorem lt_ten_of_digitRun? {cs : List Char} {ds : List Nat} (h : digitRun? cs = some ds) :
    ∀ d ∈ ds, d < 10 := by
  fun_induction digitRun? cs generalizing ds with
  | case1 => cases h
  | case2 c =>
    obtain ⟨d, hd, rfl⟩ := Option.map_eq_some_iff.1 h
    simpa using asciiDigit?_lt hd
  | case3 c cs ih =>
    obtain ⟨d, hd, h⟩ := Option.bind_eq_some_iff.1 h
    obtain ⟨ds', hds', h⟩ := Option.bind_eq_some_iff.1 h
    cases h
    exact List.forall_mem_cons.2 ⟨asciiDigit?_lt hd, ih hds'⟩
  | case4 c cs _ _ ih =>
    obtain ⟨d, hd, h⟩ := Option.bind_eq_some_iff.1 h
    obtain ⟨ds', hds', h⟩ := Option.bind_eq_some_iff.1 h
    cases h
    exact List.forall_mem_cons.2 ⟨asciiDigit?_lt hd, ih hds'⟩

/-- The value of digits is positional. -/
theorem ofDigits_eq (ds : List Nat) : ofDigits ds = Nat.ofDigits 10 ds.reverse := by
  rw [Nat.ofDigits_eq_foldr, List.foldr_reverse, ofDigits]
  congr
  funext n d
  exact Nat.add_comm _ _

theorem ofDigits_lt {ds : List Nat} (h : ∀ d ∈ ds, d < 10) {k : Nat} (hk : ds.length ≤ k) :
    ofDigits ds < Nat.pow 10 k := by
  have hlt : Nat.ofDigits 10 ds.reverse < 10 ^ ds.reverse.length :=
    Nat.ofDigits_lt_base_pow_length (by decide) (by simpa using h)
  rw [List.length_reverse] at hlt
  rw [ofDigits_eq]
  exact hlt.trans_le (Nat.pow_le_pow_right (by decide) hk)

/-- An integer that can be read can be written. -/
theorem natAbs_lt_of_int? {text : List Char} {n : Int} (h : int? text = some n) :
    n.natAbs < Decimal.tooLarge := by
  obtain ⟨ds, hds, h⟩ := Option.bind_eq_some_iff.1 h
  split at h
  · cases h
  · next hshort =>
    have habs : n.natAbs = ofDigits ds := by
      have := Option.some.inj h
      split at this <;> omega
    rw [habs]
    unfold Decimal.tooLarge
    generalize maxDigits = k at hshort ⊢
    exact ofDigits_lt (lt_ten_of_digitRun? hds) (Nat.not_lt.1 hshort)

end Literal

/-! ## Sources of atoms -/

/-- The source of a value is one literal, and this literal denotes the value. -/
def Value.IsWrittenAsRead (a : Value) : Prop :=
  ∃ text, Token.IsLiteralText text ∧ a.source? = some text.toList ∧ atom text = a

/-- What a literal denotes is written as a literal of the same, unless it is a binary number. -/
theorem isWrittenAsRead_atom {text : String} (h : Token.IsLiteralText text)
    (hbinary : ∀ x, atom text ≠ .binary x) : (atom text).IsWrittenAsRead := by
  rcases atom_cases text with ⟨n, hn, ha⟩ | ⟨x, hx⟩ | ha
  · have hlt : n.natAbs < Decimal.tooLarge := Literal.natAbs_lt_of_int? hn
    rw [ha]
    refine ⟨String.ofList (Decimal.intText n), Literal.isLiteralText_intText n, ?_, ?_⟩
    · rw [Value.source?, Decimal.intText?, if_pos hlt, String.toList_ofList]
    · rw [atom, String.toList_ofList, Literal.int?_intText hlt]
  · exact absurd hx (hbinary x)
  · rw [ha]
    exact ⟨text, h, rfl, ha⟩

/-! ## Sources of lists -/

namespace Value

open ReverseLisp.Token ReverseLisp.Derivation

mutual

/-- If the atoms of a value are written as they are read, then so is the value: the tokens of its
source are the frontier of a derivation that denotes it. -/
theorem exists_derivation_of_source (v : Value) (h : ∀ a ∈ v.atoms, a.IsWrittenAsRead) :
    ∃ (text : List Char) (d : Derivation),
      v.source? = some text ∧ scan text = d.tokens ∧ d.value = v := by
  cases v with
  | list items =>
    obtain ⟨texts, ds, hsources, hscan, hvalues⟩ := exists_derivations_of_sources items h
    refine ⟨'(' :: joined " " texts ++ [')'], .list "(" ds ")", ?_, ?_, ?_⟩
    · rw [source?, hsources, Option.map_some]
    · have hopen : ofChar? '(' = some ⟨.opening, "("⟩ := by decide
      have hclose : ofChar? ')' = some ⟨.closing, ")"⟩ := by decide
      rw [List.cons_append, scan_cons_of_ofChar? hopen,
        scan_append (apart_cons (isLiteral_of_ofChar? hclose) _ _), hscan,
        scan_cons_of_ofChar? hclose, scan_nil, tokens]
    · rw [value, hvalues]
  | _ =>
    obtain ⟨text, hliteral, hsource, hatom⟩ := h _ List.mem_cons_self
    exact ⟨text.toList, .literal text, hsource, scan_of_isLiteralText hliteral, hatom⟩

theorem exists_derivations_of_sources (vs : List Value)
    (h : ∀ a ∈ atomsAll vs, a.IsWrittenAsRead) :
    ∃ (texts : List (List Char)) (ds : List Derivation),
      sources? vs = some texts ∧ scan (joined " " texts) = tokensAll ds ∧ values ds = vs := by
  cases vs with
  | nil => exact ⟨[], [], rfl, scan_nil, rfl⟩
  | cons v vs =>
    obtain ⟨text, d, hsource, hscan, hvalue⟩ :=
      exists_derivation_of_source v fun a ha ↦ h a (List.mem_append_left _ ha)
    obtain ⟨texts, ds, hsources, hscans, hvalues⟩ :=
      exists_derivations_of_sources vs fun a ha ↦ h a (List.mem_append_right _ ha)
    refine ⟨text :: texts, d :: ds, ?_, ?_, ?_⟩
    · rw [sources?, hsource, hsources]
      rfl
    · cases texts with
      | nil =>
        have hds : tokensAll ds = [] := hscans.symm.trans scan_nil
        rw [joined, List.intercalate_singleton, hscan, tokensAll, hds, List.append_nil]
      | cons text' texts =>
        have hblank : Text.isBlank ' ' = true := by decide
        have hjoined : joined " " (text :: text' :: texts) =
            text ++ ' ' :: joined " " (text' :: texts) := by
          rw [joined, List.intercalate_cons_cons, List.append_assoc]
          rfl
        rw [hjoined, scan_append (apart_cons (isLiteral_of_isBlank hblank) _ _),
          scan_cons_of_isBlank hblank, hscan, hscans, tokensAll]
    · rw [values, hvalue, hvalues]

end

end Value

/-! ## Reading what was printed -/

/-- **Printing undoes reading.** An expression that was read and holds no binary number can be
printed, and what is printed reads as one expression, which is the same. -/
theorem readOne_source_of_read {s : String} {vs : List Value} (h : read s = .ok vs) {v : Value}
    (hv : v ∈ vs) (hbinary : ∀ x, Value.binary x ∉ v.atoms) :
    ∃ text, v.source? = some text ∧ readOne (String.ofList text) = .ok v := by
  have hatoms : ∀ a ∈ v.atoms, a.IsWrittenAsRead := by
    intro a ha
    obtain ⟨text, hliteral, rfl⟩ := exists_literal_of_read h hv ha
    exact isWrittenAsRead_atom hliteral fun x hx ↦ hbinary x (hx ▸ ha)
  obtain ⟨text, d, hsource, hscan, hvalue⟩ := v.exists_derivation_of_source hatoms
  refine ⟨text, hsource, ?_⟩
  have hread : read (String.ofList text) = .ok [v] := by
    have hfrontier : Token.scan text = Derivation.tokensAll [d] := by
      rw [hscan, Derivation.tokensAll, Derivation.tokensAll, List.append_nil]
    rw [read, Token.tokenize, String.toList_ofList, hfrontier, Derivation.readAll_tokensAll,
      Derivation.values, Derivation.values, hvalue]
  rw [readOne, hread]
  rfl

/-- Markers, brackets of several families and unusual spellings of integers are gone from the
source, which still reads as the same expression. -/
theorem readOne_source_of_read_respelled :
    let v : Value := .list [.symbol ⟨"-"⟩, .list [.symbol ⟨"quote"⟩, .list [.int 10, .int (-7)]],
      .list [.list [], .symbol ⟨"1x"⟩]]
    read "[- '\x7b1_0 -007) $(1x ())]" = .ok [v] ∧ (∀ x, Value.binary x ∉ v.atoms) ∧
      ∃ text, v.source? = some text ∧ readOne (String.ofList text) = .ok v := by
  intro v
  have hread : read "[- '\x7b1_0 -007) $(1x ())]" = .ok [v] := by decide +kernel
  have hbinary : ∀ x, Value.binary x ∉ v.atoms := by
    intro x hx
    simp [v, Value.atoms, Value.atomsAll] at hx
  exact ⟨hread, hbinary, readOne_source_of_read hread List.mem_cons_self hbinary⟩

end ReverseLisp
