import Mathlib.Data.List.DropRight
import ReverseLisp.Proofs.RoundTrip

/-!
# How integers are spelled

An integer may be spelled in many ways: with a sign or without, with leading zeros, with underscores
between its digits and with spaces around all. A `Spelling` is one of them, given by its parts, so
that nothing but an integer can be spelled. A text of ASCII characters denotes an integer exactly if
it is a spelling with spaces around it that has no more digits than may be read, and it denotes the
value of these digits in the decimal system. Every other text is a binary number or a name.

## The argument

Reading trims the spaces, takes the sign off and goes through the rest digit by digit, with a look
at the next character for an underscore. The recursion of `digitRun?` is that of `Digits`, so each
accepts what the other makes. A character of ASCII reads as itself, but for the last one, which
occurs in no spelling.
-/

namespace ReverseLisp

namespace Literal

/-! ## Spellings -/

/-- One or more decimal digits. Before each but the first there may be an underscore. -/
inductive Digits where
  | single (d : Fin 10)
  | cons (d : Fin 10) (underscore : Bool) (ds : Digits)

namespace Digits

/-- The characters, underscores included. -/
def text : Digits → List Char
  | single d => [Nat.digitChar d]
  | cons d underscore ds => Nat.digitChar d :: (if underscore then '_' :: ds.text else ds.text)

/-- The digits from left to right. -/
def values : Digits → List Nat
  | single d => [d]
  | cons d _ ds => d :: ds.values

end Digits

/-- A sign that is written. -/
inductive Sign where
  | plus
  | minus
deriving DecidableEq

/-- A sign or none, and digits. -/
structure Spelling where
  sign : Option Sign
  digits : Digits

namespace Spelling

/-- The characters of a spelling. -/
def text (p : Spelling) : List Char :=
  match p.sign with
  | none => p.digits.text
  | some .plus => '+' :: p.digits.text
  | some .minus => '-' :: p.digits.text

/-- The value in the decimal system, in which the last digit counts least. -/
def value (p : Spelling) : Int :=
  if p.sign = some .minus then -(Nat.ofDigits 10 p.digits.values.reverse : Nat)
  else (Nat.ofDigits 10 p.digits.values.reverse : Nat)

end Spelling

/-! ## Digits -/

theorem asciiDigit?_digitChar (d : Fin 10) : asciiDigit? (Nat.digitChar d) = some d.val := by
  revert d
  decide

theorem exists_digitChar {c : Char} {d : Nat} (h : asciiDigit? c = some d) :
    ∃ i : Fin 10, i.val = d ∧ Nat.digitChar i = c := by
  have hd := asciiDigit?_lt h
  rw [asciiDigit?] at h
  split at h
  · next hc =>
    have hzero : '0'.toNat ≤ c.toNat := UInt32.le_iff_toNat_le.1 hc.1
    have hvalue : c.toNat - '0'.toNat = d := Option.some.inj h
    refine ⟨⟨d, hd⟩, rfl, Char.toNat_inj.1 ?_⟩
    rw [Nat.toNat_digitChar_of_lt_ten hd]
    show '0'.toNat + d = c.toNat
    omega
  · cases h

theorem Digits.exists_text_eq (ds : Digits) :
    ∃ (d : Fin 10) (cs : List Char), ds.text = Nat.digitChar d :: cs := by
  cases ds with
  | single d => exact ⟨d, [], rfl⟩
  | cons d underscore ds => exact ⟨d, _, rfl⟩

theorem digitChar_ne (d : Fin 10) :
    Nat.digitChar d ≠ '_' ∧ Nat.digitChar d ≠ '+' ∧ Nat.digitChar d ≠ '-' := by
  revert d
  decide

/-- Digits are read as what they are. -/
theorem digitRun?_text (ds : Digits) : digitRun? ds.text = some ds.values := by
  induction ds with
  | single d =>
    rw [Digits.text, digitRun?, asciiDigit?_digitChar]
    rfl
  | cons d underscore ds ih =>
    cases underscore with
    | true =>
      show digitRun? (Nat.digitChar d :: '_' :: ds.text) = _
      rw [digitRun?, asciiDigit?_digitChar, ih]
      rfl
    | false =>
      show digitRun? (Nat.digitChar d :: ds.text) = _
      obtain ⟨e, cs, hcs⟩ := ds.exists_text_eq
      rw [digitRun?, asciiDigit?_digitChar, ih]
      · rfl
      · rw [hcs]
        exact List.cons_ne_nil _ _
      · intro cs' hcs'
        rw [hcs] at hcs'
        exact (digitChar_ne e).1 (List.cons.inj hcs').1

theorem exists_of_digit_cons {c : Char} {run : Option (List Nat)} {values : List Nat}
    (h : (do return (← asciiDigit? c) :: (← run)) = some values) :
    ∃ (d : Fin 10) (values' : List Nat), Nat.digitChar d = c ∧ run = some values' ∧
      values = d.val :: values' := by
  obtain ⟨d, hd, h⟩ := Option.bind_eq_some_iff.1 h
  obtain ⟨values', hvalues', h⟩ := Option.bind_eq_some_iff.1 h
  cases h
  obtain ⟨i, rfl, rfl⟩ := exists_digitChar hd
  exact ⟨i, values', rfl, hvalues', rfl⟩

/-- Only digits are read. -/
theorem exists_digits_of_digitRun? {cs : List Char} {values : List Nat}
    (h : digitRun? cs = some values) : ∃ ds : Digits, ds.text = cs ∧ ds.values = values := by
  fun_induction digitRun? cs generalizing values with
  | case1 => cases h
  | case2 c =>
    obtain ⟨d, hd, rfl⟩ := Option.map_eq_some_iff.1 h
    obtain ⟨i, rfl, rfl⟩ := exists_digitChar hd
    exact ⟨.single i, rfl, rfl⟩
  | case3 c cs ih =>
    obtain ⟨d, values', rfl, hvalues', rfl⟩ := exists_of_digit_cons h
    obtain ⟨ds, rfl, rfl⟩ := ih hvalues'
    exact ⟨.cons d true ds, rfl, rfl⟩
  | case4 c cs _ _ ih =>
    obtain ⟨d, values', rfl, hvalues', rfl⟩ := exists_of_digit_cons h
    obtain ⟨ds, rfl, rfl⟩ := ih hvalues'
    exact ⟨.cons d false ds, rfl, rfl⟩

/-! ## Signs -/

theorem splitSign_text (p : Spelling) :
    splitSign p.text = (decide (p.sign = some .minus), p.digits.text) := by
  obtain ⟨sign, ds⟩ := p
  match sign with
  | some .plus => rfl
  | some .minus => rfl
  | none =>
    obtain ⟨d, cs, hcs⟩ := ds.exists_text_eq
    obtain ⟨-, hplus, hminus⟩ := digitChar_ne d
    show splitSign ds.text = (false, ds.text)
    rw [hcs, splitSign]
    · exact fun cs' h ↦ hplus (List.cons.inj h).1
    · exact fun cs' h ↦ hminus (List.cons.inj h).1

/-- What is left without its sign belongs to a spelling with it. -/
theorem exists_spelling_of_splitSign {cs : List Char} {ds : Digits}
    (h : (splitSign cs).2 = ds.text) : ∃ p : Spelling, p.text = cs := by
  unfold splitSign at h
  split at h
  · exact ⟨⟨some .plus, ds⟩, congrArg (List.cons '+') h.symm⟩
  · exact ⟨⟨some .minus, ds⟩, congrArg (List.cons '-') h.symm⟩
  · exact ⟨⟨none, ds⟩, h.symm⟩

/-! ## Texts -/

/-- A spelling is read as its value, if it has not too many digits. -/
theorem int?_of_text {text : List Char} {p : Spelling} (h : normalize text = p.text) :
    int? text = if maxDigits < p.digits.values.length then none else some p.value := by
  rw [int?, h, splitSign_text]
  simp only [digitRun?_text, Option.bind_eq_bind, Option.bind_some, ofDigits_eq, decide_eq_true_eq]
  rfl

/-- A text reads as an integer exactly if it is spelled so, once it is trimmed and in ASCII. -/
theorem int?_eq_some_iff {text : List Char} {n : Int} :
    int? text = some n ↔
      ∃ p : Spelling, normalize text = p.text ∧ p.digits.values.length ≤ maxDigits ∧
        p.value = n := by
  constructor
  · intro h
    obtain ⟨values, hvalues, -⟩ := Option.bind_eq_some_iff.1 h
    obtain ⟨ds, hds, -⟩ := exists_digits_of_digitRun? hvalues
    obtain ⟨p, hp⟩ := exists_spelling_of_splitSign hds.symm
    rw [int?_of_text hp.symm] at h
    split at h
    · cases h
    · next hshort => exact ⟨p, hp.symm, Nat.not_lt.1 hshort, Option.some.inj h⟩
  · rintro ⟨p, hp, hlength, rfl⟩
    rw [int?_of_text hp, if_neg (Nat.not_lt.2 hlength)]

/-- The spaces of ASCII, which are ignored around an integer: the space itself and the characters
from tab to carriage return. The four separators are blank between tokens but no spaces here. -/
def spaces : List Char := " \t\n\r\x0b\x0c".toList

/-- The text without the spaces around it. -/
def strip (text : List Char) : List Char := (text.dropWhile (· ∈ spaces)).rdropWhile (· ∈ spaces)

/-- The characters of spellings. -/
def alphabet : List Char := "+-_0123456789".toList

theorem Digits.mem_alphabet {ds : Digits} {c : Char} (h : c ∈ ds.text) : c ∈ alphabet := by
  have hdigit : ∀ d : Fin 10, Nat.digitChar d ∈ alphabet := by decide
  induction ds with
  | single d =>
    rw [List.mem_singleton.1 h]
    exact hdigit d
  | cons d underscore ds ih =>
    rcases List.mem_cons.1 h with rfl | h
    · exact hdigit d
    · cases underscore with
      | true =>
        rcases List.mem_cons.1 h with rfl | h
        · decide
        · exact ih h
      | false => exact ih h

theorem Spelling.mem_alphabet {p : Spelling} {c : Char} (h : c ∈ p.text) : c ∈ alphabet := by
  obtain ⟨sign, ds⟩ := p
  match sign with
  | none => exact Digits.mem_alphabet h
  | some .plus =>
    rcases List.mem_cons.1 h with rfl | h
    · decide
    · exact Digits.mem_alphabet h
  | some .minus =>
    rcases List.mem_cons.1 h with rfl | h
    · decide
    · exact Digits.mem_alphabet h

/-! ### Characters of ASCII

They are few enough to be checked one by one. -/

theorem isSpace_toAscii {c : Char} (h : c.toNat < 128) :
    isSpace (toAscii c) = decide (c ∈ spaces) := by
  have hall : ∀ n < 128, isSpace (toAscii (Char.ofNat n)) = decide (Char.ofNat n ∈ spaces) := by
    decide +kernel
  rw [← Char.ofNat_toNat c]
  exact hall c.toNat h

theorem toAscii_eq_iff {c d : Char} (h : c.toNat < 128) (hd : d ∈ alphabet) :
    toAscii c = d ↔ c = d := by
  have hall : ∀ n < 128, toAscii (Char.ofNat n) = Char.ofNat n ∨
      toAscii (Char.ofNat n) ∉ alphabet ∧ Char.ofNat n ∉ alphabet := by
    decide +kernel
  have hc := hall c.toNat h
  rw [Char.ofNat_toNat] at hc
  obtain hsame | ⟨hread, hchar⟩ := hc
  · rw [hsame]
  · refine ⟨?_, ?_⟩
    · rintro rfl
      exact absurd hd hread
    · rintro rfl
      exact absurd hd hchar

theorem map_toAscii_eq_iff {cs ds : List Char} (hcs : ∀ c ∈ cs, c.toNat < 128)
    (hds : ∀ d ∈ ds, d ∈ alphabet) : cs.map toAscii = ds ↔ cs = ds := by
  induction cs generalizing ds with
  | nil => rfl
  | cons c cs ih =>
    cases ds with
    | nil => simp
    | cons d ds =>
      obtain ⟨hc, hcs⟩ := List.forall_mem_cons.1 hcs
      obtain ⟨hd, hds⟩ := List.forall_mem_cons.1 hds
      rw [List.map_cons, List.cons.injEq, List.cons.injEq, toAscii_eq_iff hc hd, ih hcs hds]

theorem dropWhile_map_toAscii {cs : List Char} (h : ∀ c ∈ cs, c.toNat < 128) :
    (cs.map toAscii).dropWhile isSpace = (cs.dropWhile (· ∈ spaces)).map toAscii := by
  induction cs with
  | nil => rfl
  | cons c cs ih =>
    obtain ⟨hc, hcs⟩ := List.forall_mem_cons.1 h
    rw [List.map_cons, List.dropWhile_cons, List.dropWhile_cons, isSpace_toAscii hc]
    split
    · exact ih hcs
    · rfl

theorem normalize_eq_map {text : List Char} (h : ∀ c ∈ text, c.toNat < 128) :
    normalize text = (strip text).map toAscii := by
  have hdrop : ∀ c ∈ (text.dropWhile (· ∈ spaces)).reverse, c.toNat < 128 := fun c hc ↦
    h c ((List.dropWhile_sublist _).subset (List.mem_reverse.1 hc))
  rw [normalize, dropWhile_map_toAscii h, ← List.map_reverse, dropWhile_map_toAscii hdrop,
    ← List.map_reverse]
  rfl

/-- A text of ASCII characters is an integer exactly if it is spelled so between spaces. -/
theorem int?_eq_some_iff_strip {text : List Char} (h : ∀ c ∈ text, c.toNat < 128) {n : Int} :
    int? text = some n ↔
      ∃ p : Spelling, strip text = p.text ∧ p.digits.values.length ≤ maxDigits ∧ p.value = n := by
  have hstrip : ∀ c ∈ strip text, c.toNat < 128 := by
    intro c hc
    have hmem : c ∈ text.dropWhile (· ∈ spaces) := (List.rdropWhile_prefix _ _).subset hc
    exact h c ((List.dropWhile_sublist _).subset hmem)
  rw [int?_eq_some_iff, normalize_eq_map h]
  refine exists_congr fun p ↦ and_congr_left fun _ ↦ ?_
  exact map_toAscii_eq_iff hstrip fun _ ↦ Spelling.mem_alphabet

end Literal

/-! ## Literals -/

theorem Decimal.lt_tooLarge {n : Nat} (h : (Nat.digits 10 n).length ≤ Literal.maxDigits) :
    n < tooLarge := by
  unfold tooLarge
  generalize Literal.maxDigits = k at h ⊢
  exact (Nat.lt_base_pow_length_digits (by decide)).trans_le (Nat.pow_le_pow_right (by decide) h)

theorem atom_eq_int_iff {text : String} {n : Int} :
    atom text = .int n ↔ Literal.int? text.toList = some n := by
  unfold atom
  cases Literal.int? text.toList with
  | some m => simp
  | none =>
    dsimp only
    split <;> simp

/-- **A literal is an integer exactly if it is spelled as one.** A text of ASCII characters denotes
an integer exactly if, without the spaces around it, it is an optional sign and decimal digits with
single underscores between digits only, and it has at most 4300 digits, leading zeros included. The
integer is the value of the digits in the decimal system, with the sign. An integer of at most 4300
digits can be written, and what is written denotes it. Every text that denotes no integer denotes a
binary number or is the symbol of the same text. -/
theorem integer_literals_are_spellings :
    (∀ text : String, (∀ c ∈ text.toList, c.toNat < 128) → ∀ n : Int,
      (atom text = .int n ↔ ∃ p : Literal.Spelling, Literal.strip text.toList = p.text ∧
        p.digits.values.length ≤ 4300 ∧ p.value = n)) ∧
    (∀ n : Int, (Nat.digits 10 n.natAbs).length ≤ 4300 →
      (Value.int n).source? = some (Decimal.intText n) ∧
      atom (String.ofList (Decimal.intText n)) = .int n) ∧
    ∀ text : String, (∀ n, atom text ≠ .int n) →
      (∃ x, atom text = .binary x) ∨ atom text = .symbol ⟨text⟩ := by
  refine ⟨fun text htext n ↦ ?_, fun n hn ↦ ?_, fun text hne ↦ ?_⟩
  · rw [atom_eq_int_iff]
    exact Literal.int?_eq_some_iff_strip htext
  · have hlt : n.natAbs < Decimal.tooLarge := Decimal.lt_tooLarge hn
    constructor
    · rw [Value.source?, Decimal.intText?, if_pos hlt]
    · rw [atom_eq_int_iff, String.toList_ofList, Literal.int?_intText hlt]
  · rcases atom_cases text with ⟨n, -, hn⟩ | hother
    · exact absurd hn (hne n)
    · exact hother

/-- A leading zero, an underscore and spaces do not matter, and the integer is written without them.
With two underscores in a row there is no spelling, and the text is a symbol. -/
theorem integer_literals_are_spellings_underscore :
    let p : Literal.Spelling := ⟨some .minus, .cons 0 true (.cons 4 false (.single 2))⟩
    Literal.strip "\t-0_42 \n".toList = p.text ∧ p.value = -42 ∧ atom "\t-0_42 \n" = .int (-42) ∧
      atom (String.ofList (Decimal.intText (-42))) = .int (-42) ∧
      (¬ ∃ q : Literal.Spelling, Literal.strip "0__42".toList = q.text ∧
        q.digits.values.length ≤ 4300) ∧
      ((∃ x, atom "0__42" = .binary x) ∨ atom "0__42" = .symbol ⟨"0__42"⟩) := by
  intro p
  have htext : Literal.strip "\t-0_42 \n".toList = p.text := by decide
  have hvalue : p.value = -42 := by decide
  have hne : ∀ n, atom "0__42" ≠ .int n := by
    have hsymbol : atom "0__42" = .symbol ⟨"0__42"⟩ := by decide
    simp [hsymbol]
  have hascii : (∀ c ∈ "\t-0_42 \n".toList, c.toNat < 128) ∧ ∀ c ∈ "0__42".toList, c.toNat < 128 :=
    ⟨List.all_iff_forall_prop.1 (by decide), List.all_iff_forall_prop.1 (by decide)⟩
  obtain ⟨hiff, hwritten, hother⟩ := integer_literals_are_spellings
  refine ⟨htext, hvalue, ?_, (hwritten (-42) (by decide)).2, ?_, hother _ hne⟩
  · exact (hiff _ hascii.1 _).2 ⟨p, htext, by decide, hvalue⟩
  · rintro ⟨q, hq, hlength⟩
    exact hne q.value ((hiff _ hascii.2 _).2 ⟨q, hq, hlength, rfl⟩)

end ReverseLisp
