import ReverseLisp.Reader.Cursor

/-!
# The grammar of the reader

What can be read is given by a grammar on tokens: a sequence of expressions is empty or an
expression before a sequence, and an expression is a literal, a marker before an expression, or a
sequence between brackets. A `Derivation` is a derivation tree of one expression. It has a frontier,
the tokens it derives, and a value, the expression they denote.

The reader does not follow the grammar: it counts brackets to find the end of a list, cuts the
tokens of the list out and reads them by themselves. `descendAll` does follow it, in one pass from
left to right. Both accept exactly the frontiers of derivations, and no two derivations have the
same frontier.

## The argument

Brackets are balanced in every frontier, so a count that starts behind an opening bracket passes
over whole derivations and stops at the closing bracket of its own list: this is
`splitAtCloser_tokensAll`. Hence cutting a list out of a frontier gives the frontier of its items.
Conversely the pieces that the reader cuts out are shorter than what they were cut from, and an
induction on their length finds a derivation for each.
-/

namespace ReverseLisp

namespace Token

theorem splitAtCloser_opening (depth : Nat) (text : String) (ts : List Token) :
    splitAtCloser depth (⟨.opening, text⟩ :: ts) =
      (splitAtCloser (depth + 1) ts).map fun p ↦ (⟨.opening, text⟩ :: p.1, p.2) := rfl

theorem splitAtCloser_closing_succ (depth : Nat) (text : String) (ts : List Token) :
    splitAtCloser (depth + 1) (⟨.closing, text⟩ :: ts) =
      (splitAtCloser depth ts).map fun p ↦ (⟨.closing, text⟩ :: p.1, p.2) := rfl

/-- A token that is no bracket does not count. -/
theorem splitAtCloser_of_ne {t : Token} (ho : t.kind ≠ .opening) (hc : t.kind ≠ .closing)
    (depth : Nat) (ts : List Token) :
    splitAtCloser depth (t :: ts) = (splitAtCloser depth ts).map fun p ↦ (t :: p.1, p.2) := by
  obtain ⟨kind, text⟩ := t
  cases kind with
  | opening => exact absurd rfl ho
  | closing => exact absurd rfl hc
  | _ => rfl

end Token

/-- A derivation of one expression, one constructor for each production. It records the texts of the
tokens, so that it determines them. -/
inductive Derivation where
  /-- A literal is an expression. -/
  | literal (text : String)
  /-- A reversal marker and an expression are an expression. -/
  | reversal (marker : String) (d : Derivation)
  /-- A quotation marker and an expression are an expression. -/
  | quotation (marker : String) (d : Derivation)
  /-- An opening bracket, a sequence of expressions and a closing bracket are an expression. -/
  | list (opener : String) (items : List Derivation) (closer : String)

namespace Derivation

mutual

/-- The frontier: the tokens derived, from left to right. -/
def tokens : Derivation → List Token
  | literal text => [⟨.literal, text⟩]
  | reversal marker d => ⟨.reverse, marker⟩ :: d.tokens
  | quotation marker d => ⟨.quote, marker⟩ :: d.tokens
  | list opener items closer => ⟨.opening, opener⟩ :: (tokensAll items ++ [⟨.closing, closer⟩])

/-- The frontier of a sequence of derivations. -/
def tokensAll : List Derivation → List Token
  | [] => []
  | d :: ds => d.tokens ++ tokensAll ds

end

mutual

/-- The expression denoted. -/
def value : Derivation → Value
  | literal text => atom text
  | reversal _ d => d.value.deepReverse
  | quotation _ d => .list [.symbol ⟨"quote"⟩, d.value]
  | list _ items _ => .list (values items)

/-- The expressions denoted by a sequence of derivations. -/
def values : List Derivation → List Value
  | [] => []
  | d :: ds => d.value :: values ds

end

theorem tokens_ne_nil (d : Derivation) : d.tokens ≠ [] := by
  cases d <;> simp [tokens]

theorem tokensAll_append (ds ds' : List Derivation) :
    tokensAll (ds ++ ds') = tokensAll ds ++ tokensAll ds' := by
  induction ds with
  | nil => rfl
  | cons d ds ih => rw [List.cons_append, tokensAll, ih, tokensAll, List.append_assoc]

theorem values_append (ds ds' : List Derivation) :
    values (ds ++ ds') = values ds ++ values ds' := by
  induction ds with
  | nil => rfl
  | cons d ds ih => rw [List.cons_append, values, ih, values, List.cons_append]

/-! ## Recursive descent -/

mutual

/-- Parses one expression from the front: its derivation and the tokens left. -/
def descend : (ts : List Token) → Option {p : Derivation × List Token // ts = p.1.tokens ++ p.2}
  | [] => none
  | ⟨.literal, text⟩ :: ts => some ⟨(literal text, ts), rfl⟩
  | ⟨.reverse, marker⟩ :: ts =>
    match descend ts with
    | none => none
    | some ⟨(d, rest), h⟩ => some ⟨(reversal marker d, rest), by rw [h]; rfl⟩
  | ⟨.quote, marker⟩ :: ts =>
    match descend ts with
    | none => none
    | some ⟨(d, rest), h⟩ => some ⟨(quotation marker d, rest), by rw [h]; rfl⟩
  | ⟨.opening, opener⟩ :: ts =>
    match descendAll ts with
    | some ⟨(items, ⟨.closing, closer⟩ :: rest), h⟩ =>
      some ⟨(list opener items closer, rest), by simp [h, tokens]⟩
    | _ => none
  | _ :: _ => none
termination_by ts => (ts.length, 0)

/-- Parses expressions up to a closing bracket or the end: their derivations and the tokens left. -/
def descendAll :
    (ts : List Token) → Option {p : List Derivation × List Token // ts = tokensAll p.1 ++ p.2}
  | [] => some ⟨([], []), rfl⟩
  | ⟨.closing, text⟩ :: ts => some ⟨([], ⟨.closing, text⟩ :: ts), rfl⟩
  | t :: ts =>
    match descend (t :: ts) with
    | none => none
    | some ⟨(d, rest), h⟩ =>
      match descendAll rest with
      | none => none
      | some ⟨(ds, rest'), h'⟩ =>
        some ⟨(d :: ds, rest'), by rw [h, h', tokensAll, List.append_assoc]⟩
termination_by ts => (ts.length, 1)
decreasing_by
  · exact Prod.Lex.right _ (by omega)
  · have hd := List.length_pos_iff.2 d.tokens_ne_nil
    have hlen := congrArg List.length h
    simp only [List.length_append] at hlen
    exact Prod.Lex.left _ _ (by omega)

end

theorem descendAll_of_descend {ts rest rest' : List Token} {d : Derivation} {ds : List Derivation}
    (h : (descend ts).map (·.1) = some (d, rest))
    (h' : (descendAll rest).map (·.1) = some (ds, rest')) :
    (descendAll ts).map (·.1) = some (d :: ds, rest') := by
  obtain ⟨⟨_, hp⟩, hd, rfl⟩ := Option.map_eq_some_iff.1 h
  obtain ⟨⟨_, hq⟩, hds, rfl⟩ := Option.map_eq_some_iff.1 h'
  match ts with
  | [] => simp [descend] at hd
  | ⟨.closing, _⟩ :: _ => simp [descend] at hd
  | ⟨.opening, _⟩ :: _ | ⟨.reverse, _⟩ :: _ | ⟨.quote, _⟩ :: _ | ⟨.literal, _⟩ :: _
  | ⟨.other _, _⟩ :: _ =>
    rw [descendAll, hd]
    · simp only [hds]
      rfl
    · simp

/-- Where a sequence of expressions has to stop. -/
def Stops (ts : List Token) : Prop := ∀ t ∈ ts.head?, t.kind = .closing

mutual

theorem descend_tokens (d : Derivation) (rest : List Token) :
    (descend (d.tokens ++ rest)).map (·.1) = some (d, rest) := by
  cases d with
  | literal text => rw [tokens, List.singleton_append, descend, Option.map_some]
  | reversal marker d =>
    obtain ⟨⟨_, hp⟩, hd, rfl⟩ := Option.map_eq_some_iff.1 (descend_tokens d rest)
    rw [tokens, List.cons_append, descend, hd, Option.map_some]
  | quotation marker d =>
    obtain ⟨⟨_, hp⟩, hd, rfl⟩ := Option.map_eq_some_iff.1 (descend_tokens d rest)
    rw [tokens, List.cons_append, descend, hd, Option.map_some]
  | list opener items closer =>
    have hitems := descendAll_tokensAll items (⟨.closing, closer⟩ :: rest) (by simp [Stops])
    obtain ⟨⟨_, hp⟩, hds, rfl⟩ := Option.map_eq_some_iff.1 hitems
    rw [tokens, List.cons_append, List.append_assoc, List.singleton_append, descend, hds,
      Option.map_some]

theorem descendAll_tokensAll (ds : List Derivation) (rest : List Token) (h : Stops rest) :
    (descendAll (tokensAll ds ++ rest)).map (·.1) = some (ds, rest) := by
  cases ds with
  | nil =>
    match rest with
    | [] => rw [tokensAll, List.append_nil, descendAll, Option.map_some]
    | ⟨kind, text⟩ :: rest =>
      cases h ⟨kind, text⟩ rfl
      rw [tokensAll, List.nil_append, descendAll, Option.map_some]
  | cons d ds =>
    rw [tokensAll, List.append_assoc]
    exact descendAll_of_descend (descend_tokens d _) (descendAll_tokensAll ds rest h)

end

/-- Parses all tokens. -/
def parse (ts : List Token) : Option (List Derivation) :=
  match descendAll ts with
  | some ⟨(ds, []), _⟩ => some ds
  | _ => none

theorem tokensAll_of_parse {ts : List Token} {ds : List Derivation} (h : parse ts = some ds) :
    tokensAll ds = ts := by
  unfold parse at h
  split at h
  · next h' _ =>
    cases h
    simpa using h'.symm
  · simp at h

/-- Recursive descent finds every derivation. -/
theorem parse_tokensAll (ds : List Derivation) : parse (tokensAll ds) = some ds := by
  have h := descendAll_tokensAll ds [] (by simp [Stops])
  rw [List.append_nil] at h
  obtain ⟨⟨_, hp⟩, hds, rfl⟩ := Option.map_eq_some_iff.1 h
  rw [parse, hds]

/-- Derivations are unambiguous. -/
theorem tokensAll_injective : Function.Injective tokensAll := by
  intro ds ds' h
  have hparse := parse_tokensAll ds
  rw [h, parse_tokensAll] at hparse
  exact (Option.some.inj hparse).symm

/-! ## Counting brackets in a frontier -/

mutual

/-- A count of brackets comes out of a derivation as it went in, and never stops inside. -/
theorem splitAtCloser_tokens (depth : Nat) (d : Derivation) (ts : List Token) :
    Token.splitAtCloser depth (d.tokens ++ ts) =
      (Token.splitAtCloser depth ts).map fun p ↦ (d.tokens ++ p.1, p.2) := by
  cases d with
  | literal text => exact Token.splitAtCloser_of_ne (by simp) (by simp) depth ts
  | reversal marker d =>
    rw [tokens, List.cons_append, Token.splitAtCloser_of_ne (by simp) (by simp),
      splitAtCloser_tokens depth d, Option.map_map]
    rfl
  | quotation marker d =>
    rw [tokens, List.cons_append, Token.splitAtCloser_of_ne (by simp) (by simp),
      splitAtCloser_tokens depth d, Option.map_map]
    rfl
  | list opener items closer =>
    rw [tokens, List.cons_append, List.append_assoc, Token.splitAtCloser_opening,
      splitAtCloser_tokensAll (depth + 1) items, List.singleton_append,
      Token.splitAtCloser_closing_succ, Option.map_map, Option.map_map]
    simp [Function.comp_def]

theorem splitAtCloser_tokensAll (depth : Nat) (ds : List Derivation) (ts : List Token) :
    Token.splitAtCloser depth (tokensAll ds ++ ts) =
      (Token.splitAtCloser depth ts).map fun p ↦ (tokensAll ds ++ p.1, p.2) := by
  cases ds with
  | nil => simp [tokensAll]
  | cons d ds =>
    rw [tokensAll, List.append_assoc, splitAtCloser_tokens depth d,
      splitAtCloser_tokensAll depth ds, Option.map_map]
    simp [Function.comp_def]

end

/-- The markers before an expression and what they stand before, as the reader cuts them out. -/
def extent : Derivation → Extent
  | literal text => ⟨[], .literal text⟩
  | reversal _ d => d.extent.mark .deepReverse
  | quotation _ d => d.extent.mark .quote
  | list _ items _ => ⟨[], .list (tokensAll items)⟩

theorem nextExtent_tokens (d : Derivation) (rest : List Token) :
    nextExtent (d.tokens ++ rest) = (.ok d.extent, rest) := by
  cases d with
  | literal text => rfl
  | reversal marker d =>
    rw [tokens, List.cons_append, nextExtent]
    simp [MarkerTable.transform?_standard, nextExtent_tokens d rest, extent, d.tokens_ne_nil,
      Except.map]
  | quotation marker d =>
    rw [tokens, List.cons_append, nextExtent]
    simp [MarkerTable.transform?_standard, nextExtent_tokens d rest, extent, d.tokens_ne_nil,
      Except.map]
  | list opener items closer =>
    rw [tokens, List.cons_append, List.append_assoc, nextExtent]
    simp [MarkerTable.transform?_standard, splitAtCloser_tokensAll, Token.splitAtCloser, extent]

end Derivation

/-! ## One step of the reader -/

theorem Extent.read_mark (f : Transform) (x : Extent) :
    (x.mark f).read = x.read.map f.apply := by
  obtain ⟨markers, core⟩ := x
  cases core with
  | literal text => rfl
  | list inner =>
    simp only [Extent.mark, Extent.read]
    cases (readAll inner).1 <;> rfl

/-- A marker is passed over, unless it is the last token. -/
theorem nextExtent_marker {t : Token} {f : Transform}
    (hf : MarkerTable.standard.transform? t.kind = some f) (ts : List Token) :
    nextExtent (t :: ts) =
      if ts.isEmpty then (.error (.nothingToRead (Text.quoted t.text)), [])
      else ((nextExtent ts).1.map (.mark f), (nextExtent ts).2) := by
  rw [nextExtent]
  simp only [hf]

theorem nextExtent_marker_eq_ok {t : Token} {f : Transform} {ts rest : List Token} {x : Extent}
    (hf : MarkerTable.standard.transform? t.kind = some f)
    (h : nextExtent (t :: ts) = (.ok x, rest)) :
    ∃ y : Extent, nextExtent ts = (.ok y, rest) ∧ x = y.mark f := by
  rw [nextExtent_marker hf] at h
  split at h
  · simp at h
  · rcases hy : nextExtent ts with ⟨y, rest'⟩
    rw [hy] at h
    cases y with
    | error e => simp [Except.map] at h
    | ok y =>
      cases h
      exact ⟨y, rfl, rfl⟩

/-- Reading cuts an expression out, reads it, and goes on behind it. -/
theorem readAll_cons (t : Token) (ts : List Token) :
    readAll (t :: ts) =
      match nextExtent (t :: ts) with
      | (.error e, rest) => (.error e, rest)
      | (.ok x, rest) =>
        match x.read with
        | .error e => (.error e, rest)
        | .ok v => consResult v (readAll rest) := by
  rw [readAll]
  split
  · next h => rw [h]
  · next h => simp only [h, Extent.read]
  · next inner rest h =>
    simp only [h, Extent.read]
    cases (readAll inner).1 <;> rfl

theorem readAll_of_read_ok {ts rest : List Token} {x : Extent} {v : Value}
    (h : nextExtent ts = (.ok x, rest)) (hx : x.read = .ok v) :
    readAll ts = consResult v (readAll rest) := by
  cases ts with
  | nil => simp [nextExtent] at h
  | cons t ts => simp only [readAll_cons, h, hx]

namespace Derivation

mutual

theorem read_extent (d : Derivation) : d.extent.read = .ok d.value := by
  cases d with
  | literal text => rfl
  | reversal marker d =>
    rw [extent, Extent.read_mark, read_extent d]
    rfl
  | quotation marker d =>
    rw [extent, Extent.read_mark, read_extent d]
    rfl
  | list opener items closer =>
    simp only [extent, Extent.read, readAll_tokensAll items]
    rfl

/-- The reader reads every frontier, and reads it as the grammar says. -/
theorem readAll_tokensAll (ds : List Derivation) :
    readAll (tokensAll ds) = (.ok (values ds), []) := by
  cases ds with
  | nil => simp [tokensAll, readAll, values]
  | cons d ds =>
    rw [tokensAll, readAll_of_read_ok (nextExtent_tokens d _) (read_extent d),
      readAll_tokensAll ds]
    rfl

end

/-- What the reader reads has a derivation, if the lists that it cuts out have. -/
theorem exists_of_nextExtent {ts rest : List Token} {x : Extent} {v : Value}
    (h : nextExtent ts = (.ok x, rest)) (hv : x.read = .ok v)
    (hlist : ∀ inner vs, x.core = .list inner → (readAll inner).1 = .ok vs →
      ∃ ds, tokensAll ds = inner ∧ values ds = vs) :
    ∃ d : Derivation, d.tokens ++ rest = ts ∧ d.value = v := by
  induction ts generalizing x v with
  | nil => simp [nextExtent] at h
  | cons t ts ih =>
    obtain ⟨kind, text⟩ := t
    -- a marker passes the question on to the tokens behind it
    have marked : ∀ f : Transform, MarkerTable.standard.transform? kind = some f →
        ∃ (d : Derivation) (w : Value), d.tokens ++ rest = ts ∧ d.value = w ∧ f.apply w = v := by
      intro f hf
      obtain ⟨y, hy, rfl⟩ := nextExtent_marker_eq_ok hf h
      rw [Extent.read_mark] at hv
      cases hw : y.read with
      | error e => simp [hw, Except.map] at hv
      | ok w =>
        obtain ⟨d, hd, hdw⟩ := ih hy hw hlist
        rw [hw] at hv
        exact ⟨d, w, hd, hdw, Except.ok.inj hv⟩
    cases kind with
    | reverse =>
      obtain ⟨d, w, hd, hw, rfl⟩ := marked .deepReverse rfl
      exact ⟨reversal text d, by rw [tokens, List.cons_append, hd], by rw [value, hw]; rfl⟩
    | quote =>
      obtain ⟨d, w, hd, hw, rfl⟩ := marked .quote rfl
      exact ⟨quotation text d, by rw [tokens, List.cons_append, hd], by rw [value, hw]; rfl⟩
    | literal =>
      cases h
      cases hv
      exact ⟨literal text, rfl, rfl⟩
    | opening =>
      cases hsplit : Token.splitAtCloser 0 ts with
      | none => simp [nextExtent, MarkerTable.transform?_standard, hsplit] at h
      | some p =>
        obtain ⟨inner, rest'⟩ := p
        obtain ⟨⟨kind, closer⟩, hk, rfl⟩ := Token.splitAtCloser_eq_some hsplit
        cases hk
        simp only [nextExtent, MarkerTable.transform?_standard, hsplit] at h
        cases h
        cases hinner : (readAll inner).1 with
        | error e => simp [Extent.read, hinner, Except.map] at hv
        | ok vs =>
          obtain ⟨ds, rfl, rfl⟩ := hlist inner vs rfl hinner
          simp only [Extent.read, hinner, Except.map, Except.ok.injEq] at hv
          refine ⟨list text ds closer, ?_, hv⟩
          simp [tokens]
    | closing => simp [nextExtent, MarkerTable.transform?_standard] at h
    | other name => simp [nextExtent, MarkerTable.transform?_standard] at h

/-- By induction on the number of tokens, which is smaller for a list cut out and for what is
left. -/
theorem exists_of_readAll {ts : List Token} {vs : List Value} (h : (readAll ts).1 = .ok vs) :
    ∃ ds, tokensAll ds = ts ∧ values ds = vs := by
  induction hn : ts.length using Nat.strongRecOn generalizing ts vs with
  | _ n ih =>
    subst hn
    cases ts with
    | nil =>
      simp only [readAll, Except.ok.injEq] at h
      exact ⟨[], rfl, h⟩
    | cons t ts =>
      rw [readAll_cons] at h
      cases hx : nextExtent (t :: ts) with
      | mk x rest =>
        cases x with
        | error e => simp [hx] at h
        | ok x =>
          obtain ⟨hrest, hinner⟩ := length_of_nextExtent hx
          cases hv : x.read with
          | error e => simp [hx, hv] at h
          | ok v =>
            simp only [hx, hv, consResult] at h
            cases hws : (readAll rest).1 with
            | error e => simp [hws, Except.map] at h
            | ok ws =>
              rw [hws] at h
              cases h
              obtain ⟨d, hd, rfl⟩ := exists_of_nextExtent hx hv
                fun inner vs hcore hvs ↦ ih _ (hinner inner hcore) hvs rfl
              obtain ⟨ds, rfl, rfl⟩ := ih _ hrest hws rfl
              exact ⟨d :: ds, hd, rfl⟩

end Derivation

/-! ## The reader computes its grammar -/

theorem Cursor.readAll_ofTokens (ts : List Token) :
    (Cursor.ofTokens ts).readAll.1 = (ReverseLisp.readAll ts).1 := rfl

open ReverseLisp.Derivation

/-- **The reader reads what the grammar derives.** Reading all of a list of tokens gives `vs`
without an error exactly if the tokens derive `vs`. No tokens have two derivations, and recursive
descent in one pass accepts the same tokens and gives the same expressions. -/
theorem readAll_eq_ok_iff_derives (ts : List Token) (vs : List Value) :
    ((Cursor.ofTokens ts).readAll.1 = .ok vs ↔ ∃ ds, tokensAll ds = ts ∧ values ds = vs) ∧
      Function.Injective tokensAll ∧
      (Cursor.ofTokens ts).readAll.1.toOption = (parse ts).map values := by
  rw [Cursor.readAll_ofTokens]
  refine ⟨⟨exists_of_readAll, ?_⟩, tokensAll_injective, ?_⟩
  · rintro ⟨ds, rfl, rfl⟩
    rw [readAll_tokensAll]
  · cases hread : (readAll ts).1 with
    | ok ws =>
      obtain ⟨ds, rfl, rfl⟩ := exists_of_readAll hread
      rw [parse_tokensAll]
      rfl
    | error e =>
      cases hparse : parse ts with
      | none => rfl
      | some ds =>
        -- a parsed list of tokens is a frontier, and those are read without an error
        rw [← tokensAll_of_parse hparse, readAll_tokensAll] at hread
        cases hread

end ReverseLisp
