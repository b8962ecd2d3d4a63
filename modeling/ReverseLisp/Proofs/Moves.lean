import ReverseLisp.Proofs.Matching

/-!
# How a cursor moves

A host may look at the next token, step over it, ask whether one is left, read an expression or read
all that are left, in any order and also after a failure. Whatever it does, the tokens stay as they
are and the position only grows, up to the end.

Reading an expression moves the position behind the tokens of that expression, and these tokens by
themselves are read as that expression and nothing else. If it fails, the position is behind the
markers, and behind a list as well if the list is closed and the failure lies inside.

## The argument

Reading first passes over the markers and then looks at one token (`nextExtent_cases`). What has
been read has a derivation, so it took up the frontier of one expression
(`exists_derivation_of_readExpr`). Since this is never empty, reading all expressions, which reads
one after another until no token is left (`Cursor.readAll_of_atEnd_eq_false`), comes to an end.
-/

namespace ReverseLisp

open ReverseLisp.Token ReverseLisp.Derivation

/-! ## Behind the markers -/

theorem isMarker_iff {t : Token} :
    t.IsMarker ↔ ∃ f, MarkerTable.standard.transform? t.kind = some f := by
  obtain ⟨kind, text⟩ := t
  cases kind <;> simp [IsMarker, MarkerTable.transform?_standard]

/-- What the reader does next is decided by the token behind the markers: it is a literal, or an
opening bracket that has a matching one, or the reader stops there. -/
theorem nextExtent_cases (ts : List Token) :
    (∃ e, nextExtent ts = (.error e, ts.dropWhile (·.IsMarker)) ∧
      ∀ opener more, ts.dropWhile (·.IsMarker) = ⟨.opening, opener⟩ :: more →
        splitAtCloser 0 more = none) ∨
    (∃ markers text rest, nextExtent ts = (.ok ⟨markers, .literal text⟩, rest) ∧
      ts.dropWhile (·.IsMarker) = ⟨.literal, text⟩ :: rest) ∨
    ∃ markers inner rest opener more, nextExtent ts = (.ok ⟨markers, .list inner⟩, rest) ∧
      ts.dropWhile (·.IsMarker) = ⟨.opening, opener⟩ :: more ∧
      splitAtCloser 0 more = some (inner, rest) := by
  induction ts with
  | nil => exact .inl ⟨_, rfl, by simp⟩
  | cons t ts ih =>
    by_cases hm : t.IsMarker
    · obtain ⟨f, hf⟩ := isMarker_iff.1 hm
      rw [List.dropWhile_cons, if_pos (decide_eq_true hm), nextExtent_marker hf]
      cases ts with
      | nil => exact .inl ⟨_, rfl, by simp⟩
      | cons u us =>
        obtain ⟨e, h, hnone⟩ | ⟨markers, text, rest, h, hcore⟩ |
          ⟨markers, inner, rest, opener, more, h, hcore, hsplit⟩ := ih
        · exact .inl ⟨e, by rw [h]; rfl, hnone⟩
        · exact .inr (.inl ⟨f :: markers, text, rest, by rw [h]; rfl, hcore⟩)
        · exact .inr (.inr ⟨f :: markers, inner, rest, opener, more, by rw [h]; rfl, hcore, hsplit⟩)
    · rw [List.dropWhile_cons, if_neg (by simpa using hm)]
      obtain ⟨kind, text⟩ := t
      cases kind with
      | reverse => exact absurd (.inl rfl) hm
      | quote => exact absurd (.inr rfl) hm
      | literal => exact .inr (.inl ⟨[], text, ts, rfl, rfl⟩)
      | opening =>
        rcases hsplit : splitAtCloser 0 ts with _ | ⟨inner, rest⟩
        · refine .inl ⟨.unterminatedList, ?_, fun opener more heq ↦ ?_⟩
          · simp only [nextExtent, MarkerTable.transform?_standard, hsplit]
          · cases heq
            exact hsplit
        · refine .inr (.inr ⟨[], inner, rest, text, ts, ?_, rfl, hsplit⟩)
          simp only [nextExtent, MarkerTable.transform?_standard, hsplit]
      | closing => exact .inl ⟨_, rfl, by simp⟩
      | other name => exact .inl ⟨_, rfl, by simp⟩

/-! ## Reading one expression -/

/-- What is read as an expression is the frontier of one derivation. -/
theorem exists_derivation_of_readExpr {ts rest : List Token} {v : Value}
    (h : readExpr ts = (.ok v, rest)) : ∃ d : Derivation, d.tokens ++ rest = ts ∧ d.value = v := by
  unfold readExpr at h
  rcases hx : nextExtent ts with ⟨e | x, rest'⟩
  · rw [hx] at h
    cases h
  · rw [hx] at h
    obtain ⟨hv, rfl⟩ := Prod.mk.inj h
    exact exists_of_nextExtent hx hv fun inner vs _ hinner ↦ exists_of_readAll hinner

/-- Where reading an expression fails: behind the markers, or inside a list that comes there. -/
theorem readExpr_error_cases {ts rest : List Token} {e : Error}
    (h : readExpr ts = (.error e, rest)) :
    (rest = ts.dropWhile (·.IsMarker) ∧
      ∀ opener more, ts.dropWhile (·.IsMarker) = ⟨.opening, opener⟩ :: more →
        splitAtCloser 0 more = none) ∨
    ∃ inner opener more, ts.dropWhile (·.IsMarker) = ⟨.opening, opener⟩ :: more ∧
      splitAtCloser 0 more = some (inner, rest) ∧ (readAll inner).1 = .error e := by
  unfold readExpr at h
  obtain ⟨e', hx, hnone⟩ | ⟨markers, text, rest', hx, -⟩ |
    ⟨markers, inner, rest', opener, more, hx, hcore, hsplit⟩ := nextExtent_cases ts
  · rw [hx] at h
    cases h
    exact .inl ⟨rfl, hnone⟩
  · rw [hx] at h
    cases h
  · rw [hx] at h
    obtain ⟨he, rfl⟩ := Prod.mk.inj h
    rcases hinner : (readAll inner).1 with e' | vs
    · simp only [Except.bind, Extent.read, hinner, Except.map, Except.error.injEq] at he
      exact .inr ⟨inner, opener, more, hcore, hsplit, by rw [hinner, he]⟩
    · simp [Except.bind, Extent.read, hinner, Except.map] at he

/-- Reading an expression leaves a part of the tokens up to their end. -/
theorem readExpr_suffix (ts : List Token) : (readExpr ts).2 <:+ ts := by
  rcases h : readExpr ts with ⟨e | v, rest⟩
  · obtain ⟨rfl, -⟩ | ⟨inner, opener, more, hcore, hsplit, -⟩ := readExpr_error_cases h
    · exact List.dropWhile_suffix _
    · obtain ⟨closer, -, rfl⟩ := splitAtCloser_eq_some hsplit
      have hrest : rest <:+ ts.dropWhile (·.IsMarker) :=
        ⟨⟨.opening, opener⟩ :: (inner ++ [closer]), by simp [hcore]⟩
      exact hrest.trans (List.dropWhile_suffix _)
  · obtain ⟨d, hd, -⟩ := exists_derivation_of_readExpr h
    exact ⟨d.tokens, hd⟩

/-- Reading all expressions reads one after another. -/
theorem readAll_cons_eq (t : Token) (ts : List Token) :
    readAll (t :: ts) =
      match readExpr (t :: ts) with
      | (.error e, rest) => (.error e, rest)
      | (.ok v, rest) => consResult v (readAll rest) := by
  rw [readAll_cons, readExpr]
  rcases nextExtent (t :: ts) with ⟨e | x, rest⟩
  · rfl
  · rcases hv : x.read with e | v <;> simp [Except.bind, hv]

namespace Cursor

/-! ## Positions -/

/-- The position is not behind the end. -/
def InBounds (c : Cursor) : Prop := c.position ≤ c.tokens.length

/-- The position behind the markers that come next. -/
def behindMarkers (c : Cursor) : Nat := c.position + (c.rest.takeWhile (·.IsMarker)).length

theorem drop_behindMarkers (c : Cursor) :
    c.tokens.drop c.behindMarkers = c.rest.dropWhile (·.IsMarker) := by
  have hrest : c.rest.takeWhile (·.IsMarker) ++ c.rest.dropWhile (·.IsMarker) = c.rest :=
    List.takeWhile_append_dropWhile
  calc c.tokens.drop c.behindMarkers
      = c.rest.drop (c.rest.takeWhile (·.IsMarker)).length := by
        rw [behindMarkers, rest, List.drop_drop]
    _ = (c.rest.takeWhile (·.IsMarker) ++ c.rest.dropWhile (·.IsMarker)).drop
          (c.rest.takeWhile (·.IsMarker)).length := by rw [hrest]
    _ = c.rest.dropWhile (·.IsMarker) := List.drop_left

/-- A cursor moves behind the tokens that have been read. -/
theorem position_moveTo {c : Cursor} (hc : c.InBounds) {front rest : List Token}
    (h : front ++ rest = c.rest) : (c.moveTo rest).position = c.position + front.length := by
  have hlength : front.length + rest.length = c.tokens.length - c.position := by
    rw [← List.length_append, h, Cursor.rest, List.length_drop]
  have hbounds : c.position ≤ c.tokens.length := hc
  show c.tokens.length - rest.length = c.position + front.length
  omega

theorem rest_moveTo {c : Cursor} (hc : c.InBounds) {front rest : List Token}
    (h : front ++ rest = c.rest) : (c.moveTo rest).rest = rest := by
  show c.tokens.drop (c.moveTo rest).position = rest
  rw [position_moveTo hc h, ← List.drop_drop]
  show c.rest.drop front.length = rest
  rw [← h, List.drop_left]

theorem readExpr_eq {c c' : Cursor} {r : Except Error Value} (h : c.readExpr = (r, c')) :
    ∃ rest, ReverseLisp.readExpr c.rest = (r, rest) ∧ c' = c.moveTo rest := by
  obtain ⟨rfl, rfl⟩ := Prod.mk.inj h
  exact ⟨_, rfl, rfl⟩

/-- An expression that was read is what the tokens that were passed over are read as. -/
theorem readExpr_ok {c c' : Cursor} {v : Value} (hc : c.InBounds) (h : c.readExpr = (.ok v, c')) :
    c.position < c'.position ∧
      (ofTokens (c.tokens.extract c.position c'.position)).readAll.1 = .ok [v] := by
  obtain ⟨rest, hread, rfl⟩ := readExpr_eq h
  obtain ⟨d, hd, rfl⟩ := exists_derivation_of_readExpr hread
  have hposition := position_moveTo hc hd
  have hslice : c.tokens.extract c.position (c.moveTo rest).position = tokensAll [d] := by
    show c.rest.take _ = _
    rw [hposition, Nat.add_sub_cancel_left, ← hd, List.take_left]
    simp [tokensAll]
  constructor
  · have := List.length_pos_iff.2 d.tokens_ne_nil
    omega
  · rw [hslice, readAll_ofTokens, readAll_tokensAll]
    rfl

/-- A failure leaves the cursor behind the markers, or behind a closed list that comes there and has
the failure inside. -/
theorem readExpr_error {c c' : Cursor} {e : Error} (hc : c.InBounds)
    (h : c.readExpr = (.error e, c')) :
    ((¬ ∃ i, OpensAt c.tokens c.behindMarkers ∧ sublistEnd c.tokens c.behindMarkers = .ok i) ∧
      c'.position = c.behindMarkers) ∨
    ∃ i, OpensAt c.tokens c.behindMarkers ∧ sublistEnd c.tokens c.behindMarkers = .ok i ∧
      c'.position = i + 1 ∧
      (ofTokens (c.tokens.extract (c.behindMarkers + 1) i)).readAll.1 = .error e := by
  obtain ⟨rest, hread, rfl⟩ := readExpr_eq h
  obtain ⟨rfl, hnone⟩ | ⟨inner, opener, more, hcore, hsplit, hinner⟩ := readExpr_error_cases hread
  · refine .inl ⟨?_, position_moveTo hc List.takeWhile_append_dropWhile⟩
    rintro ⟨i, hopens, hend⟩
    obtain ⟨opener, more, hdrop⟩ := opensAt_iff.1 hopens
    obtain ⟨inner, rest, hsplit, -⟩ := (sublistEnd_eq_ok_iff_of_drop hdrop).1 hend
    rw [drop_behindMarkers] at hdrop
    rw [hnone opener more hdrop] at hsplit
    cases hsplit
  · have hdrop := c.drop_behindMarkers.trans hcore
    have hend := (sublistEnd_eq_ok_iff_of_drop hdrop).2 ⟨inner, rest, hsplit, rfl⟩
    obtain ⟨closer, -, rfl⟩ := splitAtCloser_eq_some hsplit
    refine .inr ⟨_, opensAt_iff.2 ⟨opener, _, hdrop⟩, hend, ?_, ?_⟩
    · have hfront : (c.rest.takeWhile (·.IsMarker) ++ ⟨.opening, opener⟩ :: (inner ++ [closer])) ++
          rest = c.rest := by
        conv_rhs => rw [← List.takeWhile_append_dropWhile (p := (·.IsMarker)) (l := c.rest), hcore]
        simp
      rw [position_moveTo hc hfront, behindMarkers]
      simp only [List.length_append, List.length_cons, List.length_nil]
      omega
    · have hslice : c.tokens.extract (c.behindMarkers + 1) (c.behindMarkers + 1 + inner.length) =
          inner := by
        rw [List.extract, Nat.add_sub_cancel_left, ← List.tail_drop, hdrop, List.tail_cons,
          List.take_left]
      rw [hslice, readAll_ofTokens, hinner]

/-! ## Reading what is left -/

theorem rest_eq_nil_iff {c : Cursor} : c.rest = [] ↔ c.atEnd = true := by
  simp [rest, atEnd]

theorem readAll_of_atEnd {c : Cursor} (hc : c.InBounds) (h : c.atEnd = true) :
    c.readAll = (.ok [], c) := by
  have hposition := position_moveTo hc (List.append_nil c.rest)
  rw [rest_eq_nil_iff.2 h] at hposition
  rw [readAll, rest_eq_nil_iff.2 h, ReverseLisp.readAll]
  exact Prod.ext rfl (congrArg (Cursor.mk c.tokens) hposition)

/-- Reading what is left reads an expression and then what is left. -/
theorem readAll_of_atEnd_eq_false {c : Cursor} (hc : c.InBounds) (h : c.atEnd = false) :
    c.readAll =
      match c.readExpr with
      | (.error e, c') => (.error e, c')
      | (.ok v, c') => (c'.readAll.1.map (v :: ·), c'.readAll.2) := by
  cases hrest : c.rest with
  | nil =>
    rw [rest_eq_nil_iff.1 hrest] at h
    cases h
  | cons t ts =>
    rw [readAll, readExpr, hrest, readAll_cons_eq]
    rcases hread : ReverseLisp.readExpr (t :: ts) with ⟨e | v, rest⟩
    · rfl
    · rw [← hrest] at hread
      obtain ⟨d, hd, -⟩ := exists_derivation_of_readExpr hread
      have hrest' := rest_moveTo hc hd
      simp only [readAll, hrest', consResult]
      rfl

/-! ## Any calls -/

/-- `c'` has the tokens of `c` and is not before `c`, nor behind the end. -/
structure Leads (c c' : Cursor) : Prop where
  tokens_eq : c'.tokens = c.tokens
  position_le : c.position ≤ c'.position
  inBounds : c'.InBounds

theorem Leads.refl {c : Cursor} (hc : c.InBounds) : c.Leads c := ⟨rfl, Nat.le_refl _, hc⟩

theorem Leads.trans {c₁ c₂ c₃ : Cursor} (h : c₁.Leads c₂) (h' : c₂.Leads c₃) : c₁.Leads c₃ :=
  ⟨h'.tokens_eq.trans h.tokens_eq, h.position_le.trans h'.position_le, h'.inBounds⟩

theorem moveTo_leads {c : Cursor} (hc : c.InBounds) {rest : List Token} (h : rest <:+ c.rest) :
    c.Leads (c.moveTo rest) := by
  obtain ⟨front, hfront⟩ := h
  refine ⟨rfl, ?_, Nat.sub_le _ _⟩
  rw [position_moveTo hc hfront]
  exact Nat.le_add_right _ _

theorem readExpr_leads {c : Cursor} (hc : c.InBounds) : c.Leads c.readExpr.2 :=
  moveTo_leads hc (readExpr_suffix c.rest)

/-- By induction on the number of tokens left, which every expression that is read makes smaller. -/
theorem readAll_leads {c : Cursor} (hc : c.InBounds) : c.Leads c.readAll.2 := by
  induction hn : c.tokens.length - c.position using Nat.strongRecOn generalizing c with
  | _ n ih =>
    subst hn
    cases hend : c.atEnd with
    | true =>
      rw [readAll_of_atEnd hc hend]
      exact .refl hc
    | false =>
      have hleads := readExpr_leads hc
      rw [readAll_of_atEnd_eq_false hc hend]
      rcases hread : c.readExpr with ⟨e | v, c'⟩
      · rwa [hread] at hleads
      · rw [hread] at hleads
        have hlt := (readExpr_ok hc hread).1
        have hbounds : c'.position ≤ c'.tokens.length := hleads.inBounds
        have hless : c'.tokens.length - c'.position < c.tokens.length - c.position := by
          rw [hleads.tokens_eq] at hbounds ⊢
          omega
        exact hleads.trans (ih _ hless hleads.inBounds rfl)

theorem advance_leads {c : Cursor} (hc : c.InBounds) : c.Leads c.advance.2 := by
  unfold advance
  cases ht : c.peek? with
  | none => exact .refl hc
  | some t => exact ⟨rfl, Nat.le_succ _, (List.getElem?_eq_some_iff.1 ht).1⟩

/-- What a host can ask of a cursor. -/
inductive Call where
  | peek
  | advance
  | atEnd
  | readExpr
  | readAll
deriving DecidableEq

/-- The cursor after a call, which may have failed. Looking at a cursor does not change it. -/
def after (c : Cursor) : Call → Cursor
  | .peek | .atEnd => c
  | .advance => c.advance.2
  | .readExpr => c.readExpr.2
  | .readAll => c.readAll.2

/-- The cursor after several calls. -/
def afterAll (c : Cursor) (calls : List Call) : Cursor := calls.foldl after c

theorem after_leads {c : Cursor} (hc : c.InBounds) (call : Call) : c.Leads (c.after call) := by
  cases call with
  | peek => exact .refl hc
  | advance => exact advance_leads hc
  | atEnd => exact .refl hc
  | readExpr => exact readExpr_leads hc
  | readAll => exact readAll_leads hc

theorem afterAll_leads {c : Cursor} (hc : c.InBounds) (calls : List Call) :
    c.Leads (c.afterAll calls) := by
  induction calls generalizing c with
  | nil => exact .refl hc
  | cons call calls ih =>
    have hcall := after_leads hc call
    exact hcall.trans (ih hcall.inBounds)

/-- **A cursor only moves forward.** After any calls on a cursor that started before the first
token, failed ones included, the tokens are as they were and the position is not behind the end;
further calls never move it back. An expression that is read takes up at least one token, and the
tokens that it takes up are read by themselves as this expression alone. A failure to read one
leaves the position behind the markers that came next, unless an opening bracket comes there that
has a matching one: then the failure is inside that list, and the position is behind it. -/
theorem calls_move_forward (ts : List Token) (calls : List Call) :
    let c := (ofTokens ts).afterAll calls
    c.tokens = ts ∧ c.position ≤ ts.length ∧
      (∀ more, c.position ≤ (c.afterAll more).position) ∧
      (∀ v c', c.readExpr = (.ok v, c') → c.position < c'.position ∧
        (ofTokens (ts.extract c.position c'.position)).readAll.1 = .ok [v]) ∧
      ∀ e c', c.readExpr = (.error e, c') →
        ((¬ ∃ i, OpensAt ts c.behindMarkers ∧ sublistEnd ts c.behindMarkers = .ok i) ∧
          c'.position = c.behindMarkers) ∨
        ∃ i, OpensAt ts c.behindMarkers ∧ sublistEnd ts c.behindMarkers = .ok i ∧
          c'.position = i + 1 ∧
          (ofTokens (ts.extract (c.behindMarkers + 1) i)).readAll.1 = .error e := by
  intro c
  have hleads : (ofTokens ts).Leads c := afterAll_leads (Nat.zero_le _) calls
  have hc := hleads.inBounds
  have hts : c.tokens = ts := hleads.tokens_eq
  refine ⟨hts, hts ▸ hc, fun more ↦ (afterAll_leads hc more).position_le, ?_, ?_⟩
  · intro v c' h
    exact hts ▸ readExpr_ok hc h
  · intro e c' h
    exact hts ▸ readExpr_error hc h

/-- In `a '(b $) c` the second expression cannot be read, for a marker in its list has nothing
behind it. The cursor is behind the list then, and the third expression is read from there. -/
theorem calls_move_forward_inside :
    let ts := tokenize "a '(b $) c"
    let c := (ofTokens ts).afterAll [.peek, .readExpr]
    let c' := (ofTokens ts).afterAll [.peek, .readExpr, .readExpr]
    c.behindMarkers = 2 ∧ OpensAt ts 2 ∧ sublistEnd ts 2 = .ok 5 ∧
      (∃ e, c.readExpr = (.error e, c') ∧ c'.position = 6 ∧
        (ofTokens (ts.extract 3 5)).readAll.1 = .error e) ∧
      ∃ v c'', c'.readExpr = (.ok v, c'') ∧ c'.position < c''.position ∧
        (ofTokens (ts.extract c'.position c''.position)).readAll.1 = .ok [v] := by
  intro ts c c'
  have hmarkers : c.behindMarkers = 2 := by decide +kernel
  have hopens : OpensAt ts 2 := ⟨⟨.opening, "("⟩, by decide +kernel, rfl⟩
  have hend : sublistEnd ts 2 = .ok 5 := by decide +kernel
  have hresults : c.readExpr.1.isOk = false ∧ c'.readExpr.1.isOk = true := by decide +kernel
  obtain ⟨-, -, -, -, herror⟩ := calls_move_forward ts [.peek, .readExpr]
  obtain ⟨-, -, -, hok, -⟩ := calls_move_forward ts [.peek, .readExpr, .readExpr]
  refine ⟨hmarkers, hopens, hend, ?_, ?_⟩
  · rcases hread : c.readExpr with ⟨e | v, c₁⟩
    · obtain rfl : c₁ = c' := congrArg Prod.snd hread.symm
      obtain ⟨hnone, -⟩ | ⟨i, -, hi, hposition, hinner⟩ := herror e _ hread
      · exact absurd ⟨5, hmarkers.symm ▸ hopens, hmarkers.symm ▸ hend⟩ hnone
      · change sublistEnd ts c.behindMarkers = _ at hi
        change (ofTokens (ts.extract (c.behindMarkers + 1) i)).readAll.1 = _ at hinner
        rw [hmarkers] at hi hinner
        obtain rfl : 5 = i := Except.ok.inj (hend.symm.trans hi)
        exact ⟨e, rfl, hposition, hinner⟩
    · rw [hread] at hresults
      cases hresults.1
  · rcases hread : c'.readExpr with ⟨e | v, c₁⟩
    · rw [hread] at hresults
      cases hresults.2
    · exact ⟨v, c₁, rfl, hok v c₁ hread⟩

end Cursor

end ReverseLisp
