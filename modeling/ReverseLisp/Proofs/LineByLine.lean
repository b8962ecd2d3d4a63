import ReverseLisp.Proofs.Growth
import ReverseLisp.Proofs.Joining

/-!
# Evaluating a program line by line

The loop cuts a text into *chunks*: lines that leave a bracket open until the last of them closes
all. Where the chunks end is a matter of counting brackets, while the expressions of the text are a
matter of its grammar. The two agree unless a chunk ends with a marker, whose expression would then
be cut off: every chunk can be read by itself, and together the chunks have the expressions of the
text. So evaluating chunk by chunk evaluates the text.

## The argument

A line ends with a line feed, so the tokens of a text are those of its lines. The depth of brackets
is zero where a chunk starts and never negative, hence it is never negative within the chunk, and it
is zero again at the end. With its markers before tokens of its own, the chunk fulfils the condition
of `exists_read_iff_flat`, and so does what is left.
-/

namespace ReverseLisp

open ReverseLisp.Token

/-! ## Lines -/

theorem ne_nil_of_mem_textLines {cs line : List Char} (h : line ∈ textLines cs) : line ≠ [] := by
  induction cs with
  | nil => cases h
  | cons c cs ih =>
    rw [textLines] at h
    split at h
    · rcases List.mem_cons.1 h with rfl | h
      · exact List.cons_ne_nil _ _
      · exact ih h
    · cases hcs : textLines cs with
      | nil =>
        rw [hcs] at h
        rw [List.mem_singleton.1 h]
        exact List.cons_ne_nil _ _
      | cons l ls =>
        rw [hcs] at h ih
        rcases List.mem_cons.1 h with rfl | h
        · exact List.cons_ne_nil _ _
        · exact ih (List.mem_cons_of_mem _ h)

/-- No literal goes on from one line into the next. -/
def LinesApart (lines : List (List Char)) : Prop :=
  ∀ before after, lines = before ++ after → Apart before.flatten after.flatten

theorem LinesApart.of_append {before after : List (List Char)} (h : LinesApart (before ++ after)) :
    LinesApart before ∧ LinesApart after := by
  constructor
  · rintro first second rfl
    have hapart := h first (second ++ after) (List.append_assoc _ _ _)
    rw [List.flatten_append] at hapart
    exact hapart.of_prefix (List.prefix_append _ _)
  · rintro first second rfl
    have hapart := h (before ++ first) second (List.append_assoc _ _ _).symm
    rw [List.flatten_append] at hapart
    exact hapart.of_suffix (List.suffix_append _ _)

/-- The lines of a text are apart: there is a line feed between them. -/
theorem linesApart_textLines (cs : List Char) : LinesApart (textLines cs) := by
  intro before after h
  induction cs generalizing before with
  | nil =>
    obtain ⟨rfl, rfl⟩ := List.append_eq_nil_iff.1 h.symm
    exact apart_nil _
  | cons c cs ih =>
    cases before with
    | nil => exact fun c' hc' ↦ by cases hc'
    | cons line before =>
      rw [List.cons_append, textLines] at h
      split at h
      · next hfeed =>
        obtain ⟨rfl, htail⟩ := List.cons.inj h
        have hlit : isLiteral c = false := by
          subst hfeed
          decide
        exact (ih before htail).append_left fun _ ↦ apart_of_getLast? rfl hlit _
      · cases hcs : textLines cs with
        | nil =>
          rw [hcs] at h
          have hafter : after = [] := (List.append_eq_nil_iff.1 (List.cons.inj h).2.symm).2
          rw [hafter]
          exact apart_nil _
        | cons l ls =>
          rw [hcs] at h ih
          obtain ⟨rfl, rfl⟩ := List.cons.inj h
          have hl : l ≠ [] := ne_nil_of_mem_textLines (hcs ▸ List.mem_cons_self)
          have hrest : Apart (l ++ before.flatten) after.flatten := ih (l :: before) rfl
          show Apart ([c] ++ (l ++ before.flatten)) after.flatten
          exact hrest.append_left fun hnil ↦ absurd (List.append_eq_nil_iff.1 hnil).1 hl

/-! ## Chunks -/

/-- From depth `depth` on, the lines leave a bracket open until the last of them closes all. -/
def Closes (depth : Int) : List (List Char) → Prop
  | [] => False
  | [line] => depth + bracketDepth line = 0
  | line :: lines => 0 < depth + bracketDepth line ∧ Closes (depth + bracketDepth line) lines

/-- From depth `depth` on, every one of the lines leaves a bracket open. -/
def StaysOpen (depth : Int) : List (List Char) → Prop
  | [] => True
  | line :: lines => 0 < depth + bracketDepth line ∧ StaysOpen (depth + bracketDepth line) lines

/-- The lines leave a bracket open until the last of them, which leaves none. -/
def Completes (lines : List (List Char)) : Prop :=
  ∃ before last, lines = before ++ [last] ∧ StaysOpen 0 before ∧ bracketDepth lines.flatten ≤ 0

/-- From depth `depth` on, no line that closes all brackets ends with a marker. -/
def EndsPlainly (depth : Int) : List (List Char) → Prop
  | [] => True
  | line :: lines =>
    (depth + bracketDepth line = 0 → ∀ t ∈ (scan line).getLast?, ¬ t.IsMarker) ∧
      EndsPlainly (depth + bracketDepth line) lines

instance decidableEndsPlainly (depth : Int) :
    (lines : List (List Char)) → Decidable (EndsPlainly depth lines)
  | [] => .isTrue trivial
  | line :: lines =>
    have := decidableEndsPlainly (depth + bracketDepth line) lines
    inferInstanceAs (Decidable (_ ∧ _))

theorem Closes.ne_nil {depth : Int} {lines : List (List Char)} (h : Closes depth lines) :
    lines ≠ [] := by
  rintro rfl
  exact h

theorem closes_cons {depth : Int} {line : List Char} {lines : List (List Char)}
    (hpos : 0 < depth + bracketDepth line) (h : Closes (depth + bracketDepth line) lines) :
    Closes depth (line :: lines) := by
  cases lines with
  | nil => exact absurd rfl h.ne_nil
  | cons line' lines => exact ⟨hpos, h⟩

theorem Closes.bracketDepth_eq {depth : Int} {lines : List (List Char)} (h : Closes depth lines) :
    depth + bracketDepth lines.flatten = 0 := by
  induction lines generalizing depth with
  | nil => exact h.elim
  | cons line lines ih =>
    rw [List.flatten_cons, bracketDepth_append, ← Int.add_assoc]
    cases lines with
    | nil =>
      have hline : depth + bracketDepth line = 0 := h
      simpa [bracketDepth] using hline
    | cons line' lines => exact ih h.2

theorem Closes.exists_staysOpen {depth : Int} {lines : List (List Char)} (h : Closes depth lines) :
    ∃ before last, lines = before ++ [last] ∧ StaysOpen depth before := by
  induction lines generalizing depth with
  | nil => exact h.elim
  | cons line lines ih =>
    cases lines with
    | nil => exact ⟨[], line, rfl, trivial⟩
    | cons line' lines =>
      obtain ⟨before, last, hsplit, hopen⟩ := ih h.2
      exact ⟨line :: before, last, by rw [hsplit, List.cons_append], h.1, hopen⟩

/-- A chunk is a program for the loop. -/
theorem Closes.completes {lines : List (List Char)} (h : Closes 0 lines) : Completes lines := by
  obtain ⟨before, last, hsplit, hopen⟩ := h.exists_staysOpen
  have hzero := h.bracketDepth_eq
  exact ⟨before, last, hsplit, hopen, by omega⟩

theorem endsPlainly_append {depth : Int} {before after : List (List Char)}
    (h : EndsPlainly depth (before ++ after)) :
    EndsPlainly depth before ∧ EndsPlainly (depth + bracketDepth before.flatten) after := by
  induction before generalizing depth with
  | nil => exact ⟨trivial, by simpa [bracketDepth] using h⟩
  | cons line before ih =>
    obtain ⟨hbefore, hafter⟩ := ih h.2
    refine ⟨⟨h.1, hbefore⟩, ?_⟩
    rwa [List.flatten_cons, bracketDepth_append, ← Int.add_assoc]

/-- Lines that come back to depth zero without going below start with a chunk. -/
theorem exists_chunk {depth : Int} {lines : List (List Char)} (hne : lines ≠ [])
    (hend : depth + bracketDepth lines.flatten = 0)
    (hn : ∀ before after, lines = before ++ after → 0 ≤ depth + bracketDepth before.flatten) :
    ∃ chunk rest, lines = chunk ++ rest ∧ Closes depth chunk := by
  induction lines generalizing depth with
  | nil => exact absurd rfl hne
  | cons line lines ih =>
    have hline : 0 ≤ depth + bracketDepth line := by
      simpa using hn [line] lines rfl
    by_cases hzero : depth + bracketDepth line = 0
    · exact ⟨[line], lines, rfl, hzero⟩
    · rw [List.flatten_cons, bracketDepth_append, ← Int.add_assoc] at hend
      have hlines : lines ≠ [] := by
        rintro rfl
        exact hzero (by simpa [bracketDepth] using hend)
      have hn' : ∀ before after, lines = before ++ after →
          0 ≤ depth + bracketDepth line + bracketDepth before.flatten := by
        intro before after hsplit
        have := hn (line :: before) after (by rw [hsplit, List.cons_append])
        rwa [List.flatten_cons, bracketDepth_append, ← Int.add_assoc] at this
      obtain ⟨chunk, rest, rfl, hchunk⟩ := ih hlines hend hn'
      exact ⟨line :: chunk, rest, rfl, closes_cons (by omega) hchunk⟩

/-! ## Reading chunk by chunk -/

theorem Token.MarkersLead.of_append_left {ts us : List Token} (h : MarkersLead (ts ++ us))
    (hlast : ∀ t ∈ ts.getLast?, ¬ t.IsMarker) : MarkersLead ts := by
  induction ts with
  | nil => exact markersLead_nil
  | cons t ts ih =>
    obtain ⟨hlead, h⟩ := markersLead_cons_iff.1 h
    cases ts with
    | nil =>
      have ht : ¬ t.IsMarker := hlast t rfl
      exact (markersLead_cons_iff_of_not ht).2 markersLead_nil
    | cons t' ts =>
      refine markersLead_cons_iff.2 ⟨hlead, ih h ?_⟩
      rwa [List.getLast?_cons_cons] at hlast

/-- The last token of a chunk is on its last line, since that line closes a bracket or is alone. -/
theorem not_isMarker_of_closes {depth : Int} {lines : List (List Char)} (h : Closes depth lines)
    (hplain : EndsPlainly depth lines) (hapart : LinesApart lines) :
    ∀ t ∈ (scan lines.flatten).getLast?, ¬ t.IsMarker := by
  induction lines generalizing depth with
  | nil => exact h.elim
  | cons line lines ih =>
    cases lines with
    | nil =>
      have hzero : depth + bracketDepth line = 0 := h
      simpa using hplain.1 hzero
    | cons line' lines =>
      have hrest : scan (line' :: lines).flatten ≠ [] := by
        intro hnil
        have hdepth := depth_scan (line' :: lines).flatten
        rw [hnil, Token.depth] at hdepth
        have := h.1
        have := h.2.bracketDepth_eq
        omega
      have hsplit : line :: line' :: lines = [line] ++ (line' :: lines) := rfl
      have hlines := ih h.2 hplain.2 (hsplit ▸ hapart).of_append.2
      have hscan : scan (line ++ (line' :: lines).flatten) =
          scan line ++ scan (line' :: lines).flatten := by
        refine scan_append ?_
        simpa using hapart [line] (line' :: lines) rfl
      rw [List.flatten_cons, hscan, List.getLast?_append]
      intro t ht
      refine hlines t ?_
      rw [List.getLast?_eq_some_getLast hrest] at ht ⊢
      exact ht

/-- A chunk at the start of a readable text can be read by itself, and so can what is left. -/
theorem exists_read_of_closes {chunk rest : List (List Char)}
    (h : ∃ vs, read (String.ofList (chunk ++ rest).flatten) = .ok vs) (hchunk : Closes 0 chunk)
    (hplain : EndsPlainly 0 chunk) (hapart : LinesApart (chunk ++ rest)) :
    (∃ vs, read (String.ofList chunk.flatten) = .ok vs) ∧
      ∃ ws, read (String.ofList rest.flatten) = .ok ws := by
  have hzero : bracketDepth chunk.flatten = 0 := by simpa using hchunk.bracketDepth_eq
  simp only [exists_read_iff_flat, tokenize, String.toList_ofList] at h ⊢
  rw [List.flatten_append, scan_append (hapart chunk rest rfl), bracketDepth_append, hzero,
    Int.zero_add] at h
  obtain ⟨hparts, hdepth, hmarkers⟩ := h
  refine ⟨⟨?_, hzero, ?_⟩, ?_, hdepth, hmarkers.of_append_right⟩
  · exact fun p hp ↦ hparts p (hp.trans (List.prefix_append _ _))
  · exact hmarkers.of_append_left (not_isMarker_of_closes hchunk hplain hapart.of_append.1)
  · intro p hp
    have := hparts (chunk.flatten ++ p) ((List.prefix_append_right_inj _).2 hp)
    rwa [bracketDepth_append, hzero, Int.zero_add] at this

/-! ## Evaluating chunk by chunk -/

/-- Lines that the loop evaluates together, with their expressions and the values of these. -/
structure Chunk where
  lines : List (List Char)
  exprs : List Value
  values : List Value

namespace Session

/-- Evaluating expressions in order, each of them once and in the session that the one before it has
left, and the values that they have. -/
inductive EvaluatesEach : Session → List Value → List Value → Session → Prop where
  | nil (s : Session) : EvaluatesEach s [] [] s
  | cons {s u s' : Session} {expr v : Value} {exprs values : List Value}
      (eval : s.perform (Machine.evaluate s.limit expr s.env) = (.ok v, u))
      (rest : EvaluatesEach u exprs values s') : EvaluatesEach s (expr :: exprs) (v :: values) s'

/-- Evaluating all expressions is evaluating each. -/
theorem evaluatesEach_iff {s s' : Session} {exprs values : List Value} :
    s.EvaluatesEach exprs values s' ↔
      s.perform (Machine.evaluateAll s.limit s.env exprs) = (.ok values, s') := by
  constructor
  · intro h
    induction h with
    | nil s => rfl
    | @cons s u s' expr v exprs values eval rest ih =>
      obtain ⟨t, hv, rfl⟩ := perform_eq_ok_iff.1 eval
      obtain ⟨t', hvalues, rfl⟩ := perform_eq_ok_iff.1 ih
      refine perform_eq_ok_iff.2 ⟨t', Action.run_bind_eq_ok_iff.2 ⟨v, t, hv, ?_⟩, rfl⟩
      exact Action.run_bind_eq_ok_iff.2 ⟨values, t', hvalues, rfl⟩
  · intro h
    induction exprs generalizing s values with
    | nil =>
      cases h
      exact .nil s
    | cons expr exprs ih =>
      obtain ⟨t, hrun, rfl⟩ := perform_eq_ok_iff.1 h
      obtain ⟨v, u, hv, hrun⟩ := Action.run_bind_eq_ok_iff.1 hrun
      obtain ⟨vs, t', hvs, hrun⟩ := Action.run_bind_eq_ok_iff.1 hrun
      cases hrun
      refine .cons (u := ⟨u, s.env, s.limit⟩) (perform_eq_ok_iff.2 ⟨u, hv, rfl⟩) (ih ?_)
      exact perform_eq_ok_iff.2 ⟨t, hvs, rfl⟩

theorem EvaluatesEach.of_append {s s' : Session} {exprs exprs' values : List Value}
    (h : s.EvaluatesEach (exprs ++ exprs') values s') :
    ∃ vs vs' u, s.EvaluatesEach exprs vs u ∧ u.EvaluatesEach exprs' vs' s' ∧
      values = vs ++ vs' := by
  induction exprs generalizing s values with
  | nil => exact ⟨[], values, s, .nil s, h, rfl⟩
  | cons expr exprs ih =>
    cases h with
    | @cons _ _ _ _ v _ _ eval rest =>
      obtain ⟨vs, vs', u, hvs, hvs', rfl⟩ := ih rest
      exact ⟨v :: vs, vs', u, .cons eval hvs, hvs', rfl⟩

/-- Evaluating chunks in order, each in the session that the one before it has left: the text of
each chunk is read as its expressions, and these are evaluated one by one to its values. -/
inductive Evaluates : Session → List Chunk → Session → Prop where
  | nil (s : Session) : Evaluates s [] s
  | cons {s u s' : Session} {chunk : Chunk} {chunks : List Chunk}
      (read : read (String.ofList chunk.lines.flatten) = .ok chunk.exprs)
      (eval : s.EvaluatesEach chunk.exprs chunk.values u)
      (rest : Evaluates u chunks s') : Evaluates s (chunk :: chunks) s'

/-- A text that can be evaluated can be evaluated chunk by chunk, with the same expressions, values
and effects. By induction on the number of lines, from which the first chunk is cut off. -/
theorem exists_evaluates {s s' : Session} {lines : List (List Char)} {exprs values : List Value}
    (hread : read (String.ofList lines.flatten) = .ok exprs)
    (heval : s.EvaluatesEach exprs values s') (hplain : EndsPlainly 0 lines)
    (hapart : LinesApart lines) :
    ∃ chunks, chunks.flatMap Chunk.lines = lines ∧ chunks.flatMap Chunk.exprs = exprs ∧
      chunks.flatMap Chunk.values = values ∧ (∀ chunk ∈ chunks, Closes 0 chunk.lines) ∧
      Evaluates s chunks s' := by
  induction hn : lines.length using Nat.strongRecOn generalizing s lines exprs values with
  | _ n ih =>
    subst hn
    by_cases hne : lines = []
    · subst hne
      have hexprs : exprs = [] := by
        have hempty : read (String.ofList ([] : List (List Char)).flatten) = .ok [] := by
          with_unfolding_all rfl
        exact Except.ok.inj (hread.symm.trans hempty)
      subst hexprs
      cases heval
      exact ⟨[], rfl, rfl, rfl, by simp, .nil _⟩
    · obtain ⟨hparts, hdepth, -⟩ := (exists_read_iff_flat _).1 ⟨exprs, hread⟩
      rw [String.toList_ofList] at hparts hdepth
      have hn : ∀ before after, lines = before ++ after →
          0 ≤ 0 + bracketDepth before.flatten := by
        rintro before after rfl
        rw [Int.zero_add]
        refine hparts _ ?_
        rw [List.flatten_append]
        exact List.prefix_append _ _
      obtain ⟨chunk, rest, rfl, hchunk⟩ := exists_chunk hne (by omega) hn
      obtain ⟨hplain, hplain'⟩ := endsPlainly_append hplain
      rw [hchunk.bracketDepth_eq] at hplain'
      obtain ⟨⟨es, hes⟩, es', hes'⟩ := exists_read_of_closes ⟨exprs, hread⟩ hchunk hplain hapart
      have hexprs : exprs = es ++ es' := by
        have happend := read_append (hapart chunk rest rfl) hes
        rw [← List.flatten_append, hread, hes'] at happend
        exact Except.ok.inj happend
      subst hexprs
      obtain ⟨vs, vs', u, hvs, hvs', rfl⟩ := heval.of_append
      have hlength : rest.length < (chunk ++ rest).length := by
        have := List.length_pos_iff.2 hchunk.ne_nil
        rw [List.length_append]
        omega
      obtain ⟨chunks, rfl, rfl, rfl, hcloses, hrest⟩ :=
        ih rest.length hlength hes' hvs' hplain' hapart.of_append.2 rfl
      refine ⟨⟨chunk, es, vs⟩ :: chunks, rfl, rfl, rfl, ?_, .cons hes hvs hrest⟩
      exact List.forall_mem_cons.2 ⟨hchunk, hcloses⟩

end Session

/-! ## The loop -/

/-- The line on which a value is printed, if it can be. -/
def Value.line (v : Value) : List Char := v.source?.getD [] ++ ['\n']

/-- What is written while a chunk is taken: a request for more after every line but the last, then
the values of the chunk and a request for the next. -/
def Chunk.reply (prompt continuation : List Char) (chunk : Chunk) : List Char :=
  chunk.lines.dropLast.flatMap (fun _ ↦ continuation) ++ chunk.values.flatMap Value.line ++ prompt

theorem printedLines_of_isSome {vs : List Value} (h : ∀ v ∈ vs, v.source?.isSome = true) :
    printedLines vs = (vs.flatMap Value.line, none) := by
  induction vs with
  | nil => rfl
  | cons v vs ih =>
    obtain ⟨hv, hvs⟩ := List.forall_mem_cons.1 h
    obtain ⟨text, htext⟩ := Option.isSome_iff_exists.1 hv
    rw [printedLines, htext]
    simp [ih hvs, Value.line, htext]

namespace Repl

theorem respond_of_eval {r : Repl} {program : List Char} {values : List Value} {s : Session}
    (heval : r.session.evalAll (String.ofList program) = (.ok values, s))
    (hprint : ∀ v ∈ values, v.source?.isSome = true) :
    r.respond program =
      (values.flatMap Value.line ++ r.prompt, none, ⟨s, r.prompt, r.continuation, []⟩) := by
  rw [respond.eq_def]
  dsimp only
  rw [heval]
  dsimp only
  rw [printedLines_of_isSome hprint]

/-- The loop asks for more after every line that leaves a bracket open. -/
theorem steps_append_of_staysOpen {r : Repl} {lines : List (List Char)}
    (h : StaysOpen (bracketDepth r.pending) lines) (rest : List (List Char)) :
    r.steps (lines ++ rest) =
      (lines.flatMap (fun _ ↦ r.continuation) ++
          (steps { r with pending := r.pending ++ lines.flatten } rest).1,
        (steps { r with pending := r.pending ++ lines.flatten } rest).2) := by
  induction lines generalizing r with
  | nil => simp
  | cons line lines ih =>
    have hstep : r.step line =
        (r.continuation, none, { r with pending := r.pending ++ line }) := by
      rw [step, bracketDepth_append, if_pos h.1]
    have hrest := @ih { r with pending := r.pending ++ line }
      (by rw [bracketDepth_append]; exact h.2)
    rw [List.cons_append, steps, hstep]
    dsimp only
    rw [hrest]
    simp

/-- At the last line of a program the loop responds to it, and goes on unless there is an error. -/
theorem steps_append_of_completes {r : Repl} (hr : r.pending = []) {lines : List (List Char)}
    (h : Completes lines) (rest : List (List Char)) :
    r.steps (lines ++ rest) =
      match r.respond lines.flatten with
      | (text, none, r') =>
        (lines.dropLast.flatMap (fun _ ↦ r.continuation) ++ text ++ (r'.steps rest).1,
          (r'.steps rest).2)
      | (text, some err, r') =>
        (lines.dropLast.flatMap (fun _ ↦ r.continuation) ++ text, some err, r') := by
  obtain ⟨before, last, rfl, hopen, hdepth⟩ := h
  have hstart : StaysOpen (bracketDepth r.pending) before := by rwa [hr]
  have hstep : step { r with pending := r.pending ++ before.flatten } last =
      r.respond (before ++ [last]).flatten := by
    have hprogram : r.pending ++ before.flatten ++ last = (before ++ [last]).flatten := by simp [hr]
    rw [step, hprogram, if_neg (Int.not_lt.2 hdepth)]
    rfl
  rw [List.append_assoc, steps_append_of_staysOpen hstart, List.singleton_append, steps, hstep,
    List.dropLast_concat]
  rcases r.respond (before ++ [last]).flatten with ⟨text, _ | err, r'⟩
  · simp
  · rfl

/-- The loop over the lines of chunks that can be evaluated and printed. -/
theorem steps_of_evaluates {s s' : Session} {chunks : List Chunk} (h : s.Evaluates chunks s')
    (hcloses : ∀ chunk ∈ chunks, Closes 0 chunk.lines)
    (hprint : ∀ v ∈ chunks.flatMap Chunk.values, v.source?.isSome = true)
    (prompt continuation : List Char) :
    (⟨s, prompt, continuation, []⟩ : Repl).steps (chunks.flatMap Chunk.lines) =
      (chunks.flatMap (Chunk.reply prompt continuation) ++ ['\n'], none,
        ⟨s', prompt, continuation, []⟩) := by
  induction h with
  | nil s => rfl
  | @cons s u s' chunk chunks hread heval hrest ih =>
    obtain ⟨hchunk, hchunks⟩ := List.forall_mem_cons.1 hcloses
    rw [List.flatMap_cons, List.forall_mem_append] at hprint
    have hrespond : respond ⟨s, prompt, continuation, []⟩ chunk.lines.flatten =
        (chunk.values.flatMap Value.line ++ prompt, none, ⟨u, prompt, continuation, []⟩) :=
      respond_of_eval ((s.evalAll_of_read hread).trans (Session.evaluatesEach_iff.1 heval)) hprint.1
    rw [List.flatMap_cons, steps_append_of_completes rfl hchunk.completes, hrespond]
    dsimp only
    rw [ih hchunks hprint.2]
    simp [Chunk.reply]

end Repl

/-- **The loop evaluates a program line by line as it is evaluated whole.** Let a program be
readable, let its evaluation and the printing of its values succeed, and let no line at whose end
all brackets are closed end with a marker. Then its lines fall into chunks, each of which leaves
brackets open until its last line. The loop evaluates the expressions of the chunks in order, which
together are those of the program, and ends in the session that evaluating the program leads to. It
writes a prompt, then after each line that does not complete a chunk the continuation, and after
each line that does the values of the chunk and a prompt, and at last a line feed. -/
theorem run_lines_eq_evalAll {s s' : Session} {program : String} {exprs values : List Value}
    (hread : read program = .ok exprs) (heval : s.evalAll program = (.ok values, s'))
    (hprint : ∀ v ∈ values, v.source?.isSome = true)
    (hplain : EndsPlainly 0 (textLines program.toList)) (prompt continuation : String) :
    ∃ chunks, chunks.flatMap Chunk.lines = textLines program.toList ∧
      (∀ chunk ∈ chunks, Closes 0 chunk.lines) ∧
      chunks.flatMap Chunk.exprs = exprs ∧ chunks.flatMap Chunk.values = values ∧
      (chunks.flatMap fun chunk ↦ chunk.values.flatMap Value.line) = values.flatMap Value.line ∧
      s.Evaluates chunks s' ∧
      (Repl.ofSession s prompt continuation).run program =
        (prompt.toList ++
            chunks.flatMap (Chunk.reply prompt.toList continuation.toList) ++ ['\n'],
          none, Repl.ofSession s' prompt continuation) := by
  have hlines : read (String.ofList (textLines program.toList).flatten) = .ok exprs := by
    rw [flatten_textLines, String.ofList_toList, hread]
  rw [s.evalAll_of_read hread, ← Session.evaluatesEach_iff] at heval
  obtain ⟨chunks, hcover, hexprs, rfl, hcloses, hevaluates⟩ :=
    Session.exists_evaluates hlines heval hplain (linesApart_textLines _)
  refine ⟨chunks, hcover, hcloses, hexprs, rfl, List.flatMap_assoc.symm, hevaluates, ?_⟩
  have hsteps := Repl.steps_of_evaluates hevaluates hcloses hprint prompt.toList continuation.toList
  rw [hcover] at hsteps
  rw [Repl.run, Repl.ofSession, hsteps]
  simp [Repl.ofSession]

/-- A definition over two lines with a call behind it, and a line with a reversal and a quotation.
The first line leaves brackets open and is answered by the continuation. The second and the third
complete a chunk each, and are answered by two of the four values and a prompt. -/
theorem run_lines_eq_evalAll_twoChunks :
    let s := Session.start 20
    let program := "(def f (fun (x)\n (+ x 1))) (f 1)\n(f $(2 f)) 'y"
    let values : List Value := [.closure 0 [⟨"x"⟩], .int 2, .int 4, .symbol ⟨"y"⟩]
    ∃ exprs s' chunks, read program = .ok exprs ∧ s.evalAll program = (.ok values, s') ∧
      (∀ v ∈ values, v.source?.isSome = true) ∧ EndsPlainly 0 (textLines program.toList) ∧
      chunks.flatMap Chunk.exprs = exprs ∧ chunks.flatMap Chunk.values = values ∧
      s.Evaluates chunks s' ∧
      (Repl.ofSession s "> " "- ").run program =
        ("> ".toList ++ chunks.flatMap (Chunk.reply "> ".toList "- ".toList) ++ ['\n'], none,
          Repl.ofSession s' "> " "- ") ∧
      ((Repl.ofSession s "> " "- ").run program).1 =
        "> - #<fun (x)>\n2\n> 4\ny\n> \n".toList := by
  intro s program values
  have hplain : EndsPlainly 0 (textLines program.toList) := by decide +kernel
  have hok : (read program).isOk = true := by decide +kernel
  have hvalues : (s.evalAll program).1 = .ok values := by decide +kernel
  have hprint : ∀ v ∈ values, v.source?.isSome = true := List.all_eq_true.1 (by decide +kernel)
  have htext : ((Repl.ofSession s "> " "- ").run program).1 =
      "> - #<fun (x)>\n2\n> 4\ny\n> \n".toList := by decide +kernel
  rcases hread : read program with err | exprs
  · rw [hread] at hok
    cases hok
  · have heval : s.evalAll program = (.ok values, (s.evalAll program).2) := Prod.ext hvalues rfl
    obtain ⟨chunks, -, -, hexprs, hchunks, -, hevaluates, hrun⟩ :=
      run_lines_eq_evalAll hread heval hprint hplain "> " "- "
    exact ⟨exprs, _, chunks, rfl, heval, hprint, hplain, hexprs, hchunks, hevaluates, hrun, htext⟩

end ReverseLisp
