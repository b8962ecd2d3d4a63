import ReverseLisp.Proofs.LineByLine
import ReverseLisp.Proofs.Offences

/-!
# What ends the loop early

The loop reports what goes wrong with a program and goes on with the next one. This holds of all
errors but those of numbers beyond a limit: an integer too large for binary arithmetic, a quotient
too large for it, and an integer with too many digits to be written. Such an error ends the loop,
and the lines behind it are never taken.

## The conversation

The lines of an input fall into *programs*, each of which leaves brackets open until its last line.
`Session.Answers` says what the loop should do with a program: print its values, or report one
error, with everything kept that was done before. `Session.Breaks` says how a program can end the
loop instead. Every program does one or the other (`Session.answers_or_breaks`), so the loop is a
sequence of answers up to the end of the input or up to the first program that breaks it.
-/

namespace ReverseLisp

/-! ## Errors at a limit -/

namespace Error

/-- Whether an error is about a number beyond what can be computed with or written. -/
def isNumericLimit : Error → Bool
  | integerTooLarge | quotientTooLarge | digitLimit => true
  | _ => false

/-- The loop reports the error, unless it is about a number beyond a limit. -/
def IsReportedBelowLimits (err : Error) : Prop := err.isReported = !err.isNumericLimit

theorem IsOfRun.isReportedBelowLimits {err : Error} (h : err.IsOfRun) :
    err.IsReportedBelowLimits := by
  cases err with
  | unboundLookup | unboundAssignment | frameArity | closureArity | notFunction | notNumber
  | noArguments | argumentCount | notList | notNonemptyList | divisionByZero | integerTooLarge
  | quotientTooLarge | digitLimit | recursionLimit => rfl
  | _ => cases h

theorem isReportedBelowLimits_of_isStatic {err : Error} (h : err.isStatic = true) :
    err.IsReportedBelowLimits := by
  cases err <;> first | rfl | cases h

end Error

theorem Value.Defect.kind_eq {kind : Error.Kind} {v : Value} (h : v.Defect kind) :
    kind = .malformed ∨ kind = .invalidSymbol := by
  cases h with
  | foreign f => exact .inl rfl
  | name hf h => exact .inr rfl
  | parameters h => exact .inr rfl

theorem Value.analyze_failsOnly_isReportedBelowLimits (expr : Value) :
    FailsOnly Error.IsReportedBelowLimits expr.analyze := by
  induction expr using induction_items with
  | step expr ih =>
    refine analyze_failsOnly (fun _ ↦ rfl) ?_ fun w hw ↦ ih w (mem_items_of_mem_parts hw)
    rintro kind hdefect err (rfl | rfl)
    · exact Error.isReportedBelowLimits_of_isStatic (Error.isStatic_iff.2 hdefect.kind_eq)
    · rfl

/-- What evaluating an expression can raise, outside the empty environment. -/
theorem Machine.evaluate_raisesOnly_isReportedBelowLimits (limit : Nat) (expr : Value) {e : EnvId}
    (he : e ≠ 0) : Action.RaisesOnly Error.IsReportedBelowLimits (evaluate limit expr e) := by
  refine .bind (.bind (.ofExcept expr.analyze_failsOnly_isReportedBelowLimits) fun node ↦ ?_) ?_
  · split
    · exact .throw rfl
    · exact .pure node
  · intro node
    exact (run_raisesOnly_isOfRun limit node he).mono fun _ h ↦ h.isReportedBelowLimits

/-! ## Values that can be printed -/

namespace Value

theorem isSome_sources?_iff {vs : List Value} :
    (sources? vs).isSome = true ↔ ∀ v ∈ vs, v.source?.isSome = true := by
  induction vs with
  | nil => simp [sources?]
  | cons v vs ih =>
    rw [List.forall_mem_cons, ← ih, sources?]
    cases v.source? <;> cases sources? vs <;> simp

/-- What cannot be printed has an integer with too many digits in it. -/
theorem isSome_source?_iff (v : Value) : v.source?.isSome = true ↔ v.IsPrintable := by
  induction v using induction_items with
  | step v ih =>
    cases v with
    | int n =>
      rw [source?, Decimal.intText?]
      simp [IsPrintable, atoms]
    | list items =>
      rw [source?, Option.isSome_map, isSome_sources?_iff]
      refine ⟨fun h n hn ↦ ?_, fun h w hw ↦ (ih w hw).2 (h.of_mem_items hw)⟩
      obtain ⟨w, hw, hn⟩ := mem_atoms_list.1 hn
      exact (ih w hw).1 (h w hw) n hn
    | _ => simp [source?, IsPrintable, atoms]

end Value

theorem printedLines_of_not_isPrintable {before after : List Value} {v : Value}
    (h : ∀ w ∈ before, w.IsPrintable) (hv : ¬ v.IsPrintable) :
    printedLines (before ++ v :: after) = (before.flatMap Value.line, some .digitLimit) := by
  induction before with
  | nil =>
    have hnone : v.source? = none := by
      rwa [← Value.isSome_source?_iff, Option.not_isSome_iff_eq_none] at hv
    rw [List.nil_append, printedLines, hnone]
    rfl
  | cons w before ih =>
    obtain ⟨hw, hbefore⟩ := List.forall_mem_cons.1 h
    obtain ⟨text, htext⟩ := Option.isSome_iff_exists.1 (w.isSome_source?_iff.2 hw)
    rw [List.cons_append, printedLines, htext]
    simp [ih hbefore, Value.line, htext]

/-! ## One program -/

/-- The line that reports an error. -/
def Error.report (err : Error) : List Char := "error: ".toList ++ err.message.toList ++ ['\n']

namespace Session

/-- An expression of the program fails, after those before it have been evaluated. -/
def Stops (s : Session) (program : List Char) (err : Error) (s' : Session) : Prop :=
  ∃ exprs k, ∃ hk : k < exprs.length, ∃ values u, read (String.ofList program) = .ok exprs ∧
    s.perform (Machine.evaluateAll s.limit s.env (exprs.take k)) = (.ok values, u) ∧
    u.perform (Machine.evaluate u.limit exprs[k] u.env) = (.error err, s')

/-- What the loop should do with a program in a session: what it writes and the session that is
left. -/
inductive Answers (s : Session) (program : List Char) : List Char → Session → Prop where
  /-- The values are printed. -/
  | printed {values : List Value} {s' : Session}
      (eval : s.evalAll (String.ofList program) = (.ok values, s'))
      (print : ∀ v ∈ values, v.IsPrintable) : Answers s program (values.flatMap Value.line) s'
  /-- The program cannot be read, and nothing is changed. -/
  | unreadable {err : Error} (eval : s.evalAll (String.ofList program) = (.error err, s))
      (malformed : err.kind = .malformed) : Answers s program err.report s
  /-- An expression fails, and what was done until then is kept. -/
  | stopped {err : Error} {s' : Session} (stops : s.Stops program err s')
      (below : err.isNumericLimit = false) : Answers s program err.report s'

/-- How a program ends the loop: what is written, the error, and the session that is left. -/
inductive Breaks (s : Session) (program : List Char) : List Char → Error → Session → Prop where
  /-- An expression fails at a number beyond a limit. -/
  | stopped {err : Error} {s' : Session} (stops : s.Stops program err s')
      (limit : err.isNumericLimit = true) : Breaks s program [] err s'
  /-- A value cannot be printed. Those before it are. -/
  | unprintable {before after : List Value} {v : Value} {s' : Session}
      (eval : s.evalAll (String.ofList program) = (.ok (before ++ v :: after), s'))
      (print : ∀ w ∈ before, w.IsPrintable) (long : ¬ v.IsPrintable) :
    Breaks s program (before.flatMap Value.line) .digitLimit s'

variable {s s' : Session} {program text : List Char} {err : Error}

theorem Stops.evalAll_eq (h : s.Stops program err s') :
    s.evalAll (String.ofList program) = (.error err, s') := by
  obtain ⟨exprs, k, hk, values, u, hread, hbefore, hfails⟩ := h
  obtain ⟨t, hvalues, rfl⟩ := perform_eq_ok_iff.1 hbefore
  obtain ⟨t', herr, rfl⟩ := perform_eq_error_iff.1 hfails
  rw [evalAll_of_read hread]
  refine perform_eq_error_iff.2 ⟨t', ?_, rfl⟩
  -- the expression that fails stands between those evaluated and those never reached
  rw [← List.take_append_drop k exprs, ← List.getElem_cons_drop hk, Machine.evaluateAll_append]
  refine Action.run_bind_eq_error_iff.2 (.inr ⟨values, t, hvalues, ?_⟩)
  refine Action.run_bind_eq_error_iff.2 (.inl ?_)
  exact Action.run_bind_eq_error_iff.2 (.inl herr)

/-- A program that fails cannot be read, or one of its expressions fails. -/
theorem malformed_or_stops (h : s.evalAll (String.ofList program) = (.error err, s')) :
    (err.kind = .malformed ∧ s' = s) ∨ s.Stops program err s' := by
  obtain ⟨t, ht, rfl⟩ := perform_eq_error_iff.1 h
  rcases Machine.exists_of_evaluateText_error ht with
    ⟨hkind, rfl⟩ | ⟨exprs, k, hk, values, u, hread, hvalues, hfails⟩
  · exact .inl ⟨hkind, rfl⟩
  · refine .inr ⟨exprs, k, hk, values, ⟨u, s.env, s.limit⟩, hread, ?_, ?_⟩
    · exact perform_eq_ok_iff.2 ⟨u, hvalues, rfl⟩
    · exact perform_eq_error_iff.2 ⟨t, hfails, rfl⟩

theorem Stops.isReportedBelowLimits (hs : s.Reachable) (h : s.Stops program err s') :
    err.IsReportedBelowLimits := by
  obtain ⟨exprs, k, hk, values, u, -, hbefore, hfails⟩ := h
  obtain ⟨t, -, rfl⟩ := perform_eq_ok_iff.1 hbefore
  obtain ⟨t', herr, -⟩ := perform_eq_error_iff.1 hfails
  exact Machine.evaluate_raisesOnly_isReportedBelowLimits _ _ hs.env_ne_zero _ _ _ herr

theorem Answers.evalAll_snd (h : s.Answers program text s') :
    (s.evalAll (String.ofList program)).2 = s' := by
  cases h with
  | printed eval print => rw [eval]
  | unreadable eval malformed => rw [eval]
  | stopped stops below => rw [stops.evalAll_eq]

theorem Answers.reachable (hs : s.Reachable) (h : s.Answers program text s') : s'.Reachable :=
  h.evalAll_snd ▸ hs.evalAll _

/-- Every program is answered, or it ends the loop. -/
theorem answers_or_breaks (s : Session) (program : List Char) :
    (∃ text s', s.Answers program text s') ∨ ∃ text err s', s.Breaks program text err s' := by
  rcases heval : s.evalAll (String.ofList program) with ⟨err | values, s'⟩
  · rcases malformed_or_stops heval with ⟨hkind, rfl⟩ | hstops
    · exact .inl ⟨_, _, .unreadable heval hkind⟩
    · cases hlimit : err.isNumericLimit with
      | true => exact .inr ⟨_, _, _, .stopped hstops hlimit⟩
      | false => exact .inl ⟨_, _, .stopped hstops hlimit⟩
  · -- the values are printed up to the first that cannot be
    cases hfind : values.find? (·.source?.isNone) with
    | none =>
      refine .inl ⟨_, _, .printed heval fun v hv ↦ v.isSome_source?_iff.1 ?_⟩
      simpa [Option.isSome_iff_ne_none] using List.find?_eq_none.1 hfind v hv
    | some v =>
      obtain ⟨hv, before, after, rfl, hbefore⟩ := List.find?_eq_some_iff_append.1 hfind
      refine .inr ⟨_, _, _, .unprintable heval (fun w hw ↦ w.isSome_source?_iff.1 ?_) ?_⟩
      · simpa [Option.isSome_iff_ne_none] using hbefore w hw
      · rw [← Value.isSome_source?_iff]
        simpa using hv

end Session

/-! ## The lines of a program -/

theorem staysOpen_or_exists (depth : Int) (lines : List (List Char)) :
    StaysOpen depth lines ∨ ∃ before last after, lines = before ++ last :: after ∧
      StaysOpen depth before ∧ depth + bracketDepth (before ++ [last]).flatten ≤ 0 := by
  induction lines generalizing depth with
  | nil => exact .inl trivial
  | cons line lines ih =>
    by_cases hline : 0 < depth + bracketDepth line
    · rcases ih (depth + bracketDepth line) with hopen | ⟨before, last, after, rfl, hopen, hlast⟩
      · exact .inl ⟨hline, hopen⟩
      · refine .inr ⟨line :: before, last, after, rfl, ⟨hline, hopen⟩, ?_⟩
        rwa [List.cons_append, List.flatten_cons, bracketDepth_append, ← Int.add_assoc]
    · refine .inr ⟨[], line, lines, rfl, trivial, ?_⟩
      simpa using hline

/-- Lines that are not all left open start with a program. -/
theorem staysOpen_or_completes (lines : List (List Char)) :
    StaysOpen 0 lines ∨ ∃ chunk rest, lines = chunk ++ rest ∧ Completes chunk := by
  rcases staysOpen_or_exists 0 lines with hopen | ⟨before, last, after, rfl, hopen, hlast⟩
  · exact .inl hopen
  · refine .inr ⟨before ++ [last], after, by simp, before, last, rfl, hopen, ?_⟩
    rwa [Int.zero_add] at hlast

/-! ## The loop -/

namespace Repl

theorem respond_of_error {r : Repl} {program : List Char} {err : Error} {s : Session}
    (heval : r.session.evalAll (String.ofList program) = (.error err, s)) :
    r.respond program =
      if err.isReported then (err.report ++ r.prompt, none, ⟨s, r.prompt, r.continuation, []⟩)
      else ([], some err, ⟨s, r.prompt, r.continuation, []⟩) := by
  have hreport : err.report ++ r.prompt =
      "error: ".toList ++ err.message.toList ++ '\n' :: r.prompt := List.append_assoc _ _ _
  rw [respond.eq_def]
  dsimp only
  rw [heval, hreport]

theorem respond_of_answers {r : Repl} (hr : r.session.Reachable) {program text : List Char}
    {s : Session} (h : r.session.Answers program text s) :
    r.respond program = (text ++ r.prompt, none, ⟨s, r.prompt, r.continuation, []⟩) := by
  cases h with
  | printed eval print =>
    exact respond_of_eval eval fun v hv ↦ v.isSome_source?_iff.2 (print v hv)
  | unreadable eval malformed =>
    rw [respond_of_error eval, Error.isReported, malformed]
    rfl
  | stopped stops below =>
    have hreported : Error.isReported _ = !Error.isNumericLimit _ := stops.isReportedBelowLimits hr
    rw [respond_of_error stops.evalAll_eq, hreported, below]
    rfl

theorem respond_of_breaks {r : Repl} (hr : r.session.Reachable) {program text : List Char}
    {err : Error} {s : Session} (h : r.session.Breaks program text err s) :
    r.respond program = (text, some err, ⟨s, r.prompt, r.continuation, []⟩) := by
  cases h with
  | stopped stops limit =>
    have hreported : Error.isReported _ = !Error.isNumericLimit _ := stops.isReportedBelowLimits hr
    rw [respond_of_error stops.evalAll_eq, hreported, limit]
    rfl
  | unprintable eval print long =>
    rw [respond.eq_def]
    dsimp only
    rw [eval]
    dsimp only
    rw [printedLines_of_not_isPrintable print long]

end Repl

/-! ## The conversation -/

/-- The lines of a program with the answer to it. -/
structure Exchange where
  lines : List (List Char)
  answer : List Char

/-- What is written about a program: a request for more after every line but the last, the answer,
and a request for the next program. -/
def Exchange.written (prompt continuation : List Char) (x : Exchange) : List Char :=
  x.lines.dropLast.flatMap (fun _ ↦ continuation) ++ x.answer ++ prompt

/-- Programs are answered one after the other, each in the session that the one before it has
left. -/
inductive Session.Converses : Session → List Exchange → Session → Prop where
  | nil (s : Session) : Converses s [] s
  | cons {s u s' : Session} {x : Exchange} {xs : List Exchange} (complete : Completes x.lines)
      (answers : s.Answers x.lines.flatten x.answer u) (rest : Converses u xs s') :
    Converses s (x :: xs) s'

theorem Session.Converses.reachable {s s' : Session} {xs : List Exchange}
    (h : s.Converses xs s') (hs : s.Reachable) : s'.Reachable := by
  induction h with
  | nil s => exact hs
  | cons complete answers rest ih => exact ih (answers.reachable hs)

/-- The loop answers the programs of a conversation and goes on. -/
theorem Repl.steps_of_converses {s s' : Session} {xs : List Exchange} (h : s.Converses xs s')
    (hs : s.Reachable) (prompt continuation : List Char) (rest : List (List Char)) :
    steps ⟨s, prompt, continuation, []⟩ (xs.flatMap Exchange.lines ++ rest) =
      (xs.flatMap (Exchange.written prompt continuation) ++
          (steps ⟨s', prompt, continuation, []⟩ rest).1,
        (steps ⟨s', prompt, continuation, []⟩ rest).2) := by
  induction h with
  | nil s => rfl
  | @cons s u s' x xs complete answers _ ih =>
    have hrespond : respond ⟨s, prompt, continuation, []⟩ x.lines.flatten =
        (x.answer ++ prompt, none, ⟨u, prompt, continuation, []⟩) := respond_of_answers hs answers
    rw [List.flatMap_cons, List.append_assoc, steps_append_of_completes rfl complete, hrespond]
    dsimp only
    rw [ih (answers.reachable hs)]
    simp [Exchange.written]

/-- Every input is a conversation up to its end, or up to a program that ends the loop. By induction
on the number of lines, from which the first program is cut off. -/
theorem Session.exists_converses (s : Session) (lines : List (List Char)) :
    ∃ xs s' rest, lines = xs.flatMap Exchange.lines ++ rest ∧ s.Converses xs s' ∧
      (StaysOpen 0 rest ∨ ∃ chunk after text err s'', rest = chunk ++ after ∧ Completes chunk ∧
        s'.Breaks chunk.flatten text err s'') := by
  induction hn : lines.length using Nat.strongRecOn generalizing s lines with
  | _ n ih =>
    subst hn
    rcases staysOpen_or_completes lines with hopen | ⟨chunk, rest, rfl, hchunk⟩
    · exact ⟨[], s, lines, rfl, .nil s, .inl hopen⟩
    · rcases s.answers_or_breaks chunk.flatten with ⟨text, u, hanswers⟩ | ⟨text, err, u, hbreaks⟩
      · have hlength : rest.length < (chunk ++ rest).length := by
          obtain ⟨before, last, rfl, -⟩ := hchunk
          simp only [List.length_append, List.length_singleton]
          omega
        obtain ⟨xs, s', rest', rfl, hxs, hend⟩ := ih rest.length hlength u rest rfl
        refine ⟨⟨chunk, text⟩ :: xs, s', rest', ?_, .cons hchunk hanswers hxs, hend⟩
        simp
      · exact ⟨[], s, chunk ++ rest, rfl, .nil s,
          .inr ⟨chunk, rest, text, err, u, rfl, hchunk, hbreaks⟩⟩

/-- **The loop answers every program, up to the first with a number beyond a limit.** As long as the
programs of an input are answered, the loop goes on, each program finds the session that the one
before it has left, and at the end of the input the loop returns normally. A program ends the loop
if evaluating it fails at an integer or a quotient too large for binary arithmetic, or if an integer
with too many digits is to be written, in a value or in a message. There is no third case. -/
theorem loop_answers_until_numeric_limit {s : Session} (hs : s.Reachable)
    (prompt continuation input : String) :
    let run := (Repl.ofSession s prompt continuation).run input
    let more : List (List Char) → List Char := List.flatMap fun _ ↦ continuation.toList
    let written : List Exchange → List Char := fun xs ↦
      prompt.toList ++ xs.flatMap (Exchange.written prompt.toList continuation.toList)
    (∀ xs s' rest, textLines input.toList = xs.flatMap Exchange.lines ++ rest →
      s.Converses xs s' → StaysOpen 0 rest →
        run = (written xs ++ more rest ++ ['\n'], none,
          ⟨s', prompt.toList, continuation.toList, rest.flatten⟩)) ∧
    (∀ xs u chunk after text err s',
      textLines input.toList = xs.flatMap Exchange.lines ++ (chunk ++ after) →
      s.Converses xs u → Completes chunk → u.Breaks chunk.flatten text err s' →
        run = (written xs ++ more chunk.dropLast ++ text, some err,
          Repl.ofSession s' prompt continuation)) ∧
    ∃ xs u rest, textLines input.toList = xs.flatMap Exchange.lines ++ rest ∧ s.Converses xs u ∧
      (StaysOpen 0 rest ∨ ∃ chunk after text err s', rest = chunk ++ after ∧ Completes chunk ∧
        u.Breaks chunk.flatten text err s') := by
  refine ⟨?_, ?_, s.exists_converses _⟩
  · intro xs s' rest hlines hxs hopen
    have hrest := Repl.steps_append_of_staysOpen
      (r := ⟨s', prompt.toList, continuation.toList, []⟩) hopen []
    rw [List.append_nil] at hrest
    rw [Repl.run, Repl.ofSession, hlines, Repl.steps_of_converses hxs hs, hrest]
    simp [Repl.steps]
  · intro xs u chunk after text err s' hlines hxs hchunk hbreaks
    have hrespond : Repl.respond ⟨u, prompt.toList, continuation.toList, []⟩ chunk.flatten = _ :=
      Repl.respond_of_breaks (hxs.reachable hs) hbreaks
    rw [Repl.run, Repl.ofSession, hlines, Repl.steps_of_converses hxs hs,
      Repl.steps_append_of_completes rfl hchunk, hrespond]
    simp [Repl.ofSession]

/-- A definition and a division by zero on one line, then a sum over two lines that needs the
definition: the loop answers both. -/
theorem loop_answers_until_numeric_limit_division :
    let s := Session.start 20
    let input := "(def a 1) (/ a 0)\n(+ a\n1)\n"
    let run := (Repl.ofSession s "> " "- ").run input
    s.Reachable ∧ run.2.1 = none ∧ run.1 = "> error: Division by zero\n> - 2\n> \n".toList ∧
      ∃ xs s' rest, textLines input.toList = xs.flatMap Exchange.lines ++ rest ∧
        s.Converses xs s' ∧ StaysOpen 0 rest ∧
          run = ("> ".toList ++ xs.flatMap (Exchange.written "> ".toList "- ".toList) ++
            rest.flatMap (fun _ ↦ "- ".toList) ++ ['\n'], none,
              ⟨s', "> ".toList, "- ".toList, rest.flatten⟩) := by
  intro s input run
  have hs : s.Reachable := .start 20
  have ⟨hnone, htext⟩ : run.2.1 = none ∧
      run.1 = "> error: Division by zero\n> - 2\n> \n".toList := by decide +kernel
  obtain ⟨hanswers, hbreaks, xs, u, rest, hlines, hxs, hend⟩ :=
    loop_answers_until_numeric_limit hs "> " "- " input
  refine ⟨hs, hnone, htext, xs, u, rest, hlines, hxs, ?_⟩
  rcases hend with hopen | ⟨chunk, after, text, err, s', rfl, hchunk, hbreak⟩
  · exact ⟨hopen, hanswers xs u rest hlines hxs hopen⟩
  · have hrun : run = _ := hbreaks xs u chunk after text err s' hlines hxs hchunk hbreak
    rw [hrun] at hnone
    cases hnone

/-- An integer too large for binary arithmetic ends the loop. The last line is not taken. -/
theorem loop_ends_at_overflow :
    let input := "(def s (fun (x) (* x x)))\n" ++
      "(+ 0.5 (s (s (s (s 100000000000000000000)))))\n(s 3)\n"
    let run := (Repl.ofSession (Session.start 50) "rtl> " "...  ").run input
    run.1 = "rtl> #<fun (x)>\nrtl> ".toList ∧ run.2.1 = some .integerTooLarge ∧
      run.2.2.session.frame.names = [.symbol ⟨"s"⟩] := by
  decide +kernel

end ReverseLisp
