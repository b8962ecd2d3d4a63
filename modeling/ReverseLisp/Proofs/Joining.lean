import ReverseLisp.Proofs.Pieces
import ReverseLisp.Proofs.Readable

/-!
# Joined texts

Reading a text up to its end does not depend on what is joined to it, if no literal goes on across
the seam: the expressions of a readable text are followed by those of the next one, or by its error.
Evaluation takes expressions one by one, so a joined program does what its parts do in turn.

## The argument

The reader looks through all tokens for the end of a list, those of the second text included. But
the tokens of a readable text are a frontier, in which every list is closed, so no count of brackets
that starts there reaches the second text. The reader thus takes up the derivations of the first
text one after another (`readAll_tokensAll_append`) and then has the tokens of the second before it.
-/

namespace ReverseLisp

open ReverseLisp.Token ReverseLisp.Derivation

/-! ## Reading -/

/-- The reader takes up a frontier, whatever follows it. -/
theorem readAll_tokensAll_append (ds : List Derivation) (ts : List Token) :
    readAll (tokensAll ds ++ ts) = ((readAll ts).1.map (values ds ++ ·), (readAll ts).2) := by
  induction ds with
  | nil =>
    rw [tokensAll, List.nil_append]
    rcases readAll ts with ⟨e | vs, rest⟩
    · rfl
    · rfl
  | cons d ds ih =>
    rw [tokensAll, List.append_assoc, readAll_of_read_ok (nextExtent_tokens d _) (read_extent d),
      ih]
    rcases readAll ts with ⟨e | vs, rest⟩
    · rfl
    · rfl

/-- Texts that are apart are read one after the other, if the first can be read. -/
theorem read_append {cs ds : List Char} (h : Apart cs ds) {vs : List Value}
    (hcs : read (String.ofList cs) = .ok vs) :
    read (String.ofList (cs ++ ds)) = (read (String.ofList ds)).map (vs ++ ·) := by
  obtain ⟨trees, htrees, rfl⟩ := exists_of_readAll hcs
  rw [tokenize, String.toList_ofList] at htrees
  simp only [read, tokenize, String.toList_ofList]
  rw [scan_append h, ← htrees, readAll_tokensAll_append]

/-- Blanks keep texts apart. -/
theorem read_append_blank {a b w : String} {vs : List Value} (ha : read a = .ok vs) (hw : w ≠ "")
    (hblank : ∀ c ∈ w.toList, Text.isBlank c = true) :
    read (a ++ w ++ b) = (read b).map (vs ++ ·) := by
  have hapart : Apart a.toList (w.toList ++ b.toList) :=
    apart_append_of_isBlank hblank fun hnil ↦ absurd (String.toList_eq_nil_iff.1 hnil) hw
  have hgap : read (String.ofList (w.toList ++ b.toList)) = read b := by
    rw [read, tokenize, String.toList_ofList, scan_append_of_isBlank hblank]
    rfl
  have hjoined : a ++ w ++ b = String.ofList (a.toList ++ (w.toList ++ b.toList)) := by
    simp [String.append_assoc]
  rw [← String.ofList_toList (s := a)] at ha
  rw [hjoined, read_append hapart ha, hgap]

/-! ## Evaluating -/

theorem Machine.evaluateAll_append (limit : Nat) (e : EnvId) (exprs exprs' : List Value) :
    evaluateAll limit e (exprs ++ exprs') = do
      let vs ← evaluateAll limit e exprs
      let vs' ← evaluateAll limit e exprs'
      return vs ++ vs' := by
  induction exprs with
  | nil => simp [evaluateAll]
  | cons expr exprs ih => simp [evaluateAll, ih]

namespace Session

/-- A program that can be read is evaluated expression by expression. -/
theorem evalAll_of_read {program : String} {exprs : List Value} (h : read program = .ok exprs)
    (s : Session) :
    s.evalAll program = s.perform (Machine.evaluateAll s.limit s.env exprs) := by
  have hbalanced : isBalanced program.toList = true := by
    have := ((exists_read_iff_flat program).1 ⟨exprs, h⟩).2.1
    simp [isBalanced, this]
  rw [evalAll, Machine.evaluateText, if_pos hbalanced, h]
  rfl

/-- Expressions are evaluated in the session that those before them have left. -/
theorem perform_evaluateAll_append (s : Session) (exprs exprs' : List Value) :
    s.perform (Machine.evaluateAll s.limit s.env (exprs ++ exprs')) =
      match s.perform (Machine.evaluateAll s.limit s.env exprs) with
      | (.error e, u) => (.error e, u)
      | (.ok vs, u) =>
        ((u.perform (Machine.evaluateAll u.limit u.env exprs')).1.map (vs ++ ·),
          (u.perform (Machine.evaluateAll u.limit u.env exprs')).2) := by
  obtain ⟨store, env, limit⟩ := s
  simp only [perform, Machine.evaluateAll_append, bind, EStateM.bind]
  rcases Machine.evaluateAll limit env exprs store with ⟨vs, store'⟩ | ⟨e, store'⟩
  · dsimp only
    rcases Machine.evaluateAll limit env exprs' store' with ⟨ws, store''⟩ | ⟨e, store''⟩
    · rfl
    · rfl
  · rfl

/-- Evaluates a program and, unless that fails, another one. -/
def evalInTurn (first second : String) (s : Session) : Except Error (List Value) × Session :=
  match s.evalAll first with
  | (.error e, u) => (.error e, u)
  | (.ok vs, u) =>
    match u.evalAll second with
    | (.error e, u) => (.error e, u)
    | (.ok ws, u) => (.ok (vs ++ ws), u)

/-- A joined program does what its parts do in turn, if they can be read. -/
theorem evalAll_append_blank {a b w : String} {vs ws : List Value} (ha : read a = .ok vs)
    (hb : read b = .ok ws) (hw : w ≠ "") (hblank : ∀ c ∈ w.toList, Text.isBlank c = true)
    (s : Session) : s.evalAll (a ++ w ++ b) = s.evalInTurn a b := by
  have hread : read (a ++ w ++ b) = .ok (vs ++ ws) := by
    rw [read_append_blank ha hw hblank, hb]
    rfl
  rw [evalAll_of_read hread, perform_evaluateAll_append, evalInTurn, evalAll_of_read ha]
  rcases s.perform (Machine.evaluateAll s.limit s.env vs) with ⟨e | us, u⟩
  · rfl
  · dsimp only
    rw [evalAll_of_read hb]
    rcases u.perform (Machine.evaluateAll u.limit u.env ws) with ⟨e | us', u'⟩
    · rfl
    · rfl

end Session

/-- **Joined texts are read and evaluated in turn.** Let a text be readable and let blanks, at least
one, be put between it and a second text. Then the whole is read as the expressions of the first and
behind them those of the second, or fails with the error of the second. If the second can be read as
well, evaluating the whole from any session gives the values, the error and the session of
evaluating the first and, unless that fails, the second. -/
theorem joined_texts_run_in_turn {a w : String} {vs : List Value} (ha : read a = .ok vs)
    (hw : w ≠ "") (hblank : ∀ c ∈ w.toList, Text.isBlank c = true) (b : String) :
    (∀ ws, read b = .ok ws → read (a ++ w ++ b) = .ok (vs ++ ws) ∧
      ∀ s : Session, s.evalAll (a ++ w ++ b) = s.evalInTurn a b) ∧
    ∀ e, read b = .error e → read (a ++ w ++ b) = .error e := by
  refine ⟨fun ws hb ↦ ⟨?_, Session.evalAll_append_blank ha hb hw hblank⟩, fun e hb ↦ ?_⟩
  · rw [read_append_blank ha hw hblank, hb]
    rfl
  · rw [read_append_blank ha hw hblank, hb]
    rfl

/-- Behind `(def x 2) 'x` and a line feed, a stray bracket is reported as it is by itself, and a
program runs in the session in which `x` is defined, up to the name that is not. -/
theorem joined_texts_run_in_turn_unbound :
    let a := "(def x 2) 'x"
    let vs : List Value := [.list [.symbol ⟨"def"⟩, .symbol ⟨"x"⟩, .int 2],
      .list [.symbol ⟨"quote"⟩, .symbol ⟨"x"⟩]]
    read a = .ok vs ∧ read (a ++ "\n" ++ "x) y") = .error .unexpectedCloser ∧
      (Session.start 20).evalAll (a ++ "\n" ++ "(+ x 1) y") =
        (Session.start 20).evalInTurn a "(+ x 1) y" ∧
      ((Session.start 20).evalAll (a ++ "\n" ++ "(+ x 1) y")).1 = .error (.unboundLookup "y") := by
  intro a vs
  have ha : read a = .ok vs := by decide +kernel
  have hstray : read "x) y" = .error .unexpectedCloser := by decide +kernel
  have hb : read "(+ x 1) y" =
      .ok [.list [.symbol ⟨"+"⟩, .symbol ⟨"x"⟩, .int 1], .symbol ⟨"y"⟩] := by
    decide +kernel
  have hfeed : "\n" ≠ "" ∧ ∀ c ∈ "\n".toList, Text.isBlank c = true :=
    ⟨by decide, List.all_eq_true.1 (by decide)⟩
  obtain ⟨-, herror⟩ := joined_texts_run_in_turn ha hfeed.1 hfeed.2 "x) y"
  obtain ⟨hok, -⟩ := joined_texts_run_in_turn ha hfeed.1 hfeed.2 "(+ x 1) y"
  exact ⟨ha, herror _ hstray, (hok _ hb).2 _, by decide +kernel⟩

end ReverseLisp
