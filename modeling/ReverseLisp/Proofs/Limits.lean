import ReverseLisp.Proofs.Analysis
import ReverseLisp.Proofs.Growth

/-!
# Limits only cut off

Every run has a limit on how deeply it may nest. Exceeding it is an error, and nothing that runs
looks at that error or at the limit itself. So the limit decides whether a run is cut off and
nothing else: what ends under one limit ends the same way under every larger one.

`Action.CutsShort x y` says that the action `x` does what `y` does, unless it is cut off. What is
cut off stops at once, so the relation goes through sequences of actions, and by induction on the
limit through runs.

## Counting the nesting of analysis

An expression that passes the analysis is refused if its node is nested more deeply than the limit
allows. `Value.analyzeWithin` counts the nesting while the analysis goes on, with every rewriting
made as an expression and analysed again, so that an expression may be cut off before a defect in it
is found. The two ways of counting agree wherever the second comes to an end, and limits only cut
off under either.
-/

namespace ReverseLisp

variable {β α δ : Type}

/-! ## Actions -/

namespace Action

/-- The first action does what the second does, unless it is cut off. -/
def CutsShort (x y : Action β α) : Prop :=
  ∀ s, Outcome.isCutOff (x.run s) = true ∨ y.run s = x.run s

namespace CutsShort

theorem run_eq {x y : Action β α} (h : CutsShort x y) {s : Store β}
    (hcut : Outcome.isCutOff (x.run s) = false) : y.run s = x.run s :=
  (h s).resolve_left (Bool.not_eq_true _ ▸ hcut)

theorem refl (x : Action β α) : CutsShort x x := fun _ ↦ .inr rfl

theorem throw (y : Action β α) : CutsShort (MonadExcept.throw .recursionLimit) y :=
  fun _ ↦ .inl rfl

theorem bind {x y : Action β α} {f g : α → Action β δ} (h : CutsShort x y)
    (hfg : ∀ a, CutsShort (f a) (g a)) : CutsShort (x >>= f) (y >>= g) := by
  intro s
  rw [EStateM.run_bind, EStateM.run_bind]
  rcases h s with hcut | heq
  · obtain ⟨t, ht⟩ := Outcome.isCutOff_iff.1 hcut
    rw [ht]
    exact .inl rfl
  · rw [heq]
    -- both go on from the same store, or both have failed
    match x.run s with
    | .ok a t => exact hfg a t
    | .error err t => exact .inr rfl

theorem trans {x y z : Action β α} (h : CutsShort x y) (h' : CutsShort y z) : CutsShort x z := by
  intro s
  rcases h s with hcut | heq
  · exact .inl hcut
  · rw [← heq]
    exact h' s

theorem mapM {f g : δ → Action β α} (h : ∀ v, CutsShort (f v) (g v)) (vs : List δ) :
    CutsShort (vs.mapM f) (vs.mapM g) := by
  induction vs with
  | nil => exact .refl _
  | cons v vs ih =>
    rw [List.mapM_cons, List.mapM_cons]
    exact (h v).bind fun a ↦ ih.bind fun as ↦ .refl _

end CutsShort

end Action

/-! ## Runs -/

namespace Machine

open ReverseLisp.Action (CutsShort)

theorem collect_cutsShort {run run' : Node → Machine Value} (h : ∀ n, CutsShort (run n) (run' n))
    (ns : List Node) : CutsShort (collect run ns) (collect run' ns) := by
  rw [collect_eq_mapM, collect_eq_mapM]
  exact .mapM h ns

theorem inOrder_cutsShort {run run' : Node → Machine Value} (h : ∀ n, CutsShort (run n) (run' n))
    (ns : List Node) : CutsShort (inOrder run ns) (inOrder run' ns) := by
  induction ns with
  | nil => exact .refl _
  | cons n ns ih =>
    match ns with
    | [] => exact h n
    | _ :: _ => exact (h n).bind fun _ ↦ ih

theorem applyWith_cutsShort {run run' : Node → EnvId → Machine Value}
    (h : ∀ node e, CutsShort (run node e) (run' node e)) (fn : Value) (args : List Value) :
    CutsShort (applyWith run fn args) (applyWith run' fn args) := by
  cases fn with
  | closure id params =>
    rw [applyWith, applyWith]
    split
    · refine (CutsShort.refl (Action.code? id)).bind fun code ↦ ?_
      rcases code with _ | c
      · exact .refl _
      · exact (CutsShort.refl _).bind fun e ↦ h c.body e
    · exact .refl _
  | _ => exact .refl _

/-- A run does under a larger limit what it does under a smaller one, unless this cuts it off. -/
theorem run_cutsShort {limit limit' : Nat} (h : limit ≤ limit') (node : Node) (e : EnvId) :
    CutsShort (run limit node e) (run limit' node e) := by
  induction limit generalizing limit' node e with
  | zero => exact .throw _
  | succ limit ih =>
    obtain ⟨limit', rfl⟩ : ∃ k, limit' = k + 1 := ⟨limit' - 1, by omega⟩
    have hrun := fun node e ↦ ih (Nat.le_of_succ_le_succ h) node e
    rw [run.eq_def, run.eq_def]
    cases node with
    | literal v => exact .refl _
    | lookup x => exact .refl _
    | branch test yes no =>
      refine (hrun test e).bind fun v ↦ ?_
      by_cases hv : v.isFalse = true
      · rw [if_pos hv, if_pos hv]
        exact hrun no e
      · rw [if_neg hv, if_neg hv]
        exact hrun yes e
    | define x value => exact (hrun value e).bind fun v ↦ .refl _
    | assign x value => exact (hrun value e).bind fun v ↦ .refl _
    | function params body source => exact .refl _
    | sequence nodes => exact inOrder_cutsShort (fun n ↦ hrun n e) nodes
    | application operator operands =>
      refine (hrun operator e).bind fun fn ↦ ?_
      refine (collect_cutsShort (fun n ↦ hrun n e) operands).bind fun args ↦ ?_
      exact applyWith_cutsShort hrun fn args

theorem analyze_cutsShort {limit limit' : Nat} (h : limit ≤ limit') (expr : Value) :
    CutsShort (analyze limit expr) (analyze limit' expr) := by
  refine (CutsShort.refl (Action.ofExcept expr.analyze)).bind fun node ↦ ?_
  by_cases hdepth : limit < node.depth
  · rw [if_pos hdepth]
    exact .throw _
  · rw [if_neg hdepth, if_neg (by omega)]
    exact .refl _

theorem evaluate_cutsShort {limit limit' : Nat} (h : limit ≤ limit') (expr : Value) (e : EnvId) :
    CutsShort (evaluate limit expr e) (evaluate limit' expr e) :=
  (analyze_cutsShort h expr).bind fun node ↦ run_cutsShort h node e

/-- Reads a program and evaluates its expressions in order, each by `one`. -/
def evaluateTextBy (one : Value → Machine Value) (program : String) : Machine (List Value) := do
  if isBalanced program.toList then (← Action.ofExcept (read program)).mapM one
  else throw .unbalanced

theorem evaluateText_eq (limit : Nat) (e : EnvId) (program : String) :
    evaluateText limit e program = evaluateTextBy (evaluate limit · e) program := by
  simp only [evaluateText, evaluateTextBy, evaluateAll_eq_mapM]

theorem evaluateTextBy_cutsShort {one one' : Value → Machine Value}
    (h : ∀ expr, CutsShort (one expr) (one' expr)) (program : String) :
    CutsShort (evaluateTextBy one program) (evaluateTextBy one' program) := by
  rw [evaluateTextBy, evaluateTextBy]
  split
  · exact (CutsShort.refl _).bind fun exprs ↦ .mapM h exprs
  · exact .refl _

theorem evaluateText_cutsShort {limit limit' : Nat} (h : limit ≤ limit') (e : EnvId)
    (program : String) :
    CutsShort (evaluateText limit e program) (evaluateText limit' e program) := by
  rw [evaluateText_eq, evaluateText_eq]
  exact evaluateTextBy_cutsShort (fun expr ↦ evaluate_cutsShort h expr e) program

theorem load_cutsShort {limit limit' : Nat} (h : limit ≤ limit') (e : EnvId)
    (programs : List String) : CutsShort (load limit e programs) (load limit' e programs) := by
  induction programs with
  | nil => exact .refl _
  | cons program programs ih => exact (evaluateText_cutsShort h e program).bind fun _ ↦ ih

end Machine

/-! ## Analysis that counts -/

namespace Value

/-- The nested branches that a conjunction stands for. -/
def conjunctionBranches : List Value → Value
  | [] => bool true
  | v :: vs => form .branch [v, conjunctionBranches vs, bool false]

/-- The nested branches that a disjunction stands for. -/
def disjunctionBranches : List Value → Value
  | [] => bool false
  | v :: vs => form .branch [v, bool true, disjunctionBranches vs]

mutual

/-- The node of an expression, with at most `limit` analyses inside one another. -/
def analyzeWithin : Nat → Value → Except Error Node
  | 0, _ => .error .recursionLimit
  | _ + 1, symbol x => .ok (.lookup x)
  | _ + 1, list [] => .ok (.literal (list []))
  | limit + 1, list (symbol x :: operands) =>
    match SpecialForm.ofSymbol? x, operands with
    | none, operands => do
      return .application (← analyzeWithin limit (symbol x)) (← operands.mapM (analyzeWithin limit))
    | some .quote, [v] => .ok (.literal v)
    | some .quote, _ => .error (.formArity .quote)
    | some .branch, [test, yes] => do
      return .branch (← analyzeWithin limit test) (← analyzeWithin limit yes)
        (.literal (bool false))
    | some .branch, [test, yes, no] => do
      return .branch (← analyzeWithin limit test) (← analyzeWithin limit yes)
        (← analyzeWithin limit no)
    | some .branch, _ => .error (.formArity .branch)
    | some .conjunction, operands => analyzeWithin limit (conjunctionBranches operands)
    | some .disjunction, operands => analyzeWithin limit (disjunctionBranches operands)
    | some .definition, [name, value] => do
      return .define (← nameIn .definition name) (← analyzeWithin limit value)
    | some .definition, _ => .error (.formArity .definition)
    | some .assignment, [name, value] => do
      return .assign (← nameIn .assignment name) (← analyzeWithin limit value)
    | some .assignment, _ => .error (.formArity .assignment)
    | some .function, params :: body => do
      return .function (← parameters params) (← analyzeSequenceWithin limit body) body
    | some .function, [] => .error (.formArity .function)
    | some .sequence, operands => analyzeSequenceWithin limit operands
    | some .delay, [v] => analyzeWithin limit (form .function [list [], v])
    | some .delay, _ => .error (.formArity .delay)
  | limit + 1, list (operator :: operands) => do
    return .application (← analyzeWithin limit operator) (← operands.mapM (analyzeWithin limit))
  | _ + 1, foreign f => .error ((foreign f).errorShowing .notExpression)
  | _ + 1, v => .ok (.literal v)

/-- The node that runs several expressions in order. -/
def analyzeSequenceWithin : Nat → List Value → Except Error Node
  | 0, _ => .error .recursionLimit
  | limit + 1, vs => do return .ofList (← vs.mapM (analyzeWithin limit))

end

theorem analyzeEach_eq_mapM (vs : List Value) : analyzeEach vs = vs.mapM analyze := by
  induction vs with
  | nil => rfl
  | cons v vs ih => rw [analyzeEach, ih, List.mapM_cons]

/-! Rewriting before the analysis comes to the same as rewriting within it. -/

theorem analyze_conjunctionBranches (vs : List Value) :
    (conjunctionBranches vs).analyze = analyzeAnd vs := by
  induction vs with
  | nil => rfl
  | cons v vs ih =>
    rw [conjunctionBranches, form, analyze.eq_def]
    simp only [SpecialForm.ofSymbol?_word, ih]
    rfl

theorem analyze_disjunctionBranches (vs : List Value) :
    (disjunctionBranches vs).analyze = analyzeOr vs := by
  induction vs with
  | nil => rfl
  | cons v vs ih =>
    rw [disjunctionBranches, form, analyze.eq_def]
    simp only [SpecialForm.ofSymbol?_word, ih]
    rfl

theorem analyze_delay_eq_function (v : Value) :
    (form .delay [v]).analyze = (form .function [list [], v]).analyze := by
  change (do return .function [] (← v.analyze) [v]) =
    (do return .function [] (.ofList (← analyzeEach [v])) [v] : Except Error Node)
  rw [analyzeEach]
  cases v.analyze <;> rfl

end Value

/-! Nesting of nodes. -/

namespace Node

theorem depth_pos (n : Node) : 0 < n.depth := by
  match n with
  | literal _ | lookup _ => exact Nat.one_pos
  | branch _ _ _ | define _ _ | assign _ _ | function _ _ _ | sequence _ | application _ _ =>
    exact Nat.succ_pos _

theorem depthAll_le {ns : List Node} {k : Nat} (h : ∀ n ∈ ns, n.depth ≤ k) : depthAll ns ≤ k := by
  induction ns with
  | nil => exact Nat.zero_le k
  | cons n ns ih =>
    have ⟨hn, hns⟩ := List.forall_mem_cons.1 h
    exact Nat.max_le.2 ⟨hn, ih hns⟩

theorem depth_ofList_le {ns : List Node} {k : Nat} (h : ∀ n ∈ ns, n.depth ≤ k) :
    (ofList ns).depth ≤ k + 1 := by
  match ns with
  | [] => exact Nat.succ_le_succ (Nat.zero_le k)
  | [n] => exact Nat.le_succ_of_le (h n List.mem_cons_self)
  | _ :: _ :: _ => exact Nat.succ_le_succ (depthAll_le h)

end Node

namespace Except

/-- The first computation comes to what the other two do, with a property, unless it is cut off. -/
def CutsShort (P : α → Prop) (x x' y : Except Error α) : Prop :=
  x = .error .recursionLimit ∨ x' = x ∧ y = x ∧ ∀ a, x = .ok a → P a

namespace CutsShort

variable {P : α → Prop} {Q : δ → Prop}

theorem ok {a : α} (h : P a) : CutsShort P (.ok a) (.ok a) (.ok a) := by
  refine .inr ⟨rfl, rfl, ?_⟩
  rintro _ ⟨⟩
  exact h

theorem error (err : Error) : CutsShort P (.error err) (.error err) (.error err) :=
  .inr ⟨rfl, rfl, fun _ h ↦ nomatch h⟩

/-- What is not counted is never cut off. -/
theorem refl (x : Except Error α) : CutsShort (fun _ ↦ True) x x x :=
  .inr ⟨rfl, rfl, fun _ _ ↦ trivial⟩

theorem imp {P' : α → Prop} {x x' y : Except Error α} (h : CutsShort P x x' y)
    (hP : ∀ a, P a → P' a) : CutsShort P' x x' y :=
  h.imp_right fun ⟨hx', hy, hx⟩ ↦ ⟨hx', hy, fun a ha ↦ hP a (hx a ha)⟩

theorem bind {x x' y : Except Error α} {f f' g : α → Except Error δ} (h : CutsShort P x x' y)
    (hf : ∀ a, P a → CutsShort Q (f a) (f' a) (g a)) :
    CutsShort Q (x >>= f) (x' >>= f') (y >>= g) := by
  rcases h with rfl | ⟨hx', hy, hP⟩
  · exact .inl rfl
  · rw [hx', hy]
    match x with
    | .ok a => exact hf a (hP a rfl)
    | .error err => exact .error err

theorem mapM {f f' g : δ → Except Error α} (h : ∀ v, CutsShort P (f v) (f' v) (g v))
    (vs : List δ) :
    CutsShort (fun as ↦ ∀ a ∈ as, P a) (vs.mapM f) (vs.mapM f') (vs.mapM g) := by
  induction vs with
  | nil => exact .ok fun a ha ↦ nomatch ha
  | cons v vs ih =>
    rw [List.mapM_cons, List.mapM_cons, List.mapM_cons]
    exact (h v).bind fun a ha ↦ ih.bind fun as has ↦ .ok (List.forall_mem_cons.2 ⟨ha, has⟩)

end CutsShort

end Except

namespace Value

open ReverseLisp.Except (CutsShort)

variable {limit limit' : Nat}

/-- An analysis that counts comes to what the same analysis does under another limit and to what
the analysis that does not count does, unless it is cut off, and what it lets pass is not nested
more deeply than its limit. -/
def CountedWithin (limit limit' : Nat) (v : Value) : Prop :=
  CutsShort (fun n : Node ↦ n.depth ≤ limit) (analyzeWithin limit v) (analyzeWithin limit' v)
    v.analyze

/-- The same of several expressions that run in order. -/
def SequenceCountedWithin (limit limit' : Nat) (vs : List Value) : Prop :=
  CutsShort (fun n : Node ↦ n.depth ≤ limit) (analyzeSequenceWithin limit vs)
    (analyzeSequenceWithin limit' vs) (do return .ofList (← analyzeEach vs))

theorem sequenceCountedWithin (h : ∀ v, CountedWithin limit limit' v) (vs : List Value) :
    SequenceCountedWithin (limit + 1) (limit' + 1) vs := by
  unfold SequenceCountedWithin
  rw [analyzeSequenceWithin, analyzeSequenceWithin, analyzeEach_eq_mapM]
  exact (CutsShort.mapM h vs).bind fun ns hns ↦ .ok (Node.depth_ofList_le hns)

/-- An analysis that hands over to another one, which nests in it, adds no node. -/
theorem CountedWithin.handOver {v : Value} (h : CountedWithin limit limit' v) :
    CutsShort (fun n : Node ↦ n.depth ≤ limit + 1) (analyzeWithin limit v) (analyzeWithin limit' v)
      v.analyze :=
  h.imp fun _ hn ↦ Nat.le_succ_of_le hn

theorem countedWithin_form (h : ∀ v, CountedWithin limit limit' v)
    (hs : ∀ vs, SequenceCountedWithin limit limit' vs) (f : SpecialForm) (operands : List Value) :
    CountedWithin (limit + 1) (limit' + 1) (form f operands) := by
  match f, operands with
  | .quote, [v] => exact .ok (Nat.succ_le_succ (Nat.zero_le limit))
  | .branch, [test, yes] =>
    refine (h test).bind fun t ht ↦ (h yes).bind fun y hy ↦ .ok ?_
    have := t.depth_pos
    simp only [Node.depth]
    omega
  | .branch, [test, yes, no] =>
    refine (h test).bind fun t ht ↦ (h yes).bind fun y hy ↦ (h no).bind fun n hn ↦ .ok ?_
    simp only [Node.depth]
    omega
  | .conjunction, operands =>
    have hrest := (h (conjunctionBranches operands)).handOver
    rw [analyze_conjunctionBranches] at hrest
    exact hrest
  | .disjunction, operands =>
    have hrest := (h (disjunctionBranches operands)).handOver
    rw [analyze_disjunctionBranches] at hrest
    exact hrest
  | .definition, [name, value] | .assignment, [name, value] =>
    exact (CutsShort.refl _).bind fun x _ ↦ (h value).bind fun n hn ↦ .ok (Nat.succ_le_succ hn)
  | .function, params :: body =>
    have hbody (xs : List Symbol) : (do return .function xs (.ofList (← analyzeEach body)) body) =
        (do return .ofList (← analyzeEach body)) >>= fun n : Node ↦
          (.ok (.function xs n body) : Except Error Node) := by
      cases analyzeEach body <;> rfl
    refine (CutsShort.refl params.parameters).bind fun xs _ ↦ ?_
    rw [hbody]
    exact (hs body).bind fun n hn ↦ .ok (Nat.succ_le_succ hn)
  | .sequence, operands => exact (hs operands).imp fun n hn ↦ Nat.le_succ_of_le hn
  | .delay, [v] =>
    have hrest := (h (form .function [list [], v])).handOver
    rw [← analyze_delay_eq_function] at hrest
    exact hrest
  | .quote, [] | .quote, _ :: _ :: _ | .branch, [] | .branch, [_] | .branch, _ :: _ :: _ :: _ :: _
  | .definition, [] | .definition, [_] | .definition, _ :: _ :: _ :: _ | .assignment, []
  | .assignment, [_] | .assignment, _ :: _ :: _ :: _ | .function, [] | .delay, []
  | .delay, _ :: _ :: _ => exact .error _

theorem analyzeWithin_application {operator : Value} (hw : operator.isFormWord = false)
    (operands : List Value) :
    analyzeWithin (limit + 1) (list (operator :: operands)) = do
      return .application (← analyzeWithin limit operator)
        (← operands.mapM (analyzeWithin limit)) := by
  match operator with
  | symbol x =>
    have hx : SpecialForm.ofSymbol? x = none := by simpa [isFormWord] using hw
    rw [analyzeWithin.eq_def]
    simp only [hx]
  | list _ | int _ | binary _ | nan _ | bool _ | closure _ _ | primitive _ | foreign _ => rfl

theorem countedWithin_application (h : ∀ v, CountedWithin limit limit' v) {operator : Value}
    (hw : operator.isFormWord = false) (operands : List Value) :
    CountedWithin (limit + 1) (limit' + 1) (list (operator :: operands)) := by
  unfold CountedWithin
  rw [analyzeWithin_application hw, analyzeWithin_application hw, Analysis.analyze_application hw,
    analyzeEach_eq_mapM]
  refine (h operator).bind fun n hn ↦ (CutsShort.mapM h operands).bind fun ns hns ↦ .ok ?_
  exact Nat.succ_le_succ (Nat.max_le.2 ⟨hn, Node.depthAll_le hns⟩)

/-- Analysis that counts, of one expression and of several, by induction on the limit. -/
theorem countedWithin_of_le (h : limit ≤ limit') :
    (∀ v, CountedWithin limit limit' v) ∧ ∀ vs, SequenceCountedWithin limit limit' vs := by
  induction limit generalizing limit' with
  | zero => exact ⟨fun _ ↦ .inl rfl, fun _ ↦ .inl rfl⟩
  | succ limit ih =>
    obtain ⟨limit', rfl⟩ : ∃ k, limit' = k + 1 := ⟨limit' - 1, by omega⟩
    have ⟨hone, hmany⟩ := ih (Nat.le_of_succ_le_succ h)
    refine ⟨fun v ↦ ?_, sequenceCountedWithin hone⟩
    match v with
    | list items =>
      rcases list_cases items with rfl | ⟨f, operands, hf⟩ | ⟨operator, operands, rfl, hw⟩
      · exact .ok (Nat.succ_le_succ (Nat.zero_le limit))
      · rw [hf]
        exact countedWithin_form hone hmany f operands
      · exact countedWithin_application hone hw operands
    | foreign _ => exact .error _
    | symbol _ | int _ | binary _ | nan _ | bool _ | closure _ _ | primitive _ =>
      exact .ok (Nat.succ_le_succ (Nat.zero_le limit))

end Value

namespace Machine

open ReverseLisp.Action (CutsShort)

/-- Checks an expression, counting how deeply its analysis nests, and runs it once. -/
def evaluateCounting (limit : Nat) (expr : Value) (e : EnvId) : Machine Value := do
  run limit (← Action.ofExcept (expr.analyzeWithin limit)) e

theorem evaluateCounting_cutsShort {limit limit' : Nat} (h : limit ≤ limit') (expr : Value)
    (e : EnvId) : CutsShort (evaluateCounting limit expr e) (evaluateCounting limit' expr e) := by
  refine CutsShort.bind ?_ fun node ↦ run_cutsShort h node e
  rcases (Value.countedWithin_of_le h).1 expr with hcut | ⟨hlarger, -, -⟩
  · rw [hcut]
    exact .throw _
  · rw [hlarger]
    exact .refl _

/-- Counting during the analysis cuts off no less than counting after it. -/
theorem evaluateCounting_cutsShort_evaluate (limit : Nat) (expr : Value) (e : EnvId) :
    CutsShort (evaluateCounting limit expr e) (evaluate limit expr e) := by
  refine CutsShort.bind ?_ fun node ↦ .refl _
  rcases (Value.countedWithin_of_le (Nat.le_refl limit)).1 expr with hcut | ⟨-, hplain, hdepth⟩
  · rw [hcut]
    exact .throw _
  · rw [analyze, hplain]
    match hx : expr.analyzeWithin limit with
    | .ok node =>
      have hpass : ¬ limit < node.depth := Nat.not_lt.2 (hdepth node hx)
      change CutsShort (pure node) (if limit < node.depth then throw .recursionLimit else pure node)
      rw [if_neg hpass]
      exact .refl _
    | .error err => exact .refl _

/-- Reads a program and evaluates its expressions, counting how deeply each analysis nests. -/
def evaluateTextCounting (limit : Nat) (e : EnvId) (program : String) : Machine (List Value) :=
  evaluateTextBy (evaluateCounting limit · e) program

theorem evaluateTextCounting_cutsShort {limit limit' : Nat} (h : limit ≤ limit') (e : EnvId)
    (program : String) :
    CutsShort (evaluateTextCounting limit e program) (evaluateTextCounting limit' e program) :=
  evaluateTextBy_cutsShort (fun expr ↦ evaluateCounting_cutsShort h expr e) program

theorem evaluateTextCounting_cutsShort_evaluateText {limit limit' : Nat} (h : limit ≤ limit')
    (e : EnvId) (program : String) :
    CutsShort (evaluateTextCounting limit e program) (evaluateText limit' e program) := by
  rw [evaluateText_eq]
  refine evaluateTextBy_cutsShort (fun expr ↦ ?_) program
  exact (evaluateCounting_cutsShort_evaluate limit expr e).trans (evaluate_cutsShort h expr e)

end Machine

/-! ## Sessions -/

namespace Session

/-- The same session under another limit. -/
def withLimit (limit : Nat) (s : Session) : Session := ⟨s.store, s.env, limit⟩

/-- Evaluates a program, counting how deeply each analysis nests. -/
def evalAllCounting (program : String) (s : Session) : Except Error (List Value) × Session :=
  s.perform (Machine.evaluateTextCounting s.limit s.env program)

/-- Puts programs to a session one after another, whether they succeed or fail, and collects the
answers that `ask` gives. -/
def askEach (ask : String → Session → Except Error (List Value) × Session) :
    List String → Session → List (Except Error (List Value)) × Session
  | [], s => ([], s)
  | program :: programs, s =>
    let (answer, s) := ask program s
    let (answers, s) := askEach ask programs s
    (answer :: answers, s)

/-- Evaluates programs one after another, whether they succeed or fail, and collects the answers. -/
def evalEach : List String → Session → List (Except Error (List Value)) × Session :=
  askEach evalAll

/-- Evaluates programs one after another, counting how deeply each analysis nests. -/
def evalEachCounting : List String → Session → List (Except Error (List Value)) × Session :=
  askEach evalAllCounting

variable {limit limit' : Nat} {s : Session}

/-- What is not cut off under a limit has the same result and leaves the same store under
another. -/
theorem perform_withLimit {x y : Machine α} (h : Action.CutsShort x y)
    (hcut : ((s.withLimit limit).perform x).1 ≠ .error .recursionLimit) :
    (s.withLimit limit').perform y =
      Prod.map id (withLimit limit') ((s.withLimit limit).perform x) := by
  have hxy : y s.store = x s.store := by
    refine (h s.store).resolve_left fun hoff ↦ hcut ?_
    obtain ⟨t, ht⟩ := Outcome.isCutOff_iff.1 hoff
    exact congrArg Prod.fst (perform_eq_error_iff (s := s.withLimit limit).2 ⟨t, ht, rfl⟩)
  simp only [perform, withLimit, hxy]
  rcases x s.store with ⟨a, t⟩ | ⟨err, t⟩
  · rfl
  · rfl

theorem withLimit_perform (x : Machine α) :
    ((s.withLimit limit).perform x).2.withLimit limit = ((s.withLimit limit).perform x).2 := by
  rw [perform_snd]
  rfl

/-- `ask'` answers under the second limit as `ask` does under the first, unless this is cut off. -/
def AsksAlike (limit limit' : Nat)
    (ask ask' : String → Session → Except Error (List Value) × Session) : Prop :=
  ∀ (s : Session) program, (ask program (s.withLimit limit)).1 ≠ .error .recursionLimit →
    ask' program (s.withLimit limit') =
      Prod.map id (withLimit limit') (ask program (s.withLimit limit))

theorem evalAll_asksAlike (h : limit ≤ limit') : AsksAlike limit limit' evalAll evalAll :=
  fun s program ↦ perform_withLimit (Machine.evaluateText_cutsShort h s.env program)

theorem evalAllCounting_asksAlike (h : limit ≤ limit') :
    AsksAlike limit limit' evalAllCounting evalAllCounting :=
  fun s program ↦ perform_withLimit (Machine.evaluateTextCounting_cutsShort h s.env program)

theorem evalAllCounting_asksAlike_evalAll (h : limit ≤ limit') :
    AsksAlike limit limit' evalAllCounting evalAll :=
  fun s program ↦
    perform_withLimit (Machine.evaluateTextCounting_cutsShort_evaluateText h s.env program)

/-- What holds of every program holds of a session, as long as asking leaves the limit as it is. -/
theorem AsksAlike.askEach {ask ask' : String → Session → Except Error (List Value) × Session}
    (h : AsksAlike limit limit' ask ask')
    (hlimit : ∀ (s : Session) program,
      (ask program (s.withLimit limit)).2.withLimit limit = (ask program (s.withLimit limit)).2)
    (programs : List String)
    (hcut : .error .recursionLimit ∉ (Session.askEach ask programs (s.withLimit limit)).1) :
    Session.askEach ask' programs (s.withLimit limit') =
      Prod.map id (withLimit limit') (Session.askEach ask programs (s.withLimit limit)) := by
  induction programs generalizing s with
  | nil => rfl
  | cons program programs ih =>
    simp only [Session.askEach, List.mem_cons, not_or] at hcut ⊢
    have hfirst := h s program (Ne.symm hcut.1)
    have hrest := @ih (ask program (s.withLimit limit)).2
    rw [hlimit] at hrest
    rw [hfirst, Prod.map_snd, hrest hcut.2]
    rfl

theorem withLibrary_withLimit (h : limit ≤ limit') (programs : List String)
    (hcut : withLibrary limit programs ≠ .error .recursionLimit) :
    withLibrary limit' programs = (withLibrary limit programs).map (withLimit limit') := by
  have hload : ((start limit).load programs).1 ≠ .error .recursionLimit := by
    intro hoff
    exact hcut (congrArg (Except.map fun _ ↦ ((start limit).load programs).2) hoff)
  have hsame : (start limit').load programs =
      Prod.map id (withLimit limit') ((start limit).load programs) :=
    perform_withLimit (s := start limit) (Machine.load_cutsShort h _ programs) hload
  rw [withLibrary, withLibrary, hsame]
  match (start limit).load programs with
  | (.ok _, _) => rfl
  | (.error _, _) => rfl

end Session

/-- **Limits only cut off.** What evaluation comes to under a limit, a value or an error other than
being cut off, it comes to under every larger limit, with the same store, whether the nesting of
the analysis is counted while it goes on or on the node that it gives; and the two ways of counting
come to the same where the first is not cut off. So a program that is not cut off has the same
answer and leaves the same store under every larger limit, and so has a session none of whose
programs is cut off, by either way of counting; and so have the programs that a session starts
from. -/
theorem larger_limits_change_no_outcome {limit limit' : Nat} (h : limit ≤ limit') :
    (∀ expr e s, Outcome.isCutOff (EStateM.run (Machine.evaluate limit expr e) s) = false →
      EStateM.run (Machine.evaluate limit' expr e) s =
        EStateM.run (Machine.evaluate limit expr e) s) ∧
    (∀ expr e s, Outcome.isCutOff (EStateM.run (Machine.evaluateCounting limit expr e) s) = false →
      EStateM.run (Machine.evaluateCounting limit' expr e) s =
          EStateM.run (Machine.evaluateCounting limit expr e) s ∧
        EStateM.run (Machine.evaluate limit expr e) s =
          EStateM.run (Machine.evaluateCounting limit expr e) s) ∧
    (∀ (s : Session) program,
      ((s.withLimit limit).evalAll program).1 ≠ .error .recursionLimit →
        (s.withLimit limit').evalAll program =
          Prod.map id (Session.withLimit limit') ((s.withLimit limit).evalAll program)) ∧
    (∀ (s : Session) program,
      ((s.withLimit limit).evalAllCounting program).1 ≠ .error .recursionLimit →
        (s.withLimit limit').evalAllCounting program =
            Prod.map id (Session.withLimit limit') ((s.withLimit limit).evalAllCounting program) ∧
          (s.withLimit limit').evalAll program =
            Prod.map id (Session.withLimit limit') ((s.withLimit limit).evalAllCounting program)) ∧
    (∀ (s : Session) programs,
      .error .recursionLimit ∉ ((s.withLimit limit).evalEach programs).1 →
        (s.withLimit limit').evalEach programs =
          Prod.map id (Session.withLimit limit') ((s.withLimit limit).evalEach programs)) ∧
    (∀ (s : Session) programs,
      .error .recursionLimit ∉ ((s.withLimit limit).evalEachCounting programs).1 →
        (s.withLimit limit').evalEachCounting programs =
            Prod.map id (Session.withLimit limit')
              ((s.withLimit limit).evalEachCounting programs) ∧
          (s.withLimit limit').evalEach programs =
            Prod.map id (Session.withLimit limit')
              ((s.withLimit limit).evalEachCounting programs)) ∧
    ∀ programs, Session.withLibrary limit programs ≠ .error .recursionLimit →
      Session.withLibrary limit' programs =
        (Session.withLibrary limit programs).map (Session.withLimit limit') := by
  refine ⟨?_, ?_, ?_, ?_, ?_, ?_, ?_⟩
  · intro expr e s hcut
    exact (Machine.evaluate_cutsShort h expr e).run_eq hcut
  · intro expr e s hcut
    exact ⟨(Machine.evaluateCounting_cutsShort h expr e).run_eq hcut,
      (Machine.evaluateCounting_cutsShort_evaluate limit expr e).run_eq hcut⟩
  · exact Session.evalAll_asksAlike h
  · intro s program hcut
    exact ⟨Session.evalAllCounting_asksAlike h s program hcut,
      Session.evalAllCounting_asksAlike_evalAll h s program hcut⟩
  · intro s programs hcut
    exact (Session.evalAll_asksAlike h).askEach
      (fun _ _ ↦ Session.withLimit_perform _) programs hcut
  · intro s programs hcut
    exact ⟨(Session.evalAllCounting_asksAlike h).askEach
        (fun _ _ ↦ Session.withLimit_perform _) programs hcut,
      (Session.evalAllCounting_asksAlike_evalAll h).askEach
        (fun _ _ ↦ Session.withLimit_perform _) programs hcut⟩
  · exact fun programs hcut ↦ Session.withLibrary_withLimit h programs hcut

/-- A session that defines a function calling itself and that fails in its last program. Seven is
the largest limit that cuts it off. Under eight it goes through by either way of counting, and so it
does under every larger limit. -/
theorem larger_limits_change_no_outcome_countdown :
    let programs := ["(def count (fun (n) (if (= n 0) n (count (- n 1)))))", "(count 2)", "(car n)"]
    .error .recursionLimit ∈ ((Session.start 7).evalEach programs).1 ∧
      .error .recursionLimit ∉ ((Session.start 8).evalEach programs).1 ∧
      ((Session.start 100000).evalEach programs).1 = ((Session.start 8).evalEach programs).1 ∧
      ((Session.start 100000).evalEach programs).2.store =
        ((Session.start 8).evalEach programs).2.store ∧
      .error .recursionLimit ∉ ((Session.start 8).evalEachCounting programs).1 ∧
      ((Session.start 100000).evalEachCounting programs).1 =
        ((Session.start 8).evalEachCounting programs).1 := by
  intro programs
  have hcut : .error .recursionLimit ∈ ((Session.start 7).evalEach programs).1 := by decide +kernel
  have hpass : .error .recursionLimit ∉ ((Session.start 8).evalEach programs).1 := by
    decide +kernel
  have hpass' : .error .recursionLimit ∉ ((Session.start 8).evalEachCounting programs).1 := by
    decide +kernel
  have hle : 8 ≤ 100000 := by decide
  have hstart : (Session.start 8).withLimit 100000 = Session.start 100000 := rfl
  have ⟨_, _, _, _, heach, hcounting, _⟩ := larger_limits_change_no_outcome hle
  have hsame := heach (Session.start 8) programs hpass
  have hsame' := (hcounting (Session.start 8) programs hpass').1
  rw [hstart] at hsame hsame'
  rw [hsame, hsame']
  exact ⟨hcut, hpass, rfl, rfl, hpass', rfl⟩

end ReverseLisp
