import ReverseLisp.Proofs.Analysis
import ReverseLisp.Proofs.Outcome
import ReverseLisp.Store.Lemmas

/-!
# Direct interpretation

An interpreter without analysis: it looks at the expression itself every time it is run, and its
closures keep the expressions of their bodies. It has a loop of its own for each form that analysis
rewrites, so conjunctions and disjunctions are not nested branches here, and a delayed expression is
not rewritten first.
-/

namespace ReverseLisp.Direct

/-- Runs unchecked programs. A closure keeps the expressions of its body. -/
abbrev Machine := Action (List Value)

mutual

/-- Evaluates an expression, where `call` applies a function to its arguments. -/
def eval (call : Value → List Value → Machine Value) : Value → EnvId → Machine Value
  | .symbol x, e => Action.lookup e (.symbol x)
  | .list [], _ => pure (.list [])
  | .list (.symbol x :: operands), e =>
    match SpecialForm.ofSymbol? x, operands with
    | none, operands => do
      let fn ← Action.lookup e (.symbol x)
      let args ← evalEach call operands e
      call fn args
    | some .quote, [v] => pure v
    | some .quote, _ => throw (.formArity .quote)
    | some .branch, [test, yes] => do
      let v ← eval call test e
      if v.isFalse then pure (.bool false) else eval call yes e
    | some .branch, [test, yes, no] => do
      let v ← eval call test e
      if v.isFalse then eval call no e else eval call yes e
    | some .branch, _ => throw (.formArity .branch)
    | some .conjunction, operands => evalAnd call operands e
    | some .disjunction, operands => evalOr call operands e
    | some .definition, [name, value] => do
      let x ← Action.ofExcept (Value.nameIn .definition name)
      let v ← eval call value e
      Action.define e (.symbol x) v
    | some .definition, _ => throw (.formArity .definition)
    | some .assignment, [name, value] => do
      let x ← Action.ofExcept (Value.nameIn .assignment name)
      let v ← eval call value e
      Action.assign e (.symbol x) v
    | some .assignment, _ => throw (.formArity .assignment)
    | some .function, params :: body => do
      let xs ← Action.ofExcept params.parameters
      Action.newClosure xs ⟨body, e, body⟩
    | some .function, [] => throw (.formArity .function)
    | some .sequence, operands => evalLast call operands e
    | some .delay, [v] => Action.newClosure [] ⟨[v], e, [v]⟩
    | some .delay, _ => throw (.formArity .delay)
  | .list (operator :: operands), e => do
    let fn ← eval call operator e
    let args ← evalEach call operands e
    call fn args
  | .foreign f, _ => throw ((Value.foreign f).errorShowing .notExpression)
  | v, _ => pure v

/-- Evaluates expressions from left to right and collects their values. -/
def evalEach (call : Value → List Value → Machine Value) :
    List Value → EnvId → Machine (List Value)
  | [], _ => pure []
  | v :: vs, e => do
    let w ← eval call v e
    let ws ← evalEach call vs e
    return w :: ws

/-- Evaluates expressions in order and keeps the last value. -/
def evalLast (call : Value → List Value → Machine Value) : List Value → EnvId → Machine Value
  | [], _ => pure (.list [])
  | [v], e => eval call v e
  | v :: vs, e => do
    let _ ← eval call v e
    evalLast call vs e

/-- Evaluates operands until one is false. -/
def evalAnd (call : Value → List Value → Machine Value) : List Value → EnvId → Machine Value
  | [], _ => pure (.bool true)
  | v :: vs, e => do
    let w ← eval call v e
    if w.isFalse then pure (.bool false) else evalAnd call vs e

/-- Evaluates operands until one is true. -/
def evalOr (call : Value → List Value → Machine Value) : List Value → EnvId → Machine Value
  | [], _ => pure (.bool false)
  | v :: vs, e => do
    let w ← eval call v e
    if w.isFalse then evalOr call vs e else pure (.bool true)

end

/-- Applies a function to its arguments, with at most `limit` calls inside one another. -/
def apply (limit : Nat) (fn : Value) (args : List Value) : Machine Value :=
  match limit with
  | 0 => throw .recursionLimit
  | limit + 1 =>
    match fn with
    | .closure id params =>
      if params.length = args.length then do
        match ← Action.code? id with
        | some code =>
          evalLast (apply limit) code.body (← Action.extend code.env (params.map .symbol) args)
        | none => throw (fn.errorShowing .notFunction)
      else throw (fn.errorShowing (.closureArity · params.length args.length))
    | .primitive p => Action.applyPrimitive p args
    | fn => throw (fn.errorShowing .notFunction)

/-- Interprets an expression, with at most `limit` calls inside one another. -/
def interpret (limit : Nat) (expr : Value) (e : EnvId) : Machine Value :=
  eval (apply limit) expr e

end ReverseLisp.Direct

namespace ReverseLisp

/-! ## Matching stores

Both interpreters name closures by the same numbers, so their values and frames are equal, and only
the code kept under a number differs. -/

/-- The code of a closure as direct interpretation keeps it. -/
def Code.forms (c : Code Node) : Code (List Value) := ⟨c.source, c.env, c.source⟩

/-- The body is what analysis makes of the expressions that it was made from. -/
def Code.IsAnalysis (c : Code Node) : Prop :=
  ∃ ns, Value.analyzeEach c.source = .ok ns ∧ c.body = .ofList ns

namespace Store

/-- The store with every body replaced by its expressions. -/
def forms (s : Store Node) : Store (List Value) := ⟨s.envs, s.codes.map Code.forms, s.marks⟩

/-- Every closure has the analysis of its expressions as its body. -/
def Analyzed (s : Store Node) : Prop :=
  ∀ (id : Nat) (c : Code Node), s.codes[id]? = some c → c.IsAnalysis

/-- An analysed store and the same store with expressions for bodies. -/
def HasForms (s : Store Node) (t : Store (List Value)) : Prop := s.Analyzed ∧ t = s.forms

theorem put_forms (s : Store Node) (e : EnvId) (x v : Value) :
    (s.put e x v).forms = s.forms.put e x v := by
  cases e <;> rfl

theorem Analyzed.put {s : Store Node} (h : s.Analyzed) (e : EnvId) (x v : Value) :
    (s.put e x v).Analyzed := by
  cases e <;> exact h

end Store

/-! ## Actions that both interpreters share -/

/-- Two families that give equal values and leave matching stores. -/
abbrev SameRuns {α : Type} (p q : Nat) (F : Nat → Machine α) (G : Nat → Direct.Machine α) : Prop :=
  Agree Eq Store.HasForms p q F G

namespace SameRuns

variable {p q : Nat}

theorem lookup (e : EnvId) (x : Value) :
    SameRuns p q (fun _ ↦ Action.lookup e x) (fun _ ↦ Action.lookup e x) := by
  refine .of_match ?_
  rintro s _ ⟨hs, rfl⟩
  have h : s.value? e x = s.forms.value? e x :=
    Store.value?_congr (s := s) (t := s.forms) rfl e x
  simp only [Action.lookup, EStateM.run, ← h]
  cases s.value? e x with
  | none => exact .error _ ⟨hs, rfl⟩
  | some v => exact .ok rfl ⟨hs, rfl⟩

theorem define (e : EnvId) (x : Symbol) (v : Value) :
    SameRuns p q (fun _ ↦ Action.define e (.symbol x) v)
      (fun _ ↦ Action.define e (.symbol x) v) := by
  refine .of_match ?_
  rintro s _ ⟨hs, rfl⟩
  simp only [Action.define, EStateM.run]
  split
  · exact .error _ ⟨hs, rfl⟩
  · exact .ok rfl ⟨hs.put e _ v, (s.put_forms e _ v).symm⟩

theorem assign (e : EnvId) (x v : Value) :
    SameRuns p q (fun _ ↦ Action.assign e x v) (fun _ ↦ Action.assign e x v) := by
  refine .of_match ?_
  rintro s _ ⟨hs, rfl⟩
  have h : s.find? e x = s.forms.find? e x :=
    Store.find?_congr (s := s) (t := s.forms) rfl e x
  simp only [Action.assign, EStateM.run, ← h]
  cases s.find? e x with
  | none => exact .error _ ⟨hs, rfl⟩
  | some e' => exact .ok rfl ⟨hs.put e' x v, (s.put_forms e' x v).symm⟩

theorem newEnv (frame : Frame) (e : EnvId) :
    SameRuns p q (fun _ ↦ Action.newEnv frame e) (fun _ ↦ Action.newEnv frame e) := by
  refine .of_match ?_
  rintro s _ ⟨hs, rfl⟩
  exact .ok rfl ⟨hs, rfl⟩

theorem extend (e : EnvId) (params args : List Value) :
    SameRuns p q (fun _ ↦ Action.extend e params args) (fun _ ↦ Action.extend e params args) := by
  simp only [Action.extend]
  split
  · split
    · exact newEnv _ e
    · exact .throw _
  · exact .throw _

theorem applyPrimitive (f : Primitive) (args : List Value) :
    SameRuns p q (fun _ ↦ Action.applyPrimitive f args) (fun _ ↦ Action.applyPrimitive f args) := by
  refine .of_match ?_
  rintro s _ ⟨hs, rfl⟩
  have h : s.forms.marks = s.marks := rfl
  simp only [Action.applyPrimitive, EStateM.run, h]
  cases f.apply s.marks args with
  | error e => exact .error _ ⟨hs, rfl⟩
  | ok v => exact .ok rfl ⟨hs, rfl⟩

/-- Making a closure keeps stores matching, since its body is the analysis of its expressions. -/
theorem newClosure (xs : List Symbol) (e : EnvId) {source : List Value} {ns : List Node}
    (h : Value.analyzeEach source = .ok ns) :
    SameRuns p q (fun _ ↦ Action.newClosure xs ⟨.ofList ns, e, source⟩)
      (fun _ ↦ Action.newClosure xs ⟨source, e, source⟩) := by
  refine .of_match ?_
  rintro s _ ⟨hs, rfl⟩
  have hsize : s.forms.codes.size = s.codes.size := Array.size_map
  simp only [Action.newClosure, EStateM.run, hsize]
  refine .ok rfl ⟨?_, ?_⟩
  · intro id c hc
    rw [Array.getElem?_push] at hc
    split at hc
    · cases hc
      exact ⟨ns, h, rfl⟩
    · exact hs id c hc
  · simp [Store.forms, Code.forms]

/-- What both stores keep of a closure. -/
theorem code? (id : Nat) :
    Agree (fun c d ↦ d = c.map Code.forms ∧ ∀ code ∈ c, code.IsAnalysis) Store.HasForms p q
      (fun _ ↦ Action.code? id) (fun _ ↦ Action.code? id) := by
  refine .of_match ?_
  rintro s _ ⟨hs, rfl⟩
  refine .ok ⟨?_, fun code hc ↦ hs id code hc⟩ ⟨hs, rfl⟩
  simp [Store.forms]

end SameRuns

/-! ## Agreement of expressions -/

/-- Every node of the expression, run below limit `n + 1`, and the expression, interpreted below
limit `n`, run the same. -/
def RunsDirectly (n : Nat) (expr : Value) : Prop :=
  ∀ node, expr.analyze = .ok node → ∀ e, SameRuns (n + 1) n (fun m ↦ Machine.run m node e)
    (fun k ↦ Direct.interpret k expr e)

namespace RunsDirectly

variable {n : Nat} {exprs : List Value}

theorem branch {t y f : Node} {e : EnvId} {T Y F : Nat → Direct.Machine Value}
    (ht : SameRuns (n + 1) n (fun m ↦ Machine.run m t e) T)
    (hy : SameRuns (n + 1) n (fun m ↦ Machine.run m y e) Y)
    (hf : SameRuns (n + 1) n (fun m ↦ Machine.run m f e) F) :
    SameRuns (n + 1) n (fun m ↦ Machine.run m (.branch t y f) e)
      (fun k ↦ do if (← T k).isFalse then F k else Y k) := by
  have hbody := ht.bind fun a b hab ↦ by
    subst hab
    exact hf.ite (c := a.isFalse = true) hy
  exact (hbody.nest_left rfl fun _ ↦ rfl).mono (by omega) (by omega)

theorem literal (v : Value) (e : EnvId) :
    SameRuns (n + 1) n (fun m ↦ Machine.run m (.literal v) e) (fun _ ↦ pure v) :=
  (Agree.pure (p := n) v).nest_left rfl fun _ ↦ rfl

/-- Both interpreters run a part of the expression, and then what depends on its value. -/
theorem valueThen {expr : Value} {node : Node} (h : RunsDirectly n expr)
    (hnode : expr.analyze = .ok node) (e : EnvId) {F : Value → Nat → Machine Value}
    {G : Value → Nat → Direct.Machine Value} (hFG : ∀ v, SameRuns n n (F v) (G v)) :
    SameRuns n n (fun m ↦ Machine.run m node e >>= fun v ↦ F v m)
      (fun k ↦ Direct.interpret k expr e >>= fun v ↦ G v k) := by
  -- the node may run one level further than what comes after it, so its bound is lowered first
  have hvalue := (h node hnode e).mono (Nat.le_succ n) (Nat.le_refl n)
  refine hvalue.bind ?_
  rintro v _ rfl
  exact hFG v

/-- Operands are run from left to right by both interpreters. -/
theorem collect (h : ∀ v ∈ exprs, RunsDirectly n v) {ns : List Node}
    (hn : Value.analyzeEach exprs = .ok ns) (e : EnvId) :
    SameRuns (n + 1) n (fun m ↦ Machine.collect (Machine.run m · e) ns)
      (fun k ↦ Direct.evalEach (Direct.apply k) exprs e) := by
  induction exprs generalizing ns with
  | nil =>
    cases hn
    exact .pure []
  | cons v vs ih =>
    obtain ⟨node, hv, hn⟩ := Except.bind_eq_ok_iff.1 hn
    obtain ⟨ns, hvs, hn⟩ := Except.bind_eq_ok_iff.1 hn
    cases hn
    refine (h v List.mem_cons_self node hv e).bind ?_
    rintro w _ rfl
    refine (ih (fun v' hv' ↦ h v' (List.mem_cons_of_mem _ hv')) hvs).bind ?_
    rintro ws _ rfl
    exact .pure (w :: ws)

/-- A sequence runs the same, whatever analysis made of its length. -/
theorem inOrder (h : ∀ v ∈ exprs, RunsDirectly n v) {ns : List Node}
    (hn : Value.analyzeEach exprs = .ok ns) (e : EnvId) :
    SameRuns (n + 1) n (fun m ↦ Machine.inOrder (Machine.run m · e) ns)
      (fun k ↦ Direct.evalLast (Direct.apply k) exprs e) := by
  induction exprs generalizing ns with
  | nil =>
    cases hn
    exact .pure (Value.list [])
  | cons v vs ih =>
    obtain ⟨node, hv, hn⟩ := Except.bind_eq_ok_iff.1 hn
    obtain ⟨ns, hvs, hn⟩ := Except.bind_eq_ok_iff.1 hn
    cases hn
    have hhead := h v List.mem_cons_self node hv e
    cases vs with
    | nil =>
      cases hvs
      exact hhead
    | cons w ws =>
      have htail := ih (fun v' hv' ↦ h v' (List.mem_cons_of_mem _ hv')) hvs
      obtain ⟨node', -, hvs⟩ := Except.bind_eq_ok_iff.1 hvs
      obtain ⟨ns', -, hvs⟩ := Except.bind_eq_ok_iff.1 hvs
      cases hvs
      refine hhead.bind ?_
      rintro _ _ -
      exact htail

theorem ofList (h : ∀ v ∈ exprs, RunsDirectly n v) {ns : List Node}
    (hn : Value.analyzeEach exprs = .ok ns) (e : EnvId) :
    SameRuns (n + 1) n (fun m ↦ Machine.run m (.ofList ns) e)
      (fun k ↦ Direct.evalLast (Direct.apply k) exprs e) := by
  have hall := inOrder h hn e
  match ns with
  | [] =>
    -- the literal of no nodes counts as one level of nesting
    exact ((hall.nest_left rfl fun _ ↦ rfl).mono (by omega) (by omega))
  | [node] => exact hall
  | _ :: _ :: _ => exact ((hall.nest_left rfl fun _ ↦ rfl).mono (by omega) (by omega))

/-- Nested branches run as the loop that stops at the first false operand. -/
theorem conjunction (h : ∀ v ∈ exprs, RunsDirectly n v) {node : Node}
    (hn : Value.analyzeAnd exprs = .ok node) (e : EnvId) :
    SameRuns (n + 1) n (fun m ↦ Machine.run m node e)
      (fun k ↦ Direct.evalAnd (Direct.apply k) exprs e) := by
  induction exprs generalizing node with
  | nil =>
    cases hn
    exact literal _ e
  | cons v vs ih =>
    obtain ⟨t, hv, hn⟩ := Except.bind_eq_ok_iff.1 hn
    obtain ⟨y, hvs, hn⟩ := Except.bind_eq_ok_iff.1 hn
    cases hn
    exact branch (h v List.mem_cons_self t hv e)
      (ih (fun v' hv' ↦ h v' (List.mem_cons_of_mem _ hv')) hvs) (literal _ e)

/-- Nested branches run as the loop that stops at the first true operand. -/
theorem disjunction (h : ∀ v ∈ exprs, RunsDirectly n v) {node : Node}
    (hn : Value.analyzeOr exprs = .ok node) (e : EnvId) :
    SameRuns (n + 1) n (fun m ↦ Machine.run m node e)
      (fun k ↦ Direct.evalOr (Direct.apply k) exprs e) := by
  induction exprs generalizing node with
  | nil =>
    cases hn
    exact literal _ e
  | cons v vs ih =>
    obtain ⟨t, hv, hn⟩ := Except.bind_eq_ok_iff.1 hn
    obtain ⟨f, hvs, hn⟩ := Except.bind_eq_ok_iff.1 hn
    cases hn
    exact branch (h v List.mem_cons_self t hv e) (literal _ e)
      (ih (fun v' hv' ↦ h v' (List.mem_cons_of_mem _ hv')) hvs)

end RunsDirectly

/-- Direct interpretation of a list whose head is no word of a special form. -/
theorem Direct.eval_application {call : Value → List Value → Direct.Machine Value}
    {operator : Value} (h : operator.isFormWord = false) (operands : List Value) (e : EnvId) :
    Direct.eval call (.list (operator :: operands)) e = (do
      let fn ← Direct.eval call operator e
      let args ← Direct.evalEach call operands e
      call fn args) := by
  cases operator with
  | symbol x =>
    have hx : SpecialForm.ofSymbol? x = none := by simpa [Value.isFormWord] using h
    rw [Direct.eval, Direct.eval]
    exact hx
  | _ =>
    rw [Direct.eval]
    simp

namespace RunsDirectly

/-- If calls agree, so do expressions: by induction on the expression, with the cases of its
analysis. -/
theorem of_calls {n : Nat}
    (calls : ∀ fn args, SameRuns n n (fun m ↦ Machine.applyWith (Machine.run m) fn args)
      (fun k ↦ Direct.apply k fn args)) (expr : Value) : RunsDirectly n expr := by
  induction expr using Value.induction_items with
  | step expr ih =>
    intro node hnode e
    cases Analysis.of_analyze hnode with
    | literal self =>
      have hd : ∀ k, Direct.interpret k expr e = pure expr := by
        intro k
        cases expr <;> first | rfl | simp [Value.standsForItself] at self
      simp only [hd]
      exact literal expr e
    | lookup x => exact (SameRuns.lookup (p := n) e (.symbol x)).nest_left rfl fun _ ↦ rfl
    | empty => exact literal _ e
    | quote v =>
      simp only [Direct.interpret, Value.form, Direct.eval, SpecialForm.ofSymbol?_word]
      exact literal v e
    | branch ht hy =>
      simp only [Direct.interpret, Value.form, Direct.eval, SpecialForm.ofSymbol?_word]
      exact branch (ih _ (by simp) _ ht e)
        (ih _ (by simp) _ hy e) (literal _ e)
    | branchElse ht hy hn =>
      simp only [Direct.interpret, Value.form, Direct.eval, SpecialForm.ofSymbol?_word]
      exact branch (ih _ (by simp) _ ht e)
        (ih _ (by simp) _ hy e)
        (ih _ (by simp) _ hn e)
    | conjunction h =>
      simp only [Direct.interpret, Value.form, Direct.eval, SpecialForm.ofSymbol?_word]
      exact conjunction (fun v hv ↦ ih v (by simp [hv])) h e
    | disjunction h =>
      simp only [Direct.interpret, Value.form, Direct.eval, SpecialForm.ofSymbol?_word]
      exact disjunction (fun v hv ↦ ih v (by simp [hv])) h e
    | definition x h =>
      simp only [Direct.interpret, Value.form, Direct.eval, SpecialForm.ofSymbol?_word]
      have hbody := valueThen (ih _ (by simp)) h e fun v ↦ SameRuns.define e x v
      exact hbody.nest_left rfl fun _ ↦ rfl
    | assignment x h =>
      simp only [Direct.interpret, Value.form, Direct.eval, SpecialForm.ofSymbol?_word]
      have hbody := valueThen (ih _ (by simp)) h e fun v ↦ SameRuns.assign e (.symbol x) v
      exact hbody.nest_left rfl fun _ ↦ rfl
    | @function params xs body ns hx h =>
      simp only [Direct.interpret, Value.form, Direct.eval, SpecialForm.ofSymbol?_word, hx]
      exact (SameRuns.newClosure (p := n) xs e h).nest_left rfl fun _ ↦ rfl
    | sequence h =>
      simp only [Direct.interpret, Value.form, Direct.eval, SpecialForm.ofSymbol?_word]
      exact ofList (fun v hv ↦ ih v (by simp [hv])) h e
    | @delay v node h =>
      simp only [Direct.interpret, Value.form, Direct.eval, SpecialForm.ofSymbol?_word]
      have hv : Value.analyzeEach [v] = .ok [node] := by
        simp only [Value.analyzeEach, h]
        rfl
      exact (SameRuns.newClosure (p := n) [] e hv).nest_left rfl fun _ ↦ rfl
    | application word h hs =>
      simp only [Direct.interpret, Direct.eval_application word]
      have hargs := collect (fun v hv ↦ ih v (by simp [hv])) hs e
      have hargs := hargs.mono (Nat.le_succ n) (Nat.le_refl n)
      have hbody := valueThen (ih _ (by simp)) h e fun fn ↦ hargs.bind fun args args' heq ↦ by
        subst heq
        exact calls fn args
      exact hbody.nest_left rfl fun _ ↦ rfl

/-- Calls agree if expressions do: a closure runs its body one level further down. -/
theorem calls_succ {n : Nat} (h : ∀ expr, RunsDirectly n expr) (fn : Value) (args : List Value) :
    SameRuns (n + 1) (n + 1) (fun m ↦ Machine.applyWith (Machine.run m) fn args)
      (fun k ↦ Direct.apply k fn args) := by
  cases fn with
  | closure id params =>
    refine Agree.nest_right (H := fun k ↦ if params.length = args.length then _ else _) ?_ rfl
      fun _ ↦ rfl
    refine Agree.ite ?_ (.throw _)
    refine (SameRuns.code? id).bind ?_
    rintro c _ ⟨rfl, hc⟩
    cases c with
    | none => exact .throw _
    | some code =>
      obtain ⟨ns, hns, hbody⟩ := hc code rfl
      refine (SameRuns.extend code.env _ args).bind ?_
      rintro e _ rfl
      rw [hbody]
      exact ofList (fun v _ ↦ h v) hns e
  | primitive p => exact (SameRuns.applyPrimitive p args).nest_right rfl fun _ ↦ rfl
  | _ => exact (Agree.throw _).nest_right rfl fun _ ↦ rfl

theorem calls (n : Nat) : ∀ fn args,
    SameRuns n n (fun m ↦ Machine.applyWith (Machine.run m) fn args)
      (fun k ↦ Direct.apply k fn args) := by
  induction n with
  | zero => exact fun _ _ ↦ ⟨fun m hm ↦ absurd hm m.not_lt_zero, fun m hm ↦ absurd hm m.not_lt_zero⟩
  | succ n ih => exact calls_succ (of_calls ih)

end RunsDirectly

/-! ## The two interpreters end alike -/

/-- An outcome with expressions for the bodies of its closures. -/
def Outcome.forms {α : Type} : Outcome Node α → Outcome (List Value) α
  | .ok a s => .ok a s.forms
  | .error e s => .error e s.forms

theorem Outcome.match_hasForms_iff {α : Type} {r : Outcome Node α} {r' : Outcome (List Value) α} :
    Outcome.Match Eq Store.HasForms r r' ↔ r.store.Analyzed ∧ r' = r.forms := by
  constructor
  · rintro (⟨rfl, hs, rfl⟩ | ⟨e, hs, rfl⟩)
    · exact ⟨hs, rfl⟩
    · exact ⟨hs, rfl⟩
  · rintro ⟨hs, rfl⟩
    cases r with
    | ok a s => exact .ok rfl ⟨hs, rfl⟩
    | error e s => exact .error e ⟨hs, rfl⟩

/-- **Analysis changes no outcome.** Let a store keep for every closure the analysis of its
expressions. Whatever the node of an expression gives at some limit without being cut off, direct
interpretation of the expression ends with: the same value or the same error, and the same store but
for the bodies of closures, each of which is again the analysis of its expressions. Conversely, the
node ends with whatever direct interpretation gives at some limit without being cut off. -/
theorem run_endsLike_interpret {expr : Value} {node : Node} (hnode : expr.analyze = .ok node)
    {s : Store Node} (hs : s.Analyzed) (e : EnvId) :
    (∀ limit, let r := EStateM.run (Machine.run limit node e) s
      Outcome.isCutOff r = true ∨ (Outcome.store r).Analyzed ∧
        EndsWith (fun n ↦ Direct.interpret n expr e) s.forms (Outcome.forms r)) ∧
    (∀ limit, let r' := EStateM.run (Direct.interpret limit expr e) s.forms
      Outcome.isCutOff r' = true ∨ ∃ r, Outcome.forms r = r' ∧ (Outcome.store r).Analyzed ∧
        EndsWith (fun n ↦ Machine.run n node e) s r) := by
  have hruns : ∀ n, SameRuns (n + 1) n (fun m ↦ Machine.run m node e)
      (fun k ↦ Direct.interpret k expr e) :=
    fun n ↦ RunsDirectly.of_calls (RunsDirectly.calls n) expr node hnode e
  constructor
  · intro limit
    rcases (hruns limit).forward limit (by omega) s _ ⟨hs, rfl⟩ with hcut | ⟨r', hr', hend⟩
    · exact .inl hcut
    · obtain ⟨hstore, rfl⟩ := Outcome.match_hasForms_iff.1 hr'
      exact .inr ⟨hstore, hend⟩
  · intro limit
    rcases (hruns (limit + 1)).backward limit (by omega) _ s ⟨hs, rfl⟩ with hcut | ⟨r, hr, hend⟩
    · exact .inl hcut
    · obtain ⟨hstore, hforms⟩ := Outcome.match_hasForms_iff.1 hr.flip
      exact .inr ⟨r, hforms.symm, hstore, hend⟩

/-- A store in which `f` names a function of `x` that defines `y` and tells whether both are
true. -/
def Direct.sampleStore : Store Node where
  envs := #[⟨⟨[(.symbol ⟨"f"⟩, .closure 0 [⟨"x"⟩])]⟩, 0⟩]
  codes := #[⟨.sequence [.define ⟨"y"⟩ (.lookup ⟨"x"⟩),
      .branch (.lookup ⟨"y"⟩)
        (.branch (.lookup ⟨"x"⟩) (.literal (.bool true)) (.literal (.bool false)))
        (.literal (.bool false))],
    1, [Value.form .definition [.symbol ⟨"y"⟩, .symbol ⟨"x"⟩],
      Value.form .conjunction [.symbol ⟨"y"⟩, .symbol ⟨"x"⟩]]⟩]
  marks := 0

/-- Calling `f` in that store: both interpreters find that five is true. -/
theorem run_endsLike_interpret_call :
    (Value.list [.symbol ⟨"f"⟩, .int 5]).analyze =
      .ok (.application (.lookup ⟨"f"⟩) [.literal (.int 5)]) ∧ Direct.sampleStore.Analyzed ∧
    EndsWith (fun n ↦ Direct.interpret n (.list [.symbol ⟨"f"⟩, .int 5]) 1) Direct.sampleStore.forms
      (.ok (.bool true) (Direct.sampleStore.forms.pushEnv
        ⟨⟨[(.symbol ⟨"x"⟩, .int 5), (.symbol ⟨"y"⟩, .int 5)]⟩, 1⟩)) := by
  have hnode : (Value.list [.symbol ⟨"f"⟩, .int 5]).analyze =
      .ok (.application (.lookup ⟨"f"⟩) [.literal (.int 5)]) := rfl
  have hstore : Direct.sampleStore.Analyzed := by
    intro id c hc
    match id with
    | 0 =>
      cases hc
      exact ⟨_, rfl, rfl⟩
    | _ + 1 => simp [Direct.sampleStore] at hc
  have hrun : EStateM.run (Machine.run 5 (.application (.lookup ⟨"f"⟩) [.literal (.int 5)]) 1)
      Direct.sampleStore = .ok (.bool true) (Direct.sampleStore.pushEnv
        ⟨⟨[(.symbol ⟨"x"⟩, .int 5), (.symbol ⟨"y"⟩, .int 5)]⟩, 1⟩) := by with_unfolding_all rfl
  have hends := (run_endsLike_interpret hnode hstore 1).1 5
  rw [hrun] at hends
  rcases hends with hcut | ⟨-, hend⟩
  · exact absurd hcut Bool.false_ne_true
  · exact ⟨hnode, hstore, hend⟩

end ReverseLisp
