import Mathlib.Logic.Relation
import ReverseLisp.Proofs.Atoms
import ReverseLisp.Proofs.Growth

/-!
# Static errors have no effect

Two kinds of error tell that a program is not well written: it is malformed, or something that is no
symbol stands where a name is needed. They are found before the expression that they are about runs,
and nothing that runs raises them. So an expression with such a defect has no effect, even if the
defect lies in a branch that would not be taken or in a function that would not be called.

## The argument

A malformed text is found by the bracket count or by the reader, before anything is evaluated. The
analysis calls an expression malformed only for a foreign value in it, and the reader makes none.

While a node runs, the one action that could raise such an error is a definition in the empty
environment. A body runs in an environment that its call has made, which is not the empty one, so a
run that starts elsewhere never comes to it.
-/

namespace ReverseLisp

/-- Whether an error is about how a program is written. -/
def Error.isStatic (err : Error) : Bool :=
  match err.kind with
  | .malformed | .invalidSymbol => true
  | _ => false

theorem Error.isStatic_iff {err : Error} :
    err.isStatic = true ↔ err.kind = .malformed ∨ err.kind = .invalidSymbol := by
  rw [isStatic]
  cases err.kind <;> simp

/-- An error of a program that is written well and goes wrong when it runs. -/
def Error.IsDynamic (err : Error) : Prop := err.isStatic = false

/-- Whether an error can arise while a node runs outside the empty environment. -/
def Error.isOfRun : Error → Bool
  | unboundLookup _ | unboundAssignment _ | frameArity _ _ | closureArity _ _ _ | notFunction _
  | notNumber _ _ | noArguments _ | argumentCount _ _ | notList _ | notNonemptyList _ _
  | divisionByZero | integerTooLarge | quotientTooLarge | digitLimit | recursionLimit => true
  | _ => false

/-- An error that can arise while a node runs outside the empty environment. -/
def Error.IsOfRun (err : Error) : Prop := err.isOfRun = true

theorem Error.IsOfRun.isDynamic {err : Error} (h : err.IsOfRun) : err.IsDynamic := by
  cases err with
  | unboundLookup | unboundAssignment | frameArity | closureArity | notFunction | notNumber
  | noArguments | argumentCount | notList | notNonemptyList | divisionByZero | integerTooLarge
  | quotientTooLarge | digitLimit | recursionLimit => rfl
  | _ => cases h

/-- An error of a kind, or the lack of a text to report it with. -/
def Error.IsAbout (kind : Kind) (err : Error) : Prop := err.kind = kind ∨ err = .digitLimit

variable {α δ β : Type} {P : Error → Prop}

/-! ## Errors of computations -/

/-- Every error that the computation fails with has the property. -/
def FailsOnly (P : Error → Prop) (x : Except Error α) : Prop := ∀ err, x = .error err → P err

namespace FailsOnly

theorem ok (a : α) : FailsOnly P (.ok a) := by
  intro err h
  cases h

theorem error {err : Error} (h : P err) : FailsOnly P (.error err : Except Error α) := by
  rintro _ ⟨⟩
  exact h

theorem bind {x : Except Error α} {f : α → Except Error δ} (hx : FailsOnly P x)
    (hf : ∀ a, FailsOnly P (f a)) : FailsOnly P (x >>= f) := by
  intro err h
  cases x with
  | ok a => exact hf a err h
  | error _ =>
    cases h
    exact hx err rfl

theorem map {x : Except Error α} {f : α → δ} (hx : FailsOnly P x) : FailsOnly P (x.map f) := by
  intro err h
  cases x with
  | ok a => cases h
  | error _ =>
    cases h
    exact hx err rfl

theorem foldlM {f : δ → α → Except Error δ} (hf : ∀ b a, FailsOnly P (f b a)) (as : List α)
    (b : δ) : FailsOnly P (as.foldlM f b) := by
  induction as generalizing b with
  | nil => exact ok b
  | cons a as ih => exact (hf b a).bind ih

end FailsOnly

/-- An error about a text is the one that shows it, or says that the text cannot be made. -/
theorem Value.errorAbout_of {text? : Option (List Char)} {mk : String → Error}
    (hmk : ∀ shown, P (mk shown)) (hlimit : P .digitLimit) : P (errorAbout text? mk) := by
  cases text? with
  | some cs => exact hmk _
  | none => exact hlimit

theorem Value.errorAbout_isOfRun {text? : Option (List Char)} {mk : String → Error}
    (hmk : ∀ shown, (mk shown).IsOfRun) : (errorAbout text? mk).IsOfRun :=
  errorAbout_of hmk rfl

/-! ## Errors of primitives -/

namespace Number

theorem toBinary_failsOnly (x : Number) : FailsOnly Error.IsOfRun x.toBinary := by
  cases x with
  | int n =>
    rw [toBinary]
    split
    · exact .error rfl
    · exact .ok _
  | binary x => exact .ok _
  | nan => exact .ok _

theorem lift_failsOnly (f : Binary → Binary → Option Binary) (x y : Number) :
    FailsOnly Error.IsOfRun (lift f x y) := by
  refine (toBinary_failsOnly x).bind fun a ↦ (toBinary_failsOnly y).bind fun b ↦ ?_
  split
  · exact .ok _
  · exact .ok _

theorem add_failsOnly (x y : Number) : FailsOnly Error.IsOfRun (add x y) := by
  rw [add.eq_def]
  split
  · exact .ok _
  · exact lift_failsOnly _ _ _

theorem sub_failsOnly (x y : Number) : FailsOnly Error.IsOfRun (sub x y) := by
  rw [sub.eq_def]
  split
  · exact .ok _
  · exact lift_failsOnly _ _ _

theorem mul_failsOnly (x y : Number) : FailsOnly Error.IsOfRun (mul x y) := by
  rw [mul.eq_def]
  split
  · exact .ok _
  · exact lift_failsOnly _ _ _

theorem div_failsOnly (x y : Number) : FailsOnly Error.IsOfRun (div x y) := by
  rw [div.eq_def]
  split
  · split
    · exact .error rfl
    · split
      · exact .error rfl
      · exact .ok _
  · refine (toBinary_failsOnly _).bind fun a ↦ (toBinary_failsOnly _).bind fun b ↦ ?_
    split
    · exact .error rfl
    · split
      · exact .ok _
      · exact .ok _

end Number

namespace Primitive

theorem numbers_failsOnly (p : Primitive) (args : List Value) :
    FailsOnly Error.IsOfRun (p.numbers args) := by
  induction args with
  | nil => exact .ok _
  | cons v vs ih =>
    rw [numbers]
    split
    · exact ih.map
    · exact .error (Value.errorAbout_isOfRun fun _ ↦ rfl)

theorem difference_failsOnly (xs : List Number) : FailsOnly Error.IsOfRun (difference xs) := by
  rw [difference.eq_def]
  split
  · exact .error rfl
  · exact .ok _
  · exact .foldlM Number.sub_failsOnly _ _

theorem quotient_failsOnly (xs : List Number) : FailsOnly Error.IsOfRun (quotient xs) := by
  rw [quotient.eq_def]
  split
  · exact .error rfl
  · exact Number.div_failsOnly _ _
  · exact .foldlM Number.div_failsOnly _ _

/-- A primitive finds fault with its arguments, never with how the program is written. -/
theorem apply_failsOnly (mark : Nat) (p : Primitive) (args : List Value) :
    FailsOnly Error.IsOfRun (p.apply mark args) := by
  have hshow : ∀ {v : Value} {mk : String → Error}, (∀ shown, (mk shown).IsOfRun) →
      FailsOnly Error.IsOfRun (.error (v.errorShowing mk) : Except Error Value) :=
    fun hmk ↦ .error (Value.errorAbout_isOfRun hmk)
  rw [apply.eq_def]
  split
  · exact (numbers_failsOnly _ _).bind fun _ ↦
      (FailsOnly.foldlM Number.add_failsOnly _ _).bind fun _ ↦ .ok _
  · exact (numbers_failsOnly _ _).bind fun _ ↦ (difference_failsOnly _).bind fun _ ↦ .ok _
  · exact (numbers_failsOnly _ _).bind fun _ ↦
      (FailsOnly.foldlM Number.mul_failsOnly _ _).bind fun _ ↦ .ok _
  · exact (numbers_failsOnly _ _).bind fun _ ↦ (quotient_failsOnly _).bind fun _ ↦ .ok _
  · exact (numbers_failsOnly _ _).bind fun _ ↦ .ok _
  · exact (numbers_failsOnly _ _).bind fun _ ↦ .ok _
  · exact .ok _
  · exact .ok _
  · exact .ok _
  · exact .error rfl
  · exact .ok _
  · exact hshow fun _ ↦ rfl
  · exact .error rfl
  · exact .ok _
  · exact hshow fun _ ↦ rfl
  · exact .error rfl
  · exact .ok _
  · exact hshow fun _ ↦ rfl
  · exact .error rfl
  · exact .ok _

end Primitive

/-! ## Errors of runs -/

/-- Whatever store the action starts from, every error that it ends with has the property. -/
def Action.RaisesOnly (P : Error → Prop) (x : Action β α) : Prop :=
  ∀ s err t, x.run s = .error err t → P err

namespace Action.RaisesOnly

theorem pure (a : α) : RaisesOnly P (Pure.pure a : Action β α) := by
  intro s err t h
  cases h

theorem throw {err : Error} (h : P err) : RaisesOnly P (MonadExcept.throw err : Action β α) := by
  rintro s _ t ⟨⟩
  exact h

theorem mono {P Q : Error → Prop} {x : Action β α} (h : RaisesOnly P x)
    (hPQ : ∀ err, P err → Q err) : RaisesOnly Q x :=
  fun s err t herr ↦ hPQ err (h s err t herr)

theorem bind {x : Action β α} {f : α → Action β δ} (hx : RaisesOnly P x)
    (hf : ∀ a, RaisesOnly P (f a)) : RaisesOnly P (x >>= f) := by
  intro s err t h
  rcases run_bind_eq_error_iff.1 h with h | ⟨a, u, -, h⟩
  · exact hx s err t h
  · exact hf a u err t h

theorem composes : Action.Composes fun α (x : Action β α) ↦ RaisesOnly P x := ⟨pure, bind⟩

theorem ofExcept {x : Except Error α} (h : FailsOnly P x) :
    RaisesOnly P (Action.ofExcept x : Action β α) := by
  intro s err t herr
  cases x with
  | ok a => cases herr
  | error _ =>
    cases herr
    exact h err rfl

theorem lookup (e : EnvId) (x : Symbol) :
    RaisesOnly Error.IsOfRun (Action.lookup e (.symbol x) : Action β Value) := by
  intro s err t h
  rw [EStateM.run, Action.lookup] at h
  split at h
  · cases h
  · cases h
    rfl

/-- This is where it matters that the environment is not the empty one. -/
theorem define {e : EnvId} (he : e ≠ 0) (x : Symbol) (v : Value) :
    RaisesOnly Error.IsOfRun (Action.define e (.symbol x) v : Action β Value) := by
  intro s err t h
  rw [EStateM.run, Action.define, if_neg he] at h
  cases h

theorem assign (e : EnvId) (x : Symbol) (v : Value) :
    RaisesOnly Error.IsOfRun (Action.assign e (.symbol x) v : Action β Value) := by
  intro s err t h
  rw [EStateM.run, Action.assign] at h
  split at h
  · cases h
  · cases h
    rfl

theorem newClosure (params : List Symbol) (code : Code β) :
    RaisesOnly P (Action.newClosure params code) := by
  intro s err t h
  cases h

theorem code? (id : Nat) : RaisesOnly P (Action.code? id : Action β (Option (Code β))) := by
  intro s err t h
  cases h

theorem applyPrimitive (p : Primitive) (args : List Value) :
    RaisesOnly Error.IsOfRun (Action.applyPrimitive p args : Action β Value) := by
  intro s err t h
  rw [EStateM.run, Action.applyPrimitive] at h
  split at h
  · cases h
  · next err' herr =>
    cases h
    exact p.apply_failsOnly s.marks args err herr

/-- What runs in a new environment does not run in the empty one. -/
theorem extend_bind (e : EnvId) (params : List Symbol) (args : List Value)
    {f : EnvId → Action β α} (hf : ∀ e', e' ≠ 0 → RaisesOnly Error.IsOfRun (f e')) :
    RaisesOnly Error.IsOfRun (Action.extend e (params.map .symbol) args >>= f) := by
  unfold Action.extend
  split
  · rw [Frame.ofPairs?_symbols]
    intro s err t h
    exact hf s.nextEnv (Nat.succ_ne_zero _) _ err t h
  · intro s err t h
    cases h
    rfl

end Action.RaisesOnly

namespace Machine

open ReverseLisp.Action (RaisesOnly)

theorem applyWith_raisesOnly {run : Node → EnvId → Machine Value}
    (h : ∀ node e, e ≠ 0 → RaisesOnly Error.IsOfRun (run node e)) (fn : Value)
    (args : List Value) : RaisesOnly Error.IsOfRun (applyWith run fn args) := by
  cases fn with
  | closure id params =>
    rw [applyWith]
    split
    · refine (RaisesOnly.code? id).bind fun code ↦ ?_
      cases code with
      | some code => exact .extend_bind _ _ _ fun e he ↦ h code.body e he
      | none => exact .throw rfl
    · exact .throw rfl
  | primitive p => exact .applyPrimitive p args
  | _ => exact .throw (Value.errorAbout_isOfRun fun _ ↦ rfl)

/-- A run outside the empty environment raises no error but those listed. -/
theorem run_raisesOnly_isOfRun (limit : Nat) (node : Node) {e : EnvId} (he : e ≠ 0) :
    RaisesOnly Error.IsOfRun (run limit node e) := by
  induction limit generalizing node e with
  | zero => exact .throw rfl
  | succ limit ih =>
    rw [run.eq_def]
    cases node with
    | literal v => exact .pure v
    | lookup x => exact .lookup e x
    | branch test yes no =>
      refine (ih test he).bind fun v ↦ ?_
      split
      · exact ih no he
      · exact ih yes he
    | define x value => exact (ih value he).bind fun v ↦ .define he x v
    | assign x value => exact (ih value he).bind fun v ↦ .assign e x v
    | function params body source => exact .newClosure params _
    | sequence nodes => exact RaisesOnly.composes.inOrder fun n _ ↦ ih n he
    | application operator operands =>
      refine (ih operator he).bind fun fn ↦ ?_
      refine .bind (RaisesOnly.composes.collect fun n _ ↦ ih n he) fun args ↦ ?_
      exact applyWith_raisesOnly (fun node e he ↦ ih node he) fn args

/-- A run outside the empty environment raises no static error. -/
theorem run_raisesOnly (limit : Nat) (node : Node) {e : EnvId} (he : e ≠ 0) :
    RaisesOnly Error.IsDynamic (run limit node e) :=
  (run_raisesOnly_isOfRun limit node he).mono fun _ ↦ Error.IsOfRun.isDynamic

end Machine

/-! ## Defects of expressions -/

namespace Value

/-- The parts of an expression that are checked as expressions with it. Names, parameters and what
is quoted are not. -/
def parts : Value → List Value
  | list (symbol x :: operands) =>
    match SpecialForm.ofSymbol? x, operands with
    | none, operands => symbol x :: operands
    | some .quote, _ => []
    | some .definition, [_, value] => [value]
    | some .assignment, [_, value] => [value]
    | some .function, _ :: body => body
    | some _, operands => operands
  | list items => items
  | _ => []

/-- Whether the first value is the second or is checked as an expression somewhere in it. -/
def IsCheckedIn : Value → Value → Prop := Relation.ReflTransGen fun v w ↦ v ∈ w.parts

/-- What is wrong with the way an expression is written, its parts left aside. -/
inductive Defect : Error.Kind → Value → Prop where
  /-- It is no expression. -/
  | foreign (f : Foreign) : Defect .malformed (foreign f)
  /-- It defines or assigns something that is no symbol. -/
  | name {f : SpecialForm} {name value : Value} (hf : f = .definition ∨ f = .assignment)
      (h : ∀ x, name ≠ symbol x) : Defect .invalidSymbol (form f [name, value])
  /-- It is a function whose parameters are no list of distinct symbols. -/
  | parameters {params : Value} {body : List Value}
      (h : ∀ xs : List Symbol, xs.Nodup → params ≠ list (xs.map symbol)) :
    Defect .invalidSymbol (form .function (params :: body))

/-! Names and parameters. -/

theorem parameterSymbols_eq_ok_iff {items : List Value} {xs : List Symbol} :
    parameterSymbols items = .ok xs ↔ items = xs.map symbol := by
  induction items generalizing xs with
  | nil => cases xs <;> simp [parameterSymbols]
  | cons v vs ih =>
    cases v with
    | symbol x =>
      cases xs with
      | nil => cases h : parameterSymbols vs <;> simp [parameterSymbols, Except.map, h]
      | cons y ys =>
        rw [List.map_cons, List.cons.injEq, ← ih]
        cases h : parameterSymbols vs <;> simp [parameterSymbols, Except.map, h]
    | _ => cases xs <;> simp [parameterSymbols]

theorem parameters_eq_ok_iff {params : Value} {xs : List Symbol} :
    params.parameters = .ok xs ↔ xs.Nodup ∧ params = list (xs.map symbol) := by
  cases params with
  | list items =>
    rw [parameters, Except.bind_eq_ok_iff, list.injEq, ← parameterSymbols_eq_ok_iff]
    constructor
    · rintro ⟨ys, hys, h⟩
      split at h
      · next hnodup =>
        cases h
        exact ⟨hnodup, hys⟩
      · cases h
    · rintro ⟨hnodup, hxs⟩
      exact ⟨xs, hxs, if_pos hnodup⟩
  | _ => simp [parameters]

theorem parameterSymbols_failsOnly (items : List Value) :
    FailsOnly (Error.IsAbout .invalidSymbol) (parameterSymbols items) := by
  induction items with
  | nil => exact .ok []
  | cons v vs ih =>
    cases v with
    | symbol x => exact ih.map
    | _ => exact .error (errorAbout_of (fun _ ↦ .inl rfl) (.inr rfl))

theorem parameters_failsOnly (params : Value) :
    FailsOnly (Error.IsAbout .invalidSymbol) params.parameters := by
  cases params with
  | list items =>
    refine (parameterSymbols_failsOnly items).bind fun xs ↦ ?_
    split
    · exact .ok xs
    · exact .error (errorAbout_of (fun _ ↦ .inl rfl) (.inr rfl))
  | _ => exact .error (errorAbout_of (fun _ ↦ .inl rfl) (.inr rfl))

theorem nameIn_failsOnly (f : SpecialForm) (name : Value) :
    FailsOnly (Error.IsAbout .invalidSymbol) (nameIn f name) := by
  cases name with
  | symbol x => exact .ok x
  | _ => exact .error (errorAbout_of (fun _ ↦ .inl rfl) (.inr rfl))

theorem analyzeEach_failsOnly {vs : List Value} (h : ∀ v ∈ vs, FailsOnly P v.analyze) :
    FailsOnly P (analyzeEach vs) := by
  induction vs with
  | nil => exact .ok []
  | cons v vs ih =>
    have ⟨hv, hvs⟩ := List.forall_mem_cons.1 h
    exact hv.bind fun n ↦ (ih hvs).bind fun ns ↦ .ok _

/-- The errors of a special form are those of its parts, a wrong number of operands, and what is
wrong with itself. -/
theorem analyze_form_failsOnly {f : SpecialForm} {operands : List Value}
    (harity : ∀ f, P (.formArity f))
    (hself : ∀ kind, Defect kind (form f operands) → ∀ err, Error.IsAbout kind err → P err)
    (hparts : ∀ w ∈ (form f operands).parts, FailsOnly P w.analyze) :
    FailsOnly P (form f operands).analyze := by
  have hname : ∀ {name value : Value}, operands = [name, value] →
      f = .definition ∨ f = .assignment → FailsOnly P (nameIn f name) := by
    intro name value ho hf err herr
    subst ho
    refine hself .invalidSymbol (.name hf ?_) err (nameIn_failsOnly f name err herr)
    rintro x rfl
    cases herr
  have hparams : ∀ {params : Value} {body : List Value}, operands = params :: body →
      f = .function → FailsOnly P params.parameters := by
    intro params body ho hf err herr
    subst ho hf
    refine hself .invalidSymbol (.parameters ?_) err (parameters_failsOnly params err herr)
    rintro xs hnodup rfl
    rw [parameters_eq_ok_iff.2 ⟨hnodup, rfl⟩] at herr
    cases herr
  rw [form, analyze.eq_def]
  simp only [form, parts, SpecialForm.ofSymbol?_word] at hparts ⊢
  cases f with
  | quote =>
    rcases operands with _ | ⟨v, _ | ⟨_, _⟩⟩
    · exact .error (harity _)
    · exact .ok _
    · exact .error (harity _)
  | branch =>
    rcases operands with _ | ⟨test, _ | ⟨yes, _ | ⟨no, _ | ⟨_, _⟩⟩⟩⟩
    · exact .error (harity _)
    · exact .error (harity _)
    · exact (hparts test (by simp)).bind fun _ ↦ (hparts yes (by simp)).bind fun _ ↦ .ok _
    · exact (hparts test (by simp)).bind fun _ ↦ (hparts yes (by simp)).bind fun _ ↦
        (hparts no (by simp)).bind fun _ ↦ .ok _
    · exact .error (harity _)
  | conjunction =>
    show FailsOnly P (analyzeAnd operands)
    rw [Analysis.analyzeAnd_eq_map]
    exact (analyzeEach_failsOnly hparts).map
  | disjunction =>
    show FailsOnly P (analyzeOr operands)
    rw [Analysis.analyzeOr_eq_map]
    exact (analyzeEach_failsOnly hparts).map
  | definition =>
    rcases operands with _ | ⟨name, _ | ⟨value, _ | ⟨_, _⟩⟩⟩
    · exact .error (harity _)
    · exact .error (harity _)
    · exact (hname rfl (.inl rfl)).bind fun _ ↦ (hparts value (by simp)).bind fun _ ↦ .ok _
    · exact .error (harity _)
  | assignment =>
    rcases operands with _ | ⟨name, _ | ⟨value, _ | ⟨_, _⟩⟩⟩
    · exact .error (harity _)
    · exact .error (harity _)
    · exact (hname rfl (.inr rfl)).bind fun _ ↦ (hparts value (by simp)).bind fun _ ↦ .ok _
    · exact .error (harity _)
  | function =>
    cases operands with
    | nil => exact .error (harity _)
    | cons params body =>
      exact (hparams rfl rfl).bind fun _ ↦ (analyzeEach_failsOnly hparts).bind fun _ ↦ .ok _
  | sequence => exact (analyzeEach_failsOnly hparts).bind fun _ ↦ .ok _
  | delay =>
    rcases operands with _ | ⟨v, _ | ⟨_, _⟩⟩
    · exact .error (harity _)
    · exact (hparts v (by simp)).bind fun _ ↦ .ok _
    · exact .error (harity _)

theorem parts_application {operator : Value} (h : operator.isFormWord = false)
    (operands : List Value) : (list (operator :: operands)).parts = operator :: operands := by
  cases operator with
  | symbol x =>
    have hx : SpecialForm.ofSymbol? x = none := by simpa [isFormWord] using h
    simp [parts, hx]
  | _ => simp [parts]

/-- The errors of an expression are those of its parts, and those of its own form. -/
theorem analyze_failsOnly {expr : Value} (harity : ∀ f, P (.formArity f))
    (hself : ∀ kind, Defect kind expr → ∀ err, Error.IsAbout kind err → P err)
    (hparts : ∀ w ∈ expr.parts, FailsOnly P w.analyze) : FailsOnly P expr.analyze := by
  cases expr with
  | symbol x => exact .ok _
  | list items =>
    rcases list_cases items with rfl | ⟨f, operands, h⟩ | ⟨operator, operands, rfl, hw⟩
    · exact .ok _
    · rw [h] at hself hparts ⊢
      exact analyze_form_failsOnly harity hself hparts
    · rw [parts_application hw, List.forall_mem_cons] at hparts
      rw [Analysis.analyze_application hw]
      exact hparts.1.bind fun _ ↦ (analyzeEach_failsOnly hparts.2).bind fun _ ↦ .ok _
  | foreign f =>
    exact .error (hself .malformed (.foreign f) _ (errorAbout_of (fun _ ↦ .inl rfl) (.inr rfl)))
  | _ => exact .ok _

/-- The parts are found among the items. -/
theorem mem_items_of_mem_parts {v w : Value} (h : v ∈ w.parts) : v ∈ w.items := by
  unfold parts at h
  split at h
  · split at h <;> simp_all
  · exact h
  · cases h

/-- A static error of the analysis has a cause: a defect of that kind at a checked place. -/
theorem exists_defect_of_analyze (expr : Value) :
    FailsOnly (fun err ↦ err.isStatic = true → ∃ w, IsCheckedIn w expr ∧ Defect err.kind w)
      expr.analyze := by
  induction expr using induction_items with
  | step expr ih =>
    refine analyze_failsOnly ?_ ?_ ?_
    · intro f hstatic
      cases hstatic
    · rintro kind hdefect err (rfl | rfl) hstatic
      · exact ⟨expr, .refl, hdefect⟩
      · cases hstatic
    · intro w hw err herr hstatic
      obtain ⟨v, hv, hdefect⟩ := ih w (mem_items_of_mem_parts hw) err herr hstatic
      exact ⟨v, hv.tail hw, hdefect⟩

theorem exists_analyzeEach {vs : List Value} {ns : List Node} (h : analyzeEach vs = .ok ns) :
    ∀ v ∈ vs, ∃ n, v.analyze = .ok n := by
  induction vs generalizing ns with
  | nil => exact fun v hv ↦ nomatch hv
  | cons v vs ih =>
    obtain ⟨n, hn, h⟩ := Except.bind_eq_ok_iff.1 h
    obtain ⟨ns, hns, -⟩ := Except.bind_eq_ok_iff.1 h
    exact List.forall_mem_cons.2 ⟨⟨n, hn⟩, ih hns⟩

/-- An expression passes only if all its parts do. -/
theorem exists_analyze_of_mem_parts {v w : Value} {n : Node} (h : w.analyze = .ok n)
    (hv : v ∈ w.parts) : ∃ m, v.analyze = .ok m := by
  cases Analysis.of_analyze h with
  | literal self => cases w <;> simp [standsForItself, parts] at self hv
  | lookup x => cases hv
  | empty => cases hv
  | application word hn hs =>
    rw [parts_application word, List.mem_cons] at hv
    rcases hv with rfl | hv
    · exact ⟨_, hn⟩
    · exact exists_analyzeEach hs v hv
  | quote v => simp [form, parts, SpecialForm.ofSymbol?_word] at hv
  | branch ht hy =>
    simp only [form, parts, SpecialForm.ofSymbol?_word, List.mem_cons, List.not_mem_nil] at hv
    rcases hv with rfl | rfl | ⟨⟨⟩⟩
    · exact ⟨_, ht⟩
    · exact ⟨_, hy⟩
  | branchElse ht hy hn =>
    simp only [form, parts, SpecialForm.ofSymbol?_word, List.mem_cons, List.not_mem_nil] at hv
    rcases hv with rfl | rfl | rfl | ⟨⟨⟩⟩
    · exact ⟨_, ht⟩
    · exact ⟨_, hy⟩
    · exact ⟨_, hn⟩
  | conjunction hs =>
    simp only [form, parts, SpecialForm.ofSymbol?_word] at hv
    rw [Analysis.analyzeAnd_eq_map] at hs
    obtain ⟨ns, hns, -⟩ := Except.map_eq_ok_iff.1 hs
    exact exists_analyzeEach hns v hv
  | disjunction hs =>
    simp only [form, parts, SpecialForm.ofSymbol?_word] at hv
    rw [Analysis.analyzeOr_eq_map] at hs
    obtain ⟨ns, hns, -⟩ := Except.map_eq_ok_iff.1 hs
    exact exists_analyzeEach hns v hv
  | definition x hn | assignment x hn | delay hn =>
    simp only [form, parts, SpecialForm.ofSymbol?_word, List.mem_singleton] at hv
    subst hv
    exact ⟨_, hn⟩
  | function hx hs | sequence hs =>
    simp only [form, parts, SpecialForm.ofSymbol?_word] at hv
    exact exists_analyzeEach hs v hv

/-- An expression with a defect of its own does not pass. -/
theorem analyze_ne_ok_of_defect {kind : Error.Kind} {v : Value} (h : v.Defect kind) (n : Node) :
    v.analyze ≠ .ok n := by
  intro hn
  cases h with
  | foreign f => cases hn
  | name hf h =>
    rw [form, analyze.eq_def] at hn
    simp only [SpecialForm.ofSymbol?_word] at hn
    rcases hf with rfl | rfl
    · obtain ⟨x, hx, -⟩ := Except.bind_eq_ok_iff.1 hn
      exact h x (Analysis.nameIn_eq_ok hx)
    · obtain ⟨x, hx, -⟩ := Except.bind_eq_ok_iff.1 hn
      exact h x (Analysis.nameIn_eq_ok hx)
  | parameters h =>
    rw [form, analyze.eq_def] at hn
    simp only [SpecialForm.ofSymbol?_word] at hn
    obtain ⟨xs, hx, -⟩ := Except.bind_eq_ok_iff.1 hn
    obtain ⟨hnodup, hparams⟩ := parameters_eq_ok_iff.1 hx
    exact h xs hnodup hparams

/-- Nor does one with a defect at a checked place. -/
theorem analyze_ne_ok_of_isCheckedIn {kind : Error.Kind} {v w : Value} (hv : v.IsCheckedIn w)
    (h : v.Defect kind) (n : Node) : w.analyze ≠ .ok n := by
  induction hv generalizing n with
  | refl => exact analyze_ne_ok_of_defect h n
  | tail _ hpart ih =>
    intro hn
    obtain ⟨m, hm⟩ := exists_analyze_of_mem_parts hn hpart
    exact ih m hm

/-- What is checked in an expression has no other atoms. -/
theorem mem_atoms_of_isCheckedIn {a v w : Value} (hv : v.IsCheckedIn w) (ha : a ∈ v.atoms) :
    a ∈ w.atoms := by
  induction hv with
  | refl => exact ha
  | @tail u w _ hpart ih =>
    cases w with
    | list items => exact mem_atoms_list.2 ⟨u, mem_items_of_mem_parts hpart, ih⟩
    | _ => cases hpart

/-- The analysis calls nothing malformed that was read. -/
theorem kind_of_analyze_of_read {program : String} {exprs : List Value} {expr : Value}
    {err : Error} (hread : read program = .ok exprs) (hexpr : expr ∈ exprs)
    (h : expr.analyze = .error err) (hstatic : err.isStatic = true) :
    err.kind = .invalidSymbol := by
  rcases Error.isStatic_iff.1 hstatic with hkind | hkind
  · obtain ⟨w, hw, hdefect⟩ := exists_defect_of_analyze expr err h hstatic
    rw [hkind] at hdefect
    cases hdefect with
    | foreign f =>
      have hmem := mem_atoms_of_isCheckedIn hw List.mem_cons_self
      obtain ⟨text, -, hf⟩ := exists_literal_of_read hread hexpr hmem
      rcases atom_cases text with ⟨n, -, h⟩ | ⟨x, h⟩ | h <;> rw [h] at hf <;> cases hf
  · exact hkind

end Value

/-! ## Evaluation -/

namespace Machine

variable {limit : Nat} {expr : Value} {e : EnvId} {s t : Store Node} {err : Error}

/-- An expression that does not pass has no effect. -/
theorem evaluate_of_analyze_error (h : expr.analyze = .error err) (limit : Nat) (e : EnvId)
    (s : Store Node) : EStateM.run (evaluate limit expr e) s = .error err s := by
  rw [evaluate, analyze, h]
  rfl

/-- An expression that passes raises no static error, outside the empty environment. -/
theorem evaluate_raisesOnly {node : Node} (h : expr.analyze = .ok node) (limit : Nat) (he : e ≠ 0) :
    Action.RaisesOnly Error.IsDynamic (evaluate limit expr e) := by
  refine .bind ?_ fun n ↦ run_raisesOnly limit n he
  rw [analyze, h]
  refine (Action.RaisesOnly.pure node).bind fun n ↦ ?_
  split
  · exact .throw rfl
  · exact .pure n

/-- A static error comes from the analysis, and so before any effect. -/
theorem analyze_of_evaluate_error (he : e ≠ 0)
    (h : EStateM.run (evaluate limit expr e) s = .error err t) (hstatic : err.isStatic = true) :
    expr.analyze = .error err ∧ t = s := by
  cases hexpr : expr.analyze with
  | error err' =>
    rw [evaluate_of_analyze_error hexpr] at h
    cases h
    exact ⟨rfl, rfl⟩
  | ok node =>
    have hdynamic : err.isStatic = false := evaluate_raisesOnly hexpr limit he s err t h
    rw [hstatic] at hdynamic
    cases hdynamic

/-- Evaluating expressions stops at the first that fails, after all those before it. -/
theorem exists_of_evaluateAll_error {exprs : List Value}
    (h : EStateM.run (evaluateAll limit e exprs) s = .error err t) :
    ∃ k vs u, ∃ hk : k < exprs.length,
      EStateM.run (evaluateAll limit e (exprs.take k)) s = .ok vs u ∧
        EStateM.run (evaluate limit exprs[k] e) u = .error err t := by
  induction exprs generalizing s with
  | nil => cases h
  | cons expr exprs ih =>
    rcases Action.run_bind_eq_error_iff.1 h with h | ⟨v, u, hv, h⟩
    · exact ⟨0, [], s, Nat.zero_lt_succ _, rfl, h⟩
    · rcases Action.run_bind_eq_error_iff.1 h with h | ⟨vs, u', hvs, h⟩
      · obtain ⟨k, vs, u', hk, hvs, h⟩ := ih h
        refine ⟨k + 1, v :: vs, u', Nat.succ_lt_succ hk, ?_, h⟩
        refine Action.run_bind_eq_ok_iff.2 ⟨v, u, hv, ?_⟩
        exact Action.run_bind_eq_ok_iff.2 ⟨vs, u', hvs, rfl⟩
      · cases h

/-- Where a text fails: as a whole, before anything is evaluated, or at one of its expressions,
after those before it. -/
theorem exists_of_evaluateText_error {program : String}
    (h : EStateM.run (evaluateText limit e program) s = .error err t) :
    (err.kind = .malformed ∧ t = s) ∨
      ∃ exprs k, ∃ hk : k < exprs.length, ∃ values u, read program = .ok exprs ∧
        EStateM.run (evaluateAll limit e (exprs.take k)) s = .ok values u ∧
          EStateM.run (evaluate limit exprs[k] e) u = .error err t := by
  rw [evaluateText] at h
  split at h
  · cases hread : read program with
    | error err' =>
      rw [hread] at h
      cases h
      exact .inl ⟨kind_of_readAll_error hread, rfl⟩
    | ok exprs =>
      rw [hread] at h
      obtain ⟨k, values, u, hk, hvalues, h⟩ := exists_of_evaluateAll_error h
      exact .inr ⟨exprs, k, hk, values, u, rfl, hvalues, h⟩
  · cases h
    exact .inl ⟨rfl, rfl⟩

/-- A static error leaves what the expressions before it have done, and the expression that it is
about has done nothing. -/
theorem evaluateText_error {program : String} (he : e ≠ 0)
    (h : EStateM.run (evaluateText limit e program) s = .error err t)
    (hstatic : err.isStatic = true) :
    (err.kind = .malformed ∧ t = s) ∨
      (err.kind = .invalidSymbol ∧ ∃ exprs, read program = .ok exprs ∧ ∃ k < exprs.length,
        ∃ values, EStateM.run (evaluateAll limit e (exprs.take k)) s = .ok values t) := by
  rcases exists_of_evaluateText_error h with
    hmalformed | ⟨exprs, k, hk, values, u, hread, hvalues, h⟩
  · exact .inl hmalformed
  · obtain ⟨hanalyze, rfl⟩ := analyze_of_evaluate_error he h hstatic
    have hkind := Value.kind_of_analyze_of_read hread (List.getElem_mem hk) hanalyze hstatic
    exact .inr ⟨hkind, exprs, hread, k, hk, values, hvalues⟩

end Machine

/-- The global environment of a session is not the empty one. -/
theorem Session.Reachable.env_ne_zero {s : Session} (h : s.Reachable) : s.env ≠ 0 := by
  obtain ⟨env, -, henv, -⟩ := h.hasBase
  intro h0
  rw [h0] at henv
  cases henv

/-! ## No effect -/

/-- **Static errors have no effect.** If a text is malformed, evaluating it changes nothing. If it
has a name that is no symbol, the session is left as the first of its expressions leave it, which
have all succeeded. For no run outside the empty environment raises such an error, and an expression
with a defect at any place where it is checked changes nothing, whichever error is reported. Those
defects are all that the analysis reports in this way. -/
theorem static_errors_have_no_effect {s : Session} (hs : s.Reachable) (program : String) :
    (∀ err, (s.evalAll program).1 = .error err → err.kind = .malformed →
      (s.evalAll program).2 = s) ∧
    (∀ err, (s.evalAll program).1 = .error err → err.kind = .invalidSymbol →
      ∃ exprs, read program = .ok exprs ∧ ∃ k < exprs.length, ∃ values,
        s.perform (Machine.evaluateAll s.limit s.env (exprs.take k)) =
          (.ok values, (s.evalAll program).2)) ∧
    (∀ limit node e, e ≠ 0 → ∀ (t u : Store Node) (err : Error),
      EStateM.run (Machine.run limit node e) t = .error err u →
        err.kind ≠ .malformed ∧ err.kind ≠ .invalidSymbol) ∧
    (∀ (expr w : Value) (kind : Error.Kind), w.IsCheckedIn expr → w.Defect kind →
      ∀ limit e (t : Store Node), ∃ err,
        EStateM.run (Machine.evaluate limit expr e) t = .error err t) ∧
    ∀ (expr : Value) (err : Error), expr.analyze = .error err → err.isStatic = true →
      ∃ w : Value, w.IsCheckedIn expr ∧ w.Defect err.kind := by
  have he := hs.env_ne_zero
  refine ⟨?_, ?_, ?_, ?_, Value.exists_defect_of_analyze⟩
  · intro err herr hkind
    obtain ⟨t, ht, hs'⟩ := Session.perform_eq_error_iff.1 (Prod.ext herr rfl)
    have hstatic := Error.isStatic_iff.2 (.inl hkind)
    rcases Machine.evaluateText_error he ht hstatic with ⟨-, rfl⟩ | ⟨hinvalid, -⟩
    · exact hs'
    · rw [hkind] at hinvalid
      cases hinvalid
  · intro err herr hkind
    obtain ⟨t, ht, hs'⟩ := Session.perform_eq_error_iff.1 (Prod.ext herr rfl)
    have hstatic := Error.isStatic_iff.2 (.inr hkind)
    rcases Machine.evaluateText_error he ht hstatic with
      ⟨hmalformed, -⟩ | ⟨-, exprs, hread, k, hk, values, hvalues⟩
    · rw [hkind] at hmalformed
      cases hmalformed
    · exact ⟨exprs, hread, k, hk, values, Session.perform_eq_ok_iff.2 ⟨t, hvalues, hs'⟩⟩
  · intro limit node e he t u err h
    have hdynamic : err.isStatic = false := Machine.run_raisesOnly limit node he t err u h
    rw [← not_or, ← Error.isStatic_iff, hdynamic]
    exact Bool.false_ne_true
  · intro expr w kind hw hdefect limit e t
    cases hexpr : expr.analyze with
    | error err => exact ⟨err, Machine.evaluate_of_analyze_error hexpr limit e t⟩
    | ok n => exact absurd hexpr (Value.analyze_ne_ok_of_isCheckedIn hw hdefect n)

/-- In a session that has bound `a`, a text that binds `b` and then would bind `c`, had it not an
assignment to a number in a branch that is not taken, in the body of a function that is not
called. -/
theorem static_errors_have_no_effect_untaken :
    let s := ((Session.start 20).evalAll "(def a 1)").2
    let program := "(def b 2) (if #t (def c 3) (fun (x) (set! 4 x)))"
    (s.evalAll program).1 = .error (.nameExpected .assignment "4") ∧
      (s.evalAll program).2.frame.names = [.symbol ⟨"a"⟩, .symbol ⟨"b"⟩] ∧
      ∃ exprs, read program = .ok exprs ∧ ∃ k < exprs.length, ∃ values,
        s.perform (Machine.evaluateAll s.limit s.env (exprs.take k)) =
          (.ok values, (s.evalAll program).2) := by
  intro s program
  have hs : s.Reachable := (Session.Reachable.start 20).evalAll _
  have hrun : (s.evalAll program).1 = .error (.nameExpected .assignment "4") ∧
      (s.evalAll program).2.frame.names = [.symbol ⟨"a"⟩, .symbol ⟨"b"⟩] := by decide +kernel
  obtain ⟨-, hinvalid, -⟩ := static_errors_have_no_effect hs program
  exact ⟨hrun.1, hrun.2, hinvalid _ hrun.1 rfl⟩

end ReverseLisp
