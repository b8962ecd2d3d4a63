import ReverseLisp.Proofs.Limits
import ReverseLisp.Proofs.StaticErrors

/-!
# Which expressions pass the analysis

An expression can offend in three ways: a special form has a wrong number of operands, something
that is no list of distinct symbols stands where names are introduced, or it is no expression at
all. `Value.Offence` lists them, each with its kind of error. An expression passes if and only if
nothing in it offends at a place where expressions are checked; otherwise the error is of the kind
of the first offence met when the expression is read from the left, a form before its parts.

## The argument

An expression that does not itself offend is analysed by analysing its parts from the left and
putting their nodes together. So by induction the parts before the first offence pass, and the
analysis ends there.

Conjunctions, disjunctions and delayed expressions are rewritten to expressions that are larger than
what they stand for, and those are analysed again. `Value.analyzeWithin` is this analysis, with a
limit on how deeply it may nest. That it ends is said by a limit that is never exceeded: an
induction on the items of the expression gives one, as the rewritten forms have no other operands.
-/

namespace ReverseLisp

open Value (form)

variable {α δ : Type}

/-! ## Offences -/

/-- The numbers of operands that a special form may have. -/
def SpecialForm.takes : SpecialForm → Nat → Bool
  | quote, n | delay, n => n == 1
  | branch, n => n == 2 || n == 3
  | definition, n | assignment, n => n == 2
  | function, n => n != 0
  | conjunction, _ | disjunction, _ | sequence, _ => true

namespace Value

/-- What makes an expression offend, its parts left aside, with the kind of the error. -/
inductive Offence : Error.Kind → Value → Prop where
  /-- A special form has a wrong number of operands. -/
  | arity {f : SpecialForm} {operands : List Value} (h : f.takes operands.length = false) :
    Offence .wrongArity (form f operands)
  /-- A name or the parameters are not written as such, or the value is no expression. -/
  | defect {kind : Error.Kind} {v : Value} (h : v.Defect kind) : Offence kind v

/-- An expression that does not offend, its parts left aside. -/
def IsClean (v : Value) : Prop := ∀ kind, ¬ v.Offence kind

/-- The expression and all that is checked in it, in reading order: a form before its parts, and
its parts from the left. -/
def preorder (v : Value) : List Value := v :: v.parts.attach.flatMap fun w ↦ preorder w.1
termination_by sizeOf v
decreasing_by exact sizeOf_lt_of_mem_items (mem_items_of_mem_parts w.2)

theorem preorder_eq (v : Value) : v.preorder = v :: v.parts.flatMap preorder := by
  rw [preorder]
  simp

/-- A value in which no integer has too many digits to be written. -/
def IsPrintable (v : Value) : Prop := ∀ n : Int, int n ∈ v.atoms → n.natAbs < Decimal.tooLarge

theorem IsPrintable.of_mem_items {v w : Value} (h : v.IsPrintable) (hw : w ∈ v.items) :
    w.IsPrintable := by
  intro n hn
  cases v with
  | list items => exact h n (mem_atoms_list.2 ⟨w, hw, hn⟩)
  | _ => cases hw

theorem IsPrintable.of_mem_preorder {v w : Value} (h : v.IsPrintable) (hw : w ∈ v.preorder) :
    w.IsPrintable := by
  induction v using induction_items with
  | step v ih =>
    rw [preorder_eq, List.mem_cons, List.mem_flatMap] at hw
    rcases hw with rfl | ⟨u, hu, hw⟩
    · exact h
    · have hitem := mem_items_of_mem_parts hu
      exact ih u hitem (h.of_mem_items hitem) hw

/-! ## Errors have texts -/

theorem isSome_diagnoses? {vs : List Value} (h : ∀ v ∈ vs, v.diagnosis?.isSome = true) :
    (diagnoses? vs).isSome = true := by
  induction vs with
  | nil => rfl
  | cons v vs ih =>
    have ⟨hv, hvs⟩ := List.forall_mem_cons.1 h
    obtain ⟨t, ht⟩ := Option.isSome_iff_exists.1 hv
    obtain ⟨ts, hts⟩ := Option.isSome_iff_exists.1 (ih hvs)
    rw [diagnoses?, ht, hts]
    rfl

theorem IsPrintable.isSome_diagnosis? {v : Value} (h : v.IsPrintable) :
    v.diagnosis?.isSome = true := by
  induction v using induction_items with
  | step v ih =>
    cases v with
    | int n =>
      rw [diagnosis?, Decimal.intText?, if_pos (h n List.mem_cons_self)]
      rfl
    | list items =>
      rw [diagnosis?, Option.isSome_map]
      exact isSome_diagnoses? fun w hw ↦ ih w hw (h.of_mem_items hw)
    | _ => rfl

theorem IsPrintable.isSome_mention? {v : Value} (h : v.IsPrintable) : v.mention?.isSome = true := by
  rw [mention?.eq_def]
  split
  · rfl
  · rfl
  · exact h.isSome_diagnosis?

theorem kind_errorAbout_of_isSome {text? : Option (List Char)} {mk : String → Error}
    {kind : Error.Kind} (h : text?.isSome = true) (hmk : ∀ shown, (mk shown).kind = kind) :
    (errorAbout text? mk).kind = kind := by
  obtain ⟨text, rfl⟩ := Option.isSome_iff_exists.1 h
  exact hmk _

theorem IsPrintable.parameterSymbols_failsOnly {items : List Value}
    (h : ∀ v ∈ items, v.IsPrintable) :
    FailsOnly (·.kind = .invalidSymbol) (parameterSymbols items) := by
  induction items with
  | nil => exact .ok []
  | cons v vs ih =>
    have ⟨hv, hvs⟩ := List.forall_mem_cons.1 h
    cases v with
    | symbol x => exact (ih hvs).map
    | _ => exact .error (kind_errorAbout_of_isSome hv.isSome_mention? fun _ ↦ rfl)

theorem IsPrintable.parameters_failsOnly {params : Value} (h : params.IsPrintable) :
    FailsOnly (·.kind = .invalidSymbol) params.parameters := by
  cases params with
  | list items =>
    refine (parameterSymbols_failsOnly fun v hv ↦ h.of_mem_items hv).bind fun xs ↦ ?_
    split
    · exact .ok xs
    · exact .error (kind_errorAbout_of_isSome h.isSome_diagnosis? fun _ ↦ rfl)
  | _ => exact .error (kind_errorAbout_of_isSome h.isSome_mention? fun _ ↦ rfl)

theorem IsPrintable.nameIn_failsOnly {name : Value} (h : name.IsPrintable) (f : SpecialForm) :
    FailsOnly (·.kind = .invalidSymbol) (nameIn f name) := by
  cases name with
  | symbol x => exact .ok x
  | _ => exact .error (kind_errorAbout_of_isSome h.isSome_mention? fun _ ↦ rfl)

/-! ## One expression -/

theorem analyze_of_takes_eq_false {f : SpecialForm} {operands : List Value}
    (h : f.takes operands.length = false) :
    ∃ g, (form f operands).analyze = .error (.formArity g) := by
  match f, operands with
  | .quote, [] | .quote, _ :: _ :: _ | .branch, [] | .branch, [_] | .branch, _ :: _ :: _ :: _ :: _
  | .definition, [] | .definition, [_] | .definition, _ :: _ :: _ :: _ | .assignment, []
  | .assignment, [_] | .assignment, _ :: _ :: _ :: _ | .function, [] | .delay, []
  | .delay, _ :: _ :: _ => exact ⟨_, rfl⟩

/-- An expression that offends fails with an error of that kind, whatever its parts are. -/
theorem Offence.analyze_eq_error {kind : Error.Kind} {expr : Value} (h : expr.Offence kind)
    (hprint : expr.IsPrintable) : ∃ err, expr.analyze = .error err ∧ err.kind = kind := by
  have hfails {α : Type} {x : Except Error α} {g : α → Except Error Node}
      (hx : FailsOnly (·.kind = .invalidSymbol) x) (hne : ∀ a, x ≠ .ok a) :
      ∃ err, x >>= g = .error err ∧ err.kind = .invalidSymbol := by
    match x with
    | .ok a => exact absurd rfl (hne a)
    | .error err => exact ⟨err, rfl, hx err rfl⟩
  cases h with
  | arity h =>
    obtain ⟨g, hg⟩ := analyze_of_takes_eq_false h
    exact ⟨_, hg, rfl⟩
  | defect h =>
    cases h with
    | foreign f => exact ⟨_, rfl, rfl⟩
    | @name f name value hf h =>
      have hname : name.IsPrintable := hprint.of_mem_items (by simp)
      have hne : ∀ x, nameIn f name ≠ .ok x := fun x hx ↦ h x (Analysis.nameIn_eq_ok hx)
      rcases hf with rfl | rfl
      · exact hfails (hname.nameIn_failsOnly _) hne
      · exact hfails (hname.nameIn_failsOnly _) hne
    | @parameters params body h =>
      have hparams : params.IsPrintable := hprint.of_mem_items (by simp)
      refine hfails hparams.parameters_failsOnly fun xs hx ↦ ?_
      obtain ⟨hnodup, hlist⟩ := parameters_eq_ok_iff.1 hx
      exact h xs hnodup hlist

/-- An expression offends in one way at most. -/
theorem Offence.kind_eq {kind kind' : Error.Kind} {expr : Value} (h : expr.Offence kind)
    (h' : expr.Offence kind') (hprint : expr.IsPrintable) : kind' = kind := by
  obtain ⟨err, herr, rfl⟩ := h.analyze_eq_error hprint
  obtain ⟨err', herr', rfl⟩ := h'.analyze_eq_error hprint
  rw [herr, Except.error.injEq] at herr'
  rw [herr']

theorem IsClean.takes {f : SpecialForm} {operands : List Value} (h : (form f operands).IsClean) :
    f.takes operands.length = true :=
  Bool.not_eq_false _ ▸ fun hf ↦ h _ (.arity hf)

theorem IsClean.exists_name {f : SpecialForm} {name value : Value}
    (h : (form f [name, value]).IsClean) (hf : f = .definition ∨ f = .assignment) :
    ∃ x, name = symbol x := by
  by_contra hne
  exact h _ (.defect (.name hf fun x hx ↦ hne ⟨x, hx⟩))

theorem IsClean.exists_parameters {params : Value} {body : List Value}
    (h : (form .function (params :: body)).IsClean) : ∃ xs, params.parameters = .ok xs := by
  by_contra hne
  refine h _ (.defect (.parameters fun xs hnodup hlist ↦ hne ⟨xs, ?_⟩))
  exact parameters_eq_ok_iff.2 ⟨hnodup, hlist⟩

end Value

/-! ## The first offence -/

/-- The computation checks places that do not offend, or fails with an error of the kind of the
first that does. -/
inductive Except.FindsFirst : List Value → Except Error α → Prop where
  | ok {places : List Value} (clean : ∀ w ∈ places, w.IsClean) (a : α) : FindsFirst places (.ok a)
  | error {before after : List Value} {w : Value} {err : Error} (clean : ∀ u ∈ before, u.IsClean)
      (offence : w.Offence err.kind) : FindsFirst (before ++ w :: after) (.error err)

namespace Except.FindsFirst

theorem nil (a : α) : FindsFirst [] (.ok a) := .ok (List.forall_mem_nil _) a

theorem map {places : List Value} {x : Except Error α} (h : FindsFirst places x) (f : α → δ) :
    FindsFirst places (x.map f) := by
  cases h with
  | ok clean a => exact .ok clean (f a)
  | error clean offence => exact .error clean offence

theorem bind {places places' : List Value} {x : Except Error α} {f : α → Except Error δ}
    (hx : FindsFirst places x) (hf : ∀ a, FindsFirst places' (f a)) :
    FindsFirst (places ++ places') (x >>= f) := by
  cases hx with
  | ok clean a =>
    have hy := hf a
    show FindsFirst (places ++ places') (f a)
    generalize f a = y at hy ⊢
    cases hy with
    | ok clean' b => exact .ok (List.forall_mem_append.2 ⟨clean, clean'⟩) b
    | error clean' offence =>
      rw [← List.append_assoc]
      exact .error (List.forall_mem_append.2 ⟨clean, clean'⟩) offence
  | error clean offence =>
    rw [List.append_assoc, List.cons_append]
    exact .error clean offence

/-- An expression that does not offend goes before its parts. -/
theorem cons {v : Value} {places : List Value} {x : Except Error α} (hv : v.IsClean)
    (hx : FindsFirst places x) : FindsFirst (v :: places) x :=
  (FindsFirst.ok (List.forall_mem_singleton.2 hv) ()).bind fun _ ↦ hx

end Except.FindsFirst

namespace Value

open ReverseLisp.Except (FindsFirst)

theorem findsFirst_analyzeEach {vs : List Value} (h : ∀ v ∈ vs, FindsFirst v.preorder v.analyze) :
    FindsFirst (vs.flatMap preorder) (analyzeEach vs) := by
  induction vs with
  | nil => exact .nil []
  | cons v vs ih =>
    have ⟨hv, hvs⟩ := List.forall_mem_cons.1 h
    exact hv.bind fun n ↦ (ih hvs).map (n :: ·)

/-- A special form that does not offend is analysed by analysing its parts from the left. -/
theorem IsClean.findsFirst_form {f : SpecialForm} {operands : List Value}
    (h : (form f operands).IsClean)
    (hparts : ∀ w ∈ (form f operands).parts, FindsFirst w.preorder w.analyze) :
    FindsFirst ((form f operands).parts.flatMap preorder) (form f operands).analyze := by
  have htakes := h.takes
  match f, operands with
  | .quote, [v] => exact .nil _
  | .branch, [test, yes] =>
    have ⟨htest, hrest⟩ := List.forall_mem_cons.1 hparts
    have hyes := List.forall_mem_singleton.1 hrest
    exact htest.bind fun t ↦ hyes.bind fun y ↦ .nil _
  | .branch, [test, yes, no] =>
    have ⟨htest, hrest⟩ := List.forall_mem_cons.1 hparts
    have ⟨hyes, hrest⟩ := List.forall_mem_cons.1 hrest
    have hno := List.forall_mem_singleton.1 hrest
    exact htest.bind fun t ↦ hyes.bind fun y ↦ hno.bind fun n ↦ .nil _
  | .conjunction, operands =>
    show FindsFirst _ (analyzeAnd operands)
    rw [Analysis.analyzeAnd_eq_map]
    exact (findsFirst_analyzeEach hparts).map _
  | .disjunction, operands =>
    show FindsFirst _ (analyzeOr operands)
    rw [Analysis.analyzeOr_eq_map]
    exact (findsFirst_analyzeEach hparts).map _
  | .definition, [name, value] =>
    obtain ⟨x, rfl⟩ := h.exists_name (.inl rfl)
    exact (List.forall_mem_singleton.1 hparts).bind fun n ↦ .nil _
  | .assignment, [name, value] =>
    obtain ⟨x, rfl⟩ := h.exists_name (.inr rfl)
    exact (List.forall_mem_singleton.1 hparts).bind fun n ↦ .nil _
  | .function, params :: body =>
    obtain ⟨xs, hxs⟩ := h.exists_parameters
    show FindsFirst _ (params.parameters >>= fun xs ↦
      (do return .function xs (.ofList (← analyzeEach body)) body : Except Error Node))
    rw [hxs]
    exact (findsFirst_analyzeEach hparts).map _
  | .sequence, operands => exact (findsFirst_analyzeEach hparts).map _
  | .delay, [v] => exact (List.forall_mem_singleton.1 hparts).bind fun n ↦ .nil _

/-- The same of any expression. -/
theorem IsClean.findsFirst {expr : Value} (h : expr.IsClean)
    (hparts : ∀ w ∈ expr.parts, FindsFirst w.preorder w.analyze) :
    FindsFirst (expr.parts.flatMap preorder) expr.analyze := by
  cases expr with
  | list items =>
    rcases list_cases items with rfl | ⟨f, operands, hf⟩ | ⟨operator, operands, rfl, hw⟩
    · exact .nil _
    · rw [hf] at h hparts ⊢
      exact h.findsFirst_form hparts
    · rw [parts_application hw] at hparts ⊢
      rw [Analysis.analyze_application hw]
      have ⟨hoperator, hoperands⟩ := List.forall_mem_cons.1 hparts
      exact hoperator.bind fun n ↦ (findsFirst_analyzeEach hoperands).map _
  | foreign f => exact absurd (.defect (.foreign f)) (h _)
  | _ => exact .nil _

/-- The analysis finds the first offence in reading order, or there is none. -/
theorem IsPrintable.findsFirst {expr : Value} (h : expr.IsPrintable) :
    FindsFirst expr.preorder expr.analyze := by
  induction expr using induction_items with
  | step expr ih =>
    rw [preorder_eq]
    -- an offence of its own is found before the parts are looked at
    by_cases hclean : expr.IsClean
    · refine .cons hclean (hclean.findsFirst fun w hw ↦ ?_)
      have hitem := mem_items_of_mem_parts hw
      exact ih w hitem (h.of_mem_items hitem)
    · obtain ⟨kind, hoffence⟩ : ∃ kind, expr.Offence kind := by simpa [IsClean] using hclean
      obtain ⟨err, herr, rfl⟩ := hoffence.analyze_eq_error h
      rw [herr]
      exact FindsFirst.error (List.forall_mem_nil _) hoffence

end Value

/-! ## Rewriting comes to an end -/

/-- The computation comes to the same under every limit that is large enough. -/
def Except.Settles (x : Nat → Except Error α) (y : Except Error α) : Prop :=
  ∃ n, ∀ limit, n ≤ limit → x limit = y

namespace Except.Settles

theorem const (y : Except Error α) : Settles (fun _ ↦ y) y := ⟨0, fun _ _ ↦ rfl⟩

theorem bind {x : Nat → Except Error α} {y : Except Error α} {f : Nat → α → Except Error δ}
    {g : α → Except Error δ} (h : Settles x y) (hf : ∀ a, Settles (f · a) (g a)) :
    Settles (fun limit ↦ x limit >>= f limit) (y >>= g) := by
  obtain ⟨n, hn⟩ := h
  match y with
  | .ok a =>
    -- only the bound for the value that is passed on matters
    obtain ⟨m, hm⟩ := hf a
    refine ⟨max n m, fun limit hlimit ↦ ?_⟩
    simp only [hn limit (by omega)]
    exact hm limit (by omega)
  | .error err =>
    refine ⟨n, fun limit hlimit ↦ ?_⟩
    simp only [hn limit hlimit]
    rfl

theorem mapM {f : Nat → δ → Except Error α} {g : δ → Except Error α} {vs : List δ}
    (h : ∀ v ∈ vs, Settles (f · v) (g v)) :
    Settles (fun limit ↦ vs.mapM (f limit)) (vs.mapM g) := by
  induction vs with
  | nil => exact .const _
  | cons v vs ih =>
    have ⟨hv, hvs⟩ := List.forall_mem_cons.1 h
    simp only [List.mapM_cons]
    exact hv.bind fun a ↦ (ih hvs).bind fun as ↦ .const _

/-- One level of nesting more does not matter. -/
theorem nest {x x' : Nat → Except Error α} {y : Except Error α} (h : Settles x y)
    (hx : ∀ limit, x' (limit + 1) = x limit) : Settles x' y := by
  obtain ⟨n, hn⟩ := h
  refine ⟨n + 1, fun limit hlimit ↦ ?_⟩
  obtain ⟨k, rfl⟩ : ∃ k, limit = k + 1 := ⟨limit - 1, by omega⟩
  rw [hx, hn k (by omega)]

end Except.Settles

namespace Value

open ReverseLisp.Except (Settles)

/-- The analysis that rewrites the expression comes to an end, with the same result. -/
def RewritingEnds (v : Value) : Prop := Settles (analyzeWithin · v) v.analyze

theorem rewritingEnds_branch {test yes no : Value} (ht : test.RewritingEnds)
    (hy : yes.RewritingEnds) (hn : no.RewritingEnds) :
    (form .branch [test, yes, no]).RewritingEnds := by
  have h := ht.bind fun t ↦ hy.bind fun y ↦ hn.bind fun n ↦ .const (.ok (Node.branch t y n))
  exact h.nest fun _ ↦ rfl

theorem rewritingEnds_bool (b : Bool) : (bool b).RewritingEnds :=
  (Settles.const (.ok (Node.literal (bool b)))).nest fun _ ↦ rfl

/-! The branches that a conjunction or a disjunction stands for are larger than it is, but they test
the same operands, and each is nested in the one before. -/

theorem rewritingEnds_conjunctionBranches {vs : List Value} (h : ∀ v ∈ vs, v.RewritingEnds) :
    (conjunctionBranches vs).RewritingEnds := by
  induction vs with
  | nil => exact rewritingEnds_bool true
  | cons v vs ih =>
    have ⟨hv, hvs⟩ := List.forall_mem_cons.1 h
    exact rewritingEnds_branch hv (ih hvs) (rewritingEnds_bool false)

theorem rewritingEnds_disjunctionBranches {vs : List Value} (h : ∀ v ∈ vs, v.RewritingEnds) :
    (disjunctionBranches vs).RewritingEnds := by
  induction vs with
  | nil => exact rewritingEnds_bool false
  | cons v vs ih =>
    have ⟨hv, hvs⟩ := List.forall_mem_cons.1 h
    exact rewritingEnds_branch hv (rewritingEnds_bool true) (ih hvs)

theorem settles_analyzeSequenceWithin {vs : List Value} (h : ∀ v ∈ vs, v.RewritingEnds) :
    Settles (analyzeSequenceWithin · vs) (do return .ofList (← analyzeEach vs)) := by
  rw [analyzeEach_eq_mapM]
  have hs := (Settles.mapM h).bind fun ns ↦ .const (.ok (Node.ofList ns))
  exact hs.nest fun _ ↦ rfl

theorem rewritingEnds_function (params : Value) {body : List Value}
    (h : ∀ v ∈ body, v.RewritingEnds) : (form .function (params :: body)).RewritingEnds := by
  have hs := (Settles.const params.parameters).bind fun xs ↦
    (settles_analyzeSequenceWithin h).bind fun n ↦ .const (.ok (Node.function xs n body))
  simp only [bind_assoc, pure_bind] at hs
  exact hs.nest fun _ ↦ rfl

theorem rewritingEnds_form {f : SpecialForm} {operands : List Value}
    (h : ∀ v ∈ operands, v.RewritingEnds) : (form f operands).RewritingEnds := by
  match f, operands with
  | .quote, [v] => exact (Settles.const (.ok (Node.literal v))).nest fun _ ↦ rfl
  | .branch, [test, yes] =>
    have ⟨htest, hrest⟩ := List.forall_mem_cons.1 h
    have hyes := List.forall_mem_singleton.1 hrest
    have h := htest.bind fun t ↦ hyes.bind fun y ↦
      .const (.ok (Node.branch t y (.literal (bool false))))
    exact h.nest fun _ ↦ rfl
  | .branch, [test, yes, no] =>
    exact rewritingEnds_branch (h test (by simp)) (h yes (by simp)) (h no (by simp))
  | .conjunction, operands =>
    -- the branches are analysed in place of the form, one level further in
    have hrest := rewritingEnds_conjunctionBranches h
    rw [RewritingEnds, analyze_conjunctionBranches] at hrest
    exact hrest.nest fun _ ↦ rfl
  | .disjunction, operands =>
    have hrest := rewritingEnds_disjunctionBranches h
    rw [RewritingEnds, analyze_disjunctionBranches] at hrest
    exact hrest.nest fun _ ↦ rfl
  | .definition, [name, value] =>
    have hvalue := h value (by simp)
    have h := (Settles.const (nameIn .definition name)).bind fun x ↦ hvalue.bind fun n ↦
      .const (.ok (Node.define x n))
    exact h.nest fun _ ↦ rfl
  | .assignment, [name, value] =>
    have hvalue := h value (by simp)
    have h := (Settles.const (nameIn .assignment name)).bind fun x ↦ hvalue.bind fun n ↦
      .const (.ok (Node.assign x n))
    exact h.nest fun _ ↦ rfl
  | .function, params :: body => exact rewritingEnds_function params (List.forall_mem_cons.1 h).2
  | .sequence, operands => exact (settles_analyzeSequenceWithin h).nest fun _ ↦ rfl
  | .delay, [v] =>
    have hrest := rewritingEnds_function (list []) h
    rw [RewritingEnds, ← analyze_delay_eq_function] at hrest
    exact hrest.nest fun _ ↦ rfl
  | .quote, [] | .quote, _ :: _ :: _ | .branch, [] | .branch, [_] | .branch, _ :: _ :: _ :: _ :: _
  | .definition, [] | .definition, [_] | .definition, _ :: _ :: _ :: _ | .assignment, []
  | .assignment, [_] | .assignment, _ :: _ :: _ :: _ | .function, [] | .delay, []
  | .delay, _ :: _ :: _ => exact (Settles.const _).nest fun _ ↦ rfl

/-- The rewriting analysis ends, by induction on the items. -/
theorem rewritingEnds (v : Value) : v.RewritingEnds := by
  induction v using induction_items with
  | step v ih =>
    cases v with
    | list items =>
      rcases list_cases items with rfl | ⟨f, operands, hf⟩ | ⟨operator, operands, rfl, hw⟩
      · exact (Settles.const _).nest fun _ ↦ rfl
      · rw [hf] at ih ⊢
        exact rewritingEnds_form (List.forall_mem_cons.1 ih).2
      · have ⟨hoperator, hoperands⟩ := List.forall_mem_cons.1 ih
        rw [RewritingEnds, Analysis.analyze_application hw, analyzeEach_eq_mapM]
        have h := hoperator.bind fun n ↦ (Settles.mapM hoperands).bind fun ns ↦
          .const (.ok (Node.application n ns))
        exact h.nest fun _ ↦ analyzeWithin_application hw operands
    | _ => exact (Settles.const _).nest fun _ ↦ rfl

end Value

/-! ## Passing -/

/-- **What passes the analysis.** The analysis of every expression ends, with all its rewriting. It
succeeds if and only if nothing that is checked in the expression offends. If it fails, the error is
of the kind of the first offence in reading order, and that place offends in no other way. -/
theorem analysis_passes_iff_clean {expr : Value} (h : expr.IsPrintable) :
    (∃ n, ∀ limit, n ≤ limit → expr.analyzeWithin limit = expr.analyze) ∧
    ((∃ node, expr.analyze = .ok node) ↔ ∀ w ∈ expr.preorder, w.IsClean) ∧
    ∀ err, expr.analyze = .error err → ∃ before w after,
      expr.preorder = before ++ w :: after ∧ (∀ u ∈ before, u.IsClean) ∧
        ∀ kind, w.Offence kind ↔ kind = err.kind := by
  have hkind : ∀ w ∈ expr.preorder, ∀ kind, w.Offence kind →
      ∀ kind', w.Offence kind' ↔ kind' = kind := by
    intro w hw kind hoffence kind'
    refine ⟨fun h' ↦ hoffence.kind_eq h' (h.of_mem_preorder hw), ?_⟩
    rintro rfl
    exact hoffence
  have hfirst := h.findsFirst
  refine ⟨expr.rewritingEnds, ?_⟩
  generalize expr.preorder = places at hfirst hkind ⊢
  generalize expr.analyze = x at hfirst ⊢
  cases hfirst with
  | ok clean node => exact ⟨⟨fun _ ↦ clean, fun _ ↦ ⟨node, rfl⟩⟩, fun err herr ↦ nomatch herr⟩
  | @error before after w err clean offence =>
    have hw : w ∈ before ++ w :: after := List.mem_append_right _ List.mem_cons_self
    refine ⟨⟨fun ⟨_, herr⟩ ↦ (nomatch herr), fun hclean ↦ absurd offence (hclean w hw _)⟩, ?_⟩
    rintro _ ⟨⟩
    exact ⟨before, w, after, rfl, clean, hkind w hw _ offence⟩

/-- A conjunction passes with what it quotes, which is not checked. Where it also assigns to a truth
value, this comes before the delayed expression that it would assign and before the foreign value
after it. -/
theorem analysis_passes_iff_clean_nested :
    let passing := form .conjunction [form .quote [form .quote []], .int 3]
    let assignment := form .assignment [.bool true, form .delay []]
    let expr := form .disjunction [form .conjunction [passing, assignment], .foreign .nothing]
    passing.IsPrintable ∧ (∀ w ∈ passing.preorder, w.IsClean) ∧
      expr.IsPrintable ∧ expr.analyze = .error (.nameExpected .assignment "True") ∧
        ∃ before w after, expr.preorder = before ++ w :: after ∧ (∀ u ∈ before, u.IsClean) ∧
          ∀ kind, w.Offence kind ↔ kind = .invalidSymbol := by
  intro passing assignment expr
  have hthree : (3 : Int).natAbs < Decimal.tooLarge := by decide +kernel
  have hprint : expr.IsPrintable := by
    intro n hn
    obtain rfl : n = 3 := by
      simpa [expr, passing, assignment, form, Value.atoms, Value.atomsAll] using hn
    exact hthree
  have hprint' : passing.IsPrintable := by
    intro n hn
    obtain rfl : n = 3 := by simpa [passing, form, Value.atoms, Value.atomsAll] using hn
    exact hthree
  have hpass : ∃ node, passing.analyze = .ok node := ⟨_, rfl⟩
  have herr : expr.analyze = .error (.nameExpected .assignment "True") := rfl
  exact ⟨hprint', (analysis_passes_iff_clean hprint').2.1.1 hpass, hprint, herr,
    (analysis_passes_iff_clean hprint).2.2 _ herr⟩

end ReverseLisp
