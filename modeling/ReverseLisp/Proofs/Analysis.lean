import ReverseLisp.Node.Analysis

/-!
# What analysis gives

A node tells how its expression was written, up to the rewriting of conjunctions, disjunctions and
delayed expressions. `Analysis` lists the possibilities, one for each kind of expression, and
`Analysis.of_analyze` says that there are no others. Proofs about checked programs take the cases
from there and never open `analyze` itself.

An induction on expressions needs the statement for the items of a list, at every depth: this is
`Value.induction_items`.
-/

namespace ReverseLisp

/-- A computation that may fail gives a value only if its first half does. -/
theorem Except.bind_eq_ok_iff {ε α β : Type} {x : Except ε α} {f : α → Except ε β} {b : β} :
    (x >>= f) = .ok b ↔ ∃ a, x = .ok a ∧ f a = .ok b := by
  cases x with
  | error e => simp [bind, Except.bind]
  | ok a => simp [bind, Except.bind]

theorem Except.map_eq_ok_iff {ε α β : Type} {x : Except ε α} {f : α → β} {b : β} :
    x.map f = .ok b ↔ ∃ a, x = .ok a ∧ f a = b := by
  cases x with
  | error e => simp [Except.map]
  | ok a => simp [Except.map]

namespace Value

/-- The items of a list; no other value has any. -/
def items : Value → List Value
  | list vs => vs
  | _ => []

theorem sizeOf_lt_of_mem_items {v w : Value} (h : w ∈ v.items) : sizeOf w < sizeOf v := by
  cases v with
  | list vs =>
    have := List.sizeOf_lt_of_mem (show w ∈ vs from h)
    simp only [Value.list.sizeOf_spec]
    omega
  | _ => simp [items] at h

/-- Induction on expressions: what holds of a value if it holds of its items holds of all values. -/
theorem induction_items {motive : Value → Prop}
    (step : ∀ v, (∀ w ∈ v.items, motive w) → motive v) (v : Value) : motive v :=
  step v fun w _ ↦ induction_items step w
termination_by sizeOf v
decreasing_by exact sizeOf_lt_of_mem_items ‹w ∈ v.items›

/-- Whether a value is an expression that evaluates to itself wherever it stands. -/
def standsForItself : Value → Bool
  | symbol _ | list _ | foreign _ => false
  | _ => true

/-- Whether a value at the head of a list makes it a special form. -/
def isFormWord : Value → Bool
  | symbol x => (SpecialForm.ofSymbol? x).isSome
  | _ => false

/-- A special form with its operands. -/
def form (f : SpecialForm) (operands : List Value) : Value := list (symbol f.word :: operands)

@[simp] theorem items_list (vs : List Value) : (list vs).items = vs := rfl

@[simp] theorem items_form (f : SpecialForm) (operands : List Value) :
    (form f operands).items = symbol f.word :: operands := rfl

/-- A list is an application, or a special form, or empty. -/
theorem list_cases (items : List Value) :
    items = [] ∨ (∃ f operands, list items = form f operands) ∨
      ∃ operator operands, items = operator :: operands ∧ operator.isFormWord = false := by
  cases items with
  | nil => exact .inl rfl
  | cons operator operands =>
    cases hw : operator.isFormWord with
    | true =>
      obtain ⟨x, rfl⟩ : ∃ x, operator = .symbol x := by
        cases operator <;> simp [isFormWord] at hw ⊢
      obtain ⟨f, hf⟩ := Option.isSome_iff_exists.1 hw
      cases SpecialForm.ofSymbol?_eq_some_iff.1 hf
      exact .inr (.inl ⟨f, operands, rfl⟩)
    | false => exact .inr (.inr ⟨operator, operands, rfl, hw⟩)

end Value

open Value (form)

/-- An expression and its node, by the kind of the expression. -/
inductive Analysis : Value → Node → Prop where
  | literal {v : Value} (self : v.standsForItself = true) : Analysis v (.literal v)
  | lookup (x : Symbol) : Analysis (.symbol x) (.lookup x)
  | empty : Analysis (.list []) (.literal (.list []))
  | quote (v : Value) : Analysis (form .quote [v]) (.literal v)
  | branch {test yes : Value} {t y : Node} (ht : test.analyze = .ok t) (hy : yes.analyze = .ok y) :
    Analysis (form .branch [test, yes]) (.branch t y (.literal (.bool false)))
  | branchElse {test yes no : Value} {t y n : Node} (ht : test.analyze = .ok t)
      (hy : yes.analyze = .ok y) (hn : no.analyze = .ok n) :
    Analysis (form .branch [test, yes, no]) (.branch t y n)
  | conjunction {operands : List Value} {n : Node} (h : Value.analyzeAnd operands = .ok n) :
    Analysis (form .conjunction operands) n
  | disjunction {operands : List Value} {n : Node} (h : Value.analyzeOr operands = .ok n) :
    Analysis (form .disjunction operands) n
  | definition (x : Symbol) {value : Value} {n : Node} (h : value.analyze = .ok n) :
    Analysis (form .definition [.symbol x, value]) (.define x n)
  | assignment (x : Symbol) {value : Value} {n : Node} (h : value.analyze = .ok n) :
    Analysis (form .assignment [.symbol x, value]) (.assign x n)
  | function {params : Value} {xs : List Symbol} {body : List Value} {ns : List Node}
      (hx : params.parameters = .ok xs) (h : Value.analyzeEach body = .ok ns) :
    Analysis (form .function (params :: body)) (.function xs (.ofList ns) body)
  | sequence {operands : List Value} {ns : List Node} (h : Value.analyzeEach operands = .ok ns) :
    Analysis (form .sequence operands) (.ofList ns)
  | delay {v : Value} {n : Node} (h : v.analyze = .ok n) :
    Analysis (form .delay [v]) (.function [] n [v])
  | application {operator : Value} {operands : List Value} {n : Node} {ns : List Node}
      (word : operator.isFormWord = false) (h : operator.analyze = .ok n)
      (hs : Value.analyzeEach operands = .ok ns) :
    Analysis (.list (operator :: operands)) (.application n ns)

namespace Analysis

open Value

theorem nameIn_eq_ok {f : SpecialForm} {name : Value} {x : Symbol} (h : nameIn f name = .ok x) :
    name = .symbol x := by
  cases name with
  | symbol y =>
    rw [nameIn, Except.ok.injEq] at h
    rw [h]
  | _ => simp [nameIn] at h

/-- The node of a special form, by the form. -/
theorem of_form {f : SpecialForm} {operands : List Value} {node : Node}
    (h : (form f operands).analyze = .ok node) : Analysis (form f operands) node := by
  rw [form, analyze.eq_def] at h
  simp only [SpecialForm.ofSymbol?_word] at h
  cases f with
  | quote =>
    match operands with
    | [v] =>
      cases h
      exact .quote v
    | [] | _ :: _ :: _ => simp at h
  | branch =>
    match operands with
    | [test, yes] =>
      obtain ⟨t, ht, h⟩ := Except.bind_eq_ok_iff.1 h
      obtain ⟨y, hy, h⟩ := Except.bind_eq_ok_iff.1 h
      cases h
      exact .branch ht hy
    | [test, yes, no] =>
      obtain ⟨t, ht, h⟩ := Except.bind_eq_ok_iff.1 h
      obtain ⟨y, hy, h⟩ := Except.bind_eq_ok_iff.1 h
      obtain ⟨n, hn, h⟩ := Except.bind_eq_ok_iff.1 h
      cases h
      exact .branchElse ht hy hn
    | [] | [_] | _ :: _ :: _ :: _ :: _ => simp at h
  | conjunction => exact .conjunction h
  | disjunction => exact .disjunction h
  | definition =>
    match operands with
    | [name, value] =>
      obtain ⟨x, hx, h⟩ := Except.bind_eq_ok_iff.1 h
      obtain ⟨n, hn, h⟩ := Except.bind_eq_ok_iff.1 h
      cases h
      cases nameIn_eq_ok hx
      exact .definition x hn
    | [] | [_] | _ :: _ :: _ :: _ => simp at h
  | assignment =>
    match operands with
    | [name, value] =>
      obtain ⟨x, hx, h⟩ := Except.bind_eq_ok_iff.1 h
      obtain ⟨n, hn, h⟩ := Except.bind_eq_ok_iff.1 h
      cases h
      cases nameIn_eq_ok hx
      exact .assignment x hn
    | [] | [_] | _ :: _ :: _ :: _ => simp at h
  | function =>
    match operands with
    | params :: body =>
      obtain ⟨xs, hx, h⟩ := Except.bind_eq_ok_iff.1 h
      obtain ⟨ns, hn, h⟩ := Except.bind_eq_ok_iff.1 h
      cases h
      exact .function hx hn
    | [] => simp at h
  | sequence =>
    obtain ⟨ns, hn, h⟩ := Except.bind_eq_ok_iff.1 h
    cases h
    exact .sequence hn
  | delay =>
    match operands with
    | [v] =>
      obtain ⟨n, hn, h⟩ := Except.bind_eq_ok_iff.1 h
      cases h
      exact .delay hn
    | [] | _ :: _ :: _ => simp at h

/-- A list whose head is no word of a special form is analysed as an application. -/
theorem analyze_application {operator : Value} (h : operator.isFormWord = false)
    (operands : List Value) :
    (Value.list (operator :: operands)).analyze = do
      return .application (← operator.analyze) (← analyzeEach operands) := by
  cases operator with
  | symbol x =>
    have hx : SpecialForm.ofSymbol? x = none := by simpa [isFormWord] using h
    rw [analyze, analyze]
    · rfl
    · exact hx
  | _ =>
    rw [analyze]
    simp

/-- There are no other nodes than those listed. -/
theorem of_analyze {expr : Value} {node : Node} (h : expr.analyze = .ok node) :
    Analysis expr node := by
  match expr with
  | .symbol x =>
    cases h
    exact .lookup x
  | .list items =>
    rcases list_cases items with rfl | ⟨f, operands, hf⟩ | ⟨operator, operands, rfl, hw⟩
    · cases h
      exact .empty
    · rw [hf] at h ⊢
      exact of_form h
    · rw [analyze_application hw] at h
      obtain ⟨n, hn, h⟩ := Except.bind_eq_ok_iff.1 h
      obtain ⟨ns, hs, h⟩ := Except.bind_eq_ok_iff.1 h
      cases h
      exact .application hw hn hs
  | .foreign f => cases h
  | .int _ | .binary _ | .nan _ | .bool _ | .closure _ _ | .primitive _ =>
    cases h
    exact .literal rfl

/-- Each of several nodes belongs to one of the expressions. -/
theorem exists_of_mem_analyzeEach {exprs : List Value} {ns : List Node} {n : Node}
    (h : analyzeEach exprs = .ok ns) (hn : n ∈ ns) : ∃ expr ∈ exprs, expr.analyze = .ok n := by
  induction exprs generalizing ns with
  | nil =>
    cases h
    cases hn
  | cons expr exprs ih =>
    obtain ⟨m, hm, h⟩ := Except.bind_eq_ok_iff.1 h
    obtain ⟨rest, hrest, h⟩ := Except.bind_eq_ok_iff.1 h
    cases h
    rcases List.mem_cons.1 hn with rfl | hn
    · exact ⟨expr, List.mem_cons_self, hm⟩
    · obtain ⟨v, hv, hvn⟩ := ih hrest hn
      exact ⟨v, List.mem_cons_of_mem _ hv, hvn⟩

/-! Conjunctions and disjunctions are made from the nodes of their operands, all of which are
checked first. -/

theorem eq_map_foldr_analyzeEach {g : List Value → Except Error Node} {f : Node → Node → Node}
    {z : Node} (hnil : g [] = .ok z)
    (hcons : ∀ v vs, g (v :: vs) = do return f (← v.analyze) (← g vs)) (vs : List Value) :
    g vs = (analyzeEach vs).map (List.foldr f z) := by
  induction vs with
  | nil => exact hnil
  | cons v vs ih =>
    rw [hcons, analyzeEach, ih]
    cases v.analyze with
    | error err => rfl
    | ok n => cases analyzeEach vs <;> rfl

theorem analyzeAnd_eq_map (vs : List Value) :
    analyzeAnd vs = (analyzeEach vs).map
      (List.foldr (fun n m ↦ .branch n m (.literal (.bool false))) (.literal (.bool true))) :=
  eq_map_foldr_analyzeEach rfl (fun _ _ ↦ rfl) vs

theorem analyzeOr_eq_map (vs : List Value) :
    analyzeOr vs = (analyzeEach vs).map
      (List.foldr (fun n m ↦ .branch n (.literal (.bool true)) m) (.literal (.bool false))) :=
  eq_map_foldr_analyzeEach rfl (fun _ _ ↦ rfl) vs

end Analysis

end ReverseLisp
