import ReverseLisp.Proofs.Analysis
import ReverseLisp.Proofs.Readable
import ReverseLisp.Proofs.Scanning

/-!
# Atoms

What a value is made of, once its lists are taken apart: the values in it, at any depth, that are
no lists. Whatever is computed by moving values about keeps to the atoms that it got.

The reader makes its atoms from literals: every atom of what it reads is denoted by a literal, the
word that a quotation marker puts in included. In particular it reads no function, no truth value
and no foreign value.
-/

namespace ReverseLisp

namespace Value

mutual

/-- The values in a value, at any depth, that are no lists. -/
def atoms : Value → List Value
  | list items => atomsAll items
  | v => [v]

/-- The atoms of several values. -/
def atomsAll : List Value → List Value
  | [] => []
  | v :: vs => v.atoms ++ atomsAll vs

end

theorem mem_atomsAll_iff {a : Value} {vs : List Value} :
    a ∈ atomsAll vs ↔ ∃ v ∈ vs, a ∈ v.atoms := by
  induction vs with
  | nil => simp [atomsAll]
  | cons v vs ih => simp [atomsAll, ih]

theorem mem_atoms_list {a : Value} {items : List Value} :
    a ∈ (list items).atoms ↔ ∃ v ∈ items, a ∈ v.atoms := by
  rw [atoms, mem_atomsAll_iff]

/-- Turning lists round keeps their atoms. -/
theorem mem_atoms_deepReverse {a v : Value} : a ∈ v.deepReverse.atoms ↔ a ∈ v.atoms := by
  induction v using induction_items with
  | step v ih =>
    cases v with
    | list items =>
      rw [deepReverse, deepReverseEach_eq_map, mem_atoms_list, mem_atoms_list]
      constructor
      · rintro ⟨w, hw, ha⟩
        obtain ⟨v, hv, rfl⟩ := List.mem_map.1 (List.mem_reverse.1 hw)
        exact ⟨v, hv, (ih v hv).1 ha⟩
      · rintro ⟨v, hv, ha⟩
        have hw : v.deepReverse ∈ (items.map deepReverse).reverse :=
          List.mem_reverse.2 (List.mem_map_of_mem hv)
        exact ⟨v.deepReverse, hw, (ih v hv).2 ha⟩
    | _ => rfl

end Value

/-! ## What literals denote -/

/-- A literal denotes an integer, a binary number or the symbol of its own text. -/
theorem atom_cases (text : String) :
    (∃ n, Literal.int? text.toList = some n ∧ atom text = .int n) ∨
      (∃ x, atom text = .binary x) ∨ atom text = .symbol ⟨text⟩ := by
  unfold atom
  cases Literal.int? text.toList with
  | some n => exact .inl ⟨n, rfl, rfl⟩
  | none =>
    dsimp only
    split
    · exact .inr (.inl ⟨_, rfl⟩)
    · exact .inr (.inr rfl)

theorem atom_quote : atom "quote" = .symbol SpecialForm.quote.word := by decide

theorem atoms_atom (text : String) : (atom text).atoms = [atom text] := by
  rcases atom_cases text with ⟨n, -, h⟩ | ⟨x, h⟩ | h <;> rw [h] <;> rfl

/-! ## What the reader makes -/

namespace Derivation

mutual

/-- The atoms of an expression are denoted by the literals of its frontier, and by the word of
quotations. -/
theorem exists_atom_of_mem_atoms {P : String → Prop} (hquote : P "quote") (d : Derivation)
    (h : ∀ t ∈ d.tokens, t.kind = .literal → P t.text) {a : Value} (ha : a ∈ d.value.atoms) :
    ∃ text, P text ∧ a = atom text := by
  cases d with
  | literal text =>
    rw [value, atoms_atom, List.mem_singleton] at ha
    exact ⟨text, h _ List.mem_cons_self rfl, ha⟩
  | reversal marker d =>
    rw [value, Value.mem_atoms_deepReverse] at ha
    exact exists_atom_of_mem_atoms hquote d (fun t ht ↦ h t (List.mem_cons_of_mem _ ht)) ha
  | quotation marker d =>
    rw [value, Value.mem_atoms_list] at ha
    obtain ⟨v, hv, ha⟩ := ha
    rcases List.mem_cons.1 hv with rfl | hv
    · exact ⟨"quote", hquote, (List.mem_singleton.1 ha).trans atom_quote.symm⟩
    · rw [List.mem_singleton.1 hv] at ha
      exact exists_atom_of_mem_atoms hquote d (fun t ht ↦ h t (List.mem_cons_of_mem _ ht)) ha
  | list opener items closer =>
    have hitems : ∀ t ∈ tokensAll items, t.kind = .literal → P t.text :=
      fun t ht ↦ h t (List.mem_cons_of_mem _ (List.mem_append_left _ ht))
    exact exists_atom_of_mem_atomsAll hquote items hitems ha

theorem exists_atom_of_mem_atomsAll {P : String → Prop} (hquote : P "quote")
    (ds : List Derivation) (h : ∀ t ∈ tokensAll ds, t.kind = .literal → P t.text) {a : Value}
    (ha : a ∈ Value.atomsAll (values ds)) : ∃ text, P text ∧ a = atom text := by
  cases ds with
  | nil => cases ha
  | cons d ds =>
    rw [values, Value.atomsAll, List.mem_append] at ha
    rcases ha with ha | ha
    · exact exists_atom_of_mem_atoms hquote d (fun t ht ↦ h t (List.mem_append_left _ ht)) ha
    · exact exists_atom_of_mem_atomsAll hquote ds (fun t ht ↦ h t (List.mem_append_right _ ht)) ha

end

end Derivation

/-- Every atom of what is read is denoted by a literal. -/
theorem exists_literal_of_read {s : String} {vs : List Value} (h : read s = .ok vs) {v a : Value}
    (hv : v ∈ vs) (ha : a ∈ v.atoms) : ∃ text, Token.IsLiteralText text ∧ a = atom text := by
  obtain ⟨ds, hds, rfl⟩ := Derivation.exists_of_readAll h
  have hquote : Token.IsLiteralText "quote" := by decide
  refine Derivation.exists_atom_of_mem_atomsAll hquote ds ?_ (Value.mem_atomsAll_iff.2 ⟨v, hv, ha⟩)
  intro t ht hk
  rw [hds] at ht
  exact Token.isLiteralText_of_mem_scan ht hk

/-- The reader makes integers, binary numbers and symbols only. -/
theorem forall_atoms_of_read {P : Value → Prop} (hint : ∀ n, P (.int n))
    (hbinary : ∀ x, P (.binary x)) (hsymbol : ∀ x, P (.symbol x)) {program : String}
    {exprs : List Value} (h : read program = .ok exprs) {expr : Value} (hexpr : expr ∈ exprs) :
    ∀ a ∈ expr.atoms, P a := by
  intro a ha
  obtain ⟨text, -, rfl⟩ := exists_literal_of_read h hexpr ha
  rcases atom_cases text with ⟨n, -, h⟩ | ⟨x, h⟩ | h
  · rw [h]
    exact hint n
  · rw [h]
    exact hbinary x
  · rw [h]
    exact hsymbol _

/-! ## What nodes hold -/

namespace Node

/-- The nodes that a node is made of. -/
def children : Node → List Node
  | literal _ | lookup _ => []
  | branch test yes no => [test, yes, no]
  | define _ value | assign _ value => [value]
  | function _ body _ => [body]
  | sequence nodes => nodes
  | application operator operands => operator :: operands

theorem sizeOf_lt_of_mem_children {m n : Node} (h : m ∈ n.children) : sizeOf m < sizeOf n := by
  cases n with
  | literal _ | lookup _ => cases h
  | branch _ _ _ =>
    simp only [children, List.mem_cons, List.not_mem_nil, or_false] at h
    rcases h with rfl | rfl | rfl <;> simp <;> omega
  | define _ _ | assign _ _ | function _ _ _ =>
    rw [List.mem_singleton.1 h]
    simp only [define.sizeOf_spec, assign.sizeOf_spec, function.sizeOf_spec]
    omega
  | sequence nodes =>
    have := List.sizeOf_lt_of_mem (show m ∈ nodes from h)
    simp only [sequence.sizeOf_spec]
    omega
  | application operator operands =>
    simp only [application.sizeOf_spec]
    rcases List.mem_cons.1 h with rfl | h
    · omega
    · have := List.sizeOf_lt_of_mem h
      omega

/-- Induction on nodes: what holds of a node if it holds of its children holds of all nodes. -/
theorem induction_children {motive : Node → Prop}
    (step : ∀ n, (∀ m ∈ n.children, motive m) → motive n) (n : Node) : motive n :=
  step n fun m _ ↦ induction_children step m
termination_by sizeOf n
decreasing_by exact sizeOf_lt_of_mem_children ‹m ∈ n.children›

mutual

/-- The atoms of the values that a node holds. -/
def atoms : Node → List Value
  | literal v => v.atoms
  | lookup _ => []
  | branch test yes no => test.atoms ++ yes.atoms ++ no.atoms
  | define _ value | assign _ value => value.atoms
  | function _ body source => body.atoms ++ Value.atomsAll source
  | sequence nodes => atomsAll nodes
  | application operator operands => operator.atoms ++ atomsAll operands

/-- The atoms of the values that several nodes hold. -/
def atomsAll : List Node → List Value
  | [] => []
  | n :: ns => n.atoms ++ atomsAll ns

end

theorem mem_atomsAll_iff {a : Value} {ns : List Node} :
    a ∈ atomsAll ns ↔ ∃ n ∈ ns, a ∈ n.atoms := by
  induction ns with
  | nil => simp [atomsAll]
  | cons n ns ih => simp [atomsAll, ih]

theorem mem_atomsAll_of_ofList {a : Value} {ns : List Node} (h : a ∈ (ofList ns).atoms) :
    a ∈ atomsAll ns := by
  match ns with
  | [] => exact h
  | [n] =>
    rw [atomsAll, atomsAll, List.append_nil]
    exact h
  | _ :: _ :: _ => exact h

theorem forall_mem_atoms_branch {P : Value → Prop} {test yes no : Node}
    (ht : ∀ a ∈ test.atoms, P a) (hy : ∀ a ∈ yes.atoms, P a) (hn : ∀ a ∈ no.atoms, P a) :
    ∀ a ∈ (branch test yes no).atoms, P a := by
  intro a ha
  rw [atoms, List.mem_append, List.mem_append] at ha
  rcases ha with (ha | ha) | ha
  · exact ht a ha
  · exact hy a ha
  · exact hn a ha

theorem forall_mem_atoms_bool {P : Value → Prop} (hbool : ∀ b, P (.bool b)) (b : Bool) :
    ∀ a ∈ (literal (.bool b)).atoms, P a := by
  intro a ha
  rw [List.mem_singleton.1 ha]
  exact hbool b

theorem forall_mem_atoms_foldr {P : Value → Prop} {f : Node → Node → Node} {z : Node}
    (hf : ∀ n m, (∀ a ∈ n.atoms, P a) → (∀ a ∈ m.atoms, P a) → ∀ a ∈ (f n m).atoms, P a)
    (hz : ∀ a ∈ z.atoms, P a) {ns : List Node} (hns : ∀ a ∈ atomsAll ns, P a) :
    ∀ a ∈ (ns.foldr f z).atoms, P a := by
  induction ns with
  | nil => exact hz
  | cons n ns ih =>
    rw [atomsAll, List.forall_mem_append] at hns
    exact hf n _ hns.1 (ih hns.2)

end Node

/-! Analysis puts nothing into a node but what stands in the expression, and truth values. -/

namespace Analysis

open Value (form)

variable {P : Value → Prop}

theorem atoms_of_analyzeEach {exprs : List Value} {ns : List Node}
    (h : ∀ expr ∈ exprs, ∀ n, expr.analyze = .ok n → ∀ a ∈ n.atoms, P a)
    (hns : Value.analyzeEach exprs = .ok ns) : ∀ a ∈ Node.atomsAll ns, P a := by
  intro a ha
  obtain ⟨n, hn, ha⟩ := Node.mem_atomsAll_iff.1 ha
  obtain ⟨expr, hexpr, hn⟩ := exists_of_mem_analyzeEach hns hn
  exact h expr hexpr n hn a ha

/-- What holds of the atoms of an expression, and of truth values, holds of what its node holds. -/
theorem atoms_of_analyze (hbool : ∀ b, P (.bool b)) {expr : Value} {node : Node}
    (h : expr.analyze = .ok node) (hexpr : ∀ a ∈ expr.atoms, P a) : ∀ a ∈ node.atoms, P a := by
  induction expr using Value.induction_items generalizing node with
  | step expr ih =>
    -- the statement for an item, and for a tail of the items
    have hitem : ∀ v ∈ expr.items, ∀ n, v.analyze = .ok n → ∀ a ∈ n.atoms, P a := by
      intro v hv n hn
      refine ih v hv hn fun a ha ↦ hexpr a ?_
      cases expr with
      | list items => exact Value.mem_atoms_list.2 ⟨v, hv, ha⟩
      | _ => cases hv
    cases of_analyze h with
    | literal self => exact hexpr
    | lookup x => exact fun a ha ↦ nomatch ha
    | empty => exact fun a ha ↦ nomatch ha
    | quote v =>
      intro a ha
      exact hexpr a (Value.mem_atoms_list.2 ⟨v, by simp, ha⟩)
    | branch ht hy =>
      exact Node.forall_mem_atoms_branch (hitem _ (by simp) _ ht) (hitem _ (by simp) _ hy)
        (Node.forall_mem_atoms_bool hbool false)
    | branchElse ht hy hn =>
      exact Node.forall_mem_atoms_branch (hitem _ (by simp) _ ht) (hitem _ (by simp) _ hy)
        (hitem _ (by simp) _ hn)
    | conjunction hs =>
      rw [analyzeAnd_eq_map] at hs
      obtain ⟨ns, hns, rfl⟩ := Except.map_eq_ok_iff.1 hs
      refine Node.forall_mem_atoms_foldr ?_ (Node.forall_mem_atoms_bool hbool true)
        (atoms_of_analyzeEach (fun v hv ↦ hitem v (List.mem_cons_of_mem _ hv)) hns)
      exact fun n m hn hm ↦
        Node.forall_mem_atoms_branch hn hm (Node.forall_mem_atoms_bool hbool false)
    | disjunction hs =>
      rw [analyzeOr_eq_map] at hs
      obtain ⟨ns, hns, rfl⟩ := Except.map_eq_ok_iff.1 hs
      refine Node.forall_mem_atoms_foldr ?_ (Node.forall_mem_atoms_bool hbool false)
        (atoms_of_analyzeEach (fun v hv ↦ hitem v (List.mem_cons_of_mem _ hv)) hns)
      exact fun n m hn hm ↦
        Node.forall_mem_atoms_branch hn (Node.forall_mem_atoms_bool hbool true) hm
    | @definition x value n hn => exact hitem value (by simp) n hn
    | @assignment x value n hn => exact hitem value (by simp) n hn
    | @function params xs body ns hx hs =>
      intro a ha
      rcases List.mem_append.1 ha with ha | ha
      · refine atoms_of_analyzeEach (fun v hv ↦ hitem v ?_) hs a (Node.mem_atomsAll_of_ofList ha)
        exact List.mem_cons_of_mem _ (List.mem_cons_of_mem _ hv)
      · obtain ⟨v, hv, ha⟩ := Value.mem_atomsAll_iff.1 ha
        refine hexpr a (Value.mem_atoms_list.2 ⟨v, ?_, ha⟩)
        exact List.mem_cons_of_mem _ (List.mem_cons_of_mem _ hv)
    | sequence hs =>
      intro a ha
      refine atoms_of_analyzeEach (fun v hv ↦ hitem v ?_) hs a (Node.mem_atomsAll_of_ofList ha)
      exact List.mem_cons_of_mem _ hv
    | @delay v n hn =>
      intro a ha
      rcases List.mem_append.1 ha with ha | ha
      · exact hitem v (by simp) n hn a ha
      · obtain ⟨w, hw, ha⟩ := Value.mem_atomsAll_iff.1 ha
        exact hexpr a (Value.mem_atoms_list.2 ⟨w, List.mem_cons_of_mem _ hw, ha⟩)
    | application word hn hs =>
      intro a ha
      rcases List.mem_append.1 ha with ha | ha
      · exact hitem _ List.mem_cons_self _ hn a ha
      · exact atoms_of_analyzeEach (fun v hv ↦ hitem v (List.mem_cons_of_mem _ hv)) hs a ha

end Analysis

end ReverseLisp
