import Mathlib.Data.List.Nodup
import Mathlib.Logic.Equiv.Basic
import ReverseLisp.Proofs.Growth
import ReverseLisp.Proofs.Renaming

/-!
# Names matter only up to renaming

Analysis looks at the words of special forms and at nothing else of a symbol. A renaming keeps the
words, so a renamed expression has the renamed node, or is refused for an error of the same kind;
and running the renamed node in the renamed store does what running the node does, up to the
renaming. Neither needs anything of the store.

Conjunction, disjunction and delay are rewritten. The rewriting puts truth values into nodes and no
names: the names that such a node looks up, binds or changes are those of its operands. So nothing
that a program defines, be it a word or the name of a truth value, can come between an expression
and its meaning.
-/

namespace ReverseLisp

open Value (rename form)

variable {r : Symbol → Symbol}

/-! ## Analysis -/

namespace Value

theorem nameIn_renames (f : SpecialForm) (v : Value) :
    Except.Renames r (nameIn f v) (nameIn f (v.rename r)) := by
  match v with
  | symbol x => exact .ok x
  | list vs => exact .error (kind_errorMentioning_rename (list vs) fun _ _ ↦ rfl)
  | closure id params =>
    exact .error (kind_errorMentioning_rename (closure id params) fun _ _ ↦ rfl)
  | int _ | binary _ | nan _ | bool _ | primitive _ | foreign _ => exact .error rfl

theorem parameterSymbols_renames (vs : List Value) :
    Except.Renames (List.map r) (parameterSymbols vs) (parameterSymbols (vs.map (rename r))) := by
  induction vs with
  | nil => exact .ok []
  | cons v vs ih =>
    match v with
    | symbol x => exact ih.map fun xs ↦ rfl
    | list us => exact .error (kind_errorMentioning_rename (list us) fun _ _ ↦ rfl)
    | closure id params =>
      exact .error (kind_errorMentioning_rename (closure id params) fun _ _ ↦ rfl)
    | int _ | binary _ | nan _ | bool _ | primitive _ | foreign _ => exact .error rfl

theorem parameters_renames (hr : Function.Injective r) (v : Value) :
    Except.Renames (List.map r) v.parameters (v.rename r).parameters := by
  match v with
  | list vs =>
    rw [rename_list, parameters, parameters]
    refine (parameterSymbols_renames vs).bind fun xs ↦ ?_
    by_cases hxs : xs.Nodup
    · rw [if_pos hxs, if_pos ((List.nodup_map_iff hr).2 hxs)]
      exact .ok xs
    · rw [if_neg hxs, if_neg ((List.nodup_map_iff hr).not.2 hxs), ← rename_list]
      exact .error (kind_errorShowing_rename (list vs) fun _ _ ↦ rfl)
  | symbol x => exact .error rfl
  | closure id params =>
    exact .error (kind_errorMentioning_rename (closure id params) fun _ _ ↦ rfl)
  | int _ | binary _ | nan _ | bool _ | primitive _ | foreign _ => exact .error rfl

theorem analyzeEach_renames {vs : List Value}
    (h : ∀ v ∈ vs, Except.Renames (Node.rename r) v.analyze (v.rename r).analyze) :
    Except.Renames (List.map (Node.rename r)) (analyzeEach vs)
      (analyzeEach (vs.map (rename r))) := by
  induction vs with
  | nil => exact .ok []
  | cons v vs ih =>
    have ⟨hv, hvs⟩ := List.forall_mem_cons.1 h
    exact hv.bind fun n ↦ (ih hvs).bind fun ns ↦ .ok (n :: ns)

theorem foldr_map_rename {f : Node → Node → Node} {z : Node}
    (hf : ∀ n m, (f n m).rename r = f (n.rename r) (m.rename r)) (hz : z.rename r = z)
    (ns : List Node) : (ns.map (Node.rename r)).foldr f z = (ns.foldr f z).rename r := by
  induction ns with
  | nil => exact hz.symm
  | cons n ns ih => rw [List.map_cons, List.foldr_cons, List.foldr_cons, hf, ih]

theorem analyze_form_renames (hr : IsRenaming r) (f : SpecialForm) {operands : List Value}
    (h : ∀ v ∈ operands, Except.Renames (Node.rename r) v.analyze (v.rename r).analyze) :
    Except.Renames (Node.rename r) (form f operands).analyze
      ((form f operands).rename r).analyze := by
  rw [rename_form hr]
  have heach := analyzeEach_renames h
  match f, operands with
  | .quote, [v] => exact .ok (Node.literal v)
  | .branch, [test, yes] =>
    refine (h test (by simp)).bind fun t ↦ (h yes (by simp)).bind fun y ↦ ?_
    exact .ok (Node.branch t y (.literal (bool false)))
  | .branch, [test, yes, no] =>
    refine (h test (by simp)).bind fun t ↦ (h yes (by simp)).bind fun y ↦ ?_
    exact (h no (by simp)).bind fun n ↦ .ok (Node.branch t y n)
  | .conjunction, operands =>
    show Except.Renames _ (analyzeAnd operands) (analyzeAnd (operands.map (rename r)))
    rw [Analysis.analyzeAnd_eq_map, Analysis.analyzeAnd_eq_map]
    exact heach.map (foldr_map_rename (fun _ _ ↦ rfl) rfl)
  | .disjunction, operands =>
    show Except.Renames _ (analyzeOr operands) (analyzeOr (operands.map (rename r)))
    rw [Analysis.analyzeOr_eq_map, Analysis.analyzeOr_eq_map]
    exact heach.map (foldr_map_rename (fun _ _ ↦ rfl) rfl)
  | .definition, [name, value] =>
    refine (nameIn_renames _ name).bind fun x ↦ (h value (by simp)).bind fun n ↦ ?_
    exact .ok (Node.define x n)
  | .assignment, [name, value] =>
    refine (nameIn_renames _ name).bind fun x ↦ (h value (by simp)).bind fun n ↦ ?_
    exact .ok (Node.assign x n)
  | .function, params :: body =>
    have hbody := analyzeEach_renames fun v hv ↦ h v (List.mem_cons_of_mem _ hv)
    refine (parameters_renames hr.injective params).bind fun xs ↦ hbody.bind fun ns ↦ ?_
    refine .ok_of_eq ?_
    rw [Node.rename, Node.rename_ofList]
  | .sequence, operands => exact heach.bind fun ns ↦ .ok_of_eq (Node.rename_ofList ns)
  | .delay, [v] => exact (h v (by simp)).bind fun n ↦ .ok (Node.function [] n [v])
  | .quote, [] | .quote, _ :: _ :: _ | .branch, [] | .branch, [_] | .branch, _ :: _ :: _ :: _ :: _
  | .definition, [] | .definition, [_] | .definition, _ :: _ :: _ :: _ | .assignment, []
  | .assignment, [_] | .assignment, _ :: _ :: _ :: _ | .function, [] | .delay, []
  | .delay, _ :: _ :: _ => exact .error rfl

/-- Renaming an expression renames its node, or leaves the kind of its error. -/
theorem analyze_renames (hr : IsRenaming r) (v : Value) :
    Except.Renames (Node.rename r) v.analyze (v.rename r).analyze := by
  induction v using induction_items with
  | step v ih =>
    match v with
    | list items =>
      rcases list_cases items with rfl | ⟨f, operands, hf⟩ | ⟨operator, operands, rfl, hw⟩
      · exact .ok (Node.literal (list []))
      · rw [hf] at ih ⊢
        exact analyze_form_renames hr f fun v hv ↦ ih v (List.mem_cons_of_mem _ hv)
      · have hw' := (isFormWord_rename hr operator).trans hw
        rw [rename_list, List.map_cons, Analysis.analyze_application hw,
          Analysis.analyze_application hw']
        refine (ih operator List.mem_cons_self).bind fun n ↦ ?_
        refine (analyzeEach_renames fun v hv ↦ ih v (List.mem_cons_of_mem _ hv)).bind fun ns ↦ ?_
        refine .ok_of_eq ?_
        rw [Node.rename, Node.renameEach_eq_map]
    | foreign _ => exact .error rfl
    | symbol x => exact .ok (Node.lookup x)
    | closure id params => exact .ok (Node.literal (closure id params))
    | int _ | binary _ | nan _ | bool _ | primitive _ => exact .ok_of_eq rfl

end Value

/-! ## Actions -/

variable {α α' δ δ' : Type}

/-- The second outcome is the first with its store renamed and its result changed by `f`, or with an
error of the same kind. -/
inductive Outcome.Renames (r : Symbol → Symbol) (f : α → δ) :
    Outcome Node α → Outcome Node δ → Prop where
  | ok (a : α) (s : Store Node) : Renames r f (.ok a s) (.ok (f a) (s.rename r))
  | error {err err' : Error} (h : err'.kind = err.kind) (s : Store Node) :
    Renames r f (.error err s) (.error err' (s.rename r))

/-- In the renamed store the second action does what the first does, up to the renaming. -/
def Action.Renames (r : Symbol → Symbol) (f : α → δ) (x : Action Node α) (y : Action Node δ) :
    Prop :=
  ∀ s, Outcome.Renames r f (x.run s) (y.run (s.rename r))

namespace Action.Renames

variable {f : α → δ} {g : α' → δ'}

theorem pure {a : α} {b : δ} (h : f a = b) : Renames r f (Pure.pure a) (Pure.pure b) := by
  rw [← h]
  exact fun s ↦ .ok a s

theorem throw {err err' : Error} (h : err'.kind = err.kind) :
    Renames r f (MonadExcept.throw err) (MonadExcept.throw err') :=
  fun s ↦ .error h s

theorem bind {x : Action Node α} {y : Action Node δ} {k : α → Action Node α'}
    {l : δ → Action Node δ'} (h : Renames r f x y) (hkl : ∀ a, Renames r g (k a) (l (f a))) :
    Renames r g (x >>= k) (y >>= l) := by
  intro s
  have hs := h s
  rw [EStateM.run_bind, EStateM.run_bind]
  generalize x.run s = o at hs
  generalize y.run (s.rename r) = o' at hs
  obtain ⟨a, t⟩ | ⟨hkind, t⟩ := hs
  · exact hkl a t
  · exact .error hkind t

theorem ofExcept {x : Except Error α} {y : Except Error δ} (h : Except.Renames f x y) :
    Renames r f (Action.ofExcept x) (Action.ofExcept y) := by
  obtain a | hkind := h
  · exact pure rfl
  · exact throw hkind

/-! The actions of a store. -/

theorem lookup (hr : Function.Injective r) (e : EnvId) (x : Symbol) :
    Renames r (rename r) (Action.lookup e (.symbol x)) (Action.lookup e (.symbol (r x))) := by
  intro s
  have hvalue := s.value?_rename hr e (.symbol x)
  rw [Value.rename_symbol] at hvalue
  rw [EStateM.run, EStateM.run, Action.lookup, Action.lookup, hvalue]
  rcases s.value? e (.symbol x) with _ | v
  · refine .error ?_ s
    rw [errorUnbound_symbol, errorUnbound_symbol]
    rfl
  · exact .ok v s

theorem define (hr : Function.Injective r) (e : EnvId) (x : Symbol) (v : Value) :
    Renames r (rename r) (Action.define e (.symbol x) v)
      (Action.define e (.symbol (r x)) (v.rename r)) := by
  intro s
  rw [EStateM.run, EStateM.run, Action.define, Action.define]
  by_cases he : e = 0
  · rw [if_pos he, if_pos he]
    refine .error ?_ s
    rfl
  · rw [if_neg he, if_neg he, ← Value.rename_symbol, ← s.rename_put hr]
    exact .ok v _

theorem assign (hr : Function.Injective r) (e : EnvId) (x : Symbol) (v : Value) :
    Renames r (rename r) (Action.assign e (.symbol x) v)
      (Action.assign e (.symbol (r x)) (v.rename r)) := by
  intro s
  have hfind := s.find?_rename hr e (.symbol x)
  rw [Value.rename_symbol] at hfind
  rw [EStateM.run, EStateM.run, Action.assign, Action.assign, hfind]
  rcases s.find? e (.symbol x) with _ | a
  · refine .error ?_ s
    rw [errorUnbound_symbol, errorUnbound_symbol]
    rfl
  · show Outcome.Renames r (rename r) (.ok v (s.put a (.symbol x) v))
      (.ok (v.rename r) ((s.rename r).put a ((Value.symbol x).rename r) (v.rename r)))
    rw [← s.rename_put hr]
    exact .ok v _

theorem newEnv (frame : Frame) (e : EnvId) :
    Renames r id (Action.newEnv frame e) (Action.newEnv (frame.rename r) e) := by
  intro s
  rw [EStateM.run, EStateM.run, Action.newEnv, Action.newEnv, s.nextEnv_rename]
  show Outcome.Renames r id _ (.ok s.nextEnv ((s.rename r).pushEnv (Env.rename r ⟨frame, e⟩)))
  rw [← s.rename_pushEnv]
  exact .ok s.nextEnv _

theorem extend (hr : Function.Injective r) (e : EnvId) (params : List Symbol) (args : List Value) :
    Renames r id (Action.extend e (params.map .symbol) args)
      (Action.extend e ((params.map r).map .symbol) (args.map (rename r))) := by
  rw [Action.extend, Action.extend, Frame.ofPairs?_symbols, Frame.ofPairs?_symbols,
    ← Frame.rename_parameters hr]
  simp only [List.length_map]
  split
  · exact newEnv _ e
  · exact throw rfl

theorem newClosure (params : List Symbol) (c : Code Node) :
    Renames r (rename r) (Action.newClosure params c)
      (Action.newClosure (params.map r) (c.rename r)) := by
  intro s
  rw [EStateM.run, EStateM.run, Action.newClosure, Action.newClosure, s.size_codes_rename,
    ← s.rename_pushCode]
  exact .ok (Value.closure s.codes.size params) _

theorem code? (id : Nat) :
    Renames r (Option.map (Code.rename r)) (Action.code? id) (Action.code? id) := by
  intro s
  rw [EStateM.run, EStateM.run, Action.code?, Action.code?, s.getElem?_codes_rename]
  exact .ok s.codes[id]? s

theorem applyPrimitive (hr : Function.Injective r) (p : Primitive) (args : List Value) :
    Renames r (rename r) (Action.applyPrimitive p args)
      (Action.applyPrimitive p (args.map (rename r))) := by
  intro s
  have happly := p.apply_renames hr s.marks args
  rw [EStateM.run, EStateM.run, Action.applyPrimitive, Action.applyPrimitive, Store.rename]
  generalize p.apply s.marks args = x at happly
  generalize p.apply s.marks (args.map (rename r)) = y at happly
  obtain v | hkind := happly
  · exact .ok v { s with marks := s.marks + 1 }
  · exact .error hkind s

end Action.Renames

/-! ## Runs -/

namespace Machine

open ReverseLisp.Action (Renames)

theorem collect_renames {run run' : Node → Machine Value}
    (h : ∀ n, Renames r (rename r) (run n) (run' (n.rename r))) (ns : List Node) :
    Renames r (List.map (rename r)) (collect run ns) (collect run' (ns.map (Node.rename r))) := by
  induction ns with
  | nil => exact .pure rfl
  | cons n ns ih => exact (h n).bind fun v ↦ ih.bind fun vs ↦ .pure rfl

theorem inOrder_renames {run run' : Node → Machine Value}
    (h : ∀ n, Renames r (rename r) (run n) (run' (n.rename r))) (ns : List Node) :
    Renames r (rename r) (inOrder run ns) (inOrder run' (ns.map (Node.rename r))) := by
  induction ns with
  | nil => exact .pure (Value.rename_list [])
  | cons n ns ih =>
    match ns with
    | [] => exact h n
    | _ :: _ => exact (h n).bind fun _ ↦ ih

/-- What is no function is refused. -/
theorem applyWith_of_isFunction_eq_false {fn : Value} (h : fn.isFunction = false)
    (run : Node → EnvId → Machine Value) (args : List Value) :
    applyWith run fn args = throw (fn.errorShowing .notFunction) := by
  match fn with
  | .int _ | .binary _ | .nan _ | .bool _ | .symbol _ | .list _ | .foreign _ => rfl

theorem applyWith_renames (hr : Function.Injective r) {run : Node → EnvId → Machine Value}
    (h : ∀ n e, Renames r (rename r) (run n e) (run (n.rename r) e)) (fn : Value)
    (args : List Value) :
    Renames r (rename r) (applyWith run fn args)
      (applyWith run (fn.rename r) (args.map (rename r))) := by
  by_cases hfn : fn.isFunction = false
  · rw [applyWith_of_isFunction_eq_false hfn,
      applyWith_of_isFunction_eq_false ((Value.isFunction_rename fn).trans hfn)]
    exact .throw (Value.kind_errorShowing_rename fn fun _ _ ↦ rfl)
  cases fn with
  | primitive p => exact .applyPrimitive hr p args
  | closure id params =>
    have hreject : ∀ mk mk' : String → Error, (∀ t t', (mk' t').kind = (mk t).kind) →
        Renames r (rename r) (throw ((Value.closure id params).errorShowing mk))
          (throw ((Value.closure id (params.map r)).errorShowing mk')) :=
      fun mk mk' hmk ↦ .throw (Value.kind_errorShowing_rename (.closure id params) hmk)
    rw [Value.rename_closure, applyWith, applyWith, List.length_map, List.length_map]
    split
    · refine (Renames.code? id).bind fun code ↦ ?_
      rcases code with _ | c
      · exact hreject _ _ fun _ _ ↦ rfl
      · exact (Renames.extend hr c.env params args).bind fun e ↦ h c.body e
    · exact hreject _ _ fun _ _ ↦ rfl
  | _ => exact absurd rfl hfn

/-- Running a renamed node in a renamed store. -/
theorem run_renames (hr : Function.Injective r) (limit : Nat) (n : Node) (e : EnvId) :
    Renames r (rename r) (run limit n e) (run limit (n.rename r) e) := by
  induction limit generalizing n e with
  | zero => exact .throw rfl
  | succ limit ih =>
    rw [run.eq_def, run.eq_def]
    cases n with
    | literal v => exact .pure rfl
    | lookup x => exact .lookup hr e x
    | branch t y n =>
      refine (ih t e).bind fun v ↦ ?_
      rw [Value.isFalse_rename]
      split
      · exact ih n e
      · exact ih y e
    | define x n => exact (ih n e).bind fun v ↦ .define hr e x v
    | assign x n => exact (ih n e).bind fun v ↦ .assign hr e x v
    | function params body source => exact .newClosure params ⟨body, e, source⟩
    | sequence ns =>
      rw [Node.rename, Node.renameEach_eq_map]
      exact inOrder_renames (fun n ↦ ih n e) ns
    | application n ns =>
      rw [Node.rename, Node.renameEach_eq_map]
      refine (ih n e).bind fun fn ↦ (collect_renames (fun n ↦ ih n e) ns).bind fun args ↦ ?_
      exact applyWith_renames hr ih fn args

/-- Evaluating a renamed expression in a renamed store. The node is nested as deeply, so the limit
cuts off the same. -/
theorem evaluate_renames (hr : IsRenaming r) (limit : Nat) (expr : Value) (e : EnvId) :
    Renames r (rename r) (evaluate limit expr e) (evaluate limit (expr.rename r) e) := by
  have hnode : Renames r (Node.rename r) (analyze limit expr) (analyze limit (expr.rename r)) := by
    refine (Renames.ofExcept (Value.analyze_renames hr expr)).bind fun n ↦ ?_
    rw [Node.depth_rename]
    split
    · exact .throw rfl
    · exact .pure rfl
  exact hnode.bind fun n ↦ run_renames hr.injective limit n e

end Machine

/-! ## The names of a node -/

namespace Node

mutual

/-- The names that a node looks up, binds or changes, the bodies of functions included. -/
def names : Node → List Symbol
  | literal _ => []
  | lookup x => [x]
  | branch test yes no => test.names ++ yes.names ++ no.names
  | define x value | assign x value => x :: value.names
  | function _ body _ => body.names
  | sequence nodes => namesAll nodes
  | application operator operands => operator.names ++ namesAll operands

/-- The names of several nodes. -/
def namesAll : List Node → List Symbol
  | [] => []
  | n :: ns => n.names ++ namesAll ns

end

theorem names_foldr {f : Node → Node → Node} {z : Node}
    (hf : ∀ n m, (f n m).names = n.names ++ m.names) (hz : z.names = [])
    (ns : List Node) : (ns.foldr f z).names = namesAll ns := by
  induction ns with
  | nil => exact hz
  | cons n ns ih => rw [List.foldr_cons, hf, ih, namesAll]

/-! ## Nodes that give truth values -/

/-- Every value that the node gives is a truth value, whatever the store binds. -/
def GivesTruth (n : Node) : Prop :=
  ∀ limit e s v t, EStateM.run (Machine.run limit n e) s = .ok v t → ∃ b, v = .bool b

theorem givesTruth_literal (b : Bool) : (literal (.bool b)).GivesTruth := by
  intro limit e s v t h
  cases limit with
  | zero => cases h
  | succ limit =>
    cases h
    exact ⟨b, rfl⟩

/-- The test decides which arm gives the value, and its own value is not given. -/
theorem GivesTruth.branch (test : Node) {yes no : Node} (hyes : yes.GivesTruth)
    (hno : no.GivesTruth) : (Node.branch test yes no).GivesTruth := by
  intro limit e s v t h
  cases limit with
  | zero => cases h
  | succ limit =>
    rw [Machine.run] at h
    obtain ⟨w, u, -, h⟩ := Action.run_bind_eq_ok_iff.1 h
    split at h
    · exact hno limit e u v t h
    · exact hyes limit e u v t h

theorem GivesTruth.foldr {f : Node → Node → Node} {z : Node} (hz : z.GivesTruth)
    (hf : ∀ n m, m.GivesTruth → (f n m).GivesTruth) (ns : List Node) :
    (ns.foldr f z).GivesTruth := by
  induction ns with
  | nil => exact hz
  | cons n ns ih => exact hf n _ ih

end Node

namespace Analysis

theorem conjunction_hygienic {operands : List Value} {n : Node}
    (h : (form .conjunction operands).analyze = .ok n) :
    ∃ ns, Value.analyzeEach operands = .ok ns ∧ n.names = Node.namesAll ns ∧ n.GivesTruth := by
  change Value.analyzeAnd operands = .ok n at h
  rw [analyzeAnd_eq_map] at h
  obtain ⟨ns, hns, rfl⟩ := Except.map_eq_ok_iff.1 h
  refine ⟨ns, hns, Node.names_foldr (fun n m ↦ ?_) rfl ns, ?_⟩
  · rw [Node.names, Node.names, List.append_nil]
  · refine (Node.givesTruth_literal true).foldr (fun n m hm ↦ ?_) ns
    exact hm.branch n (Node.givesTruth_literal false)

theorem disjunction_hygienic {operands : List Value} {n : Node}
    (h : (form .disjunction operands).analyze = .ok n) :
    ∃ ns, Value.analyzeEach operands = .ok ns ∧ n.names = Node.namesAll ns ∧ n.GivesTruth := by
  change Value.analyzeOr operands = .ok n at h
  rw [analyzeOr_eq_map] at h
  obtain ⟨ns, hns, rfl⟩ := Except.map_eq_ok_iff.1 h
  refine ⟨ns, hns, Node.names_foldr (fun n m ↦ ?_) rfl ns, ?_⟩
  · rw [Node.names, Node.names, List.append_nil]
  · refine (Node.givesTruth_literal false).foldr (fun n m hm ↦ ?_) ns
    exact (Node.givesTruth_literal true).branch n hm

theorem delay_hygienic {v : Value} {n : Node} (h : (form .delay [v]).analyze = .ok n) :
    ∃ m, v.analyze = .ok m ∧ n.names = m.names := by
  change (do return .function [] (← v.analyze) [v]) = Except.ok n at h
  obtain ⟨m, hm, hn⟩ := Except.bind_eq_ok_iff.1 h
  cases hn
  exact ⟨m, hm, rfl⟩

end Analysis

/-- **Names matter only up to renaming.** A renamed expression has the renamed node, or an error of
the same kind. Running or evaluating it in the renamed store, whatever the store and the limit, ends
with the renamed value, or an error of the same kind, and in the renamed store. And the rewriting of
conjunctions, disjunctions and delayed expressions brings in no name that a definition could
capture: the names of the node are those of the nodes of the operands, and conjunctions and
disjunctions give the truth values themselves, whatever is bound to their names. -/
theorem names_matter_up_to_renaming (hr : IsRenaming r) :
    (∀ expr : Value, Except.Renames (Node.rename r) expr.analyze (expr.rename r).analyze) ∧
    (∀ limit node e s, Outcome.Renames r (rename r) (EStateM.run (Machine.run limit node e) s)
      (EStateM.run (Machine.run limit (node.rename r) e) (s.rename r))) ∧
    (∀ limit expr e s, Outcome.Renames r (rename r)
      (EStateM.run (Machine.evaluate limit expr e) s)
      (EStateM.run (Machine.evaluate limit (expr.rename r) e) (s.rename r))) ∧
    (∀ f operands n, f = .conjunction ∨ f = .disjunction → (form f operands).analyze = .ok n →
      ∃ ns, Value.analyzeEach operands = .ok ns ∧ n.names = Node.namesAll ns ∧ n.GivesTruth) ∧
    ∀ v n, (form .delay [v]).analyze = .ok n → ∃ m, v.analyze = .ok m ∧ n.names = m.names := by
  refine ⟨?_, ?_, ?_, ?_, ?_⟩
  · exact fun expr ↦ Value.analyze_renames hr expr
  · exact fun limit node e s ↦ Machine.run_renames hr.injective limit node e s
  · exact fun limit expr e s ↦ Machine.evaluate_renames hr limit expr e s
  · rintro f operands n (rfl | rfl) h
    · exact Analysis.conjunction_hygienic h
    · exact Analysis.disjunction_hygienic h
  · exact fun v n h ↦ Analysis.delay_hygienic h

/-- A program binds the name of a truth value and a word of its own accord. The conjunction still
means what it did, and with the name of the truth value exchanged for another the outcome is the
other name. -/
theorem names_matter_up_to_renaming_exchange :
    let r : Symbol → Symbol := Equiv.swap ⟨"#t"⟩ ⟨"yes"⟩
    let s := ((Session.start 20).evalAll "(def #t 5) (def if car)").2.store
    let expr := form .branch [form .conjunction [.symbol ⟨"#t"⟩, .symbol ⟨"if"⟩],
      form .quote [.symbol ⟨"#t"⟩], .symbol ⟨"nil"⟩]
    IsRenaming r ∧ s.value? 2 (.symbol ⟨"#t"⟩) = some (.int 5) ∧
      (s.rename r).value? 2 (.symbol ⟨"yes"⟩) = some (.int 5) ∧
      ∃ t, EStateM.run (Machine.evaluate 20 expr 2) s = .ok (.symbol ⟨"#t"⟩) t ∧
        EStateM.run (Machine.evaluate 20 (expr.rename r) 2) (s.rename r) =
          .ok (.symbol ⟨"yes"⟩) (t.rename r) := by
  intro r s expr
  have hr : IsRenaming r := ⟨Equiv.injective _, fun f ↦ by cases f <;> decide⟩
  have ⟨hbound, hbound', hvalue⟩ : s.value? 2 (.symbol ⟨"#t"⟩) = some (.int 5) ∧
      (s.rename r).value? 2 (.symbol ⟨"yes"⟩) = some (.int 5) ∧
      (Session.perform (Machine.evaluate 20 expr 2) ⟨s, 2, 20⟩).1 = .ok (.symbol ⟨"#t"⟩) := by
    decide +kernel
  obtain ⟨t, ht, -⟩ := Session.perform_eq_ok_iff.1 (Prod.ext_iff.2 ⟨hvalue, rfl⟩)
  refine ⟨hr, hbound, hbound', t, ht, ?_⟩
  have ⟨_, _, hevaluate, _⟩ := names_matter_up_to_renaming hr
  have hrenamed := hevaluate 20 expr 2 s
  rw [show EStateM.run (Machine.evaluate 20 expr 2) s = .ok (.symbol ⟨"#t"⟩) t from ht] at hrenamed
  generalize EStateM.run (Machine.evaluate 20 (expr.rename r) 2) (s.rename r) = o at hrenamed
  cases hrenamed
  rfl

end ReverseLisp
