import ReverseLisp.Proofs.Direct
import ReverseLisp.Proofs.Growth
import ReverseLisp.Proofs.Link
import ReverseLisp.Proofs.StaticErrors

/-!
# Regular stores

What can be said of the values, nodes, frames and closures of a program one at a time, without
asking where references lead. A value is *regular* if nothing in it is foreign and no closure in it
has a parameter twice. A node is regular if its literals are, and if every function in it has
distinct parameters and for its body the analysis of its source. A store is regular if every frame
binds distinct symbols to regular values, and every closure has a regular body, made from its
source, and an environment to extend.

Evaluation keeps stores regular and gives regular values, however it ends. Since nothing here
depends on what else the store holds, what was regular stays so when the store changes, and each
action has to answer only for what it puts in.
-/

namespace ReverseLisp

/-! ## Values -/

namespace Value

/-- Whether an atom is one that a program can make. -/
def isRegularAtom : Value → Bool
  | foreign _ => false
  | closure _ params => params.Nodup
  | _ => true

/-- Nothing in the value is foreign, and no closure in it has a parameter twice. -/
def Regular (v : Value) : Prop := ∀ a ∈ v.atoms, a.isRegularAtom = true

theorem regular_list {vs : List Value} : (list vs).Regular ↔ ∀ v ∈ vs, v.Regular := by
  constructor
  · exact fun h v hv a ha ↦ h a (mem_atoms_list.2 ⟨v, hv, ha⟩)
  · intro h a ha
    obtain ⟨v, hv, ha⟩ := mem_atoms_list.1 ha
    exact h v hv a ha

theorem regular_bool (b : Bool) : (bool b).Regular := by
  intro a ha
  rw [List.mem_singleton.1 ha]
  rfl

theorem regular_closure {id : Nat} {params : List Symbol} (h : params.Nodup) :
    (closure id params).Regular := by
  intro a ha
  rw [List.mem_singleton.1 ha]
  exact decide_eq_true h

theorem regular_ofNumber (mark : Nat) (n : Number) : (ofNumber mark n).Regular := by
  intro a ha
  match n with
  | .int _ | .binary _ | .nan =>
    rw [List.mem_singleton.1 ha]
    rfl

theorem Regular.item {v w : Value} (h : v.Regular) (hw : w ∈ v.items) : w.Regular := by
  match v with
  | list vs => exact regular_list.1 h w hw

end Value

/-- What is read is regular. -/
theorem regular_of_read {program : String} {exprs : List Value} (h : read program = .ok exprs)
    {expr : Value} (hexpr : expr ∈ exprs) : expr.Regular :=
  forall_atoms_of_read (fun _ ↦ rfl) (fun _ ↦ rfl) (fun _ ↦ rfl) h hexpr

/-! ## Primitives -/

namespace Primitive

variable {args : List Value}

/-- Primitives that take any number of arguments compute new values, or make a list. -/
theorem regular_apply_of_arity?_eq_none {p : Primitive} (hp : p.arity? = none) {mark : Nat}
    {v : Value} (hv : p.apply mark args = .ok v) (hargs : ∀ v ∈ args, v.Regular) : v.Regular := by
  match p with
  | add | sub | mul | div =>
    obtain ⟨ns, -, hv⟩ := Except.bind_eq_ok_iff.1 hv
    obtain ⟨n, -, hv⟩ := Except.bind_eq_ok_iff.1 hv
    cases hv
    exact Value.regular_ofNumber mark n
  | less | greater =>
    obtain ⟨ns, -, hv⟩ := Except.bind_eq_ok_iff.1 hv
    cases hv
    exact Value.regular_bool _
  | equal =>
    cases hv
    exact Value.regular_bool _
  | list =>
    cases hv
    exact Value.regular_list.2 hargs

/-- The others test a list, take one apart or put one together. -/
theorem regular_apply_of_arity?_eq_some {p : Primitive} {k : Nat} (hp : p.arity? = some k)
    {mark : Nat} {v : Value} (hv : p.apply mark args = .ok v) (hargs : ∀ v ∈ args, v.Regular) :
    v.Regular := by
  have hlength : args.length = k := by
    by_contra hne
    rw [apply_of_length_ne hp hne] at hv
    cases hv
  match p with
  | isNull =>
    cases hp
    obtain ⟨w, rfl⟩ := List.length_eq_one_iff.1 hlength
    match w with
    | .list [] | .list (_ :: _) | .int _ | .binary _ | .nan _ | .bool _ | .symbol _ | .closure _ _
    | .primitive _ | .foreign _ =>
      cases hv
      exact Value.regular_bool _
  | car =>
    cases hp
    obtain ⟨w, rfl⟩ := List.length_eq_one_iff.1 hlength
    match w with
    | .list (u :: us) =>
      cases hv
      exact (hargs _ List.mem_cons_self).item List.mem_cons_self
  | cdr =>
    cases hp
    obtain ⟨w, rfl⟩ := List.length_eq_one_iff.1 hlength
    match w with
    | .list (u :: us) =>
      cases hv
      refine Value.regular_list.2 fun w hw ↦ ?_
      exact (hargs _ List.mem_cons_self).item (List.mem_cons_of_mem _ hw)
  | cons =>
    cases hp
    obtain ⟨u, w, rfl⟩ := List.length_eq_two.1 hlength
    match w with
    | .list us =>
      cases hv
      have ⟨hu, hus⟩ := List.forall_mem_cons.1 hargs
      refine Value.regular_list.2 (List.forall_mem_cons.2 ⟨hu, fun w hw ↦ ?_⟩)
      exact (hus _ List.mem_cons_self).item hw

/-- Primitives give regular values for regular arguments. -/
theorem regular_apply {p : Primitive} {mark : Nat} {v : Value} (hv : p.apply mark args = .ok v)
    (hargs : ∀ v ∈ args, v.Regular) : v.Regular := by
  rcases hp : p.arity? with _ | k
  · exact regular_apply_of_arity?_eq_none hp hv hargs
  · exact regular_apply_of_arity?_eq_some hp hv hargs

end Primitive

/-! ## Nodes -/

/-- The literals of the node are regular, and every function in it has distinct parameters and the
analysis of its source for its body. -/
inductive Node.Regular : Node → Prop where
  | literal {v : Value} (h : v.Regular) : Regular (.literal v)
  | lookup (x : Symbol) : Regular (.lookup x)
  | branch {t y n : Node} (ht : t.Regular) (hy : y.Regular) (hn : n.Regular) :
    Regular (.branch t y n)
  | define (x : Symbol) {n : Node} (h : n.Regular) : Regular (.define x n)
  | assign (x : Symbol) {n : Node} (h : n.Regular) : Regular (.assign x n)
  | function {params : List Symbol} {source : List Value} {ns : List Node} (distinct : params.Nodup)
      (hns : Value.analyzeEach source = .ok ns) (h : (Node.ofList ns).Regular) :
    Regular (.function params (.ofList ns) source)
  | sequence {ns : List Node} (h : ∀ n ∈ ns, n.Regular) : Regular (.sequence ns)
  | application {n : Node} {ns : List Node} (h : n.Regular) (hs : ∀ m ∈ ns, m.Regular) :
    Regular (.application n ns)

namespace Node

theorem regular_bool (b : Bool) : (literal (.bool b)).Regular := .literal (Value.regular_bool b)

theorem regular_ofList {ns : List Node} (h : ∀ n ∈ ns, n.Regular) : (ofList ns).Regular := by
  match ns with
  | [] => exact .literal (Value.regular_list.2 fun v hv ↦ nomatch hv)
  | [n] => exact h n List.mem_cons_self
  | _ :: _ :: _ => exact .sequence h

theorem regular_foldr {f : Node → Node → Node} {z : Node}
    (hf : ∀ n m : Node, n.Regular → m.Regular → (f n m).Regular) (hz : z.Regular) {ns : List Node}
    (hns : ∀ n ∈ ns, n.Regular) : (ns.foldr f z).Regular := by
  induction ns with
  | nil => exact hz
  | cons n ns ih =>
    have ⟨hn, hns⟩ := List.forall_mem_cons.1 hns
    exact hf n _ hn (ih hns)

end Node

namespace Analysis

/-- A regular expression has a regular node. -/
theorem regular_of_analyze {expr : Value} {node : Node} (h : expr.analyze = .ok node)
    (hexpr : expr.Regular) : node.Regular := by
  induction expr using Value.induction_items generalizing node with
  | step expr ih =>
    have hitem : ∀ v ∈ expr.items, ∀ n, v.analyze = .ok n → n.Regular :=
      fun v hv n hn ↦ ih v hv hn (hexpr.item hv)
    have hitems : ∀ vs ns, (∀ v ∈ vs, v ∈ expr.items) → Value.analyzeEach vs = .ok ns →
        ∀ n ∈ ns, n.Regular := by
      intro vs ns hvs hns n hn
      obtain ⟨v, hv, hvn⟩ := exists_of_mem_analyzeEach hns hn
      exact hitem v (hvs v hv) n hvn
    rcases of_analyze h with hself | x | _ | v | ⟨ht, hy⟩ | ⟨ht, hy, hn⟩ | hs | hs | ⟨x, hn⟩ |
      ⟨x, hn⟩ | ⟨hx, hs⟩ | hs | @⟨v, n, hn⟩ | ⟨word, hn, hs⟩
    · exact .literal hexpr
    · exact .lookup x
    · exact .literal hexpr
    · exact .literal (hexpr.item (by simp))
    · exact .branch (hitem _ (by simp) _ ht) (hitem _ (by simp) _ hy) (Node.regular_bool false)
    · exact .branch (hitem _ (by simp) _ ht) (hitem _ (by simp) _ hy) (hitem _ (by simp) _ hn)
    · rw [analyzeAnd_eq_map] at hs
      obtain ⟨ns, hns, rfl⟩ := Except.map_eq_ok_iff.1 hs
      refine Node.regular_foldr (fun n m hn hm ↦ ?_) (Node.regular_bool true)
        (hitems _ ns (fun v hv ↦ List.mem_cons_of_mem _ hv) hns)
      exact .branch hn hm (Node.regular_bool false)
    · rw [analyzeOr_eq_map] at hs
      obtain ⟨ns, hns, rfl⟩ := Except.map_eq_ok_iff.1 hs
      refine Node.regular_foldr (fun n m hn hm ↦ ?_) (Node.regular_bool false)
        (hitems _ ns (fun v hv ↦ List.mem_cons_of_mem _ hv) hns)
      exact .branch hn (Node.regular_bool true) hm
    · exact .define x (hitem _ (by simp) _ hn)
    · exact .assign x (hitem _ (by simp) _ hn)
    · refine .function (Value.parameters_eq_ok_iff.1 hx).1 hs (Node.regular_ofList ?_)
      exact hitems _ _ (fun v hv ↦ List.mem_cons_of_mem _ (List.mem_cons_of_mem _ hv)) hs
    · exact Node.regular_ofList (hitems _ _ (fun v hv ↦ List.mem_cons_of_mem _ hv) hs)
    · have hns : Value.analyzeEach [v] = .ok [n] := by
        rw [Value.analyzeEach, hn]
        rfl
      exact .function List.nodup_nil hns (hitem v (by simp) n hn)
    · exact .application (hitem _ List.mem_cons_self _ hn)
        (hitems _ _ (fun v hv ↦ List.mem_cons_of_mem _ hv) hs)

end Analysis

/-! ## Stores -/

/-- A symbol and a regular value. -/
def IsRegularBinding (b : Value × Value) : Prop := (∃ x, b.1 = .symbol x) ∧ b.2.Regular

/-- The frame binds distinct symbols to regular values. -/
structure Frame.Regular (f : Frame) : Prop where
  nodup : f.keys.Nodup
  binding : ∀ b ∈ f.bindings, IsRegularBinding b

/-- The closure has an environment to extend, and the analysis of its source for its body. -/
structure Code.Regular (c : Code Node) : Prop where
  env : c.env ≠ 0
  source : c.IsAnalysis
  body : c.body.Regular

/-- Every frame and every closure of the store is regular. -/
structure Store.Regular (s : Store Node) : Prop where
  frame : ∀ e env, s.env? e = some env → env.frame.Regular
  code : ∀ (id : Nat) c, s.codes[id]? = some c → c.Regular

namespace Frame

theorem regular_empty : empty.Regular := ⟨List.nodup_nil, fun _ hb ↦ nomatch hb⟩

/-- The old form of a name is kept, so a binding that is changed keeps its symbol. -/
theorem isRegularBinding_of_mem_setBinding {x : Symbol} {v : Value} (hv : v.Regular)
    {bs : List (Value × Value)} (hbs : ∀ b ∈ bs, IsRegularBinding b) :
    ∀ b ∈ setBinding (.symbol x) v bs, IsRegularBinding b := by
  induction bs with
  | nil =>
    intro b hb
    rw [List.mem_singleton.1 hb]
    exact ⟨⟨x, rfl⟩, hv⟩
  | cons b bs ih =>
    have ⟨hb, hbs⟩ := List.forall_mem_cons.1 hbs
    rw [setBinding]
    split
    · exact List.forall_mem_cons.2 ⟨⟨hb.1, hv⟩, hbs⟩
    · exact List.forall_mem_cons.2 ⟨hb, ih hbs⟩

theorem Regular.set {f : Frame} (h : f.Regular) (x : Symbol) {v : Value} (hv : v.Regular) :
    (f.set (.symbol x) v).Regular :=
  ⟨nodup_keys_set h.nodup _ v, isRegularBinding_of_mem_setBinding hv h.binding⟩

theorem regular_ofPairs {ps : List (Value × Value)} (h : ∀ p ∈ ps, IsRegularBinding p) :
    (ofPairs ps).Regular := by
  have hfold : ∀ f : Frame, f.Regular → (ps.foldl (fun f p ↦ f.set p.1 p.2) f).Regular := by
    induction ps with
    | nil => exact fun f hf ↦ hf
    | cons p ps ih =>
      intro f hf
      obtain ⟨⟨⟨x, hx⟩, hv⟩, hps⟩ := List.forall_mem_cons.1 h
      refine ih hps _ ?_
      show (f.set p.1 p.2).Regular
      rw [hx]
      exact hf.set x hv
  exact hfold empty regular_empty

theorem regular_base : base.Regular := by
  refine regular_ofPairs fun p hp ↦ ?_
  rcases List.mem_append.1 hp with hp | hp
  · obtain ⟨f, -, rfl⟩ := List.mem_map.1 hp
    refine ⟨⟨f.symbol, rfl⟩, fun a ha ↦ ?_⟩
    rw [List.mem_singleton.1 ha]
    rfl
  · simp only [List.mem_cons, List.not_mem_nil, or_false] at hp
    rcases hp with rfl | rfl | rfl
    · exact ⟨⟨_, rfl⟩, Value.regular_bool true⟩
    · exact ⟨⟨_, rfl⟩, Value.regular_bool false⟩
    · exact ⟨⟨_, rfl⟩, Value.regular_list.2 fun v hv ↦ nomatch hv⟩

/-- The frame of a call is regular if the arguments are. -/
theorem regular_parameters (params : List Symbol) {args : List Value}
    (h : ∀ v ∈ args, v.Regular) : (ofPairs ((params.map .symbol).zip args)).Regular := by
  refine regular_ofPairs fun p hp ↦ ?_
  obtain ⟨hname, hvalue⟩ := List.of_mem_zip hp
  obtain ⟨x, -, hx⟩ := List.mem_map.1 hname
  exact ⟨⟨x, hx.symm⟩, h _ hvalue⟩

end Frame

namespace Store

variable {s : Store Node}

theorem regular_empty : (empty : Store Node).Regular where
  frame e env h := by
    match e with
    | 0 => cases h
    | _ + 1 => cases h
  code id c h := by cases h

theorem Regular.value? (hs : s.Regular) {e : EnvId} {x v : Value} (h : s.value? e x = some v) :
    v.Regular := by
  obtain ⟨e', -, h⟩ := Option.bind_eq_some_iff.1 h
  obtain ⟨env, henv, h⟩ := Option.bind_eq_some_iff.1 h
  obtain ⟨b, hb, rfl⟩ := Option.map_eq_some_iff.1 h
  exact ((hs.frame e' env henv).binding b (List.mem_of_find?_eq_some hb)).2

theorem Regular.put (hs : s.Regular) (e : EnvId) (x : Symbol) {v : Value} (hv : v.Regular) :
    (s.put e (.symbol x) v).Regular where
  frame e' env henv := by
    rw [env?_put] at henv
    by_cases he : e' = e
    · rw [if_pos he] at henv
      obtain ⟨env', henv', rfl⟩ := Option.map_eq_some_iff.1 henv
      exact (hs.frame e' env' henv').set x hv
    · rw [if_neg he] at henv
      exact hs.frame e' env henv
  code id c hc := by
    rw [codes_put] at hc
    exact hs.code id c hc

theorem Regular.pushEnv (hs : s.Regular) {frame : Frame} (hf : frame.Regular) (e : EnvId) :
    (s.pushEnv ⟨frame, e⟩).Regular where
  frame e' env henv := by
    rw [env?_pushEnv] at henv
    by_cases he : e' = s.nextEnv
    · rw [if_pos he] at henv
      cases henv
      exact hf
    · rw [if_neg he] at henv
      exact hs.frame e' env henv
  code := hs.code

theorem Regular.pushCode (hs : s.Regular) {c : Code Node} (hc : c.Regular) :
    ({ s with codes := s.codes.push c } : Store Node).Regular where
  frame := hs.frame
  code id d hd := by
    rw [Array.getElem?_push] at hd
    split at hd
    · cases hd
      exact hc
    · exact hs.code id d hd

end Store

/-! ## Actions -/

variable {α δ : Type}

/-- The store is regular, and a result has a property. -/
def Outcome.Regular (P : α → Prop) : Outcome Node α → Prop
  | .ok a s => P a ∧ s.Regular
  | .error _ s => s.Regular

theorem Outcome.Regular.store {P : α → Prop} {r : Outcome Node α} (h : Regular P r) :
    (Outcome.store r).Regular := by
  rcases r with ⟨a, s⟩ | ⟨err, s⟩
  · exact h.2
  · exact h

/-- From a regular store the action comes to a regular one, however it ends, and a result has a
property. -/
def Action.KeepsRegular (P : α → Prop) (x : Action Node α) : Prop :=
  ∀ s, s.Regular → Outcome.Regular P (x.run s)

namespace Action.KeepsRegular

variable {P : α → Prop} {Q : δ → Prop}

theorem pure {a : α} (h : P a) : KeepsRegular P (Pure.pure a) := fun _ hs ↦ ⟨h, hs⟩

theorem throw (err : Error) : KeepsRegular P (MonadExcept.throw err) := fun _ hs ↦ hs

theorem bind {x : Action Node α} {f : α → Action Node δ} (hx : KeepsRegular P x)
    (hf : ∀ a, P a → KeepsRegular Q (f a)) : KeepsRegular Q (x >>= f) := by
  intro s hs
  have hxs := hx s hs
  rw [EStateM.run_bind]
  generalize x.run s = o at hxs
  rcases o with ⟨a, t⟩ | ⟨err, t⟩
  · exact hf a hxs.1 t hxs.2
  · exact hxs

theorem ofExcept {x : Except Error α} (h : ∀ a, x = .ok a → P a) :
    KeepsRegular P (Action.ofExcept x) := by
  rcases x with err | a
  · exact throw err
  · exact pure (h a rfl)

/-! The actions of a store. -/

theorem lookup (e : EnvId) (x : Value) : KeepsRegular Value.Regular (Action.lookup e x) := by
  intro s hs
  rw [EStateM.run, Action.lookup]
  rcases hv : s.value? e x with _ | v
  · exact hs
  · exact ⟨hs.value? hv, hs⟩

theorem define (e : EnvId) (x : Symbol) {v : Value} (hv : v.Regular) :
    KeepsRegular Value.Regular (Action.define e (.symbol x) v) := by
  intro s hs
  rw [EStateM.run, Action.define]
  by_cases he : e = 0
  · rw [if_pos he]
    exact hs
  · rw [if_neg he]
    exact ⟨hv, hs.put e x hv⟩

theorem assign (e : EnvId) (x : Symbol) {v : Value} (hv : v.Regular) :
    KeepsRegular Value.Regular (Action.assign e (.symbol x) v) := by
  intro s hs
  rw [EStateM.run, Action.assign]
  rcases s.find? e (.symbol x) with _ | a
  · exact hs
  · exact ⟨hv, hs.put a x hv⟩

/-- A new environment is never the empty one. -/
theorem newEnv {frame : Frame} (hf : frame.Regular) (e : EnvId) :
    KeepsRegular (· ≠ 0) (Action.newEnv frame e) :=
  fun _ hs ↦ ⟨Nat.succ_ne_zero _, hs.pushEnv hf e⟩

theorem extend (e : EnvId) (params : List Symbol) {args : List Value}
    (hargs : ∀ v ∈ args, v.Regular) :
    KeepsRegular (· ≠ 0) (Action.extend e (params.map .symbol) args) := by
  rw [Action.extend, Frame.ofPairs?_symbols]
  split
  · exact newEnv (Frame.regular_parameters params hargs) e
  · exact throw _

theorem newClosure {params : List Symbol} (hparams : params.Nodup) {c : Code Node}
    (hc : c.Regular) : KeepsRegular Value.Regular (Action.newClosure params c) :=
  fun _ hs ↦ ⟨Value.regular_closure hparams, hs.pushCode hc⟩

theorem code? (id : Nat) :
    KeepsRegular (fun code ↦ ∀ c, code = some c → c.Regular) (Action.code? id) :=
  fun _ hs ↦ ⟨hs.code id, hs⟩

theorem applyPrimitive (p : Primitive) {args : List Value} (hargs : ∀ v ∈ args, v.Regular) :
    KeepsRegular Value.Regular (Action.applyPrimitive p args) := by
  intro s hs
  rw [EStateM.run, Action.applyPrimitive]
  rcases hv : p.apply s.marks args with err | v
  · exact hs
  · exact ⟨Primitive.regular_apply hv hargs, ⟨hs.frame, hs.code⟩⟩

end Action.KeepsRegular

/-! ## Runs -/

namespace Machine

open ReverseLisp.Action (KeepsRegular)

theorem collect_keepsRegular {run : Node → Machine Value}
    (h : ∀ n : Node, n.Regular → KeepsRegular Value.Regular (run n)) {ns : List Node}
    (hns : ∀ n ∈ ns, n.Regular) :
    KeepsRegular (fun vs ↦ ∀ v ∈ vs, v.Regular) (collect run ns) := by
  induction ns with
  | nil => exact .pure fun v hv ↦ nomatch hv
  | cons n ns ih =>
    have ⟨hn, hns⟩ := List.forall_mem_cons.1 hns
    refine (h n hn).bind fun v hv ↦ (ih hns).bind fun vs hvs ↦ ?_
    exact .pure (List.forall_mem_cons.2 ⟨hv, hvs⟩)

theorem inOrder_keepsRegular {run : Node → Machine Value}
    (h : ∀ n : Node, n.Regular → KeepsRegular Value.Regular (run n)) {ns : List Node}
    (hns : ∀ n ∈ ns, n.Regular) : KeepsRegular Value.Regular (inOrder run ns) := by
  induction ns with
  | nil => exact .pure (Value.regular_list.2 fun v hv ↦ nomatch hv)
  | cons n ns ih =>
    have ⟨hn, hns⟩ := List.forall_mem_cons.1 hns
    match ns with
    | [] => exact h n hn
    | _ :: _ => exact (h n hn).bind fun _ _ ↦ ih hns

theorem applyWith_keepsRegular {run : Node → EnvId → Machine Value}
    (h : ∀ n e, n.Regular → e ≠ 0 → KeepsRegular Value.Regular (run n e)) (fn : Value)
    {args : List Value} (hargs : ∀ v ∈ args, v.Regular) :
    KeepsRegular Value.Regular (applyWith run fn args) := by
  cases fn with
  | closure id params =>
    rw [applyWith]
    split
    · refine (KeepsRegular.code? id).bind fun code hcode ↦ ?_
      rcases code with _ | c
      · exact .throw _
      · have hc := hcode c rfl
        exact (KeepsRegular.extend c.env params hargs).bind fun e he ↦ h c.body e hc.body he
    · exact .throw _
  | primitive p => exact .applyPrimitive p hargs
  | _ => exact .throw _

/-- Running a regular node in an environment that has a frame gives a regular value. -/
theorem run_keepsRegular (limit : Nat) {n : Node} (hn : n.Regular) {e : EnvId} (he : e ≠ 0) :
    KeepsRegular Value.Regular (run limit n e) := by
  induction limit generalizing n e with
  | zero => exact .throw _
  | succ limit ih =>
    rw [run.eq_def]
    rcases hn with hv | x | ⟨ht, hy, hn⟩ | ⟨x, hn⟩ | ⟨x, hn⟩ | ⟨hparams, hns, hbody⟩ | hns |
      ⟨hn, hns⟩
    · exact .pure hv
    · exact .lookup e _
    · refine (ih ht he).bind fun v _ ↦ ?_
      split
      · exact ih hn he
      · exact ih hy he
    · exact (ih hn he).bind fun v hv ↦ .define e x hv
    · exact (ih hn he).bind fun v hv ↦ .assign e x hv
    · exact .newClosure hparams ⟨he, ⟨_, hns, rfl⟩, hbody⟩
    · exact inOrder_keepsRegular (fun n hn ↦ ih hn he) hns
    · refine (ih hn he).bind fun fn _ ↦ ?_
      refine (collect_keepsRegular (fun n hn ↦ ih hn he) hns).bind fun args hargs ↦ ?_
      exact applyWith_keepsRegular (fun n e hn he ↦ ih hn he) fn hargs

theorem evaluate_keepsRegular (limit : Nat) {expr : Value} (hexpr : expr.Regular) {e : EnvId}
    (he : e ≠ 0) : KeepsRegular Value.Regular (evaluate limit expr e) := by
  have hnode : KeepsRegular Node.Regular (analyze limit expr) := by
    refine (KeepsRegular.ofExcept fun n hn ↦ Analysis.regular_of_analyze hn hexpr).bind ?_
    intro n hn
    split
    · exact .throw _
    · exact .pure hn
  exact hnode.bind fun n hn ↦ run_keepsRegular limit hn he

theorem evaluateAll_keepsRegular (limit : Nat) {e : EnvId} (he : e ≠ 0) {exprs : List Value}
    (hexprs : ∀ expr ∈ exprs, expr.Regular) :
    KeepsRegular (fun vs ↦ ∀ v ∈ vs, v.Regular) (evaluateAll limit e exprs) := by
  induction exprs with
  | nil => exact .pure fun v hv ↦ nomatch hv
  | cons expr exprs ih =>
    have ⟨hexpr, hexprs⟩ := List.forall_mem_cons.1 hexprs
    refine (evaluate_keepsRegular limit hexpr he).bind fun v hv ↦ (ih hexprs).bind fun vs hvs ↦ ?_
    exact .pure (List.forall_mem_cons.2 ⟨hv, hvs⟩)

theorem evaluateText_keepsRegular (limit : Nat) {e : EnvId} (he : e ≠ 0) (program : String) :
    KeepsRegular (fun vs ↦ ∀ v ∈ vs, v.Regular) (evaluateText limit e program) := by
  rw [evaluateText]
  split
  · have hread : ∀ exprs, read program = .ok exprs → ∀ expr ∈ exprs, expr.Regular :=
      fun _ h _ hexpr ↦ regular_of_read h hexpr
    exact (KeepsRegular.ofExcept hread).bind fun exprs hexprs ↦
      evaluateAll_keepsRegular limit he hexprs
  · exact .throw _

theorem load_keepsRegular (limit : Nat) {e : EnvId} (he : e ≠ 0) (programs : List String) :
    KeepsRegular (fun _ ↦ True) (load limit e programs) := by
  induction programs with
  | nil => exact .pure trivial
  | cons program programs ih => exact (evaluateText_keepsRegular limit he program).bind fun _ _ ↦ ih

end Machine

/-! ## Sessions -/

/-- The stores of sessions are regular. -/
theorem Session.Reachable.regular {s : Session} (h : s.Reachable) : s.store.Regular := by
  induction h with
  | start limit =>
    have hbase : Action.KeepsRegular (· ≠ 0) Action.newGlobal :=
      (Action.KeepsRegular.newEnv Frame.regular_base 0).bind fun e _ ↦
        .newEnv Frame.regular_empty e
    exact (hbase Store.empty Store.regular_empty).store
  | evalAll program hs ih =>
    rw [Session.evalAll, perform_snd]
    exact (Machine.evaluateText_keepsRegular _ hs.env_ne_zero program _ ih).store
  | load programs hs ih =>
    rw [Session.load, perform_snd]
    exact (Machine.load_keepsRegular _ hs.env_ne_zero programs _ ih).store

end ReverseLisp
