import Mathlib.Data.Set.Insert
import ReverseLisp.Proofs.Outcome
import ReverseLisp.Repl
import ReverseLisp.Store.Lemmas

/-!
# Growth of environments

A run changes the environments of its store in three ways: a definition binds a name in the
environment that the run is in, an assignment gives a bound name another value, and a call makes an
environment. None of them removes anything. So an environment keeps its enclosure for good, its
names keep their order, and a name can be added only at the end.

`Store.Grows A s t` says that `t` comes from `s` in this way, names being added only to environments
in `A`. A run in `e` grows at most `e`. The body of a closure runs in an environment that the call
has made, which nobody had before, so a call grows none of the environments there were.

## Failing runs

What an action did before it failed stays done, so the statements are about the store that is left
in either case. `Action.GrowsOnly A x` says that whatever store `x` starts from and however it ends,
it grows at most the environments in `A`. Growth is transitive, so an action grows no more than its
steps do, whichever of them is the last.
-/

namespace ReverseLisp

/-! ## One environment -/

namespace Frame

theorem names_set_of_binds {f : Frame} {x : Value} (h : f.binds x = true) (v : Value) :
    (f.set x v).names = f.names := by
  rw [names_set, if_pos ((binds_iff_mem_keys f x).1 h)]

theorem names_prefix_set (f : Frame) (x v : Value) : f.names <+: (f.set x v).names := by
  rw [names_set]
  split
  · exact List.prefix_refl _
  · exact List.prefix_append _ _

end Frame

/-- How an environment may change in time: names are added at the end, and only if `mayGrow`. -/
structure Env.Grows (mayGrow : Prop) (env env' : Env) : Prop where
  enclosure_eq : env'.enclosure = env.enclosure
  names_isPrefix : env.frame.names <+: env'.frame.names
  names_eq : ¬ mayGrow → env'.frame.names = env.frame.names

namespace Env.Grows

variable {p q : Prop} {env env' env'' : Env}

theorem refl (p : Prop) (env : Env) : env.Grows p env :=
  ⟨rfl, List.prefix_refl _, fun _ ↦ rfl⟩

theorem trans (h : env.Grows p env') (h' : env'.Grows p env'') : env.Grows p env'' where
  enclosure_eq := h'.enclosure_eq.trans h.enclosure_eq
  names_isPrefix := h.names_isPrefix.trans h'.names_isPrefix
  names_eq hp := (h'.names_eq hp).trans (h.names_eq hp)

theorem mono (hpq : p → q) (h : env.Grows p env') : env.Grows q env' :=
  ⟨h.enclosure_eq, h.names_isPrefix, fun hq ↦ h.names_eq fun hp ↦ hq (hpq hp)⟩

/-- A name that is bound stays bound. -/
theorem binds {x : Value} (h : env.Grows p env') (hx : env.frame.binds x = true) :
    env'.frame.binds x = true := by
  rw [Frame.binds_iff_mem_keys, Frame.keys] at hx ⊢
  exact (h.names_isPrefix.map Value.key).subset hx

end Env.Grows

/-! ## All environments of a store -/

/-- Every environment is still there, and only those in `A` may have got more names. -/
def Store.Grows {β : Type} (A : Set EnvId) (s t : Store β) : Prop :=
  ∀ e env, s.env? e = some env → ∃ env', t.env? e = some env' ∧ env.Grows (e ∈ A) env'

namespace Store

variable {β : Type} {A B : Set EnvId} {s t u : Store β}

theorem Grows.refl (A : Set EnvId) (s : Store β) : s.Grows A s :=
  fun _ env h ↦ ⟨env, h, .refl _ env⟩

theorem Grows.trans (h : s.Grows A t) (h' : t.Grows A u) : s.Grows A u := by
  intro e env he
  obtain ⟨env', he', hg⟩ := h e env he
  obtain ⟨env'', he'', hg'⟩ := h' e env' he'
  exact ⟨env'', he'', hg.trans hg'⟩

theorem Grows.mono (hAB : A ⊆ B) (h : s.Grows A t) : s.Grows B t := by
  intro e env he
  obtain ⟨env', he', hg⟩ := h e env he
  exact ⟨env', he', hg.mono fun hA ↦ hAB hA⟩

/-- Growth of environments that were not there is no growth of those that were. -/
theorem Grows.of_fresh (hA : ∀ e ∈ A, s.env? e = none) (h : s.Grows A t) : s.Grows ∅ t := by
  intro e env he
  obtain ⟨env', he', hg⟩ := h e env he
  refine ⟨env', he', hg.mono fun heA ↦ ?_⟩
  rw [hA e heA] at he
  cases he

/-- No binding disappears. -/
theorem Grows.binds (h : s.Grows A t) {e : EnvId} {x : Value} (hx : s.binds e x = true) :
    t.binds e x = true := by
  rw [Store.binds, Option.any_eq_true] at hx ⊢
  obtain ⟨env, he, hx⟩ := hx
  obtain ⟨env', he', hg⟩ := h e env he
  exact ⟨env', he', hg.binds hx⟩

theorem grows_of_envs_eq (A : Set EnvId) (h : s.envs = t.envs) : s.Grows A t := by
  intro e env he
  rw [env?_congr h] at he
  exact ⟨env, he, .refl _ env⟩

theorem grows_put (s : Store β) (e : EnvId) (x v : Value) : s.Grows {e} (s.put e x v) := by
  intro e' env he
  rw [env?_put, he]
  split
  · next h =>
    exact ⟨_, rfl, rfl, Frame.names_prefix_set _ x v, fun hne ↦ absurd h hne⟩
  · exact ⟨env, rfl, .refl _ env⟩

/-- A name that is bound already gets its new value in place. -/
theorem grows_put_of_binds {e : EnvId} {x : Value} (hx : s.binds e x = true) (v : Value) :
    s.Grows ∅ (s.put e x v) := by
  intro e' env he
  rw [env?_put, he]
  split
  · next h =>
    subst h
    rw [Store.binds, he] at hx
    have hnames := Frame.names_set_of_binds hx v
    exact ⟨_, rfl, rfl, Frame.names_prefix_set _ x v, fun _ ↦ hnames⟩
  · exact ⟨env, rfl, .refl _ env⟩

theorem grows_pushEnv (s : Store β) (env : Env) : s.Grows ∅ (s.pushEnv env) := by
  intro e env' he
  have hne : e ≠ s.nextEnv := by
    rintro rfl
    rw [env?_nextEnv] at he
    cases he
  rw [env?_pushEnv, if_neg hne]
  exact ⟨env', he, .refl _ env'⟩

end Store

/-! ## Actions -/

/-- However the action ends, it has grown at most the environments in `A`. -/
def Action.GrowsOnly {β α : Type} (A : Set EnvId) (x : Action β α) : Prop :=
  ∀ s : Store β, s.Grows A (Outcome.store (x.run s))

namespace Action.GrowsOnly

variable {β α δ : Type} {A B : Set EnvId}

theorem pure (a : α) : GrowsOnly A (Pure.pure a : Action β α) := fun s ↦ .refl A s

theorem throw (err : Error) : GrowsOnly A (MonadExcept.throw err : Action β α) :=
  fun s ↦ .refl A s

theorem mono {x : Action β α} (hAB : A ⊆ B) (h : GrowsOnly A x) : GrowsOnly B x :=
  fun s ↦ (h s).mono hAB

theorem bind {x : Action β α} {f : α → Action β δ} (hx : GrowsOnly A x)
    (hf : ∀ a, GrowsOnly A (f a)) : GrowsOnly A (x >>= f) := by
  intro s
  have hs := hx s
  rw [EStateM.run_bind]
  cases hr : x.run s with
  | ok a t =>
    rw [hr] at hs
    exact hs.trans (hf a t)
  | error err t =>
    -- nothing runs after a failure, so the store is the one that the first action left
    rw [hr] at hs
    exact hs

theorem composes : Action.Composes fun α (x : Action β α) ↦ GrowsOnly A x := ⟨pure, bind⟩

theorem ofExcept (r : Except Error α) : GrowsOnly A (Action.ofExcept r : Action β α) := by
  cases r with
  | ok a => exact pure a
  | error err => exact throw err

/-! The actions of a store. Only a definition adds a name to a frame that is there. -/

theorem lookup (e : EnvId) (x : Value) : GrowsOnly A (Action.lookup e x : Action β Value) := by
  intro s
  rw [EStateM.run, Action.lookup]
  split
  · exact .refl A s
  · exact .refl A s

theorem define (e : EnvId) (x v : Value) :
    GrowsOnly {e} (Action.define e x v : Action β Value) := by
  intro s
  rw [EStateM.run, Action.define.eq_def]
  split
  · split
    · exact .refl _ s
    · exact s.grows_put e _ v
  · exact .refl _ s

/-- The environment that an assignment changes is one that binds the name. -/
theorem assign (e : EnvId) (x v : Value) :
    GrowsOnly ∅ (Action.assign e x v : Action β Value) := by
  intro s
  rw [EStateM.run, Action.assign]
  split
  · next e' he => exact Store.grows_put_of_binds (Store.binds_of_find? he) v
  · exact .refl _ s

theorem newClosure (params : List Symbol) (code : Code β) :
    GrowsOnly A (Action.newClosure params code) :=
  fun _ ↦ Store.grows_of_envs_eq A rfl

theorem code? (id : Nat) : GrowsOnly A (Action.code? id : Action β (Option (Code β))) :=
  fun s ↦ .refl A s

theorem applyPrimitive (f : Primitive) (args : List Value) :
    GrowsOnly A (Action.applyPrimitive f args : Action β Value) := by
  intro s
  rw [EStateM.run, Action.applyPrimitive]
  split
  · exact Store.grows_of_envs_eq A rfl
  · exact .refl A s

/-- What runs in a new environment grows none of those there were. -/
theorem extend_bind (e : EnvId) (params args : List Value) {f : EnvId → Action β α}
    (hf : ∀ e', GrowsOnly {e'} (f e')) : GrowsOnly ∅ (Action.extend e params args >>= f) := by
  unfold Action.extend
  split
  · split
    · next frame _ =>
      intro s
      have hnew : ∀ e' ∈ ({s.nextEnv} : Set EnvId), s.env? e' = none := by
        intro e' he'
        rw [Set.mem_singleton_iff.1 he', Store.env?_nextEnv]
      refine Store.Grows.of_fresh hnew ?_
      have hpush := (s.grows_pushEnv ⟨frame, e⟩).mono (Set.empty_subset {s.nextEnv})
      exact hpush.trans (hf s.nextEnv _)
    · exact throw _
  · exact throw _

end Action.GrowsOnly

/-! ## Runs -/

namespace Machine

open ReverseLisp.Action (GrowsOnly)

/-- If running a body grows at most the environment that it runs in, a call grows nothing: that
environment is new. -/
theorem applyWith_growsOnly {run : Node → EnvId → Machine Value}
    (h : ∀ node e, GrowsOnly {e} (run node e)) (fn : Value) (args : List Value) :
    GrowsOnly ∅ (applyWith run fn args) := by
  cases fn with
  | closure id params =>
    rw [applyWith]
    split
    · refine (GrowsOnly.code? id).bind fun code ↦ ?_
      cases code with
      | some code => exact .extend_bind _ _ _ fun e ↦ h code.body e
      | none => exact .throw _
    · exact .throw _
  | primitive p => exact .applyPrimitive p args
  | _ => exact .throw _

/-- A run grows at most the environment that it is in. The induction is on the limit, since a call
runs a body that is no part of the node. -/
theorem run_growsOnly (limit : Nat) (node : Node) (e : EnvId) :
    GrowsOnly {e} (run limit node e) := by
  induction limit generalizing node e with
  | zero => exact .throw _
  | succ limit ih =>
    have hnone : (∅ : Set EnvId) ⊆ {e} := Set.empty_subset {e}
    rw [run.eq_def]
    cases node with
    | literal v => exact .pure v
    | lookup x => exact .lookup e _
    | branch test yes no =>
      refine (ih test e).bind fun v ↦ ?_
      split
      · exact ih no e
      · exact ih yes e
    | define x value => exact (ih value e).bind fun v ↦ .define e _ v
    | assign x value => exact (ih value e).bind fun v ↦ (GrowsOnly.assign e _ v).mono hnone
    | function params body source => exact .newClosure params _
    | sequence nodes => exact GrowsOnly.composes.inOrder fun n _ ↦ ih n e
    | application operator operands =>
      refine (ih operator e).bind fun fn ↦ ?_
      refine .bind (GrowsOnly.composes.collect fun n _ ↦ ih n e) fun args ↦ ?_
      exact (applyWith_growsOnly ih fn args).mono hnone

theorem apply_growsOnly (limit : Nat) (fn : Value) (args : List Value) :
    GrowsOnly ∅ (apply limit fn args) :=
  applyWith_growsOnly (run_growsOnly limit) fn args

theorem evaluate_growsOnly (limit : Nat) (expr : Value) (e : EnvId) :
    GrowsOnly {e} (evaluate limit expr e) := by
  refine .bind ?_ fun node ↦ run_growsOnly limit node e
  refine (GrowsOnly.ofExcept expr.analyze).bind fun node ↦ ?_
  split
  · exact .throw _
  · exact .pure node

theorem evaluateText_growsOnly (limit : Nat) (e : EnvId) (program : String) :
    GrowsOnly {e} (evaluateText limit e program) := by
  rw [evaluateText]
  split
  · refine (GrowsOnly.ofExcept _).bind fun exprs ↦ ?_
    exact GrowsOnly.composes.evaluateAll fun expr _ ↦ evaluate_growsOnly limit expr e
  · exact .throw _

theorem load_growsOnly (limit : Nat) (e : EnvId) (programs : List String) :
    GrowsOnly {e} (load limit e programs) :=
  GrowsOnly.composes.load fun program _ ↦ evaluateText_growsOnly limit e program

end Machine

/-! ## Sessions -/

namespace Session

/-- The sessions that evaluating programs leads to, whether they succeed or fail. -/
inductive Reachable : Session → Prop where
  | start (limit : Nat) : Reachable (start limit)
  | evalAll (program : String) {s : Session} (h : Reachable s) : Reachable (s.evalAll program).2
  | load (programs : List String) {s : Session} (h : Reachable s) : Reachable (s.load programs).2

/-- The global environment is enclosed by another one that binds what the base frame binds, in the
same order, and has nothing around it. -/
def HasBase (s : Session) : Prop :=
  ∃ env base, s.store.env? s.env = some env ∧ env.enclosure ≠ s.env ∧
    s.store.env? env.enclosure = some base ∧ base.enclosure = 0 ∧
    base.frame.names = Frame.base.names

theorem hasBase_start (limit : Nat) : (start limit).HasBase :=
  ⟨⟨Frame.empty, 1⟩, ⟨Frame.base, 0⟩, rfl, (by decide : (1 : EnvId) ≠ 2), rfl, rfl, rfl⟩

theorem perform_snd {α : Type} (action : Machine α) (s : Session) :
    (s.perform action).2 = ⟨Outcome.store (EStateM.run action s.store), s.env, s.limit⟩ := by
  rw [perform, EStateM.run]
  cases h : action s.store with
  | ok a t => rfl
  | error err t => rfl

theorem perform_eq_ok_iff {α : Type} {action : Machine α} {s s' : Session} {a : α} :
    s.perform action = (.ok a, s') ↔
      ∃ t, EStateM.run action s.store = .ok a t ∧ s' = ⟨t, s.env, s.limit⟩ := by
  rw [perform, EStateM.run]
  cases action s.store with
  | ok b t => simp [eq_comm]
  | error err t => simp

theorem perform_eq_error_iff {α : Type} {action : Machine α} {s s' : Session} {err : Error} :
    s.perform action = (.error err, s') ↔
      ∃ t, EStateM.run action s.store = .error err t ∧ s' = ⟨t, s.env, s.limit⟩ := by
  rw [perform, EStateM.run]
  cases action s.store with
  | ok b t => simp
  | error err t => simp [eq_comm]

theorem HasBase.perform {α : Type} {action : Machine α} {s : Session}
    (h : Action.GrowsOnly {s.env} action) (hs : s.HasBase) : (s.perform action).2.HasBase := by
  obtain ⟨env, base, henv, hne, hbase, hempty, hnames⟩ := hs
  obtain ⟨env', henv', hg⟩ := h s.store s.env env henv
  obtain ⟨base', hbase', hg'⟩ := h s.store env.enclosure base hbase
  rw [perform_snd]
  refine ⟨env', base', henv', ?_, ?_, hg'.enclosure_eq.trans hempty, ?_⟩
  · rw [hg.enclosure_eq]
    exact hne
  · rw [hg.enclosure_eq]
    exact hbase'
  · exact (hg'.names_eq hne).trans hnames

theorem Reachable.hasBase {s : Session} (h : s.Reachable) : s.HasBase := by
  induction h with
  | start limit => exact hasBase_start limit
  | evalAll program _ ih => exact ih.perform (Machine.evaluateText_growsOnly _ _ program)
  | load programs _ ih => exact ih.perform (Machine.load_growsOnly _ _ programs)

end Session

namespace Repl

theorem respond_reachable {r : Repl} (h : r.session.Reachable) (program : List Char) :
    (r.respond program).2.2.session.Reachable := by
  have hp := h.evalAll (String.ofList program)
  rw [respond.eq_def]
  dsimp only
  generalize r.session.evalAll (String.ofList program) = result at hp
  obtain ⟨values, session⟩ := result
  cases values with
  | ok values =>
    dsimp only
    split
    · exact hp
    · exact hp
  | error err =>
    dsimp only
    split
    · exact hp
    · exact hp

theorem step_reachable {r : Repl} (h : r.session.Reachable) (line : List Char) :
    (r.step line).2.2.session.Reachable := by
  rw [step]
  split
  · exact h
  · exact respond_reachable h _

theorem steps_reachable {r : Repl} (h : r.session.Reachable) (lines : List (List Char)) :
    (r.steps lines).2.2.session.Reachable := by
  induction lines generalizing r with
  | nil => exact h
  | cons line lines ih =>
    have hstep := step_reachable h line
    rw [steps]
    split
    · next heq =>
      rw [heq] at hstep
      exact ih hstep
    · next heq =>
      rw [heq] at hstep
      exact hstep

theorem run_reachable {r : Repl} (h : r.session.Reachable) (input : String) :
    (r.run input).2.2.session.Reachable :=
  steps_reachable h _

end Repl

/-! ## The discipline of growth -/

/-- **Environments only grow, and only where a definition runs.** However it ends, running a node or
evaluating an expression in `e` keeps every enclosure, keeps all names of other environments as they
are, and adds names to `e` only after those that it has. A call adds none to any environment that
was there. No binding disappears, and no session changes which names the base frame binds. -/
theorem evaluation_grows_own_environment (limit : Nat) (s : Store Node) :
    (∀ node e, s.Grows {e} (Outcome.store (EStateM.run (Machine.run limit node e) s))) ∧
    (∀ expr e, s.Grows {e} (Outcome.store (EStateM.run (Machine.evaluate limit expr e) s))) ∧
    (∀ fn args, s.Grows ∅ (Outcome.store (EStateM.run (Machine.apply limit fn args) s))) ∧
    (∀ A t, s.Grows A t → ∀ e x, s.binds e x = true → t.binds e x = true) ∧
    ∀ session : Session, session.Reachable → session.HasBase ∧
      ∀ prompt continuation input,
        ((Repl.ofSession session prompt continuation).run input).2.2.session.HasBase := by
  refine ⟨?_, ?_, ?_, ?_, ?_⟩
  · exact fun node e ↦ Machine.run_growsOnly limit node e s
  · exact fun expr e ↦ Machine.evaluate_growsOnly limit expr e s
  · exact fun fn args ↦ Machine.apply_growsOnly limit fn args s
  · exact fun _ _ h _ _ hx ↦ h.binds hx
  · intro session h
    exact ⟨h.hasBase, fun _ _ input ↦ (Repl.run_reachable h input).hasBase⟩

/-- A program that defines a function, calls it, and then fails. The function defines a name in its
own environment and assigns a primitive's name, so the global environment gets the name of the
function only, and the base frame another value under a name that it had. -/
theorem evaluation_grows_own_environment_failing :
    let program := "(def f (fun (x) (def y x) (set! car y))) (f 1) (cdr 2)"
    let s := (Session.start 20).evalAll program
    s.1.isOk = false ∧ s.2.frame.names = [.symbol ⟨"f"⟩] ∧
      s.2.store.value? s.2.env (.symbol ⟨"car"⟩) = some (.int 1) ∧ s.2.HasBase := by
  intro program s
  have hs : s.2.Reachable := (Session.Reachable.start 20).evalAll program
  obtain ⟨-, -, -, -, hbase⟩ := evaluation_grows_own_environment 20 s.2.store
  have hrun : s.1.isOk = false ∧ s.2.frame.names = [.symbol ⟨"f"⟩] ∧
      s.2.store.value? s.2.env (.symbol ⟨"car"⟩) = some (.int 1) := by decide +kernel
  exact ⟨hrun.1, hrun.2.1, hrun.2.2, (hbase s.2 hs).1⟩

end ReverseLisp
