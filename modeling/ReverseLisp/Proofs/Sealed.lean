import ReverseLisp.Proofs.Bindings
import ReverseLisp.Proofs.Limits

/-!
# Sealed environments

A definition writes to the environment that it runs in, and an assignment to one that is met when
walking outward from there. So an environment `b` is written only by what runs in `b` or within it.
Whoever holds no reference to `b` can still get there, by calling a closure that was made within
it, but then runs the body of that closure and nothing else.

`b` is *sealed* if the closures made within it neither define nor assign, and make only closures of
which the same is true. A run that starts elsewhere never writes to a sealed environment, and leaves
it sealed: what it makes within `b` comes from the bodies that are known. Hence a closure with a
sealed environment goes on doing what it did, whatever programs run in between.

## The empty environment

Nothing is within the empty environment, so it is sealed in every store whose references lead to
what has been made. What is kept in this case is the part that does not depend on `b`: enclosures,
the code of closures, and the order of making.
-/

namespace ReverseLisp

/-! ## Nodes that do not write -/

namespace Node

mutual

/-- Neither the node nor the body of a function in it defines or assigns. -/
def isQuiet : Node → Bool
  | literal _ | lookup _ => true
  | branch test yes no => test.isQuiet && yes.isQuiet && no.isQuiet
  | define _ _ | assign _ _ => false
  | function _ body _ => body.isQuiet
  | sequence nodes => areQuiet nodes
  | application operator operands => operator.isQuiet && areQuiet operands

/-- No node of a list defines or assigns. -/
def areQuiet : List Node → Bool
  | [] => true
  | n :: ns => n.isQuiet && areQuiet ns

end

theorem areQuiet_iff {ns : List Node} : areQuiet ns = true ↔ ∀ n ∈ ns, n.isQuiet = true := by
  induction ns with
  | nil => simp [areQuiet]
  | cons n ns ih => rw [areQuiet, Bool.and_eq_true, ih, List.forall_mem_cons]

end Node

/-! ## Chains -/

namespace Store

variable {s t : Store Node} {a b e : EnvId} {env : Env}

/-- Walking outward leads to smaller numbers. -/
theorem Ordered.le_of_mem_chain (hs : s.Ordered) (h : a ∈ s.chain e) : a ≤ e := by
  induction e using Nat.strongRecOn with
  | _ e ih =>
    rcases henv : s.env? e with _ | env
    · rw [chain_of_env?_eq_none henv] at h
      exact absurd h List.not_mem_nil
    · rw [hs.chain_eq henv] at h
      rcases List.mem_cons.1 h with rfl | h
      · exact Nat.le_refl a
      · have hlt := hs e env henv
        exact Nat.le_trans (ih env.enclosure hlt h) (Nat.le_of_lt hlt)

/-- The empty environment is on no chain. -/
theorem Ordered.zero_notMem_chain (hs : s.Ordered) (e : EnvId) : 0 ∉ s.chain e := by
  induction e using Nat.strongRecOn with
  | _ e ih =>
    rcases henv : s.env? e with _ | env
    · rw [chain_of_env?_eq_none henv]
      exact List.not_mem_nil
    · rw [hs.chain_eq henv, List.mem_cons]
      rintro (rfl | h)
      · rw [env?_zero] at henv
        exact nomatch henv
      · exact ih env.enclosure (hs e env henv) h

/-- A new environment is on no chain of those that were there. -/
theorem Ordered.chain_pushEnv (hs : s.Ordered) (hn : env.enclosure < s.nextEnv)
    (ha : a < s.nextEnv) : (s.pushEnv env).chain a = s.chain a := by
  induction a using Nat.strongRecOn with
  | _ a ih =>
    have hpush : (s.pushEnv env).env? a = s.env? a := by
      rw [env?_pushEnv, if_neg (Nat.ne_of_lt ha)]
    rcases henv : s.env? a with _ | env'
    · rw [chain_of_env?_eq_none henv, chain_of_env?_eq_none (hpush.trans henv)]
    · have hlt := hs a env' henv
      rw [(hs.pushEnv hn).chain_eq (hpush.trans henv), hs.chain_eq henv,
        ih _ hlt (Nat.lt_trans hlt ha)]

theorem Ordered.chain_pushEnv_nextEnv (hs : s.Ordered) (hn : env.enclosure < s.nextEnv) :
    (s.pushEnv env).chain s.nextEnv = s.nextEnv :: s.chain env.enclosure := by
  have hpush : (s.pushEnv env).env? s.nextEnv = some env := by rw [env?_pushEnv, if_pos rfl]
  rw [(hs.pushEnv hn).chain_eq hpush, hs.chain_pushEnv hn hn]

/-! ## Sealed environments of a store -/

/-- The closures made within `b` do not write. Enclosures come first, and every closure has an
environment. -/
structure Sealed (b : EnvId) (s : Store Node) : Prop where
  ordered : s.Ordered
  made : b < s.nextEnv
  code_env : ∀ (id : Nat) c, s.codes[id]? = some c → c.env < s.nextEnv
  quiet : ∀ (id : Nat) c, s.codes[id]? = some c → b ∈ s.chain c.env → c.body.isQuiet = true

/-- What a run leaves as it was if it starts outside of the sealed environment `b`. -/
structure KeepsSealed (b : EnvId) (s t : Store Node) : Prop where
  again : t.Sealed b
  env : t.env? b = s.env? b
  nextEnv_le : s.nextEnv ≤ t.nextEnv
  chain : ∀ a < s.nextEnv, t.chain a = s.chain a
  code : ∀ (id : Nat) c, s.codes[id]? = some c → t.codes[id]? = some c

theorem Sealed.refl (hs : s.Sealed b) : s.KeepsSealed b s :=
  ⟨hs, rfl, Nat.le_refl _, fun _ _ ↦ rfl, fun _ _ h ↦ h⟩

theorem KeepsSealed.trans {u : Store Node} (h : s.KeepsSealed b t) (h' : t.KeepsSealed b u) :
    s.KeepsSealed b u where
  again := h'.again
  env := h'.env.trans h.env
  nextEnv_le := Nat.le_trans h.nextEnv_le h'.nextEnv_le
  chain a ha := (h'.chain a (Nat.lt_of_lt_of_le ha h.nextEnv_le)).trans (h.chain a ha)
  code id c hc := h'.code id c (h.code id c hc)

/-- Where nothing is made within `b`, because nothing can be within the empty environment. -/
theorem WellFormed.sealed_zero (hs : s.WellFormed) : s.Sealed 0 where
  ordered := hs.ordered
  made := Nat.succ_pos _
  code_env id c hc := by
    have hid : id < s.codes.size := (Array.getElem?_eq_some_iff.1 hc).1
    refine hs.closed (.code id) hid (.env c.env) ?_
    rw [references, hc]
    exact List.mem_cons_self
  quiet _ c _ h := absurd h (hs.ordered.zero_notMem_chain c.env)

/-- An environment is sealed from the start if the closures that are there were made outside. -/
theorem Sealed.of_forall_lt (hs : s.Sealed b) (ha : a < s.nextEnv)
    (hlt : ∀ (id : Nat) c, s.codes[id]? = some c → c.env < a) : s.Sealed a where
  ordered := hs.ordered
  made := ha
  code_env := hs.code_env
  quiet id c hc h := absurd (hs.ordered.le_of_mem_chain h) (Nat.not_le.2 (hlt id c hc))

/-! Binding a name elsewhere, making environments and closures, and taking a mark. -/

theorem Sealed.put (hs : s.Sealed b) (hab : a ≠ b) (x v : Value) :
    s.KeepsSealed b (s.put a x v) where
  again.ordered := hs.ordered.put a x v
  again.made := by
    rw [nextEnv_put]
    exact hs.made
  again.code_env := by
    rw [codes_put, nextEnv_put]
    exact hs.code_env
  again.quiet id c hc h := by
    rw [codes_put] at hc
    rw [chain_put] at h
    exact hs.quiet id c hc h
  env := by rw [env?_put, if_neg hab.symm]
  nextEnv_le := by rw [nextEnv_put]
  chain a' _ := chain_put s a a' x v
  code := by
    rw [codes_put]
    exact fun _ _ h ↦ h

theorem Sealed.pushEnv (hs : s.Sealed b) (hn : env.enclosure < s.nextEnv) :
    s.KeepsSealed b (s.pushEnv env) where
  again.ordered := hs.ordered.pushEnv hn
  again.made := by
    rw [nextEnv_pushEnv]
    exact Nat.lt_succ_of_lt hs.made
  again.code_env id c hc := by
    rw [nextEnv_pushEnv]
    exact Nat.lt_succ_of_lt (hs.code_env id c hc)
  again.quiet id c hc h := by
    rw [hs.ordered.chain_pushEnv hn (hs.code_env id c hc)] at h
    exact hs.quiet id c hc h
  env := by rw [env?_pushEnv, if_neg (Nat.ne_of_lt hs.made)]
  nextEnv_le := by
    rw [nextEnv_pushEnv]
    exact Nat.le_succ _
  chain a ha := hs.ordered.chain_pushEnv hn ha
  code _ _ h := h

theorem Sealed.pushCode (hs : s.Sealed b) {c : Code Node} (henv : c.env < s.nextEnv)
    (hquiet : b ∈ s.chain c.env → c.body.isQuiet = true) :
    s.KeepsSealed b { s with codes := s.codes.push c } := by
  have henvs : Store.envs { s with codes := s.codes.push c } = s.envs := rfl
  have hchain (a : EnvId) : Store.chain { s with codes := s.codes.push c } a = s.chain a :=
    chain_congr henvs a
  have hcodes {id : Nat} {d : Code Node} (hd : (s.codes.push c)[id]? = some d) :
      d = c ∨ s.codes[id]? = some d := by
    rw [Array.getElem?_push] at hd
    split at hd
    · exact .inl (Option.some.inj hd).symm
    · exact .inr hd
  refine ⟨⟨hs.ordered, hs.made, ?_, ?_⟩, rfl, Nat.le_refl _, fun a _ ↦ hchain a, ?_⟩
  · intro id d hd
    rcases hcodes hd with rfl | hd
    · exact henv
    · exact hs.code_env id d hd
  · intro id d hd h
    rw [hchain] at h
    rcases hcodes hd with rfl | hd
    · exact hquiet h
    · exact hs.quiet id d hd h
  · intro id d hd
    have hid : id < s.codes.size := (Array.getElem?_eq_some_iff.1 hd).1
    rw [Array.getElem?_push, if_neg (Nat.ne_of_lt hid)]
    exact hd

theorem Sealed.newMark (hs : s.Sealed b) : s.KeepsSealed b { s with marks := s.marks + 1 } := by
  have henvs : Store.envs { s with marks := s.marks + 1 } = s.envs := rfl
  have hchain (a : EnvId) : Store.chain { s with marks := s.marks + 1 } a = s.chain a :=
    chain_congr henvs a
  refine ⟨⟨hs.ordered, hs.made, hs.code_env, ?_⟩, rfl, Nat.le_refl _, fun a _ ↦ hchain a,
    fun _ _ h ↦ h⟩
  intro id c hc h
  rw [hchain] at h
  exact hs.quiet id c hc h

end Store

/-! ## Actions -/

/-- Performed in `e`, the action does not write to `b`, provided that `quiet` holds if `e` is within
`b`. -/
def Action.KeepsSealed {α : Type} (b e : EnvId) (quiet : Prop) (x : Action Node α) : Prop :=
  ∀ s : Store Node, s.Sealed b → e < s.nextEnv → (b ∈ s.chain e → quiet) →
    s.KeepsSealed b (Outcome.store (x.run s))

namespace Action.KeepsSealed

variable {α δ : Type} {b e : EnvId} {p q : Prop}

theorem pure (a : α) : KeepsSealed b e q (Pure.pure a) := fun _ hs _ _ ↦ hs.refl

theorem throw (err : Error) : KeepsSealed b e q (MonadExcept.throw err : Action Node α) :=
  fun _ hs _ _ ↦ hs.refl

theorem mono {x : Action Node α} (h : KeepsSealed b e p x) (hqp : q → p) : KeepsSealed b e q x :=
  fun s hs he hq ↦ h s hs he fun hb ↦ hqp (hq hb)

/-- Chains stay as they are, so what runs second is within `b` only if what runs first is. -/
theorem bind {x : Action Node α} {f : α → Action Node δ} (hx : KeepsSealed b e q x)
    (hf : ∀ a, KeepsSealed b e q (f a)) : KeepsSealed b e q (x >>= f) := by
  intro s hs he hq
  have hkept := hx s hs he hq
  rw [EStateM.run_bind]
  match hr : x.run s with
  | .error err t =>
    rw [hr] at hkept
    exact hkept
  | .ok a t =>
    rw [hr] at hkept
    refine hkept.trans (hf a t hkept.again (Nat.lt_of_lt_of_le he hkept.nextEnv_le) ?_)
    rw [Outcome.store_ok] at hkept
    rw [hkept.chain e he]
    exact hq

theorem composes : Action.Composes fun α (x : Action Node α) ↦ KeepsSealed b e q x := ⟨pure, bind⟩

theorem ofExcept (r : Except Error α) : KeepsSealed b e q (Action.ofExcept r) := by
  match r with
  | .ok a => exact pure a
  | .error err => exact throw err

theorem lookup (x : Value) : KeepsSealed b e q (Action.lookup e x) := by
  intro s hs _ _
  rw [EStateM.run, Action.lookup]
  split
  · exact hs.refl
  · exact hs.refl

/-- A definition writes where it runs. -/
theorem define (hq : ¬ q) (x v : Value) : KeepsSealed b e q (Action.define e x v) := by
  intro s hs he hquiet
  have hb : b ∉ s.chain e := fun h ↦ hq (hquiet h)
  rw [EStateM.run, Action.define.eq_def]
  split
  · split
    · exact hs.refl
    · next he0 =>
      refine hs.put ?_ _ v
      rintro rfl
      obtain ⟨env, henv⟩ := Option.isSome_iff_exists.1
        ((Store.has_of_lt he).resolve_left he0)
      rw [hs.ordered.chain_eq henv] at hb
      exact hb List.mem_cons_self
  · exact hs.refl

/-- An assignment writes to what is met walking outward. -/
theorem assign (hq : ¬ q) (x v : Value) : KeepsSealed b e q (Action.assign e x v) := by
  intro s hs _ hquiet
  have hb : b ∉ s.chain e := fun h ↦ hq (hquiet h)
  rw [EStateM.run, Action.assign]
  split
  · next a ha =>
    refine hs.put ?_ x v
    rintro rfl
    exact hb (List.mem_of_find?_eq_some ha)
  · exact hs.refl

theorem newClosure (params : List Symbol) (body : Node) (source : List Value)
    (hq : q → body.isQuiet = true) :
    KeepsSealed b e q (Action.newClosure params ⟨body, e, source⟩) :=
  fun _ hs he hquiet ↦ hs.pushCode he fun h ↦ hq (hquiet h)

theorem applyPrimitive (f : Primitive) (args : List Value) :
    KeepsSealed b e q (Action.applyPrimitive f args) := by
  intro s hs _ _
  rw [EStateM.run, Action.applyPrimitive]
  split
  · exact hs.newMark
  · exact hs.refl

end Action.KeepsSealed

/-! ## Runs -/

namespace Machine

open ReverseLisp.Action (KeepsSealed)

variable {b e : EnvId} {q : Prop}

/-- A call runs the body of a closure in a new environment. If this is within `b`, the closure was
made within `b`, hence the body does not write. -/
theorem applyWith_keepsSealed {run : Node → EnvId → Machine Value}
    (h : ∀ n e, KeepsSealed b e (n.isQuiet = true) (run n e)) (fn : Value) (args : List Value) :
    KeepsSealed b e q (applyWith run fn args) := by
  cases fn with
  | closure id params =>
    intro s hs _ _
    rcases run_applyWith_closure run s id params args with ⟨err, hrun⟩ | ⟨c, hc, hrun⟩
    · rw [hrun]
      exact hs.refl
    · have hn := hs.code_env id c hc
      let env : Env := ⟨Frame.ofPairs ((params.map .symbol).zip args), c.env⟩
      have hpush : s.KeepsSealed b (s.pushEnv env) := hs.pushEnv hn
      rw [hrun]
      refine hpush.trans (h c.body s.nextEnv _ hpush.again ?_ ?_)
      · rw [Store.nextEnv_pushEnv]
        exact Nat.lt_succ_self _
      · rw [hs.ordered.chain_pushEnv_nextEnv hn, List.mem_cons]
        rintro (rfl | hb)
        · exact absurd hs.made (Nat.lt_irrefl _)
        · exact hs.quiet id c hc hb
  | primitive p => exact .applyPrimitive p args
  | _ => exact .throw _

/-- A run does not write to `b` if the node does not write or `e` is outside of `b`. -/
theorem run_keepsSealed (limit : Nat) (node : Node) (e : EnvId) :
    KeepsSealed b e (node.isQuiet = true) (run limit node e) := by
  induction limit generalizing node e with
  | zero => exact .throw _
  | succ limit ih =>
    rw [run.eq_def]
    cases node with
    | literal v => exact .pure v
    | lookup x => exact .lookup _
    | branch test yes no =>
      have hquiet : (Node.branch test yes no).isQuiet = true →
          (test.isQuiet = true ∧ yes.isQuiet = true) ∧ no.isQuiet = true := by
        simp [Node.isQuiet]
      refine ((ih test e).mono fun hq ↦ (hquiet hq).1.1).bind fun v ↦ ?_
      split
      · exact (ih no e).mono fun hq ↦ (hquiet hq).2
      · exact (ih yes e).mono fun hq ↦ (hquiet hq).1.2
    | define x value =>
      have hloud : ¬ (Node.define x value).isQuiet = true := by simp [Node.isQuiet]
      exact ((ih value e).mono fun hq ↦ absurd hq hloud).bind fun v ↦ .define hloud _ v
    | assign x value =>
      have hloud : ¬ (Node.assign x value).isQuiet = true := by simp [Node.isQuiet]
      exact ((ih value e).mono fun hq ↦ absurd hq hloud).bind fun v ↦ .assign hloud _ v
    | function params body source => exact .newClosure params body source id
    | sequence nodes =>
      refine KeepsSealed.composes.inOrder fun n hn ↦ (ih n e).mono fun hq ↦ ?_
      exact Node.areQuiet_iff.1 hq n hn
    | application operator operands =>
      have hquiet : (Node.application operator operands).isQuiet = true →
          operator.isQuiet = true ∧ ∀ n ∈ operands, n.isQuiet = true := by
        simp [Node.isQuiet, Node.areQuiet_iff]
      refine ((ih operator e).mono fun hq ↦ (hquiet hq).1).bind fun fn ↦ ?_
      refine .bind (KeepsSealed.composes.collect fun n hn ↦ ?_) fun args ↦
        applyWith_keepsSealed ih fn args
      exact (ih n e).mono fun hq ↦ (hquiet hq).2 n hn

/-- Whatever a call runs, it does not write to a sealed environment. -/
theorem apply_keepsSealed (limit : Nat) (fn : Value) (args : List Value) :
    KeepsSealed b e q (apply limit fn args) :=
  applyWith_keepsSealed (run_keepsSealed limit) fn args

theorem evaluate_keepsSealed (limit : Nat) (expr : Value) (e : EnvId) :
    KeepsSealed b e False (evaluate limit expr e) := by
  refine .bind ?_ fun node ↦ (run_keepsSealed limit node e).mono False.elim
  refine (KeepsSealed.ofExcept expr.analyze).bind fun node ↦ ?_
  split
  · exact .throw _
  · exact .pure node

theorem evaluateText_keepsSealed (limit : Nat) (e : EnvId) (program : String) :
    KeepsSealed b e False (evaluateText limit e program) := by
  rw [evaluateText]
  split
  · refine (KeepsSealed.ofExcept _).bind fun exprs ↦ ?_
    exact KeepsSealed.composes.evaluateAll fun expr _ ↦ evaluate_keepsSealed limit expr e
  · exact .throw _

theorem load_keepsSealed (limit : Nat) (e : EnvId) (programs : List String) :
    KeepsSealed b e False (load limit e programs) :=
  KeepsSealed.composes.load fun program _ ↦ evaluateText_keepsSealed limit e program

end Machine

/-! ## Sessions -/

namespace Session

/-- The sessions that come after a session: by evaluating programs or expressions and by applying
values, whether this succeeds or fails, and by changing the limit. -/
inductive LeadsTo (s : Session) : Session → Prop where
  | refl : LeadsTo s s
  | evalAll (program : String) {t : Session} (h : LeadsTo s t) : LeadsTo s (t.evalAll program).2
  | load (programs : List String) {t : Session} (h : LeadsTo s t) : LeadsTo s (t.load programs).2
  | evaluate (limit : Nat) (expr : Value) {t : Session} (h : LeadsTo s t) :
    LeadsTo s (t.perform (Machine.evaluate limit expr t.env)).2
  | apply (limit : Nat) (fn : Value) (args : List Value) {t : Session} (h : LeadsTo s t) :
    LeadsTo s (t.perform (Machine.apply limit fn args)).2
  | withLimit (limit : Nat) {t : Session} (h : LeadsTo s t) : LeadsTo s (t.withLimit limit)

/-- A sealed environment that does not enclose the global one is there for good, as it is. -/
theorem LeadsTo.keepsSealed {s t : Session} (h : s.LeadsTo t) {b : EnvId}
    (hs : s.store.Sealed b) (he : s.env < s.store.nextEnv) (hb : b ∉ s.store.chain s.env) :
    t.env = s.env ∧ s.store.KeepsSealed b t.store := by
  have hstep {α : Type} {action : Machine α} {t : Session} (henv : t.env = s.env)
      (hkept : s.store.KeepsSealed b t.store) (haction : Action.KeepsSealed b t.env False action) :
      (t.perform action).2.env = s.env ∧ s.store.KeepsSealed b (t.perform action).2.store := by
    rw [perform_snd]
    refine ⟨henv, hkept.trans (haction t.store hkept.again ?_ ?_)⟩
    · rw [henv]
      exact Nat.lt_of_lt_of_le he hkept.nextEnv_le
    · rw [henv, hkept.chain s.env he]
      exact hb
  induction h with
  | refl => exact ⟨rfl, hs.refl⟩
  | evalAll program _ ih => exact hstep ih.1 ih.2 (Machine.evaluateText_keepsSealed _ _ program)
  | load programs _ ih => exact hstep ih.1 ih.2 (Machine.load_keepsSealed _ _ programs)
  | evaluate limit expr _ ih => exact hstep ih.1 ih.2 (Machine.evaluate_keepsSealed limit expr _)
  | apply limit fn args _ ih => exact hstep ih.1 ih.2 (Machine.apply_keepsSealed limit fn args)
  | withLimit limit _ ih => exact ih

end Session

end ReverseLisp
