import ReverseLisp.Proofs.Bindings
import ReverseLisp.Proofs.Limits

/-!
# Rules of evaluation

What an expression evaluates to, from what its parts evaluate to. The rules are for expressions that
change nothing: evaluating them makes environments and closures, and leaves those that were there as
they were. A store that has only been added to *extends* the one that it was.

`expr.Yields e s P` says that in every store that extends `s`, at every limit that is large enough,
`expr` evaluates in `e` to a value with property `P`, and that the store is extended again. A
function `fn.Returns s args P` likewise. What is said of `s` is said of all stores that extend it,
so a fact about one part of an expression need not be carried past the evaluation of another part.
The property may depend on the store, since a closure means nothing without one.

## Names

`s.Shows e bs` says what names mean in `e`. A call shows its parameters and, beyond them, what the
environment of the closure shows.
-/

namespace ReverseLisp

/-- The expression passes the analysis. -/
def Value.Analyzable (expr : Value) : Prop := ∃ node, expr.analyze = .ok node

/-! ## Stores that have been added to -/

namespace Store

variable {s t u : Store Node} {a e : EnvId}

/-- Environments and closures may have been added. Those that were there are as they were. -/
def Extends (s t : Store Node) : Prop := s.Keeps (s.nextEnv ≤ ·) t

namespace Extends

theorem refl (s : Store Node) : s.Extends s := Keeps.refl _ s

theorem env?_eq (h : s.Extends t) (ha : a < s.nextEnv) : t.env? a = s.env? a :=
  h.env a (Nat.not_le.2 ha)

theorem nextEnv_le (h : s.Extends t) : s.nextEnv ≤ t.nextEnv := by
  by_contra hlt
  have hsome := (has_of_lt (Nat.not_le.1 hlt)).resolve_left (Nat.succ_ne_zero _)
  rw [← h.env?_eq (Nat.not_le.1 hlt), env?_nextEnv] at hsome
  exact nomatch hsome

theorem trans (h : s.Extends t) (h' : t.Extends u) : s.Extends u where
  env a ha := (h'.env a fun hle ↦ ha (Nat.le_trans h.nextEnv_le hle)).trans (h.env a ha)
  code i c hc := h'.code i c (h.code i c hc)
  ordered hs := h'.ordered (h.ordered hs)

theorem pushEnv {env : Env} (hn : env.enclosure < s.nextEnv) : s.Extends (s.pushEnv env) :=
  (Keeps.refl _ s).pushEnv (Nat.le_refl _) hn

theorem pushCode (s : Store Node) (c : Code Node) :
    s.Extends { s with codes := s.codes.push c } :=
  (Keeps.refl _ s).pushCode c

theorem newMark (s : Store Node) : s.Extends { s with marks := s.marks + 1 } :=
  ⟨fun _ _ ↦ rfl, fun _ _ h ↦ h, id⟩

/-- Names keep their meaning. -/
theorem value?_eq (h : s.Extends t) (hs : s.Ordered) (he : e < s.nextEnv) (x : Value) :
    t.value? e x = s.value? e x := by
  induction e using Nat.strongRecOn with
  | _ e ih =>
    have hsame := h.env?_eq he
    rcases henv : s.env? e with _ | env
    · rw [value?_of_env?_eq_none henv, value?_of_env?_eq_none (hsame.trans henv)]
    · have hlt := hs e env henv
      rw [(h.ordered hs).value?_eq (hsame.trans henv), hs.value?_eq henv,
        ih env.enclosure hlt (Nat.lt_trans hlt he)]

end Extends

/-! ## Closures and names -/

/-- The value is a closure with these parameters, made in `e` from these expressions. -/
def IsClosure (s : Store Node) (v : Value) (params : List Symbol) (source : List Value)
    (e : EnvId) : Prop :=
  ∃ id ns, v = .closure id params ∧ Value.analyzeEach source = .ok ns ∧
    s.codes[id]? = some ⟨.ofList ns, e, source⟩

/-- In `e` the names have these values. -/
structure Shows (s : Store Node) (e : EnvId) (bs : List (Symbol × Value)) : Prop where
  ordered : s.Ordered
  made : e < s.nextEnv
  value : ∀ b ∈ bs, s.value? e (.symbol b.1) = some b.2

variable {v : Value} {params : List Symbol} {source : List Value} {bs cs : List (Symbol × Value)}

theorem IsClosure.mono (h : s.IsClosure v params source e) (hst : s.Extends t) :
    t.IsClosure v params source e := by
  obtain ⟨id, ns, hv, hns, hcode⟩ := h
  exact ⟨id, ns, hv, hns, hst.code id _ hcode⟩

theorem IsClosure.analyzable {body : Value} (h : s.IsClosure v params [body] e) :
    body.Analyzable := by
  obtain ⟨_, _, -, hns, -⟩ := h
  obtain ⟨node, hnode, -⟩ := Except.bind_eq_ok_iff.1 hns
  exact ⟨node, hnode⟩

theorem Shows.mono (h : s.Shows e bs) (hst : s.Extends t) : t.Shows e bs where
  ordered := hst.ordered h.ordered
  made := Nat.lt_of_lt_of_le h.made hst.nextEnv_le
  value b hb := (hst.value?_eq h.ordered h.made _).trans (h.value b hb)

theorem Shows.of_subset (h : s.Shows e bs) (hcs : cs ⊆ bs) : s.Shows e cs :=
  ⟨h.ordered, h.made, fun b hb ↦ h.value b (hcs hb)⟩

/-- Of distinct parameters each has its own argument. -/
theorem get?_parameters {args : List Value} (hparams : params.Nodup)
    (hlength : params.length = args.length) {b : Symbol × Value} (hb : b ∈ params.zip args) :
    (Frame.ofPairs ((params.map .symbol).zip args)).get? (.symbol b.1) = some b.2 := by
  obtain ⟨before, after, hzip⟩ := List.append_of_mem hb
  have hsplit : (params.map Value.symbol).zip args =
      before.map (Prod.map .symbol id) ++
        (.symbol b.1, b.2) :: after.map (Prod.map .symbol id) := by
    rw [List.zip_map_left, hzip, List.map_append, List.map_cons]
    rfl
  have hnodup : ((params.zip args).map Prod.fst).Nodup := by
    rwa [List.map_fst_zip (Nat.le_of_eq hlength)]
  rw [hsplit]
  refine Frame.get?_ofPairs_append_cons _ b.2 rfl fun p hp hkey ↦ ?_
  obtain ⟨c, hc, rfl⟩ := List.mem_map.1 hp
  rw [hzip, List.map_append, List.map_cons] at hnodup
  have hfirst := (List.nodup_cons.1 (List.nodup_append.1 hnodup).2.1).1
  have hname : c.1 = b.1 := Value.symbol.inj hkey
  exact hfirst (hname ▸ List.mem_map_of_mem hc)

/-- The environment of a call shows the parameters and what the environment of the closure shows
beyond them. -/
theorem Shows.within (h : s.Shows e bs) {b : EnvId} {args : List Value}
    (henv : s.env? b = some ⟨Frame.ofPairs ((params.map .symbol).zip args), e⟩)
    (hparams : params.Nodup) (hlength : params.length = args.length)
    (hbs : ∀ x ∈ bs, x.1 ∉ params) : s.Shows b (params.zip args ++ bs) where
  ordered := h.ordered
  made := lt_nextEnv_of_env? henv
  value x hx := by
    rw [h.ordered.value?_eq henv]
    rcases List.mem_append.1 hx with hx | hx
    · rw [get?_parameters hparams hlength hx, Option.some_or]
    · have hnone : (Frame.ofPairs ((params.map .symbol).zip args)).get? (.symbol x.1) = none := by
        refine Frame.get?_ofPairs_of_forall_ne fun p hp hkey ↦ hbs x hx ?_
        obtain ⟨y, hy, hyp⟩ := List.mem_map.1 (List.of_mem_zip hp).1
        rw [← hyp] at hkey
        exact Value.symbol.inj hkey ▸ hy
      rw [hnone, Option.none_or, h.value x hx]

theorem Shows.call (h : s.Shows e bs) {args : List Value} (hparams : params.Nodup)
    (hlength : params.length = args.length) (hbs : ∀ x ∈ bs, x.1 ∉ params) :
    (s.pushEnv ⟨Frame.ofPairs ((params.map .symbol).zip args), e⟩).Shows s.nextEnv
      (params.zip args ++ bs) := by
  refine (h.mono (.pushEnv h.made)).within ?_ hparams hlength hbs
  rw [env?_pushEnv, if_pos rfl]

end Store

/-! ## Runs that come to the same -/

section ComesTo

variable {α δ : Type} {F : Nat → Machine α} {G : Nat → Machine α} {H : Nat → Machine α}
  {f : α → Nat → Machine δ} {s t u : Store Node}

theorem EndsWith.unique {r r' : Outcome Node α} (h : EndsWith F s r) (h' : EndsWith F s r') :
    r = r' := by
  obtain ⟨N, hN⟩ := h
  obtain ⟨N', hN'⟩ := h'
  exact (hN (max N N') (Nat.le_max_left N N')).symm.trans (hN' _ (Nat.le_max_right N N'))

/-- The parts of a run that is not cut off. -/
theorem EndsWith.bind_iff {r : Outcome Node δ} (hr : r.isCutOff = false)
    (hF : ∀ m n, m ≤ n → Action.CutsShort (F m) (F n)) :
    EndsWith (fun n ↦ F n >>= fun a ↦ f a n) s r ↔
      (∃ a t, EndsWith F s (.ok a t) ∧ EndsWith (f a) t r) ∨
        ∃ err t, r = .error err t ∧ EndsWith F s (.error err t) := by
  constructor
  · rintro ⟨N, hN⟩
    have hsame (n : Nat) (hn : N ≤ n) : EStateM.run (F n) s = EStateM.run (F N) s := by
      refine (hF N n hn s).resolve_left fun hcut ↦ ?_
      obtain ⟨t, ht⟩ := Outcome.isCutOff_iff.1 hcut
      have hbind := hN N (Nat.le_refl N)
      rw [EStateM.run_bind, ht] at hbind
      rw [← hbind] at hr
      exact nomatch hr
    rcases hrun : EStateM.run (F N) s with ⟨a, t⟩ | ⟨err, t⟩
    · refine .inl ⟨a, t, ⟨N, fun n hn ↦ (hsame n hn).trans hrun⟩, N, fun n hn ↦ ?_⟩
      have hbind := hN n hn
      rwa [EStateM.run_bind, hsame n hn, hrun] at hbind
    · refine .inr ⟨err, t, ?_, N, fun n hn ↦ (hsame n hn).trans hrun⟩
      have hbind := hN N (Nat.le_refl N)
      rw [EStateM.run_bind, hrun] at hbind
      exact hbind.symm
  · rintro (⟨a, t, hend, hrest⟩ | ⟨err, t, rfl, hend⟩)
    · exact hend.bind_ok hrest
    · exact hend.bind_error

/-- Whatever the first family ends with from `s`, the second ends with from `t`, and conversely,
except for being cut off. -/
def ComesTo (F : Nat → Machine α) (s : Store Node) (G : Nat → Machine α) (t : Store Node) : Prop :=
  ∀ r : Outcome Node α, r.isCutOff = false → (EndsWith F s r ↔ EndsWith G t r)

namespace ComesTo

theorem trans (h : ComesTo F s G t) (h' : ComesTo G t H u) : ComesTo F s H u :=
  fun r hr ↦ (h r hr).trans (h' r hr)

theorem of_run_eq (h : ∀ n, EStateM.run (F n) s = EStateM.run (G n) t) : ComesTo F s G t := by
  intro r _
  simp only [EndsWith, h]

theorem of_endsWith {r : Outcome Node α} (hF : EndsWith F s r) (hG : EndsWith G t r) :
    ComesTo F s G t := by
  intro r' _
  constructor
  · intro h
    rwa [h.unique hF]
  · intro h
    rwa [h.unique hG]

theorem nest (h : ComesTo G s H t) (succ : ∀ n, F (n + 1) = G n) : ComesTo F s H t := by
  refine .trans (fun r _ ↦ ⟨?_, fun h ↦ h.nest succ⟩) h
  rintro ⟨N, hN⟩
  refine ⟨N, fun n hn ↦ ?_⟩
  rw [← succ]
  exact hN (n + 1) (Nat.le_succ_of_le hn)

/-- What runs first may be left out once it is known what it gives. -/
theorem bind_ok {a : α} (h : EndsWith F s (.ok a t)) :
    ComesTo (fun n ↦ F n >>= fun a ↦ f a n) s (f a) t := by
  refine fun r _ ↦ ⟨?_, fun hf ↦ h.bind_ok hf⟩
  rintro ⟨N, hN⟩
  obtain ⟨N', hN'⟩ := h
  refine ⟨max N N', fun n hn ↦ ?_⟩
  have hbind := hN n (Nat.le_trans (Nat.le_max_left N N') hn)
  rwa [EStateM.run_bind, hN' n (Nat.le_trans (Nat.le_max_right N N') hn)] at hbind

/-- What runs first may be replaced by what it comes to. -/
theorem bind (h : ComesTo F s G t) (hF : ∀ m n, m ≤ n → Action.CutsShort (F m) (F n))
    (hG : ∀ m n, m ≤ n → Action.CutsShort (G m) (G n)) :
    ComesTo (fun n ↦ F n >>= fun a ↦ f a n) s (fun n ↦ G n >>= fun a ↦ f a n) t := by
  intro r hr
  rw [EndsWith.bind_iff hr hF, EndsWith.bind_iff hr hG]
  refine or_congr ?_ ?_
  · exact exists_congr fun a ↦ exists_congr fun u ↦ and_congr_left fun _ ↦ h _ rfl
  · refine exists_congr fun err ↦ exists_congr fun u ↦ and_congr_right fun hu ↦ h _ ?_
    refine Bool.eq_false_iff.2 fun hcut ↦ ?_
    obtain ⟨_, ⟨⟩⟩ := Outcome.isCutOff_iff.1 hcut
    rw [hu] at hr
    exact nomatch hr

end ComesTo

end ComesTo

/-! ## Single evaluations -/

namespace Value

open Machine (run collect)

variable {s t u : Store Node} {e : EnvId} {x : Symbol} {v w fn : Value} {vs args : List Value}

/-- The expression passes the analysis, and at every limit that is large enough its node gives the
value and leaves the store. -/
def Evaluates (expr : Value) (e : EnvId) (s : Store Node) (v : Value) (t : Store Node) : Prop :=
  ∃ node, expr.analyze = .ok node ∧ EndsWith (fun limit ↦ run limit node e) s (.ok v t)

/-- The expressions evaluate in order to the values. -/
def EvaluateTo (exprs : List Value) (e : EnvId) (s : Store Node) (vs : List Value)
    (t : Store Node) : Prop :=
  ∃ nodes, analyzeEach exprs = .ok nodes ∧
    EndsWith (fun limit ↦ collect (run limit · e) nodes) s (.ok vs t)

/-- At every limit that is large enough the function gives the value and leaves the store. -/
def Applies (fn : Value) (args : List Value) (s : Store Node) (v : Value) (t : Store Node) : Prop :=
  EndsWith (fun limit ↦ Machine.apply limit fn args) s (.ok v t)

theorem evaluates_symbol (h : s.value? e (symbol x) = some v) : (symbol x).Evaluates e s v s := by
  have hlookup : EndsWith (fun _ ↦ Action.lookup e (symbol x)) s (.ok v s) := by
    refine ⟨0, fun _ _ ↦ ?_⟩
    simp only [EStateM.run, Action.lookup, h]
  exact ⟨.lookup x, rfl, hlookup.nest fun _ ↦ rfl⟩

/-- A value that stands for itself. -/
theorem evaluates_literal (h : v.analyze = .ok (.literal v)) (e : EnvId) (s : Store Node) :
    v.Evaluates e s v s := by
  have hpure : EndsWith (fun _ ↦ pure v) s (.ok v s) := ⟨0, fun _ _ ↦ rfl⟩
  exact ⟨.literal v, h, hpure.nest fun _ ↦ rfl⟩

theorem evaluates_function {ps : Value} {params : List Symbol} {body : List Value}
    {ns : List Node} (hparams : ps.parameters = .ok params) (hbody : analyzeEach body = .ok ns)
    (e : EnvId) (s : Store Node) :
    (form .function (ps :: body)).Evaluates e s (closure s.codes.size params)
      { s with codes := s.codes.push ⟨.ofList ns, e, body⟩ } := by
  have hmake : EndsWith (fun _ ↦ Action.newClosure params ⟨.ofList ns, e, body⟩) s
      (.ok (closure s.codes.size params) { s with codes := s.codes.push ⟨.ofList ns, e, body⟩ }) :=
    ⟨0, fun _ _ ↦ rfl⟩
  refine ⟨.function params (.ofList ns) body, ?_, hmake.nest fun _ ↦ rfl⟩
  change (do return Node.function (← ps.parameters) (.ofList (← analyzeEach body)) body) = _
  rw [hparams, hbody]
  rfl

/-- The parts of the node of a branching. -/
theorem exists_branchNode {test yes no : Value} {node : Node}
    (hnode : (form .branch [test, yes, no]).analyze = .ok node) (ht : test.Evaluates e s w t) :
    ∃ n yes' no', node = .branch n yes' no' ∧ EndsWith (fun limit ↦ run limit n e) s (.ok w t) ∧
      yes.analyze = .ok yes' ∧ no.analyze = .ok no' := by
  obtain ⟨test', htest, hrest⟩ := Except.bind_eq_ok_iff.1 hnode
  obtain ⟨yes', hyes, hrest⟩ := Except.bind_eq_ok_iff.1 hrest
  obtain ⟨no', hno, hrest⟩ := Except.bind_eq_ok_iff.1 hrest
  obtain ⟨n, hn, hrun⟩ := ht
  obtain rfl : n = test' := Except.ok.inj (hn.symm.trans htest)
  exact ⟨n, yes', no', (Except.ok.inj hrest).symm, hrun, hyes, hno⟩

/-- A branching comes to what the branch that is taken comes to. The other one has to pass the
analysis, too. -/
theorem comesTo_branch {test yes no : Value} {node : Node}
    (hnode : (form .branch [test, yes, no]).analyze = .ok node) (ht : test.Evaluates e s w t) :
    ∃ m, (if w.isFalse then no else yes).analyze = .ok m ∧
      ComesTo (fun limit ↦ run limit node e) s (fun limit ↦ run limit m e) t := by
  obtain ⟨n, yes', no', rfl, hrun, hyes, hno⟩ := exists_branchNode hnode ht
  have hcomes : ComesTo (fun limit ↦ run limit (.branch n yes' no') e) s _ t :=
    (ComesTo.bind_ok hrun (f := fun v limit ↦
      if v.isFalse then run limit no' e else run limit yes' e)).nest fun _ ↦ rfl
  by_cases hw : w.isFalse = true
  · simp only [if_pos hw] at hcomes ⊢
    exact ⟨no', hno, hcomes⟩
  · simp only [if_neg hw] at hcomes ⊢
    exact ⟨yes', hyes, hcomes⟩

theorem Evaluates.branch {test yes no : Value} (hform : (form .branch [test, yes, no]).Analyzable)
    (ht : test.Evaluates e s w t) (h : (if w.isFalse then no else yes).Evaluates e t v u) :
    (form .branch [test, yes, no]).Evaluates e s v u := by
  obtain ⟨node, hnode⟩ := hform
  obtain ⟨m, hm, hcomes⟩ := comesTo_branch hnode ht
  obtain ⟨n, hn, hend⟩ := h
  obtain rfl : n = m := Except.ok.inj (hn.symm.trans hm)
  exact ⟨node, hnode, (hcomes _ rfl).2 hend⟩

theorem evaluateTo_nil (e : EnvId) (s : Store Node) : EvaluateTo [] e s [] s :=
  ⟨[], rfl, 0, fun _ _ ↦ rfl⟩

theorem Evaluates.cons {expr : Value} {exprs : List Value} (h : expr.Evaluates e s v t)
    (hs : EvaluateTo exprs e t vs u) : EvaluateTo (expr :: exprs) e s (v :: vs) u := by
  obtain ⟨n, hn, hrun⟩ := h
  obtain ⟨ns, hns, hruns⟩ := hs
  refine ⟨n :: ns, ?_, hrun.bind_ok (f := fun v limit ↦ collect (run limit · e) ns >>= fun vs ↦
    pure (v :: vs)) (hruns.bind_ok (f := fun vs _ ↦ pure (v :: vs)) ⟨0, fun _ _ ↦ rfl⟩)⟩
  rw [analyzeEach, hn, hns]
  rfl

/-- The parts of the node of a call. -/
theorem exists_callNode {f : Value} {exprs : List Value} {node : Node} (hw : f.isFormWord = false)
    (hnode : (list (f :: exprs)).analyze = .ok node) (hf : f.Evaluates e s fn t)
    (hargs : EvaluateTo exprs e t args u) :
    ∃ n ns, node = .application n ns ∧ EndsWith (fun limit ↦ run limit n e) s (.ok fn t) ∧
      EndsWith (fun limit ↦ collect (run limit · e) ns) t (.ok args u) := by
  obtain ⟨n, hn, hrun⟩ := hf
  obtain ⟨ns, hns, hruns⟩ := hargs
  rw [Analysis.analyze_application hw, hn, hns] at hnode
  exact ⟨n, ns, (Except.ok.inj hnode).symm, hrun, hruns⟩

/-- A call comes to what the application comes to. -/
theorem comesTo_call {f : Value} {exprs : List Value} {node : Node} (hw : f.isFormWord = false)
    (hnode : (list (f :: exprs)).analyze = .ok node) (hf : f.Evaluates e s fn t)
    (hargs : EvaluateTo exprs e t args u) :
    ComesTo (fun limit ↦ run limit node e) s (fun limit ↦ Machine.apply limit fn args) u := by
  obtain ⟨n, ns, rfl, hrun, hruns⟩ := exists_callNode hw hnode hf hargs
  refine ComesTo.nest ?_ fun _ ↦ rfl
  exact (ComesTo.bind_ok hrun (f := fun fn limit ↦
    collect (run limit · e) ns >>= fun args ↦ Machine.apply limit fn args)).trans
      (.bind_ok hruns (f := fun args limit ↦ Machine.apply limit fn args))

theorem Evaluates.call {f : Value} {exprs : List Value} {r : Store Node}
    (hw : f.isFormWord = false) (hf : f.Evaluates e s fn t) (hargs : EvaluateTo exprs e t args u)
    (happ : fn.Applies args u v r) : (list (f :: exprs)).Evaluates e s v r := by
  have hnode : ∃ node, (list (f :: exprs)).analyze = .ok node := by
    obtain ⟨n, hn, -⟩ := hf
    obtain ⟨ns, hns, -⟩ := hargs
    rw [Analysis.analyze_application hw, hn, hns]
    exact ⟨_, rfl⟩
  obtain ⟨node, hnode⟩ := hnode
  exact ⟨node, hnode, (comesTo_call hw hnode hf hargs _ rfl).2 happ⟩

/-- A call of a closure runs its body in a new environment. -/
theorem run_apply_of_isClosure {params : List Symbol} {body : Value} {node : Node}
    (hfn : s.IsClosure fn params [body] e) (hnode : body.analyze = .ok node)
    (hlength : params.length = args.length) (limit : Nat) :
    EStateM.run (Machine.apply limit fn args) s = EStateM.run (run limit node s.nextEnv)
      (s.pushEnv ⟨Frame.ofPairs ((params.map symbol).zip args), e⟩) := by
  obtain ⟨id, ns, rfl, hns, hcode⟩ := hfn
  rw [analyzeEach, hnode] at hns
  obtain rfl : [node] = ns := Except.ok.inj hns
  exact Machine.run_applyWith_of_code hcode hlength

theorem Evaluates.applies {params : List Symbol} {body : Value}
    (h : body.Evaluates s.nextEnv
      (s.pushEnv ⟨Frame.ofPairs ((params.map symbol).zip args), e⟩) v t)
    (hfn : s.IsClosure fn params [body] e) (hlength : params.length = args.length) :
    fn.Applies args s v t := by
  obtain ⟨node, hnode, hend⟩ := h
  exact (ComesTo.of_run_eq (run_apply_of_isClosure hfn hnode hlength) _ rfl).2 hend

theorem applies_primitive {p : Primitive} (h : p.apply s.marks args = .ok v) :
    (primitive p).Applies args s v { s with marks := s.marks + 1 } := by
  refine ⟨0, fun _ _ ↦ ?_⟩
  change Action.applyPrimitive p args s = _
  simp only [Action.applyPrimitive, h]

/-- Evaluation counts the nesting of the node before it runs. -/
theorem run_evaluate {expr : Value} {node : Node} (h : expr.analyze = .ok node) (limit : Nat)
    (e : EnvId) (s : Store Node) :
    EStateM.run (Machine.evaluate limit expr e) s =
      if limit < node.depth then .error .recursionLimit s
      else EStateM.run (run limit node e) s := by
  have hanalyze : EStateM.run (Machine.analyze limit expr) s =
      if limit < node.depth then .error .recursionLimit s else .ok node s := by
    rw [Machine.analyze, h]
    change EStateM.run (if limit < node.depth then _ else _) s = _
    split
    · rfl
    · rfl
  change EStateM.run (Machine.analyze limit expr >>= fun node ↦ run limit node e) s = _
  rw [EStateM.run_bind, hanalyze]
  by_cases hdepth : limit < node.depth
  · rw [if_pos hdepth, if_pos hdepth]
  · rw [if_neg hdepth, if_neg hdepth]

theorem Evaluates.evaluate {expr : Value} (h : expr.Evaluates e s v t) :
    EndsWith (fun limit ↦ Machine.evaluate limit expr e) s (.ok v t) := by
  obtain ⟨node, hnode, N, hN⟩ := h
  refine ⟨max N node.depth, fun n hn ↦ ?_⟩
  rw [run_evaluate hnode, if_neg (by omega)]
  exact hN n (by omega)

end Value

/-! ## Integer arithmetic -/

namespace Primitive

variable (mark : Nat) (a b : Int)

theorem apply_add : add.apply mark [.int a, .int b] = .ok (.int (a + b)) := by
  change Except.ok (Value.int (0 + a + b)) = _
  rw [Int.zero_add]

theorem apply_sub : sub.apply mark [.int a, .int b] = .ok (.int (a - b)) := rfl

theorem apply_less : less.apply mark [.int a, .int b] = .ok (.bool (decide (a < b))) := by
  have hlt : Number.lt (.int a) (.int b) = decide (a < b) := by
    change decide ((a : Rat) < b) = _
    rw [decide_eq_decide]
    exact Rat.intCast_lt_intCast
  rw [← hlt]
  change Except.ok (Value.bool (Number.lt (.int a) (.int b) && true)) = _
  rw [Bool.and_true]

theorem apply_equal : equal.apply mark [.int a, .int b] = .ok (.bool (decide (a = b))) := by
  have heq : Number.eq (.int a) (.int b) = decide (a = b) := by
    change decide (Number.Exact.rational a = .rational b) = _
    rw [decide_eq_decide, Number.Exact.rational.injEq]
    exact Rat.intCast_inj
  rw [← heq]
  change Except.ok (Value.bool (Number.eq (.int a) (.int b) && true)) = _
  rw [Bool.and_true]

end Primitive

/-! ## Evaluation in all later stores -/

namespace Value

variable {s t : Store Node} {e : EnvId} {x : Symbol} {v fn : Value} {args : List Value}
  {P Q : Store Node → Value → Prop} {bs : List (Symbol × Value)}

/-- From now on the expression evaluates in `e` to a value with the property, and this only adds to
the store. -/
def Yields (expr : Value) (e : EnvId) (s : Store Node) (P : Store Node → Value → Prop) : Prop :=
  ∀ t, s.Extends t → ∃ v u, expr.Evaluates e t v u ∧ t.Extends u ∧ P u v

/-- From now on the function gives a value with the property for the arguments, and this only adds
to the store. -/
def Returns (fn : Value) (s : Store Node) (args : List Value) (P : Store Node → Value → Prop) :
    Prop :=
  ∀ t, s.Extends t → ∃ v u, fn.Applies args t v u ∧ t.Extends u ∧ P u v

/-- The value is this one, whatever the store. -/
def Is (v : Value) (_ : Store Node) (w : Value) : Prop := w = v

theorem Returns.mono (h : fn.Returns s args P) (hst : s.Extends t) : fn.Returns t args P :=
  fun u htu ↦ h u (hst.trans htu)

theorem Yields.imp {expr : Value} (h : expr.Yields e s P)
    (himp : ∀ t v, s.Extends t → P t v → Q t v) : expr.Yields e s Q := by
  intro t ht
  obtain ⟨v, u, hrun, htu, hP⟩ := h t ht
  exact ⟨v, u, hrun, htu, himp u v (ht.trans htu) hP⟩

theorem yields_symbol (hs : s.Shows e bs) (hx : (x, v) ∈ bs) : (symbol x).Yields e s (Is v) :=
  fun t ht ↦ ⟨v, t, evaluates_symbol ((hs.mono ht).value _ hx), .refl t, rfl⟩

theorem yields_int (n : Int) (e : EnvId) (s : Store Node) : (int n).Yields e s (Is (int n)) :=
  fun t _ ↦ ⟨int n, t, evaluates_literal rfl e t, .refl t, rfl⟩

/-- Making a closure. -/
theorem yields_function {ps : Value} {params : List Symbol} {body : Value}
    (hparams : ps.parameters = .ok params) (hbody : body.Analyzable) (e : EnvId) (s : Store Node) :
    (form .function [ps, body]).Yields e s fun t fn ↦ t.IsClosure fn params [body] e := by
  intro t _
  obtain ⟨n, hn⟩ := hbody
  have hns : analyzeEach [body] = .ok [n] := by
    rw [analyzeEach, hn]
    rfl
  refine ⟨_, _, evaluates_function hparams hns e t, .pushCode t _, t.codes.size, [n], rfl, hns, ?_⟩
  rw [Array.getElem?_push_size]

theorem Yields.branch {test yes no : Value} {b : Bool}
    (hform : (form .branch [test, yes, no]).Analyzable) (ht : test.Yields e s (Is (bool b)))
    (h : (if b then yes else no).Yields e s P) : (form .branch [test, yes, no]).Yields e s P := by
  intro t hst
  obtain ⟨_, u, htest, htu, rfl⟩ := ht t hst
  obtain ⟨v, r, hrest, hur, hP⟩ := h u (hst.trans htu)
  refine ⟨v, r, .branch hform htest ?_, htu.trans hur, hP⟩
  match b with
  | true => exact hrest
  | false => exact hrest

/-- The values of several expressions. -/
theorem exists_evaluateTo {exprs vs : List Value}
    (h : List.Forall₂ (fun expr v ↦ expr.Yields e s (Is v)) exprs vs) (hst : s.Extends t) :
    ∃ u, EvaluateTo exprs e t vs u ∧ t.Extends u := by
  induction h generalizing t with
  | nil => exact ⟨t, evaluateTo_nil e t, .refl t⟩
  | cons hv _ ih =>
    obtain ⟨_, u, hrun, htu, rfl⟩ := hv t hst
    obtain ⟨r, hruns, hur⟩ := ih (hst.trans htu)
    exact ⟨r, hrun.cons hruns, htu.trans hur⟩

/-- A call whose arguments are known values. The function may be one that is made for it. -/
theorem Yields.call {f : Value} {exprs : List Value} (hw : f.isFormWord = false)
    (hf : f.Yields e s fun t fn ↦ fn.Returns t args P)
    (hargs : List.Forall₂ (fun expr v ↦ expr.Yields e s (Is v)) exprs args) :
    (list (f :: exprs)).Yields e s P := by
  intro t hst
  obtain ⟨fn, u, hfn, htu, hreturns⟩ := hf t hst
  obtain ⟨r, hruns, hur⟩ := exists_evaluateTo hargs (hst.trans htu)
  obtain ⟨v, q, happ, hrq, hP⟩ := hreturns r hur
  exact ⟨v, q, hfn.call hw hruns happ, htu.trans (hur.trans hrq), hP⟩

/-- A call whose only argument may be made for it. -/
theorem Yields.callNew {f a : Value} (hw : f.isFormWord = false)
    (hf : f.Yields e s fun t fn ↦ ∀ u v, t.Extends u → Q u v → fn.Returns u [v] P)
    (ha : a.Yields e s Q) : (list [f, a]).Yields e s P := by
  intro t hst
  obtain ⟨fn, u, hfn, htu, hreturns⟩ := hf t hst
  obtain ⟨v, r, hv, hur, hQ⟩ := ha u (hst.trans htu)
  obtain ⟨w, q, happ, hrq, hP⟩ := hreturns r v hur hQ r (.refl r)
  exact ⟨w, q, hfn.call hw (hv.cons (evaluateTo_nil e r)) happ, htu.trans (hur.trans hrq), hP⟩

/-- A call by name. -/
theorem yields_call {f : Symbol} {exprs : List Value} (hs : s.Shows e bs) (hf : (f, fn) ∈ bs)
    (hw : (symbol f).isFormWord = false) (hfn : fn.Returns s args P)
    (hargs : List.Forall₂ (fun expr v ↦ expr.Yields e s (Is v)) exprs args) :
    (list (symbol f :: exprs)).Yields e s P := by
  refine .call hw ((yields_symbol hs hf).imp fun t w ht hw ↦ ?_) hargs
  rw [hw]
  exact hfn.mono ht

theorem returns_primitive {p : Primitive} (h : ∀ mark, p.apply mark args = .ok v)
    (s : Store Node) : (primitive p).Returns s args (Is v) :=
  fun t _ ↦ ⟨v, _, applies_primitive (h t.marks), .newMark t, rfl⟩

/-- A call of a primitive by its own name. -/
theorem yields_primitive {p : Primitive} {exprs : List Value}
    (h : ∀ mark, p.apply mark args = .ok v) (hs : s.Shows e bs) (hp : (p.symbol, primitive p) ∈ bs)
    (hargs : List.Forall₂ (fun expr v ↦ expr.Yields e s (Is v)) exprs args) :
    (list (symbol p.symbol :: exprs)).Yields e s (Is v) := by
  have hw : (symbol p.symbol).isFormWord = false := by cases p <;> rfl
  exact yields_call hs hp hw (returns_primitive h s) hargs

/-- A closure returns what its body yields wherever its parameters and names are shown. -/
theorem returns_closure {params : List Symbol} {body : Value}
    (hfn : s.IsClosure fn params [body] e) (hs : s.Shows e bs) (hparams : params.Nodup)
    (hlength : params.length = args.length) (hbs : ∀ b ∈ bs, b.1 ∉ params)
    (h : ∀ t e', s.Extends t → t.Shows e' (params.zip args ++ bs) → body.Yields e' t P) :
    fn.Returns s args P := by
  intro t ht
  have hshows := (hs.mono ht).call hparams hlength hbs
  have hadd : t.Extends (t.pushEnv ⟨Frame.ofPairs ((params.map symbol).zip args), e⟩) :=
    .pushEnv (hs.mono ht).made
  obtain ⟨v, u, hrun, hu, hP⟩ := h _ _ (ht.trans hadd) hshows _ (.refl _)
  exact ⟨v, u, hrun.applies (hfn.mono ht) hlength, hadd.trans hu, hP⟩

/-- What an expression yields it evaluates to now. -/
theorem Yields.evaluate {expr : Value} (h : expr.Yields e s (Is v)) :
    ∃ t, EndsWith (fun limit ↦ Machine.evaluate limit expr e) s (.ok v t) ∧ s.Extends t := by
  obtain ⟨_, t, hrun, hst, rfl⟩ := h s (.refl s)
  exact ⟨t, hrun.evaluate, hst⟩

end Value

end ReverseLisp
