import ReverseLisp.Proofs.LinkedStores
import ReverseLisp.Proofs.Outcome
import ReverseLisp.Proofs.Reachability
import ReverseLisp.Session

/-!
# Two runs in step

The same program is run in two stores that are linked. Both runs do the same at every step: what
they read is linked, what they write is linked, they make environments and closures at the same
moments, and if one fails, the other fails with the same error. So the stores stay linked, by a link
that goes on with what has been made in step. Neither run changes an environment that is not linked,
and neither changes the code of a closure.

## Growing links

A link grows during a run, by `Link.Advance`: the numbers that the two runs have given out since
are matched in order, and nothing else is. What was linked stays linked, so a value can be carried
over whatever runs between its making and its use. `Action.Parallel L V x y` says that from stores
linked by `L`, the actions `x` and `y` come to stores that are linked by a link that `L` has
advanced to, with the same error or with results that this link matches.
-/

namespace ReverseLisp

/-! ## Advancing -/

namespace Matching

variable {M M' M'' : Matching} {m n m' n' m'' n'' : Nat}

/-- The matching has gone on in step, from `m` and `n` to `m'` and `n'`. -/
def Advance (M M' : Matching) (m n m' n' : Nat) : Prop :=
  ∃ k, m' = m + k ∧ n' = n + k ∧ ∀ a b, M'.Rel a b ↔ M.Rel a b ∨ ∃ i < k, a = m + i ∧ b = n + i

theorem Advance.refl (M : Matching) (m n : Nat) : M.Advance M m n m n :=
  ⟨0, rfl, rfl, fun a b ↦ by simp⟩

theorem Advance.le (h : M.Advance M' m n m' n') {a b : Nat} (hab : M.Rel a b) : M'.Rel a b := by
  obtain ⟨k, -, -, hiff⟩ := h
  exact (hiff a b).2 (.inl hab)

theorem Advance.trans (h : M.Advance M' m n m' n') (h' : M'.Advance M'' m' n' m'' n'') :
    M.Advance M'' m n m'' n'' := by
  obtain ⟨k, rfl, rfl, hk⟩ := h
  obtain ⟨l, rfl, rfl, hl⟩ := h'
  refine ⟨k + l, Nat.add_assoc m k l, Nat.add_assoc n k l, fun a b ↦ ?_⟩
  rw [hl, hk, or_assoc]
  refine or_congr_right ⟨?_, ?_⟩
  · rintro (⟨i, hi, rfl, rfl⟩ | ⟨i, hi, rfl, rfl⟩)
    · exact ⟨i, by omega, rfl, rfl⟩
    · exact ⟨k + i, by omega, by omega, by omega⟩
  · rintro ⟨i, hi, rfl, rfl⟩
    by_cases hik : i < k
    · exact .inl ⟨i, hik, rfl, rfl⟩
    · exact .inr ⟨i - k, by omega, by omega, by omega⟩

theorem advance_extend (h : M.Below m n) : M.Advance (M.extend m n h) m n (m + 1) (n + 1) :=
  ⟨1, rfl, rfl, fun a b ↦ by simp [extend]⟩

theorem Below.advance (h : M.Below m n) (hM : M.Advance M' m n m' n') : M'.Below m' n' := by
  obtain ⟨k, rfl, rfl, hiff⟩ := hM
  intro a b hab
  rcases (hiff a b).1 hab with hab | ⟨i, hi, rfl, rfl⟩
  · have := h a b hab
    omega
  · omega

end Matching

namespace Store

/-- The environments that are not in `A` are as they were, and so is the code of every closure.
Enclosures still come first. -/
structure Keeps (A : EnvId → Prop) (s t : Store Node) : Prop where
  env : ∀ a, ¬ A a → t.env? a = s.env? a
  code : ∀ (i : Nat) c, s.codes[i]? = some c → t.codes[i]? = some c
  ordered : s.Ordered → t.Ordered

variable {A : EnvId → Prop} {s t : Store Node}

theorem Keeps.refl (A : EnvId → Prop) (s : Store Node) : s.Keeps A s :=
  ⟨fun _ _ ↦ rfl, fun _ _ h ↦ h, id⟩

theorem Keeps.put (h : s.Keeps A t) {e : EnvId} (he : A e) (x v : Value) :
    s.Keeps A (t.put e x v) where
  env := by
    intro a ha
    rw [env?_put, if_neg (by rintro rfl; exact ha he)]
    exact h.env a ha
  code := by
    rw [codes_put]
    exact h.code
  ordered := by
    intro hs a env henv
    rw [env?_put] at henv
    by_cases hae : a = e
    · rw [if_pos hae] at henv
      obtain ⟨env', henv', rfl⟩ := Option.map_eq_some_iff.1 henv
      exact h.ordered hs a env' henv'
    · rw [if_neg hae] at henv
      exact h.ordered hs a env henv

theorem Keeps.pushEnv (h : s.Keeps A t) (hnext : A t.nextEnv) {env : Env}
    (henv : env.enclosure < t.nextEnv) : s.Keeps A (t.pushEnv env) where
  env := by
    intro a ha
    rw [env?_pushEnv, if_neg (by rintro rfl; exact ha hnext)]
    exact h.env a ha
  code := h.code
  ordered := by
    intro hs a env' henv'
    rw [env?_pushEnv] at henv'
    by_cases ha : a = t.nextEnv
    · rw [if_pos ha] at henv'
      cases henv'
      rw [ha]
      exact henv
    · rw [if_neg ha] at henv'
      exact h.ordered hs a env' henv'

theorem Keeps.pushCode (h : s.Keeps A t) (c : Code Node) :
    s.Keeps A { t with codes := t.codes.push c } where
  env := h.env
  code := by
    intro i d hd
    have hi := h.code i d hd
    obtain ⟨hlt, -⟩ := Array.getElem?_eq_some_iff.1 hi
    rw [Array.getElem?_push, if_neg (Nat.ne_of_lt hlt)]
    exact hi
  ordered := h.ordered

theorem Keeps.trans {B : EnvId → Prop} {u : Store Node} (hAB : ∀ a, A a → B a)
    (h : s.Keeps A t) (h' : t.Keeps B u) : s.Keeps B u where
  env a ha := (h'.env a ha).trans (h.env a fun hA ↦ ha (hAB a hA))
  code i c hc := h'.code i c (h.code i c hc)
  ordered hs := h'.ordered (h.ordered hs)

end Store

namespace Link

/-- All linked numbers have been given out. -/
structure Below (L : Link) (s t : Store Node) : Prop where
  envs : L.envs.Below s.nextEnv t.nextEnv
  codes : L.codes.Below s.codes.size t.codes.size
  marks : L.marks.Below s.marks t.marks

/-- The environments of the first store that are linked. -/
def Left (L : Link) (a : EnvId) : Prop := ∃ b, L.envs.Rel a b

/-- The environments of the second store that are linked. -/
def Right (L : Link) (b : EnvId) : Prop := ∃ a, L.envs.Rel a b

/-- While two runs go from `s` and `t` to `s'` and `t'`, the link has gone on in step, and only
linked environments have changed. -/
structure Advance (L L' : Link) (s t s' t' : Store Node) : Prop where
  envs : L.envs.Advance L'.envs s.nextEnv t.nextEnv s'.nextEnv t'.nextEnv
  codes : L.codes.Advance L'.codes s.codes.size t.codes.size s'.codes.size t'.codes.size
  marks : L.marks.Advance L'.marks s.marks t.marks s'.marks t'.marks
  left : s.Keeps L'.Left s'
  right : t.Keeps L'.Right t'

variable {L L' L'' : Link} {s t s' t' s'' t'' : Store Node}

theorem Advance.refl (L : Link) (s t : Store Node) : L.Advance L s t s t :=
  ⟨.refl _ _ _, .refl _ _ _, .refl _ _ _, .refl _ _, .refl _ _⟩

theorem Advance.put (L : Link) (s t : Store Node) {a b : EnvId} (hab : L.envs.Rel a b)
    (x v w : Value) : L.Advance L s t (s.put a x v) (t.put b x w) := by
  refine ⟨?_, ?_, ?_, ?_, ?_⟩
  · rw [Store.nextEnv_put, Store.nextEnv_put]
    exact .refl _ _ _
  · rw [Store.codes_put, Store.codes_put]
    exact .refl _ _ _
  · rw [Store.marks_put, Store.marks_put]
    exact .refl _ _ _
  · exact (Store.Keeps.refl _ s).put ⟨b, hab⟩ x v
  · exact (Store.Keeps.refl _ t).put ⟨a, hab⟩ x w

theorem Advance.le (h : L.Advance L' s t s' t') : L.Le L' := ⟨h.envs.le, h.codes.le, h.marks.le⟩

theorem Advance.trans (h : L.Advance L' s t s' t') (h' : L'.Advance L'' s' t' s'' t'') :
    L.Advance L'' s t s'' t'' where
  envs := h.envs.trans h'.envs
  codes := h.codes.trans h'.codes
  marks := h.marks.trans h'.marks
  left := h.left.trans (fun _ ⟨b, hab⟩ ↦ ⟨b, h'.le.envs hab⟩) h'.left
  right := h.right.trans (fun _ ⟨a, hab⟩ ↦ ⟨a, h'.le.envs hab⟩) h'.right

theorem Below.advance (h : L.Below s t) (hL : L.Advance L' s t s' t') : L'.Below s' t' :=
  ⟨h.envs.advance hL.envs, h.codes.advance hL.codes, h.marks.advance hL.marks⟩

/-- What has been given out remains so. -/
theorem Below.mono_left {L₁ : Link} {t₁ : Store Node} (h : L₁.Below s t₁)
    (hL : L.Advance L' s t s' t') : L₁.Below s' t₁ := by
  obtain ⟨k, hk, -, -⟩ := hL.envs
  obtain ⟨l, hl, -, -⟩ := hL.codes
  obtain ⟨m, hm, -, -⟩ := hL.marks
  exact ⟨h.envs.mono (by omega) (Nat.le_refl _), h.codes.mono (by omega) (Nat.le_refl _),
    h.marks.mono (by omega) (Nat.le_refl _)⟩

/-- The link that matches the next environments as well. -/
def addEnv (L : Link) (h : L.Below s t) : Link :=
  { L with envs := L.envs.extend _ _ h.envs, zero := .inl L.zero }

/-- The link that matches the next closures as well. -/
def addCode (L : Link) (h : L.Below s t) : Link :=
  { L with codes := L.codes.extend _ _ h.codes }

/-- The link that matches the next marks as well. -/
def addMark (L : Link) (h : L.Below s t) : Link :=
  { L with marks := L.marks.extend _ _ h.marks }

theorem le_addEnv (h : L.Below s t) : L.Le (L.addEnv h) := ⟨.inl, id, id⟩

theorem le_addCode (h : L.Below s t) : L.Le (L.addCode h) := ⟨id, .inl, id⟩

theorem le_addMark (h : L.Below s t) : L.Le (L.addMark h) := ⟨id, id, .inl⟩

theorem addEnv_next (h : L.Below s t) : (L.addEnv h).envs.Rel s.nextEnv t.nextEnv :=
  .inr ⟨rfl, rfl⟩

theorem addCode_next (h : L.Below s t) : (L.addCode h).codes.Rel s.codes.size t.codes.size :=
  .inr ⟨rfl, rfl⟩

theorem addMark_next (h : L.Below s t) : (L.addMark h).marks.Rel s.marks t.marks :=
  .inr ⟨rfl, rfl⟩

end Link

namespace Store.Linked

variable {L L' : Link} {s t : Store Node}

/-- A link may also match numbers that are free in both stores. -/
theorem of_le (h : s.Linked L t) (hL : L.Le L')
    (henvs : ∀ {a b}, L'.envs.Rel a b → L.envs.Rel a b ∨ s.env? a = none ∧ t.env? b = none)
    (hcodes : ∀ {i j}, L'.codes.Rel i j →
      L.codes.Rel i j ∨ s.codes[i]? = none ∧ t.codes[j]? = none) : s.Linked L' t where
  env := by
    intro a b hab
    rcases henvs hab with hab | ⟨hs, ht⟩
    · exact rel_imp (h.env hab) fun _ _ henv ↦ henv.mono hL
    · rw [hs, ht]
      exact .none
  code := by
    intro i j hij
    rcases hcodes hij with hij | ⟨hs, ht⟩
    · exact rel_imp (h.code hij) fun _ _ hcode ↦ hcode.mono hL
    · rw [hs, ht]
      exact .none

theorem addEnv (h : s.Linked L t) (hL : L.Below s t) : s.Linked (L.addEnv hL) t := by
  refine h.of_le (L.le_addEnv hL) ?_ .inl
  rintro a b (hab | ⟨rfl, rfl⟩)
  · exact .inl hab
  · exact .inr ⟨s.env?_nextEnv, t.env?_nextEnv⟩

theorem addCode (h : s.Linked L t) (hL : L.Below s t) : s.Linked (L.addCode hL) t := by
  refine h.of_le (L.le_addCode hL) .inl ?_
  rintro i j (hij | ⟨rfl, rfl⟩)
  · exact .inl hij
  · exact .inr ⟨Array.getElem?_eq_none (Nat.le_refl _), Array.getElem?_eq_none (Nat.le_refl _)⟩

theorem addMark (h : s.Linked L t) (hL : L.Below s t) : s.Linked (L.addMark hL) t :=
  h.of_le (L.le_addMark hL) .inl .inl

end Store.Linked

/-! ## Actions in step -/

variable {α δ α' δ' : Type}

/-- From stores linked by `L`, the actions come to stores linked by what `L` has advanced to, with
the same error or with results that match under the new link. -/
def Action.Parallel (L : Link) (V : Link → α → δ → Prop) (x : Action Node α)
    (y : Action Node δ) : Prop :=
  ∀ s t, L.Below s t → s.Linked L t →
    ∃ L', L.Advance L' s t (Outcome.store (x.run s)) (Outcome.store (y.run t)) ∧
      Outcome.Match (V L') (Store.Linked L') (x.run s) (y.run t)

namespace Action.Parallel

variable {L : Link} {V : Link → α → δ → Prop} {W : Link → α' → δ' → Prop}

theorem pure {a : α} {b : δ} (h : V L a b) : Parallel L V (Pure.pure a) (Pure.pure b) :=
  fun s t _ hst ↦ ⟨L, .refl L s t, .ok h hst⟩

theorem throw (err : Error) : Parallel L V (MonadExcept.throw err) (MonadExcept.throw err) :=
  fun s t _ hst ↦ ⟨L, .refl L s t, .error err hst⟩

/-- The second actions run under the link that the first have left. -/
theorem bind {x : Action Node α} {y : Action Node δ} {f : α → Action Node α'}
    {g : δ → Action Node δ'} (hxy : Parallel L V x y)
    (hfg : ∀ L', L.Le L' → ∀ a b, V L' a b → Parallel L' W (f a) (g b)) :
    Parallel L W (x >>= f) (y >>= g) := by
  intro s t hbelow hst
  obtain ⟨L', hL', hmatch⟩ := hxy s t hbelow hst
  rw [EStateM.run_bind, EStateM.run_bind]
  generalize x.run s = r at hL' hmatch
  generalize y.run t = r' at hL' hmatch
  cases hmatch with
  | error err hst' => exact ⟨L', hL', .error err hst'⟩
  | ok hab hst' =>
    obtain ⟨L'', hL'', hmatch⟩ := hfg L' hL'.le _ _ hab _ _ (hbelow.advance hL') hst'
    exact ⟨L'', hL'.trans hL'', hmatch⟩

/-- What does not depend on a store is the same in both runs. -/
theorem ofExcept {x : Except Error α} {P : α → Prop} (h : ∀ a, x = .ok a → P a) :
    Parallel L (fun _ a b ↦ a = b ∧ P a) (Action.ofExcept x) (Action.ofExcept x) := by
  cases x with
  | ok a => exact pure ⟨rfl, h a rfl⟩
  | error err => exact throw err

/-! The actions of a store. -/

variable {e e' : EnvId}

theorem lookup (he : L.envs.Rel e e') (x : Symbol) :
    Parallel L Value.Linked (Action.lookup e (.symbol x)) (Action.lookup e' (.symbol x)) := by
  intro s t _ hst
  refine ⟨L, ?_⟩
  rw [EStateM.run, EStateM.run, Action.lookup, Action.lookup]
  rcases rel_cases (hst.value? he (.symbol x)) with ⟨hs, ht⟩ | ⟨v, w, hs, ht, hv⟩
  · rw [hs, ht]
    exact ⟨.refl L s t, .error _ hst⟩
  · rw [hs, ht]
    exact ⟨.refl L s t, .ok hv hst⟩

theorem define (he : L.envs.Rel e e') (x : Symbol) {v w : Value} (hv : v.Linked L w) :
    Parallel L Value.Linked (Action.define e (.symbol x) v) (Action.define e' (.symbol x) w) := by
  intro s t _ hst
  refine ⟨L, ?_⟩
  rw [EStateM.run, EStateM.run, Action.define, Action.define]
  have hzero := L.eq_zero_iff he
  by_cases h0 : e = 0
  · rw [if_pos h0, if_pos (hzero.1 h0)]
    exact ⟨.refl L s t, .error _ hst⟩
  · rw [if_neg h0, if_neg (hzero.not.1 h0)]
    exact ⟨.put L s t he _ v w, .ok hv (hst.put he _ hv)⟩

theorem assign (he : L.envs.Rel e e') (x : Symbol) {v w : Value} (hv : v.Linked L w) :
    Parallel L Value.Linked (Action.assign e (.symbol x) v) (Action.assign e' (.symbol x) w) := by
  intro s t _ hst
  refine ⟨L, ?_⟩
  rw [EStateM.run, EStateM.run, Action.assign, Action.assign]
  rcases rel_cases (hst.find? he (.symbol x)) with ⟨hs, ht⟩ | ⟨a, b, hs, ht, hab⟩
  · rw [hs, ht]
    exact ⟨.refl L s t, .error _ hst⟩
  · rw [hs, ht]
    exact ⟨.put L s t hab _ v w, .ok hv (hst.put hab _ hv)⟩

theorem newEnv {f g : Frame} (hf : f.Linked L g) (he : L.envs.Rel e e') :
    Parallel L (fun L' ↦ L'.envs.Rel) (Action.newEnv f e) (Action.newEnv g e') := by
  intro s t hbelow hst
  -- the next numbers are matched while they are still free, and then filled
  have hnext := L.addEnv_next hbelow
  have henv : Env.Linked (L.addEnv hbelow) ⟨f, e⟩ ⟨g, e'⟩ :=
    ⟨(L.le_addEnv hbelow).envs he, hf.mono (L.le_addEnv hbelow)⟩
  refine ⟨L.addEnv hbelow, ⟨?_, .refl _ _ _, .refl _ _ _, ?_, ?_⟩, .ok hnext ?_⟩
  · show L.envs.Advance _ _ _ (s.pushEnv ⟨f, e⟩).nextEnv (t.pushEnv ⟨g, e'⟩).nextEnv
    rw [Store.nextEnv_pushEnv, Store.nextEnv_pushEnv]
    exact Matching.advance_extend hbelow.envs
  · exact (Store.Keeps.refl _ s).pushEnv ⟨_, hnext⟩ (hbelow.envs e e' he).1
  · exact (Store.Keeps.refl _ t).pushEnv ⟨_, hnext⟩ (hbelow.envs e e' he).2
  · exact (hst.addEnv hbelow).pushEnv hnext henv

theorem newClosure (params : List Symbol) {c d : Code Node} (hcode : c.Linked L d) :
    Parallel L Value.Linked (Action.newClosure params c) (Action.newClosure params d) := by
  intro s t hbelow hst
  have hnext := L.addCode_next hbelow
  refine ⟨L.addCode hbelow, ⟨.refl _ _ _, ?_, .refl _ _ _, ?_, ?_⟩, .ok (.closure params hnext) ?_⟩
  · show L.codes.Advance _ _ _ (s.codes.push c).size (t.codes.push d).size
    rw [Array.size_push, Array.size_push]
    exact Matching.advance_extend hbelow.codes
  · exact (Store.Keeps.refl _ s).pushCode c
  · exact (Store.Keeps.refl _ t).pushCode d
  · exact (hst.addCode hbelow).pushCode hnext (hcode.mono (L.le_addCode hbelow))

theorem code? {i j : Nat} (hij : L.codes.Rel i j) :
    Parallel L (fun L' ↦ Option.Rel (Code.Linked L')) (Action.code? i) (Action.code? j) :=
  fun s t _ hst ↦ ⟨L, .refl L s t, .ok (hst.code hij) hst⟩

theorem applyPrimitive (p : Primitive) {args args' : List Value}
    (hargs : List.Forall₂ (Value.Linked L) args args') :
    Parallel L Value.Linked (Action.applyPrimitive p args) (Action.applyPrimitive p args') := by
  intro s t hbelow hst
  -- a success takes a mark, whether or not the result bears it
  have hmark := L.addMark_next hbelow
  have hargs' := hargs.imp fun _ _ hv ↦ hv.mono (L.le_addMark hbelow)
  have halike := p.apply_alike hargs' (m := s.marks) (n := t.marks)
  rw [EStateM.run, EStateM.run, Action.applyPrimitive, Action.applyPrimitive]
  generalize p.apply s.marks args = r at halike
  generalize p.apply t.marks args' = r' at halike
  cases halike with
  | error err => exact ⟨L, .refl L s t, .error err hst⟩
  | ok hv =>
    refine ⟨L.addMark hbelow, ⟨.refl _ _ _, .refl _ _ _, ?_, ?_, ?_⟩, .ok (hv hmark) ?_⟩
    · exact Matching.advance_extend hbelow.marks
    · exact ⟨fun _ _ ↦ rfl, fun _ _ h ↦ h, id⟩
    · exact ⟨fun _ _ ↦ rfl, fun _ _ h ↦ h, id⟩
    · exact ⟨(hst.addMark hbelow).env, (hst.addMark hbelow).code⟩

/-- Calls of linked closures make linked environments. -/
theorem extend (he : L.envs.Rel e e') (params : List Symbol) {args args' : List Value}
    (hargs : List.Forall₂ (Value.Linked L) args args') :
    Parallel L (fun L' ↦ L'.envs.Rel) (Action.extend e (params.map .symbol) args)
      (Action.extend e' (params.map .symbol) args') := by
  rw [Action.extend, Action.extend, Frame.ofPairs?_symbols, Frame.ofPairs?_symbols,
    hargs.length_eq]
  split
  · exact newEnv (Frame.linked_ofPairs hargs) he
  · exact throw _

end Action.Parallel

/-! ## Runs in step -/

namespace Machine

open ReverseLisp.Action (Parallel)

variable {L : Link} {e e' : EnvId}

/-- Two ways of running nodes that do the same, under a link and under all that it advances to. -/
def Alongside (L : Link) (run run' : Node → Machine Value) : Prop :=
  ∀ L', L.Le L' → ∀ n n', n.Linked L' n' → Parallel L' Value.Linked (run n) (run' n')

theorem Alongside.mono {L' : Link} {run run' : Node → Machine Value} (h : Alongside L run run')
    (hL : L.Le L') : Alongside L' run run' :=
  fun L'' hL'' ↦ h L'' (hL.trans hL'')

theorem collect_parallel {run run' : Node → Machine Value} (h : Alongside L run run')
    {ns ns' : List Node} (hs : List.Forall₂ (Node.Linked L) ns ns') :
    Parallel L (fun L' ↦ List.Forall₂ (Value.Linked L')) (collect run ns) (collect run' ns') := by
  induction ns generalizing L ns' with
  | nil =>
    cases hs
    exact .pure .nil
  | cons n ns ih =>
    cases hs with
    | cons hn hs =>
      refine (h L (.refl L) _ _ hn).bind fun L' hL' v w hv ↦ ?_
      refine (ih (h.mono hL') (hs.imp fun _ _ hn ↦ hn.mono hL')).bind fun L'' hL'' vs ws hvs ↦ ?_
      exact .pure (.cons (hv.mono hL'') hvs)

theorem inOrder_parallel {run run' : Node → Machine Value} (h : Alongside L run run')
    {ns ns' : List Node} (hs : List.Forall₂ (Node.Linked L) ns ns') :
    Parallel L Value.Linked (inOrder run ns) (inOrder run' ns') := by
  induction ns generalizing L ns' with
  | nil =>
    cases hs
    exact .pure (.list .nil)
  | cons n ns ih =>
    cases hs with
    | cons hn hs =>
      cases hs with
      | nil => exact h L (.refl L) _ _ hn
      | cons hm hs =>
        refine (h L (.refl L) _ _ hn).bind fun L' hL' v w _ ↦ ?_
        exact ih (h.mono hL') ((List.Forall₂.cons hm hs).imp fun _ _ hn ↦ hn.mono hL')

theorem applyWith_parallel {run : Node → EnvId → Machine Value}
    (h : ∀ L', L.Le L' → ∀ n n' e e', n.Linked L' n' → L'.envs.Rel e e' →
      Parallel L' Value.Linked (run n e) (run n' e'))
    {fn fn' : Value} (hfn : fn.Linked L fn') {args args' : List Value}
    (hargs : List.Forall₂ (Value.Linked L) args args') :
    Parallel L Value.Linked (applyWith run fn args) (applyWith run fn' args') := by
  have hreject : ∀ L' mk, Parallel L' Value.Linked (throw (fn.errorShowing mk))
      (throw (fn'.errorShowing mk)) := by
    intro L' mk
    rw [hfn.errorShowing_eq]
    exact .throw _
  cases hfn with
  | closure params hij =>
    rw [applyWith, applyWith, hargs.length_eq]
    split
    · refine (Parallel.code? hij).bind fun L' hL' code code' hcode ↦ ?_
      cases hcode with
      | none => exact hreject L' _
      | some hcode =>
        have hargs' := hargs.imp fun _ _ hv ↦ hv.mono hL'
        refine (Parallel.extend hcode.env params hargs').bind fun L'' hL'' a b hab ↦ ?_
        exact h L'' (hL'.trans hL'') _ _ _ _ (hcode.body.mono hL'') hab
    · exact hreject L _
  | nan _ => exact hreject L _
  | list _ => exact hreject L _
  | fixed hv =>
    cases fn with
    | primitive p => exact .applyPrimitive p hargs
    | closure _ _ => cases hv
    | _ => exact .throw _

/-- Linked nodes, run in linked environments, do the same. -/
theorem run_parallel (limit : Nat) {n n' : Node} (hn : n.Linked L n') (he : L.envs.Rel e e') :
    Parallel L Value.Linked (run limit n e) (run limit n' e') := by
  -- the link is general, since it has grown by the time that the parts are run
  induction limit generalizing L n n' e e' with
  | zero => exact .throw _
  | succ limit ih =>
    have hside : Alongside L (run limit · e) (run limit · e') :=
      fun L' hL' n n' hn ↦ ih hn (hL'.envs he)
    rw [run.eq_def, run.eq_def]
    cases hn with
    | literal hv => exact .pure hv
    | lookup x => exact .lookup he x
    | branch ht hy hn =>
      refine (ih ht he).bind fun L' hL' v w hv ↦ ?_
      rw [hv.isFalse_eq]
      split
      · exact ih (hn.mono hL') (hL'.envs he)
      · exact ih (hy.mono hL') (hL'.envs he)
    | define x h => exact (ih h he).bind fun L' hL' v w hv ↦ .define (hL'.envs he) x hv
    | assign x h => exact (ih h he).bind fun L' hL' v w hv ↦ .assign (hL'.envs he) x hv
    | function params h hs => exact .newClosure params ⟨h, he, hs⟩
    | sequence hs => exact inOrder_parallel hside hs
    | application h hs =>
      refine (ih h he).bind fun L' hL' fn fn' hfn ↦ ?_
      have hs' := hs.imp fun _ _ hn ↦ hn.mono hL'
      refine (collect_parallel (hside.mono hL') hs').bind fun L'' hL'' args args' hargs ↦ ?_
      exact applyWith_parallel (fun _ _ _ _ _ _ hn he ↦ ih hn he) (hfn.mono hL'') hargs

/-! An expression is evaluated in step with itself if what is embedded in it stands for itself. -/

theorem analyze_parallel (limit : Nat) {expr : Value} (hexpr : ∀ a ∈ expr.atoms, L.Fixes a) :
    Parallel L Node.Linked (analyze limit expr) (analyze limit expr) := by
  have hself : ∀ n, expr.analyze = .ok n → n.Linked L n := fun n hn ↦
    Node.linked_self (Analysis.atoms_of_analyze (fun _ ↦ trivial) hn hexpr)
  refine (Parallel.ofExcept hself).bind ?_
  rintro L' hL' n _ ⟨rfl, hn⟩
  split
  · exact .throw _
  · exact .pure (hn.mono hL')

theorem evaluate_parallel (limit : Nat) {expr : Value} (hexpr : ∀ a ∈ expr.atoms, L.Fixes a)
    (he : L.envs.Rel e e') :
    Parallel L Value.Linked (evaluate limit expr e) (evaluate limit expr e') :=
  (analyze_parallel limit hexpr).bind fun _ hL' _ _ hn ↦ run_parallel limit hn (hL'.envs he)

theorem evaluateAll_parallel (limit : Nat) {exprs : List Value}
    (hexprs : ∀ expr ∈ exprs, expr.IsPlain) (he : L.envs.Rel e e') :
    Parallel L (fun L' ↦ List.Forall₂ (Value.Linked L')) (evaluateAll limit e exprs)
      (evaluateAll limit e' exprs) := by
  induction exprs generalizing L with
  | nil => exact .pure .nil
  | cons expr exprs ih =>
    have ⟨hexpr, hexprs⟩ := List.forall_mem_cons.1 hexprs
    refine (evaluate_parallel limit (hexpr.fixes L) he).bind fun L' hL' v w hv ↦ ?_
    refine (ih hexprs (hL'.envs he)).bind fun L'' hL'' vs ws hvs ↦ ?_
    exact .pure (.cons (hv.mono hL'') hvs)

theorem evaluateText_parallel (limit : Nat) (program : String) (he : L.envs.Rel e e') :
    Parallel L (fun L' ↦ List.Forall₂ (Value.Linked L')) (evaluateText limit e program)
      (evaluateText limit e' program) := by
  rw [evaluateText, evaluateText]
  split
  · have hplain : ∀ exprs, read program = .ok exprs → ∀ expr ∈ exprs, expr.IsPlain :=
      fun _ h _ hexpr ↦ isPlain_of_read h hexpr
    refine (Parallel.ofExcept hplain).bind ?_
    rintro L' hL' exprs _ ⟨rfl, hexprs⟩
    exact evaluateAll_parallel limit hexprs (hL'.envs he)
  · exact .throw _

theorem load_parallel (limit : Nat) (programs : List String) (he : L.envs.Rel e e') :
    Parallel L (fun _ ↦ Eq) (load limit e programs) (load limit e' programs) := by
  induction programs generalizing L with
  | nil => exact .pure rfl
  | cons program programs ih =>
    exact (evaluateText_parallel limit program he).bind fun _ hL' _ _ _ ↦ ih (hL'.envs he)

end Machine

/-- New global environments are made in step. -/
theorem Action.newGlobal_parallel (L : Link) :
    Action.Parallel L (fun L' ↦ L'.envs.Rel) Action.newGlobal Action.newGlobal := by
  have hbase : Frame.base.Linked L Frame.base := by
    have hfixed : ∀ b ∈ Frame.base.bindings, b.2.IsPlain := by decide
    exact Frame.linked_self fun b hb ↦ (hfixed b hb).fixes L
  refine (Parallel.newEnv hbase L.zero).bind fun L' _ a b hab ↦ ?_
  exact Parallel.newEnv .nil hab

end ReverseLisp
