import ReverseLisp.Proofs.Link
import ReverseLisp.Store.Lemmas

/-!
# Linked stores

Two stores are linked if linked numbers stand for linked contents: environments with linked
enclosures and frames, closures with linked bodies and environments. What is found by a name in
linked environments is linked, and stores that are changed alike stay linked.
-/

namespace ReverseLisp

/-! ## Nodes -/

/-- Nodes that are the same up to linked numbers. -/
inductive Node.Linked (L : Link) : Node → Node → Prop where
  | literal {v w : Value} (h : v.Linked L w) : Linked L (literal v) (literal w)
  | lookup (x : Symbol) : Linked L (lookup x) (lookup x)
  | branch {test yes no test' yes' no' : Node} (ht : Linked L test test') (hy : Linked L yes yes')
      (hn : Linked L no no') : Linked L (branch test yes no) (branch test' yes' no')
  | define (x : Symbol) {n n' : Node} (h : Linked L n n') : Linked L (define x n) (define x n')
  | assign (x : Symbol) {n n' : Node} (h : Linked L n n') : Linked L (assign x n) (assign x n')
  | function (params : List Symbol) {n n' : Node} {source source' : List Value}
      (h : Linked L n n') (hs : List.Forall₂ (Value.Linked L) source source') :
    Linked L (function params n source) (function params n' source')
  | sequence {ns ns' : List Node} (hs : List.Forall₂ (Linked L) ns ns') :
    Linked L (sequence ns) (sequence ns')
  | application {n n' : Node} {ns ns' : List Node} (h : Linked L n n')
      (hs : List.Forall₂ (Linked L) ns ns') :
    Linked L (application n ns) (application n' ns')

namespace Node

theorem Linked.mono {L L' : Link} (hL : L.Le L') {n n' : Node} (h : Linked L n n') :
    Linked L' n n' := by
  have hvalues : ∀ {vs ws}, List.Forall₂ (Value.Linked L) vs ws →
      List.Forall₂ (Value.Linked L') vs ws := fun hs ↦ hs.imp fun _ _ ↦ Value.Linked.mono hL
  induction n using induction_children generalizing n' with
  | step n ih =>
    cases h with
    | literal hv => exact .literal (hv.mono hL)
    | lookup x => exact .lookup x
    | branch ht hy hn =>
      exact .branch (ih _ (by simp [children]) ht) (ih _ (by simp [children]) hy)
        (ih _ (by simp [children]) hn)
    | define x h => exact .define x (ih _ List.mem_cons_self h)
    | assign x h => exact .assign x (ih _ List.mem_cons_self h)
    | function params h hs => exact .function params (ih _ List.mem_cons_self h) (hvalues hs)
    | sequence hs => exact .sequence (forall₂_imp_of_mem hs fun n hn _ ↦ ih n hn)
    | application h hs =>
      refine .application (ih _ List.mem_cons_self h) ?_
      exact forall₂_imp_of_mem hs fun n hn _ ↦ ih n (List.mem_cons_of_mem _ hn)

/-- A node is linked to itself if the atoms in it are. -/
theorem linked_self {L : Link} {n : Node} (h : ∀ a ∈ n.atoms, L.Fixes a) : Linked L n n := by
  have hvalues : ∀ {vs}, (∀ a ∈ Value.atomsAll vs, L.Fixes a) →
      List.Forall₂ (Value.Linked L) vs vs := by
    intro vs hvs
    refine List.forall₂_same.2 fun v hv ↦ Value.linked_self fun a ha ↦ ?_
    exact hvs a (Value.mem_atomsAll_iff.2 ⟨v, hv, ha⟩)
  induction n using induction_children with
  | step n ih =>
    cases n with
    | literal v => exact .literal (Value.linked_self h)
    | lookup x => exact .lookup x
    | branch test yes no =>
      simp only [atoms, List.mem_append, or_imp, forall_and] at h
      exact .branch (ih _ (by simp [children]) h.1.1) (ih _ (by simp [children]) h.1.2)
        (ih _ (by simp [children]) h.2)
    | define x value => exact .define x (ih _ List.mem_cons_self h)
    | assign x value => exact .assign x (ih _ List.mem_cons_self h)
    | function params body source =>
      simp only [atoms, List.mem_append, or_imp, forall_and] at h
      exact .function params (ih _ List.mem_cons_self h.1) (hvalues h.2)
    | sequence nodes =>
      refine .sequence (List.forall₂_same.2 fun n hn ↦ ih n hn fun a ha ↦ ?_)
      exact h a (mem_atomsAll_iff.2 ⟨n, hn, ha⟩)
    | application operator operands =>
      simp only [atoms, List.mem_append, or_imp, forall_and] at h
      refine .application (ih _ List.mem_cons_self h.1) (List.forall₂_same.2 fun n hn ↦ ?_)
      refine ih n (List.mem_cons_of_mem _ hn) fun a ha ↦ ?_
      exact h.2 a (mem_atomsAll_iff.2 ⟨n, hn, ha⟩)

/-- Only such nodes are. -/
theorem Linked.fixes {L : Link} {n : Node} (h : Linked L n n) : ∀ a ∈ n.atoms, L.Fixes a := by
  induction n using induction_children with
  | step n ih =>
    intro a ha
    cases h with
    | literal hv => exact hv.fixes a ha
    | lookup x => cases ha
    | branch ht hy hn =>
      rcases List.mem_append.1 ha with ha | ha
      · rcases List.mem_append.1 ha with ha | ha
        · exact ih _ (by simp [children]) ht a ha
        · exact ih _ (by simp [children]) hy a ha
      · exact ih _ (by simp [children]) hn a ha
    | define x h => exact ih _ List.mem_cons_self h a ha
    | assign x h => exact ih _ List.mem_cons_self h a ha
    | function params h hs =>
      rcases List.mem_append.1 ha with ha | ha
      · exact ih _ List.mem_cons_self h a ha
      · obtain ⟨v, hv, ha⟩ := Value.mem_atomsAll_iff.1 ha
        exact (List.forall₂_same.1 hs v hv).fixes a ha
    | sequence hs =>
      obtain ⟨m, hm, ha⟩ := mem_atomsAll_iff.1 ha
      exact ih m hm (List.forall₂_same.1 hs m hm) a ha
    | application h hs =>
      rcases List.mem_append.1 ha with ha | ha
      · exact ih _ List.mem_cons_self h a ha
      · obtain ⟨m, hm, ha⟩ := mem_atomsAll_iff.1 ha
        exact ih m (List.mem_cons_of_mem _ hm) (List.forall₂_same.1 hs m hm) a ha

/-- Nodes linked by matching each number with itself are the same. -/
theorem Linked.eq {L : Link} (hL : L.IsIdentity) {n n' : Node} (h : Linked L n n') : n = n' := by
  induction n using induction_children generalizing n' with
  | step n ih =>
    cases h with
    | literal hv => rw [hv.eq hL]
    | lookup x => rfl
    | branch ht hy hn =>
      rw [ih _ (by simp [children]) ht, ih _ (by simp [children]) hy,
        ih _ (by simp [children]) hn]
    | define x h => rw [ih _ List.mem_cons_self h]
    | assign x h => rw [ih _ List.mem_cons_self h]
    | function params h hs =>
      rw [ih _ List.mem_cons_self h, eq_of_forall₂ hs fun _ _ _ hv ↦ hv.eq hL]
    | sequence hs => rw [eq_of_forall₂ hs fun m hm _ ↦ ih m hm]
    | application h hs =>
      rw [ih _ List.mem_cons_self h,
        eq_of_forall₂ hs fun m hm _ ↦ ih m (List.mem_cons_of_mem _ hm)]

end Node

/-! ## Frames -/

/-- Frames with the same names, in the same order, and with linked values. -/
def Frame.Linked (L : Link) (f g : Frame) : Prop :=
  List.Forall₂ (fun b c ↦ b.1 = c.1 ∧ Value.Linked L b.2 c.2) f.bindings g.bindings

theorem rel_cases {α δ : Type} {R : α → δ → Prop} {x : Option α} {y : Option δ}
    (h : Option.Rel R x y) :
    (x = none ∧ y = none) ∨ ∃ a b, x = some a ∧ y = some b ∧ R a b := by
  cases h with
  | none => exact .inl ⟨rfl, rfl⟩
  | some hab => exact .inr ⟨_, _, rfl, rfl, hab⟩

theorem rel_map {α δ α' δ' : Type} {R : α → δ → Prop} {S : α' → δ' → Prop} {x : Option α}
    {y : Option δ} {f : α → α'} {g : δ → δ'} (h : Option.Rel R x y)
    (hfg : ∀ a b, R a b → S (f a) (g b)) : Option.Rel S (x.map f) (y.map g) := by
  cases h with
  | none => exact .none
  | some hab => exact .some (hfg _ _ hab)

theorem rel_imp {α δ : Type} {R S : α → δ → Prop} {x : Option α} {y : Option δ}
    (h : Option.Rel R x y) (hRS : ∀ a b, R a b → S a b) : Option.Rel S x y := by
  cases h with
  | none => exact .none
  | some hab => exact .some (hRS _ _ hab)

/-- Searching linked lists by tests that agree finds linked items. -/
theorem find?_rel {α δ : Type} {R : α → δ → Prop} {as : List α} {bs : List δ} {p : α → Bool}
    {q : δ → Bool} (h : List.Forall₂ R as bs) (hpq : ∀ a b, R a b → p a = q b) :
    Option.Rel R (as.find? p) (bs.find? q) := by
  induction h with
  | nil => exact .none
  | @cons a b as bs hab _ ih =>
    rw [List.find?_cons, List.find?_cons, ← hpq a b hab]
    cases p a with
    | true => exact .some hab
    | false => exact ih

namespace Frame

variable {L L' : Link} {f g : Frame} {v w : Value}

theorem Linked.mono (hL : L.Le L') (h : f.Linked L g) : f.Linked L' g :=
  List.Forall₂.imp (fun _ _ hb ↦ ⟨hb.1, hb.2.mono hL⟩) h

theorem linked_self (h : ∀ b ∈ f.bindings, ∀ a ∈ b.2.atoms, L.Fixes a) : f.Linked L f :=
  List.forall₂_same.2 fun b hb ↦ ⟨rfl, Value.linked_self (h b hb)⟩

theorem Linked.get? (h : f.Linked L g) (x : Value) :
    Option.Rel (Value.Linked L) (f.get? x) (g.get? x) := by
  refine rel_map (find?_rel h ?_) fun _ _ hb ↦ hb.2
  intro b c hb
  rw [hb.1]

theorem Linked.binds_eq (h : f.Linked L g) (x : Value) : f.binds x = g.binds x := by
  rw [binds, binds]
  rcases rel_cases (h.get? x) with ⟨hf, hg⟩ | ⟨v, w, hf, hg, -⟩
  · rw [hf, hg]
  · rw [hf, hg, Option.isSome_some, Option.isSome_some]

theorem linked_setBinding {bs cs : List (Value × Value)} (x : Value) (hv : v.Linked L w)
    (h : List.Forall₂ (fun b c ↦ b.1 = c.1 ∧ Value.Linked L b.2 c.2) bs cs) :
    List.Forall₂ (fun b c ↦ b.1 = c.1 ∧ Value.Linked L b.2 c.2) (setBinding x v bs)
      (setBinding x w cs) := by
  induction h with
  | nil => exact .cons ⟨rfl, hv⟩ .nil
  | @cons b c bs cs hb hs ih =>
    rw [setBinding, setBinding, hb.1]
    split
    · exact .cons ⟨rfl, hv⟩ hs
    · exact .cons ⟨rfl, hb.2⟩ ih

theorem Linked.set (h : f.Linked L g) (x : Value) (hv : v.Linked L w) :
    (f.set x v).Linked L (g.set x w) :=
  linked_setBinding x hv h

theorem linked_ofPairs {params : List Symbol} {args args' : List Value}
    (h : List.Forall₂ (Value.Linked L) args args') :
    (ofPairs ((params.map .symbol).zip args)).Linked L
      (ofPairs ((params.map .symbol).zip args')) := by
  have hpairs : List.Forall₂ (fun b c ↦ b.1 = c.1 ∧ Value.Linked L b.2 c.2)
      ((params.map Value.symbol).zip args) ((params.map Value.symbol).zip args') := by
    induction h generalizing params with
    | nil => cases params <;> exact .nil
    | cons hv _ ih =>
      cases params with
      | nil => exact .nil
      | cons x xs => exact .cons ⟨rfl, hv⟩ ih
  have hempty : Frame.empty.Linked L Frame.empty := .nil
  refine List.rel_foldl ?_ hempty hpairs
  rintro f g hfg ⟨x, v⟩ ⟨_, w⟩ ⟨rfl, hv⟩
  exact hfg.set x hv

end Frame

/-! ## Stores -/

structure Env.Linked (L : Link) (env env' : Env) : Prop where
  enclosure : L.envs.Rel env.enclosure env'.enclosure
  frame : env.frame.Linked L env'.frame

structure Code.Linked (L : Link) (c d : Code Node) : Prop where
  body : c.body.Linked L d.body
  env : L.envs.Rel c.env d.env
  source : List.Forall₂ (Value.Linked L) c.source d.source

/-- Stores in which linked numbers stand for linked contents, or are both free. -/
structure Store.Linked (L : Link) (s t : Store Node) : Prop where
  env : ∀ {a b}, L.envs.Rel a b → Option.Rel (Env.Linked L) (s.env? a) (t.env? b)
  code : ∀ {i j}, L.codes.Rel i j → Option.Rel (Code.Linked L) s.codes[i]? t.codes[j]?

theorem Env.Linked.mono {L L' : Link} {env env' : Env} (hL : L.Le L') (h : env.Linked L env') :
    env.Linked L' env' :=
  ⟨hL.envs h.enclosure, h.frame.mono hL⟩

theorem Code.Linked.mono {L L' : Link} {c d : Code Node} (hL : L.Le L') (h : c.Linked L d) :
    c.Linked L' d :=
  ⟨h.body.mono hL, hL.envs h.env, h.source.imp fun _ _ hv ↦ hv.mono hL⟩

theorem Env.Linked.eq {L : Link} {env env' : Env} (hL : L.IsIdentity) (h : env.Linked L env') :
    env = env' := by
  obtain ⟨⟨bs⟩, a⟩ := env
  obtain ⟨⟨cs⟩, b⟩ := env'
  have hframe : bs = cs := eq_of_forall₂ h.frame fun _ _ _ hb ↦ Prod.ext hb.1 (hb.2.eq hL)
  have hencl : a = b := hL.envs h.enclosure
  rw [hframe, hencl]

theorem Code.Linked.eq {L : Link} {c d : Code Node} (hL : L.IsIdentity) (h : c.Linked L d) :
    c = d := by
  obtain ⟨body, a, source⟩ := c
  obtain ⟨body', b, source'⟩ := d
  have hbody : body = body' := h.body.eq hL
  have henv : a = b := hL.envs h.env
  have hsource : source = source' := eq_of_forall₂ h.source fun _ _ _ hv ↦ hv.eq hL
  rw [hbody, henv, hsource]

namespace Store

variable {L : Link} {s t : Store Node} {a b : EnvId}

/-! Walking outward and finding. -/

theorem Linked.chain (h : s.Linked L t) (hab : L.envs.Rel a b) :
    List.Forall₂ L.envs.Rel (s.chain a) (t.chain b) := by
  induction a using Nat.strongRecOn generalizing b with
  | _ a ih =>
    rcases rel_cases (h.env hab) with ⟨hs, ht⟩ | ⟨env, env', hs, ht, henv⟩
    · rw [chain_of_env?_eq_none hs, chain_of_env?_eq_none ht]
      exact .nil
    · rw [chain_of_env? hs, chain_of_env? ht]
      -- links keep the order, so both walks go on or both stop
      have hiff := L.envs.lt_iff_lt henv.enclosure hab
      by_cases hlt : env.enclosure < a
      · rw [if_pos hlt, if_pos (hiff.1 hlt)]
        exact .cons hab (ih _ hlt henv.enclosure)
      · rw [if_neg hlt, if_neg (hiff.not.1 hlt)]
        exact .cons hab .nil

theorem Linked.binds_eq (h : s.Linked L t) (hab : L.envs.Rel a b) (x : Value) :
    s.binds a x = t.binds b x := by
  rw [binds, binds]
  rcases rel_cases (h.env hab) with ⟨hs, ht⟩ | ⟨env, env', hs, ht, henv⟩
  · rw [hs, ht]
  · rw [hs, ht]
    exact henv.frame.binds_eq x

theorem Linked.find? (h : s.Linked L t) (hab : L.envs.Rel a b) (x : Value) :
    Option.Rel L.envs.Rel (s.find? a x) (t.find? b x) :=
  find?_rel (h.chain hab) fun _ _ hab ↦ h.binds_eq hab x

theorem Linked.value? (h : s.Linked L t) (hab : L.envs.Rel a b) (x : Value) :
    Option.Rel (Value.Linked L) (s.value? a x) (t.value? b x) := by
  rw [Store.value?, Store.value?]
  rcases rel_cases (h.find? hab x) with ⟨hs, ht⟩ | ⟨a', b', hs, ht, hab'⟩
  · rw [hs, ht]
    exact .none
  · rw [hs, ht]
    rcases rel_cases (h.env hab') with ⟨hs, ht⟩ | ⟨env, env', hs, ht, henv⟩
    · simp only [Option.bind_eq_bind, Option.bind_some, hs, ht]
      exact .none
    · simp only [Option.bind_eq_bind, Option.bind_some, hs, ht]
      exact henv.frame.get? x

/-! Changing linked stores alike keeps them linked. -/

theorem Linked.put (h : s.Linked L t) (hab : L.envs.Rel a b) (x : Value) {v w : Value}
    (hv : v.Linked L w) : (s.put a x v).Linked L (t.put b x w) where
  env := by
    intro a' b' hab'
    rw [env?_put, env?_put]
    -- links are one-to-one, so an environment is the changed one on both sides or on neither
    have hiff := L.envs.eq_iff_eq hab' hab
    by_cases heq : a' = a
    · rw [if_pos heq, if_pos (hiff.1 heq)]
      exact rel_map (h.env hab') fun _ _ henv ↦ ⟨henv.enclosure, henv.frame.set x hv⟩
    · rw [if_neg heq, if_neg (hiff.not.1 heq)]
      exact h.env hab'
  code := by
    intro i j hij
    rw [codes_put, codes_put]
    exact h.code hij

theorem Linked.pushEnv (h : s.Linked L t) (hnext : L.envs.Rel s.nextEnv t.nextEnv)
    {env env' : Env} (henv : env.Linked L env') :
    (s.pushEnv env).Linked L (t.pushEnv env') where
  env := by
    intro a b hab
    rw [env?_pushEnv, env?_pushEnv]
    have hiff := L.envs.eq_iff_eq hab hnext
    by_cases heq : a = s.nextEnv
    · rw [if_pos heq, if_pos (hiff.1 heq)]
      exact .some henv
    · rw [if_neg heq, if_neg (hiff.not.1 heq)]
      exact h.env hab
  code := h.code

theorem Linked.pushCode (h : s.Linked L t) (hnext : L.codes.Rel s.codes.size t.codes.size)
    {c d : Code Node} (hcode : c.Linked L d) :
    Linked L { s with codes := s.codes.push c } { t with codes := t.codes.push d } where
  env := by
    intro a b hab
    exact h.env hab
  code := by
    intro i j hij
    rw [Array.getElem?_push, Array.getElem?_push]
    have hiff := L.codes.eq_iff_eq hij hnext
    by_cases heq : i = s.codes.size
    · rw [if_pos heq, if_pos (hiff.1 heq)]
      exact .some hcode
    · rw [if_neg heq, if_neg (hiff.not.1 heq)]
      exact h.code hij

end Store

end ReverseLisp
