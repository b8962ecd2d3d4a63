import ReverseLisp.Proofs.Growth
import ReverseLisp.Proofs.Interleaving

/-!
# Unreachable environments do not interfere

Evaluating an expression in an environment neither changes nor looks at an environment that cannot
be reached from them. Such an environment keeps its frame, and the evaluation would go the same way
whatever the frame held. What can be reached afterwards could be reached before, or is new.

## The argument

Take a closed set of places and a second store that agrees with the first on it. The stores are
linked by matching every place of the set with itself. Runs in step give out numbers in the same
order, and the stores started with the same counters. So the link goes on matching places with
themselves: those of the set, and the new ones. This has three uses. With what can be reached for
the set, it bounds what a run reads and writes. A store linked with itself is closed under what the
link matches, which bounds what can be reached afterwards. And with all that a store has made for
the set, it shows that evaluation keeps stores well-formed.
-/

namespace ReverseLisp

/-! ## Links that match places with themselves -/

/-- Whether a place stands for itself. -/
def Link.FixesPlace (L : Link) : Place → Prop
  | .env a => L.envs.Rel a a
  | .code i => L.codes.Rel i i
  | .mark m => L.marks.Rel m m

theorem Link.fixes_iff {L : Link} {a : Value} :
    L.Fixes a ↔ ∀ p, a.place? = some p → L.FixesPlace p := by
  cases a with
  | closure id params => exact ⟨fun h _ ↦ by rintro ⟨⟩; exact h, fun h ↦ h _ rfl⟩
  | nan mark => exact ⟨fun h _ ↦ by rintro ⟨⟩; exact h, fun h ↦ h _ rfl⟩
  | _ => exact ⟨fun _ _ h ↦ (nomatch h), fun _ ↦ trivial⟩

theorem Link.forall_fixes_iff {L : Link} {as : List Value} :
    (∀ a ∈ as, L.Fixes a) ↔ ∀ p ∈ as.filterMap Value.place?, L.FixesPlace p := by
  constructor
  · intro h p hp
    obtain ⟨a, ha, hap⟩ := List.mem_filterMap.1 hp
    exact Link.fixes_iff.1 (h a ha) p hap
  · exact fun h a ha ↦ Link.fixes_iff.2 fun p hap ↦ h p (List.mem_filterMap.2 ⟨a, ha, hap⟩)

/-- A value stands for itself if what it refers to does. -/
theorem Value.linked_self_iff {L : Link} {v : Value} :
    v.Linked L v ↔ ∀ p ∈ v.places, L.FixesPlace p :=
  ⟨fun h ↦ Link.forall_fixes_iff.1 h.fixes, fun h ↦ linked_self (Link.forall_fixes_iff.2 h)⟩

theorem Env.linked_self_iff {L : Link} {env : Env} :
    env.Linked L env ↔ ∀ p ∈ env.references, L.FixesPlace p := by
  rw [references, List.forall_mem_cons]
  constructor
  · refine fun h ↦ ⟨h.enclosure, fun p hp ↦ ?_⟩
    obtain ⟨b, hb, hp⟩ := List.mem_flatMap.1 hp
    exact Value.linked_self_iff.1 (List.forall₂_same.1 h.frame b hb).2 p hp
  · refine fun ⟨hencl, h⟩ ↦ ⟨hencl, List.forall₂_same.2 fun b hb ↦ ⟨rfl, ?_⟩⟩
    exact Value.linked_self_iff.2 fun p hp ↦ h p (List.mem_flatMap.2 ⟨b, hb, hp⟩)

theorem Code.linked_self_iff {L : Link} {c : Code Node} :
    c.Linked L c ↔ ∀ p ∈ c.references, L.FixesPlace p := by
  rw [references, List.forall_mem_cons, ← Link.forall_fixes_iff, List.forall_mem_append]
  constructor
  · refine fun h ↦ ⟨h.env, h.body.fixes, fun a ha ↦ ?_⟩
    obtain ⟨v, hv, ha⟩ := Value.mem_atomsAll_iff.1 ha
    exact (List.forall₂_same.1 h.source v hv).fixes a ha
  · refine fun ⟨henv, hbody, h⟩ ↦ ⟨Node.linked_self hbody, henv, ?_⟩
    refine List.forall₂_same.2 fun v hv ↦ Value.linked_self fun a ha ↦ ?_
    exact h a (Value.mem_atomsAll_iff.2 ⟨v, hv, ha⟩)

/-- In a store that is linked with itself, what stands for itself is closed. -/
theorem Store.Linked.closed {L : Link} {s : Store Node} (h : s.Linked L s) :
    s.Closed L.FixesPlace := by
  intro p hp q hq
  cases p with
  | env a =>
    have hrel := h.env hp
    rw [references] at hq
    cases henv : s.env? a with
    | none =>
      rw [henv] at hq
      cases hq
    | some env =>
      rw [henv] at hq hrel
      cases hrel with
      | some hself => exact Env.linked_self_iff.1 hself q hq
  | code i =>
    have hrel := h.code hp
    rw [references] at hq
    cases hc : s.codes[i]? with
    | none =>
      rw [hc] at hq
      cases hq
    | some c =>
      rw [hc] at hq hrel
      cases hrel with
      | some hself => exact Code.linked_self_iff.1 hself q hq
  | mark m => cases hq

/-- Matches the places with a property with themselves. -/
def Link.ofPlaces (R : Place → Prop) (hzero : R (.env 0)) : Link where
  envs := .diagonal fun a ↦ R (.env a)
  codes := .diagonal fun i ↦ R (.code i)
  marks := .diagonal fun m ↦ R (.mark m)
  zero := ⟨rfl, hzero⟩

variable {R : Place → Prop} {hzero : R (.env 0)} {s t s' t' : Store Node}

theorem Link.fixesPlace_ofPlaces {p : Place} (hp : R p) : (Link.ofPlaces R hzero).FixesPlace p := by
  cases p <;> exact ⟨rfl, hp⟩

/-! ## Stores that agree -/

/-- The stores have the same counters and the same contents at certain places. -/
structure Store.AgreesOn (R : Place → Prop) (s t : Store Node) : Prop where
  nextEnv_eq : t.nextEnv = s.nextEnv
  size_codes_eq : t.codes.size = s.codes.size
  marks_eq : t.marks = s.marks
  env : ∀ a, R (.env a) → t.env? a = s.env? a
  code : ∀ i, R (.code i) → t.codes[i]? = s.codes[i]?

namespace Store

theorem AgreesOn.refl (R : Place → Prop) (s : Store Node) : AgreesOn R s s :=
  ⟨rfl, rfl, rfl, fun _ _ ↦ rfl, fun _ _ ↦ rfl⟩

theorem AgreesOn.below (h : AgreesOn R s t) (hR : ∀ p, R p → s.Holds p) :
    (Link.ofPlaces R hzero).Below s t where
  envs := by
    rintro a _ ⟨rfl, ha⟩
    rw [h.nextEnv_eq]
    exact ⟨hR _ ha, hR _ ha⟩
  codes := by
    rintro i _ ⟨rfl, hi⟩
    rw [h.size_codes_eq]
    exact ⟨hR _ hi, hR _ hi⟩
  marks := by
    rintro m _ ⟨rfl, hm⟩
    rw [h.marks_eq]
    exact ⟨hR _ hm, hR _ hm⟩

/-- What a place of a closed set holds refers to places of the set only. -/
theorem AgreesOn.linked (h : AgreesOn R s t) (hR : s.Closed R) :
    s.Linked (Link.ofPlaces R hzero) t where
  env := by
    rintro a _ ⟨rfl, ha⟩
    have hrefs := hR _ ha
    rw [references] at hrefs
    rw [h.env a ha]
    cases henv : s.env? a with
    | none => exact .none
    | some env =>
      rw [henv] at hrefs
      exact .some (Env.linked_self_iff.2 fun p hp ↦ Link.fixesPlace_ofPlaces (hrefs p hp))
  code := by
    rintro i _ ⟨rfl, hi⟩
    have hrefs := hR _ hi
    rw [references] at hrefs
    rw [h.code i hi]
    cases hc : s.codes[i]? with
    | none => exact .none
    | some c =>
      rw [hc] at hrefs
      exact .some (Code.linked_self_iff.2 fun p hp ↦ Link.fixesPlace_ofPlaces (hrefs p hp))

end Store

/-! ## Where such links go -/

/-- From equal counters, the numbers given out since are matched with themselves. -/
theorem Matching.Advance.rel_iff_of_diagonal {P : Nat → Prop} {M : Matching} {m m' n' : Nat}
    (h : (diagonal P).Advance M m m m' n') {a b : Nat} :
    M.Rel a b ↔ a = b ∧ (P a ∨ ¬ a < m ∧ a < m') := by
  obtain ⟨k, rfl, -, hiff⟩ := h
  rw [hiff]
  constructor
  · rintro (⟨rfl, ha⟩ | ⟨i, hi, rfl, rfl⟩)
    · exact ⟨rfl, .inl ha⟩
    · exact ⟨rfl, .inr (by omega)⟩
  · rintro ⟨rfl, ha | ha⟩
    · exact .inl ⟨rfl, ha⟩
    · exact .inr ⟨a - m, by omega, by omega, by omega⟩

theorem Matching.Advance.eq_of_eq {M M' : Matching} {m n m' n' : Nat}
    (h : M.Advance M' m n m' n') (hmn : n = m) : n' = m' := by
  obtain ⟨k, rfl, rfl, -⟩ := h
  rw [hmn]

namespace Link

variable {L : Link}

theorem Advance.isIdentity (hL : (ofPlaces R hzero).Advance L s t s' t')
    (h : s.AgreesOn R t) : L.IsIdentity := by
  obtain ⟨henvs, hcodes, hmarks, -, -⟩ := hL
  rw [h.nextEnv_eq] at henvs
  rw [h.size_codes_eq] at hcodes
  rw [h.marks_eq] at hmarks
  exact ⟨fun hr ↦ (henvs.rel_iff_of_diagonal.1 hr).1, fun hr ↦ (hcodes.rel_iff_of_diagonal.1 hr).1,
    fun hr ↦ (hmarks.rel_iff_of_diagonal.1 hr).1⟩

/-- Places stand for themselves if they did so before, or are new. -/
theorem Advance.fixesPlace_iff (hL : (ofPlaces R hzero).Advance L s t s' t')
    (h : s.AgreesOn R t) {p : Place} :
    L.FixesPlace p ↔ R p ∨ ¬ s.Holds p ∧ s'.Holds p := by
  obtain ⟨henvs, hcodes, hmarks, -, -⟩ := hL
  rw [h.nextEnv_eq] at henvs
  rw [h.size_codes_eq] at hcodes
  rw [h.marks_eq] at hmarks
  cases p with
  | env a => exact henvs.rel_iff_of_diagonal.trans (and_iff_right rfl)
  | code i => exact hcodes.rel_iff_of_diagonal.trans (and_iff_right rfl)
  | mark m => exact hmarks.rel_iff_of_diagonal.trans (and_iff_right rfl)

/-- The stores come to agree on what is new as well. -/
theorem Advance.agreesOn (hL : (ofPlaces R hzero).Advance L s t s' t') (h : s.AgreesOn R t)
    (hst : s'.Linked L t') : s'.AgreesOn (fun p ↦ R p ∨ ¬ s.Holds p) t' := by
  have hid := hL.isIdentity h
  have hnextEnv : t'.nextEnv = s'.nextEnv := hL.envs.eq_of_eq h.nextEnv_eq
  have hsize : t'.codes.size = s'.codes.size := hL.codes.eq_of_eq h.size_codes_eq
  -- a place that does not stand for itself has not been made in either run
  have hfixes : ∀ {p}, R p ∨ ¬ s.Holds p → L.FixesPlace p ∨ ¬ s'.Holds p := by
    intro p hp
    rw [hL.fixesPlace_iff h]
    tauto
  refine ⟨hnextEnv, hsize, hL.marks.eq_of_eq h.marks_eq, fun a ha ↦ ?_, fun i hi ↦ ?_⟩
  · rcases hfixes ha with hfix | hfree
    · rcases rel_cases (hst.env hfix) with ⟨hs, ht⟩ | ⟨env, env', hs, ht, henv⟩
      · rw [hs, ht]
      · rw [hs, ht, henv.eq hid]
    · have hle : s'.nextEnv ≤ a := Nat.not_lt.1 hfree
      rw [Store.env?_eq_none_iff.2 (.inr hle), Store.env?_eq_none_iff.2 (.inr (hnextEnv ▸ hle))]
  · rcases hfixes hi with hfix | hfree
    · rcases rel_cases (hst.code hfix) with ⟨hs, ht⟩ | ⟨c, d, hs, ht, hcode⟩
      · rw [hs, ht]
      · rw [hs, ht, hcode.eq hid]
    · have hle : s'.codes.size ≤ i := Nat.not_lt.1 hfree
      rw [Array.getElem?_eq_none hle, Array.getElem?_eq_none (hsize ▸ hle)]

end Link

/-! ## Well-formed stores stay so -/

/-- What has been made remains. -/
theorem Link.Advance.holds {L L' : Link} (hL : L.Advance L' s t s' t') {p : Place}
    (hp : s.Holds p) : s'.Holds p := by
  obtain ⟨k, hk, -, -⟩ := hL.envs
  obtain ⟨l, hl, -, -⟩ := hL.codes
  obtain ⟨m, hm, -, -⟩ := hL.marks
  cases p with
  | env a => exact Nat.lt_of_lt_of_le hp (hk ▸ Nat.le_add_right _ _)
  | code i => exact Nat.lt_of_lt_of_le hp (hl ▸ Nat.le_add_right _ _)
  | mark n => exact Nat.lt_of_lt_of_le hp (hm ▸ Nat.le_add_right _ _)

/-- An action that can be done in step with itself, in a well-formed store, comes to a link that
matches all that has been made, and nothing else. -/
theorem Store.WellFormed.exists_link (hs : s.WellFormed) {α : Type} {V : Link → α → α → Prop}
    {x : Action Node α} (hx : Action.Parallel (.ofPlaces s.Holds (Nat.succ_pos _)) V x x) :
    ∃ L, (Link.ofPlaces s.Holds (Nat.succ_pos _)).Advance L s s (Outcome.store (EStateM.run x s))
        (Outcome.store (EStateM.run x s)) ∧
      L.FixesPlace = (Outcome.store (EStateM.run x s)).Holds ∧
      Outcome.Match (V L) (Store.Linked L) (EStateM.run x s) (EStateM.run x s) := by
  have hagree := AgreesOn.refl s.Holds s
  obtain ⟨L, hL, hmatch⟩ := hx s s (hagree.below fun _ ↦ id) (hagree.linked hs.closed)
  refine ⟨L, hL, funext fun p ↦ ?_, hmatch⟩
  rw [hL.fixesPlace_iff hagree]
  by_cases hp : s.Holds p
  · simp [hp, hL.holds hp]
  · simp [hp]

/-- Such an action keeps a store well-formed. -/
theorem Store.WellFormed.perform (hs : s.WellFormed) {α : Type} {V : Link → α → α → Prop}
    {x : Action Node α} (hx : Action.Parallel (.ofPlaces s.Holds (Nat.succ_pos _)) V x x) :
    (Outcome.store (EStateM.run x s)).WellFormed := by
  obtain ⟨L, hL, hfixes, hmatch⟩ := hs.exists_link hx
  refine ⟨hL.left.ordered hs.ordered, ?_⟩
  rw [← hfixes]
  exact hmatch.store.closed

/-- The global environment of a session stands for itself. -/
theorem Session.Reachable.rel_env {s : Session} (h : s.Reachable) :
    (Link.ofPlaces s.store.Holds (Nat.succ_pos _)).envs.Rel s.env s.env := by
  obtain ⟨env, -, hsome, -⟩ := h.hasBase
  exact ⟨rfl, Store.lt_nextEnv_of_env? hsome⟩

/-- The stores of sessions are well-formed. -/
theorem Session.Reachable.wellFormed {s : Session} (h : s.Reachable) : s.store.WellFormed := by
  induction h with
  | start limit => exact Store.wellFormed_empty.perform (Action.newGlobal_parallel _)
  | evalAll program hs ih =>
    rw [Session.evalAll, perform_snd]
    exact ih.perform (Machine.evaluateText_parallel _ program hs.rel_env)
  | load programs hs ih =>
    rw [Session.load, perform_snd]
    exact ih.perform (Machine.load_parallel _ programs hs.rel_env)

/-! ## Evaluation -/

/-- The value that an evaluation ended with, if it did not fail. -/
def Outcome.values {β : Type} : Outcome β Value → List Value
  | .ok v _ => [v]
  | .error _ _ => []

namespace Machine

variable {e : EnvId} {expr : Value}

/-- Evaluations in stores that agree on what can be reached are in step. -/
theorem exists_link_of_agreesOn (hs : s.WellFormed) (he : e < s.nextEnv)
    (hexpr : ∀ p ∈ expr.places, s.Holds p) (ht : s.AgreesOn (s.Reaches e [expr]) t)
    (limit : Nat) :
    ∃ hzero L, (Link.ofPlaces (s.Reaches e [expr]) hzero).Advance L s t
        (Outcome.store (EStateM.run (evaluate limit expr e) s))
        (Outcome.store (EStateM.run (evaluate limit expr e) t)) ∧
      Outcome.Match (Value.Linked L) (Store.Linked L) (EStateM.run (evaluate limit expr e) s)
        (EStateM.run (evaluate limit expr e) t) := by
  have hzero : s.Reaches e [expr] (.env 0) := hs.reaches_zero he .env
  have hholds : ∀ p, s.Reaches e [expr] p → s.Holds p := by
    refine fun p ↦ hs.closed.of_reaches he fun v hv ↦ ?_
    rw [List.mem_singleton.1 hv]
    exact hexpr
  have hfixes : ∀ a ∈ expr.atoms, (Link.ofPlaces (s.Reaches e [expr]) hzero).Fixes a :=
    Link.forall_fixes_iff.2 fun p hp ↦ Link.fixesPlace_ofPlaces (.value List.mem_cons_self hp)
  obtain ⟨L, hL, hmatch⟩ := evaluate_parallel limit hfixes ⟨rfl, .env⟩ s t
    (ht.below hholds) (ht.linked (s.closed_reaches e [expr]))
  exact ⟨hzero, L, hL, hmatch⟩

/-- What cannot be reached keeps its frame. -/
theorem env?_evaluate_of_not_reaches (hs : s.WellFormed) (he : e < s.nextEnv)
    (hexpr : ∀ p ∈ expr.places, s.Holds p) (limit : Nat) {a : EnvId} (hlt : a < s.nextEnv)
    (ha : ¬ s.Reaches e [expr] (.env a)) :
    (Outcome.store (EStateM.run (evaluate limit expr e) s)).env? a = s.env? a := by
  have hagree := Store.AgreesOn.refl (s.Reaches e [expr]) s
  obtain ⟨hzero, L, hL, -⟩ := exists_link_of_agreesOn hs he hexpr hagree limit
  refine hL.left.env a ?_
  rintro ⟨b, hab⟩
  cases (hL.isIdentity hagree).envs hab
  rcases (hL.fixesPlace_iff hagree).1 (show L.FixesPlace (.env a) from hab) with hreach | ⟨hnew, -⟩
  · exact ha hreach
  · exact hnew hlt

/-- What can be reached afterwards could be reached before, or is new. -/
theorem reaches_of_reaches_evaluate (hs : s.WellFormed) (he : e < s.nextEnv)
    (hexpr : ∀ p ∈ expr.places, s.Holds p) (limit : Nat) {p : Place}
    (hp : (Outcome.store (EStateM.run (evaluate limit expr e) s)).Reaches e
      (Outcome.values (EStateM.run (evaluate limit expr e) s)) p) :
    s.Reaches e [expr] p ∨ ¬ s.Holds p := by
  have hagree := Store.AgreesOn.refl (s.Reaches e [expr]) s
  obtain ⟨hzero, L, hL, hmatch⟩ := exists_link_of_agreesOn hs he hexpr hagree limit
  have hvalues : ∀ v ∈ Outcome.values (EStateM.run (evaluate limit expr e) s), v.Linked L v := by
    generalize EStateM.run (evaluate limit expr e) s = r at hmatch
    intro v hv
    cases r with
    | error err s' => cases hv
    | ok w s' =>
      cases hmatch with
      | ok hw _ =>
        rw [List.mem_singleton.1 hv]
        exact hw
  have hfixes : L.FixesPlace p :=
    hmatch.store.closed.of_reaches (hL.le.envs ⟨rfl, .env⟩)
      (fun v hv ↦ Value.linked_self_iff.1 (hvalues v hv)) hp
  exact ((hL.fixesPlace_iff hagree).1 hfixes).imp_right And.left

/-- What cannot be reached does not matter. -/
theorem evaluate_of_agreesOn (hs : s.WellFormed) (he : e < s.nextEnv)
    (hexpr : ∀ p ∈ expr.places, s.Holds p) (ht : s.AgreesOn (s.Reaches e [expr]) t)
    (limit : Nat) :
    Outcome.result (EStateM.run (evaluate limit expr e) t) =
        Outcome.result (EStateM.run (evaluate limit expr e) s) ∧
      Store.AgreesOn (fun p ↦ s.Reaches e [expr] p ∨ ¬ s.Holds p)
        (Outcome.store (EStateM.run (evaluate limit expr e) s))
        (Outcome.store (EStateM.run (evaluate limit expr e) t)) := by
  obtain ⟨hzero, L, hL, hmatch⟩ := exists_link_of_agreesOn hs he hexpr ht limit
  refine ⟨?_, hL.agreesOn ht hmatch.store⟩
  exact (hmatch.alike.imp fun _ _ hv ↦ hv.eq (hL.isIdentity ht)).eq.symm

end Machine

/-- **Noninterference.** Evaluation in a well-formed store, whether it returns or fails, leaves the
environments that it cannot reach as they are. What these hold does not matter: in a store that
differs only there, the outcome is the same, and so are all reachable and all new environments and
closures. Afterwards nothing can be reached but what could be reached before and what is new, and
the store is well-formed again.

Requests to two global environments, in any order, are answered as if each had a store of its own,
up to the numbers of environments and closures; what answers show is the same. The requests are
plain: a text may ask for anything, but an expression that embeds a closure, or a result that is not
a number, is left out, even if the same environment gave it as an earlier answer. -/
theorem unreachable_environments_do_not_interfere {s : Store Node} (hs : s.WellFormed) {e : EnvId}
    (he : e < s.nextEnv) {expr : Value} (hexpr : ∀ p ∈ expr.places, s.Holds p) (limit : Nat) :
    let after (t : Store Node) := EStateM.run (Machine.evaluate limit expr e) t
    (∀ a < s.nextEnv, ¬ s.Reaches e [expr] (.env a) →
      (Outcome.store (after s)).env? a = s.env? a) ∧
    (∀ t, s.AgreesOn (s.Reaches e [expr]) t →
      Outcome.result (after t) = Outcome.result (after s) ∧
      Store.AgreesOn (fun p ↦ s.Reaches e [expr] p ∨ ¬ s.Holds p) (Outcome.store (after s))
        (Outcome.store (after t))) ∧
    (∀ p, (Outcome.store (after s)).Reaches e (Outcome.values (after s)) p →
      s.Reaches e [expr] p ∨ ¬ s.Holds p) ∧
    (Outcome.store (after s)).WellFormed ∧
    ∀ (s₀ s₁ s₂ s₀' s' : Store Node) (env : Bool → EnvId) (e' : EnvId),
      EStateM.run Action.newGlobal s₀ = .ok (env false) s₁ →
      EStateM.run Action.newGlobal s₁ = .ok (env true) s₂ →
      EStateM.run Action.newGlobal s₀' = .ok e' s' →
      ∀ requests : List (Bool × Request), (∀ q ∈ requests, q.2.IsPlain) → ∀ i : Bool,
        ((serve env requests s₂).1.filter (·.1 = i)).map shown =
          (serveOnly i e' requests s').1.map shown ∧
        ∃ L : Link, L.envs.Rel (env i) e' ∧
          (serve env requests s₂).2.Linked L (serveOnly i e' requests s').2 ∧
          List.Forall₂ (LinkedAnswers L) ((serve env requests s₂).1.filter (·.1 = i))
            (serveOnly i e' requests s').1 := by
  intro after
  refine ⟨?_, ?_, ?_, ?_, ?_⟩
  · exact fun a hlt ha ↦ Machine.env?_evaluate_of_not_reaches hs he hexpr limit hlt ha
  · exact fun t ht ↦ Machine.evaluate_of_agreesOn hs he hexpr ht limit
  · exact fun p hp ↦ Machine.reaches_of_reaches_evaluate hs he hexpr limit hp
  · refine hs.perform (Machine.evaluate_parallel limit ?_ ⟨rfl, he⟩)
    exact Link.forall_fixes_iff.2 fun p hp ↦ Link.fixesPlace_ofPlaces (hexpr p hp)
  · intro s₀ s₁ s₂ s₀' s' env e' h₁ h₂ h' requests hplain i
    obtain ⟨L, hL, hstores, hanswers⟩ := exists_link_of_serve h₁ h₂ h' hplain i
    refine ⟨?_, L, hL, hstores, hanswers⟩
    rw [← List.forall₂_eq_eq_eq, List.forall₂_map_left_iff, List.forall₂_map_right_iff]
    exact hanswers.imp fun _ _ h ↦ h.shown_eq

/-- A counter keeps its count in an environment that only its closure leads to. The environment of
a call that has returned is unreachable: the count goes on whatever is bound there. -/
theorem unreachable_environments_do_not_interfere_counter :
    let s := ((Session.start 20).evalAll
      "(def count ((fun (n) (fun () (set! n (+ n 1)))) 0)) ((fun (x) x) 5)").2.store
    let expr : Value := .list [.symbol ⟨"count"⟩]
    let t := s.put 4 (.symbol ⟨"x"⟩) (.int 7)
    s.references (.env 2) = [.env 1, .code 1] ∧ s.references (.code 1) = [.env 3] ∧
      ¬ s.Reaches 2 [expr] (.env 4) ∧
      (Outcome.store (EStateM.run (Machine.evaluate 20 expr 2) s)).env? 4 = s.env? 4 ∧
      Outcome.result (EStateM.run (Machine.evaluate 20 expr 2) t) =
        Outcome.result (EStateM.run (Machine.evaluate 20 expr 2) s) ∧
      Outcome.result (EStateM.run (Machine.evaluate 20 expr 2) s) = .ok (.int 1) := by
  intro s expr t
  have hs : s.WellFormed := ((Session.Reachable.start 20).evalAll _).wellFormed
  have hexpr : ∀ p ∈ expr.places, s.Holds p := fun p hp ↦ nomatch hp
  -- one evaluation of the session gives all that is needed of it
  have ⟨hclosed, hframe, hcode, hlt, hvalue⟩ :
      (∀ p ∈ [Place.env 0, .env 1, .env 2, .env 3, .code 1], ∀ q ∈ s.references p,
        q ∈ [Place.env 0, .env 1, .env 2, .env 3, .code 1]) ∧
      s.references (.env 2) = [.env 1, .code 1] ∧ s.references (.code 1) = [.env 3] ∧
      4 < s.nextEnv ∧
      Outcome.result (EStateM.run (Machine.evaluate 20 expr 2) s) = .ok (.int 1) := by
    decide +kernel
  have hreach : ∀ p, s.Reaches 2 [expr] p →
      p ∈ [Place.env 0, .env 1, .env 2, .env 3, .code 1] := by
    refine fun p ↦ Store.Closed.of_reaches hclosed (by decide) fun v hv ↦ ?_
    rw [List.mem_singleton.1 hv]
    exact fun p hp ↦ nomatch hp
  have hnot : ¬ s.Reaches 2 [expr] (.env 4) := fun h ↦ absurd (hreach _ h) (by decide)
  have hagree : s.AgreesOn (s.Reaches 2 [expr]) t := by
    refine ⟨s.nextEnv_put _ _ _, by rw [Store.codes_put], s.marks_put _ _ _, ?_, ?_⟩
    · intro a ha
      rw [Store.env?_put, if_neg (by rintro rfl; exact hnot ha)]
    · intro i _
      rw [Store.codes_put]
  obtain ⟨hkept, hsame, -⟩ :=
    unreachable_environments_do_not_interfere hs (Nat.lt_trans (by decide : 2 < 4) hlt) hexpr 20
  exact ⟨hframe, hcode, hnot, hkept 4 hlt hnot, (hsame t hagree).1, hvalue⟩

end ReverseLisp
