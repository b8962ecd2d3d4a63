import ReverseLisp.Proofs.Atoms
import ReverseLisp.Store.Lemmas

/-!
# What a store leads to

Environments and closures refer to each other. An environment refers to its enclosure and to the
closures that its frame binds, at any depth of lists. A closure refers to the environment that it
was made in and to the closures that are embedded in its body. Following these references from an
environment and some values leads to what can be *reached* from them.

A property of places that references preserve is *closed*. What can be reached is the least closed
set that contains where one started, so everything else about it comes from other closed sets. A
store is *well-formed* if what it has made is closed: nothing refers to what is not there.
-/

namespace ReverseLisp

/-! ## References -/

/-- A place in a store: an environment, the code of a closure, or the mark of a result that is not
a number. -/
inductive Place where
  | env (e : EnvId)
  | code (id : Nat)
  | mark (m : Nat)
deriving DecidableEq

/-- The place that an atom refers to. -/
def Value.place? : Value → Option Place
  | closure id _ => some (.code id)
  | nan mark => some (.mark mark)
  | _ => none

/-- The places that a value refers to, at any depth of its lists. -/
def Value.places (v : Value) : List Place := v.atoms.filterMap place?

/-- The places that an environment refers to. -/
def Env.references (env : Env) : List Place :=
  .env env.enclosure :: env.frame.bindings.flatMap (·.2.places)

/-- The places that a closure refers to. -/
def Code.references (c : Code Node) : List Place :=
  .env c.env :: (c.body.atoms ++ Value.atomsAll c.source).filterMap Value.place?

namespace Store

/-- The places that what is at a place refers to. -/
def references (s : Store Node) : Place → List Place
  | .env a => (s.env? a).elim [] Env.references
  | .code i => s.codes[i]?.elim [] Code.references
  | .mark _ => []

/-- The places that an environment and some values lead to. -/
inductive Reaches (s : Store Node) (e : EnvId) (vs : List Value) : Place → Prop where
  | env : Reaches s e vs (.env e)
  | value {v : Value} {p : Place} (hv : v ∈ vs) (hp : p ∈ v.places) : Reaches s e vs p
  | step {p q : Place} (hp : Reaches s e vs p) (hq : q ∈ s.references p) : Reaches s e vs q

/-- References lead from the places with a property to no others. -/
def Closed (s : Store Node) (R : Place → Prop) : Prop := ∀ p, R p → ∀ q ∈ s.references p, R q

variable {s : Store Node} {e a : EnvId} {vs : List Value}

theorem closed_reaches (s : Store Node) (e : EnvId) (vs : List Value) :
    s.Closed (s.Reaches e vs) :=
  fun _ hp _ hq ↦ hp.step hq

theorem Closed.of_reaches {R : Place → Prop} (hR : s.Closed R) (he : R (.env e))
    (hvs : ∀ v ∈ vs, ∀ p ∈ v.places, R p) {p : Place} (hp : s.Reaches e vs p) : R p := by
  induction hp with
  | env => exact he
  | value hv hp => exact hvs _ hv _ hp
  | step _ hq ih => exact hR _ ih _ hq

/-! ## Well-formed stores -/

/-- Whether the store has made what is at a place. -/
def Holds (s : Store Node) : Place → Prop
  | .env a => a < s.nextEnv
  | .code i => i < s.codes.size
  | .mark m => m < s.marks

/-- Enclosures are made before the environments that they enclose. -/
def Ordered (s : Store Node) : Prop := ∀ a env, s.env? a = some env → env.enclosure < a

/-- Enclosures come first, and nothing refers to what has not been made. -/
structure WellFormed (s : Store Node) : Prop where
  ordered : s.Ordered
  closed : s.Closed s.Holds

theorem wellFormed_empty : (empty : Store Node).WellFormed where
  ordered := by
    intro a env h
    cases a with
    | zero => cases h
    | succ n => cases h
  closed := by
    intro p _ q hq
    cases p with
    | env a =>
      cases a with
      | zero => cases hq
      | succ n => cases hq
    | code i => cases hq
    | mark m => cases hq

theorem env?_eq_none_iff : s.env? a = none ↔ a = 0 ∨ s.nextEnv ≤ a := by
  cases a with
  | zero => exact ⟨fun _ ↦ .inl rfl, fun _ ↦ rfl⟩
  | succ n =>
    show s.envs[n]? = none ↔ _
    rw [Array.getElem?_eq_none_iff, or_iff_right (Nat.succ_ne_zero n)]
    exact Nat.succ_le_succ_iff.symm

theorem lt_nextEnv_of_env? {env : Env} (h : s.env? a = some env) : a < s.nextEnv := by
  by_contra hle
  rw [env?_eq_none_iff.2 (.inr (Nat.le_of_not_lt hle))] at h
  cases h

theorem Ordered.chain_eq {env : Env} (hs : s.Ordered) (henv : s.env? a = some env) :
    s.chain a = a :: s.chain env.enclosure := by
  rw [chain_of_env? henv, if_pos (hs a env henv)]

/-- A name is found in the frame at hand or further out. -/
theorem Ordered.find?_eq {env : Env} (hs : s.Ordered) (henv : s.env? a = some env) (x : Value) :
    s.find? a x = if env.frame.binds x then some a else s.find? env.enclosure x := by
  have hbinds : s.binds a x = env.frame.binds x := by rw [binds, henv, Option.any_some]
  rw [find?, hs.chain_eq henv, List.find?_cons, hbinds]
  cases env.frame.binds x <;> rfl

/-- From every environment enclosures lead to the empty one. -/
theorem WellFormed.reaches_zero (hs : s.WellFormed) (ha : a < s.nextEnv)
    (h : s.Reaches e vs (.env a)) : s.Reaches e vs (.env 0) := by
  induction a using Nat.strongRecOn with
  | _ a ih =>
    cases henv : s.env? a with
    | none =>
      rcases env?_eq_none_iff.1 henv with rfl | hle
      · exact h
      · exact absurd hle (Nat.not_le.2 ha)
    | some env =>
      have hlt := hs.ordered a env henv
      refine ih _ hlt (Nat.lt_trans hlt ha) (h.step ?_)
      rw [references, henv]
      exact List.mem_cons_self

end Store

end ReverseLisp
