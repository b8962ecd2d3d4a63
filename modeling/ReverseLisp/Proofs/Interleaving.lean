import ReverseLisp.Proofs.Parallel

/-!
# Interleaved requests

Several global environments may live in one store, and requests to evaluate something in one or
another of them may come in any order. Each of them gives the answers that it would give if only its
own requests had been made, in a store of its own.

## The argument

Each environment has a link between the common store and the store that is its alone. The links are
*separate*: no environment of the common store is linked by two of them. A request is performed in
step on both sides of its own link. This changes only environments that this link matches, and the
new ones, so all other links still hold. New environments are matched by the one link that has
advanced, so the links stay separate.
-/

namespace ReverseLisp

/-! ## Requests -/

/-- Something to evaluate. -/
inductive Request where
  | expression (limit : Nat) (expr : Value)
  | text (limit : Nat) (program : String)

namespace Request

/-- Evaluates what is asked for. -/
def perform (e : EnvId) : Request → Machine (List Value)
  | expression limit expr => do return [← Machine.evaluate limit expr e]
  | text limit program => Machine.evaluateText limit e program

/-- No closure is embedded in the request, and no result that is not a number: it does not bring in
anything from a store. A text never does. -/
def IsPlain : Request → Prop
  | expression _ expr => expr.IsPlain
  | text _ _ => True

theorem perform_parallel {L : Link} {e e' : EnvId} {r : Request} (hr : r.IsPlain)
    (he : L.envs.Rel e e') :
    Action.Parallel L (fun L' ↦ List.Forall₂ (Value.Linked L')) (r.perform e) (r.perform e') := by
  cases r with
  | expression limit expr =>
    refine (Machine.evaluate_parallel limit (hr.fixes L) he).bind fun L' _ v w hv ↦ ?_
    exact .pure (.cons hv .nil)
  | text limit program => exact Machine.evaluateText_parallel limit program he

end Request

/-- What an action ended with, its store left aside. -/
def Outcome.result {β α : Type} : Outcome β α → Except Error α
  | .ok a _ => .ok a
  | .error err _ => .error err

variable {ι : Type}

/-- Performs requests in order, each in the environment that it is directed to, and goes on after
errors. The answers come with the environments that gave them. -/
def serve (env : ι → EnvId) :
    List (ι × Request) → Store Node → List (ι × Except Error (List Value)) × Store Node
  | [], s => ([], s)
  | (i, r) :: requests, s =>
    let outcome := EStateM.run (r.perform (env i)) s
    let (answers, t) := serve env requests (Outcome.store outcome)
    ((i, Outcome.result outcome) :: answers, t)

/-! ## Separate links -/

/-- Every store in `own` has its link with the common store `s`, and no environment of `s` is linked
twice, the empty one apart. -/
structure Separate (L : ι → Link) (s : Store Node) (own : ι → Store Node) : Prop where
  linked : ∀ i, s.Linked (L i) (own i)
  below : ∀ i, (L i).Below s (own i)
  disjoint : ∀ i j, i ≠ j → ∀ a, (L i).Left a → (L j).Left a → a = 0

/-- What a link matches is not affected by changes elsewhere. -/
theorem Store.Linked.of_keeps {L : Link} {s s' t : Store Node} {A : EnvId → Prop}
    (h : s.Linked L t) (hbelow : L.Below s t) (hs : s.Keeps A s')
    (hA : ∀ a, L.Left a → A a → a = 0) : s'.Linked L t where
  env := by
    intro a b hab
    have henv : s'.env? a = s.env? a := by
      by_cases hAa : A a
      · rw [hA a ⟨b, hab⟩ hAa]
        rfl
      · exact hs.env a hAa
    rw [henv]
    exact h.env hab
  code := by
    intro i j hij
    have hcode : s'.codes[i]? = s.codes[i]? := by
      have hlt := (hbelow.codes i j hij).1
      rw [hs.code i _ (Array.getElem?_eq_getElem hlt), Array.getElem?_eq_getElem hlt]
    rw [hcode]
    exact h.code hij

theorem Outcome.Match.store {β γ α δ : Type} {V : α → δ → Prop} {R : Store β → Store γ → Prop}
    {r : Outcome β α} {r' : Outcome γ δ} (h : Outcome.Match V R r r') :
    R (Outcome.store r) (Outcome.store r') := by
  cases h with
  | ok _ hs => exact hs
  | error _ hs => exact hs

theorem Outcome.Match.alike {β γ α δ : Type} {V : α → δ → Prop} {R : Store β → Store γ → Prop}
    {r : Outcome β α} {r' : Outcome γ δ} (h : Outcome.Match V R r r') :
    Alike V (Outcome.result r) (Outcome.result r') := by
  cases h with
  | ok hv _ => exact .ok hv
  | error err _ => exact .error err

/-- Two families that are changed at one place remain related. -/
theorem rel_update [DecidableEq ι] {σ τ : Type} {R : σ → τ → Prop} {f : ι → σ} {g : ι → τ} {i : ι}
    {x : σ} {y : τ} (hi : R x y) (h : ∀ j, j ≠ i → R (f j) (g j)) (j : ι) :
    R (Function.update f i x j) (Function.update g i y j) := by
  by_cases hj : j = i
  · subst hj
    rw [Function.update_self, Function.update_self]
    exact hi
  · rw [Function.update_of_ne hj, Function.update_of_ne hj]
    exact h j hj

namespace Separate

variable [DecidableEq ι] {L : ι → Link} {s : Store Node} {own : ι → Store Node}

/-- What is done in step under one of the links keeps all of them. -/
theorem step (h : Separate L s own) (i : ι) {α δ : Type} {V : Link → α → δ → Prop}
    {x : Action Node α} {y : Action Node δ} (hxy : Action.Parallel (L i) V x y) :
    ∃ L', (L i).Le L' ∧
      Separate (Function.update L i L') (Outcome.store (x.run s))
        (Function.update own i (Outcome.store (y.run (own i)))) ∧
      Outcome.Match (V L') (Store.Linked L') (x.run s) (y.run (own i)) := by
  obtain ⟨L', hL', hmatch⟩ := hxy s (own i) (h.below i) (h.linked i)
  -- what the link has come to match is new
  have hnew : ∀ j, j ≠ i → ∀ a, (L j).Left a → L'.Left a → a = 0 := by
    rintro j hj a hja ⟨b, hab⟩
    obtain ⟨k, -, -, hiff⟩ := hL'.envs
    rcases (hiff a b).1 hab with hab | ⟨n, -, rfl, -⟩
    · exact h.disjoint j i hj a hja ⟨b, hab⟩
    · obtain ⟨c, hc⟩ := hja
      have := ((h.below j).envs _ c hc).1
      omega
  refine ⟨L', hL'.le, ⟨?_, ?_, ?_⟩, hmatch⟩
  · refine rel_update (R := fun K t ↦ Store.Linked K _ t) hmatch.store fun j hj ↦ ?_
    exact (h.linked j).of_keeps (h.below j) hL'.left (hnew j hj)
  · refine rel_update (R := fun K t ↦ Link.Below K _ t) ((h.below i).advance hL') fun j _ ↦ ?_
    exact (h.below j).mono_left hL'
  · intro j k hjk a hja hka
    by_cases hj : j = i
    · subst hj
      rw [Function.update_self] at hja
      rw [Function.update_of_ne hjk.symm] at hka
      exact hnew k hjk.symm a hka hja
    · rw [Function.update_of_ne hj] at hja
      by_cases hk : k = i
      · subst hk
        rw [Function.update_self] at hka
        exact hnew j hj a hja hka
      · rw [Function.update_of_ne hk] at hka
        exact h.disjoint j k hjk a hja hka

end Separate

/-! ## Serving requests -/

/-- Answers from the same environment, with the same error or with linked values. -/
def LinkedAnswers (L : Link) (p q : ι × Except Error (List Value)) : Prop :=
  p.1 = q.1 ∧ Alike (List.Forall₂ (Value.Linked L)) p.2 q.2

section

variable [DecidableEq ι] {L : ι → Link} {s : Store Node} {own : ι → Store Node}

/-- Performs the requests that are directed to `i`, in the environment `e`, and no others. -/
def serveOnly (i : ι) (e : EnvId) (requests : List (ι × Request)) (s : Store Node) :
    List (ι × Except Error (List Value)) × Store Node :=
  serve (fun _ ↦ e) (requests.filter (·.1 = i)) s

theorem serveOnly_cons_self (i : ι) (e : EnvId) (r : Request) (requests : List (ι × Request))
    (s : Store Node) :
    serveOnly i e ((i, r) :: requests) s =
      ((i, Outcome.result (EStateM.run (r.perform e) s)) ::
          (serveOnly i e requests (Outcome.store (EStateM.run (r.perform e) s))).1,
        (serveOnly i e requests (Outcome.store (EStateM.run (r.perform e) s))).2) := by
  rw [serveOnly, List.filter_cons_of_pos (by simp)]
  rfl

theorem serveOnly_cons_of_ne {i j : ι} (h : i ≠ j) (e : EnvId) (r : Request)
    (requests : List (ι × Request)) (s : Store Node) :
    serveOnly j e ((i, r) :: requests) s = serveOnly j e requests s := by
  rw [serveOnly, List.filter_cons_of_neg (by simpa using h)]
  rfl

/-- Serving requests from all sides does for each side what serving its own requests does. -/
theorem Separate.serve {env env' : ι → EnvId} (h : Separate L s own)
    (henv : ∀ i, (L i).envs.Rel (env i) (env' i)) {requests : List (ι × Request)}
    (hplain : ∀ q ∈ requests, q.2.IsPlain) :
    ∃ L', (∀ i, (L i).Le (L' i)) ∧
      Separate L' (serve env requests s).2 (fun i ↦ (serveOnly i (env' i) requests (own i)).2) ∧
      ∀ i, List.Forall₂ (LinkedAnswers (L' i)) ((serve env requests s).1.filter (·.1 = i))
        (serveOnly i (env' i) requests (own i)).1 := by
  -- the side that has answered goes on from its new store, the others from where they were
  induction requests generalizing L s own with
  | nil => exact ⟨L, fun i ↦ .refl (L i), h, fun i ↦ .nil⟩
  | cons q requests ih =>
    obtain ⟨i, r⟩ := q
    have ⟨hr, hrequests⟩ := List.forall_mem_cons.1 hplain
    obtain ⟨L₁, hL₁, hstep, hmatch⟩ := h.step i (Request.perform_parallel hr (henv i))
    have hle : ∀ j, (L j).Le (Function.update L i L₁ j) :=
      (Function.forall_update_iff L fun j l ↦ (L j).Le l).2 ⟨hL₁, fun j _ ↦ .refl (L j)⟩
    obtain ⟨L', hL', hsep, hanswers⟩ := ih hstep (fun j ↦ (hle j).envs (henv j)) hrequests
    refine ⟨L', fun j ↦ (hle j).trans (hL' j), ?_, fun j ↦ ?_⟩
    · have hown : ∀ j, (serveOnly j (env' j) requests (Function.update own i
          (Outcome.store (EStateM.run (r.perform (env' i)) (own i))) j)).2 =
          (serveOnly j (env' j) ((i, r) :: requests) (own j)).2 := by
        intro j
        by_cases hj : j = i
        · subst hj
          rw [Function.update_self, serveOnly_cons_self]
        · rw [Function.update_of_ne hj, serveOnly_cons_of_ne (Ne.symm hj)]
      simp only [hown] at hsep
      exact hsep
    · have htail := hanswers j
      by_cases hj : j = i
      · subst hj
        rw [Function.update_self] at htail
        have hlast : L₁.Le (L' j) := by
          have := hL' j
          rwa [Function.update_self] at this
        rw [serveOnly_cons_self, ReverseLisp.serve, List.filter_cons_of_pos (by simp)]
        exact .cons ⟨rfl, hmatch.alike.imp fun _ _ hvs ↦ hvs.imp fun _ _ hv ↦ hv.mono hlast⟩ htail
      · rw [Function.update_of_ne hj] at htail
        rw [serveOnly_cons_of_ne (Ne.symm hj), ReverseLisp.serve,
          List.filter_cons_of_neg (by simpa using Ne.symm hj)]
        exact htail

end

/-! ## Two global environments -/

/-- The link that matches nothing but the empty environment. -/
def Link.bottom : Link where
  envs := .diagonal (· = 0)
  codes := .diagonal fun _ ↦ False
  marks := .diagonal fun _ ↦ False
  zero := ⟨rfl, rfl⟩

theorem separate_bottom (s : Store Node) (own : ι → Store Node) :
    Separate (fun _ ↦ Link.bottom) s own where
  linked i := by
    refine ⟨?_, ?_⟩
    · rintro a _ ⟨rfl, rfl⟩
      exact .none
    · rintro j _ ⟨-, ⟨⟩⟩
  below i := by
    refine ⟨?_, ?_, ?_⟩
    · rintro a _ ⟨rfl, rfl⟩
      exact ⟨Nat.succ_pos _, Nat.succ_pos _⟩
    · rintro j _ ⟨-, ⟨⟩⟩
    · rintro m _ ⟨-, ⟨⟩⟩
  disjoint := by
    rintro i j - a ⟨b, -, ha⟩ -
    exact ha

/-- What an answer shows: the texts of its values. -/
def shown (answer : ι × Except Error (List Value)) : ι × Except Error (List (Option (List Char))) :=
  (answer.1, answer.2.map (List.map Value.source?))

theorem LinkedAnswers.shown_eq {L : Link} {p q : ι × Except Error (List Value)}
    (h : LinkedAnswers L p q) : shown p = shown q := by
  obtain ⟨i, a⟩ := p
  obtain ⟨j, b⟩ := q
  obtain ⟨rfl, h⟩ : i = j ∧ Alike (List.Forall₂ (Value.Linked L)) a b := h
  cases h with
  | error err => rfl
  | @ok vs ws hvs =>
    have hmap : vs.map Value.source? = ws.map Value.source? := by
      rw [← List.forall₂_eq_eq_eq, List.forall₂_map_left_iff, List.forall₂_map_right_iff]
      exact hvs.imp fun _ _ hv ↦ hv.source?_eq
    simp only [shown, Except.map, hmap]

/-- Requests to two global environments that were built in one store, one after the other, are
answered as if each had a store of its own. -/
theorem exists_link_of_serve {s₀ s₁ s₂ s₀' s' : Store Node} {env : Bool → EnvId} {e' : EnvId}
    (h₁ : EStateM.run Action.newGlobal s₀ = .ok (env false) s₁)
    (h₂ : EStateM.run Action.newGlobal s₁ = .ok (env true) s₂)
    (h' : EStateM.run Action.newGlobal s₀' = .ok e' s')
    {requests : List (Bool × Request)} (hplain : ∀ q ∈ requests, q.2.IsPlain) (i : Bool) :
    ∃ L : Link, L.envs.Rel (env i) e' ∧
      (serve env requests s₂).2.Linked L (serveOnly i e' requests s').2 ∧
      List.Forall₂ (LinkedAnswers L) ((serve env requests s₂).1.filter (·.1 = i))
        (serveOnly i e' requests s').1 := by
  -- both are built in step with the one that is alone
  have hbottom := separate_bottom s₀ (fun _ : Bool ↦ s₀')
  obtain ⟨L₁, -, hsep₁, hmatch₁⟩ := hbottom.step false (Action.newGlobal_parallel _)
  rw [h₁, h'] at hmatch₁
  rw [h₁, h', Outcome.store_ok, Outcome.store_ok] at hsep₁
  have hfree : Function.update (fun _ : Bool ↦ s₀') false s' true = s₀' :=
    Function.update_of_ne (by decide) _ _
  obtain ⟨L₂, -, hsep₂, hmatch₂⟩ := hsep₁.step true (Action.newGlobal_parallel _)
  rw [hfree, h₂, h'] at hmatch₂
  rw [hfree, h₂, h', Outcome.store_ok, Outcome.store_ok] at hsep₂
  have hown : Function.update (Function.update (fun _ : Bool ↦ s₀') false s') true s' =
      fun _ ↦ s' := by
    funext i
    cases i <;> rfl
  rw [hown] at hsep₂
  have henv : ∀ i : Bool,
      (Function.update (Function.update (fun _ ↦ Link.bottom) false L₁) true L₂ i).envs.Rel
        (env i) e' := by
    intro i
    cases i with
    | false =>
      cases hmatch₁ with
      | ok he _ => exact he
    | true =>
      cases hmatch₂ with
      | ok he _ => exact he
  obtain ⟨L, hL, hsep, hanswers⟩ := hsep₂.serve henv hplain
  exact ⟨L i, (hL i).envs (henv i), hsep.linked i, hanswers i⟩

end ReverseLisp
