import ReverseLisp.Session

/-!
# Outcomes

An action ends with a value or with an error, and in either case with a store. One error is unlike
the others: `recursionLimit` says that a run was cut off, not how it would have ended.

Runs and sessions perform actions in a row. A property that holds of giving a value and goes over to
two actions one after another, `Action.Composes`, holds of all these rows.

Two interpreters may count nesting differently, so that at one and the same limit only one of them
is cut off. They are compared as *families* of actions, one for each limit. A family *attains*
another if whatever the first ends with at some limit, the second ends with at every limit that is
large enough. The two families *agree* if each attains the other.

## The indices

Agreement of interpreters is proved by induction on limits, with an induction on expressions inside.
Hence `Agree p q` speaks only of the limits below `p` of the first family and of those below `q` of
the second. Binding keeps both bounds, and one more level of nesting raises a bound by one.
-/

namespace ReverseLisp

/-- How an action ends. -/
abbrev Outcome (β α : Type) := EStateM.Result Error (Store β) α

variable {β γ α δ α' δ' : Type}

namespace Outcome

/-- The store that is left. -/
def store : Outcome β α → Store β
  | .ok _ s => s
  | .error _ s => s

@[simp] theorem store_ok (a : α) (s : Store β) : store (.ok a s : Outcome β α) = s := rfl

@[simp] theorem store_error (e : Error) (s : Store β) : store (.error e s : Outcome β α) = s := rfl

/-- Whether the limit on nested runs put an end to the run. -/
def isCutOff : Outcome β α → Bool
  | .error .recursionLimit _ => true
  | _ => false

/-- Outcomes with the same error or with matching values, and with matching stores. -/
inductive Match (V : α → δ → Prop) (R : Store β → Store γ → Prop) :
    Outcome β α → Outcome γ δ → Prop where
  | ok {a : α} {b : δ} {s : Store β} {t : Store γ} (value : V a b) (store : R s t) :
    Match V R (.ok a s) (.ok b t)
  | error (e : Error) {s : Store β} {t : Store γ} (store : R s t) :
    Match V R (.error e s) (.error e t)

theorem Match.flip {V : α → δ → Prop} {R : Store β → Store γ → Prop} {r : Outcome β α}
    {r' : Outcome γ δ} (h : Match V R r r') : Match (flip V) (flip R) r' r := by
  cases h with
  | ok hv hs => exact .ok hv hs
  | error e hs => exact .error e hs

theorem isCutOff_iff {r : Outcome β α} :
    r.isCutOff = true ↔ ∃ s, r = .error .recursionLimit s := by
  constructor
  · intro h
    cases r with
    | ok a s => simp [isCutOff] at h
    | error e s => cases e <;> simp [isCutOff] at h ⊢
  · rintro ⟨s, rfl⟩
    rfl

end Outcome

/-! ## Actions one after another -/

namespace Action

variable {x : Action β α} {f : α → Action β δ} {s t : Store β}

theorem run_bind_eq_ok_iff {b : δ} :
    (x >>= f).run s = .ok b t ↔ ∃ a u, x.run s = .ok a u ∧ (f a).run u = .ok b t := by
  rw [EStateM.run_bind]
  cases x.run s with
  | ok a u =>
    refine ⟨fun h ↦ ⟨a, u, rfl, h⟩, ?_⟩
    rintro ⟨_, _, ⟨⟩, h⟩
    exact h
  | error e u => simp

theorem run_bind_eq_error_iff {e : Error} :
    (x >>= f).run s = .error e t ↔
      x.run s = .error e t ∨ ∃ a u, x.run s = .ok a u ∧ (f a).run u = .error e t := by
  rw [EStateM.run_bind]
  cases x.run s with
  | ok a u =>
    refine ⟨fun h ↦ .inr ⟨a, u, rfl, h⟩, ?_⟩
    rintro (h | ⟨_, _, ⟨⟩, h⟩)
    · cases h
    · exact h
  | error e u => simp

end Action

namespace Machine

theorem collect_eq_mapM (run : Node → Machine Value) (ns : List Node) :
    collect run ns = ns.mapM run := by
  induction ns with
  | nil => rfl
  | cons n ns ih => rw [collect, ih, List.mapM_cons]

theorem evaluateAll_eq_mapM (limit : Nat) (e : EnvId) (exprs : List Value) :
    evaluateAll limit e exprs = exprs.mapM (evaluate limit · e) := by
  induction exprs with
  | nil => rfl
  | cons expr exprs ih => rw [evaluateAll, ih, List.mapM_cons]

end Machine

/-- A property that goes over to actions in a row: it holds of giving a value, and of two actions
one after another if it holds of both. -/
structure Action.Composes (P : (α : Type) → Action β α → Prop) : Prop where
  pure : ∀ {α : Type} (a : α), P α (Pure.pure a)
  bind : ∀ {α δ : Type} {x : Action β α} {f : α → Action β δ}, P α x → (∀ a, P δ (f a)) →
    P δ (x >>= f)

namespace Action.Composes

theorem mapM {P : (α : Type) → Action β α → Prop} (hP : Composes P) {f : δ → Action β α}
    {xs : List δ} (h : ∀ x ∈ xs, P α (f x)) : P (List α) (xs.mapM f) := by
  induction xs with
  | nil => exact hP.pure []
  | cons x xs ih =>
    have ⟨hx, hxs⟩ := List.forall_mem_cons.1 h
    rw [List.mapM_cons]
    exact hP.bind hx fun a ↦ hP.bind (ih hxs) fun as ↦ hP.pure (a :: as)

variable {P : (α : Type) → Machine α → Prop}

theorem collect (hP : Composes P) {run : Node → Machine Value} {ns : List Node}
    (h : ∀ n ∈ ns, P Value (run n)) : P (List Value) (Machine.collect run ns) := by
  rw [Machine.collect_eq_mapM]
  exact hP.mapM h

theorem inOrder (hP : Composes P) {run : Node → Machine Value} {ns : List Node}
    (h : ∀ n ∈ ns, P Value (run n)) : P Value (Machine.inOrder run ns) := by
  induction ns with
  | nil => exact hP.pure _
  | cons n ns ih =>
    have ⟨hn, hns⟩ := List.forall_mem_cons.1 h
    cases ns with
    | nil => exact hn
    | cons m ns => exact hP.bind hn fun _ ↦ ih hns

variable {limit : Nat} {e : EnvId}

theorem evaluateAll (hP : Composes P) {exprs : List Value}
    (h : ∀ expr ∈ exprs, P Value (Machine.evaluate limit expr e)) :
    P (List Value) (Machine.evaluateAll limit e exprs) := by
  rw [Machine.evaluateAll_eq_mapM]
  exact hP.mapM h

theorem load (hP : Composes P) {programs : List String}
    (h : ∀ program ∈ programs, P (List Value) (Machine.evaluateText limit e program)) :
    P Unit (Machine.load limit e programs) := by
  induction programs with
  | nil => exact hP.pure ()
  | cons program programs ih =>
    have ⟨hprogram, hprograms⟩ := List.forall_mem_cons.1 h
    exact hP.bind hprogram fun _ ↦ ih hprograms

end Action.Composes

/-! ## Families of actions -/

/-- What a family gives at every limit that is large enough. -/
def EndsWith (F : Nat → Action β α) (s : Store β) (r : Outcome β α) : Prop :=
  ∃ N, ∀ n, N ≤ n → (F n).run s = r

namespace EndsWith

variable {F : Nat → Action β α} {f : α → Nat → Action β δ} {s s' : Store β}

theorem bind_ok {a : α} {r : Outcome β δ} (h : EndsWith F s (.ok a s')) (hf : EndsWith (f a) s' r) :
    EndsWith (fun n ↦ F n >>= fun a ↦ f a n) s r := by
  obtain ⟨N, hN⟩ := h
  obtain ⟨N', hN'⟩ := hf
  refine ⟨max N N', ?_⟩
  intro n hn
  rw [EStateM.run_bind, hN n (by omega)]
  exact hN' n (by omega)

theorem bind_error {e : Error} (h : EndsWith F s (.error e s')) :
    EndsWith (fun n ↦ F n >>= fun a ↦ f a n) s (.error e s') := by
  obtain ⟨N, hN⟩ := h
  refine ⟨N, ?_⟩
  intro n hn
  rw [EStateM.run_bind, hN n hn]

/-- One more level of nesting is a matter of one more unit of the limit. -/
theorem nest {F' : Nat → Action β α} {r : Outcome β α} (h : EndsWith F' s r)
    (succ : ∀ n, F (n + 1) = F' n) : EndsWith F s r := by
  obtain ⟨N, hN⟩ := h
  refine ⟨N + 1, ?_⟩
  intro n hn
  obtain ⟨n, rfl⟩ : ∃ k, n = k + 1 := ⟨n - 1, by omega⟩
  rw [succ]
  exact hN n (by omega)

end EndsWith

/-- Below `bound`, whatever `F` gives without being cut off, `G` ends with. -/
def Attains (V : α → δ → Prop) (R : Store β → Store γ → Prop) (bound : Nat)
    (F : Nat → Action β α) (G : Nat → Action γ δ) : Prop :=
  ∀ m < bound, ∀ s t, R s t → Outcome.isCutOff ((F m).run s) = true ∨
    ∃ r, Outcome.Match V R ((F m).run s) r ∧ EndsWith G t r

namespace Attains

variable {V : α → δ → Prop} {W : α' → δ' → Prop} {R : Store β → Store γ → Prop} {p q : Nat}
  {F : Nat → Action β α} {G : Nat → Action γ δ}

theorem mono (h : Attains V R p F G) (hq : q ≤ p) : Attains V R q F G :=
  fun m hm ↦ h m (Nat.lt_of_lt_of_le hm hq)

/-- Actions that keep no count of nesting attain each other if they match. -/
theorem of_match {x : Action β α} {y : Action γ δ}
    (h : ∀ s t, R s t → Outcome.Match V R (x.run s) (y.run t)) :
    Attains V R p (fun _ ↦ x) (fun _ ↦ y) :=
  fun _ _ s t hst ↦ .inr ⟨y.run t, h s t hst, 0, fun _ _ ↦ rfl⟩

theorem bind {f : α → Nat → Action β α'} {g : δ → Nat → Action γ δ'} (h : Attains V R p F G)
    (hfg : ∀ a b, V a b → Attains W R p (f a) (g b)) :
    Attains W R p (fun m ↦ F m >>= fun a ↦ f a m) (fun n ↦ G n >>= fun b ↦ g b n) := by
  intro m hm s t hst
  rcases h m hm s t hst with hcut | ⟨r, hr, hend⟩
  · obtain ⟨s', hs'⟩ := Outcome.isCutOff_iff.1 hcut
    exact .inl (by simp only [EStateM.run_bind, hs']; rfl)
  simp only [EStateM.run_bind]
  generalize (F m).run s = x at hr
  cases hr with
  | error e hs => exact .inr ⟨_, .error e hs, hend.bind_error⟩
  | ok hv hs =>
    -- both first halves have ended well, so the second halves decide
    rcases hfg _ _ hv m hm _ _ hs with hcut | ⟨r', hr', hend'⟩
    · exact .inl hcut
    · exact .inr ⟨r', hr', hend.bind_ok hend'⟩

/-- One more level of nesting in the first family. -/
theorem nest_left {F' : Nat → Action β α} (h : Attains V R p F' G)
    (zero : F 0 = throw .recursionLimit) (succ : ∀ m, F (m + 1) = F' m) :
    Attains V R (p + 1) F G := by
  intro m hm s t hst
  cases m with
  | zero => exact .inl (by rw [zero]; rfl)
  | succ m =>
    rw [succ]
    exact h m (by omega) s t hst

/-- One more level of nesting in the second family. -/
theorem nest_right {H : Nat → Action γ δ} (h : Attains V R p F H)
    (succ : ∀ n, G (n + 1) = H n) : Attains V R p F G := by
  intro m hm s t hst
  rcases h m hm s t hst with hcut | ⟨r, hr, hend⟩
  · exact .inl hcut
  · exact .inr ⟨r, hr, hend.nest succ⟩

end Attains

/-! ## Agreement -/

/-- Each of two families attains the other, the first below `p` and the second below `q`. -/
structure Agree (V : α → δ → Prop) (R : Store β → Store γ → Prop) (p q : Nat)
    (F : Nat → Action β α) (G : Nat → Action γ δ) : Prop where
  forward : Attains V R p F G
  backward : Attains (flip V) (flip R) q G F

namespace Agree

variable {V : α → δ → Prop} {W : α' → δ' → Prop} {R : Store β → Store γ → Prop} {p q : Nat}
  {F : Nat → Action β α} {G : Nat → Action γ δ}

theorem mono {p' q' : Nat} (h : Agree V R p q F G) (hp : p' ≤ p) (hq : q' ≤ q) :
    Agree V R p' q' F G :=
  ⟨h.forward.mono hp, h.backward.mono hq⟩

theorem of_match {x : Action β α} {y : Action γ δ}
    (h : ∀ s t, R s t → Outcome.Match V R (x.run s) (y.run t)) :
    Agree V R p q (fun _ ↦ x) (fun _ ↦ y) :=
  ⟨.of_match h, .of_match fun t s hst ↦ (h s t hst).flip⟩

theorem pure (a : α) : Agree Eq R p q (fun _ ↦ pure a) (fun _ ↦ pure a) :=
  .of_match fun _ _ hst ↦ .ok rfl hst

theorem throw (e : Error) :
    Agree V R p q (fun _ ↦ throw e) (fun _ ↦ throw e) :=
  .of_match fun _ _ hst ↦ .error e hst

theorem ite {c : Prop} [Decidable c] {F' : Nat → Action β α} {G' : Nat → Action γ δ}
    (h : Agree V R p q F G) (h' : Agree V R p q F' G') :
    Agree V R p q (fun m ↦ if c then F m else F' m) (fun n ↦ if c then G n else G' n) := by
  by_cases hc : c
  · simpa only [if_pos hc] using h
  · simpa only [if_neg hc] using h'

theorem bind {f : α → Nat → Action β α'} {g : δ → Nat → Action γ δ'} (h : Agree V R p q F G)
    (hfg : ∀ a b, V a b → Agree W R p q (f a) (g b)) :
    Agree W R p q (fun m ↦ F m >>= fun a ↦ f a m) (fun n ↦ G n >>= fun b ↦ g b n) :=
  ⟨h.forward.bind fun a b hab ↦ (hfg a b hab).forward,
    h.backward.bind fun b a hab ↦ (hfg a b hab).backward⟩

theorem nest_left {F' : Nat → Action β α} (h : Agree V R p q F' G)
    (zero : F 0 = MonadExcept.throw .recursionLimit) (succ : ∀ m, F (m + 1) = F' m) :
    Agree V R (p + 1) q F G :=
  ⟨h.forward.nest_left zero succ, h.backward.nest_right succ⟩

theorem nest_right {H : Nat → Action γ δ} (h : Agree V R p q F H)
    (zero : G 0 = MonadExcept.throw .recursionLimit) (succ : ∀ n, G (n + 1) = H n) :
    Agree V R p (q + 1) F G :=
  ⟨h.forward.nest_right succ, h.backward.nest_left zero succ⟩

end Agree

end ReverseLisp
