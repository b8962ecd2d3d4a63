import ReverseLisp.Proofs.SoundStores

/-!
# Where a binding is seen

Chains of environments share their outer parts. A binding is made in one frame and is seen through
every chain that comes to this frame before it comes to another one that binds the same name. Which
chains these are is a matter of where they merge and of what hides what on the way.

`Store.MeetsFirst x a e` says that walking outward from `e` meets `a` before any other environment
that binds `x`. Binding `x` in `a` is seen from there and from nowhere else (`value?_put`). An
assignment binds a name where it is found. What finds the name there meets that environment first,
so the law of assignment is the same law.

## Names

Names with the same key are names of one binding. The key of a symbol is the symbol itself, so two
symbols are names of one binding only if they are the same symbol.
-/

namespace ReverseLisp

/-! ## One frame -/

namespace Frame

theorem get?_congr {x y : Value} (h : x.key = y.key) (f : Frame) : f.get? x = f.get? y := by
  rw [get?, get?, h]

theorem binds_eq_false_iff {f : Frame} {x : Value} : f.binds x = false ↔ f.get? x = none := by
  rw [binds, Option.isSome_eq_false_iff, Option.isNone_iff_eq_none]

theorem get?_foldl_set {ps : List (Value × Value)} {y : Value} (h : ∀ p ∈ ps, p.1.key ≠ y.key)
    (f : Frame) : (ps.foldl (fun f p ↦ f.set p.1 p.2) f).get? y = f.get? y := by
  induction ps generalizing f with
  | nil => rfl
  | cons p ps ih =>
    have ⟨hp, hps⟩ := List.forall_mem_cons.1 h
    rw [List.foldl_cons, ih hps, get?_set, if_neg hp.symm]

theorem get?_ofPairs_of_forall_ne {ps : List (Value × Value)} {y : Value}
    (h : ∀ p ∈ ps, p.1.key ≠ y.key) : (ofPairs ps).get? y = none :=
  get?_foldl_set h empty

/-- Of several pairs with one name the last counts. -/
theorem get?_ofPairs_append_cons (before : List (Value × Value)) {x y : Value} (v : Value)
    {after : List (Value × Value)} (hx : x.key = y.key) (h : ∀ p ∈ after, p.1.key ≠ y.key) :
    (ofPairs (before ++ (x, v) :: after)).get? y = some v := by
  rw [ofPairs, List.foldl_append, List.foldl_cons, get?_foldl_set h, get?_set, if_pos hx.symm]

end Frame

/-! ## Walking outward -/

namespace Store

/-- Walking outward from an environment meets `a` before any other environment that binds `x`. -/
inductive MeetsFirst (s : Store Node) (x : Value) (a : EnvId) : EnvId → Prop where
  | here : MeetsFirst s x a a
  | outward {e : EnvId} {env : Env} (henv : s.env? e = some env) (hx : env.frame.binds x = false)
      (h : MeetsFirst s x a env.enclosure) : MeetsFirst s x a e

variable {s : Store Node} {a e : EnvId} {env : Env} {x y v : Value}

theorem find?_of_env?_eq_none (he : s.env? e = none) (x : Value) : s.find? e x = none := by
  rw [find?, chain_of_env?_eq_none he, List.find?_nil]

/-- The value of a name is in the frame at hand or further out. -/
theorem Ordered.value?_eq (hs : s.Ordered) (henv : s.env? e = some env) (x : Value) :
    s.value? e x = (env.frame.get? x).or (s.value? env.enclosure x) := by
  rw [value?, hs.find?_eq henv, value?]
  cases hx : env.frame.binds x with
  | false =>
    rw [Frame.binds_eq_false_iff.1 hx]
    rfl
  | true =>
    obtain ⟨v, hv⟩ := Option.isSome_iff_exists.1 hx
    rw [hv, if_pos rfl]
    show (s.env? e).bind _ = some v
    rw [henv]
    exact hv

theorem value?_of_env?_eq_none (he : s.env? e = none) (x : Value) : s.value? e x = none := by
  rw [value?, find?_of_env?_eq_none he]
  rfl

/-- The environment that is met first is where a name is found, if it binds the name. -/
theorem Ordered.meetsFirst_iff (hs : s.Ordered) (ha : s.binds a x = true) :
    s.MeetsFirst x a e ↔ s.find? e x = some a := by
  constructor
  · intro h
    induction h with
    | here =>
      obtain ⟨env, henv, hx⟩ := (Option.any_eq_true _ _).1 ha
      rw [hs.find?_eq henv, if_pos hx]
    | outward henv hx _ ih => rw [hs.find?_eq henv, hx, if_neg Bool.false_ne_true, ih]
  · intro h
    induction e using Nat.strongRecOn with
    | _ e ih =>
      cases henv : s.env? e with
      | none =>
        rw [find?_of_env?_eq_none henv] at h
        cases h
      | some env =>
        rw [hs.find?_eq henv] at h
        cases hx : env.frame.binds x with
        | true =>
          rw [hx, if_pos rfl] at h
          cases h
          exact .here
        | false =>
          rw [hx, if_neg Bool.false_ne_true] at h
          exact .outward henv hx (ih _ (hs e env henv) h)

/-! ## Binding a name -/

theorem Ordered.put (hs : s.Ordered) (a : EnvId) (x v : Value) : (s.put a x v).Ordered := by
  intro e env henv
  rw [env?_put] at henv
  split at henv
  · obtain ⟨env', henv', rfl⟩ := Option.map_eq_some_iff.1 henv
    exact hs e env' henv'
  · exact hs e env henv

theorem binds_put (ha : s.binds a x = true) (v : Value) (e : EnvId) (y : Value) :
    (s.put a x v).binds e y = s.binds e y := by
  rw [binds, binds, env?_put]
  split
  · next h =>
    subst h
    obtain ⟨env, henv, hx⟩ := (Option.any_eq_true _ _).1 ha
    rw [henv, Option.map_some, Option.any_some, Option.any_some, Frame.binds_set]
    by_cases hy : y.key = x.key
    · rw [Frame.binds, Frame.get?_congr hy, ← Frame.binds, hx, Bool.or_true]
    · simp [hy]
  · rfl

/-- Giving a bound name another value does not change where any name is found. -/
theorem find?_put (ha : s.binds a x = true) (v : Value) (e : EnvId) (y : Value) :
    (s.put a x v).find? e y = s.find? e y := by
  have hbinds : ((s.put a x v).binds · y) = (s.binds · y) := funext fun e ↦ binds_put ha v e y
  rw [find?, find?, chain_put, hbinds]

/-- What is bound is seen from where the environment is met first. -/
theorem Ordered.value?_put (hs : s.Ordered) (ha : (s.env? a).isSome = true)
    (hy : y.key = x.key) (h : s.MeetsFirst x a e) : (s.put a x v).value? e y = some v := by
  obtain ⟨env, henv⟩ := Option.isSome_iff_exists.1 ha
  have hseen : (s.put a x v).value? a y = some v := by
    have hput : (s.put a x v).env? a = some ⟨env.frame.set x v, env.enclosure⟩ := by
      rw [env?_put, if_pos rfl, henv, Option.map_some]
    rw [(hs.put a x v).value?_eq hput, Frame.get?_set, if_pos hy, Option.some_or]
  induction h with
  | here => exact hseen
  | @outward e env henv hx _ ih =>
    by_cases hea : e = a
    · rw [hea]
      exact hseen
    · have hput : (s.put a x v).env? e = some env := by rw [env?_put, if_neg hea, henv]
      have hnone : env.frame.get? y = none := by
        rw [Frame.get?_congr hy, Frame.binds_eq_false_iff.1 hx]
      rw [(hs.put a x v).value?_eq hput, hnone, Option.none_or, ih]

/-- It is seen from nowhere else, and under no other name. By induction on the walk: a frame on the
way that does not bind the name does not hide what is met first further out. -/
theorem Ordered.value?_put_of_not (hs : s.Ordered)
    (h : ¬ (y.key = x.key ∧ s.MeetsFirst x a e)) : (s.put a x v).value? e y = s.value? e y := by
  induction e using Nat.strongRecOn with
  | _ e ih =>
    cases henv : s.env? e with
    | none =>
      have hput : (s.put a x v).env? e = none := by
        rw [env?_put, henv]
        split <;> rfl
      rw [value?_of_env?_eq_none henv, value?_of_env?_eq_none hput]
    | some env =>
      have hlt := hs e env henv
      by_cases hea : e = a
      · subst hea
        have hy : y.key ≠ x.key := fun hy ↦ h ⟨hy, .here⟩
        have hput : (s.put e x v).env? e = some ⟨env.frame.set x v, env.enclosure⟩ := by
          rw [env?_put, if_pos rfl, henv, Option.map_some]
        rw [(hs.put e x v).value?_eq hput, hs.value?_eq henv, Frame.get?_set, if_neg hy,
          ih _ hlt fun hout ↦ hy hout.1]
      · have hput : (s.put a x v).env? e = some env := by rw [env?_put, if_neg hea, henv]
        rw [(hs.put a x v).value?_eq hput, hs.value?_eq henv]
        cases hget : env.frame.get? y with
        | some w => rw [Option.some_or, Option.some_or]
        | none =>
          rw [Option.none_or, Option.none_or]
          refine ih _ hlt fun ⟨hy, hout⟩ ↦ h ⟨hy, .outward henv ?_ hout⟩
          rw [Frame.binds_eq_false_iff, ← Frame.get?_congr hy, hget]

/-! ## Making an environment -/

theorem Ordered.pushEnv (hs : s.Ordered) (he : env.enclosure < s.nextEnv) :
    (s.pushEnv env).Ordered := by
  intro e env' henv'
  rw [env?_pushEnv] at henv'
  split at henv'
  · next h =>
    cases henv'
    rw [h]
    exact he
  · exact hs e env' henv'

/-- What is seen from the environments that were there stays the same. -/
theorem Ordered.value?_pushEnv (hs : s.Ordered) (hn : env.enclosure < s.nextEnv)
    (he : e < s.nextEnv) (y : Value) : (s.pushEnv env).value? e y = s.value? e y := by
  induction e using Nat.strongRecOn with
  | _ e ih =>
    have hpush : (s.pushEnv env).env? e = s.env? e := by
      rw [env?_pushEnv, if_neg (Nat.ne_of_lt he)]
    cases henv : s.env? e with
    | none =>
      rw [value?_of_env?_eq_none henv, value?_of_env?_eq_none (hpush.trans henv)]
    | some env' =>
      have hlt := hs e env' henv
      rw [(hs.pushEnv hn).value?_eq (hpush.trans henv), hs.value?_eq henv,
        ih _ hlt (Nat.lt_trans hlt he)]

/-- From the new environment its own frame is seen first. -/
theorem Ordered.value?_pushEnv_nextEnv (hs : s.Ordered) (hn : env.enclosure < s.nextEnv)
    (y : Value) : (s.pushEnv env).value? s.nextEnv y =
      (env.frame.get? y).or (s.value? env.enclosure y) := by
  have hpush : (s.pushEnv env).env? s.nextEnv = some env := by rw [env?_pushEnv, if_pos rfl]
  rw [(hs.pushEnv hn).value?_eq hpush, hs.value?_pushEnv hn hn]

end Store

/-! ## What actions see -/

namespace Store

variable {s t : Store Node} {a e : EnvId} {x y v : Value} {params args : List Value}

/-- Where `sees` holds, `x` has the value `v` in `t`. All else is looked up as in `s`. -/
structure Rebinds (s t : Store Node) (x v : Value) (sees : EnvId → Prop) : Prop where
  seen : ∀ e y, y.key = x.key → sees e →
    Outcome.result (EStateM.run (Action.lookup e y) t) = .ok v
  kept : ∀ e y, ¬ (y.key = x.key ∧ sees e) →
    Outcome.result (EStateM.run (Action.lookup e y) t) =
      Outcome.result (EStateM.run (Action.lookup e y) s)

/-- What an assignment in `e` does: names are found where they were, and what finds `x` where `e`
does sees the new value. It fails where looking up fails, and without effect. -/
structure AssignmentLaws (s : Store Node) (e : EnvId) (x v : Value) : Prop where
  succeeds : (∃ w, EStateM.run (Action.lookup e x) s = .ok w s) →
    ∃ t, EStateM.run (Action.assign e x v) s = .ok v t
  find : ∀ w t, EStateM.run (Action.assign e x v) s = .ok w t → ∀ e' y,
    Outcome.result (EStateM.run (Action.find e' y) t) =
      Outcome.result (EStateM.run (Action.find e' y) s)
  rebinds : ∀ w t, EStateM.run (Action.assign e x v) s = .ok w t →
    s.Rebinds t x v fun e' ↦ s.find? e' x = s.find? e x
  unbound : (∃ err t, EStateM.run (Action.assign e x v) s = .error err t ∧
      err.kind = .unboundSymbol) ↔
    ∃ err t, EStateM.run (Action.lookup e x) s = .error err t ∧ err.kind = .unboundSymbol
  unchanged : ∀ err t, EStateM.run (Action.assign e x v) s = .error err t → t = s

/-- What a definition in `e` does: what meets `e` before any other environment that binds `x` sees
the new value. -/
structure DefinitionLaws (s : Store Node) (e : EnvId) (x : Symbol) (v : Value) : Prop where
  succeeds : ∃ t, EStateM.run (Action.define e (.symbol x) v) s = .ok v t
  rebinds : ∀ w t, EStateM.run (Action.define e (.symbol x) v) s = .ok w t →
    s.Rebinds t (.symbol x) v (s.MeetsFirst (.symbol x) e)

/-- What a new environment in `e` shows: the argument for the last parameter of a name, and what `e`
shows if there is none. The environments that were there are not changed. -/
structure ExtensionLaws (s : Store Node) (e : EnvId) (params args : List Value) : Prop where
  arity : (∃ err t, EStateM.run (Action.extend e params args) s = .error err t ∧
    err.kind = .wrongArity) ↔ params.length ≠ args.length
  succeeds : params.length = args.length → (∀ p ∈ params, p.isList = false) →
    ∃ e' t, EStateM.run (Action.extend e params args) s = .ok e' t
  kept : ∀ a env, s.env? a = some env →
    (Outcome.store (EStateM.run (Action.extend e params args) s)).env? a = some env
  fresh : ∀ e' t, EStateM.run (Action.extend e params args) s = .ok e' t →
    s.env? e' = none ∧ (t.env? e').isSome = true
  last : ∀ e' t, EStateM.run (Action.extend e params args) s = .ok e' t →
    ∀ ps p qs vs v ws y, params = ps ++ p :: qs → args = vs ++ v :: ws → ps.length = vs.length →
      p.key = y.key → (∀ q ∈ qs, q.key ≠ y.key) →
      Outcome.result (EStateM.run (Action.lookup e' y) t) = .ok v
  outer : ∀ e' t, EStateM.run (Action.extend e params args) s = .ok e' t →
    ∀ y : Value, y.isList = false → (∀ p ∈ params, p.key ≠ y.key) →
      Outcome.result (EStateM.run (Action.lookup e' y) t) =
        Outcome.result (EStateM.run (Action.lookup e y) s)

theorem result_lookup_of_value? (h : s.value? e x = some v) :
    Outcome.result (EStateM.run (Action.lookup e x) s) = .ok v := by
  rw [EStateM.run, Action.lookup, h]
  rfl

theorem result_lookup_congr (h : t.value? e x = s.value? e x) :
    Outcome.result (EStateM.run (Action.lookup e x) t) =
      Outcome.result (EStateM.run (Action.lookup e x) s) := by
  rw [EStateM.run, EStateM.run, Action.lookup, Action.lookup, h]
  cases s.value? e x <;> rfl

theorem Ordered.rebinds_put (hs : s.Ordered) (ha : (s.env? a).isSome = true) (x v : Value) :
    s.Rebinds (s.put a x v) x v (s.MeetsFirst x a) where
  seen _ _ hy h := result_lookup_of_value? (hs.value?_put ha hy h)
  kept _ _ h := result_lookup_congr (hs.value?_put_of_not h)

/-- The error of an unbound name has the same kind, whatever was to be done with the name. -/
theorem kind_errorUnbound (e : EnvId) (x : Value) :
    (Action.errorUnbound e x .unboundAssignment).kind =
      (Action.errorUnbound e x .unboundLookup).kind := by
  unfold Action.errorUnbound
  split
  · rfl
  · rw [Value.errorMentioning, Value.errorMentioning]
    cases x.mention? <;> rfl

theorem Ordered.assignmentLaws (hs : s.Ordered) (e : EnvId) (x v : Value) :
    s.AssignmentLaws e x v := by
  cases hfind : s.find? e x with
  | some a =>
    have ha := binds_of_find? hfind
    have hassign : EStateM.run (Action.assign e x v) s = .ok v (s.put a x v) := by
      rw [EStateM.run, Action.assign, hfind]
    obtain ⟨w, hw⟩ := value?_of_find? hfind
    have hlookup : EStateM.run (Action.lookup e x) s = .ok w s := by
      rw [EStateM.run, Action.lookup, hw]
    refine ⟨fun _ ↦ ⟨_, hassign⟩, ?_, ?_, ?_, ?_⟩
    · intro w t h e' y
      cases hassign.symm.trans h
      rw [EStateM.run, EStateM.run, Action.find, Action.find, find?_put ha]
      split <;> rfl
    · intro w t h
      cases hassign.symm.trans h
      have henv : (s.env? a).isSome = true := by
        obtain ⟨env, henv, -⟩ := (Option.any_eq_true _ _).1 ha
        rw [henv, Option.isSome_some]
      have hsees : s.MeetsFirst x a = fun e' ↦ s.find? e' x = s.find? e x := by
        funext e'
        rw [hfind, hs.meetsFirst_iff ha]
      exact hsees ▸ hs.rebinds_put henv x v
    · constructor
      · rintro ⟨err, t, h, -⟩
        cases hassign.symm.trans h
      · rintro ⟨err, t, h, -⟩
        cases hlookup.symm.trans h
    · intro err t h
      cases hassign.symm.trans h
  | none =>
    have hassign : EStateM.run (Action.assign e x v) s =
        .error (Action.errorUnbound e x .unboundAssignment) s := by
      rw [EStateM.run, Action.assign, hfind]
    have hlookup : EStateM.run (Action.lookup e x) s =
        .error (Action.errorUnbound e x .unboundLookup) s := by
      have hvalue : s.value? e x = none := by rw [value?, hfind]; rfl
      rw [EStateM.run, Action.lookup, hvalue]
    refine ⟨?_, ?_, ?_, ?_, ?_⟩
    · rintro ⟨w, h⟩
      cases hlookup.symm.trans h
    · intro w t h
      cases hassign.symm.trans h
    · intro w t h
      cases hassign.symm.trans h
    · rw [hassign, hlookup]
      constructor
      · rintro ⟨_, _, ⟨⟩, hkind⟩
        exact ⟨_, _, rfl, (kind_errorUnbound e x).symm.trans hkind⟩
      · rintro ⟨_, _, ⟨⟩, hkind⟩
        exact ⟨_, _, rfl, (kind_errorUnbound e x).trans hkind⟩
    · intro err t h
      cases hassign.symm.trans h
      rfl

theorem Ordered.definitionLaws (hs : s.Ordered) (he : (s.env? e).isSome = true) (x : Symbol)
    (v : Value) : s.DefinitionLaws e x v := by
  have hne : e ≠ 0 := by
    rintro rfl
    cases he
  have hdefine : EStateM.run (Action.define e (.symbol x) v) s =
      .ok v (s.put e (.symbol x) v) := by
    rw [EStateM.run, Action.define, if_neg hne]
  refine ⟨⟨_, hdefine⟩, ?_⟩
  intro w t h
  cases hdefine.symm.trans h
  exact hs.rebinds_put he _ v

/-- All that asking for an environment can come to. -/
theorem run_extend (s : Store Node) (e : EnvId) (params args : List Value) :
    (params.length ≠ args.length ∧ EStateM.run (Action.extend e params args) s =
        .error (.frameArity params.length args.length) s) ∨
      (params.length = args.length ∧ (∃ p ∈ params, p.isList = true) ∧
        EStateM.run (Action.extend e params args) s = .error .listName s) ∨
      (params.length = args.length ∧ EStateM.run (Action.extend e params args) s =
        .ok s.nextEnv (s.pushEnv ⟨Frame.ofPairs (params.zip args), e⟩)) := by
  by_cases hlength : params.length = args.length
  · refine .inr ?_
    rw [Action.extend, if_pos hlength, Frame.ofPairs?]
    by_cases hlist : (params.zip args).any (·.1.isList) = true
    · obtain ⟨pair, hpair, hp⟩ := List.any_eq_true.1 hlist
      rw [if_pos hlist]
      exact .inl ⟨hlength, ⟨pair.1, (List.of_mem_zip hpair).1, hp⟩, rfl⟩
    · rw [if_neg hlist]
      exact .inr ⟨hlength, rfl⟩
  · rw [Action.extend, if_neg hlength]
    exact .inl ⟨hlength, rfl⟩

theorem extend_eq_ok {e' : EnvId} (h : EStateM.run (Action.extend e params args) s = .ok e' t) :
    e' = s.nextEnv ∧ t = s.pushEnv ⟨Frame.ofPairs (params.zip args), e⟩ := by
  rcases run_extend s e params args with ⟨-, hrun⟩ | ⟨-, -, hrun⟩ | ⟨-, hrun⟩
  · cases hrun.symm.trans h
  · cases hrun.symm.trans h
  · cases hrun.symm.trans h
    exact ⟨rfl, rfl⟩

/-- A new environment shows the argument for the last parameter of a name. -/
theorem Ordered.value?_extend_last (hs : s.Ordered) (he : e < s.nextEnv) {ps qs vs ws : List Value}
    {p : Value} (hlength : ps.length = vs.length) (hp : p.key = y.key)
    (hq : ∀ q ∈ qs, q.key ≠ y.key) :
    (s.pushEnv ⟨Frame.ofPairs ((ps ++ p :: qs).zip (vs ++ v :: ws)), e⟩).value? s.nextEnv y =
      some v := by
  have hget : (Frame.ofPairs ((ps ++ p :: qs).zip (vs ++ v :: ws))).get? y = some v := by
    rw [List.zip_append hlength, List.zip_cons_cons]
    exact Frame.get?_ofPairs_append_cons _ v hp fun pair h ↦ hq _ (List.of_mem_zip h).1
  rw [hs.value?_pushEnv_nextEnv he, hget, Option.some_or]

/-- What is no parameter is looked up further out. -/
theorem Ordered.result_lookup_extend (hs : s.Ordered) (he : e < s.nextEnv) (hy : y.isList = false)
    (hp : ∀ p ∈ params, p.key ≠ y.key) :
    Outcome.result (EStateM.run (Action.lookup s.nextEnv y)
        (s.pushEnv ⟨Frame.ofPairs (params.zip args), e⟩)) =
      Outcome.result (EStateM.run (Action.lookup e y) s) := by
  have hget : (Frame.ofPairs (params.zip args)).get? y = none :=
    Frame.get?_ofPairs_of_forall_ne fun pair h ↦ hp _ (List.of_mem_zip h).1
  have herror : ∀ e', Action.errorUnbound e' y .unboundLookup =
      y.errorMentioning .unboundLookup := by
    intro e'
    rw [Action.errorUnbound, hy, if_neg fun h ↦ Bool.false_ne_true h.1]
  rw [EStateM.run, EStateM.run, Action.lookup, Action.lookup, hs.value?_pushEnv_nextEnv he, hget,
    Option.none_or, herror, herror]
  cases s.value? e y <;> rfl

theorem Ordered.extensionLaws (hs : s.Ordered) (he : e < s.nextEnv) (params args : List Value) :
    s.ExtensionLaws e params args where
  arity := by
    rcases run_extend s e params args with ⟨hne, hrun⟩ | ⟨heq, -, hrun⟩ | ⟨heq, hrun⟩
    · exact ⟨fun _ ↦ hne, fun _ ↦ ⟨_, _, hrun, rfl⟩⟩
    · refine ⟨?_, fun hne ↦ absurd heq hne⟩
      rintro ⟨err, t, h, hkind⟩
      cases hrun.symm.trans h
      cases hkind
    · refine ⟨?_, fun hne ↦ absurd heq hne⟩
      rintro ⟨err, t, h, -⟩
      cases hrun.symm.trans h
  succeeds heq hnames := by
    rcases run_extend s e params args with ⟨hne, -⟩ | ⟨-, ⟨p, hp, hlist⟩, -⟩ | ⟨-, hrun⟩
    · exact absurd heq hne
    · rw [hnames p hp] at hlist
      cases hlist
    · exact ⟨_, _, hrun⟩
  kept a env henv := by
    rcases run_extend s e params args with ⟨-, hrun⟩ | ⟨-, -, hrun⟩ | ⟨-, hrun⟩
    · rw [hrun]
      exact henv
    · rw [hrun]
      exact henv
    · rw [hrun, Outcome.store_ok, env?_pushEnv, if_neg (Nat.ne_of_lt (lt_nextEnv_of_env? henv))]
      exact henv
  fresh e' t h := by
    obtain ⟨rfl, rfl⟩ := extend_eq_ok h
    rw [env?_pushEnv, if_pos rfl]
    exact ⟨env?_nextEnv s, rfl⟩
  last e' t h ps p qs vs v ws y hparams hargs hlength hp hq := by
    obtain ⟨rfl, rfl⟩ := extend_eq_ok h
    subst hparams hargs
    exact result_lookup_of_value? (hs.value?_extend_last he hlength hp hq)
  outer e' t h y hy hp := by
    obtain ⟨rfl, rfl⟩ := extend_eq_ok h
    exact hs.result_lookup_extend he hy hp

end Store

/-! ## Calls -/

namespace Machine

variable {run : Node → EnvId → Machine Value} {s : Store Node} {id : Nat} {params : List Symbol}
  {args : List Value}

/-- A call of a closure runs its body in a new environment, which binds the parameters. -/
theorem run_applyWith_of_code {c : Code Node} (hcode : s.codes[id]? = some c)
    (hlength : params.length = args.length) :
    EStateM.run (applyWith run (.closure id params) args) s = EStateM.run (run c.body s.nextEnv)
      (s.pushEnv ⟨Frame.ofPairs ((params.map .symbol).zip args), c.env⟩) := by
  have hfind : EStateM.run (Action.code? id) s = .ok (some c) s := by rw [← hcode]; rfl
  have hextend : (Action.extend c.env (params.map .symbol) args : Machine EnvId) =
      Action.newEnv (Frame.ofPairs ((params.map .symbol).zip args)) c.env := by
    rw [Action.extend, if_pos (by rw [List.length_map, hlength]), Frame.ofPairs?_symbols]
  rw [applyWith, if_pos hlength, EStateM.run_bind, hfind]
  dsimp only
  rw [hextend]
  rfl

/-- All that a call of a closure can come to. -/
theorem run_applyWith_closure (run : Node → EnvId → Machine Value) (s : Store Node) (id : Nat)
    (params : List Symbol) (args : List Value) :
    (∃ err, EStateM.run (applyWith run (.closure id params) args) s = .error err s) ∨
      ∃ c, s.codes[id]? = some c ∧ EStateM.run (applyWith run (.closure id params) args) s =
        EStateM.run (run c.body s.nextEnv)
          (s.pushEnv ⟨Frame.ofPairs ((params.map .symbol).zip args), c.env⟩) := by
  by_cases hlength : params.length = args.length
  · rcases hcode : s.codes[id]? with _ | c
    · have hfind : EStateM.run (Action.code? id) s = .ok none s := by rw [← hcode]; rfl
      refine .inl ?_
      rw [applyWith, if_pos hlength, EStateM.run_bind, hfind]
      exact ⟨_, rfl⟩
    · exact .inr ⟨c, rfl, run_applyWith_of_code hcode hlength⟩
  · rw [applyWith, if_neg hlength]
    exact .inl ⟨_, rfl⟩

end Machine

/-- **Where writes are seen.** Let enclosures come before the environments that they enclose.

After an assignment every name is found where it was found before. Whatever finds the assigned name
in the same environment sees the new value, and all else is looked up as before. An assignment to an
unbound name fails, as looking it up does, and changes nothing.

After a definition in an environment with a frame, the new value is seen from where walking outward
meets this environment before any other one that binds the name. All else is looked up as before.

An environment for parameters is refused for a wrong number of arguments, and only then is this the
error. Making it changes none that was there. In it a name has the argument for its last occurrence
among the parameters, and what it has further out if there is none. -/
theorem writes_are_seen_where_met {s : Store Node} (hs : s.Ordered) (e : EnvId) :
    (∀ x v, s.AssignmentLaws e x v) ∧
    ((s.env? e).isSome = true → ∀ x v, s.DefinitionLaws e x v) ∧
    (e < s.nextEnv → ∀ params args, s.ExtensionLaws e params args) := by
  refine ⟨?_, ?_, ?_⟩
  · exact fun x v ↦ hs.assignmentLaws e x v
  · exact fun he x v ↦ hs.definitionLaws he x v
  · exact fun he params args ↦ hs.extensionLaws he params args

/-- Two environments, 2 and 3, within one that binds `x`, and one within 2 that hides it. Assigning
`x` from 3 is seen from 2 and not from 4. Defining it in 2 is seen from 2 and not from 3. With `x`
twice among the parameters the second argument counts. -/
theorem writes_are_seen_where_met_shared :
    let x : Symbol := ⟨"x"⟩
    let s : Store Node := ⟨#[⟨⟨[(.symbol x, .int 1)]⟩, 0⟩, ⟨.empty, 1⟩, ⟨.empty, 1⟩,
      ⟨⟨[(.symbol x, .int 5)]⟩, 2⟩], #[], 0⟩
    let lookup e t := Outcome.result (EStateM.run (Action.lookup e (.symbol x)) t)
    (∃ t, EStateM.run (Action.assign 3 (.symbol x) (.int 7)) s = .ok (.int 7) t ∧
      lookup 2 t = .ok (.int 7) ∧ lookup 4 t = .ok (.int 5)) ∧
    (∃ t, EStateM.run (Action.define 2 (.symbol x) (.int 9)) s = .ok (.int 9) t ∧
      lookup 2 t = .ok (.int 9) ∧ lookup 3 t = .ok (.int 1)) ∧
    ∃ e t, EStateM.run (Action.extend 4 [.symbol x, .symbol x] [.int 6, .int 8]) s = .ok e t ∧
      lookup e t = .ok (.int 8) := by
  intro x s lookup
  have hs : s.Ordered := by
    intro e env henv
    match e, henv with
    | 1, henv | 2, henv | 3, henv | 4, henv =>
      cases henv
      decide
  have ⟨hone, hfive, hsame, hhidden⟩ : s.value? 3 (.symbol x) = some (.int 1) ∧
      s.value? 4 (.symbol x) = some (.int 5) ∧ s.find? 2 (.symbol x) = s.find? 3 (.symbol x) ∧
      s.find? 4 (.symbol x) ≠ s.find? 3 (.symbol x) := by decide +kernel
  have hlookup : EStateM.run (Action.lookup 3 (.symbol x)) s = .ok (.int 1) s := by
    rw [EStateM.run, Action.lookup, hone]
  have hassign := (writes_are_seen_where_met hs 3).1 (.symbol x) (.int 7)
  have hdefine := (writes_are_seen_where_met hs 2).2.1 rfl x (.int 9)
  have hextend := (writes_are_seen_where_met hs 4).2.2 (by decide) [.symbol x, .symbol x]
    [.int 6, .int 8]
  refine ⟨?_, ?_, ?_⟩
  · obtain ⟨t, ht⟩ := hassign.succeeds ⟨.int 1, hlookup⟩
    obtain ⟨hseen, hkept⟩ := hassign.rebinds _ t ht
    refine ⟨t, ht, hseen 2 (.symbol x) rfl hsame, ?_⟩
    exact (hkept 4 (.symbol x) fun h ↦ hhidden h.2).trans (Store.result_lookup_of_value? hfive)
  · obtain ⟨t, ht⟩ := hdefine.succeeds
    obtain ⟨hseen, hkept⟩ := hdefine.rebinds _ t ht
    have hmisses : ¬ s.MeetsFirst (.symbol x) 2 3 := by
      rintro (_ | ⟨⟨⟩, -, _ | ⟨⟨⟩, hx, -⟩⟩)
      revert hx
      decide
    refine ⟨t, ht, hseen 2 (.symbol x) rfl .here, ?_⟩
    exact (hkept 3 (.symbol x) fun h ↦ hmisses h.2).trans (Store.result_lookup_of_value? hone)
  · obtain ⟨e, t, ht⟩ := hextend.succeeds rfl (by decide)
    refine ⟨e, t, ht, ?_⟩
    exact hextend.last e t ht [.symbol x] (.symbol x) [] [.int 6] (.int 8) [] (.symbol x)
      rfl rfl rfl rfl (by simp)

end ReverseLisp
