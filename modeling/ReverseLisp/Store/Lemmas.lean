import ReverseLisp.Store

/-!
# Laws of frames and stores

What each operation does to the two views of a frame, its names and its values, and to the
environments of a store. Binding a name changes one frame and no enclosure, so it never changes
which environments are met when walking outward.
-/

namespace ReverseLisp

/-! ## Frames -/

namespace Frame

@[simp] theorem get?_empty (x : Value) : empty.get? x = none := rfl

theorem find?_setBinding (x y v : Value) (bs : List (Value × Value)) :
    ((setBinding x v bs).find? fun b ↦ b.1.key = y.key).map (·.2) =
      if y.key = x.key then some v else (bs.find? fun b ↦ b.1.key = y.key).map (·.2) := by
  induction bs with
  | nil =>
    by_cases h : y.key = x.key
    · simp [setBinding, h]
    · have h' : ¬ x.key = y.key := fun k ↦ h k.symm
      simp [setBinding, h, h']
  | cons b bs ih =>
    obtain ⟨z, w⟩ := b
    by_cases hz : z.key = x.key
    · by_cases h : y.key = x.key
      · simp [setBinding, hz, h]
      · have h' : ¬ x.key = y.key := fun k ↦ h k.symm
        simp [setBinding, hz, h, h']
    · by_cases hy : z.key = y.key
      · have h : ¬ y.key = x.key := fun k ↦ hz (hy.trans k)
        simp [setBinding, hy, h]
      · simp [setBinding, hz, hy, ih]

/-- Binding a name changes the value of that name and of no other. -/
theorem get?_set (f : Frame) (x y v : Value) :
    (f.set x v).get? y = if y.key = x.key then some v else f.get? y :=
  find?_setBinding x y v f.bindings

theorem map_fst_setBinding (x v : Value) (bs : List (Value × Value)) :
    (setBinding x v bs).map (·.1) =
      if x.key ∈ bs.map (·.1.key) then bs.map (·.1) else bs.map (·.1) ++ [x] := by
  induction bs with
  | nil => simp [setBinding]
  | cons b bs ih =>
    obtain ⟨z, w⟩ := b
    by_cases hz : z.key = x.key
    · simp [setBinding, hz]
    · have hx : ¬ x.key = z.key := fun h ↦ hz h.symm
      simp only [setBinding, hz, if_false, List.map_cons, ih, List.mem_cons, hx, false_or]
      split <;> rfl

/-- A name that is bound already keeps its place, and another is added at the end. -/
theorem names_set (f : Frame) (x v : Value) :
    (f.set x v).names = if x.key ∈ f.keys then f.names else f.names ++ [x] := by
  have h : f.keys = f.bindings.map (·.1.key) := List.map_map
  rw [h]
  exact map_fst_setBinding x v f.bindings

theorem keys_set (f : Frame) (x v : Value) :
    (f.set x v).keys = if x.key ∈ f.keys then f.keys else f.keys ++ [x.key] := by
  unfold keys
  rw [names_set]
  unfold keys
  split
  · rfl
  · exact List.map_append

theorem binds_iff_mem_keys (f : Frame) (x : Value) : f.binds x = true ↔ x.key ∈ f.keys := by
  simp [binds, get?, keys, names]

theorem binds_set (f : Frame) (x y v : Value) :
    (f.set x v).binds y = (decide (y.key = x.key) || f.binds y) := by
  by_cases h : y.key = x.key <;> simp [binds, get?_set, h]

/-- No name is bound twice, and binding one more keeps it so. -/
theorem nodup_keys_set {f : Frame} (h : f.keys.Nodup) (x v : Value) :
    (f.set x v).keys.Nodup := by
  rw [keys_set]
  split
  · exact h
  · next hx =>
    rw [List.nodup_append]
    refine ⟨h, by simp, ?_⟩
    intro a ha b hb
    rw [List.mem_singleton] at hb
    subst hb
    exact fun hab ↦ hx (hab ▸ ha)

theorem nodup_keys_ofPairs (ps : List (Value × Value)) : (ofPairs ps).keys.Nodup := by
  have key : ∀ (ps : List (Value × Value)) (f : Frame), f.keys.Nodup →
      (ps.foldl (fun f p ↦ f.set p.1 p.2) f).keys.Nodup := by
    intro ps
    induction ps with
    | nil => exact fun _ h ↦ h
    | cons p ps ih => exact fun f h ↦ ih _ (nodup_keys_set h p.1 p.2)
  exact key ps empty List.nodup_nil

/-- Parameters that are symbols always make a frame. -/
theorem ofPairs?_symbols (params : List Symbol) (args : List Value) :
    ofPairs? ((params.map .symbol).zip args) = .ok (ofPairs ((params.map .symbol).zip args)) := by
  have h : ((params.map Value.symbol).zip args).any (·.1.isList) = false := by
    induction params generalizing args with
    | nil => rfl
    | cons x xs ih =>
      cases args with
      | nil => rfl
      | cons v vs => simpa [Value.isList] using ih vs
  simp [ofPairs?, h]

end Frame

/-! ## Stores -/

namespace Store

variable {β γ : Type}

@[simp] theorem env?_zero (s : Store β) : s.env? 0 = none := rfl

/-- Binding a name changes the frame of one environment and no enclosure. -/
theorem env?_put (s : Store β) (e e' : EnvId) (x v : Value) :
    (s.put e x v).env? e' =
      if e' = e then (s.env? e').map fun env ↦ { env with frame := env.frame.set x v }
      else s.env? e' := by
  cases e with
  | zero => cases e' <;> simp [put]
  | succ n =>
    cases e' with
    | zero => simp
    | succ m =>
      simp only [put, env?, Array.getElem?_modify]
      by_cases h : m = n
      · simp [h]
      · have h' : ¬ n = m := fun k ↦ h k.symm
        simp [h, h']

@[simp] theorem codes_put (s : Store β) (e : EnvId) (x v : Value) :
    (s.put e x v).codes = s.codes := by
  cases e <;> rfl

@[simp] theorem marks_put (s : Store β) (e : EnvId) (x v : Value) :
    (s.put e x v).marks = s.marks := by
  cases e <;> rfl

@[simp] theorem nextEnv_put (s : Store β) (e : EnvId) (x v : Value) :
    (s.put e x v).nextEnv = s.nextEnv := by
  cases e <;> simp [put, nextEnv]

@[simp] theorem nextEnv_pushEnv (s : Store β) (env : Env) :
    (s.pushEnv env).nextEnv = s.nextEnv + 1 := by
  simp [pushEnv, nextEnv]

/-- A new environment gets the next number; the others stay as they are. -/
theorem env?_pushEnv (s : Store β) (env : Env) (e : EnvId) :
    (s.pushEnv env).env? e = if e = s.nextEnv then some env else s.env? e := by
  cases e with
  | zero => simp [nextEnv]
  | succ n => simp [pushEnv, env?, nextEnv, Array.getElem?_push]

/-- The next number is not yet given to an environment. -/
theorem env?_nextEnv (s : Store β) : s.env? s.nextEnv = none := by
  simp [env?, nextEnv]

theorem chain_zero (s : Store β) : s.chain 0 = [] := by
  rw [chain]

theorem chain_of_env? {s : Store β} {e : EnvId} {env : Env} (h : s.env? e = some env) :
    s.chain e = e :: if env.enclosure < e then s.chain env.enclosure else [] := by
  cases e with
  | zero => simp at h
  | succ n =>
    have h' : s.envs[n]? = some env := h
    rw [chain, h']

theorem chain_of_env?_eq_none {s : Store β} {e : EnvId} (h : s.env? e = none) :
    s.chain e = [] := by
  cases e with
  | zero => exact chain_zero s
  | succ n =>
    have h' : s.envs[n]? = none := h
    rw [chain, h']

/-- Walking outward follows enclosures only, so it does not depend on any binding. -/
theorem chain_put (s : Store β) (e e' : EnvId) (x v : Value) :
    (s.put e x v).chain e' = s.chain e' := by
  induction e' using Nat.strongRecOn with
  | _ e' ih =>
    cases h : s.env? e' with
    | none =>
      have h' : (s.put e x v).env? e' = none := by
        rw [env?_put, h]
        split <;> rfl
      rw [chain_of_env?_eq_none h, chain_of_env?_eq_none h']
    | some env =>
      have h' : ∃ f, (s.put e x v).env? e' = some ⟨f, env.enclosure⟩ := by
        rw [env?_put, h]
        split
        · exact ⟨_, rfl⟩
        · exact ⟨_, rfl⟩
      obtain ⟨f, h'⟩ := h'
      rw [chain_of_env? h, chain_of_env? h']
      dsimp only
      split
      · next hlt => rw [ih _ hlt]
      · rfl

/-! What is found depends on the environments only. -/

theorem env?_congr {s : Store β} {t : Store γ} (h : s.envs = t.envs) (e : EnvId) :
    s.env? e = t.env? e := by
  cases e with
  | zero => rfl
  | succ n => rw [env?, env?, h]

theorem chain_congr {s : Store β} {t : Store γ} (h : s.envs = t.envs) (e : EnvId) :
    s.chain e = t.chain e := by
  induction e using Nat.strongRecOn with
  | _ e ih =>
    have he := env?_congr h e
    cases hs : s.env? e with
    | none =>
      have ht : t.env? e = none := he ▸ hs
      rw [chain_of_env?_eq_none hs, chain_of_env?_eq_none ht]
    | some env =>
      have ht : t.env? e = some env := he ▸ hs
      rw [chain_of_env? hs, chain_of_env? ht]
      split
      · next hlt => rw [ih _ hlt]
      · rfl

theorem find?_congr {s : Store β} {t : Store γ} (h : s.envs = t.envs) (e : EnvId) (x : Value) :
    s.find? e x = t.find? e x := by
  have hb : (s.binds · x) = (t.binds · x) := by
    funext e'
    rw [binds, binds, env?_congr h]
  rw [find?, find?, chain_congr h, hb]

theorem value?_congr {s : Store β} {t : Store γ} (h : s.envs = t.envs) (e : EnvId) (x : Value) :
    s.value? e x = t.value? e x := by
  rw [value?, value?, find?_congr h]
  have he : s.env? = t.env? := funext (env?_congr h)
  rw [he]

/-- A name is found in an environment that binds it. -/
theorem binds_of_find? {s : Store β} {e e' : EnvId} {x : Value} (h : s.find? e x = some e') :
    s.binds e' x = true :=
  List.find?_some (p := (s.binds · x)) h

end Store

/-! ## Errors -/

/-- The error of an unbound symbol gives its name. -/
theorem Action.errorUnbound_symbol (e : EnvId) (x : Symbol) (mk : String → Error) :
    Action.errorUnbound e (.symbol x) mk = mk x.name := by
  have hlist : ¬ ((Value.symbol x).isList = true ∧ e ≠ 0) := fun h ↦ nomatch h.1
  rw [Action.errorUnbound, if_neg hlist]
  exact congrArg mk String.ofList_toList

end ReverseLisp
