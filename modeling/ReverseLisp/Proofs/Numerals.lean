import ReverseLisp.Proofs.Library

/-!
# Numerals that are functions

The library writes a number as a function that takes a function and repeats it: `zero_` repeats it
not at all, and `inc` adds one application after those of another numeral. To say what a numeral
does, `Machine.iterate` repeats an application outright. A numeral that is given `f` and then `x`
first makes all environments and closures that it will need, going down to `zero_`. After that it
does nothing but apply `f`, coming back up. So it comes to what the iteration comes to, with the
same value or the same error and the same store, from a store to which only environments and
closures have been added.

## Later use

A numeral keeps what it counts in the environments in which `inc` was called. Nobody can write to
these, since what is made in them does not write: they are sealed. So a numeral that was made once
goes on repeating as often as it did, whatever programs run in between.
-/

namespace ReverseLisp

open Prelude (name call lambda successor)

/-! ## Stores to which little has been added -/

/-- Environments have been added, and closures that do not write. -/
structure Store.Adds (s t : Store Node) : Prop where
  kept : s.Extends t
  marks : t.marks = s.marks
  sealed : ∀ b, s.Sealed b → s.KeepsSealed b t

namespace Store.Adds

variable {s t u : Store Node}

theorem refl (s : Store Node) : s.Adds s := ⟨.refl s, rfl, fun _ hb ↦ hb.refl⟩

theorem trans (h : s.Adds t) (h' : t.Adds u) : s.Adds u where
  kept := h.kept.trans h'.kept
  marks := h'.marks.trans h.marks
  sealed b hb := (h.sealed b hb).trans (h'.sealed b (h.sealed b hb).again)

theorem pushEnv {env : Env} (hn : env.enclosure < s.nextEnv) : s.Adds (s.pushEnv env) :=
  ⟨.pushEnv hn, rfl, fun _ hb ↦ hb.pushEnv hn⟩

theorem pushCode {c : Code Node} (henv : c.env < s.nextEnv) (hquiet : c.body.isQuiet = true) :
    s.Adds { s with codes := s.codes.push c } :=
  ⟨.pushCode s c, rfl, fun _ hb ↦ hb.pushCode henv fun _ ↦ hquiet⟩

end Store.Adds

/-! ## Numerals -/

/-- Applies `f` to `x`, then to the result, and so on, `n` times in all. -/
def Machine.iterate (limit : Nat) (f : Value) : Nat → Value → Machine Value
  | 0, x => pure x
  | n + 1, x => do Machine.apply limit f [← iterate limit f n x]

/-- The expression that counts up to `n` from `zero_`. -/
def Prelude.numeral : Nat → Value
  | 0 => name "zero_"
  | n + 1 => call "inc" [numeral n]

open Prelude (numeral)

namespace Store

/-- The value is `zero_` or has been made by `inc` from a numeral, in a call whose environment is
sealed. -/
inductive IsNumeral (s : Store Node) (g : EnvId) : Nat → Value → Prop where
  | zero {v : Value} (code : s.IsClosure v [⟨"f"⟩] [lambda ["x"] (name "x")] g) : IsNumeral s g 0 v
  | succ {n : Nat} {v w : Value} {b : EnvId} (before : IsNumeral s g n w)
      (code : s.IsClosure v [⟨"f"⟩] [lambda ["x"] successor] b)
      (env : s.env? b = some ⟨Frame.ofPairs [(name "n", w)], g⟩) (hb : s.Sealed b) :
    IsNumeral s g (n + 1) v

/-- What a numeral gives for `f`: the identity, or the function that repeats `f` one more time. -/
inductive IsPower (s : Store Node) (g : EnvId) (f : Value) : Nat → Value → Prop where
  | zero {h : Value} {b : EnvId} (code : s.IsClosure h [⟨"x"⟩] [name "x"] b)
      (made : b < s.nextEnv) : IsPower s g f 0 h
  | succ {n : Nat} {h w : Value} {b : EnvId} (before : s.IsNumeral g n w)
      (code : s.IsClosure h [⟨"x"⟩] [successor] b)
      (shows : s.Shows b [(⟨"f"⟩, f), (⟨"n"⟩, w)]) : IsPower s g f (n + 1) h

variable {s t : Store Node} {g : EnvId} {n : Nat} {v : Value}

/-- A numeral stays one while closures are kept and sealed environments stay sealed. -/
theorem IsNumeral.mono (h : s.IsNumeral g n v)
    (hcode : ∀ (id : Nat) c, s.codes[id]? = some c → t.codes[id]? = some c)
    (hsealed : ∀ b, g < b → s.Sealed b → s.KeepsSealed b t) : t.IsNumeral g n v := by
  have hclosure {v : Value} {params : List Symbol} {source : List Value} {e : EnvId}
      (h : s.IsClosure v params source e) : t.IsClosure v params source e := by
    obtain ⟨id, ns, hv, hns, hc⟩ := h
    exact ⟨id, ns, hv, hns, hcode id _ hc⟩
  induction h with
  | zero code => exact .zero (hclosure code)
  | succ _ code env hb ih =>
    have hkept := hsealed _ (hb.ordered _ _ env) hb
    exact .succ ih (hclosure code) (hkept.env.trans env) hkept.again

/-- As an expression, a numeral stands for itself. -/
theorem IsNumeral.analyze (h : s.IsNumeral g n v) : v.analyze = .ok (.literal v) := by
  rcases h with ⟨_, _, rfl, -, -⟩ | ⟨-, ⟨_, _, rfl, -, -⟩, -, -⟩
  · rfl
  · rfl

theorem IsNumeral.adds (h : s.IsNumeral g n v) (hst : s.Adds t) : t.IsNumeral g n v :=
  h.mono hst.kept.code fun b _ hb ↦ hst.sealed b hb

end Store

namespace Value

variable {s : Store Node} {g e : EnvId} {n : Nat} {v f : Value}

/-- Making a closure that does not write. -/
theorem exists_quietFunction {ps body : Value} {params : List Symbol} {node : Node}
    (hparams : ps.parameters = .ok params) (hnode : body.analyze = .ok node)
    (hquiet : node.isQuiet = true) (he : e < s.nextEnv) :
    ∃ fn t, (form .function [ps, body]).Evaluates e s fn t ∧ s.Adds t ∧
      t.IsClosure fn params [body] e := by
  have hbody : analyzeEach [body] = .ok [node] := by
    rw [analyzeEach, hnode]
    rfl
  refine ⟨_, _, evaluates_function hparams hbody e s, .pushCode he hquiet, _, [node], rfl, hbody,
    ?_⟩
  rw [Array.getElem?_push_size]

/-- A call of a closure whose body makes a closure that does not write. -/
theorem exists_quietCall {ps body fn : Value} {params inner : List Symbol} (args : List Value)
    {node : Node} (hfn : s.IsClosure fn params [form .function [ps, body]] e)
    (hlength : params.length = args.length) (hparams : ps.parameters = .ok inner)
    (hnode : body.analyze = .ok node) (hquiet : node.isQuiet = true) :
    ∃ h t, fn.Applies args s h t ∧
      (s.pushEnv ⟨Frame.ofPairs ((params.map symbol).zip args), e⟩).Adds t ∧
      t.IsClosure h inner [body] s.nextEnv := by
  have hmade : s.nextEnv <
      (s.pushEnv ⟨Frame.ofPairs ((params.map symbol).zip args), e⟩).nextEnv := by
    rw [Store.nextEnv_pushEnv]
    exact Nat.lt_succ_self _
  obtain ⟨h, t, hrun, hadds, hcode⟩ := exists_quietFunction hparams hnode hquiet hmade
  exact ⟨h, t, hrun.applies hfn hlength, hadds, hcode⟩

/-- Counting up makes a numeral. The environment of each call of `inc` is new, so nothing has been
made in it but the numeral. -/
theorem exists_numeral {zero inc : Value} (hsealed : s.Sealed 0)
    (hs : s.Shows g [(⟨"zero_"⟩, zero), (⟨"inc"⟩, inc)])
    (hzero : s.IsClosure zero [⟨"f"⟩] [lambda ["x"] (name "x")] g)
    (hinc : s.IsClosure inc [⟨"n"⟩] [lambda ["f"] (lambda ["x"] successor)] g) (n : Nat) :
    ∃ v t, (numeral n).Evaluates g s v t ∧ s.Adds t ∧ t.IsNumeral g n v := by
  induction n with
  | zero =>
    exact ⟨zero, s, evaluates_symbol (hs.value (⟨"zero_"⟩, zero) (by simp)), .refl s, .zero hzero⟩
  | succ n ih =>
    obtain ⟨w, t, hw, hst, hnumeral⟩ := ih
    have hname := evaluates_symbol (hs.value (⟨"inc"⟩, inc) (by simp))
    have hg := (hs.mono hst.kept).made
    have ht := (hst.sealed 0 hsealed).again
    obtain ⟨v, u, happ, hadds, hcode⟩ : ∃ v u, inc.Applies [w] t v u ∧
        (t.pushEnv ⟨Frame.ofPairs [(name "n", w)], g⟩).Adds u ∧
        u.IsClosure v [⟨"f"⟩] [lambda ["x"] successor] t.nextEnv :=
      exists_quietCall [w] (hinc.mono hst.kept) rfl rfl rfl rfl
    have hpush : t.Adds (t.pushEnv ⟨Frame.ofPairs [(name "n", w)], g⟩) := .pushEnv hg
    have hnew : (t.pushEnv ⟨Frame.ofPairs [(name "n", w)], g⟩).Sealed t.nextEnv := by
      refine ((hpush.sealed 0 ht).again).of_forall_lt ?_ ht.code_env
      rw [Store.nextEnv_pushEnv]
      exact Nat.lt_succ_self _
    have hkept := hadds.sealed _ hnew
    refine ⟨v, u, hname.call rfl (hw.cons (evaluateTo_nil g t)) happ, hst.trans (hpush.trans hadds),
      .succ (hnumeral.adds (hpush.trans hadds)) hcode (hkept.env.trans ?_) hkept.again⟩
    rw [Store.env?_pushEnv, if_pos rfl]

end Value

/-! ## Repeating -/

/-- A call of one argument evaluates the argument and then applies the function. -/
theorem Value.comesTo_argument {s t : Store Node} {e : EnvId} {f a fn : Value} {node m : Node}
    (hw : f.isFormWord = false) (hnode : (Value.list [f, a]).analyze = .ok node)
    (hm : a.analyze = .ok m) (hf : f.Evaluates e s fn t) :
    ComesTo (fun limit ↦ Machine.run limit node e) s
      (fun limit ↦ Machine.run limit m e >>= fun v ↦ Machine.apply limit fn [v]) t := by
  obtain ⟨n, hn, hrun⟩ := hf
  have hargs : Value.analyzeEach [a] = .ok [m] := by
    rw [Value.analyzeEach, hm]
    rfl
  rw [Analysis.analyze_application hw, hn, hargs] at hnode
  obtain rfl : Node.application n [m] = node := Except.ok.inj hnode
  have hcollect (limit : Nat) (fn : Value) : (Machine.collect (Machine.run limit · e) [m] >>=
      fun args ↦ Machine.apply limit fn args) =
        Machine.run limit m e >>= fun v ↦ Machine.apply limit fn [v] := by
    simp only [Machine.collect, bind_assoc, pure_bind]
  refine ComesTo.nest (ComesTo.bind_ok hrun (f := fun fn limit ↦
    Machine.run limit m e >>= fun v ↦ Machine.apply limit fn [v])) fun limit ↦ ?_
  exact congrArg (Machine.run limit n e >>= ·) (funext fun fn ↦ hcollect limit fn)

namespace Machine

theorem apply_cutsShort {m n : Nat} (h : m ≤ n) (fn : Value) (args : List Value) :
    Action.CutsShort (apply m fn args) (apply n fn args) :=
  applyWith_cutsShort (fun node e ↦ run_cutsShort h node e) fn args

theorem iterate_cutsShort {m n : Nat} (h : m ≤ n) (f : Value) (k : Nat) (x : Value) :
    Action.CutsShort (iterate m f k x) (iterate n f k x) := by
  induction k with
  | zero => exact .refl _
  | succ k ih => exact ih.bind fun y ↦ apply_cutsShort h f [y]

end Machine

namespace Store

open Machine (run)

variable {s : Store Node} {g : EnvId} {n : Nat} {v f : Value}

theorem IsNumeral.exists_power (hv : s.IsNumeral g n v) (hs : s.Ordered) (hg : g < s.nextEnv)
    (f : Value) : ∃ h t, v.Applies [f] s h t ∧ s.Adds t ∧ t.IsPower g f n h := by
  cases hv with
  | zero code =>
    obtain ⟨h, t, happ, hadds, hcode⟩ : ∃ h t, v.Applies [f] s h t ∧
        (s.pushEnv ⟨Frame.ofPairs [(name "f", f)], g⟩).Adds t ∧
        t.IsClosure h [⟨"x"⟩] [name "x"] s.nextEnv :=
      Value.exists_quietCall [f] code rfl rfl rfl rfl
    have hpush : s.Adds (s.pushEnv ⟨Frame.ofPairs [(name "f", f)], g⟩) := .pushEnv hg
    have hmade := hadds.kept.nextEnv_le
    rw [nextEnv_pushEnv] at hmade
    exact ⟨h, t, happ, hpush.trans hadds, .zero hcode hmade⟩
  | @succ n _ w b before code env hb =>
    obtain ⟨h, t, happ, hadds, hcode⟩ : ∃ h t, v.Applies [f] s h t ∧
        (s.pushEnv ⟨Frame.ofPairs [(name "f", f)], b⟩).Adds t ∧
        t.IsClosure h [⟨"x"⟩] [successor] s.nextEnv :=
      Value.exists_quietCall [f] code rfl rfl rfl rfl
    have hpush : s.Adds (s.pushEnv ⟨Frame.ofPairs [(name "f", f)], b⟩) := .pushEnv hb.made
    have hglobal : s.Shows g [] := ⟨hs, hg, by simp⟩
    have hframe : s.env? b = some ⟨Frame.ofPairs (([⟨"n"⟩].map .symbol).zip [w]), g⟩ := env
    have hshows := hglobal.within hframe (by decide) rfl (by simp)
    have hcall : (s.pushEnv ⟨Frame.ofPairs (([⟨"f"⟩].map .symbol).zip [f]), b⟩).Shows s.nextEnv
        [(⟨"f"⟩, f), (⟨"n"⟩, w)] :=
      hshows.call (by decide) rfl (by simp)
    exact ⟨h, t, happ, hpush.trans hadds, .succ (before.adds (hpush.trans hadds)) hcode
      (hcall.mono hadds.kept)⟩

/-- The function that repeats `f` first makes all that it needs, and then repeats `f`. -/
theorem IsPower.comesTo {h : Value} (hh : s.IsPower g f n h) (hs : s.Ordered) (hg : g < s.nextEnv)
    (x : Value) : ∃ t, s.Adds t ∧ ComesTo (fun limit ↦ Machine.apply limit h [x]) s
      (fun limit ↦ Machine.iterate limit f n x) t := by
  induction n generalizing s h with
  | zero =>
    obtain @⟨_, b, code, made⟩ := hh
    have hb : s.Shows b [] := ⟨hs, made, by simp⟩
    have hcall : (s.pushEnv ⟨Frame.ofPairs (([⟨"x"⟩].map .symbol).zip [x]), b⟩).Shows s.nextEnv
        [(⟨"x"⟩, x)] :=
      hb.call (by decide) rfl (by simp)
    have hx := (Value.evaluates_symbol (hcall.value _ List.mem_cons_self)).applies code rfl
    exact ⟨_, .pushEnv made, .of_endsWith hx ⟨0, fun _ _ ↦ rfl⟩⟩
  | succ n ih =>
    obtain _ | @⟨_, _, w, b, before, code, shows⟩ := hh
    have hcall : (s.pushEnv ⟨Frame.ofPairs (([⟨"x"⟩].map .symbol).zip [x]), b⟩).Shows s.nextEnv
        [(⟨"x"⟩, x), (⟨"f"⟩, f), (⟨"n"⟩, w)] :=
      shows.call (by decide) rfl (by simp)
    have hpush : s.Adds (s.pushEnv ⟨Frame.ofPairs (([⟨"x"⟩].map .symbol).zip [x]), b⟩) :=
      .pushEnv shows.made
    have hg' := Nat.lt_of_lt_of_le hg hpush.kept.nextEnv_le
    -- On the way down: the numeral before is given `f`, and what it gives is given `x`.
    obtain ⟨h', t, happ, ht, hpower⟩ := (before.adds hpush).exists_power hcall.ordered hg' f
    have hf := Value.evaluates_symbol (hcall.value (⟨"f"⟩, f) (by simp))
    have hn := Value.evaluates_symbol (hcall.value (⟨"n"⟩, w) (by simp))
    have hx := Value.evaluates_symbol ((hcall.mono ht.kept).value (⟨"x"⟩, x) (by simp))
    have hpart := hn.call rfl (hf.cons (Value.evaluateTo_nil _ _)) happ
    obtain ⟨u, hu, hrest⟩ := ih hpower (ht.kept.ordered hcall.ordered)
      (Nat.lt_of_lt_of_le hg' ht.kept.nextEnv_le)
    have hinner := Value.comesTo_call rfl rfl hpart (hx.cons (Value.evaluateTo_nil _ _))
    -- On the way up: `f` is applied once more.
    refine ⟨u, hpush.trans (ht.trans hu), ?_⟩
    refine (ComesTo.of_run_eq (Value.run_apply_of_isClosure code rfl rfl)).trans ?_
    refine (Value.comesTo_argument (a := .list [call "n" [name "f"], name "x"]) rfl rfl rfl
      hf).trans ?_
    exact (hinner.trans hrest).bind (fun _ _ hle ↦ Machine.run_cutsShort hle _ _)
      fun _ _ hle ↦ Machine.iterate_cutsShort hle f n x

/-- A numeral that is given `f` and then `x` repeats `f`, starting from `x`. -/
theorem IsNumeral.comesTo (hv : s.IsNumeral g n v) (hs : s.Ordered) (hg : g < s.nextEnv)
    (f x : Value) : ∃ t, s.Adds t ∧
      ComesTo (fun limit ↦ do Machine.apply limit (← Machine.apply limit v [f]) [x]) s
        (fun limit ↦ Machine.iterate limit f n x) t := by
  obtain ⟨h, t, happ, ht, hpower⟩ := hv.exists_power hs hg f
  obtain ⟨u, hu, hcomes⟩ := hpower.comesTo (ht.kept.ordered hs)
    (Nat.lt_of_lt_of_le hg ht.kept.nextEnv_le) x
  exact ⟨u, ht.trans hu, (ComesTo.bind_ok happ
    (f := fun h limit ↦ Machine.apply limit h [x])).trans hcomes⟩

/-! ## Reading a numeral off -/

/-- Repeating `add1` from zero counts. -/
theorem exists_iterate_add {add : Value}
    (hadd : ∀ n, add.Returns s [.int n] (Value.Is (.int (n + 1)))) (n : Nat) :
    ∃ t, EndsWith (fun limit ↦ Machine.iterate limit add n (.int 0)) s (.ok (.int n) t) ∧
      s.Extends t := by
  induction n with
  | zero => exact ⟨s, ⟨0, fun _ _ ↦ rfl⟩, .refl s⟩
  | succ n ih =>
    obtain ⟨t, hend, hst⟩ := ih
    obtain ⟨_, u, happ, htu, rfl⟩ := hadd n t hst
    exact ⟨u, hend.bind_ok (f := fun y limit ↦ Machine.apply limit add [y]) happ, hst.trans htu⟩

theorem IsNumeral.exists_church (hv : s.IsNumeral g n v) {church add : Value}
    (hchurch : s.IsClosure church [⟨"n"⟩] [.list [call "n" [name "add1"], .int 0]] g)
    (hs : s.Shows g [(⟨"add1"⟩, add)])
    (hadd : ∀ n, add.Returns s [.int n] (Value.Is (.int (n + 1)))) :
    ∃ t, church.Applies [v] s (.int n) t ∧ s.Extends t := by
  have hcall : (s.pushEnv ⟨Frame.ofPairs (([⟨"n"⟩].map .symbol).zip [v]), g⟩).Shows s.nextEnv
      [(⟨"n"⟩, v), (⟨"add1"⟩, add)] :=
    hs.call (by decide) rfl (by simp)
  have hpush : s.Adds (s.pushEnv ⟨Frame.ofPairs (([⟨"n"⟩].map .symbol).zip [v]), g⟩) :=
    .pushEnv hs.made
  have hg := Nat.lt_of_lt_of_le hs.made hpush.kept.nextEnv_le
  obtain ⟨h, t, happ, ht, hpower⟩ := (hv.adds hpush).exists_power hcall.ordered hg add
  have hn := Value.evaluates_symbol (hcall.value (⟨"n"⟩, v) (by simp))
  have hadd1 := Value.evaluates_symbol (hcall.value (⟨"add1"⟩, add) (by simp))
  have hpart := hn.call rfl (hadd1.cons (Value.evaluateTo_nil _ _)) happ
  have hzero := Value.evaluates_literal (v := .int 0) rfl s.nextEnv t
  obtain ⟨u, hu, hcomes⟩ := hpower.comesTo (ht.kept.ordered hcall.ordered)
    (Nat.lt_of_lt_of_le hg ht.kept.nextEnv_le) (.int 0)
  have hsu := (hpush.trans (ht.trans hu)).kept
  obtain ⟨w, hend, huw⟩ := exists_iterate_add (fun n ↦ (hadd n).mono hsu) n
  have hbody := hpart.call rfl (hzero.cons (Value.evaluateTo_nil _ _)) ((hcomes _ rfl).2 hend)
  exact ⟨w, hbody.applies hchurch rfl, hsu.trans huw⟩

end Store

/-- **Numerals iterate.** As long as the names mean what the library made them mean, counting up to
`n` gives a value, and leaves the environments and closures that were there as they were. In every
later session this value, given a function and then an argument, comes to what `n` applications of
the function come to, the first to the argument and each other one to the result before: to the same
result or the same error, in the same store. They start from a store to which environments and
closures have been added and nothing else has happened. And `church` gives `n` for the value. -/
theorem numerals_iterate {s : Session}
    (h : s.KeepsNames ["zero_", "inc", "church", "add1", "+"]) (n : Nat) :
    ∃ v t, EndsWith (fun limit ↦ Machine.evaluate limit (numeral n) s.env) s.store (.ok v t) ∧
      s.store.Extends t ∧
      Session.KeepsNames ⟨t, s.env, s.limit⟩ ["zero_", "inc", "church", "add1", "+"] ∧
      ∀ u, Session.LeadsTo ⟨t, s.env, s.limit⟩ u →
        (∀ f x, ∃ w, u.store.Extends w ∧ w.marks = u.store.marks ∧
          ComesTo (fun limit ↦ do Machine.apply limit (← Machine.apply limit v [f]) [x]) u.store
            (fun limit ↦ Machine.iterate limit f n x) w) ∧
        (u.KeepsNames ["church", "add1", "+"] → ∃ w,
          EndsWith (fun limit ↦ Machine.evaluate limit (call "church" [v]) u.env) u.store
            (.ok (.int n) w) ∧ u.store.Extends w) := by
  obtain ⟨zero, hzero, hzeroCode⟩ := h.function (x := "zero_") rfl (by decide)
  obtain ⟨inc, hinc, hincCode⟩ := h.function (x := "inc") rfl (by decide)
  have hs : s.store.Shows s.env [(⟨"zero_"⟩, zero), (⟨"inc"⟩, inc)] :=
    h.shows (List.forall_mem_cons.2 ⟨hzero, List.forall_mem_singleton.2 hinc⟩)
  obtain ⟨v, t, hv, hadds, hnumeral⟩ := Value.exists_numeral h.sealed_zero hs hzeroCode hincCode n
  have hkeeps := h.evaluate hv.evaluate hadds.kept
  refine ⟨v, t, hv.evaluate, hadds.kept, hkeeps, fun u hlater ↦ ?_⟩
  obtain ⟨henv, hzero⟩ := hlater.keepsSealed hkeeps.sealed_zero hkeeps.made
    (hkeeps.sealed_zero.ordered.zero_notMem_chain _)
  have hg : s.env < u.store.nextEnv := Nat.lt_of_lt_of_le hkeeps.made hzero.nextEnv_le
  have hnumeral : u.store.IsNumeral s.env n v := by
    refine hnumeral.mono hzero.code fun b hb hsealed ↦ ?_
    exact (hlater.keepsSealed hsealed hkeeps.made fun hmem ↦
      absurd (hsealed.ordered.le_of_mem_chain hmem) (Nat.not_le.2 hb)).2
  refine ⟨fun f x ↦ ?_, fun hu ↦ ?_⟩
  · obtain ⟨w, hw, hcomes⟩ := hnumeral.comesTo hzero.again.ordered hg f x
    exact ⟨w, hw.kept, hw.marks, hcomes⟩
  · obtain ⟨church, hchurch, hchurchCode⟩ := hu.function (x := "church") rfl (by decide)
    obtain ⟨add, hadd, hsucc⟩ := hu.oneStep (fun mark n ↦ Primitive.apply_add mark n 1)
      (x := "add1") rfl (by decide) (by decide)
    rw [henv] at hchurch hchurchCode hadd ⊢
    obtain ⟨w, happ, huw⟩ := hnumeral.exists_church hchurchCode
      ⟨hzero.again.ordered, hg, List.forall_mem_singleton.2 hadd⟩ hsucc
    have hself := Value.evaluates_literal hnumeral.analyze s.env u.store
    have hcall := (Value.evaluates_symbol hchurch).call rfl (hself.cons (Value.evaluateTo_nil _ _))
      happ
    exact ⟨w, hcall.evaluate, huw⟩

/-- In a session that has just loaded the library, for the number three. -/
theorem numerals_iterate_three : ∃ s : Session,
    s.KeepsNames ["zero_", "inc", "church", "add1", "+"] ∧
      ∃ v t, EndsWith (fun limit ↦ Machine.evaluate limit (numeral 3) s.env) s.store (.ok v t) ∧
        (∀ f x, ∃ w, t.Extends w ∧ w.marks = t.marks ∧
          ComesTo (fun limit ↦ do Machine.apply limit (← Machine.apply limit v [f]) [x]) t
            (fun limit ↦ Machine.iterate limit f 3 x) w) ∧
        ∃ w, EndsWith (fun limit ↦ Machine.evaluate limit (call "church" [v]) s.env) t
          (.ok (.int 3) w) ∧ t.Extends w := by
  obtain ⟨s, hs, -⟩ := Session.exists_withLibrary
  have hkeeps := Session.keepsNames_of_withLibrary hs ["zero_", "inc", "church", "add1", "+"]
  obtain ⟨v, t, hend, -, hkeeps', hlater⟩ := numerals_iterate hkeeps 3
  have ⟨hiterates, hchurch⟩ := hlater _ .refl
  exact ⟨s, hkeeps, v, t, hend, hiterates, hchurch (hkeeps'.of_subset (by decide))⟩

end ReverseLisp
