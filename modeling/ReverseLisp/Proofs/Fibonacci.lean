import Mathlib.Data.Nat.Fib.Basic
import ReverseLisp.Proofs.Library

/-!
# Recursion and iteration

The library computes Fibonacci numbers in two ways. One function calls itself for the two numbers
before. The other defines a loop that carries two neighbours of the sequence and a count upward,
until the count meets the argument. The invariant of the loop is that the count is `k` and the
neighbours are the numbers with indices `k` and `k + 1`.

From an argument below one the count starts out above and never meets it. Then no limit is large
enough. Each round of the loop nests in the one before, so if the runs of all later rounds are cut
off below some limit, those of the present round are cut off below a larger one: the induction is
on that limit and has no base to establish (`climb_cutOffBelow`).
-/

namespace ReverseLisp

open Value (Is)
open Prelude (name call lambda climb fibonacci)

/-! ## Runs that are cut off -/

/-- At limits below `n` the run is cut off. -/
def CutOffBelow {α : Type} (n : Nat) (F : Nat → Machine α) (s : Store Node) : Prop :=
  ∀ limit < n, Outcome.isCutOff (EStateM.run (F limit) s) = true

namespace CutOffBelow

variable {α δ : Type} {F G : Nat → Machine α} {s t : Store Node} {n : Nat}

theorem bind {f : α → Nat → Machine δ} {a : α} (hend : EndsWith F s (.ok a t))
    (hF : ∀ m k, m ≤ k → Action.CutsShort (F m) (F k)) (h : CutOffBelow n (f a) t) :
    CutOffBelow n (fun limit ↦ F limit >>= fun a ↦ f a limit) s := by
  intro limit hlimit
  obtain ⟨N, hN⟩ := hend
  rw [EStateM.run_bind]
  rcases hF limit (max limit N) (Nat.le_max_left _ _) s with hcut | hsame
  · obtain ⟨r, hr⟩ := Outcome.isCutOff_iff.1 hcut
    rw [hr]
    rfl
  · rw [← hsame, hN _ (Nat.le_max_right _ _)]
    exact h limit hlimit

theorem nest (h : CutOffBelow n G s) (zero : F 0 = throw .recursionLimit)
    (succ : ∀ limit, F (limit + 1) = G limit) : CutOffBelow (n + 1) F s := by
  intro limit hlimit
  cases limit with
  | zero =>
    rw [zero]
    rfl
  | succ limit =>
    rw [succ]
    exact h limit (Nat.lt_of_succ_lt_succ hlimit)

theorem mono {m : Nat} (h : CutOffBelow n F s) (hmn : m ≤ n) : CutOffBelow m F s :=
  fun limit hlimit ↦ h limit (Nat.lt_of_lt_of_le hlimit hmn)

end CutOffBelow

namespace Value

open Machine (run collect)

variable {s t u : Store Node} {e : EnvId} {w fn : Value} {args : List Value} {n : Nat}

/-- At limits below `n` the evaluation of the expression is cut off. -/
def IsCutOffBelow (n : Nat) (expr : Value) (e : EnvId) (s : Store Node) : Prop :=
  ∀ node, expr.analyze = .ok node → CutOffBelow n (fun limit ↦ run limit node e) s

theorem IsCutOffBelow.branch {test yes no : Value} (ht : test.Evaluates e s w t)
    (h : IsCutOffBelow n (if w.isFalse then no else yes) e t) :
    IsCutOffBelow (n + 1) (form .branch [test, yes, no]) e s := by
  intro node hnode
  obtain ⟨m, yes', no', rfl, hrun, hyes, hno⟩ := exists_branchNode hnode ht
  refine .nest (.bind hrun (fun _ _ hle ↦ Machine.run_cutsShort hle m e)
    (f := fun v limit ↦ if v.isFalse then run limit no' e else run limit yes' e) ?_) rfl fun _ ↦ rfl
  by_cases hw : w.isFalse = true
  · simp only [if_pos hw]
    rw [if_pos hw] at h
    exact h no' hno
  · simp only [if_neg hw]
    rw [if_neg hw] at h
    exact h yes' hyes

theorem IsCutOffBelow.call {f : Value} {exprs : List Value} (hw : f.isFormWord = false)
    (hf : f.Evaluates e s fn t) (hargs : EvaluateTo exprs e t args u)
    (h : CutOffBelow n (fun limit ↦ Machine.apply limit fn args) u) :
    IsCutOffBelow (n + 1) (list (f :: exprs)) e s := by
  intro node hnode
  obtain ⟨m, ns, rfl, hrun, hruns⟩ := exists_callNode hw hnode hf hargs
  refine .nest (.bind hrun (fun _ _ hle ↦ Machine.run_cutsShort hle m e) (f := fun fn limit ↦
    collect (run limit · e) ns >>= fun args ↦ Machine.apply limit fn args) ?_) rfl fun _ ↦ rfl
  exact .bind hruns (fun _ _ hle ↦ Machine.collect_cutsShort (Machine.run_cutsShort hle · e) ns)
    (f := fun args limit ↦ Machine.apply limit fn args) h

theorem cutOffBelow_closure {params : List Symbol} {body : Value} {bs : List (Symbol × Value)}
    (hfn : s.IsClosure fn params [body] e) (hs : s.Shows e bs) (hparams : params.Nodup)
    (hlength : params.length = args.length) (hbs : ∀ b ∈ bs, b.1 ∉ params)
    (h : ∀ t e', s.Extends t → t.Shows e' (params.zip args ++ bs) → IsCutOffBelow n body e' t) :
    CutOffBelow n (fun limit ↦ Machine.apply limit fn args) s := by
  obtain ⟨node, hnode⟩ := hfn.analyzable
  intro limit hlimit
  rw [run_apply_of_isClosure hfn hnode hlength]
  exact h _ _ (.pushEnv hs.made) (hs.call hparams hlength hbs) node hnode limit hlimit

/-- Counting the nesting of the node as well cuts off no less. -/
theorem IsCutOffBelow.evaluate {expr : Value} (h : ∀ n, IsCutOffBelow n expr e s)
    (ha : expr.Analyzable) (limit : Nat) :
    ∃ t, EStateM.run (Machine.evaluate limit expr e) s = .error .recursionLimit t := by
  obtain ⟨node, hnode⟩ := ha
  rw [run_evaluate hnode]
  split
  · exact ⟨s, rfl⟩
  · exact Outcome.isCutOff_iff.1 (h (limit + 1) node hnode limit (Nat.lt_succ_self limit))

end Value

/-! ## A local function -/

namespace Store

variable {s t : Store Node} {e : EnvId} {v : Value} {x : Symbol} {bs : List (Symbol × Value)}

/-- A definition is seen where it is made. -/
theorem Shows.put (h : s.Shows e bs) (he : e ≠ 0) (hx : ∀ b ∈ bs, b.1 ≠ x) (v : Value) :
    (s.put e (.symbol x) v).Shows e ((x, v) :: bs) where
  ordered := h.ordered.put e _ v
  made := by
    rw [nextEnv_put]
    exact h.made
  value := by
    refine List.forall_mem_cons.2 ⟨?_, fun b hb ↦ ?_⟩
    · exact h.ordered.value?_put ((has_of_lt h.made).resolve_left he) rfl .here
    · have hother : (Value.symbol b.1).key ≠ (Value.symbol x).key :=
        fun hkey ↦ hx b hb (Value.symbol.inj hkey)
      rw [h.ordered.value?_put_of_not fun hmeets ↦ hother hmeets.1, h.value b hb]

end Store

namespace Value

open Machine (run)

variable {s t : Store Node} {e : EnvId} {v fn : Value} {x : Symbol} {bs : List (Symbol × Value)}

theorem Evaluates.define {value : Value} (h : value.Evaluates e s v t) (he : e ≠ 0) :
    (form .definition [symbol x, value]).Evaluates e s v (t.put e (symbol x) v) := by
  obtain ⟨n, hn, hrun⟩ := h
  have hput : EndsWith (fun _ ↦ Action.define e (symbol x) v) t (.ok v (t.put e (symbol x) v)) := by
    refine ⟨0, fun _ _ ↦ ?_⟩
    change (if e = 0 then _ else _) = _
    rw [if_neg he]
  refine ⟨.define x n, ?_, EndsWith.nest (hrun.bind_ok (f := fun v _ ↦ Action.define e (symbol x) v)
    hput) fun _ ↦ rfl⟩
  change (do return Node.define (← nameIn .definition (symbol x)) (← value.analyze)) = _
  rw [hn]
  rfl

/-- A closure that defines a function for itself and then goes on with `rest`. In the environment
of the call, `rest` sees the function, the parameters and what the closure sees. What becomes of
`rest` becomes of the call. -/
theorem exists_localCall {params locals : List Symbol} {ps body rest : Value} (args : List Value)
    (hfn : s.IsClosure fn params [form .definition [symbol x, form .function [ps, body]], rest] e)
    (hlocals : ps.parameters = .ok locals) (hbody : body.Analyzable) (hs : s.Shows e bs)
    (hparams : params.Nodup) (hlength : params.length = args.length) (hbs : ∀ b ∈ bs, b.1 ∉ params)
    (hx : ∀ b ∈ params.zip args ++ bs, b.1 ≠ x) :
    ∃ t e' v, s.Extends t ∧ t.Shows e' ((x, v) :: (params.zip args ++ bs)) ∧
      t.IsClosure v locals [body] e' ∧
      (∀ w u, rest.Evaluates e' t w u → fn.Applies args s w u) ∧
      ∀ n, rest.IsCutOffBelow n e' t →
        CutOffBelow n (fun limit ↦ Machine.apply limit fn args) s := by
  obtain ⟨id, ns, rfl, hns, hcode⟩ := hfn
  obtain ⟨first, hfirst, hns⟩ := Except.bind_eq_ok_iff.1 hns
  obtain ⟨_, hrest, hns⟩ := Except.bind_eq_ok_iff.1 hns
  obtain ⟨last, hlast, hnil⟩ := Except.bind_eq_ok_iff.1 hrest
  obtain rfl : _ = _ := Except.ok.inj hnil
  obtain rfl : [first, last] = ns := Except.ok.inj hns
  have hcall (limit : Nat) : EStateM.run (Machine.apply limit (closure id params) args) s =
      EStateM.run (run limit (.ofList [first, last]) s.nextEnv)
        (s.pushEnv ⟨Frame.ofPairs ((params.map symbol).zip args), e⟩) :=
    Machine.run_applyWith_of_code hcode hlength
  have hadd : s.Extends (s.pushEnv ⟨Frame.ofPairs ((params.map symbol).zip args), e⟩) :=
    .pushEnv hs.made
  have hshows := hs.call hparams hlength hbs
  obtain ⟨v, u, hvalue, hu, hcodeLocal⟩ := yields_function hlocals hbody s.nextEnv _ _ (.refl _)
  obtain ⟨n, hn, hrun⟩ := hvalue.define (x := x) (Nat.succ_ne_zero s.envs.size)
  obtain rfl : first = n := Except.ok.inj (hfirst.symm.trans hn)
  refine ⟨u.put s.nextEnv (symbol x) v, s.nextEnv, v, (hadd.trans hu).put (Nat.le_refl _) _ v,
    (hshows.mono hu).put (Nat.succ_ne_zero _) hx v, ?_, fun w r hrest ↦ ?_, fun n hrest ↦ ?_⟩
  · rw [Store.IsClosure, Store.codes_put]
    exact hcodeLocal
  · obtain ⟨m, hm, hend⟩ := hrest
    obtain rfl : last = m := Except.ok.inj (hlast.symm.trans hm)
    have hboth : EndsWith (fun limit ↦ run limit (.ofList [first, last]) s.nextEnv) _ (.ok w r) :=
      EndsWith.nest (hrun.bind_ok (f := fun _ limit ↦ run limit last s.nextEnv) hend) fun _ ↦ rfl
    exact (ComesTo.of_run_eq hcall _ rfl).2 hboth
  · have hcut : CutOffBelow (n + 1) (fun limit ↦ run limit (.ofList [first, last]) s.nextEnv)
        (s.pushEnv ⟨Frame.ofPairs ((params.map symbol).zip args), e⟩) :=
      .nest (.bind hrun (fun _ _ hle ↦ Machine.run_cutsShort hle first _)
        (f := fun _ limit ↦ run limit last s.nextEnv) (hrest last hlast)) rfl fun _ ↦ rfl
    intro limit hlimit
    rw [hcall]
    exact hcut limit (Nat.lt_succ_of_lt hlimit)

end Value

/-! ## The two functions -/

namespace Fibonacci

variable {s : Store Node} {e g : EnvId} {bs : List (Symbol × Value)} {add : Value}

/-- The Fibonacci number with index `n`, and below one `n` itself. -/
def number (n : Int) : Int := if n < 1 then n else Nat.fib n.toNat

theorem number_of_lt {n : Int} (h : n < 2) : number n = n := by
  rw [number]
  split
  · rfl
  · obtain rfl : n = 1 := by omega
    rfl

theorem number_eq_add {n : Int} (h : ¬ n < 2) : number n = number (n - 1) + number (n - 2) := by
  obtain ⟨k, rfl⟩ : ∃ k : Nat, n = k + 2 := ⟨(n - 2).toNat, by omega⟩
  have hnumber (m : Nat) : number m = Nat.fib m := by
    rw [number]
    split
    · obtain rfl : m = 0 := by omega
      rfl
    · rw [Int.toNat_natCast]
  have hone : (k : Int) + 2 - 1 = (k + 1 : Nat) := by omega
  have htwo : (k : Int) + 2 - 2 = k := by omega
  rw [hone, htwo, hnumber, hnumber]
  refine (hnumber (k + 2)).trans ?_
  rw [Nat.fib_add_two, Nat.cast_add, Int.add_comm]

theorem returns_recursive {fn : Value} (hfn : s.IsClosure fn [⟨"n"⟩] [fibonacci] g)
    (hs : s.Shows g [(⟨"fib_rec"⟩, fn), (⟨"+"⟩, .primitive .add), (⟨"-"⟩, .primitive .sub),
      (⟨"<"⟩, .primitive .less)]) (n : Int) : fn.Returns s [.int n] (Is (.int (number n))) := by
  induction n using Prelude.descent with
  | step n ih =>
    refine Value.returns_closure hfn hs (by decide) rfl (by simp) fun t e hst ht ↦ ?_
    have hn := Value.yields_symbol ht (x := ⟨"n"⟩) (v := .int n) (by simp)
    have htest := Value.yields_primitive (fun mark ↦ Primitive.apply_less mark n 2) ht
      (by simp [Primitive.symbol]) (.cons hn (.cons (Value.yields_int 2 e t) .nil))
    refine .branch hfn.analyzable htest ?_
    by_cases hlt : n < 2
    · rw [number_of_lt hlt, decide_eq_true hlt]
      exact hn
    · rw [number_eq_add hlt, decide_eq_false hlt]
      have hbefore (k : Int) (hk : 0 < k) :
          (call "fib_rec" [call "-" [name "n", .int k]]).Yields e t
            (Is (.int (number (n - k)))) := by
        have hdifference := Value.yields_primitive (fun mark ↦ Primitive.apply_sub mark n k) ht
          (by simp [Primitive.symbol]) (.cons hn (.cons (Value.yields_int k e t) .nil))
        have hreturns := ih hlt (n - k) (by omega)
        exact Value.yields_call ht (by simp) rfl (hreturns.mono hst) (.cons hdifference .nil)
      exact Value.yields_primitive (fun mark ↦ Primitive.apply_add mark _ _) ht
        (by simp [Primitive.symbol])
        (.cons (hbefore 1 (by decide)) (.cons (hbefore 2 (by decide)) .nil))

/-! ## The loop -/

/-- What the loop sees besides its own parameters. -/
def surroundings (loop add : Value) (n : Int) : List (Symbol × Value) :=
  [(⟨"loop"⟩, loop), (⟨"n"⟩, .int n), (⟨"+"⟩, .primitive .add), (⟨"="⟩, .primitive .equal),
    (⟨"add1"⟩, add)]

/-- One round: whether the next count meets the argument, and the arguments of the next round. -/
theorem round_yields {loop : Value} {n a b c : Int}
    (hadd : ∀ n, add.Returns s [.int n] (Is (.int (n + 1))))
    (hs : s.Shows e ([(⟨"a"⟩, .int a), (⟨"b"⟩, .int b), (⟨"count"⟩, .int c)] ++
      surroundings loop add n)) :
    (call "=" [call "add1" [name "count"], name "n"]).Yields e s (Is (.bool (decide (c + 1 = n)))) ∧
      List.Forall₂ (fun expr v ↦ expr.Yields e s (Is v))
        [name "b", call "+" [name "a", name "b"], call "add1" [name "count"]]
        [.int b, .int (a + b), .int (c + 1)] := by
  have ha := Value.yields_symbol hs (x := ⟨"a"⟩) (v := .int a) (by simp)
  have hb := Value.yields_symbol hs (x := ⟨"b"⟩) (v := .int b) (by simp)
  have hc := Value.yields_symbol hs (x := ⟨"count"⟩) (v := .int c) (by simp)
  have hn := Value.yields_symbol hs (x := ⟨"n"⟩) (v := .int n) (by simp [surroundings])
  have hnext : (call "add1" [name "count"]).Yields e s (Is (.int (c + 1))) :=
    Value.yields_call hs (by simp [surroundings]) rfl (hadd c) (.cons hc .nil)
  have hsum := Value.yields_primitive (fun mark ↦ Primitive.apply_add mark a b) hs
    (by simp [surroundings, Primitive.symbol]) (.cons ha (.cons hb .nil))
  refine ⟨?_, .cons hb (.cons hsum (.cons hnext .nil))⟩
  exact Value.yields_primitive (fun mark ↦ Primitive.apply_equal mark (c + 1) n) hs
    (by simp [surroundings, Primitive.symbol]) (.cons hnext (.cons hn .nil))

/-- The loop climbs from neighbours with index `k` to the argument, which is `d + 1` further on. -/
theorem climb_returns {loop : Value} {n : Int}
    (hadd : ∀ n, add.Returns s [.int n] (Is (.int (n + 1))))
    (hloop : s.IsClosure loop [⟨"a"⟩, ⟨"b"⟩, ⟨"count"⟩] [climb] e)
    (hs : s.Shows e (surroundings loop add n)) {k d : Nat} (hn : n = k + 1 + d) :
    loop.Returns s [.int (Nat.fib k), .int (Nat.fib (k + 1)), .int k]
      (Is (.int (Nat.fib n.toNat))) := by
  induction d generalizing k with
  | zero =>
    refine Value.returns_closure hloop hs (by decide) rfl (by simp [surroundings])
      fun t e' hst ht ↦ ?_
    have hround := round_yields (fun n ↦ (hadd n).mono hst) ht
    refine .branch hloop.analyzable hround.1 ?_
    have hindex : n.toNat = k + 1 := by omega
    rw [decide_eq_true (by omega), hindex]
    exact Value.yields_symbol ht (by simp)
  | succ d ih =>
    refine Value.returns_closure hloop hs (by decide) rfl (by simp [surroundings])
      fun t e' hst ht ↦ ?_
    have hround := round_yields (fun n ↦ (hadd n).mono hst) ht
    refine .branch hloop.analyzable hround.1 ?_
    rw [decide_eq_false (by omega)]
    have hnext := ih (k := k + 1) (by omega)
    rw [Nat.fib_add_two, Nat.cast_add, Nat.cast_add] at hnext
    exact Value.yields_call ht (by simp [surroundings]) rfl (hnext.mono hst) hround.2

/-- Where the count is above the argument it stays above, and the loop goes on at every limit. -/
theorem climb_cutOffBelow {loop : Value} {n : Int}
    (hadd : ∀ n, add.Returns s [.int n] (Is (.int (n + 1))))
    (hloop : s.IsClosure loop [⟨"a"⟩, ⟨"b"⟩, ⟨"count"⟩] [climb] e)
    (hs : s.Shows e (surroundings loop add n)) {a b c : Int} (hc : n ≤ c) (k : Nat) :
    CutOffBelow k (fun limit ↦ Machine.apply limit loop [.int a, .int b, .int c]) s := by
  induction k generalizing s a b c with
  | zero => exact fun limit hlimit ↦ absurd hlimit (Nat.not_lt_zero limit)
  | succ k ih =>
    refine Value.cutOffBelow_closure hloop hs (by decide) rfl (by simp [surroundings])
      fun t e' hst ht ↦ ?_
    obtain ⟨htest, hargs⟩ := round_yields (fun n ↦ (hadd n).mono hst) ht
    obtain ⟨_, u, htest, htu, rfl⟩ := htest t (.refl t)
    obtain ⟨r, hargs, hur⟩ := Value.exists_evaluateTo hargs htu
    have hname := Value.evaluates_symbol
      ((ht.mono htu).value (⟨"loop"⟩, loop) (by simp [surroundings]))
    have hsr := hst.trans (htu.trans hur)
    have hlater := ih (fun n ↦ (hadd n).mono hsr) (hloop.mono hsr) (hs.mono hsr)
      (a := b) (b := a + b) (c := c + 1) (by omega)
    have hcall : Value.IsCutOffBelow (k + 1) (call "loop" [name "b",
        call "+" [name "a", name "b"], call "add1" [name "count"]]) e' u :=
      .call rfl hname hargs hlater
    have hround : Value.IsCutOffBelow (k + 1 + 1) climb e' t := by
      refine .branch htest ?_
      rw [decide_eq_false (by omega)]
      exact hcall
    exact fun node hnode ↦ (hround node hnode).mono (Nat.le_succ _)

/-- What the iterative function sees. -/
def environs (add : Value) : List (Symbol × Value) :=
  [(⟨"+"⟩, .primitive .add), (⟨"="⟩, .primitive .equal), (⟨"add1"⟩, add)]

/-- The loop starts from the numbers with indices zero and one. -/
theorem start_yields (e : EnvId) (s : Store Node) :
    List.Forall₂ (fun expr v : Value ↦ expr.Yields e s (Is v)) [.int 0, .int 1, .int 0]
      [.int 0, .int 1, .int 0] :=
  .cons (Value.yields_int 0 e s) (.cons (Value.yields_int 1 e s)
    (.cons (Value.yields_int 0 e s) .nil))

section Iterative

variable {fn : Value} {n : Int} (hadd : ∀ n, add.Returns s [.int n] (Is (.int (n + 1))))
  (hfn : s.IsClosure fn [⟨"n"⟩] [.form .definition [name "loop", lambda ["a", "b", "count"] climb],
    call "loop" [.int 0, .int 1, .int 0]] g)
  (hs : s.Shows g (environs add))

include hfn hs

/-- A call of the iterative function comes to what its loop comes to. -/
theorem exists_loop (n : Int) :
    ∃ t e loop, s.Extends t ∧ t.Shows e (surroundings loop add n) ∧
      t.IsClosure loop [⟨"a"⟩, ⟨"b"⟩, ⟨"count"⟩] [climb] e ∧
      (∀ w u, (call "loop" [.int 0, .int 1, .int 0]).Evaluates e t w u →
        fn.Applies [.int n] s w u) ∧
      ∀ k, (call "loop" [.int 0, .int 1, .int 0]).IsCutOffBelow k e t →
        CutOffBelow k (fun limit ↦ Machine.apply limit fn [.int n]) s :=
  Value.exists_localCall [.int n] hfn rfl ⟨_, rfl⟩ hs (by decide) rfl (by simp) (by simp)

include hadd

theorem returns_iterative (hn : 1 ≤ n) :
    fn.Returns s [.int n] (Is (.int (Nat.fib n.toNat))) := by
  intro t hst
  obtain ⟨u, e, loop, htu, hu, hloop, happlies, -⟩ := exists_loop (hfn.mono hst) (hs.mono hst) n
  have hclimb := climb_returns (fun n ↦ (hadd n).mono (hst.trans htu)) hloop hu (k := 0)
    (d := (n - 1).toNat) (by omega)
  have hstart := Value.yields_call hu (by simp [surroundings]) (f := ⟨"loop"⟩) rfl hclimb
    (start_yields e u)
  obtain ⟨v, r, hrun, hur, hv⟩ := hstart u (.refl u)
  exact ⟨v, r, happlies v r hrun, htu.trans hur, hv⟩

theorem iterative_cutOffBelow (hn : n ≤ 0) (k : Nat) :
    CutOffBelow k (fun limit ↦ Machine.apply limit fn [.int n]) s := by
  obtain ⟨u, e, loop, hsu, hu, hloop, -, hcut⟩ := exists_loop hfn hs n
  obtain ⟨r, hargs, hur⟩ := Value.exists_evaluateTo (start_yields e u) (.refl u)
  have hsr := hsu.trans hur
  have hname := Value.evaluates_symbol (hu.value (⟨"loop"⟩, loop) (by simp [surroundings]))
  have hclimb := climb_cutOffBelow (fun n ↦ (hadd n).mono hsr) (hloop.mono hur) (hu.mono hur)
    (a := 0) (b := 1) hn k
  refine hcut k fun node hnode ↦ ?_
  exact (Value.IsCutOffBelow.call rfl hname hargs hclimb node hnode).mono (Nat.le_succ k)

end Iterative

end Fibonacci

open Fibonacci in
/-- **Recursion and iteration agree from one on.** As long as their names and those that they use
mean what the library made them mean, both functions give the Fibonacci number of every positive
index, whatever happened in the session before, and leave the environments and closures that were
there as they were. For every other integer the recursive function gives this integer, and the
iterative one is cut off at every limit. -/
theorem fibonacci_functions_agree_iff_positive {s : Session}
    (h : s.KeepsNames ["fib_rec", "fib_it", "add1", "+", "-", "<", "="]) (n : Int) :
    (1 ≤ n → ∀ f ∈ ["fib_it", "fib_rec"], ∃ t,
      EndsWith (fun limit ↦ Machine.evaluate limit (call f [.int n]) s.env) s.store
        (.ok (.int (Nat.fib n.toNat)) t) ∧ s.store.Extends t) ∧
    (n ≤ 0 →
      (∃ t, EndsWith (fun limit ↦ Machine.evaluate limit (call "fib_rec" [.int n]) s.env) s.store
        (.ok (.int n) t) ∧ s.store.Extends t) ∧
      ∀ limit, ∃ t, EStateM.run (Machine.evaluate limit (call "fib_it" [.int n]) s.env) s.store =
        .error .recursionLimit t) := by
  obtain ⟨recursive, hrecursive, hrecursiveCode⟩ := h.function (x := "fib_rec") rfl (by decide)
  obtain ⟨iterative, hiterative, hiterativeCode⟩ := h.function (x := "fib_it") rfl (by decide)
  obtain ⟨add, hadd, hsucc⟩ := h.oneStep (fun mark n ↦ Primitive.apply_add mark n 1) (x := "add1")
    rfl (by decide) (by decide)
  have hplus := h.primitive .add (by decide)
  have hminus := h.primitive .sub (by decide)
  have hless := h.primitive .less (by decide)
  have hequal := h.primitive .equal (by decide)
  have hsRecursive : s.store.Shows s.env [(⟨"fib_rec"⟩, recursive), (⟨"+"⟩, .primitive .add),
      (⟨"-"⟩, .primitive .sub), (⟨"<"⟩, .primitive .less)] := by
    refine h.shows ?_
    simp only [List.forall_mem_cons]
    exact ⟨hrecursive, hplus, hminus, hless, by simp⟩
  have hsIterative : s.store.Shows s.env ((⟨"fib_it"⟩, iterative) :: environs add) := by
    refine h.shows ?_
    simp only [environs, List.forall_mem_cons]
    exact ⟨hiterative, hplus, hequal, hadd, by simp⟩
  have henvirons : s.store.Shows s.env (environs add) :=
    hsIterative.of_subset (List.subset_cons_self _ _)
  have hn := Value.yields_int n s.env s.store
  have hrec := (Value.yields_call hsRecursive List.mem_cons_self rfl
    (returns_recursive hrecursiveCode hsRecursive n) (.cons hn .nil)).evaluate
  refine ⟨fun hpos ↦ ?_, fun hle ↦ ⟨?_, ?_⟩⟩
  · rw [number, if_neg (by omega)] at hrec
    have hit := (Value.yields_call hsIterative List.mem_cons_self rfl
      (returns_iterative hsucc hiterativeCode henvirons hpos) (.cons hn .nil)).evaluate
    simp only [List.forall_mem_cons]
    exact ⟨hit, hrec, by simp⟩
  · rwa [number_of_lt (by omega)] at hrec
  · have hname := Value.evaluates_symbol (hsIterative.value _ List.mem_cons_self)
    obtain ⟨t, hargs, hst⟩ := Value.exists_evaluateTo (.cons hn .nil) (.refl s.store)
    refine Value.IsCutOffBelow.evaluate (fun k ↦ ?_) ⟨_, rfl⟩
    have hcall := iterative_cutOffBelow (fun n ↦ (hsucc n).mono hst) (hiterativeCode.mono hst)
      (henvirons.mono hst) hle k
    exact fun node hnode ↦
      (Value.IsCutOffBelow.call rfl hname hargs hcall node hnode).mono (Nat.le_succ k)

/-- In a session that has just loaded the library, for the numbers ten and zero. -/
theorem fibonacci_functions_agree_iff_positive_ten : ∃ s : Session,
    s.KeepsNames ["fib_rec", "fib_it", "add1", "+", "-", "<", "="] ∧
      (∀ f ∈ ["fib_it", "fib_rec"], ∃ t,
        EndsWith (fun limit ↦ Machine.evaluate limit (call f [.int 10]) s.env) s.store
          (.ok (.int 55) t) ∧ s.store.Extends t) ∧
      ∀ limit, ∃ t, EStateM.run (Machine.evaluate limit (call "fib_it" [.int 0]) s.env) s.store =
        .error .recursionLimit t := by
  obtain ⟨s, hs, -⟩ := Session.exists_withLibrary
  have hkeeps := Session.keepsNames_of_withLibrary hs
    ["fib_rec", "fib_it", "add1", "+", "-", "<", "="]
  exact ⟨s, hkeeps, (fibonacci_functions_agree_iff_positive hkeeps 10).1 (by decide),
    ((fibonacci_functions_agree_iff_positive hkeeps 0).2 (by decide)).2⟩

end ReverseLisp
