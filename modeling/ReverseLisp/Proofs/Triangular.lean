import Mathlib.Tactic.Ring
import ReverseLisp.Proofs.Library

/-!
# Three ways to call again

The library has three functions that add up the numbers to `n`. They have one body, and differ in
how it calls the function again for the number before: by its global name; by a name that a
fixed-point combinator has bound; or by applying to itself a function that gives this one. What the
body comes to does not depend on how, as long as calling again comes to the sum for the number
before (`yields_triangle`). The result follows by induction, which goes down while `n` is at least
two and needs nothing below.
-/

namespace ReverseLisp

open Value (Is)
open Prelude (name call lambda triangle selfApplied)

namespace Triangular

/-- The sum of the numbers to `n`, and below two `n` itself. -/
def sum (n : Int) : Int := if n < 2 then n else n * (n + 1) / 2

theorem sum_of_lt {n : Int} (h : n < 2) : sum n = n := if_pos h

theorem sum_eq_add {n : Int} (h : ¬ n < 2) : sum n = n + sum (n - 1) := by
  rw [sum, if_neg h, sum]
  have hsquare : n * (n + 1) = (n - 1) * (n - 1 + 1) + 2 * n := by ring
  split
  · obtain rfl : n = 2 := by omega
    rfl
  · omega

variable {s : Store Node} {e g : EnvId} {bs : List (Symbol × Value)} {sub : Value}

/-- What the body needs besides `n` and a way to call again. -/
def tools (sub : Value) : List (Symbol × Value) :=
  [(⟨"+"⟩, .primitive .add), (⟨"<"⟩, .primitive .less), (⟨"sub1"⟩, sub)]

/-- The function `sub1`. -/
def IsPredecessor (s : Store Node) (sub : Value) : Prop :=
  ∀ n, sub.Returns s [.int n] (Is (.int (n - 1)))

/-- The body comes to the sum for `n` if calling again comes to the sum for the number before. -/
theorem yields_triangle {again : Value} {n : Int} (ha : (triangle again).Analyzable)
    (hw : again.isFormWord = false) (hs : s.Shows e bs) (hn : (⟨"n"⟩, .int n) ∈ bs)
    (htools : tools sub ⊆ bs) (hsub : IsPredecessor s sub)
    (hagain : ¬ n < 2 → again.Yields e s fun t fn ↦ fn.Returns t [.int (n - 1)]
      (Is (.int (sum (n - 1))))) :
    (triangle again).Yields e s (Is (.int (sum n))) := by
  have hn := Value.yields_symbol hs hn
  have hless : (⟨"<"⟩, .primitive .less) ∈ bs := htools (by simp [tools])
  have hadd : (⟨"+"⟩, .primitive .add) ∈ bs := htools (by simp [tools])
  have hpred : (⟨"sub1"⟩, sub) ∈ bs := htools (by simp [tools])
  have htest : (call "<" [name "n", .int 2]).Yields e s (Is (.bool (decide (n < 2)))) :=
    Value.yields_primitive (fun mark ↦ Primitive.apply_less mark n 2) hs hless
      (.cons hn (.cons (Value.yields_int 2 e s) .nil))
  refine .branch ha htest ?_
  by_cases hlt : n < 2
  · rw [sum_of_lt hlt, decide_eq_true hlt]
    exact hn
  · rw [sum_eq_add hlt, decide_eq_false hlt]
    have hbefore : (call "sub1" [name "n"]).Yields e s (Is (.int (n - 1))) :=
      Value.yields_call hs hpred rfl (hsub n) (.cons hn .nil)
    have hrest := Value.Yields.call hw (hagain hlt) (.cons hbefore .nil)
    exact Value.yields_primitive (fun mark ↦ Primitive.apply_add mark n _) hs hadd
      (.cons hn (.cons hrest .nil))

/-! ## By a global name -/

theorem returns_of_name {fn : Value} (hsub : IsPredecessor s sub)
    (hfn : s.IsClosure fn [⟨"n"⟩] [triangle (name "triangular")] g)
    (hs : s.Shows g ((⟨"triangular"⟩, fn) :: tools sub)) (n : Int) :
    fn.Returns s [.int n] (Is (.int (sum n))) := by
  induction n using Prelude.descent with
  | step n ih =>
    refine Value.returns_closure hfn hs (by decide) rfl (by simp [tools]) fun t e hst ht ↦ ?_
    refine yields_triangle hfn.analyzable rfl ht (by simp) (by simp)
      (fun n ↦ (hsub n).mono hst) fun hlt ↦ ?_
    refine (Value.yields_symbol ht (v := fn) (by simp)).imp fun u v htu hv ↦ ?_
    rw [hv]
    exact (ih hlt (n - 1) (by omega)).mono (hst.trans htu)

/-! ## By applying a function to itself -/

/-- What `maker` gives when it is applied to itself: the sum, with `maker` at hand. -/
structure IsKnot (s : Store Node) (maker sub fn : Value) (b : EnvId) : Prop where
  code : s.IsClosure fn [⟨"n"⟩] [triangle (call "t" [name "t"])] b
  shows : s.Shows b ((⟨"t"⟩, maker) :: tools sub)

theorem returns_of_self {maker fn : Value} {b : EnvId} (hsub : IsPredecessor s sub)
    (hmaker : s.IsClosure maker [⟨"t"⟩] [lambda ["n"] (triangle (call "t" [name "t"]))] g)
    (hg : s.Shows g (tools sub)) (hfn : IsKnot s maker sub fn b) (n : Int) :
    fn.Returns s [.int n] (Is (.int (sum n))) := by
  induction n using Prelude.descent generalizing s fn b with
  | step n ih =>
    refine Value.returns_closure hfn.code hfn.shows (by decide) rfl (by simp [tools])
      fun t e hst ht ↦ ?_
    have hsub' : IsPredecessor t sub := fun n ↦ (hsub n).mono hst
    refine yields_triangle hfn.code.analyzable rfl ht (by simp) (by simp) hsub' fun hlt ↦ ?_
    -- Each self-application makes the function anew, in an environment of its own.
    have hmade : maker.Returns t [maker] fun u fn ↦ ∃ b, IsKnot u maker sub fn b := by
      refine Value.returns_closure (hmaker.mono hst) (hg.mono hst) (by decide) rfl (by simp [tools])
        fun u e' _ hu ↦ ?_
      refine (Value.yields_function rfl hfn.code.analyzable e' u).imp fun r fn hur hcode ↦ ?_
      exact ⟨e', hcode, hu.mono hur⟩
    have ht' := Value.yields_symbol ht (v := maker) (x := ⟨"t"⟩) (by simp)
    refine (Value.yields_call ht (by simp) rfl hmade (.cons ht' .nil)).imp fun u fn' htu h ↦ ?_
    obtain ⟨b', hfn'⟩ := h
    exact ih hlt (n - 1) (by omega) (fun n ↦ (hsub' n).mono htu) (hmaker.mono (hst.trans htu))
      (hg.mono (hst.trans htu)) hfn'

/-! ## By a fixed point -/

/-- The function that makes the fixed point when it is applied to itself. -/
structure IsMaker (s : Store Node) (step maker : Value) (a : EnvId) : Prop where
  code : s.IsClosure maker [⟨"g"⟩] [selfApplied] a
  shows : s.Shows a [(⟨"y"⟩, step)]

/-- The fixed point: the name `t` stands for a function that makes the fixed point anew and calls
it. -/
def IsFixed (s : Store Node) (step sub fn : Value) : Prop :=
  ∃ again maker a b c, IsMaker s step maker a ∧
    s.IsClosure again [⟨"x"⟩] [.list [call "g" [name "g"], name "x"]] b ∧
    s.Shows b [(⟨"g"⟩, maker)] ∧
    s.IsClosure fn [⟨"n"⟩] [triangle (name "t")] c ∧ s.Shows c ((⟨"t"⟩, again) :: tools sub)

variable {step : Value}

theorem IsMaker.mono {maker : Value} {a : EnvId} {t : Store Node} (h : IsMaker s step maker a)
    (hst : s.Extends t) : IsMaker t step maker a :=
  ⟨h.code.mono hst, h.shows.mono hst⟩

/-- Applying the maker to itself makes the fixed point. -/
theorem IsMaker.returns {maker : Value} {a : EnvId} (h : IsMaker s step maker a)
    (hstep : s.IsClosure step [⟨"t"⟩] [lambda ["n"] (triangle (name "t"))] g)
    (hg : s.Shows g (tools sub)) : maker.Returns s [maker] fun t fn ↦ IsFixed t step sub fn := by
  refine Value.returns_closure h.code h.shows (by decide) rfl (by simp) fun t b hst ht ↦ ?_
  have hy := Value.yields_symbol ht (v := step) (x := ⟨"y"⟩) (by simp)
  have hagain : (lambda ["x"] (.list [call "g" [name "g"], name "x"])).Yields b t fun u again ↦
      u.IsClosure again [⟨"x"⟩] [.list [call "g" [name "g"], name "x"]] b :=
    Value.yields_function rfl ⟨_, rfl⟩ b t
  refine .callNew rfl (hy.imp fun u v htu hv ↦ ?_) hagain
  intro r again hur hcode
  rw [hv]
  have hsr := hst.trans (htu.trans hur)
  refine Value.returns_closure (hstep.mono hsr) (hg.mono hsr) (by decide) rfl (by simp [tools])
    fun q c hrq hq ↦ ?_
  refine (Value.yields_function rfl ⟨_, rfl⟩ c q).imp fun p fn hqp hfn ↦ ?_
  have hrp := hrq.trans hqp
  have htp := htu.trans (hur.trans hrp)
  exact ⟨again, maker, a, b, c, h.mono (hst.trans htp), hcode.mono hrp,
    (ht.of_subset (by simp)).mono htp, hfn, hq.mono hqp⟩

theorem returns_of_fixed {fn : Value} (hsub : IsPredecessor s sub)
    (hstep : s.IsClosure step [⟨"t"⟩] [lambda ["n"] (triangle (name "t"))] g)
    (hg : s.Shows g (tools sub)) (hfn : IsFixed s step sub fn) (n : Int) :
    fn.Returns s [.int n] (Is (.int (sum n))) := by
  induction n using Prelude.descent generalizing s fn with
  | step n ih =>
    obtain ⟨again, maker, a, b, c, hmaker, hagain, hb, hcode, hc⟩ := hfn
    refine Value.returns_closure hcode hc (by decide) rfl (by simp [tools]) fun t e hst ht ↦ ?_
    refine yields_triangle hcode.analyzable rfl ht (by simp) (by simp)
      (fun n ↦ (hsub n).mono hst) fun hlt ↦ ?_
    refine (Value.yields_symbol ht (v := again) (by simp)).imp fun u v htu hv ↦ ?_
    rw [hv]
    have hsu := hst.trans htu
    refine Value.returns_closure (hagain.mono hsu) (hb.mono hsu) (by decide) rfl (by simp)
      fun r e' hur hr ↦ ?_
    have hsr := hsu.trans hur
    have hself := (hmaker.mono hsr).returns (hstep.mono hsr) (hg.mono hsr)
    have hg' := Value.yields_symbol hr (v := maker) (x := ⟨"g"⟩) (by simp)
    have hx := Value.yields_symbol hr (v := .int (n - 1)) (x := ⟨"x"⟩) (by simp)
    refine .call rfl ((Value.yields_call hr (by simp) rfl hself (.cons hg' .nil)).imp
      fun q fn hrq hfixed ↦ ?_) (.cons hx .nil)
    have hsq := hsr.trans hrq
    exact ih hlt (n - 1) (by omega) (fun n ↦ (hsub n).mono hsq) (hstep.mono hsq) (hg.mono hsq)
      hfixed

/-- The fixed-point combinator makes the fixed point. -/
theorem returns_combinator {fn : Value}
    (hfn : s.IsClosure fn [⟨"y"⟩]
      [.list [lambda ["f"] (call "f" [name "f"]), lambda ["g"] selfApplied]] g)
    (hstep : s.IsClosure step [⟨"t"⟩] [lambda ["n"] (triangle (name "t"))] g)
    (hg : s.Shows g (tools sub)) : fn.Returns s [step] fun t fn ↦ IsFixed t step sub fn := by
  refine Value.returns_closure hfn (hg.of_subset (List.nil_subset _)) (by decide) rfl (by simp)
    fun t a hst ht ↦ ?_
  have htwice : (lambda ["f"] (call "f" [name "f"])).Yields a t fun u twice ↦
      u.IsClosure twice [⟨"f"⟩] [call "f" [name "f"]] a :=
    Value.yields_function rfl ⟨_, rfl⟩ a t
  have hmaker : (lambda ["g"] selfApplied).Yields a t fun u maker ↦ IsMaker u step maker a :=
    (Value.yields_function rfl ⟨_, rfl⟩ a t).imp fun u _ htu hcode ↦ ⟨hcode, ht.mono htu⟩
  refine .callNew rfl (htwice.imp fun u twice htu hcode ↦ ?_) hmaker
  intro r maker hur hmaker
  have htr := htu.trans hur
  refine Value.returns_closure (hcode.mono hur) (ht.mono htr) (by decide) rfl (by simp)
    fun q e hrq hq ↦ ?_
  have hsq := hst.trans (htr.trans hrq)
  have hself := (hmaker.mono hrq).returns (hstep.mono hsq) (hg.mono hsq)
  have hf := Value.yields_symbol hq (v := maker) (x := ⟨"f"⟩) (by simp)
  exact Value.yields_call hq (by simp) rfl hself (.cons hf .nil)

end Triangular

open Triangular in
/-- **The triangular functions agree.** As long as their names and those that they use mean what
the library made them mean, the function that calls itself by name, the fixed point of one step and
the function that is applied to itself give one and the same number for every integer, whatever
happened in the session before: the sum of the numbers up to it, and below two the integer itself.
The environments and closures that were there are left as they were. -/
theorem triangular_functions_agree {s : Session}
    (h : s.KeepsNames ["triangular", "Y", "tri", "tri_tri", "sub1", "+", "-", "<"]) (n : Int) :
    ∀ expr ∈ [call "triangular" [.int n], .list [call "Y" [name "tri"], .int n],
        call "tri_tri" [.int n]],
      ∃ t, EndsWith (fun limit ↦ Machine.evaluate limit expr s.env) s.store
        (.ok (.int (if n < 2 then n else n * (n + 1) / 2)) t) ∧ s.store.Extends t := by
  obtain ⟨sub, hsub, hpred⟩ := h.oneStep (fun mark n ↦ Primitive.apply_sub mark n 1) (x := "sub1")
    rfl (by decide) (by decide)
  obtain ⟨byName, hbyName, hbyNameCode⟩ := h.function (x := "triangular") rfl (by decide)
  obtain ⟨y, hy, hyCode⟩ := h.function (x := "Y") rfl (by decide)
  obtain ⟨step, hstep, hstepCode⟩ := h.function (x := "tri") rfl (by decide)
  obtain ⟨knot, maker, b, hknot, hknotCode, hmakerCode, hb⟩ := h.knot (by decide)
  have hplus := h.primitive .add (by decide)
  have hless := h.primitive .less (by decide)
  have htools : s.store.Shows s.env (tools sub) := by
    refine h.shows ?_
    simp only [tools, List.forall_mem_cons]
    exact ⟨hplus, hless, hsub, by simp⟩
  have hn := Value.yields_int n s.env s.store
  simp only [List.forall_mem_cons]
  refine ⟨Value.Yields.evaluate ?_, Value.Yields.evaluate ?_, Value.Yields.evaluate ?_, by simp⟩
  · have hs : s.store.Shows s.env ((⟨"triangular"⟩, byName) :: tools sub) :=
      h.shows (List.forall_mem_cons.2 ⟨hbyName, htools.value⟩)
    exact Value.yields_call hs List.mem_cons_self rfl (returns_of_name hpred hbyNameCode hs n)
      (.cons hn .nil)
  · have hs : s.store.Shows s.env [(⟨"Y"⟩, y), (⟨"tri"⟩, step)] :=
      h.shows (List.forall_mem_cons.2 ⟨hy, List.forall_mem_singleton.2 hstep⟩)
    have htri := Value.yields_symbol hs (x := ⟨"tri"⟩) (v := step) (by simp)
    have hfixed := Value.yields_call hs List.mem_cons_self rfl
      (returns_combinator hyCode hstepCode htools) (.cons htri .nil)
    refine .call rfl (hfixed.imp fun t fn hst hfn ↦ ?_) (.cons hn .nil)
    exact returns_of_fixed (fun n ↦ (hpred n).mono hst) (hstepCode.mono hst) (htools.mono hst) hfn n
  · have hs : s.store.Shows s.env [(⟨"tri_tri"⟩, knot)] :=
      h.shows (List.forall_mem_singleton.2 hknot)
    have hknot : IsKnot s.store maker sub knot b := ⟨hknotCode, hb _ htools (by simp [tools])⟩
    exact Value.yields_call hs List.mem_cons_self rfl
      (returns_of_self hpred hmakerCode htools hknot n) (.cons hn .nil)

/-- In a session that has just loaded the library, for the number ten. -/
theorem triangular_functions_agree_ten : ∃ s : Session,
    s.KeepsNames ["triangular", "Y", "tri", "tri_tri", "sub1", "+", "-", "<"] ∧
      ∀ expr ∈ [call "triangular" [.int 10], .list [call "Y" [name "tri"], .int 10],
          call "tri_tri" [.int 10]],
        ∃ t, EndsWith (fun limit ↦ Machine.evaluate limit expr s.env) s.store
          (.ok (.int 55) t) ∧ s.store.Extends t := by
  obtain ⟨s, hs, -⟩ := Session.exists_withLibrary
  have hkeeps := Session.keepsNames_of_withLibrary hs
    ["triangular", "Y", "tri", "tri_tri", "sub1", "+", "-", "<"]
  exact ⟨s, hkeeps, triangular_functions_agree hkeeps 10⟩

end ReverseLisp
