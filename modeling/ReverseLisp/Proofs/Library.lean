import ReverseLisp.Prelude
import ReverseLisp.Proofs.Regular
import ReverseLisp.Proofs.Rules
import ReverseLisp.Proofs.Sealed

/-!
# Sessions with the library

What the names of the library mean, in the session that has just loaded it and in all sessions that
come after. Loading is a computation without input, so what it leaves behind is found by running
it. A later session may have defined the names anew. One that *keeps* some names has for them the
values that they had at first, and the closures among these still have the same parameters, the same
body and the same environment.

The environment is the global one, with one exception: `tri_tri` is the result of a call, and its
environment binds the function that was called. It is sealed, so that binding stays.

## Texts as characters

The kernel is slow at taking long texts apart. `Machine.loadChars` takes programs that have been
taken apart already.
-/

namespace ReverseLisp

/-! ## Functions of the library -/

namespace Prelude

/-- A name in an expression. -/
def name (x : String) : Value := .symbol ⟨x⟩

/-- A call by name. -/
def call (f : String) (args : List Value) : Value := .list (name f :: args)

/-- A function of the named parameters. -/
def lambda (params : List String) (body : Value) : Value :=
  .form .function [.list (params.map name), body]

/-- Below two `n` itself, otherwise the sum of `n` and what `again` gives for the number before. -/
def triangle (again : Value) : Value :=
  .form .branch [call "<" [name "n", .int 2], name "n",
    call "+" [name "n", .list [again, call "sub1" [name "n"]]]]

/-- Below two `n` itself, otherwise the sum of what `fib_rec` gives for the two numbers before. -/
def fibonacci : Value :=
  .form .branch [call "<" [name "n", .int 2], name "n",
    call "+" [call "fib_rec" [call "-" [name "n", .int 1]],
      call "fib_rec" [call "-" [name "n", .int 2]]]]

/-- Counting up to `n`, with two numbers of the sequence at hand. -/
def climb : Value :=
  .form .branch [call "=" [call "add1" [name "count"], name "n"], name "b",
    call "loop" [name "b", call "+" [name "a", name "b"], call "add1" [name "count"]]]

/-- What applies its argument to itself, on demand. -/
def selfApplied : Value := call "y" [lambda ["x"] (.list [call "g" [name "g"], name "x"])]

/-- One application of `f` after those of `n`. -/
def successor : Value := call "f" [.list [call "n" [name "f"], name "x"]]

/-- The functions that the library defines globally, with their parameters and bodies. -/
def functions : List (String × List String × List Value) :=
  [("add1", ["x"], [call "+" [name "x", .int 1]]),
    ("sub1", ["x"], [call "-" [name "x", .int 1]]),
    ("addn", ["n"], [lambda ["z"] (call "+" [name "z", name "n"])]),
    ("fib_rec", ["n"], [fibonacci]),
    ("fib_it", ["n"], [.form .definition [name "loop", lambda ["a", "b", "count"] climb],
      call "loop" [.int 0, .int 1, .int 0]]),
    ("triangular", ["n"], [triangle (name "triangular")]),
    ("Y", ["y"], [.list [lambda ["f"] (call "f" [name "f"]), lambda ["g"] selfApplied]]),
    ("tri", ["t"], [lambda ["n"] (triangle (name "t"))]),
    ("church", ["n"], [.list [call "n" [name "add1"], .int 0]]),
    ("cons_", ["a", "b"], [lambda ["m"] (call "m" [name "a", name "b"])]),
    ("car_", ["p"], [call "p" [lambda ["a", "b"] (name "a")]]),
    ("cdr_", ["p"], [call "p" [lambda ["a", "b"] (name "b")]]),
    ("zero_", ["f"], [lambda ["x"] (name "x")]),
    ("inc", ["n"], [lambda ["f"] (lambda ["x"] successor)])]

/-- Induction for functions that stop below two and call themselves for smaller numbers from there
on. -/
theorem descent {P : Int → Prop} (step : ∀ n, (¬ n < 2 → ∀ m < n, P m) → P n) (n : Int) : P n := by
  induction h : n.toNat using Nat.strongRecOn generalizing n with
  | _ k ih => exact step n fun hn m hm ↦ ih m.toNat (by omega) m rfl

end Prelude

open Prelude (name call lambda triangle functions)

/-! ## Loading -/

namespace Machine

/-- Evaluates a program that is given as characters. -/
def evaluateChars (limit : Nat) (e : EnvId) (program : List Char) : Machine (List Value) :=
  if isBalanced program then
    Action.ofExcept (readAll (Token.scan program)).1 >>= evaluateAll limit e
  else throw .unbalanced

/-- Evaluates programs that are given as characters. -/
def loadChars (limit : Nat) (e : EnvId) : List (List Char) → Machine Unit
  | [] => pure ()
  | program :: programs => do
    let _ ← evaluateChars limit e program
    loadChars limit e programs

theorem evaluateText_ofList (limit : Nat) (e : EnvId) (program : List Char) :
    evaluateText limit e (String.ofList program) = evaluateChars limit e program := by
  rw [evaluateText, ReverseLisp.read, Token.tokenize, String.toList_ofList, evaluateChars]

theorem load_ofList (limit : Nat) (e : EnvId) (programs : List (List Char)) :
    load limit e (programs.map String.ofList) = loadChars limit e programs := by
  induction programs with
  | nil => rfl
  | cons program programs ih =>
    rw [List.map_cons, load, loadChars, ih, evaluateText_ofList]

end Machine

namespace Store

/-- Parameters, body and environment of a closure. -/
def anatomy? (s : Store Node) : Value → Option (List Symbol × List Value × EnvId)
  | .closure id params => (s.codes[id]?).map fun c ↦ (params, c.source, c.env)
  | _ => none

/-- The global environment `e` binds the functions of the library and, beyond it, the primitives. -/
structure HasLibrary (s : Store Node) (e : EnvId) : Prop where
  function : ∀ f ∈ functions, (s.value? e (name f.1)).bind s.anatomy? =
    some (f.2.1.map Symbol.mk, f.2.2, e)
  primitive : ∀ p ∈ Primitive.all, s.value? e (.symbol p.symbol) = some (.primitive p)

/-- The environment `b` of `tri_tri` is within the global one and binds a function that applies
itself. What was made within `b` does not write. -/
structure HasKnot (s : Store Node) (e b : EnvId) (fn : Value) : Prop where
  knot : (s.value? e (name "tri_tri")).bind s.anatomy? =
    some ([⟨"n"⟩], [triangle (call "t" [name "t"])], b)
  self : s.anatomy? fn = some ([⟨"t"⟩], [lambda ["n"] (triangle (call "t" [name "t"]))], e)
  frame : (s.env? b).map (fun env ↦ (env.frame.bindings, env.enclosure)) =
    some ([(name "t", fn)], e)
  quiet : ∀ c ∈ s.codes.toList, b ∈ s.chain c.env → c.body.isQuiet = true

instance (s : Store Node) (e : EnvId) : Decidable (s.HasLibrary e) :=
  decidable_of_iff
    ((∀ f ∈ functions, (s.value? e (name f.1)).bind s.anatomy? =
        some (f.2.1.map Symbol.mk, f.2.2, e)) ∧
      ∀ p ∈ Primitive.all, s.value? e (.symbol p.symbol) = some (.primitive p))
    ⟨fun ⟨hf, hp⟩ ↦ ⟨hf, hp⟩, fun ⟨hf, hp⟩ ↦ ⟨hf, hp⟩⟩

instance (s : Store Node) (e b : EnvId) (fn : Value) : Decidable (s.HasKnot e b fn) :=
  decidable_of_iff
    ((s.value? e (name "tri_tri")).bind s.anatomy? =
        some ([⟨"n"⟩], [triangle (call "t" [name "t"])], b) ∧
      s.anatomy? fn = some ([⟨"t"⟩], [lambda ["n"] (triangle (call "t" [name "t"]))], e) ∧
      (s.env? b).map (fun env ↦ (env.frame.bindings, env.enclosure)) = some ([(name "t", fn)], e) ∧
      ∀ c ∈ s.codes.toList, b ∈ s.chain c.env → c.body.isQuiet = true)
    ⟨fun ⟨hk, hs, hf, hq⟩ ↦ ⟨hk, hs, hf, hq⟩, fun ⟨hk, hs, hf, hq⟩ ↦ ⟨hk, hs, hf, hq⟩⟩

end Store

set_option maxRecDepth 100000 in
/-- What loading leaves behind, by running it. -/
theorem Prelude.exists_chars_bundled : ∃ programs : List (List Char),
    Prelude.bundled = programs.map String.ofList ∧
      (match Machine.loadChars 9 2 programs (Session.start 9).store with
        | .ok _ t => decide (t.HasLibrary 2 ∧ t.HasKnot 2 4 (.closure 9 [⟨"t"⟩]))
        | .error _ _ => false) = true := by
  refine ⟨[_, _, _], rfl, ?_⟩
  decide +kernel

namespace Session

variable {limit : Nat} {s : Session} {programs : List String}

theorem withLibrary_eq_ok_iff :
    withLibrary limit programs = .ok s ↔ (start limit).load programs = (.ok (), s) := by
  rw [withLibrary]
  obtain ⟨_ | _, t⟩ := (start limit).load programs
  · simp [Except.map]
  · simp [Except.map]

theorem exists_withLibrary : ∃ s, withLibrary 9 Prelude.bundled = .ok s ∧
    s.store.HasLibrary s.env ∧ ∃ b fn, s.store.HasKnot s.env b fn := by
  obtain ⟨programs, hprograms, hload⟩ := Prelude.exists_chars_bundled
  rw [hprograms]
  split at hload
  · next t ht =>
    have ⟨hlibrary, hknot⟩ := of_decide_eq_true hload
    refine ⟨⟨t, 2, 9⟩, ?_, hlibrary, 4, _, hknot⟩
    rw [withLibrary_eq_ok_iff, load, perform_eq_ok_iff]
    refine ⟨t, ?_, rfl⟩
    exact (congrFun (Machine.load_ofList 9 2 programs) _).trans ht
  · exact absurd hload Bool.false_ne_true

/-- Under every limit under which the library loads, it leaves the same store. -/
theorem hasLibrary_of_withLibrary (h : withLibrary limit Prelude.bundled = .ok s) :
    s.Reachable ∧ s.store.HasLibrary s.env ∧ ∃ b fn, s.store.HasKnot s.env b fn := by
  have hreachable : s.Reachable := by
    have hload := (Reachable.start limit).load Prelude.bundled
    rwa [withLibrary_eq_ok_iff.1 h] at hload
  obtain ⟨s₉, h₉, hfacts⟩ := exists_withLibrary
  refine ⟨hreachable, ?_⟩
  rcases Nat.le_total limit 9 with hle | hle
  · have hsame := withLibrary_withLimit hle Prelude.bundled (by rw [h]; exact nofun)
    rw [h, h₉] at hsame
    rw [Except.ok.inj hsame] at hfacts
    exact hfacts
  · have hsame := withLibrary_withLimit hle Prelude.bundled (by rw [h₉]; exact nofun)
    rw [h, h₉] at hsame
    rw [Except.ok.inj hsame]
    exact hfacts

end Session

/-! ## Later sessions -/

namespace Store

variable {s t : Store Node} {e : EnvId} {v : Value} {params : List Symbol} {source : List Value}

theorem lt_nextEnv_of_value? {x : Value} (h : s.value? e x = some v) : e < s.nextEnv := by
  rcases henv : s.env? e with _ | env
  · rw [value?_of_env?_eq_none henv] at h
    exact nomatch h
  · exact lt_nextEnv_of_env? henv

/-- Closures stay what they are while their code is kept. -/
theorem Regular.isClosure (hs : s.Regular) (h : s.anatomy? v = some (params, source, e))
    (hcode : ∀ (id : Nat) c, s.codes[id]? = some c → t.codes[id]? = some c) :
    t.IsClosure v params source e := by
  match v with
  | .closure id ps =>
    obtain ⟨c, hc, hanatomy⟩ := Option.map_eq_some_iff.1 h
    obtain ⟨rfl, rfl, rfl⟩ : ps = params ∧ c.source = source ∧ c.env = e := by
      simpa only [Prod.mk.injEq] using hanatomy
    obtain ⟨ns, hns, hbody⟩ := (hs.code id c hc).source
    refine ⟨id, ns, rfl, hns, ?_⟩
    rw [hcode id c hc, ← hbody]

/-- The environment of `tri_tri` is sealed, and it is within the global one. -/
theorem HasKnot.sealed {b : EnvId} {fn : Value} (h : s.HasKnot e b fn) (hs : s.Sealed 0) :
    s.Sealed b ∧ b ∉ s.chain e := by
  obtain ⟨env, henv, hparts⟩ := Option.map_eq_some_iff.1 h.frame
  have hinside : e < b := (Prod.mk.inj hparts).2 ▸ hs.ordered b env henv
  refine ⟨⟨hs.ordered, lt_nextEnv_of_env? henv, hs.code_env, ?_⟩, ?_⟩
  · intro id c hc
    exact h.quiet c (Array.mem_toList_iff.2 (Array.mem_of_getElem? hc))
  · intro hb
    exact absurd (hs.ordered.le_of_mem_chain hb) (Nat.not_le.2 hinside)

end Store

namespace Session

variable {s : Session} {names : List String}

/-- The session comes after one that has just loaded the library, and the names mean in it what
they meant there. -/
def KeepsNames (s : Session) (names : List String) : Prop :=
  ∃ limit s₀, withLibrary limit Prelude.bundled = .ok s₀ ∧ s₀.LeadsTo s ∧
    ∀ x ∈ names, s.store.value? s.env (name x) = s₀.store.value? s₀.env (name x)

theorem keepsNames_of_withLibrary {limit : Nat} (h : withLibrary limit Prelude.bundled = .ok s)
    (names : List String) : s.KeepsNames names :=
  ⟨limit, s, h, .refl, fun _ _ ↦ rfl⟩

namespace KeepsNames

theorem of_subset {fewer : List String} (h : s.KeepsNames names) (hsubset : fewer ⊆ names) :
    s.KeepsNames fewer := by
  obtain ⟨limit, s₀, hload, hlater, hnames⟩ := h
  exact ⟨limit, s₀, hload, hlater, fun x hx ↦ hnames x (hsubset hx)⟩

/-- The store that the session started from, of which closures, the order of making and the
environment of `tri_tri` are kept. -/
theorem exists_library (h : s.KeepsNames names) : ∃ s₀ : Store Node, s₀.Regular ∧
    s₀.HasLibrary s.env ∧ (∃ b fn, s₀.HasKnot s.env b fn ∧ s₀.KeepsSealed b s.store) ∧
      s₀.KeepsSealed 0 s.store ∧ s.env < s₀.nextEnv ∧
        ∀ x ∈ names, s.store.value? s.env (name x) = s₀.value? s.env (name x) := by
  obtain ⟨limit, s₀, hload, hlater, hnames⟩ := h
  obtain ⟨hreachable, hlibrary, b, fn, hknot⟩ := hasLibrary_of_withLibrary hload
  have hsealed := hreachable.wellFormed.sealed_zero
  have hmade : s₀.env < s₀.store.nextEnv :=
    Store.lt_nextEnv_of_value? (hlibrary.primitive .add (Primitive.mem_all _))
  obtain ⟨hb, houtside⟩ := hknot.sealed hsealed
  obtain ⟨henv, hzero⟩ := hlater.keepsSealed hsealed hmade (hsealed.ordered.zero_notMem_chain _)
  obtain ⟨-, hkept⟩ := hlater.keepsSealed hb hmade houtside
  rw [henv]
  rw [henv] at hnames
  exact ⟨s₀.store, hreachable.regular, hlibrary, ⟨b, fn, hknot, hkept⟩, hzero, hmade, hnames⟩

theorem made (h : s.KeepsNames names) : s.env < s.store.nextEnv := by
  obtain ⟨_, -, -, -, hkept, hmade, -⟩ := h.exists_library
  exact Nat.lt_of_lt_of_le hmade hkept.nextEnv_le

theorem sealed_zero (h : s.KeepsNames names) : s.store.Sealed 0 := by
  obtain ⟨_, -, -, -, hkept, -, -⟩ := h.exists_library
  exact hkept.again

/-- What is looked up in the global environment. -/
theorem shows (h : s.KeepsNames names) {bs : List (Symbol × Value)}
    (hbs : ∀ b ∈ bs, s.store.value? s.env (.symbol b.1) = some b.2) : s.store.Shows s.env bs :=
  ⟨h.sealed_zero.ordered, h.made, hbs⟩

/-- Evaluating what only adds to the store keeps the names. -/
theorem evaluate (h : s.KeepsNames names) {expr v : Value} {t : Store Node}
    (hend : EndsWith (fun limit ↦ Machine.evaluate limit expr s.env) s.store (.ok v t))
    (hst : s.store.Extends t) : KeepsNames ⟨t, s.env, s.limit⟩ names := by
  have hsame (x : String) : t.value? s.env (name x) = s.store.value? s.env (name x) :=
    hst.value?_eq h.sealed_zero.ordered h.made (name x)
  obtain ⟨limit, s₀, hload, hlater, hnames⟩ := h
  obtain ⟨N, hN⟩ := hend
  have hnext := hlater.evaluate N expr
  rw [perform_snd, hN N (Nat.le_refl N)] at hnext
  exact ⟨limit, s₀, hload, hnext, fun x hx ↦ (hsame x).trans (hnames x hx)⟩

theorem primitive (h : s.KeepsNames names) (p : Primitive) (hp : p.symbol.name ∈ names) :
    s.store.value? s.env (.symbol p.symbol) = some (.primitive p) := by
  obtain ⟨_, -, hlibrary, -, -, -, hnames⟩ := h.exists_library
  exact (hnames _ hp).trans (hlibrary.primitive p p.mem_all)

theorem function (h : s.KeepsNames names) {x : String} {f : List String × List Value}
    (hf : functions.lookup x = some f) (hx : x ∈ names) :
    ∃ fn, s.store.value? s.env (name x) = some fn ∧
      s.store.IsClosure fn (f.1.map Symbol.mk) f.2 s.env := by
  obtain ⟨s₀, hregular, hlibrary, -, hkept, -, hnames⟩ := h.exists_library
  obtain ⟨before, after, hsplit, -⟩ := List.lookup_eq_some_iff.1 hf
  have hmem : (x, f) ∈ functions := hsplit ▸ List.mem_append_right before List.mem_cons_self
  obtain ⟨fn, hfn, hanatomy⟩ := Option.bind_eq_some_iff.1 (hlibrary.function (x, f) hmem)
  exact ⟨fn, (hnames x hx).trans hfn, hregular.isClosure hanatomy hkept.code⟩

/-- A function of one step, such as `add1`, does what its primitive does with one. -/
theorem oneStep (h : s.KeepsNames names) {x : String} {p : Primitive} {f : Int → Int}
    (hp : ∀ mark n, p.apply mark [.int n, .int 1] = .ok (.int (f n)))
    (hx : functions.lookup x = some (["x"], [.list [.symbol p.symbol, name "x", .int 1]]))
    (hnames : x ∈ names) (hprimitive : p.symbol.name ∈ names) :
    ∃ fn, s.store.value? s.env (name x) = some fn ∧
      ∀ n, fn.Returns s.store [.int n] (Value.Is (.int (f n))) := by
  obtain ⟨fn, hfn, hcode⟩ := h.function hx hnames
  have hs : s.store.Shows s.env [(p.symbol, .primitive p)] :=
    h.shows (List.forall_mem_singleton.2 (h.primitive p hprimitive))
  refine ⟨fn, hfn, fun n ↦ ?_⟩
  have hdistinct : ∀ b ∈ [(p.symbol, Value.primitive p)], b.1 ∉ [(⟨"x"⟩ : Symbol)] := by
    rw [List.forall_mem_singleton]
    cases p <;> decide
  refine Value.returns_closure hcode hs (List.nodup_cons.2 ⟨List.not_mem_nil, .nil⟩) rfl hdistinct
    fun t e _ ht ↦ ?_
  have hargument := Value.yields_symbol ht (x := ⟨"x"⟩) (v := .int n) (by simp)
  exact Value.yields_primitive (fun mark ↦ hp mark n) ht (by simp)
    (.cons hargument (.cons (Value.yields_int 1 e t) .nil))

/-- The closure `tri_tri`, in whose environment the function `fn` has a name. -/
theorem knot (h : s.KeepsNames names) (hx : "tri_tri" ∈ names) :
    ∃ knot fn b, s.store.value? s.env (name "tri_tri") = some knot ∧
      s.store.IsClosure knot [⟨"n"⟩] [triangle (call "t" [name "t"])] b ∧
      s.store.IsClosure fn [⟨"t"⟩] [lambda ["n"] (triangle (call "t" [name "t"]))] s.env ∧
      ∀ bs, s.store.Shows s.env bs → (∀ x ∈ bs, x.1 ≠ ⟨"t"⟩) →
        s.store.Shows b ((⟨"t"⟩, fn) :: bs) := by
  obtain ⟨s₀, hregular, hlibrary, ⟨b, fn, hknot, hb⟩, hkept, -, hnames⟩ := h.exists_library
  obtain ⟨knot, hvalue, hanatomy⟩ := Option.bind_eq_some_iff.1 hknot.knot
  refine ⟨knot, fn, b, (hnames _ hx).trans hvalue, hregular.isClosure hanatomy hkept.code,
    hregular.isClosure hknot.self hkept.code, fun bs hbs hfree ↦ ?_⟩
  obtain ⟨⟨⟨bindings⟩, enclosure⟩, henv, hparts⟩ := Option.map_eq_some_iff.1 hknot.frame
  obtain ⟨rfl, rfl⟩ : bindings = [(name "t", fn)] ∧ enclosure = s.env := by
    simpa only [Prod.mk.injEq] using hparts
  have hframe : s.store.env? b = some ⟨Frame.ofPairs (([⟨"t"⟩].map .symbol).zip [fn]), s.env⟩ :=
    hb.env.trans henv
  refine hbs.within hframe (by decide) rfl fun x hx ↦ ?_
  exact fun h ↦ hfree x hx (List.mem_singleton.1 h)

end KeepsNames

end Session

end ReverseLisp
