import ReverseLisp.Proofs.Noninterference
import ReverseLisp.Proofs.Regular
import ReverseLisp.Store.Printer

/-!
# Stores of sessions are sound

A store is *sound* if every environment has an enclosure that was made before it, every frame binds
distinct symbols, and every value in a frame is sound: a number, a truth value, a symbol, a
primitive, a list of sound values, or a closure whose environment is there, whose parameters are
distinct and whose body is the analysis of its source. The two halves of this are known: references
lead to what has been made (`Store.WellFormed`), and what is there is of the right form
(`Store.Regular`).

Nothing but this lets a walk outward end. `Store.Walk` is such a walk with nothing to bound it: it
goes from enclosure to enclosure until its step stops it or the empty environment is reached. In a
sound store every walk ends, from every environment, and the functions that find names and show
chains, which carry a bound, do what walks without one do.
-/

namespace ReverseLisp

/-! ## Sound values and stores -/

/-- The number is that of an environment. -/
def Store.Has (s : Store Node) (e : EnvId) : Prop := e = 0 ∨ (s.env? e).isSome = true

/-- What programs compute with. A closure extends an environment with a frame. -/
inductive Value.Sound (s : Store Node) : Value → Prop where
  | int (n : Int) : Sound s (.int n)
  | binary (x : Binary) : Sound s (.binary x)
  | nan (mark : Nat) : Sound s (.nan mark)
  | bool (b : Bool) : Sound s (.bool b)
  | symbol (x : Symbol) : Sound s (.symbol x)
  | primitive (p : Primitive) : Sound s (.primitive p)
  | list {items : List Value} (h : ∀ v ∈ items, Sound s v) : Sound s (.list items)
  | closure {id : Nat} {params : List Symbol} {c : Code Node} (code : s.codes[id]? = some c)
      (env : (s.env? c.env).isSome = true) (distinct : params.Nodup) (body : c.IsAnalysis) :
    Sound s (.closure id params)

/-- Every environment has an earlier one for its enclosure, and every frame binds distinct symbols
to sound values. -/
structure Store.Sound (s : Store Node) : Prop where
  enclosure : ∀ e env, s.env? e = some env → env.enclosure < e ∧ s.Has env.enclosure
  distinct : ∀ e env, s.env? e = some env → env.frame.keys.Nodup
  symbol : ∀ e env, s.env? e = some env → ∀ b ∈ env.frame.bindings, ∃ x, b.1 = .symbol x
  value : ∀ e env, s.env? e = some env → ∀ b ∈ env.frame.bindings, b.2.Sound s

section

variable {s t : Store Node}

theorem Store.has_of_lt {e : EnvId} (h : e < s.nextEnv) : s.Has e := by
  by_cases he : e = 0
  · exact .inl he
  · refine .inr (Option.isSome_iff_ne_none.2 fun hnone ↦ ?_)
    rcases Store.env?_eq_none_iff.1 hnone with h0 | hle
    · exact he h0
    · exact absurd h (Nat.not_lt.2 hle)

/-- A regular value that refers to what has been made is sound. -/
theorem Value.Regular.sound {v : Value} (hv : v.Regular) (hs : s.Regular) (hw : s.WellFormed)
    (hp : ∀ p ∈ v.places, s.Holds p) : v.Sound s := by
  induction v using Value.induction_items with
  | step v ih =>
    match v with
    | .list items =>
      refine .list fun w hw' ↦ ih w hw' (hv.item hw') fun p hpw ↦ hp p ?_
      obtain ⟨a, ha, hap⟩ := List.mem_filterMap.1 hpw
      exact List.mem_filterMap.2 ⟨a, Value.mem_atoms_list.2 ⟨w, hw', ha⟩, hap⟩
    | .closure id params =>
      have hid : id < s.codes.size := hp (.code id) List.mem_cons_self
      have hcode : s.codes[id]? = some s.codes[id] := Array.getElem?_eq_getElem hid
      have hc := hs.code id _ hcode
      have henv : s.codes[id].env < s.nextEnv := by
        refine hw.closed (.code id) hid (.env s.codes[id].env) ?_
        rw [Store.references, hcode]
        exact List.mem_cons_self
      have hdistinct := of_decide_eq_true (hv (.closure id params) List.mem_cons_self)
      exact .closure hcode ((Store.has_of_lt henv).resolve_left hc.env) hdistinct hc.source
    | .foreign f => cases hv (.foreign f) List.mem_cons_self
    | .int n => exact .int n
    | .binary x => exact .binary x
    | .nan mark => exact .nan mark
    | .bool b => exact .bool b
    | .symbol x => exact .symbol x
    | .primitive p => exact .primitive p

/-- A regular store in which references lead to what has been made is sound. -/
theorem Store.Regular.sound (hs : s.Regular) (hw : s.WellFormed) : s.Sound where
  enclosure e env henv := by
    have hlt := hw.ordered e env henv
    exact ⟨hlt, has_of_lt (Nat.lt_trans hlt (lt_nextEnv_of_env? henv))⟩
  distinct e env henv := (hs.frame e env henv).nodup
  symbol e env henv b hb := ((hs.frame e env henv).binding b hb).1
  value e env henv b hb := by
    refine ((hs.frame e env henv).binding b hb).2.sound hs hw fun p hp ↦ ?_
    refine hw.closed (.env e) (lt_nextEnv_of_env? henv) p ?_
    rw [references, henv]
    exact List.mem_cons_of_mem _ (List.mem_flatMap.2 ⟨b, hb, hp⟩)

/-- What is sound stays so when closures are kept and environments are not lost. -/
theorem Value.Sound.mono {v : Value} (h : v.Sound s)
    (hcodes : ∀ (id : Nat) c, s.codes[id]? = some c → t.codes[id]? = some c)
    (henvs : ∀ e, (s.env? e).isSome = true → (t.env? e).isSome = true) : v.Sound t := by
  induction h with
  | int n => exact .int n
  | binary x => exact .binary x
  | nan mark => exact .nan mark
  | bool b => exact .bool b
  | symbol x => exact .symbol x
  | primitive p => exact .primitive p
  | list _ ih => exact .list ih
  | closure hcode henv hdistinct hbody =>
    exact .closure (hcodes _ _ hcode) (henvs _ henv) hdistinct hbody

end

/-! ## Walks outward -/

/-- Following enclosures from an environment leads to the empty one. -/
inductive Store.Grounded (s : Store Node) : EnvId → Prop where
  | empty : Grounded s 0
  | enclosed {e : EnvId} {env : Env} (henv : s.env? e = some env)
      (h : Grounded s env.enclosure) : Grounded s e

/-- A walk outward that nothing bounds. At each environment `step` either stops it with an answer or
goes on with what it has gathered, and at the empty one `finish` answers. -/
inductive Store.Walk {γ ρ : Type} (s : Store Node) (step : γ → EnvId → Env → γ ⊕ ρ)
    (finish : γ → ρ) : EnvId → γ → ρ → Prop where
  | finish (g : γ) : Walk s step finish 0 g (finish g)
  | stop {e : EnvId} {env : Env} {g : γ} {r : ρ} (henv : s.env? e = some env)
      (hstep : step g e env = .inr r) : Walk s step finish e g r
  | outward {e : EnvId} {env : Env} {g g' : γ} {r : ρ} (henv : s.env? e = some env)
      (hstep : step g e env = .inl g') (rest : Walk s step finish env.enclosure g' r) :
    Walk s step finish e g r

namespace Store

/-- Finding a name stops at the first frame that binds it. -/
def findStep (x : Value) (_ : Unit) (e : EnvId) (env : Env) : Unit ⊕ Option EnvId :=
  if env.frame.binds x then .inr (some e) else .inl ()

/-- Showing a chain gathers the texts of its frames, as long as they have one. -/
def textStep (ts : List (List Char)) (_ : EnvId) (env : Env) :
    List (List Char) ⊕ Option (List Char) :=
  match env.frame.text? with
  | some t => .inl (ts ++ [t])
  | none => .inr none

/-- The text of a chain whose frames have been gathered. -/
def gatheredText (ts : List (List Char)) : Option (List Char) :=
  some ("<Environment chain: ".toList ++ Value.joined " -> " (ts ++ ["<empty>".toList]) ++ ['>'])

variable {γ ρ : Type} {s : Store Node} {step : γ → EnvId → Env → γ ⊕ ρ} {finish : γ → ρ} {e : EnvId}

theorem Walk.unique {g : γ} {r r' : ρ} (h : s.Walk step finish e g r)
    (h' : s.Walk step finish e g r') : r = r' := by
  -- both walks are at the same environment with the same gathered, so they do the same
  induction h with
  | finish g =>
    rcases h' with _ | ⟨henv, -⟩ | ⟨henv, -, -⟩
    · rfl
    · cases henv
    · cases henv
  | stop henv hstep =>
    rcases h' with _ | ⟨henv', hstep'⟩ | ⟨henv', hstep', -⟩
    · cases henv
    · cases henv.symm.trans henv'
      cases hstep.symm.trans hstep'
      rfl
    · cases henv.symm.trans henv'
      cases hstep.symm.trans hstep'
  | outward henv hstep _ ih =>
    rcases h' with _ | ⟨henv', hstep'⟩ | ⟨henv', hstep', rest'⟩
    · cases henv
    · cases henv.symm.trans henv'
      cases hstep.symm.trans hstep'
    · cases henv.symm.trans henv'
      cases hstep.symm.trans hstep'
      exact ih rest'

/-- From every environment, since enclosures were made before it. -/
theorem Sound.grounded (hs : s.Sound) (he : s.Has e) : s.Grounded e := by
  induction e using Nat.strongRecOn with
  | _ e ih =>
    by_cases h0 : e = 0
    · rw [h0]
      exact .empty
    · obtain ⟨env, henv⟩ := Option.isSome_iff_exists.1 (he.resolve_left h0)
      have ⟨hlt, hhas⟩ := hs.enclosure e env henv
      exact .enclosed henv (ih env.enclosure hlt hhas)

/-- Every walk ends. -/
theorem Grounded.walk_ends (h : s.Grounded e) (step : γ → EnvId → Env → γ ⊕ ρ) (finish : γ → ρ)
    (g : γ) : ∃! r, s.Walk step finish e g r := by
  suffices hends : ∃ r, s.Walk step finish e g r by
    obtain ⟨r, hr⟩ := hends
    exact ⟨r, hr, fun r' hr' ↦ hr'.unique hr⟩
  induction h generalizing g with
  | empty => exact ⟨finish g, .finish g⟩
  | @enclosed e env henv _ ih =>
    match hstep : step g e env with
    | .inr r => exact ⟨r, .stop henv hstep⟩
    | .inl g' =>
      obtain ⟨r, hr⟩ := ih g'
      exact ⟨r, .outward henv hstep hr⟩

theorem Sound.ordered (hs : s.Sound) : s.Ordered := fun e env henv ↦ (hs.enclosure e env henv).1

/-- Names are found by walking. -/
theorem Sound.walk_find? (hs : s.Sound) (he : s.Has e) (x : Value) :
    s.Walk (findStep x) (fun _ ↦ none) e () (s.find? e x) := by
  induction hs.grounded he with
  | empty =>
    rw [find?, chain_zero]
    exact .finish ()
  | @enclosed e env henv _ ih =>
    rw [hs.ordered.find?_eq henv]
    rcases hx : env.frame.binds x with _ | _
    · exact .outward henv (by rw [findStep, hx]; rfl) (ih (hs.enclosure e env henv).2)
    · exact .stop henv (by rw [findStep, hx]; rfl)

/-- Chains are shown by walking. -/
theorem Sound.walk_chainText? (hs : s.Sound) (he : s.Has e) :
    s.Walk textStep gatheredText e [] (s.chainText? e) := by
  -- with any texts gathered before
  have hgather : ∀ ts, s.Walk textStep gatheredText e ts
      (((s.chain e).mapM fun e' ↦ (s.env? e').bind (·.frame.text?)).bind
        fun us ↦ gatheredText (ts ++ us)) := by
    induction hs.grounded he with
    | empty =>
      intro ts
      rw [chain_zero, List.mapM_nil]
      show s.Walk textStep gatheredText 0 ts (gatheredText (ts ++ []))
      rw [List.append_nil]
      exact .finish ts
    | @enclosed e env henv _ ih =>
      intro ts
      rw [hs.ordered.chain_eq henv, List.mapM_cons, henv, Option.bind_some]
      match ht : env.frame.text? with
      | none => exact .stop henv (by rw [textStep, ht]; rfl)
      | some t =>
        refine .outward henv (by rw [textStep, ht]) ?_
        have hrest := ih (hs.enclosure e env henv).2 (ts ++ [t])
        match hus : (s.chain env.enclosure).mapM fun e' ↦ (s.env? e').bind (·.frame.text?) with
        | none =>
          rw [hus] at hrest
          exact hrest
        | some us =>
          rw [hus, Option.bind_some, List.append_assoc] at hrest
          exact hrest
  have h := hgather []
  rw [chainText?]
  match hus : (s.chain e).mapM fun e' ↦ (s.env? e').bind (·.frame.text?) with
  | none =>
    rw [hus] at h
    exact h
  | some us =>
    rw [hus] at h
    exact h

/-- A name that is found has a value. -/
theorem value?_of_find? {a : EnvId} {x : Value} (h : s.find? e x = some a) :
    ∃ v, s.value? e x = some v := by
  have hbinds := binds_of_find? h
  rw [binds, Option.any_eq_true] at hbinds
  obtain ⟨env, henv, hx⟩ := hbinds
  obtain ⟨v, hv⟩ := Option.isSome_iff_exists.1 hx
  refine ⟨v, ?_⟩
  rw [value?, h]
  show (s.env? a).bind _ = some v
  rw [henv]
  exact hv

/-- What looks outward from an environment ends there or at the empty one. -/
structure WalksEnd (s : Store Node) (e : EnvId) : Prop where
  grounded : s.Grounded e
  walk : ∀ {γ ρ : Type} (step : γ → EnvId → Env → γ ⊕ ρ) (finish : γ → ρ) (g : γ),
    ∃! r, s.Walk step finish e g r
  find : ∀ x, s.Walk (findStep x) (fun _ ↦ none) e () (s.find? e x)
  found : ∀ (x : Symbol) a, s.find? e (.symbol x) = some a →
    (∃ v, EStateM.run (Action.lookup e (.symbol x)) s = .ok v s) ∧
      ∀ w, EStateM.run (Action.assign e (.symbol x) w) s = .ok w (s.put a (.symbol x) w)
  unbound : ∀ x : Symbol, s.find? e (.symbol x) = none →
    EStateM.run (Action.lookup e (.symbol x)) s = .error (.unboundLookup x.name) s ∧
      ∀ w, EStateM.run (Action.assign e (.symbol x) w) s = .error (.unboundAssignment x.name) s
  text : s.Walk textStep gatheredText e [] (s.chainText? e)

theorem Sound.walksEnd (hs : s.Sound) (he : s.Has e) : s.WalksEnd e where
  grounded := hs.grounded he
  walk := (hs.grounded he).walk_ends
  find := hs.walk_find? he
  found x a h := by
    obtain ⟨v, hv⟩ := value?_of_find? h
    refine ⟨⟨v, ?_⟩, fun w ↦ ?_⟩
    · rw [EStateM.run, Action.lookup, hv]
    · rw [EStateM.run, Action.assign, h]
  unbound x h := by
    have hv : s.value? e (.symbol x) = none := by rw [value?, h]; rfl
    refine ⟨?_, fun w ↦ ?_⟩
    · rw [EStateM.run, Action.lookup, hv, Action.errorUnbound_symbol]
    · rw [EStateM.run, Action.assign, h, Action.errorUnbound_symbol]
  text := hs.walk_chainText? he

end Store

/-! ## Sessions -/

namespace Session.Reachable

variable {s t : Session} {program : String}

theorem sound (hs : s.Reachable) : s.store.Sound := hs.regular.sound hs.wellFormed

/-- The values of a program are sound in the store that it leaves. -/
theorem sound_of_evalAll (hs : s.Reachable) {vs : List Value}
    (h : s.evalAll program = (.ok vs, t)) : ∀ v ∈ vs, v.Sound t.store := by
  have ht : t.Reachable := by
    have := hs.evalAll program
    rw [h] at this
    exact this
  obtain ⟨u, hrun, rfl⟩ := perform_eq_ok_iff.1 h
  have hregular := Machine.evaluateText_keepsRegular s.limit hs.env_ne_zero program _ hs.regular
  obtain ⟨L, -, hfixes, hmatch⟩ :=
    hs.wellFormed.exists_link (Machine.evaluateText_parallel _ program hs.rel_env)
  rw [hrun] at hregular hfixes hmatch
  obtain ⟨hvs, -⟩ | _ := hmatch
  intro v hv
  refine (hregular.1 v hv).sound ht.regular ht.wellFormed fun p hp ↦ ?_
  have hp' := Value.linked_self_iff.1 (List.forall₂_same.1 hvs v hv) p hp
  rw [hfixes] at hp'
  exact hp'

/-- What was sound before a program is sound after it. -/
theorem sound_mono (hs : s.Reachable) (program : String) {v : Value} (hv : v.Sound s.store) :
    v.Sound (s.evalAll program).2.store := by
  obtain ⟨L, hL, -, -⟩ :=
    hs.wellFormed.exists_link (Machine.evaluateText_parallel s.limit program hs.rel_env)
  rw [Session.evalAll, perform_snd]
  refine hv.mono hL.left.code fun e he ↦ ?_
  obtain ⟨env, henv⟩ := Option.isSome_iff_exists.1 he
  obtain ⟨env', henv', -⟩ :=
    Machine.evaluateText_growsOnly s.limit s.env program s.store e env henv
  exact Option.isSome_iff_exists.2 ⟨env', henv'⟩

end Session.Reachable

/-- **Stores of sessions are sound.** After any programs, whether they succeeded or failed, every
environment has an enclosure that was made before it, every frame binds distinct symbols to sound
values, and the values that a program gives are sound and stay so. No foreign value is among them,
and every closure has its environment, distinct parameters and the analysis of its source for its
body. So from every environment enclosures lead to the empty one, and finding, looking up and
changing a name and showing a chain, each of which walks outward with nothing to bound it, end. -/
theorem session_stores_are_sound {s : Session} (hs : s.Reachable) :
    s.store.Sound ∧ (∀ e, s.store.Has e → s.store.WalksEnd e) ∧
      (∀ program vs t, s.evalAll program = (.ok vs, t) → ∀ v ∈ vs, v.Sound t.store) ∧
      ∀ program (v : Value), v.Sound s.store → v.Sound (s.evalAll program).2.store := by
  refine ⟨hs.sound, ?_, ?_, ?_⟩
  · exact fun e he ↦ hs.sound.walksEnd he
  · exact fun program vs t h ↦ hs.sound_of_evalAll h
  · exact fun program v hv ↦ hs.sound_mono program hv

/-- A function that gives closures in lists, after a program that failed. -/
theorem session_stores_are_sound_adder :
    let s := ((Session.start 20).evalAll
      "(def adder (fun (n) (list n (fun (m) (set! n (+ n m)))))) (adder 1) (adder)").2
    let v := Value.list [.int 2, .closure 2 [⟨"m"⟩]]
    s.frame.names = [.symbol ⟨"adder"⟩] ∧ (s.evalAll "(adder 2)").1 = .ok [v] ∧
      v.Sound (s.evalAll "(adder 2)").2.store ∧ s.store.WalksEnd 3 := by
  intro s v
  have hs : s.Reachable := (Session.Reachable.start 20).evalAll _
  obtain ⟨-, hwalks, hvalues, -⟩ := session_stores_are_sound hs
  have hsound : ∀ result, s.evalAll "(adder 2)" = result → result.1 = .ok [v] →
      v.Sound result.2.store := by
    rintro ⟨_, t⟩ h rfl
    exact hvalues _ _ t h v List.mem_cons_self
  have ⟨hnames, hvalue, hthree⟩ : s.frame.names = [.symbol ⟨"adder"⟩] ∧
      (s.evalAll "(adder 2)").1 = .ok [v] ∧ (s.store.env? 3).isSome = true := by
    decide +kernel
  exact ⟨hnames, hvalue, hsound _ rfl hvalue, hwalks 3 (.inr hthree)⟩

end ReverseLisp
