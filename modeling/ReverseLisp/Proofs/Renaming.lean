import Mathlib.Logic.Function.Basic
import ReverseLisp.Evaluation
import ReverseLisp.Proofs.Link
import ReverseLisp.Proofs.Outcome
import ReverseLisp.Store.Lemmas

/-!
# Renaming

Symbols can be renamed throughout: in values and nodes, in the names and the values of frames, and
in the parameters, bodies and sources of closures. A *renaming* gives different symbols different
names and keeps the words of special forms.

What a program computes with treats symbols as names only: whatever is asked of values, of frames
and of stores has the same answer after a renaming. Errors are a different matter, since messages
show symbols. After a renaming they are of the same kind, and no more is said of them:
`Except.Renames` and `Outcome.Renames` are equality up to a renaming and up to messages.
-/

namespace ReverseLisp

variable {r r' : Symbol → Symbol}

/-- Different symbols get different names, and the words of special forms keep theirs. -/
structure IsRenaming (r : Symbol → Symbol) : Prop where
  injective : Function.Injective r
  word : ∀ f : SpecialForm, r f.word = f.word

theorem IsRenaming.ofSymbol?_eq (hr : IsRenaming r) (x : Symbol) :
    SpecialForm.ofSymbol? (r x) = SpecialForm.ofSymbol? x := by
  apply Option.ext
  intro f
  rw [SpecialForm.ofSymbol?_eq_some_iff, SpecialForm.ofSymbol?_eq_some_iff]
  constructor
  · intro h
    exact hr.injective (h.trans (hr.word f).symm)
  · rintro rfl
    exact hr.word f

/-! ## Values -/

namespace Value

mutual

/-- The value with its symbols renamed. -/
def rename (r : Symbol → Symbol) : Value → Value
  | symbol x => symbol (r x)
  | list items => list (renameEach r items)
  | closure id params => closure id (params.map r)
  | v => v

/-- Values with their symbols renamed. -/
def renameEach (r : Symbol → Symbol) : List Value → List Value
  | [] => []
  | v :: vs => rename r v :: renameEach r vs

end

theorem renameEach_eq_map (vs : List Value) : renameEach r vs = vs.map (rename r) := by
  induction vs with
  | nil => rfl
  | cons v vs ih => rw [renameEach, ih, List.map_cons]

@[simp] theorem rename_list (vs : List Value) : (list vs).rename r = list (vs.map (rename r)) := by
  rw [rename, renameEach_eq_map]

@[simp] theorem rename_symbol (x : Symbol) : (symbol x).rename r = symbol (r x) := rfl

@[simp] theorem rename_closure (id : Nat) (params : List Symbol) :
    (closure id params).rename r = closure id (params.map r) := rfl

theorem rename_rename (v : Value) : (v.rename r).rename r' = v.rename (r' ∘ r) := by
  induction v using induction_items with
  | step v ih =>
    match v with
    | list vs =>
      rw [rename_list, rename_list, rename_list, List.map_map]
      exact congrArg list (List.map_congr_left ih)
    | closure id params => rw [rename_closure, rename_closure, rename_closure, List.map_map]
    | symbol _ | int _ | binary _ | nan _ | bool _ | primitive _ | foreign _ => rfl

theorem rename_id (v : Value) : v.rename id = v := by
  induction v using induction_items with
  | step v ih =>
    match v with
    | list vs =>
      rw [rename_list]
      exact congrArg list ((List.map_congr_left ih).trans (List.map_id vs))
    | closure id params => rw [rename_closure, List.map_id]
    | symbol _ | int _ | binary _ | nan _ | bool _ | primitive _ | foreign _ => rfl

/-- Renaming values with different names for different symbols can be undone. -/
theorem rename_injective (hr : Function.Injective r) : Function.Injective (rename r) := by
  obtain ⟨g, hg⟩ := hr.hasLeftInverse
  refine Function.LeftInverse.injective (g := rename g) fun v ↦ ?_
  rw [rename_rename, hg.id, rename_id]

/-! What does not depend on symbols. -/

@[simp] theorem isList_rename (v : Value) : (v.rename r).isList = v.isList := by
  cases v <;> rfl

@[simp] theorem isFalse_rename (v : Value) : (v.rename r).isFalse = v.isFalse := by
  cases v <;> rfl

@[simp] theorem toNumber?_rename (v : Value) : (v.rename r).toNumber? = v.toNumber? := by
  cases v <;> rfl

/-- Whether a value can be applied. -/
def isFunction : Value → Bool
  | closure _ _ | primitive _ => true
  | _ => false

@[simp] theorem isFunction_rename (v : Value) : (v.rename r).isFunction = v.isFunction := by
  cases v <;> rfl

@[simp] theorem rename_ofNumber (mark : Nat) (n : Number) :
    (ofNumber mark n).rename r = ofNumber mark n := by
  cases n <;> rfl

theorem key_rename (v : Value) : (v.rename r).key = v.key.rename r := by
  match v with
  | binary x =>
    show (binary x).key = (binary x).key.rename r
    rw [key]
    split <;> rfl
  | symbol _ | list _ | closure _ _ | int _ | nan _ | bool _ | primitive _ | foreign _ => rfl

theorem key_rename_eq_iff (hr : Function.Injective r) {v w : Value} :
    (v.rename r).key = (w.rename r).key ↔ v.key = w.key := by
  rw [key_rename, key_rename, (rename_injective hr).eq_iff]

theorem isFormWord_rename (hr : IsRenaming r) (v : Value) :
    (v.rename r).isFormWord = v.isFormWord := by
  match v with
  | symbol x => rw [rename_symbol, isFormWord, isFormWord, hr.ofSymbol?_eq]
  | list _ | closure _ _ | int _ | binary _ | nan _ | bool _ | primitive _ | foreign _ => rfl

theorem rename_form (hr : IsRenaming r) (f : SpecialForm) (operands : List Value) :
    (form f operands).rename r = form f (operands.map (rename r)) := by
  rw [form, form, rename_list, List.map_cons, rename_symbol, hr.word]

theorem equalAtom_rename (hr : Function.Injective r) (v w : Value) :
    (v.rename r).equalAtom (w.rename r) = v.equalAtom w := by
  match v with
  | symbol x =>
    match w with
    | symbol y =>
      show (r x == r y) = (x == y)
      rw [Bool.eq_iff_iff, beq_iff_eq, beq_iff_eq, hr.eq_iff]
    | list _ | closure _ _ | int _ | binary _ | nan _ | bool _ | primitive _ | foreign _ => rfl
  | list _ | closure _ _ | int _ | binary _ | nan _ | bool _ | primitive _ | foreign _ =>
    cases w <;> rfl

theorem equalAll_map_rename {vs : List Value}
    (h : ∀ v ∈ vs, ∀ w, (v.rename r).equal (w.rename r) = v.equal w) (ws : List Value) :
    equalAll (vs.map (rename r)) (ws.map (rename r)) = equalAll vs ws := by
  induction vs generalizing ws with
  | nil => cases ws <;> rfl
  | cons v vs ih =>
    have ⟨hv, hvs⟩ := List.forall_mem_cons.1 h
    match ws with
    | [] => rfl
    | w :: ws => rw [List.map_cons, List.map_cons, equalAll, equalAll, hv w, ih hvs]

/-- Equality does not depend on names, since different symbols keep different ones. -/
theorem equal_rename (hr : Function.Injective r) (v w : Value) :
    (v.rename r).equal (w.rename r) = v.equal w := by
  induction v using induction_items generalizing w with
  | step v ih =>
    by_cases hv : v.isList = true
    · match v, w with
      | list vs, list ws =>
        rw [rename_list, rename_list, equal, equal]
        exact equalAll_map_rename ih ws
      | list vs, symbol _ | list vs, closure _ _ | list vs, int _ | list vs, binary _
      | list vs, nan _ | list vs, bool _ | list vs, primitive _ | list vs, foreign _ => rfl
    · rw [Bool.not_eq_true] at hv
      rw [equal_of_isList_eq_false hv, equal_of_isList_eq_false ((isList_rename v).trans hv),
        isList_rename, equalAtom_rename hr]

/-! Errors that show a value have the same kind. -/

theorem isSome_diagnoses?_map_rename {vs : List Value}
    (h : ∀ v ∈ vs, (v.rename r).diagnosis?.isSome = v.diagnosis?.isSome) :
    (diagnoses? (vs.map (rename r))).isSome = (diagnoses? vs).isSome := by
  induction vs with
  | nil => rfl
  | cons v vs ih =>
    have ⟨hv, hvs⟩ := List.forall_mem_cons.1 h
    have hcons : ∀ w ws, (diagnoses? (w :: ws)).isSome =
        (w.diagnosis?.isSome && (diagnoses? ws).isSome) := by
      intro w ws
      rw [diagnoses?]
      rcases w.diagnosis? with _ | t
      · rfl
      · rcases diagnoses? ws with _ | ts <;> rfl
    rw [List.map_cons, hcons, hcons, hv, ih hvs]

theorem isSome_diagnosis?_rename (v : Value) :
    (v.rename r).diagnosis?.isSome = v.diagnosis?.isSome := by
  induction v using induction_items with
  | step v ih =>
    match v with
    | list vs =>
      rw [rename_list, diagnosis?, diagnosis?, Option.isSome_map, Option.isSome_map]
      exact isSome_diagnoses?_map_rename ih
    | symbol _ => rw [rename_symbol, diagnosis?, diagnosis?, Option.isSome_some, Option.isSome_some]
    | closure _ _ =>
      rw [rename_closure, diagnosis?, diagnosis?, Option.isSome_some, Option.isSome_some]
    | int _ | binary _ | nan _ | bool _ | primitive _ | foreign _ => simp only [rename]

theorem isSome_mention?_rename (v : Value) : (v.rename r).mention?.isSome = v.mention?.isSome := by
  match v with
  | list vs => exact isSome_diagnosis?_rename (list vs)
  | closure id params => exact isSome_diagnosis?_rename (closure id params)
  | symbol _ => rfl
  | int _ | binary _ | nan _ | bool _ | primitive _ | foreign _ => simp only [rename]

theorem kind_errorAbout {text text' : Option (List Char)} (h : text'.isSome = text.isSome)
    {mk mk' : String → Error} (hmk : ∀ t t', (mk' t').kind = (mk t).kind) :
    (errorAbout text' mk').kind = (errorAbout text mk).kind := by
  match text, text' with
  | some _, some _ => exact hmk _ _
  | none, none => rfl

theorem kind_errorShowing_rename (v : Value) {mk mk' : String → Error}
    (hmk : ∀ t t', (mk' t').kind = (mk t).kind) :
    ((v.rename r).errorShowing mk').kind = (v.errorShowing mk).kind :=
  kind_errorAbout (isSome_diagnosis?_rename v) hmk

theorem kind_errorMentioning_rename (v : Value) {mk mk' : String → Error}
    (hmk : ∀ t t', (mk' t').kind = (mk t).kind) :
    ((v.rename r).errorMentioning mk').kind = (v.errorMentioning mk).kind :=
  kind_errorAbout (isSome_mention?_rename v) hmk

end Value

/-! ## Results up to a renaming -/

/-- The second computation gives what the first gives, changed by `f`, or fails with an error of the
same kind. -/
inductive Except.Renames {α δ : Type} (f : α → δ) : Except Error α → Except Error δ → Prop where
  | ok (a : α) : Renames f (.ok a) (.ok (f a))
  | error {err err' : Error} (h : err'.kind = err.kind) : Renames f (.error err) (.error err')

namespace Except.Renames

variable {α α' δ δ' : Type} {f : α → δ} {g : α' → δ'}

theorem ok_of_eq {a : α} {b : δ} (h : f a = b) : Renames f (.ok a) (.ok b) := by
  rw [← h]
  exact .ok a

theorem refl (x : Except Error α) : Renames id x x := by
  match x with
  | .ok a => exact .ok a
  | .error err => exact .error rfl

theorem bind {x : Except Error α} {y : Except Error δ} {k : α → Except Error α'}
    {l : δ → Except Error δ'} (h : Renames f x y) (hkl : ∀ a, Renames g (k a) (l (f a))) :
    Renames g (x >>= k) (y >>= l) := by
  obtain a | hkind := h
  · exact hkl a
  · exact .error hkind

theorem map {x : Except Error α} {y : Except Error δ} {k : α → α'} {l : δ → δ'}
    (h : Renames f x y) (hkl : ∀ a, l (f a) = g (k a)) : Renames g (x.map k) (y.map l) := by
  obtain a | hkind := h
  · show Renames g (.ok (k a)) (.ok (l (f a)))
    rw [hkl]
    exact .ok (k a)
  · exact .error hkind

end Except.Renames

namespace Primitive

open Value (rename)

theorem numbers_renames (p : Primitive) (args : List Value) :
    Except.Renames id (p.numbers args) (p.numbers (args.map (rename r))) := by
  induction args with
  | nil => exact .ok []
  | cons v vs ih =>
    rw [List.map_cons, numbers, numbers, Value.toNumber?_rename]
    rcases v.toNumber? with _ | n
    · exact .error (Value.kind_errorShowing_rename v fun _ _ ↦ rfl)
    · exact ih.map fun _ ↦ rfl

theorem allEqual_map_rename (hr : Function.Injective r) (args : List Value) :
    allEqual (args.map (rename r)) = allEqual args := by
  match args with
  | [] => rfl
  | v :: vs =>
    rw [List.map_cons, allEqual, allEqual, List.all_map]
    exact congrArg _ (funext fun w ↦ Value.equal_rename hr v w)

/-- What a primitive says of a value that is no list does not depend on names. -/
theorem apply_renames_of_isList_eq_false {v : Value} (hv : v.isList = false) (m : Nat) :
    Except.Renames (rename r) (isNull.apply m [v]) (isNull.apply m [v.rename r]) ∧
      Except.Renames (rename r) (car.apply m [v]) (car.apply m [v.rename r]) ∧
      Except.Renames (rename r) (cdr.apply m [v]) (cdr.apply m [v.rename r]) ∧
      ∀ w, Except.Renames (rename r) (cons.apply m [w, v])
        (cons.apply m [w.rename r, v.rename r]) := by
  obtain ⟨hnull, hcar, hcdr, hcons⟩ := apply_of_isList_eq_false hv m
  obtain ⟨hnull', hcar', hcdr', hcons'⟩ :=
    apply_of_isList_eq_false ((Value.isList_rename (r := r) v).trans hv) m
  refine ⟨?_, ?_, ?_, fun w ↦ ?_⟩
  · rw [hnull, hnull']
    exact .ok (Value.bool false)
  · rw [hcar, hcar']
    exact .error (Value.kind_errorShowing_rename v fun _ _ ↦ rfl)
  · rw [hcdr, hcdr']
    exact .error (Value.kind_errorShowing_rename v fun _ _ ↦ rfl)
  · rw [hcons, hcons']
    exact .error (Value.kind_errorShowing_rename v fun _ _ ↦ rfl)

theorem apply_renames_of_arity {p : Primitive} {k : Nat} (hp : p.arity? = some k) (m : Nat)
    (args : List Value) :
    Except.Renames (rename r) (p.apply m args) (p.apply m (args.map (rename r))) := by
  by_cases hk : args.length = k
  swap
  · have hk' : (args.map (rename r)).length ≠ k := by rwa [List.length_map]
    rw [apply_of_length_ne hp hk, apply_of_length_ne hp hk']
    exact .error rfl
  -- the number of arguments is right, so their shape decides
  match p with
  | isNull =>
    cases hp
    obtain ⟨v, rfl⟩ := List.length_eq_one_iff.1 hk
    by_cases hv : v.isList = false
    · exact (apply_renames_of_isList_eq_false hv m).1
    · match v with
      | .list [] => exact .ok (Value.bool true)
      | .list (_ :: _) => exact .ok (Value.bool false)
  | car =>
    cases hp
    obtain ⟨v, rfl⟩ := List.length_eq_one_iff.1 hk
    by_cases hv : v.isList = false
    · exact (apply_renames_of_isList_eq_false hv m).2.1
    · match v with
      | .list [] => exact .error rfl
      | .list (v :: _) => exact .ok v
  | cdr =>
    cases hp
    obtain ⟨v, rfl⟩ := List.length_eq_one_iff.1 hk
    by_cases hv : v.isList = false
    · exact (apply_renames_of_isList_eq_false hv m).2.2.1
    · match v with
      | .list [] => exact .error rfl
      | .list (_ :: vs) => exact .ok (Value.list vs)
  | cons =>
    cases hp
    obtain ⟨u, v, rfl⟩ := List.length_eq_two.1 hk
    by_cases hv : v.isList = false
    · exact (apply_renames_of_isList_eq_false hv m).2.2.2 u
    · match v with
      | .list vs => exact .ok (Value.list (u :: vs))

/-- A primitive does with renamed arguments what it does with the arguments. -/
theorem apply_renames (hr : Function.Injective r) (p : Primitive) (m : Nat) (args : List Value) :
    Except.Renames (rename r) (p.apply m args) (p.apply m (args.map (rename r))) := by
  match p with
  | add | sub | mul | div =>
    refine (numbers_renames _ args).bind fun ns ↦ (Except.Renames.refl _).bind fun n ↦ ?_
    exact .ok_of_eq (Value.rename_ofNumber m n)
  | less | greater => exact (numbers_renames _ args).bind fun ns ↦ .ok (Value.bool _)
  | equal =>
    rw [apply, apply, allEqual_map_rename hr]
    exact .ok (Value.bool _)
  | list => exact .ok_of_eq (Value.rename_list args)
  | isNull | car | cdr | cons => exact apply_renames_of_arity rfl m args

end Primitive

/-! ## Nodes -/

namespace Node

mutual

/-- The node with its symbols renamed. -/
def rename (r : Symbol → Symbol) : Node → Node
  | literal v => literal (v.rename r)
  | lookup x => lookup (r x)
  | branch test yes no => branch (rename r test) (rename r yes) (rename r no)
  | define x value => define (r x) (rename r value)
  | assign x value => assign (r x) (rename r value)
  | function params body source =>
    function (params.map r) (rename r body) (source.map (Value.rename r))
  | sequence nodes => sequence (renameEach r nodes)
  | application operator operands => application (rename r operator) (renameEach r operands)

/-- Nodes with their symbols renamed. -/
def renameEach (r : Symbol → Symbol) : List Node → List Node
  | [] => []
  | n :: ns => rename r n :: renameEach r ns

end

theorem renameEach_eq_map (ns : List Node) : renameEach r ns = ns.map (rename r) := by
  induction ns with
  | nil => rfl
  | cons n ns ih => rw [renameEach, ih, List.map_cons]

theorem rename_ofList (ns : List Node) : (ofList ns).rename r = ofList (ns.map (rename r)) := by
  match ns with
  | [] | [_] => rfl
  | n :: m :: ns =>
    show sequence (renameEach r (n :: m :: ns)) = _
    rw [renameEach_eq_map]
    rfl

mutual

theorem depth_rename (n : Node) : (n.rename r).depth = n.depth := by
  match n with
  | literal _ | lookup _ => rfl
  | branch t y n => rw [rename, depth, depth, depth_rename t, depth_rename y, depth_rename n]
  | define _ n => rw [rename, depth, depth, depth_rename n]
  | assign _ n => rw [rename, depth, depth, depth_rename n]
  | function _ n _ => rw [rename, depth, depth, depth_rename n]
  | sequence ns => rw [rename, depth, depth, depthAll_renameEach ns]
  | application n ns => rw [rename, depth, depth, depth_rename n, depthAll_renameEach ns]

theorem depthAll_renameEach (ns : List Node) : depthAll (renameEach r ns) = depthAll ns := by
  match ns with
  | [] => rfl
  | n :: ns => rw [renameEach, depthAll, depthAll, depth_rename n, depthAll_renameEach ns]

end

end Node

/-! ## Frames -/

/-- A binding with the symbols of its name and its value renamed. -/
def renameBinding (r : Symbol → Symbol) (b : Value × Value) : Value × Value :=
  (b.1.rename r, b.2.rename r)

namespace Frame

/-- The frame with the symbols of its names and values renamed. -/
def rename (r : Symbol → Symbol) (f : Frame) : Frame := ⟨f.bindings.map (renameBinding r)⟩

theorem get?_rename (hr : Function.Injective r) (f : Frame) (x : Value) :
    (f.rename r).get? (x.rename r) = (f.get? x).map (Value.rename r) := by
  have hkey : (fun b : Value × Value ↦ decide (b.1.key = (x.rename r).key)) ∘ renameBinding r =
      fun b ↦ decide (b.1.key = x.key) := by
    funext b
    exact decide_eq_decide.2 (Value.key_rename_eq_iff hr)
  rw [get?, get?, rename, List.find?_map, hkey, Option.map_map, Option.map_map]
  rfl

theorem binds_rename (hr : Function.Injective r) (f : Frame) (x : Value) :
    (f.rename r).binds (x.rename r) = f.binds x := by
  rw [binds, binds, get?_rename hr, Option.isSome_map]

theorem map_setBinding (hr : Function.Injective r) (x v : Value) (bs : List (Value × Value)) :
    (setBinding x v bs).map (renameBinding r) =
      setBinding (x.rename r) (v.rename r) (bs.map (renameBinding r)) := by
  induction bs with
  | nil => rfl
  | cons b bs ih =>
    rw [List.map_cons, setBinding, renameBinding, setBinding]
    by_cases h : b.1.key = x.key
    · rw [if_pos h, if_pos ((Value.key_rename_eq_iff hr).2 h)]
      rfl
    · rw [if_neg h, if_neg ((Value.key_rename_eq_iff hr).not.2 h), List.map_cons, ih]
      rfl

theorem rename_set (hr : Function.Injective r) (f : Frame) (x v : Value) :
    (f.set x v).rename r = (f.rename r).set (x.rename r) (v.rename r) :=
  congrArg mk (map_setBinding hr x v f.bindings)

theorem rename_ofPairs (hr : Function.Injective r) (ps : List (Value × Value)) :
    (ofPairs ps).rename r = ofPairs (ps.map (renameBinding r)) := by
  have hfold : ∀ f : Frame, (ps.foldl (fun f p ↦ f.set p.1 p.2) f).rename r =
      (ps.map (renameBinding r)).foldl (fun f p ↦ f.set p.1 p.2) (f.rename r) := by
    induction ps with
    | nil => exact fun f ↦ rfl
    | cons p ps ih =>
      intro f
      rw [List.foldl_cons, List.map_cons, List.foldl_cons, ih, rename_set hr]
      rfl
  exact hfold empty

/-- The frame of a call, with the parameters and the arguments renamed. -/
theorem rename_parameters (hr : Function.Injective r) (params : List Symbol) (args : List Value) :
    (ofPairs ((params.map .symbol).zip args)).rename r =
      ofPairs (((params.map r).map .symbol).zip (args.map (Value.rename r))) := by
  have hnames : (params.map r).map .symbol = (params.map .symbol).map (Value.rename r) := by
    rw [List.map_map, List.map_map]
    rfl
  rw [rename_ofPairs hr, hnames, List.zip_map]
  rfl

end Frame

/-! ## Stores -/

/-- The environment with its frame renamed. -/
def Env.rename (r : Symbol → Symbol) (env : Env) : Env := ⟨env.frame.rename r, env.enclosure⟩

/-- The code of a closure with its symbols renamed. -/
def Code.rename (r : Symbol → Symbol) (c : Code Node) : Code Node :=
  ⟨c.body.rename r, c.env, c.source.map (Value.rename r)⟩

namespace Store

/-- The store with its symbols renamed. -/
def rename (r : Symbol → Symbol) (s : Store Node) : Store Node :=
  ⟨s.envs.map (Env.rename r), s.codes.map (Code.rename r), s.marks⟩

theorem env?_rename (s : Store Node) (e : EnvId) :
    (s.rename r).env? e = (s.env? e).map (Env.rename r) := by
  match e with
  | 0 => rfl
  | n + 1 => exact Array.getElem?_map

theorem nextEnv_rename (s : Store Node) : (s.rename r).nextEnv = s.nextEnv := by
  rw [nextEnv, nextEnv, rename, Array.size_map]

/-- Walking outward follows enclosures only. -/
theorem chain_rename (s : Store Node) (e : EnvId) : (s.rename r).chain e = s.chain e := by
  induction e using Nat.strongRecOn with
  | _ e ih =>
    have he := env?_rename (r := r) s e
    match hs : s.env? e with
    | none =>
      rw [hs] at he
      rw [chain_of_env?_eq_none hs, chain_of_env?_eq_none he]
    | some env =>
      rw [hs] at he
      rw [chain_of_env? hs, chain_of_env? he]
      by_cases hlt : env.enclosure < e
      · rw [if_pos hlt, if_pos (show (env.rename r).enclosure < e from hlt)]
        exact congrArg _ (ih _ hlt)
      · rw [if_neg hlt, if_neg (show ¬ (env.rename r).enclosure < e from hlt)]

theorem binds_rename (hr : Function.Injective r) (s : Store Node) (e : EnvId) (x : Value) :
    (s.rename r).binds e (x.rename r) = s.binds e x := by
  rw [binds, binds, env?_rename]
  rcases s.env? e with _ | env
  · rfl
  · exact env.frame.binds_rename hr x

theorem find?_rename (hr : Function.Injective r) (s : Store Node) (e : EnvId) (x : Value) :
    (s.rename r).find? e (x.rename r) = s.find? e x := by
  rw [find?, find?, chain_rename]
  exact congrArg (List.find? · (s.chain e)) (funext fun a ↦ binds_rename hr s a x)

theorem value?_rename (hr : Function.Injective r) (s : Store Node) (e : EnvId) (x : Value) :
    (s.rename r).value? e (x.rename r) = (s.value? e x).map (Value.rename r) := by
  rw [value?, value?, find?_rename hr]
  rcases s.find? e x with _ | a
  · rfl
  · show ((s.rename r).env? a).bind _ = ((s.env? a).bind _).map _
    rw [env?_rename]
    rcases s.env? a with _ | env
    · rfl
    · exact env.frame.get?_rename hr x

theorem rename_put (hr : Function.Injective r) (s : Store Node) (e : EnvId) (x v : Value) :
    (s.put e x v).rename r = (s.rename r).put e (x.rename r) (v.rename r) := by
  match e with
  | 0 => rfl
  | n + 1 =>
    rw [put, put, rename, rename]
    refine congrArg (mk · (s.codes.map (Code.rename r)) s.marks) (Array.ext_getElem? fun i ↦ ?_)
    rw [Array.getElem?_map, Array.getElem?_modify, Array.getElem?_modify, Array.getElem?_map]
    by_cases hi : n = i
    · rw [if_pos hi, if_pos hi, Option.map_map, Option.map_map]
      refine congrArg (Option.map · s.envs[i]?) (funext fun env ↦ ?_)
      exact congrArg (Env.mk · env.enclosure) (env.frame.rename_set hr x v)
    · rw [if_neg hi, if_neg hi]

theorem rename_pushEnv (s : Store Node) (env : Env) :
    (s.pushEnv env).rename r = (s.rename r).pushEnv (env.rename r) := by
  rw [pushEnv, pushEnv, rename, rename, Array.map_push]

theorem size_codes_rename (s : Store Node) : (s.rename r).codes.size = s.codes.size :=
  Array.size_map

theorem getElem?_codes_rename (s : Store Node) (id : Nat) :
    (s.rename r).codes[id]? = s.codes[id]?.map (Code.rename r) :=
  Array.getElem?_map

theorem rename_pushCode (s : Store Node) (c : Code Node) :
    ({ s with codes := s.codes.push c } : Store Node).rename r =
      { s.rename r with codes := (s.rename r).codes.push (c.rename r) } := by
  rw [rename, rename, Array.map_push]

end Store

end ReverseLisp
