import Mathlib.Data.List.Forall2
import ReverseLisp.Primitive.Application
import ReverseLisp.Proofs.Atoms

/-!
# Links between stores

Closures and results that are not numbers are told apart by numbers, which say only in which order
they were made, and so are environments. Two runs of one program in different stores number them
differently. A *link* says which numbers of the one store stand for which numbers of the other.
Values are linked if they are the same up to these numbers, stores if linked numbers stand for
linked contents.

A link keeps the order of the numbers. So it is one-to-one, which equality of values needs, and an
environment is met before its enclosure on both sides.

A link may speak of numbers that are not yet given out, provided that they are free in both stores.
So it can be told first which numbers are the next, and the contents can be put there afterwards.
-/

namespace ReverseLisp

/-! ## Matchings -/

/-- A matching of numbers that keeps their order. -/
structure Matching where
  Rel : Nat → Nat → Prop
  lt_iff_lt {a b a' b' : Nat} (h : Rel a b) (h' : Rel a' b') : a < a' ↔ b < b'

namespace Matching

variable {M : Matching} {a b a' b' m n : Nat}

/-- What keeps the order is one-to-one. -/
theorem eq_iff_eq (h : M.Rel a b) (h' : M.Rel a' b') : a = a' ↔ b = b' := by
  have hlt := M.lt_iff_lt h h'
  have hgt := M.lt_iff_lt h' h
  omega

/-- Only numbers below `m` are matched, with numbers below `n`. -/
def Below (M : Matching) (m n : Nat) : Prop := ∀ a b, M.Rel a b → a < m ∧ b < n

/-- The numbers with a property, each matched with itself. -/
def diagonal (p : Nat → Prop) : Matching where
  Rel a b := a = b ∧ p a
  lt_iff_lt := by
    rintro a _ a' _ ⟨rfl, -⟩ ⟨rfl, -⟩
    exact Iff.rfl

/-- The matching that has one more number on either side, above all others. -/
def extend (M : Matching) (m n : Nat) (h : M.Below m n) : Matching where
  Rel a b := M.Rel a b ∨ a = m ∧ b = n
  lt_iff_lt := by
    rintro a b a' b' (hab | ⟨rfl, rfl⟩) (hab' | ⟨rfl, rfl⟩)
    · exact M.lt_iff_lt hab hab'
    · have := h a b hab
      omega
    · have := h a' b' hab'
      omega
    · omega

theorem Below.mono (h : M.Below m n) (hm : m ≤ a) (hn : n ≤ b) : M.Below a b := by
  intro x y hxy
  have := h x y hxy
  omega

end Matching

/-- Which numbers of one store stand for which numbers of another. The empty environment stands for
itself. -/
structure Link where
  envs : Matching
  codes : Matching
  marks : Matching
  zero : envs.Rel 0 0

namespace Link

variable {L : Link}

theorem eq_zero_iff {a b : EnvId} (h : L.envs.Rel a b) : a = 0 ↔ b = 0 :=
  L.envs.eq_iff_eq h L.zero

/-- Whether a value that is no list stands for itself. -/
def Fixes (L : Link) : Value → Prop
  | .closure id _ => L.codes.Rel id id
  | .nan mark => L.marks.Rel mark mark
  | _ => True

/-- The second link matches what the first does. -/
structure Le (L L' : Link) : Prop where
  envs : ∀ {a b}, L.envs.Rel a b → L'.envs.Rel a b
  codes : ∀ {i j}, L.codes.Rel i j → L'.codes.Rel i j
  marks : ∀ {m n}, L.marks.Rel m n → L'.marks.Rel m n

theorem Le.refl (L : Link) : L.Le L := ⟨id, id, id⟩

theorem Le.trans {L L' L'' : Link} (h : L.Le L') (h' : L'.Le L'') : L.Le L'' :=
  ⟨fun hr ↦ h'.envs (h.envs hr), fun hr ↦ h'.codes (h.codes hr), fun hr ↦ h'.marks (h.marks hr)⟩

/-- The link matches no number with another one. -/
structure IsIdentity (L : Link) : Prop where
  envs : ∀ {a b}, L.envs.Rel a b → a = b
  codes : ∀ {i j}, L.codes.Rel i j → i = j
  marks : ∀ {m n}, L.marks.Rel m n → m = n

end Link

/-! ## Values -/

theorem forall₂_imp_of_mem {α δ : Type} {R S : α → δ → Prop} {as : List α} {bs : List δ}
    (h : List.Forall₂ R as bs) (hRS : ∀ a ∈ as, ∀ b, R a b → S a b) : List.Forall₂ S as bs := by
  induction h with
  | nil => exact .nil
  | cons hab _ ih =>
    have ⟨ha, has⟩ := List.forall_mem_cons.1 hRS
    exact .cons (ha _ hab) (ih has)

theorem eq_of_forall₂ {α : Type} {R : α → α → Prop} {as bs : List α} (h : List.Forall₂ R as bs)
    (hR : ∀ a ∈ as, ∀ b, R a b → a = b) : as = bs := by
  rw [← List.forall₂_eq_eq_eq]
  exact forall₂_imp_of_mem h hR

namespace Value

/-- Whether a value is an atom without a number of its own. -/
def isFixed : Value → Bool
  | nan _ | closure _ _ | list _ => false
  | _ => true

/-- No closure is embedded in the value, and no result that is not a number. -/
def IsPlain (v : Value) : Prop := ∀ a ∈ v.atoms, a.isFixed = true

instance (v : Value) : Decidable v.IsPlain := inferInstanceAs (Decidable (∀ a ∈ v.atoms, _))

/-- Values that are the same up to linked numbers. -/
inductive Linked (L : Link) : Value → Value → Prop where
  | fixed {v : Value} (h : v.isFixed = true) : Linked L v v
  | nan {m n : Nat} (h : L.marks.Rel m n) : Linked L (nan m) (nan n)
  | closure {i j : Nat} (params : List Symbol) (h : L.codes.Rel i j) :
    Linked L (closure i params) (closure j params)
  | list {vs ws : List Value} (h : List.Forall₂ (Linked L) vs ws) : Linked L (list vs) (list ws)

variable {L L' : Link} {v w v' w' : Value}

theorem IsPlain.fixes (h : v.IsPlain) (L : Link) : ∀ a ∈ v.atoms, L.Fixes a := by
  intro a ha
  have hfixed := h a ha
  cases a with
  | nan _ | closure _ _ => cases hfixed
  | _ => trivial

theorem isList_of_isFixed (h : v.isFixed = true) : v.isList = false := by
  cases v with
  | list vs => cases h
  | _ => rfl

/-- Induction on linked values: what holds of linked atoms, and of lists if it holds of their items,
holds of all linked values. -/
@[elab_as_elim]
theorem Linked.induction_items {motive : Value → Value → Prop}
    (atom : ∀ v w, v.isList = false → Linked L v w → motive v w)
    (items : ∀ vs ws, List.Forall₂ motive vs ws → motive (.list vs) (.list ws))
    (h : Linked L v w) : motive v w := by
  induction v using Value.induction_items generalizing w with
  | step v ih =>
    cases h with
    | @list vs ws hs =>
      exact items vs ws (forall₂_imp_of_mem hs fun v hv w hw ↦ ih v hv hw)
    | fixed hv => exact atom _ _ (isList_of_isFixed hv) (.fixed hv)
    | nan hm => exact atom _ _ rfl (.nan hm)
    | closure params hc => exact atom _ _ rfl (.closure params hc)

theorem Linked.mono (hL : L.Le L') (h : Linked L v w) : Linked L' v w := by
  refine Linked.induction_items ?_ (fun vs ws ih ↦ .list ih) h
  intro v w hlist h
  cases h with
  | fixed hv => exact .fixed hv
  | nan hm => exact .nan (hL.marks hm)
  | closure params hc => exact .closure params (hL.codes hc)
  | list _ => cases hlist

/-- A value is linked to itself if its atoms are. -/
theorem linked_self (h : ∀ a ∈ v.atoms, L.Fixes a) : Linked L v v := by
  induction v using Value.induction_items with
  | step v ih =>
    cases v with
    | list vs =>
      refine .list (List.forall₂_same.2 fun w hw ↦ ih w hw fun a ha ↦ ?_)
      exact h a (mem_atoms_list.2 ⟨w, hw, ha⟩)
    | nan mark => exact .nan (h _ List.mem_cons_self)
    | closure id params => exact .closure params (h _ List.mem_cons_self)
    | _ => exact .fixed rfl

/-- Only such values are. -/
theorem Linked.fixes (h : Linked L v v) : ∀ a ∈ v.atoms, L.Fixes a := by
  induction v using Value.induction_items with
  | step v ih =>
    intro a ha
    cases h with
    | list hs =>
      obtain ⟨w, hw, ha⟩ := mem_atoms_list.1 ha
      exact ih w hw (List.forall₂_same.1 hs w hw) a ha
    | nan hm =>
      cases List.mem_singleton.1 ha
      exact hm
    | closure params hc =>
      cases List.mem_singleton.1 ha
      exact hc
    | fixed hv =>
      have hplain : v.IsPlain := by
        intro a ha
        cases v with
        | list _ => cases hv
        | _ =>
          cases List.mem_singleton.1 ha
          exact hv
      exact hplain.fixes L a ha

/-- Values linked by matching each number with itself are the same. -/
theorem Linked.eq (hL : L.IsIdentity) (h : Linked L v w) : v = w := by
  refine Linked.induction_items ?_ ?_ h
  · intro v w hlist h
    cases h with
    | fixed _ => rfl
    | nan hm => rw [hL.marks hm]
    | closure params hc => rw [hL.codes hc]
    | list _ => cases hlist
  · intro vs ws ih
    rw [List.forall₂_eq_eq_eq] at ih
    rw [ih]

theorem Linked.toNumber?_eq (h : Linked L v w) : v.toNumber? = w.toNumber? := by
  cases h <;> rfl

theorem Linked.isFalse_eq (h : Linked L v w) : v.isFalse = w.isFalse := by
  cases h <;> rfl

/-- Linked values have one and the same diagnosis: numbers are not shown. -/
theorem Linked.diagnosis?_eq (h : Linked L v w) : v.diagnosis? = w.diagnosis? := by
  refine Linked.induction_items ?_ ?_ h
  · intro v w hlist h
    cases h with
    | list _ => cases hlist
    | _ => rfl
  · intro vs ws ih
    have hall : diagnoses? vs = diagnoses? ws := by
      induction ih with
      | nil => rfl
      | cons h _ ih => rw [diagnoses?, diagnoses?, h, ih]
    rw [diagnosis?, diagnosis?, hall]

/-- Linked values have one and the same source. -/
theorem Linked.source?_eq (h : Linked L v w) : v.source? = w.source? := by
  refine Linked.induction_items ?_ ?_ h
  · intro v w hlist h
    cases h with
    | list _ => cases hlist
    | _ => rfl
  · intro vs ws ih
    have hall : sources? vs = sources? ws := by
      induction ih with
      | nil => rfl
      | cons h _ ih => rw [sources?, sources?, h, ih]
    rw [source?, source?, hall]

theorem Linked.errorShowing_eq (h : Linked L v w) (mk : String → Error) :
    v.errorShowing mk = w.errorShowing mk := by
  rw [errorShowing, errorShowing, h.diagnosis?_eq]

theorem Linked.equalAtom_eq (hv : Linked L v v') (hw : Linked L w w') :
    v.equalAtom w = v'.equalAtom w' := by
  cases hv with
  | fixed hv =>
    cases hw with
    | fixed hw => rfl
    | _ =>
      cases v with
      | nan _ | closure _ _ => cases hv
      | _ => rfl
  | nan hm =>
    cases hw with
    | nan hm' => simp [equalAtom, L.marks.eq_iff_eq hm hm']
    | @fixed w hw =>
      cases w with
      | nan _ => cases hw
      | _ => rfl
    | _ => rfl
  | closure params hc =>
    cases hw with
    | closure params' hc' => simp [equalAtom, L.codes.eq_iff_eq hc hc']
    | @fixed w hw =>
      cases w with
      | closure _ _ => cases hw
      | _ => rfl
    | _ => rfl
  | list h =>
    cases hw with
    | @fixed w hw => cases w <;> rfl
    | _ => rfl

theorem Linked.isList_eq (h : Linked L v w) : v.isList = w.isList := by
  cases h <;> rfl

/-- Linked values are both lists, with linked items, or neither of them is. -/
theorem Linked.list_or (h : Linked L v w) :
    (∃ vs ws, v = .list vs ∧ w = .list ws ∧ List.Forall₂ (Linked L) vs ws) ∨
      (v.isList = false ∧ w.isList = false) := by
  cases h with
  | list hs => exact .inl ⟨_, _, rfl, rfl, hs⟩
  | fixed hv => exact .inr ⟨isList_of_isFixed hv, isList_of_isFixed hv⟩
  | nan _ => exact .inr ⟨rfl, rfl⟩
  | closure _ _ => exact .inr ⟨rfl, rfl⟩

theorem equal_of_isList_eq_false (hv : v.isList = false) (w : Value) :
    v.equal w = (!w.isList && v.equalAtom w) := by
  cases v with
  | list vs => cases hv
  | _ => cases w <;> simp [equal, isList]

theorem equal_list_of_isList_eq_false (vs : List Value) (hw : w.isList = false) :
    (list vs).equal w = false := by
  cases w with
  | list ws => cases hw
  | _ => simp [equal]

/-- Equality does not depend on the numbers, since links are one-to-one. -/
theorem Linked.equal_eq (hv : Linked L v v') (hw : Linked L w w') : v.equal w = v'.equal w' := by
  suffices h : ∀ w w', Linked L w w' → v.equal w = v'.equal w' from h w w' hw
  refine Linked.induction_items ?_ ?_ hv
  · intro v v' hlist hv w w' hw
    rw [equal_of_isList_eq_false hlist, equal_of_isList_eq_false (hv.isList_eq ▸ hlist),
      hw.isList_eq, hv.equalAtom_eq hw]
  · intro vs vs' ih w w' hw
    rcases hw.list_or with ⟨ws, ws', rfl, rfl, hs⟩ | ⟨hlist, hlist'⟩
    · rw [equal, equal]
      clear hw
      induction ih generalizing ws ws' with
      | nil => cases hs <;> simp [equalAll]
      | cons hv _ ih =>
        cases hs with
        | nil => simp [equalAll]
        | cons hw hs => rw [equalAll, equalAll, hv _ _ hw, ih _ _ hs]
    · rw [equal_list_of_isList_eq_false vs hlist, equal_list_of_isList_eq_false vs' hlist']

end Value

/-- What is read is plain. -/
theorem isPlain_of_read {program : String} {exprs : List Value} (h : read program = .ok exprs)
    {expr : Value} (hexpr : expr ∈ exprs) : expr.IsPlain :=
  forall_atoms_of_read (fun _ ↦ rfl) (fun _ ↦ rfl) (fun _ ↦ rfl) h hexpr

/-! ## Primitives -/

/-- Computations that fail with the same error or give matching results. -/
inductive Alike {α δ : Type} (V : α → δ → Prop) : Except Error α → Except Error δ → Prop where
  | ok {a : α} {b : δ} (value : V a b) : Alike V (.ok a) (.ok b)
  | error (err : Error) : Alike V (.error err) (.error err)

theorem Alike.imp {α δ : Type} {V W : α → δ → Prop} {x : Except Error α} {y : Except Error δ}
    (hVW : ∀ a b, V a b → W a b) (h : Alike V x y) : Alike W x y := by
  cases h with
  | ok hv => exact .ok (hVW _ _ hv)
  | error err => exact .error err

theorem Alike.eq {α : Type} {x y : Except Error α} (h : Alike Eq x y) : x = y := by
  cases h with
  | ok hv => rw [hv]
  | error err => rfl

theorem Alike.bind_same {α δ δ' : Type} {V : δ → δ' → Prop} (x : Except Error α)
    {f : α → Except Error δ} {g : α → Except Error δ'} (h : ∀ a, Alike V (f a) (g a)) :
    Alike V (x >>= f) (x >>= g) := by
  cases x with
  | ok a => exact h a
  | error err => exact .error err

namespace Primitive

variable {L : Link} {args args' : List Value} {m n : Nat}

theorem numbers_eq_of_linked (p : Primitive) (h : List.Forall₂ (Value.Linked L) args args') :
    p.numbers args = p.numbers args' := by
  induction h with
  | nil => rfl
  | cons hv _ ih => rw [numbers, numbers, hv.toNumber?_eq, hv.errorShowing_eq, ih]

theorem allEqual_eq_of_linked (h : List.Forall₂ (Value.Linked L) args args') :
    allEqual args = allEqual args' := by
  cases h with
  | nil => rfl
  | cons hv hs =>
    rw [allEqual, allEqual]
    induction hs with
    | nil => rfl
    | cons hw _ ih => rw [List.all_cons, List.all_cons, hv.equal_eq hw, ih]

theorem ofNumber_linked (h : L.marks.Rel m n) (k : Number) :
    Value.Linked L (.ofNumber m k) (.ofNumber n k) := by
  cases k with
  | nan => exact .nan h
  | _ => exact .fixed rfl

/-- How many arguments a primitive takes, if it does not take any number of them. -/
def arity? : Primitive → Option Nat
  | isNull | car | cdr => some 1
  | cons => some 2
  | _ => none

theorem apply_of_length_ne {p : Primitive} {k : Nat} (hp : p.arity? = some k)
    (h : args.length ≠ k) (m : Nat) : p.apply m args = .error (.argumentCount p k) := by
  cases p with
  | isNull | car | cdr =>
    cases hp
    match args with
    | [] => rfl
    | [_] => cases h rfl
    | _ :: _ :: _ => rw [apply] <;> simp
  | cons =>
    cases hp
    match args with
    | [] | [_] => rfl
    | [_, _] => cases h rfl
    | _ :: _ :: _ :: _ => rw [apply] <;> simp
  | _ => cases hp

theorem apply_of_isList_eq_false {v : Value} (h : v.isList = false) (m : Nat) :
    isNull.apply m [v] = .ok (.bool false) ∧
      car.apply m [v] = .error (v.errorShowing (.notNonemptyList .car)) ∧
      cdr.apply m [v] = .error (v.errorShowing (.notNonemptyList .cdr)) ∧
      ∀ w, cons.apply m [w, v] = .error (v.errorShowing .notList) := by
  cases v with
  | list vs => cases h
  | _ => exact ⟨rfl, rfl, rfl, fun _ ↦ rfl⟩

/-- A primitive of a fixed number of arguments gives linked results for linked arguments. -/
theorem apply_alike_of_arity {p : Primitive} {k : Nat} (hp : p.arity? = some k)
    (h : List.Forall₂ (Value.Linked L) args args') :
    Alike (Value.Linked L) (p.apply m args) (p.apply n args') := by
  by_cases hk : args.length = k
  swap
  · rw [apply_of_length_ne hp hk, apply_of_length_ne hp (h.length_eq ▸ hk)]
    exact .error _
  -- the number of arguments is right, so their shape decides
  cases p with
  | isNull =>
    cases hp
    match args, args', h with
    | [v], [w], .cons hv .nil =>
      rcases hv.list_or with ⟨vs, ws, rfl, rfl, hs⟩ | ⟨hlist, hlist'⟩
      · cases hs <;> exact .ok (.fixed rfl)
      · rw [(apply_of_isList_eq_false hlist m).1, (apply_of_isList_eq_false hlist' n).1]
        exact .ok (.fixed rfl)
  | car =>
    cases hp
    match args, args', h with
    | [v], [w], .cons hv .nil =>
      rcases hv.list_or with ⟨vs, ws, rfl, rfl, hs⟩ | ⟨hlist, hlist'⟩
      · cases hs with
        | nil => exact .error _
        | cons hfirst _ => exact .ok hfirst
      · rw [(apply_of_isList_eq_false hlist m).2.1, (apply_of_isList_eq_false hlist' n).2.1,
          hv.errorShowing_eq]
        exact .error _
  | cdr =>
    cases hp
    match args, args', h with
    | [v], [w], .cons hv .nil =>
      rcases hv.list_or with ⟨vs, ws, rfl, rfl, hs⟩ | ⟨hlist, hlist'⟩
      · cases hs with
        | nil => exact .error _
        | cons _ hrest => exact .ok (.list hrest)
      · rw [(apply_of_isList_eq_false hlist m).2.2.1, (apply_of_isList_eq_false hlist' n).2.2.1,
          hv.errorShowing_eq]
        exact .error _
  | cons =>
    cases hp
    match args, args', h with
    | [u, v], [u', w], .cons hu (.cons hv .nil) =>
      rcases hv.list_or with ⟨vs, ws, rfl, rfl, hs⟩ | ⟨hlist, hlist'⟩
      · exact .ok (.list (.cons hu hs))
      · rw [(apply_of_isList_eq_false hlist m).2.2.2, (apply_of_isList_eq_false hlist' n).2.2.2,
          hv.errorShowing_eq]
        exact .error _
  | _ => cases hp

/-- A primitive gives linked results for linked arguments, if the marks at hand are linked. -/
theorem apply_alike (p : Primitive) (h : List.Forall₂ (Value.Linked L) args args') :
    Alike (fun v w ↦ L.marks.Rel m n → Value.Linked L v w) (p.apply m args) (p.apply n args') := by
  cases p with
  | add | sub | mul | div =>
    rw [apply, apply, numbers_eq_of_linked _ h]
    exact .bind_same _ fun _ ↦ .bind_same _ fun k ↦ .ok fun hm ↦ ofNumber_linked hm k
  | less | greater =>
    rw [apply, apply, numbers_eq_of_linked _ h]
    exact .bind_same _ fun _ ↦ .ok fun _ ↦ .fixed rfl
  | equal =>
    rw [apply, apply, allEqual_eq_of_linked h]
    exact .ok fun _ ↦ .fixed rfl
  | list => exact .ok fun _ ↦ .list h
  | isNull | car | cdr | cons => exact (apply_alike_of_arity rfl h).imp fun _ _ hv _ ↦ hv

end Primitive

end ReverseLisp
