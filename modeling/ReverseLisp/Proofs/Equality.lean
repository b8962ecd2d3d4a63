import Mathlib.Data.List.Forall2
import ReverseLisp.Primitive.Application
import ReverseLisp.Proofs.Analysis

/-!
# Equality is an equivalence

Equality looks at a value with some of it left aside: of a number, whether it is an integer or a
binary number, and of a closure, everything but its identity. What it looks at is the *essence* of
the value, and two values are equal exactly if they have the same essence. So equality is an
equivalence, and it does not matter which of several values the others are compared with, nor in
which order they come.

## Objects

A value does not tell whether it is the same object as another one: two like lists may be one list
or two. A test that answers at once for one and the same object can therefore go in several ways
between the same two values, at every depth of lists. `Comparison` lists these ways. All of them
come to what equality says, and there is always one. For this it matters that a result which is not
a number has an identity that shows in the value: compared as a number with itself it would not be
equal.
-/

namespace ReverseLisp

/-! ## The essence of values -/

/-- What equality looks at. -/
inductive Essence where
  | number (x : Option Number.Exact)
  | nan (mark : Nat)
  | bool (b : Bool)
  | symbol (x : Symbol)
  | closure (id : Nat)
  | primitive (p : Primitive)
  | foreign (f : Foreign)
  | list (items : List Essence)

namespace Number

@[simp] theorem exactValue?_nan : nan.exactValue? = none := rfl

@[simp] theorem exactValue?_eq_none_iff {n : Number} : n.exactValue? = none ↔ n = nan := by
  match n with
  | int _ | binary (.finite _ _ _) | binary (.infinite _) => simp [exactValue?, Binary.toRat?]
  | nan => simp

theorem eq_iff {m n : Number} : m.eq n = true ↔ m.exactValue? = n.exactValue? ∧ m ≠ nan := by
  rw [eq, ne_eq, ← exactValue?_eq_none_iff]
  cases m.exactValue? <;> cases n.exactValue? <;> simp

end Number

namespace Value

mutual

/-- The essence of a value. -/
def essence : Value → Essence
  | int n => .number (Number.int n).exactValue?
  | binary x => .number (Number.binary x).exactValue?
  | nan mark => .nan mark
  | bool b => .bool b
  | symbol x => .symbol x
  | list items => .list (essences items)
  | closure id _ => .closure id
  | primitive p => .primitive p
  | foreign f => .foreign f

/-- The essences of several values. -/
def essences : List Value → List Essence
  | [] => []
  | v :: vs => v.essence :: essences vs

end

variable {v w : Value} {vs ws : List Value}

theorem equalAll_iff :
    equalAll vs ws = true ↔ List.Forall₂ (fun v w ↦ v.equal w = true) vs ws := by
  induction vs generalizing ws with
  | nil => cases ws <;> simp [equalAll]
  | cons v vs ih => cases ws <;> simp [equalAll, ih]

theorem essences_eq_iff :
    essences vs = essences ws ↔ List.Forall₂ (fun v w ↦ v.essence = w.essence) vs ws := by
  induction vs generalizing ws with
  | nil => cases ws <;> simp [essences]
  | cons v vs ih => cases ws <;> simp [essences, ih]

/-- Values are equal exactly if they have the same essence. -/
theorem equal_iff_essence_eq : v.equal w = true ↔ v.essence = w.essence := by
  induction v using induction_items generalizing w with
  | step v ih =>
    cases v with
    | list vs =>
      cases w with
      | list ws =>
        rw [equal, equalAll_iff, essence, essence, Essence.list.injEq, essences_eq_iff,
          List.forall₂_iff_zip, List.forall₂_iff_zip]
        refine and_congr_right fun _ ↦ forall₂_congr fun v w ↦ forall_congr' fun h ↦ ?_
        exact ih v (List.of_mem_zip h).1
      | _ => simp [equal, essence]
    | _ =>
      cases w <;> simp [equal, equalAtom, essence, toNumber?, Number.eq_iff]

/-- Equality is an equivalence, being sameness of essences. -/
theorem equal_equivalence : Equivalence fun v w : Value ↦ v.equal w = true where
  refl _ := equal_iff_essence_eq.2 rfl
  symm h := equal_iff_essence_eq.2 (equal_iff_essence_eq.1 h).symm
  trans h h' :=
    equal_iff_essence_eq.2 ((equal_iff_essence_eq.1 h).trans (equal_iff_essence_eq.1 h'))

/-! ## One object or two -/

/-- Whether values can be one and the same object. A closure is known by its identity alone. -/
def CanBeOne : Value → Value → Prop
  | closure i _, closure j _ => i = j
  | v, w => v = w

/-- A way in which two objects with these values can be compared, and the answer. -/
inductive Comparison : Value → Value → Bool → Prop where
  /-- They are one object. -/
  | one {v w : Value} (h : CanBeOne v w) : Comparison v w true
  /-- They are lists of different lengths. -/
  | lengths {vs ws : List Value} (h : vs.length ≠ ws.length) :
    Comparison (list vs) (list ws) false
  /-- They are two lists, and all their items are found equal. -/
  | alike {vs ws : List Value} (hlength : vs.length = ws.length)
      (h : ∀ v w, (v, w) ∈ vs.zip ws → Comparison v w true) : Comparison (list vs) (list ws) true
  /-- They are two lists, and items at one place are found unequal. -/
  | differ {vs ws : List Value} {v w : Value} (hlength : vs.length = ws.length)
      (hmem : (v, w) ∈ vs.zip ws) (h : Comparison v w false) : Comparison (list vs) (list ws) false
  /-- They are two numbers. Like marks mean that they are one object. -/
  | numbers {v w : Value} {m n : Number} (hv : v.toNumber? = some m) (hw : w.toNumber? = some n)
      (h : ∀ mark, v = nan mark → w ≠ nan mark) : Comparison v w (m.eq n)
  /-- They are two texts of the host. -/
  | texts (s t : String) : Comparison (foreign (.text s)) (foreign (.text t)) (s == t)
  /-- They are two objects of other kinds, or of different kinds. -/
  | other {v w : Value} (h : ¬ CanBeOne v w) (hlist : v.isList = false ∨ w.isList = false)
      (hnumber : v.toNumber? = none ∨ w.toNumber? = none) : Comparison v w false

theorem CanBeOne.equal (h : CanBeOne v w) : v.equal w = true := by
  rw [equal_iff_essence_eq]
  unfold CanBeOne at h
  split at h
  · rw [essence, essence, h]
  · rw [h]

/-- Numbers are compared by their exact values, unless they are not numbers with the same mark. -/
theorem equal_of_toNumber? {m n : Number} (hv : v.toNumber? = some m) (hw : w.toNumber? = some n)
    (h : ∀ mark, v = nan mark → w ≠ nan mark) : v.equal w = m.eq n := by
  match v, w, hv, hw with
  | nan i, nan j, rfl, rfl =>
    have hij : i ≠ j := fun hij ↦ h i rfl (hij ▸ rfl)
    simp [equal, equalAtom, hij, Number.eq]
  | int _, int _, rfl, rfl | int _, binary _, rfl, rfl | int _, nan _, rfl, rfl
  | binary _, int _, rfl, rfl | binary _, binary _, rfl, rfl | binary _, nan _, rfl, rfl
  | nan _, int _, rfl, rfl | nan _, binary _, rfl, rfl => rfl

/-- Of what is neither two lists nor two numbers, equal is only what can be one object. -/
theorem equal_eq_false_of_not_canBeOne (h : ¬ CanBeOne v w)
    (hlist : v.isList = false ∨ w.isList = false)
    (hnumber : v.toNumber? = none ∨ w.toNumber? = none) : v.equal w = false := by
  cases v <;> cases w <;> simp_all [CanBeOne, isList, toNumber?, equal, equalAtom]

theorem equal_of_comparison {b : Bool} (h : Comparison v w b) : v.equal w = b := by
  induction h with
  | one h => exact h.equal
  | lengths h =>
    rw [equal, Bool.eq_false_iff, Ne, equalAll_iff]
    exact fun hall ↦ h hall.length_eq
  | alike hlength _ ih =>
    rw [equal, equalAll_iff, List.forall₂_iff_zip]
    exact ⟨hlength, fun h ↦ ih _ _ h⟩
  | differ hlength hmem _ ih =>
    rw [equal, Bool.eq_false_iff, Ne, equalAll_iff, List.forall₂_iff_zip]
    exact fun ⟨_, hall⟩ ↦ Bool.eq_false_iff.1 ih (hall hmem)
  | numbers hv hw h => exact equal_of_toNumber? hv hw h
  | texts s t => simp [equal, equalAtom, beq_eq_beq]
  | other h hlist hnumber => exact equal_eq_false_of_not_canBeOne h hlist hnumber

theorem exists_comparison_of_isList_eq_false (hlist : v.isList = false ∨ w.isList = false) :
    ∃ b, Comparison v w b := by
  by_cases hone : CanBeOne v w
  · exact ⟨true, .one hone⟩
  · match hv : v.toNumber?, hw : w.toNumber? with
    | some m, some n =>
      refine ⟨m.eq n, .numbers hv hw ?_⟩
      rintro mark rfl rfl
      exact hone rfl
    | none, _ => exact ⟨false, .other hone hlist (.inl hv)⟩
    | some _, none => exact ⟨false, .other hone hlist (.inr hw)⟩

theorem exists_comparison_list (h : ∀ v ∈ vs, ∀ w, ∃ b, Comparison v w b) (ws : List Value) :
    ∃ b, Comparison (list vs) (list ws) b := by
  by_cases hlength : vs.length = ws.length
  · by_cases hdiffer : ∃ v w, (v, w) ∈ vs.zip ws ∧ Comparison v w false
    · obtain ⟨v, w, hmem, hvw⟩ := hdiffer
      exact ⟨false, .differ hlength hmem hvw⟩
    · refine ⟨true, .alike hlength fun v w hmem ↦ ?_⟩
      obtain ⟨_ | _, hvw⟩ := h v (List.of_mem_zip hmem).1 w
      · exact absurd ⟨v, w, hmem, hvw⟩ hdiffer
      · exact hvw
  · exact ⟨false, .lengths hlength⟩

/-- There is always a way to compare. -/
theorem exists_comparison (v w : Value) : ∃ b, Comparison v w b := by
  induction v using induction_items generalizing w with
  | step v ih =>
    cases v with
    | list vs =>
      cases w with
      | list ws => exact exists_comparison_list ih ws
      | _ => exact exists_comparison_of_isList_eq_false (.inr rfl)
    | _ => exact exists_comparison_of_isList_eq_false (.inl rfl)

theorem comparison_iff {b : Bool} : Comparison v w b ↔ v.equal w = b := by
  refine ⟨equal_of_comparison, ?_⟩
  rintro rfl
  obtain ⟨b, h⟩ := exists_comparison v w
  rw [equal_of_comparison h]
  exact h

end Value

/-! ## Several arguments -/

namespace Primitive

/-- All values equal the first exactly if any two of them are equal. -/
theorem allEqual_iff {args : List Value} :
    allEqual args = true ↔ ∀ v ∈ args, ∀ w ∈ args, v.equal w = true := by
  cases args with
  | nil => simp [allEqual]
  | cons first args =>
    rw [allEqual, List.all_eq_true]
    constructor
    · intro h
      have hfirst : ∀ v ∈ first :: args, first.equal v = true :=
        List.forall_mem_cons.2 ⟨Value.equal_equivalence.refl first, h⟩
      intro v hv w hw
      exact Value.equal_equivalence.trans (Value.equal_equivalence.symm (hfirst v hv)) (hfirst w hw)
    · exact fun h v hv ↦ h first List.mem_cons_self v (List.mem_cons_of_mem _ hv)

theorem allEqual_perm {args args' : List Value} (h : args.Perm args') :
    allEqual args = allEqual args' := by
  rw [Bool.eq_iff_iff, allEqual_iff, allEqual_iff]
  simp only [h.mem_iff]

end Primitive

/-- **Equality is an equivalence.** It is reflexive, symmetric and transitive on all values: numbers
of both types, what is not a number, truth values, symbols, functions, foreign values, and lists of
any depth. Whether two objects with the same value are one or two, and wherever in their lists this
is noticed, the answer is the same. Hence the primitive finds its arguments equal exactly if any two
of them are, in whatever order they come. -/
theorem equality_is_equivalence :
    Equivalence (fun v w : Value ↦ v.equal w = true) ∧
    (∀ (v w : Value) b, Value.Comparison v w b ↔ v.equal w = b) ∧
    (∀ mark args, Primitive.equal.apply mark args =
      .ok (.bool (decide (∀ v ∈ args, ∀ w ∈ args, v.equal w = true)))) ∧
    ∀ mark (args args' : List Value), args.Perm args' →
      Primitive.equal.apply mark args = Primitive.equal.apply mark args' := by
  refine ⟨Value.equal_equivalence, fun _ _ _ ↦ Value.comparison_iff, ?_, ?_⟩
  · intro mark args
    have h : Primitive.allEqual args =
        decide (∀ v ∈ args, ∀ w ∈ args, v.equal w = true) := by
      rw [Bool.eq_iff_iff, decide_eq_true_iff, Primitive.allEqual_iff]
    rw [Primitive.apply, h]
  · intro mark args args' h
    rw [Primitive.apply, Primitive.apply, Primitive.allEqual_perm h]

/-- Lists of a number of either type and of what is not a number: equal for the same mark, in any
order, and not for another mark. The truth value is no number, and a list is compared with itself
item by item or at once. -/
theorem equality_is_equivalence_marked :
    let two := Value.binary (.finite false 1 1)
    let first := Value.list [.int 2, .nan 0, .list []]
    let second := Value.list [two, .nan 0, .list []]
    let other := Value.list [two, .nan 1, .list []]
    first.equal second = true ∧ first.equal other = false ∧
      (Value.bool true).equal (.int 1) = false ∧
      Primitive.equal.apply 7 [first, second, second] =
        Primitive.equal.apply 7 [second, first, second] ∧
      Value.Comparison first first true ∧ ¬ Value.Comparison first first false := by
  intro two first second other
  obtain ⟨hequivalence, hcomparison, -, hperm⟩ := equality_is_equivalence
  have hself : first.equal first = true := hequivalence.refl first
  refine ⟨by decide +kernel, by decide +kernel, by decide, hperm 7 _ _ (.swap _ _ _), ?_, ?_⟩
  · exact (hcomparison _ _ _).2 hself
  · rw [hcomparison, hself]
    exact Bool.noConfusion

end ReverseLisp
