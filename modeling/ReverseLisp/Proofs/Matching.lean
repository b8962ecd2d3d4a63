import Mathlib.Order.Bounds.Basic
import ReverseLisp.Proofs.Readable

/-!
# Matching brackets

The bracket that closes a list is the first one at which, counted from the opening bracket on, one
more list is closed than opened. The reader finds it with a running count that starts anew at every
opening bracket, in tokens that have already been cut out of others. That this is sound rests on two
facts: what is found does not depend on the tokens behind it, and a list that is opened inside
another is closed inside it.

## The argument

A split at a closing bracket is determined by what stands before the bracket: a part whose depth
never goes below the start and comes back to it (`splitAtCloser_eq_some_iff`). So tokens may be
added behind a split, and since the depth changes by at most one from token to token, the first
place below the start is where closing brackets outnumber opening ones by exactly one. Behind a
bracket that is opened inside a list, the rest of the list closes one more bracket than it opens,
and hence holds the bracket that matches.
-/

namespace ReverseLisp.Token

/-! ## Splits -/

/-- A token is passed over if that leaves a list open. -/
theorem splitAtCloser_cons {d d' : Nat} {t : Token} (h : (d' : Int) = d + t.weight)
    (ts : List Token) :
    splitAtCloser d (t :: ts) = (splitAtCloser d' ts).map fun p ↦ (t :: p.1, p.2) := by
  obtain ⟨kind, text⟩ := t
  cases kind with
  | opening =>
    obtain rfl : d' = d + 1 := Int.ofNat_inj.1 h
    exact splitAtCloser_opening d text ts
  | closing =>
    have hweight : weight ⟨.closing, text⟩ = -1 := rfl
    obtain rfl : d = d' + 1 := by omega
    exact splitAtCloser_closing_succ d' text ts
  | _ =>
    obtain rfl : d' = d := Int.ofNat_inj.1 (h.trans (Int.add_zero _))
    exact splitAtCloser_of_ne (by simp) (by simp) d' ts

/-- Only a closing bracket outside of all lists is not passed over. -/
theorem eq_of_weight_lt {d : Nat} {t : Token} (h : (d : Int) + t.weight < 0) :
    d = 0 ∧ ∃ text, t = ⟨.closing, text⟩ := by
  obtain ⟨kind, text⟩ := t
  cases kind with
  | closing =>
    have hweight : weight ⟨.closing, text⟩ = -1 := rfl
    exact ⟨by omega, text, rfl⟩
  | opening =>
    have hweight : weight ⟨.opening, text⟩ = 1 := rfl
    omega
  | reverse | quote | literal | other =>
    exact absurd h (Int.not_lt.2 (Int.natCast_nonneg d))

/-- Tokens are split at a closing bracket before which all lists but the outermost are closed, and
the outermost never is. -/
theorem splitAtCloser_eq_some_iff {d : Nat} {ts inner rest : List Token} :
    splitAtCloser d ts = some (inner, rest) ↔
      ∃ text, ts = inner ++ ⟨.closing, text⟩ :: rest ∧ NeverNegative weight d inner ∧
        depth inner = -(d : Int) := by
  constructor
  · intro h
    induction ts generalizing d inner with
    | nil => cases h
    | cons t ts ih =>
      by_cases hpass : 0 ≤ (d : Int) + t.weight
      · obtain ⟨d', hd'⟩ := Int.eq_ofNat_of_zero_le hpass
        rw [splitAtCloser_cons hd'.symm] at h
        obtain ⟨⟨inner', rest'⟩, hsplit, heq⟩ := Option.map_eq_some_iff.1 h
        simp only [Prod.mk.injEq] at heq
        obtain ⟨rfl, rfl⟩ := heq
        obtain ⟨text, rfl, hn, hdepth⟩ := ih hsplit
        refine ⟨text, rfl, ⟨Int.natCast_nonneg d, hd' ▸ hn⟩, ?_⟩
        rw [depth]
        omega
      · obtain ⟨rfl, text, rfl⟩ := eq_of_weight_lt (Int.not_le.1 hpass)
        cases h
        exact ⟨text, rfl, Int.le_refl 0, rfl⟩
  · rintro ⟨text, rfl, hn, hdepth⟩
    induction inner generalizing d with
    | nil =>
      obtain rfl : d = 0 := by
        rw [depth] at hdepth
        omega
      rfl
    | cons t inner ih =>
      obtain ⟨d', hd'⟩ := Int.eq_ofNat_of_zero_le hn.2.nonneg
      rw [depth] at hdepth
      rw [List.cons_append, splitAtCloser_cons hd'.symm, ih (hd' ▸ hn.2) (by omega),
        Option.map_some]

/-- A split stays where it is when tokens are added behind it. -/
theorem splitAtCloser_append {d : Nat} {ts inner rest : List Token}
    (h : splitAtCloser d ts = some (inner, rest)) (us : List Token) :
    splitAtCloser d (ts ++ us) = some (inner, rest ++ us) := by
  obtain ⟨text, rfl, hn, hdepth⟩ := splitAtCloser_eq_some_iff.1 h
  refine splitAtCloser_eq_some_iff.2 ⟨text, ?_, hn, hdepth⟩
  rw [List.append_assoc, List.cons_append]

/-- Tokens are split no later than where their depth is below the start. -/
theorem exists_splitAtCloser {d k : Nat} {ts : List Token} (h : depth (ts.take k) < -(d : Int)) :
    ∃ inner rest, splitAtCloser d ts = some (inner, rest) ∧ inner.length < k := by
  obtain ⟨inner, text, rest, htake, hn, hdepth⟩ := exists_closing h
  have hsplit := splitAtCloser_append (splitAtCloser_eq_some_iff.2 ⟨text, htake, hn, hdepth⟩)
    (ts.drop k)
  rw [List.take_append_drop] at hsplit
  refine ⟨inner, rest ++ ts.drop k, hsplit, ?_⟩
  have hlength : (ts.take k).length = inner.length + (rest.length + 1) := by
    rw [htake, List.length_append, List.length_cons]
  have := List.length_take_le k ts
  omega

theorem le_depth_take {d : Int} {ts : List Token} (h : NeverNegative weight d ts) (k : Nat) :
    0 ≤ d + depth (ts.take k) := by
  induction ts generalizing d k with
  | nil => simpa [depth, NeverNegative] using h
  | cons t ts ih =>
    cases k with
    | zero => simpa [depth] using h.1
    | succ k =>
      rw [List.take_succ_cons, depth, ← Int.add_assoc]
      exact ih h.2 k

/-! ## The place of the matching bracket -/

/-- The token at a place is an opening bracket. -/
def OpensAt (ts : List Token) (i : Nat) : Prop := ∃ t, ts[i]? = some t ∧ t.kind = .opening

theorem opensAt_iff {ts : List Token} {i : Nat} :
    OpensAt ts i ↔ ∃ opener more, ts.drop i = ⟨.opening, opener⟩ :: more := by
  constructor
  · rintro ⟨⟨kind, opener⟩, hget, hkind⟩
    cases hkind
    obtain ⟨hi, hget⟩ := List.getElem?_eq_some_iff.1 hget
    exact ⟨opener, ts.drop (i + 1), by rw [List.drop_eq_getElem_cons hi, hget]⟩
  · rintro ⟨opener, more, hdrop⟩
    refine ⟨⟨.opening, opener⟩, ?_, rfl⟩
    rw [← List.head?_drop, hdrop, List.head?_cons]

/-- Behind `start`, up to the token at `i` and with it, one more list is closed than opened. -/
def ClosesOneMore (ts : List Token) (start : Int) (i : Nat) : Prop :=
  start < i ∧ i < ts.length ∧
    (ts.extract (start + 1).toNat (i + 1)).countP (·.kind = .closing) =
      (ts.extract (start + 1).toNat (i + 1)).countP (·.kind = .opening) + 1

theorem closesOneMore_iff {ts : List Token} {first i : Nat} {start : Int}
    (h : start + 1 = first) :
    ClosesOneMore ts start i ↔
      first ≤ i ∧ i < ts.length ∧ depth ((ts.drop first).take (i + 1 - first)) = -1 := by
  have hfirst : (start + 1).toNat = first := by omega
  have hlt : start < i ↔ first ≤ i := by omega
  rw [ClosesOneMore, hfirst, hlt, depth_eq_countP, List.extract]
  refine and_congr_right fun _ ↦ and_congr_right fun _ ↦ ?_
  omega

theorem sublistEnd_eq_ok_iff_split {ts : List Token} {first i : Nat} {start : Int}
    (h : start + 1 = first) :
    sublistEnd ts start = .ok i ↔
      ∃ inner rest, splitAtCloser 0 (ts.drop first) = some (inner, rest) ∧
        i = first + inner.length := by
  have hfirst : (start + 1).toNat = first := by omega
  rw [sublistEnd, hfirst]
  rcases splitAtCloser 0 (ts.drop first) with _ | ⟨inner, rest⟩
  · simp
  · simp [eq_comm]

theorem sublistEnd_eq_ok_iff_of_drop {ts more : List Token} {t : Token} {s i : Nat}
    (h : ts.drop s = t :: more) :
    sublistEnd ts s = .ok i ↔
      ∃ inner rest, splitAtCloser 0 more = some (inner, rest) ∧ i = s + 1 + inner.length := by
  have hmore : ts.drop (s + 1) = more := by rw [← List.tail_drop, h, List.tail_cons]
  rw [← hmore]
  exact sublistEnd_eq_ok_iff_split rfl

/-- If one more list is closed than opened anywhere, then an end is found. -/
theorem exists_sublistEnd {ts : List Token} {first i : Nat} {start : Int} (h : start + 1 = first)
    (hi : ClosesOneMore ts start i) : ∃ j, sublistEnd ts start = .ok j := by
  obtain ⟨-, -, hdepth⟩ := (closesOneMore_iff h).1 hi
  have hbelow : depth ((ts.drop first).take (i + 1 - first)) < -((0 : Nat) : Int) := by omega
  obtain ⟨inner, rest, hsplit, -⟩ := exists_splitAtCloser hbelow
  exact ⟨first + inner.length, (sublistEnd_eq_ok_iff_split h).2 ⟨inner, rest, hsplit, rfl⟩⟩

theorem isLeast_of_sublistEnd {ts : List Token} {first i : Nat} {start : Int}
    (h : start + 1 = first) (hi : sublistEnd ts start = .ok i) :
    IsLeast {i | ClosesOneMore ts start i} i := by
  obtain ⟨inner, rest, hsplit, rfl⟩ := (sublistEnd_eq_ok_iff_split h).1 hi
  obtain ⟨text, hts, hn, hdepth⟩ := splitAtCloser_eq_some_iff.1 hsplit
  have hlength : ts.length - first = inner.length + (rest.length + 1) := by
    rw [← List.length_drop, hts, List.length_append, List.length_cons]
  refine ⟨(closesOneMore_iff h).2 ⟨Nat.le_add_right _ _, by omega, ?_⟩, ?_⟩
  · have hcount : first + inner.length + 1 - first = inner.length + 1 := by omega
    rw [hcount, hts, List.take_length_add_append, depth_append, hdepth]
    rfl
  · intro j hj
    obtain ⟨hle, -, hbelow⟩ := (closesOneMore_iff h).1 hj
    -- up to the matching bracket the depth is never below the start
    by_contra hlt
    have hprefix : (ts.drop first).take (j + 1 - first) = inner.take (j + 1 - first) := by
      rw [hts, List.take_append_of_le_length (by omega)]
    have := le_depth_take hn (j + 1 - first)
    rw [← hprefix] at this
    omega

theorem sublistEnd_eq_ok_iff {ts : List Token} {first i : Nat} {start : Int}
    (h : start + 1 = first) :
    sublistEnd ts start = .ok i ↔ IsLeast {i | ClosesOneMore ts start i} i := by
  refine ⟨isLeast_of_sublistEnd h, fun hi ↦ ?_⟩
  obtain ⟨j, hj⟩ := exists_sublistEnd h hi.1
  rwa [hi.unique (isLeast_of_sublistEnd h hj)]

theorem kind_of_sublistEnd_error {ts : List Token} {start : Int} {err : Error}
    (h : sublistEnd ts start = .error err) : err.kind = .malformed := by
  unfold sublistEnd at h
  dsimp only at h
  split at h
  · cases h
  · cases h
    rfl

theorem exists_sublistEnd_error_iff {ts : List Token} {first : Nat} {start : Int}
    (h : start + 1 = first) :
    (∃ err, sublistEnd ts start = .error err ∧ err.kind = .malformed) ↔
      ¬ ∃ i, ClosesOneMore ts start i := by
  constructor
  · rintro ⟨err, herr, -⟩ ⟨i, hi⟩
    obtain ⟨j, hj⟩ := exists_sublistEnd h hi
    rw [herr] at hj
    cases hj
  · intro hnone
    rcases hend : sublistEnd ts start with err | i
    · exact ⟨err, rfl, kind_of_sublistEnd_error hend⟩
    · exact absurd ⟨i, (isLeast_of_sublistEnd h hend).1⟩ hnone

/-- The tokens of a list that was opened at `s`. -/
theorem exists_of_sublistEnd {ts : List Token} {s e : Nat} (h : sublistEnd ts s = .ok e) :
    ∃ inner text rest, ts.drop (s + 1) = inner ++ ⟨.closing, text⟩ :: rest ∧
      e = s + 1 + inner.length ∧ ts.extract (s + 1) e = inner ∧ NeverNegative weight 0 inner ∧
      depth inner = 0 := by
  obtain ⟨inner, rest, hsplit, rfl⟩ := (sublistEnd_eq_ok_iff_split rfl).1 h
  obtain ⟨text, hts, hn, hdepth⟩ := splitAtCloser_eq_some_iff.1 hsplit
  refine ⟨inner, text, rest, hts, rfl, ?_, hn, hdepth⟩
  rw [List.extract, hts, Nat.add_sub_cancel_left, List.take_left]

/-- A list that is opened inside another is closed inside it, and is found there. -/
theorem sublistEnd_of_opensAt {ts : List Token} {s e j : Nat} (he : sublistEnd ts s = .ok e)
    (hj : OpensAt ts j) (hsj : s < j) (hje : j < e) :
    ∃ e', sublistEnd ts j = .ok e' ∧ j < e' ∧ e' < e ∧
      sublistEnd (ts.extract (s + 1) e) (j - s - 1) = .ok (e' - (s + 1)) := by
  obtain ⟨inner, text, rest, hts, rfl, hslice, hn, hdepth⟩ := exists_of_sublistEnd he
  obtain ⟨k, rfl⟩ := Nat.exists_eq_add_of_lt hsj
  obtain ⟨⟨kind, opener⟩, hopener, hkind⟩ := hj
  cases hkind
  have hk : k < inner.length := by omega
  have hget : inner[k]? = some ⟨.opening, opener⟩ := by
    have : (ts.drop (s + 1))[k]? = some ⟨.opening, opener⟩ := by
      rw [List.getElem?_drop, ← hopener]
      congr 1
      omega
    rwa [hts, List.getElem?_append_left hk] at this
  have hinner : inner = inner.take k ++ ⟨.opening, opener⟩ :: inner.drop (k + 1) := by
    rw [List.getElem?_eq_getElem hk, Option.some.injEq] at hget
    rw [← hget, List.getElem_cons_drop, List.take_append_drop]
  -- what stands behind the bracket closes one list more than it opens
  have hbelow : depth ((inner.drop (k + 1)).take (inner.drop (k + 1)).length) <
      -((0 : Nat) : Int) := by
    have hparts := congrArg depth hinner
    rw [depth_append, depth, hdepth] at hparts
    have hweight : weight ⟨.opening, opener⟩ = 1 := rfl
    have hbefore := le_depth_take hn k
    rw [List.take_length]
    omega
  obtain ⟨inner', rest', hsplit, hlength⟩ := exists_splitAtCloser hbelow
  rw [List.length_drop] at hlength
  have hdrop : ts.drop (s + k + 1 + 1) = inner.drop (k + 1) ++ ⟨.closing, text⟩ :: rest := by
    rw [← List.drop_append_of_le_length (by omega), ← hts, List.drop_drop]
    congr 1
    omega
  have hend : sublistEnd ts ↑(s + k + 1) = .ok (s + k + 1 + 1 + inner'.length) := by
    have hsplit' := splitAtCloser_append hsplit (⟨.closing, text⟩ :: rest)
    rw [← hdrop] at hsplit'
    exact (sublistEnd_eq_ok_iff_split rfl).2 ⟨inner', _, hsplit', rfl⟩
  refine ⟨s + k + 1 + 1 + inner'.length, hend, by omega, by omega, ?_⟩
  have hstart : ((s + k + 1 : Nat) : Int) - s - 1 + 1 = (k + 1 : Nat) := by omega
  rw [hslice]
  exact (sublistEnd_eq_ok_iff_split hstart).2 ⟨inner', rest', hsplit, by omega⟩

/-- **Counting brackets finds the one that matches, in a list as in any list around it.** Behind any
place from before the first token on, the end of a list is the first token at which one more list is
closed than opened; if there is no such token, the tokens are reported as malformed. A list that is
opened inside another is closed inside it, and the count finds the same bracket in the tokens cut
out. So of two lists, the one opened later lies inside the other or behind it. -/
theorem sublistEnd_finds_matching_closer (ts : List Token) :
    (∀ start : Int, -1 ≤ start →
      (∀ i, sublistEnd ts start = .ok i ↔ IsLeast {i | ClosesOneMore ts start i} i) ∧
      ((∃ err, sublistEnd ts start = .error err ∧ err.kind = .malformed) ↔
        ¬ ∃ i, ClosesOneMore ts start i)) ∧
    ∀ s e j : Nat, sublistEnd ts s = .ok e → OpensAt ts j → s < j →
      (j < e → ∃ e', sublistEnd ts j = .ok e' ∧ j < e' ∧ e' < e ∧
        sublistEnd (ts.extract (s + 1) e) (j - s - 1) = .ok (e' - (s + 1))) ∧
      (j < e ∨ e < j) := by
  refine ⟨fun start hstart ↦ ?_, fun s e j he hj hsj ↦ ?_⟩
  · have h : start + 1 = ((start + 1).toNat : Int) := by omega
    exact ⟨fun i ↦ sublistEnd_eq_ok_iff h, exists_sublistEnd_error_iff h⟩
  · refine ⟨sublistEnd_of_opensAt he hj hsj, Nat.lt_or_gt_of_ne ?_⟩
    -- the token at the end of a list is a closing bracket
    rintro rfl
    obtain ⟨inner, text, rest, hts, rfl, -⟩ := exists_of_sublistEnd he
    obtain ⟨t, ht, hkind⟩ := hj
    rw [← List.getElem?_drop, hts, List.getElem?_append_right (Nat.le_refl _), Nat.sub_self] at ht
    cases ht
    cases hkind

/-- In `(a [b) '(c)) (d` the list at the start ends at the tenth token, whatever the families of the
brackets in it. The list in it that is opened at the seventh token is closed before that, in the
whole as in the part cut out, and the list behind it is not closed at all. -/
theorem sublistEnd_finds_matching_closer_nested :
    let ts := tokenize "(a [b) '(c)) (d"
    sublistEnd ts 0 = .ok 9 ∧ OpensAt ts 6 ∧ IsLeast {i | ClosesOneMore ts 0 i} 9 ∧
      (∃ e, sublistEnd ts 6 = .ok e ∧ 6 < e ∧ e < 9 ∧
        sublistEnd (ts.extract 1 9) 5 = .ok (e - 1)) ∧
      ¬ ∃ i, ClosesOneMore ts 10 i := by
  intro ts
  have hend : sublistEnd ts 0 = .ok 9 := by decide +kernel
  have hopens : OpensAt ts 6 := ⟨⟨.opening, "("⟩, by decide +kernel, rfl⟩
  have hopen : sublistEnd ts 10 = .error .unterminatedList := by decide +kernel
  obtain ⟨hfinds, hnests⟩ := sublistEnd_finds_matching_closer ts
  refine ⟨hend, hopens, ((hfinds 0 (by decide)).1 9).1 hend, ?_, ?_⟩
  · exact (hnests 0 9 6 hend hopens (by decide)).1 (by decide)
  · exact (hfinds 10 (by decide)).2.1 ⟨_, hopen, rfl⟩

end ReverseLisp.Token
