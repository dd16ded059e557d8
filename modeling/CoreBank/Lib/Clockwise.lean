import Mathlib.Data.List.Nodup
import Mathlib.Data.Prod.Lex

/-!
# First point clockwise

Points sit on a circle, each at a place of some linear order, and the circle is cut open before the
least place.  Going clockwise from `h` one meets the points at `h` and after it in their order, and
then, past the cut, those before `h` in theirs.  That is the lexicographic order of `rank h`, and
the first point clockwise is the least one in it.

* `search` — the binary search for the first index that meets a condition, and `search_spec`.
* `IsFirst` — the points of a list that are first clockwise, whatever the order of the list; a
  smaller list keeps its first point if it keeps any (`IsFirst.of_subset`).
* `isFirst_of_index` and `isFirst_of_wrap` — in a sorted list it is the point at the first index
  whose place is not before `h`, and the head of the list if there is none.
* `inArc_iff_isFirst` — the places from which a point is the first form the arc that ends there and
  begins after the point before.
-/

set_option autoImplicit false

namespace Clockwise

/-! ## Binary search -/

/-- The search for the first index of `[i, j)` that meets `f`, halving the interval each time. -/
def searchFrom (f : Nat → Bool) : Nat → Nat → Nat → Nat
  | 0, i, _ => i
  | fuel + 1, i, j =>
    if i < j then
      if f ((i + j) / 2) then searchFrom f fuel i ((i + j) / 2)
      else searchFrom f fuel ((i + j) / 2 + 1) j
    else i

/-- The first index below `n` that meets `f`, and `n` if there is none. -/
def search (n : Nat) (f : Nat → Bool) : Nat := searchFrom f n 0 n

/-- Once `f` is met, it is met at every later index. -/
def Rises (n : Nat) (f : Nat → Bool) : Prop := ∀ a b, a ≤ b → b < n → f a = true → f b = true

/-- `r` is where `f` begins to be met. -/
def Threshold (n : Nat) (f : Nat → Bool) (r : Nat) : Prop :=
  r ≤ n ∧ (∀ k < r, f k = false) ∧ ∀ k, r ≤ k → k < n → f k = true

theorem searchFrom_spec {n : Nat} {f : Nat → Bool} (hf : Rises n f) {fuel i j : Nat}
    (hfuel : j ≤ i + fuel) (hij : i ≤ j) (hjn : j ≤ n) (hbelow : ∀ k < i, f k = false)
    (habove : ∀ k, j ≤ k → k < n → f k = true) : Threshold n f (searchFrom f fuel i j) := by
  -- the fuel bounds the length of the interval, and everything outside of it is settled
  induction fuel generalizing i j with
  | zero =>
    have heq : i = j := by omega
    subst heq
    exact ⟨hjn, hbelow, habove⟩
  | succ fuel ih =>
    rw [searchFrom]
    split
    next hlt =>
      split
      next hmid =>
        refine ih (by omega) (by omega) (by omega) hbelow fun k hk hkn => ?_
        exact hf _ k hk hkn hmid
      next hmid =>
        refine ih (by omega) (by omega) hjn (fun k hk => ?_) habove
        by_contra hfk
        have hmeet := hf k ((i + j) / 2) (by omega) (by omega) (by simpa using hfk)
        exact hmid hmeet
    next hge =>
      have heq : i = j := by omega
      subst heq
      exact ⟨hjn, hbelow, habove⟩

theorem search_spec {n : Nat} {f : Nat → Bool} (hf : Rises n f) : Threshold n f (search n f) :=
  searchFrom_spec hf (by omega) (Nat.zero_le n) (Nat.le_refl n) (by omega) (by omega)

/-! ## The order clockwise -/

section Circle

variable {α P : Type} [LinearOrder α]

/-- Where the place `x` comes when one goes clockwise from `h`. -/
def rank (h x : α) : Bool ×ₗ α := toLex (decide (x < h), x)

theorem rank_injective (h : α) : Function.Injective (rank h) := fun _ _ heq =>
  congrArg (fun x => (ofLex x).2) heq

theorem rank_le_iff {h x y : α} :
    rank h x ≤ rank h y ↔ (h ≤ x ∧ y < h) ∨ ((x < h ↔ y < h) ∧ x ≤ y) := by
  rw [Prod.Lex.le_iff]
  by_cases hx : x < h <;> by_cases hy : y < h <;> simp [rank, hx, hy, not_le.2, not_lt.1]

/-- `p` is a first one of the points `l`, going clockwise from `h`. -/
def IsFirst (pos : P → α) (l : List P) (h : α) (p : P) : Prop :=
  p ∈ l ∧ ∀ q ∈ l, rank h (pos p) ≤ rank h (pos q)

variable {pos : P → α} {l l' : List P} {h : α} {p q : P}

theorem IsFirst.pos_eq (hp : IsFirst pos l h p) (hq : IsFirst pos l h q) : pos p = pos q :=
  rank_injective h (le_antisymm (hp.2 q hq.1) (hq.2 p hp.1))

/-- A first point is a first point of every part of the list that it belongs to. -/
theorem IsFirst.of_subset (hp : IsFirst pos l' h p) (hsub : l ⊆ l') (hmem : p ∈ l) :
    IsFirst pos l h p :=
  ⟨hmem, fun q hq => hp.2 q (hsub hq)⟩

theorem IsFirst.perm (hp : IsFirst pos l h p) (hperm : l.Perm l') : IsFirst pos l' h p :=
  hp.of_subset hperm.symm.subset (hperm.subset hp.1)

/-! ## In a sorted list -/

theorem rel_of_getElem? {R : P → P → Prop} (hR : l.Pairwise R) {i j : Nat} (hij : i < j)
    (hp : l[i]? = some p) (hq : l[j]? = some q) : R p q := by
  obtain ⟨hi, rfl⟩ := List.getElem?_eq_some_iff.1 hp
  obtain ⟨hj, rfl⟩ := List.getElem?_eq_some_iff.1 hq
  exact List.pairwise_iff_getElem.1 hR i j hi hj hij

variable (hs : l.Pairwise fun p q => pos p ≤ pos q)

include hs

theorem le_of_getElem? {i j : Nat} (hij : i ≤ j) (hp : l[i]? = some p) (hq : l[j]? = some q) :
    pos p ≤ pos q := by
  rcases Nat.eq_or_lt_of_le hij with rfl | hlt
  · cases hp.symm.trans hq
    exact le_rfl
  · exact rel_of_getElem? (R := fun p q => pos p ≤ pos q) hs hlt hp hq

theorem isFirst_of_index {i : Nat} (hp : l[i]? = some p) (hle : h ≤ pos p)
    (hbelow : ∀ j < i, ∀ q, l[j]? = some q → pos q < h) : IsFirst pos l h p := by
  refine ⟨List.mem_of_getElem? hp, fun q hq => rank_le_iff.2 ?_⟩
  obtain ⟨j, hq⟩ := List.mem_iff_getElem?.1 hq
  rcases Nat.lt_or_ge j i with hj | hj
  · exact .inl ⟨hle, hbelow j hj q hq⟩
  · have hpq := le_of_getElem? hs hj hp hq
    exact .inr ⟨iff_of_false hle.not_gt (hle.trans hpq).not_gt, hpq⟩

theorem isFirst_of_wrap (hp : l[0]? = some p) (hbelow : ∀ q ∈ l, pos q < h) :
    IsFirst pos l h p := by
  have hmem := List.mem_of_getElem? hp
  refine ⟨hmem, fun q hq => rank_le_iff.2 (.inr ⟨iff_of_true (hbelow p hmem) (hbelow q hq), ?_⟩)⟩
  obtain ⟨j, hq⟩ := List.mem_iff_getElem?.1 hq
  exact le_of_getElem? hs (Nat.zero_le j) hp hq

/-! ## Arcs -/

/-- `h` lies on the arc that begins after `start` and ends at `stop`, clockwise.  An arc that comes
back to where it began is the whole circle. -/
def InArc (start stop h : α) : Prop :=
  if start < stop then start < h ∧ h ≤ stop else start < h ∨ h ≤ stop

instance (start stop h : α) : Decidable (InArc start stop h) := by
  unfold InArc
  infer_instance

/-- The index of the point before the one at index `i`. -/
def before (n i : Nat) : Nat := if i = 0 then n - 1 else i - 1

/-- The arc past the cut, from the last point of a sorted list to its head. -/
theorem inArc_iff_isFirst_of_wrap (hp : l[0]? = some p) (hq : l[l.length - 1]? = some q) :
    InArc (pos q) (pos p) h ↔ IsFirst pos l h p := by
  have hle := le_of_getElem? hs (Nat.zero_le _) hp hq
  rw [InArc, if_neg hle.not_gt]
  constructor
  · rintro (hlt | hge)
    · refine isFirst_of_wrap hs hp fun x hx => ?_
      obtain ⟨j, hj⟩ := List.mem_iff_getElem?.1 hx
      have hjl := (List.getElem?_eq_some_iff.1 hj).1
      exact (le_of_getElem? hs (by omega) hj hq).trans_lt hlt
    · exact isFirst_of_index hs hp hge (fun j hj => absurd hj (Nat.not_lt_zero j))
  · intro hfirst
    rcases rank_le_iff.1 (hfirst.2 q (List.mem_of_getElem? hq)) with ⟨hge, -⟩ | ⟨hiff, -⟩
    · exact .inr hge
    · rcases lt_or_ge (pos p) h with hlt | hge
      · exact .inl (hiff.1 hlt)
      · exact .inr hge

/-- The arc up to a point is where one starts from to meet that point first. -/
theorem inArc_iff_isFirst (hn : (l.map pos).Nodup) {i : Nat} (hp : l[i]? = some p)
    (hq : l[before l.length i]? = some q) :
    InArc (pos q) (pos p) h ↔ IsFirst pos l h p := by
  rw [before] at hq
  split at hq
  next hi =>
    subst hi
    exact inArc_iff_isFirst_of_wrap hs hp hq
  next hi =>
    have hne := rel_of_getElem? (List.pairwise_map.1 hn) (by omega) hq hp
    have hlt := lt_of_le_of_ne (le_of_getElem? hs (Nat.sub_le i 1) hq hp) hne
    rw [InArc, if_pos hlt]
    constructor
    · rintro ⟨hlow, hhigh⟩
      refine isFirst_of_index hs hp hhigh fun j hj x hx => ?_
      exact (le_of_getElem? hs (by omega) hx hq).trans_lt hlow
    · intro hfirst
      rcases rank_le_iff.1 (hfirst.2 q (List.mem_of_getElem? hq)) with ⟨hge, hlow⟩ | ⟨-, hle⟩
      · exact ⟨hlow, hge⟩
      · exact absurd hle hlt.not_ge

end Circle

end Clockwise
