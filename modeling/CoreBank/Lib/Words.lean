import Mathlib.Algebra.BigOperators.Group.List.Basic
import Mathlib.Algebra.Order.BigOperators.Group.List
import Mathlib.Algebra.Ring.Int.Defs
import Mathlib.Data.Int.Basic

/-!
# Machine integers that do not wrap

The arithmetic of `Int64` is that of the integers modulo `2 ^ 64`.  Where a result is known to lie
in the range, it is the integer result; sums of lists are compared with the integer sum `total`.
-/

set_option autoImplicit false

namespace Words

theorem toInt_add_of_fits {a b : Int64} (hl : -2 ^ 63 ≤ a.toInt + b.toInt)
    (hu : a.toInt + b.toInt < 2 ^ 63) : (a + b).toInt = a.toInt + b.toInt := by
  rw [Int64.toInt_add]
  exact Int.bmod_eq_of_le (by omega) (by omega)

theorem toInt_sub_of_fits {a b : Int64} (hl : -2 ^ 63 ≤ a.toInt - b.toInt)
    (hu : a.toInt - b.toInt < 2 ^ 63) : (a - b).toInt = a.toInt - b.toInt := by
  rw [Int64.toInt_sub]
  exact Int.bmod_eq_of_le (by omega) (by omega)

theorem toInt_neg_of_nonneg {a : Int64} (h : 0 ≤ a.toInt) : (-a).toInt = -a.toInt := by
  have hu := a.toInt_lt
  rw [Int64.toInt_neg]
  exact Int.bmod_eq_of_le (by omega) (by omega)

/-- The sum in the integers. -/
def total (l : List Int64) : Int := (l.map Int64.toInt).sum

@[simp] theorem total_nil : total [] = 0 := rfl

@[simp] theorem total_cons (a : Int64) (l : List Int64) : total (a :: l) = a.toInt + total l := by
  rw [total, total, List.map_cons, List.sum_cons]

@[simp] theorem total_append (l l' : List Int64) : total (l ++ l') = total l + total l' := by
  rw [total, total, total, List.map_append, List.sum_append]

theorem total_perm {l l' : List Int64} (h : l.Perm l') : total l = total l' :=
  (h.map Int64.toInt).sum_eq

theorem total_nonneg {l : List Int64} (h : ∀ a ∈ l, 0 ≤ a.toInt) : 0 ≤ total l := by
  refine List.sum_nonneg fun x hx => ?_
  obtain ⟨a, ha, rfl⟩ := List.mem_map.1 hx
  exact h a ha

/-- Part of a list of amounts that are not negative adds up to no more than the whole. -/
theorem total_le_of_subperm {l l' : List Int64} (hs : l.Subperm l') (h : ∀ a ∈ l', 0 ≤ a.toInt) :
    total l ≤ total l' := by
  obtain ⟨part, hpart, hsub⟩ := hs
  obtain ⟨rest, hp⟩ := hsub.exists_perm_append
  have hrest : 0 ≤ total rest :=
    total_nonneg fun a ha => h a (hp.mem_iff.2 (List.mem_append_right part ha))
  rw [total_perm hp, total_append, total_perm hpart]
  omega

theorem toInt_sum (l : List Int64) : l.sum.toInt = (total l).bmod (2 ^ 64) := by
  induction l with
  | nil => rfl
  | cons a l ih => rw [List.sum_cons, Int64.toInt_add, ih, total_cons, Int.add_bmod_bmod]

theorem toInt_sum_of_fits {l : List Int64} (hl : -2 ^ 63 ≤ total l) (hu : total l < 2 ^ 63) :
    l.sum.toInt = total l := by
  rw [toInt_sum]
  exact Int.bmod_eq_of_le (by omega) (by omega)

theorem sum_perm {l l' : List Int64} (h : l.Perm l') : l.sum = l'.sum := by
  rw [← Int64.toInt_inj, toInt_sum, toInt_sum, total_perm h]

end Words
