import Mathlib.Algebra.BigOperators.Group.Finset.Piecewise
import Mathlib.Data.List.AList
import CoreBank.Lib.Words

/-!
# Sums of integers over lists, maps and pairs
-/

set_option autoImplicit false

namespace Sums

open Words

theorem total_flatMap {α : Type*} (l : List α) (f : α → List Int64) :
    total (l.flatMap f) = (l.map fun a => total (f a)).sum := by
  induction l with
  | nil => rfl
  | cons a l ih => rw [List.flatMap_cons, total_append, ih, List.map_cons, List.sum_cons]

/-- The values of a map, added up by their keys. -/
theorem sum_entries {K V : Type*} [DecidableEq K] (m : AList fun _ : K => V) {f : V → Int}
    {g : K → Int} (h : ∀ k v, m.lookup k = some v → f v = g k) :
    (m.entries.map fun e => f e.2).sum = ∑ k ∈ m.keys.toFinset, g k := by
  rw [List.sum_toFinset g m.keys_nodup, AList.keys, List.keys, List.map_map]
  exact congrArg List.sum
    (List.map_congr_left fun e he => h e.1 e.2 (AList.mem_lookup_iff.2 he))

/-- Terms that come in pairs which cancel add up to nothing. -/
theorem sum_eq_zero_of_paired {ι : Type*} {s : Finset ι} {f : ι → Int} (R : ι → ι → Prop)
    (hsymm : ∀ a b, R a b → R b a) (hpair : ∀ a ∈ s, ∃ b ∈ s, R a b)
    (hone : ∀ a, ∀ b ∈ s, ∀ c ∈ s, R a b → R a c → b = c)
    (hzero : ∀ a ∈ s, ∀ b ∈ s, R a b → f a + f b = 0) : ∑ a ∈ s, f a = 0 := by
  choose! p hmem hrel using hpair
  have hcancel (a : ι) (ha : a ∈ s) := hzero a ha (p a) (hmem a ha) (hrel a ha)
  refine Finset.sum_involution (fun a _ => p a) hcancel (fun a ha hne heq => hne ?_) hmem
    fun a ha => ?_
  · have h := hcancel a ha
    rw [heq] at h
    omega
  · have hp := hmem a ha
    exact hone (p a) _ (hmem _ hp) a ha (hrel _ hp) (hsymm _ _ (hrel a ha))

end Sums
