import Mathlib.Data.List.Nodup
import Mathlib.Data.List.Perm.Subperm
import Mathlib.Data.Set.Basic

/-!
# Majorities of a membership list

A membership is a list of members, and a set is a *majority* of it when it contains more than half
of them, counted without repetition.  Two majorities of one duplicate-free membership have a member
in common; so do a majority of a membership and a majority of the membership with one member added
or removed.
-/

set_option autoImplicit false

namespace Majority

variable {α : Type}

/-- `Q` contains more than half of the members listed in `C`. -/
def IsMajority (C : List α) (Q : Set α) : Prop :=
  ∃ V : List α, V.Nodup ∧ (∀ v ∈ V, v ∈ C ∧ v ∈ Q) ∧ C.length / 2 + 1 ≤ V.length

/-- Every majority of `C` has a member in common with every majority of `D`. -/
def Meets (C D : List α) : Prop :=
  ∀ P Q : Set α, IsMajority C P → IsMajority D Q → ∃ x, x ∈ P ∧ x ∈ Q

theorem Meets.symm {C D : List α} (h : Meets C D) : Meets D C := by
  intro P Q hP hQ
  obtain ⟨x, hx, hx'⟩ := h Q P hQ hP
  exact ⟨x, hx', hx⟩

theorem IsMajority.mono {C : List α} {P Q : Set α} (h : IsMajority C P) (hPQ : ∀ x ∈ P, x ∈ Q) :
    IsMajority C Q := by
  obtain ⟨V, hnd, hmem, hlen⟩ := h
  exact ⟨V, hnd, fun v hv => ⟨(hmem v hv).1, hPQ v (hmem v hv).2⟩, hlen⟩

/-- Two duplicate-free selections from `D` that together are longer than `D` share a member. -/
theorem exists_common_of_length {D V W : List α} (hV : V.Nodup) (hW : W.Nodup)
    (hVD : ∀ v ∈ V, v ∈ D) (hWD : ∀ v ∈ W, v ∈ D) (hlen : D.length < V.length + W.length) :
    ∃ x, x ∈ V ∧ x ∈ W := by
  by_contra hno
  push Not at hno
  have hnd : (V ++ W).Nodup :=
    List.nodup_append.2 ⟨hV, hW, fun a ha b hb hab => hno a ha (hab ▸ hb)⟩
  have hsub : (V ++ W) ⊆ D := by
    intro x hx
    rcases List.mem_append.1 hx with h | h
    · exact hVD x h
    · exact hWD x h
  have hle := (List.subperm_of_subset hnd hsub).length_le
  rw [List.length_append] at hle
  omega

/-- Majorities of `C` and of `D` meet as soon as `C` is contained in `D` and `D` has at most one
member more. -/
theorem meets_of_subset {C D : List α} (hsub : ∀ x ∈ C, x ∈ D)
    (hlen : D.length ≤ C.length + 1) : Meets C D := by
  rintro P Q ⟨V, hV, hVm, hVl⟩ ⟨W, hW, hWm, hWl⟩
  obtain ⟨x, hx, hx'⟩ := exists_common_of_length hV hW
    (fun v hv => hsub v (hVm v hv).1) (fun v hv => (hWm v hv).1) (by omega)
  exact ⟨x, (hVm x hx).2, (hWm x hx').2⟩

/-- Containment with one member more is one member more, if nobody is listed twice. -/
theorem subset_length_succ_iff {C D : List α} (hC : C.Nodup) (hD : D.Nodup) :
    (∀ x ∈ C, x ∈ D) ∧ D.length = C.length + 1 ↔
      ∃ y, y ∉ C ∧ ∀ x, x ∈ D ↔ x ∈ C ∨ x = y := by
  have hcons (y : α) (hy : y ∉ C) : (∀ x, x ∈ D ↔ x ∈ C ∨ x = y) ↔ D.Perm (y :: C) := by
    simp [List.perm_ext_iff_of_nodup hD (List.nodup_cons.2 ⟨hy, hC⟩), or_comm]
  constructor
  · rintro ⟨hsub, hlen⟩
    obtain ⟨y, hy⟩ := (List.subperm_of_subset hC hsub).exists_of_length_lt (by omega)
    have hperm : (y :: C).Perm D := hy.perm_of_length_le (by rw [List.length_cons]; omega)
    have hyC : y ∉ C := (List.nodup_cons.1 (hperm.nodup_iff.2 hD)).1
    exact ⟨y, hyC, (hcons y hyC).2 hperm.symm⟩
  · rintro ⟨y, hyC, hmem⟩
    refine ⟨fun x hx => (hmem x).2 (.inl hx), ?_⟩
    rw [((hcons y hyC).1 hmem).length_eq, List.length_cons]

theorem meets_self (C : List α) : Meets C C :=
  meets_of_subset (fun _ h => h) (by omega)

end Majority
