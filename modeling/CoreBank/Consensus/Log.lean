import Mathlib.Data.List.Induction
import Mathlib.Data.List.Infix
import CoreBank.Lib.Majority

/-!
# Replicated logs and the configurations they carry

A log is a list of entries, each stamped with the term of the leader that created it.  Entries are
counted from one, so the entry at index `i` ends the prefix of length `i`, and "holding the same
entries through index `i`" is having that prefix in common.

Some payloads are *configurations*: they name the members whose votes and acknowledgements count
from that entry on.  `conf confOf C₀ L` is the configuration in force at the end of `L` when the
members were `C₀` at the start.

## What is here

* `Entry`, `lastTerm`, `UpToDate` — entries and the comparison of logs that a vote is subject to;
* `conf`, with `conf_append_free` and `exists_last_conf` — the configuration in force is that of the
  last configuration entry, or the initial one.
-/

set_option autoImplicit false

namespace Consensus

variable {N P : Type}

/-- A log entry: a payload and the term of the leader that created the entry. -/
structure Entry (P : Type) where
  term : Nat
  payload : P
  deriving DecidableEq, Repr

/-- The term of the last entry, and zero for the empty log. -/
def lastTerm (L : List (Entry P)) : Nat := (L.getLast?.map Entry.term).getD 0

@[simp] theorem lastTerm_nil : lastTerm ([] : List (Entry P)) = 0 := rfl

@[simp] theorem lastTerm_concat (X : List (Entry P)) (e : Entry P) :
    lastTerm (X ++ [e]) = e.term := by
  simp [lastTerm]

/-- `A` is at least as up to date as `L`: its last entry has a later term, or the same term and
`A` is at least as long. -/
def UpToDate (A L : List (Entry P)) : Prop :=
  lastTerm L < lastTerm A ∨ (lastTerm L = lastTerm A ∧ L.length ≤ A.length)

theorem UpToDate.refl (A : List (Entry P)) : UpToDate A A := Or.inr ⟨rfl, le_rfl⟩

theorem UpToDate.lastTerm_le {A L : List (Entry P)} (h : UpToDate A L) :
    lastTerm L ≤ lastTerm A := by
  rcases h with h | h
  · exact h.le
  · exact h.1.le

theorem eq_nil_or_concat (L : List (Entry P)) : L = [] ∨ ∃ X e, L = X ++ [e] := by
  rcases List.eq_nil_or_concat L with h | ⟨X, e, h⟩
  · exact Or.inl h
  · exact Or.inr ⟨X, e, by simpa using h⟩

theorem exists_entry_at {L : List (Entry P)} {i : Nat} (h0 : 0 < i) (hi : i ≤ L.length) :
    ∃ X e, X ++ [e] <+: L ∧ X.length + 1 = i ∧ L.take i = X ++ [e] := by
  obtain ⟨k, rfl⟩ : ∃ k, i = k + 1 := ⟨i - 1, by omega⟩
  refine ⟨L.take k, L[k], ?_, by simp; omega, ?_⟩
  · rw [List.take_append_getElem]
    exact List.take_prefix _ _
  · rw [List.take_append_getElem]

theorem take_prefix_of_isPrefix {L X : List (Entry P)} {i : Nat} (hX : X <+: L)
    (hi : i ≤ X.length) : L.take i <+: X :=
  List.prefix_of_prefix_length_le (List.take_prefix _ _) hX (by simp; omega)

theorem take_eq_of_isPrefix {L L' : List (Entry P)} {i : Nat} (h : L <+: L') (hi : i ≤ L.length) :
    L'.take i = L.take i := by
  obtain ⟨Y, rfl⟩ := h
  exact List.take_append_of_le_length hi

theorem take_of_isPrefix {α : Type} {X L : List α} {i : Nat} (h : X <+: L) (hi : X.length = i) :
    i ≤ L.length ∧ L.take i = X := by
  subst hi
  exact ⟨h.length_le, (List.prefix_iff_eq_take.1 h).symm⟩

/-! ## The configuration in force -/

section Conf

variable (confOf : P → Option (List N)) (C₀ : List N)

/-- The entry carries no configuration. -/
def Free (e : Entry P) : Prop := confOf e.payload = none

/-- The configuration in force at the end of a log. -/
def conf (L : List (Entry P)) : List N :=
  L.foldl (fun C e => (confOf e.payload).getD C) C₀

variable {confOf} {C₀}

@[simp] theorem conf_nil : conf confOf C₀ [] = C₀ := rfl

theorem conf_concat (X : List (Entry P)) (e : Entry P) :
    conf confOf C₀ (X ++ [e]) = (confOf e.payload).getD (conf confOf C₀ X) := by
  simp [conf, List.foldl_append]

theorem conf_append_free {X Y : List (Entry P)} (hY : ∀ e ∈ Y, Free confOf e) :
    conf confOf C₀ (X ++ Y) = conf confOf C₀ X := by
  induction Y using List.reverseRecOn with
  | nil => simp
  | append_singleton Y e ih =>
    have he : confOf e.payload = none := hY e (by simp)
    rw [← List.append_assoc, conf_concat, he]
    exact ih fun f hf => hY f (by simp [hf])

theorem conf_of_free {L : List (Entry P)} (hL : ∀ e ∈ L, Free confOf e) :
    conf confOf C₀ L = C₀ := by
  rw [← List.nil_append L, conf_append_free hL, conf_nil]

theorem conf_append_conf {X Y : List (Entry P)} {e : Entry P} {C : List N}
    (he : confOf e.payload = some C) (hY : ∀ e ∈ Y, Free confOf e) :
    conf confOf C₀ (X ++ [e] ++ Y) = C := by
  rw [conf_append_free hY, conf_concat, he]
  rfl

theorem exists_last_conf (confOf : P → Option (List N)) (L : List (Entry P)) :
    (∀ e ∈ L, Free confOf e) ∨
      ∃ X e Y C, L = X ++ [e] ++ Y ∧ confOf e.payload = some C ∧ ∀ f ∈ Y, Free confOf f := by
  induction L using List.reverseRecOn with
  | nil => exact Or.inl (by simp)
  | append_singleton L a ih =>
    cases ha : confOf a.payload with
    | some C => exact Or.inr ⟨L, a, [], C, by simp, ha, by simp⟩
    | none =>
      rcases ih with hfree | ⟨X, e, Y, C, rfl, he, hY⟩
      · refine Or.inl fun f hf => ?_
        rcases List.mem_append.1 hf with h | h
        · exact hfree f h
        · rw [List.mem_singleton.1 h]; exact ha
      · refine Or.inr ⟨X, e, Y ++ [a], C, by simp, he, fun f hf => ?_⟩
        rcases List.mem_append.1 hf with h | h
        · exact hY f h
        · rw [List.mem_singleton.1 h]; exact ha

end Conf

end Consensus
