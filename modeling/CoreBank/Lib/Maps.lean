import Mathlib.Data.List.AList
import Mathlib.Data.List.Sort

/-!
# Maps as lists of bindings

An `AList` keeps its bindings in some order, which a map does not have.  Two of them are the same
map when one list of bindings is a rearrangement of the other; Mathlib's `AList.perm_lookup`,
`AList.perm_insert` and `AList.perm_erase` say that the operations do not see the difference.  Here
a map is related to the list it is written down as, and a binding is taken out of a sum.
-/

set_option autoImplicit false

namespace Maps

open List

variable {K V : Type}

/-! ## In order -/

/-- The bindings in the order of their keys. -/
def sorted [LE K] [DecidableLE K] (m : AList fun _ : K => V) : List (Σ _ : K, V) :=
  m.entries.insertionSort fun a b => a.1 ≤ b.1

theorem sorted_perm [LE K] [DecidableLE K] (m : AList fun _ : K => V) : sorted m ~ m.entries :=
  perm_insertionSort _ _

theorem length_eq_of_keys {V' : Type} {m : AList fun _ : K => V} {m' : AList fun _ : K => V'}
    (h : ∀ k, k ∈ m ↔ k ∈ m') : m.entries.length = m'.entries.length := by
  have hp : m.keys ~ m'.keys := (perm_ext_iff_of_nodup m.keys_nodup m'.keys_nodup).2 h
  have hl := hp.length_eq
  rwa [AList.keys, AList.keys, List.keys, List.keys, length_map, length_map] at hl

/-! ## One binding after the other -/

variable [DecidableEq K]

/-- The map of a list of bindings, put in one after the other. -/
def ofBindings (l : List (Σ _ : K, V)) : AList fun _ : K => V :=
  l.foldl (fun m b => m.insert b.1 b.2) ∅

theorem entries_foldl_insert {l : List (Σ _ : K, V)} (hl : l.NodupKeys) :
    ∀ m : AList fun _ : K => V, (∀ b ∈ l, b.1 ∉ m) →
      (l.foldl (fun m b => m.insert b.1 b.2) m).entries ~ l ++ m.entries := by
  induction l with
  | nil => exact fun m _ => Perm.refl _
  | cons b l ih =>
    intro m hm
    rw [nodupKeys_cons] at hl
    have hb : b.1 ∉ m := hm b mem_cons_self
    have hrest := ih hl.2 (m.insert b.1 b.2) fun c hc => by
      rw [AList.mem_insert, not_or]
      exact ⟨fun e => hl.1 (e ▸ mem_keys_of_mem hc), hm c (mem_cons_of_mem b hc)⟩
    rw [foldl_cons]
    refine hrest.trans ?_
    rw [AList.entries_insert_of_notMem hb]
    exact perm_middle

theorem entries_ofBindings {l : List (Σ _ : K, V)} (hl : l.NodupKeys) :
    (ofBindings l).entries ~ l := by
  have h := entries_foldl_insert hl ∅ fun b _ => AList.notMem_empty b.1
  rwa [AList.empty_entries, append_nil] at h

/-- Writing the bindings down in order and putting them in again gives the same map. -/
theorem ofBindings_sorted [LE K] [DecidableLE K] (m : AList fun _ : K => V) :
    (ofBindings (sorted m)).entries ~ m.entries :=
  (entries_ofBindings ((perm_nodupKeys (sorted_perm m)).2 m.nodupKeys)).trans (sorted_perm m)

theorem entries_perm_cons_erase {m : AList fun _ : K => V} {k : K} {v : V}
    (h : m.lookup k = some v) : m.entries ~ ⟨k, v⟩ :: (m.erase k).entries := by
  have hk : k ∈ m.entries.keys := AList.lookup_isSome.1 (h ▸ rfl)
  obtain ⟨w, l₁, l₂, -, hm, herase⟩ := exists_of_kerase hk
  have hw : m.lookup k = some w := AList.mem_lookup_iff.2 (hm ▸ by simp)
  obtain rfl : v = w := Option.some.inj (h.symm.trans hw)
  have he : (m.erase k).entries = l₁ ++ l₂ := herase
  rw [he, hm]
  exact perm_middle

theorem lookup_of_lookup_erase {m : AList fun _ : K => V} {k k' : K} {v : V}
    (h : (m.erase k).lookup k' = some v) : m.lookup k' = some v := by
  by_cases hk : k' = k
  · subst hk
    rw [AList.lookup_erase] at h
    cases h
  · rwa [AList.lookup_erase_ne hk] at h

end Maps
