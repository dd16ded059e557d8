import Mathlib.Data.Finset.Card
import CoreBank.Lib.Majority
import CoreBank.Raft.Types

/-!
# Changes of one server

`differsByOne` compares lengths and looks the servers of the shorter list up in the longer one.
Between configurations that list nobody twice this says that one of them has the servers of the
other and one more (`differsByOne_iff_adds`), which is what `withServer` and `withoutServer` make of
a configuration when they change it.  Majorities of two such configurations have a server in common.
-/

set_option autoImplicit false

namespace CoreBank.Raft
namespace Configuration

open Majority

/-- The number of servers that make a majority. -/
def majority (c : Configuration) : Nat := c.servers.length / 2 + 1

variable {c d : Configuration} {id : NodeID}

theorem contains_iff : c.contains id = true ↔ id ∈ c.servers :=
  List.contains_iff_mem

theorem differsByOne_iff :
    c.differsByOne d = true ↔
      ((∀ x ∈ c.servers, x ∈ d.servers) ∧ d.servers.length = c.servers.length + 1) ∨
        (∀ x ∈ d.servers, x ∈ c.servers) ∧ c.servers.length = d.servers.length + 1 := by
  rw [differsByOne]
  split
  next hlen =>
    simp only [List.all_eq_true, contains_iff]
    exact ⟨fun h => .inl ⟨h, hlen⟩, fun h => h.elim (·.1) fun h => by omega⟩
  next hlen =>
    split
    next hlen' =>
      simp only [List.all_eq_true, contains_iff]
      exact ⟨fun h => .inr ⟨h, hlen'⟩, fun h => h.elim (fun h => absurd h.2 hlen) (·.1)⟩
    next hlen' =>
      exact ⟨fun h => Bool.noConfusion h,
        fun h => h.elim (fun h => absurd h.2 hlen) fun h => absurd h.2 hlen'⟩

/-- The servers of `d` are those of `c` and one more. -/
def Adds (c d : Configuration) : Prop :=
  ∃ id, id ∉ c.servers ∧ ∀ x, x ∈ d.servers ↔ x ∈ c.servers ∨ x = id

theorem differsByOne_iff_adds (hc : c.servers.Nodup) (hd : d.servers.Nodup) :
    c.differsByOne d = true ↔ c.Adds d ∨ d.Adds c := by
  rw [differsByOne_iff, subset_length_succ_iff hc hd, subset_length_succ_iff hd hc]
  rfl

/-! ## Majorities -/

theorem meets_of_differsByOne (h : c.differsByOne d = true) :
    Meets c.servers d.servers := by
  rcases differsByOne_iff.1 h with ⟨hsub, hlen⟩ | ⟨hsub, hlen⟩
  · exact meets_of_subset hsub hlen.le
  · exact (meets_of_subset hsub hlen.le).symm

theorem isMajority_of_card {A : Finset NodeID} (hA : ∀ x ∈ A, x ∈ c.servers)
    (hcard : c.majority ≤ A.card) : IsMajority c.servers (fun x => x ∈ A) := by
  refine ⟨A.toList, A.nodup_toList, fun x hx => ?_, ?_⟩
  · have hxA : x ∈ A := Finset.mem_toList.1 hx
    exact ⟨hA x hxA, hxA⟩
  · rw [Finset.length_toList]
    exact hcard

/-! ## Adding and removing -/

theorem perm_withServer (hid : id ∉ c.servers) :
    (c.withServer id).servers.Perm (id :: c.servers) := by
  rw [withServer, if_neg fun h => hid (contains_iff.1 h)]
  exact (List.perm_insertionSort _ _).trans (List.perm_append_singleton id c.servers)

theorem withServer_of_mem (hid : id ∈ c.servers) :
    c.withServer id = c :=
  if_pos (contains_iff.2 hid)

theorem mem_withServer {x : NodeID} :
    x ∈ (c.withServer id).servers ↔ x ∈ c.servers ∨ x = id := by
  by_cases hid : id ∈ c.servers
  · rw [withServer_of_mem hid]
    exact (or_iff_left_of_imp fun hx => hx ▸ hid).symm
  · rw [(perm_withServer hid).mem_iff, List.mem_cons, or_comm]

theorem nodup_withServer (hc : c.servers.Nodup) (id : NodeID) :
    (c.withServer id).servers.Nodup := by
  by_cases hid : id ∈ c.servers
  · rw [withServer_of_mem hid]
    exact hc
  · exact (perm_withServer hid).nodup_iff.2 (List.nodup_cons.2 ⟨hid, hc⟩)

theorem mem_withoutServer {x : NodeID} :
    x ∈ (c.withoutServer id).servers ↔ x ∈ c.servers ∧ x ≠ id := by
  simp [withoutServer]

theorem withoutServer_of_notMem (hid : id ∉ c.servers) :
    c.withoutServer id = c := by
  have hall : ∀ x ∈ c.servers, decide (x ≠ id) = true :=
    fun x hx => decide_eq_true fun h => hid (h ▸ hx)
  rw [withoutServer, List.filter_eq_self.2 hall]

theorem nodup_withoutServer (hc : c.servers.Nodup) (id : NodeID) :
    (c.withoutServer id).servers.Nodup :=
  hc.filter _

theorem adds_withServer (hid : id ∉ c.servers) :
    c.Adds (c.withServer id) :=
  ⟨id, hid, fun _ => mem_withServer⟩

theorem adds_withoutServer (hid : id ∈ c.servers) :
    (c.withoutServer id).Adds c := by
  refine ⟨id, fun h => (mem_withoutServer.1 h).2 rfl, fun x => ?_⟩
  rw [mem_withoutServer]
  constructor
  · intro hx
    by_cases hxid : x = id
    · exact .inr hxid
    · exact .inl ⟨hx, hxid⟩
  · rintro (⟨hx, -⟩ | rfl)
    · exact hx
    · exact hid

/-- **A change of one server keeps majorities overlapping.**  Whatever `differsByOne` accepts has
its majorities meet those of the configuration before, and `withServer` and `withoutServer` yield
nothing that it would refuse, if they change anything. -/
theorem changes_overlap :
    (∀ c d : Configuration, c.servers.Nodup → d.servers.Nodup → c.differsByOne d = true →
      ∀ A B : Finset NodeID, (∀ x ∈ A, x ∈ c.servers) → c.majority ≤ A.card →
        (∀ x ∈ B, x ∈ d.servers) → d.majority ≤ B.card → ∃ x, x ∈ A ∧ x ∈ B) ∧
    ∀ (c : Configuration) (id : NodeID), c.servers.Nodup →
      ((c.withServer id).servers.Nodup ∧
        (∀ x, x ∈ (c.withServer id).servers ↔ x ∈ c.servers ∨ x = id) ∧
        (c.withServer id ≠ c → c.differsByOne (c.withServer id) = true)) ∧
      (c.withoutServer id).servers.Nodup ∧
        (∀ x, x ∈ (c.withoutServer id).servers ↔ x ∈ c.servers ∧ x ≠ id) ∧
        (c.withoutServer id ≠ c → c.differsByOne (c.withoutServer id) = true) := by
  refine ⟨fun c d _ _ hone A B hA hcA hB hdB => ?_, fun c id hc => ⟨?_, ?_⟩⟩
  · exact meets_of_differsByOne hone _ _ (isMajority_of_card hA hcA) (isMajority_of_card hB hdB)
  · have hnodup := nodup_withServer hc id
    refine ⟨hnodup, fun x => mem_withServer, fun hne => ?_⟩
    have hid : id ∉ c.servers := fun h => hne (withServer_of_mem h)
    exact (differsByOne_iff_adds hc hnodup).2 (.inl (adds_withServer hid))
  · have hnodup := nodup_withoutServer hc id
    refine ⟨hnodup, fun x => mem_withoutServer, fun hne => ?_⟩
    have hid : id ∈ c.servers := by
      by_contra h
      exact hne (withoutServer_of_notMem h)
    exact (differsByOne_iff_adds hc hnodup).2 (.inr (adds_withoutServer hid))

/-- Two servers of three, and three of the four there are after an addition. -/
theorem changes_overlap_fourth :
    (withServer ⟨[[1], [2], [3]]⟩ [4]).servers.length = 4 ∧
      ∃ x, x ∈ ({[1], [2]} : Finset NodeID) ∧ x ∈ ({[2], [3], [4]} : Finset NodeID) := by
  have hnd : Configuration.servers ⟨[[1], [2], [3]]⟩ |>.Nodup := by decide
  obtain ⟨hnd', -, hone⟩ := (changes_overlap.2 ⟨[[1], [2], [3]]⟩ [4] hnd).1
  exact ⟨by decide, changes_overlap.1 _ _ hnd hnd' (hone (by decide)) _ _ (by decide) (by decide)
    (by decide) (by decide)⟩

end Configuration
end CoreBank.Raft
