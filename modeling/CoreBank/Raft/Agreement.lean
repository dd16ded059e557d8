import CoreBank.Raft.Membership

/-!
# What two moments of a run have in common

While the membership changes, logs are compacted and servers crash, what the servers hold at two
moments of a run is related by the history between them: logs match, commits agree, and a leader's
log only grows.
-/

set_option autoImplicit false

namespace CoreBank.Raft

open ActionSystem Consensus

variable {σ : Type} {cl : Cluster σ} {C₀ : List NodeID} {w₁ w₂ : World σ} {as₁ as₂ : List Action}
  {i j : NodeID} {s₁ s₂ : Server σ}

theorem exists_histories (h₁ : Run (OrderedStep cl C₀) {} as₁ w₁)
    (h₂ : Run (OrderedStep cl C₀) w₁ as₂ w₂) :
    ∃ g₁ g₂, Refines configOf C₀ w₁ g₁ ∧ Refines configOf C₀ w₂ g₂ ∧ Extends g₁ g₂ := by
  have hnil : configOf [] = none := rfl
  obtain ⟨g₁, -, hR₁⟩ := refines_of_run hnil h₁ refines_empty
  obtain ⟨g₂, hx, hR₂⟩ := refines_of_run hnil h₂ hR₁
  exact ⟨g₁, g₂, hR₁, hR₂, hx⟩

/-! ## A schedule -/

/-- Two moments of `replacement`: server 1 has committed its no-op, and it has replaced server 2 by
server 3. -/
def Replaced (w₁ w₂ : World Bytes) : Prop :=
  Run (OrderedStep (journalCluster [[1], [2]]) [[1], [2]]) {} (replacement.take 13) w₁ ∧
    Run (OrderedStep (journalCluster [[1], [2]]) [[1], [2]]) w₁ ((replacement.drop 13).take 22) w₂

set_option synthInstance.maxSize 1000 in
theorem exists_replaced : ∃ w₁ w₂ s₁ s₂ s₃, Replaced w₁ w₂ ∧
    w₁.server [1] = some s₁ ∧ w₂.server [1] = some s₂ ∧ w₂.server [3] = some s₃ ∧
    (s₁.role = .leader ∧ s₁.currentTerm = 1 ∧ s₁.commitIndex = 1) ∧
    (s₂.role = .leader ∧ s₂.currentTerm = 1 ∧ s₂.log.lastIndex = 3) ∧
    s₃.commitIndex = 2 ∧ s₃.log.termAt 1 = some 1 := by
  obtain ⟨w₁, s₁, h₁, hs₁, hp₁, w₂, hw₂, s₂, hs₂, hp₂, s₃, hs₃, hp₃⟩ : ∃ w s,
      Run (OrderedStep (journalCluster [[1], [2]]) [[1], [2]]) {} (replacement.take 13) w ∧
      w.server [1] = some s ∧
      (s.role = .leader ∧ s.currentTerm = 1 ∧ s.commitIndex = 1) ∧
      ∃ w' ∈ execAll (guarded (fun w a => Safe journal w a ∧ Ordered configOf [[1], [2]] w a)
          (exec (journalCluster [[1], [2]]))) w ((replacement.drop 13).take 22),
        ∃ s' ∈ w'.server [1], (s'.role = .leader ∧ s'.currentTerm = 1 ∧ s'.log.lastIndex = 3) ∧
          ∃ t ∈ w'.server [3], t.commitIndex = 2 ∧ t.log.termAt 1 = some 1 :=
    exists_run_guarded_some (by decide +kernel)
  exact ⟨w₁, w₂, s₁, s₂, s₃, ⟨h₁, run_of_execAll_guarded hw₂⟩, hs₁, hs₂, hs₃, hp₁, hp₂, hp₃⟩

/-! ## Logs -/

/-- **Log matching**, between any two servers at any two moments. -/
theorem log_matching_across_changes (h₁ : Run (OrderedStep cl C₀) {} as₁ w₁)
    (h₂ : Run (OrderedStep cl C₀) w₁ as₂ w₂) (hi : w₁.server i = some s₁)
    (hj : w₂.server j = some s₂) : s₁.log.Match s₂.log := by
  obtain ⟨g₁, g₂, hR₁, hR₂, hx⟩ := exists_histories h₁ h₂
  obtain ⟨href₁, hw₁⟩ := hR₁.server hi
  obtain ⟨href₂, hw₂⟩ := hR₂.server hj
  have hgrown : Grown g₂ s₁.log.abs := (href₁.log ▸ hR₁.inv.log_grown i).mono hx.leaderLog
  exact .of_grown hw₁ hw₂ hgrown (href₂.log ▸ hR₂.inv.log_grown j)

theorem log_matching_across_changes_replaced : ∃ w₁ w₂ s₁ s₂, Replaced w₁ w₂ ∧
    w₁.server [1] = some s₁ ∧ w₂.server [3] = some s₂ ∧ s₂.log.termAt 1 = some 1 ∧
    s₁.log.Match s₂.log := by
  obtain ⟨w₁, w₂, s₁, -, s₃, h, hs₁, -, hs₃, -, -, -, ht⟩ := exists_replaced
  exact ⟨w₁, w₂, s₁, s₃, h, hs₁, hs₃, ht, log_matching_across_changes h.1 h.2 hs₁ hs₃⟩

/-- **Commits agree**: what one server has committed, no server has ever committed otherwise. -/
theorem commits_agree (h₁ : Run (OrderedStep cl C₀) {} as₁ w₁)
    (h₂ : Run (OrderedStep cl C₀) w₁ as₂ w₂) (hi : w₁.server i = some s₁)
    (hj : w₂.server j = some s₂) {n : Nat} (hn₁ : n ≤ s₁.commitIndex) (hn₂ : n ≤ s₂.commitIndex) :
    n ≤ s₁.log.lastIndex ∧ n ≤ s₂.log.lastIndex ∧ s₁.log.abs.take n = s₂.log.abs.take n := by
  obtain ⟨g₁, g₂, hR₁, hR₂, hx⟩ := exists_histories h₁ h₂
  obtain ⟨href₁, hw₁⟩ := hR₁.server hi
  obtain ⟨href₂, hw₂⟩ := hR₂.server hj
  have hlen₁ := href₁.length
  have hlen₂ := href₂.length
  have hcut {l : Log} {k : Nat} (hk : n ≤ k) : (l.abs.take k).take n = l.abs.take n := by
    rw [List.take_take, Nat.min_eq_left hk]
  rw [hw₁.lastIndex, hw₂.lastIndex, ← Log.length_abs, ← Log.length_abs]
  refine ⟨by omega, by omega, ?_⟩
  rw [← hcut hn₁, ← hcut hn₂]
  have hdec := (href₁.decided hR₁.inv).mono hR₁.inv hx (le_rfl)
  rcases hdec.total hR₂.inv (href₂.decided hR₂.inv) with hpre | hpre
  · exact (take_eq_of_isPrefix hpre (by rw [List.length_take]; omega)).symm
  · exact take_eq_of_isPrefix hpre (by rw [List.length_take]; omega)

theorem commits_agree_replaced : ∃ w₁ w₂ s₁ s₂, Replaced w₁ w₂ ∧ w₁.server [1] = some s₁ ∧
    w₂.server [3] = some s₂ ∧ s₁.commitIndex = 1 ∧ s₂.commitIndex = 2 ∧
    s₁.log.abs.take 1 = s₂.log.abs.take 1 := by
  obtain ⟨w₁, w₂, s₁, -, s₃, h, hs₁, -, hs₃, ⟨-, -, hc₁⟩, -, hc₃, -⟩ := exists_replaced
  exact ⟨w₁, w₂, s₁, s₃, h, hs₁, hs₃, hc₁, hc₃,
    (commits_agree h.1 h.2 hs₁ hs₃ (by omega) (by omega)).2.2⟩

/-- **A leader only appends**: whoever leads a term at a later moment has the log with which the
term was led before, and possibly more. -/
theorem leader_append_only (h₁ : Run (OrderedStep cl C₀) {} as₁ w₁)
    (h₂ : Run (OrderedStep cl C₀) w₁ as₂ w₂) (hi : w₁.server i = some s₁)
    (hj : w₂.server j = some s₂) (hlead₁ : s₁.role = .leader) (hlead₂ : s₂.role = .leader)
    (hterm : s₁.currentTerm = s₂.currentTerm) : s₁.log.abs <+: s₂.log.abs := by
  obtain ⟨g₁, g₂, hR₁, hR₂, hx⟩ := exists_histories h₁ h₂
  obtain ⟨A, hA⟩ := (hR₁.server hi).1.leader hlead₁
  obtain ⟨B, hB⟩ := (hR₂.server hj).1.leader hlead₂
  rw [← hA.log, ← hB.log, hterm]
  exact hx.leaderLog _

theorem leader_append_only_replaced : ∃ w₁ w₂ s₁ s₂, Replaced w₁ w₂ ∧ w₁.server [1] = some s₁ ∧
    w₂.server [1] = some s₂ ∧ s₂.log.lastIndex = 3 ∧ s₁.log.abs <+: s₂.log.abs := by
  obtain ⟨w₁, w₂, s₁, s₂, -, h, hs₁, hs₂, -, ⟨hl₁, ht₁, -⟩, ⟨hl₂, ht₂, hlast⟩, -⟩ :=
    exists_replaced
  exact ⟨w₁, w₂, s₁, s₂, h, hs₁, hs₂, hlast,
    leader_append_only h.1 h.2 hs₁ hs₂ hl₁ hl₂ (ht₁.trans ht₂.symm)⟩

end CoreBank.Raft
