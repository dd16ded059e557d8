import CoreBank.Raft.Applied
import CoreBank.Raft.LogSafety

/-!
# Elections and commits while the membership changes

A configuration that differs from another by one server has a majority in common with it.  What that
is worth depends on which configurations can be in force at one time, and the code leaves gaps:

* a candidate counts its own vote whether it is a member or not, so that a server that was removed
  can elect itself (`selfRemoval`);
* a new leader may change the configuration before it has committed anything, when it cannot know
  of a change that an earlier leader has begun (`crossedChanges`);
* a server may use a configuration that its log has lost, see `CoreBank.Raft.Configurations`.

`Ordered` rules them out, step by step.  Then the run has a history, and the theorems about leaders
hold as they do for a fixed membership.
-/

set_option autoImplicit false

namespace CoreBank.Raft

open ActionSystem Consensus

variable {σ : Type} {cl : Cluster σ} {C₀ : List NodeID} {m : StateMachine σ} {w w' : World σ}

/-! ## Election safety -/

/-- The steps that are safe and find the configuration in order. -/
def OrderedStep (cl : Cluster σ) (C₀ : List NodeID) (w : World σ) (a : Action)
    (w' : World σ) : Prop :=
  exec cl w a = some w' ∧ Safe cl.machine w a ∧ Ordered configOf C₀ w a

/-- **Election safety.**  Over a run with changes of the membership, a term has at most one
leader. -/
theorem election_safety_across_changes {as₁ as₂ : List Action} {w₁ w₂ : World σ}
    (h₁ : Run (OrderedStep cl C₀) {} as₁ w₁) (h₂ : Run (OrderedStep cl C₀) w₁ as₂ w₂) {i j : NodeID}
    {s₁ s₂ : Server σ} (hi : w₁.server i = some s₁) (hj : w₂.server j = some s₂)
    (hlead₁ : s₁.role = .leader) (hlead₂ : s₂.role = .leader)
    (hterm : s₁.currentTerm = s₂.currentTerm) : i = j := by
  have hnil : configOf [] = none := rfl
  obtain ⟨g₁, -, hR₁⟩ := refines_of_run hnil h₁ refines_empty
  obtain ⟨g₂, hx, hR₂⟩ := refines_of_run hnil h₂ hR₁
  obtain ⟨A, hA⟩ := (hR₁.server hi).1.leader hlead₁
  obtain ⟨B, hB⟩ := (hR₂.server hj).1.leader hlead₂
  have hel := hx.elected hA.elected
  rw [hterm] at hel
  exact (hR₂.inv.elected_unique _ _ _ _ _ hel hB.elected).1

/-- Server 1 of two leads, adds server 3 and then removes server 2; server 3 leads the next term. -/
def replacement : List Action :=
  [.boot [1], .boot [2], .boot [3], .timeout [1], .run [1] 0, .deliver [2] 0, .receive [1] 0 0,
    .run [1] 0, .run [1] 0, .run [1] 0, .run [1] 0, .deliver [2] 1, .receive [1] 0 1,
    -- server 3 is probed until it takes both entries
    .act [1] (.addServer [3]), .heartbeat [1], .run [1] 0, .run [1] 1, .deliver [3] 2,
    .receive [1] 1 2, .heartbeat [1], .run [1] 1, .run [1] 2, .deliver [3] 3, .receive [1] 2 3,
    .heartbeat [1], .run [1] 2, .run [1] 3, .deliver [3] 4, .receive [1] 3 4,
    .act [1] (.removeServer [2]), .heartbeat [1], .run [1] 3, .run [1] 3, .deliver [3] 5,
    .receive [1] 3 5,
    -- term 2
    .timeout [3], .run [3] 0, .deliver [1] 6, .receive [3] 0 6, .run [3] 0, .run [3] 0, .run [3] 0]

/-- Nobody but server 3 leads term 2 in any continuation of `replacement`. -/
theorem election_safety_across_changes_replacement :
    ∃ (w : World Bytes) (s : Server Bytes),
      Run (OrderedStep (journalCluster [[1], [2]]) [[1], [2]]) {} replacement w ∧
      w.server [3] = some s ∧ s.role = .leader ∧ s.currentTerm = 2 ∧ s.peers = [[1], [3]] ∧
      ∀ as w' j s', Run (OrderedStep (journalCluster [[1], [2]]) [[1], [2]]) w as w' →
        w'.server j = some s' → s'.role = .leader → s'.currentTerm = 2 → [3] = j := by
  refine exists_run_guarded_imp (R := fun _ s => s.role = .leader ∧ s.currentTerm = 2 ∧
    s.peers = [[1], [3]]) (by decide +kernel) ?_
  rintro w s hrun hs ⟨hlead, hterm, hpeers⟩
  refine ⟨hlead, hterm, hpeers, fun as w' j s' hlater hs' hlead' hterm' => ?_⟩
  exact election_safety_across_changes hrun hlater hs hs' hlead hlead' (hterm.trans hterm'.symm)

/-- Server 1 of two leads and removes itself.  Once that is committed both servers campaign. -/
def selfRemoval : List Action :=
  leaderOfTwo ++ [.run [1] 0, .deliver [2] 1, .receive [1] 0 1, .act [1] (.removeServer [1]),
    .heartbeat [1], .run [1] 0, .run [1] 0, .deliver [2] 2, .receive [1] 0 2, .timeout [2],
    .run [2] 0, .run [2] 0, .timeout [1], .run [1] 0, .run [1] 0]

/-- Each of them is a majority of the one server that is left. -/
theorem removed_server_elects_itself :
    ∃ w s₁ s₂, Run (fun w a w' => exec (journalCluster [[1], [2]]) w a = some w') {} selfRemoval w ∧
      w.server [1] = some s₁ ∧ w.server [2] = some s₂ ∧ s₁.role = .leader ∧ s₂.role = .leader ∧
      s₁.currentTerm = 2 ∧ s₂.currentTerm = 2 ∧ s₁.peers = [[2]] ∧ s₂.peers = [[2]] := by
  simp only [exists_and_left]
  exact exists_run (by decide +kernel)

/-! ## Leader completeness -/

theorem Snapshots.safe (hS : Snapshots (fun _ => False) w) (a : Action) : Safe m w a := by
  have hcall {call : Nat} {src dst : NodeID} {args : InstallSnapshotArgs}
      (hc : w.calls[call]? = some ⟨src, dst, .installSnapshot args⟩) : False :=
    hS.calls _ (List.mem_of_getElem? hc) args rfl
  cases a with
  | boot | crash => trivial
  | act id a =>
    intro p hp
    cases a with
    | deliver call recent =>
      rw [Process.adoptsUnsaved]
      split
      next hc => exact (hcall hc).elim
      next => rfl
    | _ => rfl
  | cut id a k =>
    intro hk
    cases a with
    | deliver call recent =>
      rw [tears]
      split
      next hc => exact (hcall hc).elim
      next => rfl
    | _ => rfl

/-- The steps that find the configuration in order, of servers that do not compact. -/
def UncompactedStep (cl : Cluster σ) (C₀ : List NodeID) (w : World σ) (a : Action) (w' : World σ) :
    Prop :=
  exec cl w a = some w' ∧ a.takes = false ∧ Ordered configOf C₀ w a

theorem UncompactedStep.refines {a : Action} {h : History NodeID Bytes}
    (hs : UncompactedStep cl C₀ w a w')
    (hR : Refines configOf C₀ w h ∧ Snapshots (fun _ => False) w) :
    ∃ h', Extends h h' ∧ Refines configOf C₀ w' h' ∧ Snapshots (fun _ => False) w' := by
  obtain ⟨hexec, htakes, hord⟩ := hs
  obtain ⟨h', hx, hR'⟩ := hR.1.step rfl hexec (hR.2.safe a) hord
  refine ⟨h', hx, hR', hR.2.step (fun ha => ?_) (stepped_of_exec hexec)⟩
  rw [htakes] at ha
  cases ha

/-- **Committed entries survive changes of the membership.**  A server that has committed through
`N` in some term, and one that leads a later term, be it at a later moment of the run or at an
earlier one: the leader holds the same entries through `N`. -/
theorem committed_survives_changes {as bs : List Action}
    (hrun : Run (UncompactedStep cl C₀) {} as w)
    (hrun' : Run (UncompactedStep cl C₀) {} bs w') (hpre : as <+: bs ∨ bs <+: as) {id id' : NodeID}
    {s s' : Server σ} (hs : w.server id = some s) (hs' : w'.server id' = some s')
    (hlead : s'.role = .leader) (hT : s.currentTerm < s'.currentTerm) {N : Nat}
    (hN : N ≤ s.commitIndex) : N ≤ s'.log.lastIndex ∧ s'.log.abs.take N = s.log.abs.take N := by
  obtain ⟨h, h', hR, hR', hx⟩ := hrun.simulate_moments
    (R := fun w h => Refines configOf C₀ w h ∧ Snapshots (fun _ => False) w) .refl
    (fun h₁ h₂ => h₁.trans h₂) (fun _ _ _ _ hs hR => hs.refines hR)
    (fun _ _ _ _ hx hy => Option.some.inj (hx.1.symm.trans hy.1)) hrun' hpre
    ⟨refines_empty, snapshots_empty _⟩
  exact leader_holds_committed hR.1 hR'.1 hx hs hs' hlead hT hN

/-- What server 1 has committed in term 1 of `replacement`, server 3 holds when it leads term 2. -/
theorem committed_survives_changes_replacement :
    ∃ w w' s s', Run (UncompactedStep (journalCluster [[1], [2]]) [[1], [2]]) {}
        (replacement.take 35) w ∧
      Run (UncompactedStep (journalCluster [[1], [2]]) [[1], [2]]) {} replacement w' ∧
      w.server [1] = some s ∧ w'.server [3] = some s' ∧ s'.role = .leader ∧
      s.currentTerm < s'.currentTerm ∧ s.commitIndex = 3 ∧ 3 ≤ s'.log.lastIndex ∧
      s'.log.abs.take 3 = s.log.abs.take 3 := by
  obtain ⟨w, s, hrun, hs, hterm, hcommit⟩ : ∃ w s,
      Run (UncompactedStep (journalCluster [[1], [2]]) [[1], [2]]) {} (replacement.take 35) w ∧
      w.server [1] = some s ∧ s.currentTerm = 1 ∧ s.commitIndex = 3 :=
    exists_run_guarded_some (by decide +kernel)
  obtain ⟨w', s', hrun', hs', hlead, hterm'⟩ : ∃ w s,
      Run (UncompactedStep (journalCluster [[1], [2]]) [[1], [2]]) {} replacement w ∧
      w.server [3] = some s ∧ s.role = .leader ∧ s.currentTerm = 2 :=
    exists_run_guarded_some (by decide +kernel)
  have hT : s.currentTerm < s'.currentTerm := by omega
  exact ⟨w, w', s, s', hrun, hrun', hs, hs', hlead, hT, hcommit,
    committed_survives_changes hrun hrun' (.inl (List.take_prefix _ _)) hs hs' hlead hT (by omega)⟩

/-- A server that campaigns is a member of its own configuration. -/
def Stands (w : World σ) : Action → Prop
  | .act id (.run i) | .cut id (.run i) _ => ∀ p ∈ (w.node id).proc,
      p.tasks[i]? = some .startElection → p.server.id ∈ p.server.peers
  | _ => True

instance (w : World σ) (a : Action) : Decidable (Stands w a) := by
  induction a using Action.casesOn with
  | boot | crash => exact instDecidableTrue
  | act id b | cut id b =>
    induction b using Local.casesOn <;> unfold Stands <;> infer_instance

/-- Four servers.  In term 1 server 1 adds server 5 and tells nobody; in term 2 server 2 removes
server 1 and commits that with server 3.  Server 1 restarts and leads term 3 with the votes of
servers 4 and 5. -/
def crossedChanges : List Action :=
  [.boot [1], .boot [2], .boot [3], .boot [4], .boot [5], .timeout [1], .run [1] 0, .deliver [2] 0,
    .receive [1] 0 0, .run [1] 2, .deliver [3] 1, .receive [1] 0 1, .run [1] 1, .run [1] 1,
    .run [1] 1, .act [1] (.addServer [5]),
    -- term 2
    .timeout [2], .run [2] 0, .deliver [3] 4, .receive [2] 1 2, .run [2] 2, .deliver [4] 5,
    .receive [2] 1 3, .run [2] 1, .run [2] 1, .run [2] 1, .act [2] (.removeServer [1]), .run [2] 2,
    .deliver [3] 6, .receive [2] 3 4,
    -- term 3
    .crash [1], .boot [1], .timeout [1], .run [1] 0, .timeout [1], .run [1] 4, .deliver [4] 13,
    .receive [1] 6 5, .run [1] 7, .deliver [5] 14, .receive [1] 6 6, .run [1] 6, .run [1] 6,
    .run [1] 6]

/-- Server 2 has committed two entries of term 2; the leader of term 3 has none of them. -/
theorem crossed_changes_lose_committed :
    ∃ w s s', Run (fun w a w' => exec (journalCluster [[1], [2], [3], [4]]) w a = some w' ∧
        a.takes = false ∧ Stands w a) {} crossedChanges w ∧
      w.server [2] = some s ∧ s.role = .leader ∧ s.currentTerm = 2 ∧ s.commitIndex = 2 ∧
      s.peers = [[2], [3], [4]] ∧ w.server [1] = some s' ∧ s'.role = .leader ∧
      s'.currentTerm = 3 ∧ s.log.entryAt 1 = some ⟨2, 1, none⟩ ∧
      s'.log.entryAt 1 = some ⟨1, 1, none⟩ := by
  simp only [exists_and_left]
  exact exists_run_guarded (by decide +kernel)

end CoreBank.Raft
