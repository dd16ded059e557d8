import CoreBank.Raft.Bookkeeping
import CoreBank.Raft.Quorums

/-!
# A leader that was removed

A leader may remove itself.  It goes on leading until the entry that removes it is committed, and
then steps down: `checkSelfRemovalLocked` runs each time the commit index was advanced.  The check
is guarded by a latch, `removedFromCluster`, which is set when the leader steps down and never
cleared. A server that is added again, leads again and removes itself again finds the latch set and
goes on leading.

`removed_leader_steps_down` names what must not happen besides: a server is promoted while the
configuration without it is committed already.
-/

set_option autoImplicit false

namespace CoreBank.Raft

open ActionSystem

variable {σ : Type}

namespace Server

variable {s s' : Server σ}

/-- If the server is outside its configuration, then the entry of that is not committed yet, and the
check is still to come. -/
def Pending (s : Server σ) : Prop :=
  s.id ∉ s.peers → s.commitIndex < s.configChangeIndex ∧ s.removedFromCluster = false

instance (s : Server σ) : Decidable s.Pending := by
  unfold Pending
  infer_instance

theorem Pending.of_eq (h : s.Pending) (hid : s'.id = s.id) (hpeers : s'.peers = s.peers)
    (hcommit : s'.commitIndex = s.commitIndex)
    (hconfig : s'.configChangeIndex = s.configChangeIndex)
    (hremoved : s'.removedFromCluster = s.removedFromCluster) : s'.Pending := by
  rw [Pending, hid, hpeers, hcommit, hconfig, hremoved]
  exact h

/-- The check that follows a commit finds a leader outside its configuration. -/
theorem Pending.checkSelfRemoval (hlatch : s.id ∉ s.peers →
      s.configChangeIndex ≠ 0 ∧ s.removedFromCluster = false) (hrole : s.role = .leader)
    (hlead : s.checkSelfRemoval.role = .leader) : s.checkSelfRemoval.Pending := by
  have hcheck : s.checkSelfRemoval = s := by
    rcases s.checkSelfRemoval_frame with h | h
    · exact h
    · rw [h] at hlead
      cases hlead
  rw [hcheck]
  intro hout
  obtain ⟨hne, hopen⟩ := hlatch hout
  refine ⟨?_, hopen⟩
  by_contra hle
  have hcontains : ¬ s.peers.contains s.id = true := by
    rw [List.contains_iff_mem]
    exact hout
  rw [Server.checkSelfRemoval, if_neg (by simp [hrole, hopen]), if_neg (by omega),
    if_neg hcontains, becomeFollower] at hlead
  split at hlead <;> cases hlead

theorem Pending.advance (h : s.Pending) (m : StateMachine σ)
    (hlead : (s.advanceCommitIndex m).1.role = .leader) : (s.advanceCommitIndex m).1.Pending := by
  rcases s.advanceCommitIndex_cases m with heq | ⟨i, hrole, hlt, -, -, heq⟩
  · rw [heq]
    exact h
  · obtain ⟨k, x, -, happ, -⟩ := applyCommitted_frame m { s with commitIndex := i }
    rw [heq, happ] at hlead ⊢
    refine Pending.checkSelfRemoval (fun hout => ?_) hrole hlead
    obtain ⟨hpend, hopen⟩ := h hout
    exact ⟨Nat.ne_of_gt (Nat.zero_lt_of_lt hpend), hopen⟩

theorem Pending.recordMatch (h : s.Pending) (peer : NodeID) (k : Nat) :
    (s.recordMatch peer k).Pending := by
  rw [Server.recordMatch]
  split
  · exact h.of_eq rfl rfl rfl rfl rfl
  · exact h

theorem Pending.backUp (h : s.Pending) (peer : NodeID) : (s.backUp peer).Pending := by
  rw [Server.backUp]
  split
  · exact h.of_eq rfl rfl rfl rfl rfl
  · exact h

/-- A leader that adds a server stays in its configuration. -/
theorem Pending.addServer {x : NodeID} {ws : List Write} (hs : s.addServer x = some (s', ws)) :
    s'.Pending := by
  obtain ⟨-, hid, -, next, ni, mi, hnext, -, rfl, -⟩ := changeConfiguration_cases hs
  rw [Option.ite_none_left_eq_some] at hnext
  obtain ⟨-, ⟨⟩⟩ := hnext
  refine fun hout => absurd ?_ hout
  exact Configuration.mem_withServer.2 (.inl hid)

/-- A leader that removes itself has the entry still to commit. -/
theorem Pending.removeServer {x : NodeID} {ws : List Write}
    (hself : x = s.id → s.removedFromCluster = false ∧ s.commitIndex ≤ s.log.lastIndex)
    (hs : s.removeServer x = some (s', ws)) : s'.Pending := by
  obtain ⟨-, hid, -, next, ni, mi, hnext, -, rfl, -⟩ := changeConfiguration_cases hs
  rw [Option.ite_none_left_eq_some, Option.ite_none_left_eq_some] at hnext
  obtain ⟨-, -, ⟨⟩⟩ := hnext
  intro hout
  by_cases hx : x = s.id
  · obtain ⟨hopen, hle⟩ := hself hx
    exact ⟨Nat.lt_succ_of_le hle, hopen⟩
  · refine absurd ?_ hout
    show s.id ∈ (Configuration.withoutServer ⟨s.peers⟩ x).servers
    exact List.mem_filter.2 ⟨hid, decide_eq_true (Ne.symm hx)⟩

end Server

/-- A server is promoted, or removes itself, only where the check is still to come; and no leader is
told of another of its own term. -/
def Process.Watched (w : World σ) (id : NodeID) (p : Process σ) : Local → Prop
  | .run i => ∀ t ∈ p.tasks[i]?, p.server.promotedBy t = true → p.server.Pending
  | .removeServer x => x = p.server.id →
      p.server.removedFromCluster = false ∧ p.server.commitIndex ≤ p.server.log.lastIndex
  | .deliver call recent => p.Undisputed w id (.deliver call recent)
  | _ => True

instance (w : World σ) (id : NodeID) (p : Process σ) (a : Local) :
    Decidable (p.Watched w id a) := by
  induction a using Local.casesOn <;> unfold Process.Watched <;> infer_instance

/-- The action is one of a server whose section is watched. -/
abbrev Watched (w : World σ) : Action → Prop := w.Takes fun id p => p.Watched w id

/-- **A section leaves a leader in its configuration, or with the check still to come.** -/
theorem Led.pending {m : StateMachine σ} {w : World σ} {id : NodeID} {p : Process σ} {a : Local}
    {s' : Server σ} (hl : Led m w id p a s') (hlead : s'.role = .leader) (ha : p.Watched w id a)
    (h : p.server.role = .leader → p.server.Pending) : s'.Pending := by
  cases hl with
  | same _ hrole hs =>
    exact (h hrole).of_eq hs.id hs.peers hs.commitIndex hs.configChangeIndex hs.removed
  | promoted i term ht hrole hterm =>
    have hpend : p.server.Pending := ha _ ht (by
      rw [Server.promotedBy]
      exact decide_eq_true ⟨hrole, hterm⟩)
    have hnew : p.server.lead.Pending := hpend.of_eq rfl rfl rfl rfl rfl
    exact hnew.advance m hlead
  | matched i j call peer term k r ht hr hle hrole =>
    exact ((h hrole).recordMatch peer k).advance m hlead
  | backedUp i j call peer term k r ht hr hle hrole => exact (h hrole).backUp peer
  | shipped i j call peer term idx r ht hr hle hrole =>
    have hnew : (p.server.recordSnapshot peer idx).Pending := (h hrole).of_eq rfl rfl rfl rfl rfl
    exact hnew.advance m hlead
  | submitted cmd hrole =>
    have hnew : (p.server.appendOwn cmd).Pending := (h hrole).of_eq rfl rfl rfl rfl rfl
    exact hnew.advance m hlead
  | added x _ ws hs => exact .addServer hs
  | removed x _ ws hs => exact .removeServer ha hs
  | overruled call recent c hc hdst hrole hterm => exact absurd hterm (ha hrole c hc hdst)

/-- Every leader is in its configuration, or has the check still to come. -/
structure SelfAware (w : World σ) : Prop where
  wf : WellFormed w
  leader : ∀ id p, (w.node id).proc = some p → p.server.role = .leader → p.server.Pending

theorem selfAware_empty : SelfAware ({} : World σ) := ⟨wellFormed_empty, fun _ _ h => by cases h⟩

theorem SelfAware.step {cl : Cluster σ} {w w' : World σ} {a : Action} (h : SelfAware w)
    (hs : exec cl w a = some w') (ha : Watched w a) : SelfAware w' := by
  refine ⟨h.wf.step (stepped_of_exec hs), fun id p' hp' hlead => ?_⟩
  rcases h.wf.leader_step hs hp' hlead with hold | ⟨p, b, rfl, hp, hled⟩
  · exact h.leader id p' hold hlead
  · exact hled.pending hlead (ha p hp) (h.leader id p hp)

/-- **A leader is in its configuration once that is committed**, in every run in which no server is
promoted under a committed configuration without it or removes itself twice. -/
theorem removed_leader_steps_down {cl : Cluster σ} {as : List Action} {w : World σ}
    (hrun : Run (fun w a w' => exec cl w a = some w' ∧ Watched w a) {} as w) {id : NodeID}
    {p : Process σ} (hp : (w.node id).proc = some p) (hlead : p.server.role = .leader)
    (hcommitted : p.server.configChangeIndex ≤ p.server.commitIndex) :
    p.server.id ∈ p.server.peers := by
  have h := hrun.invariant (P := SelfAware) (fun _ _ _ hs h => h.step hs.1 hs.2) selfAware_empty
  by_contra hout
  have hlt := (h.leader id p hp hlead hout).1
  omega

/-- A leader that has removed another server is among its peers. -/
theorem removed_leader_steps_down_removal :
    ∃ w p, Run (fun w a w' => exec (journalCluster [[1], [2], [3]]) w a = some w' ∧ Watched w a) {}
        removal w ∧
      (w.node [1]).proc = some p ∧ p.server.role = .leader ∧ p.server.configChangeIndex = 2 ∧
      p.server.commitIndex = 2 ∧ p.server.id ∈ p.server.peers := by
  refine exists_run_guarded_imp (R := fun _ p => p.server.role = .leader ∧
    p.server.configChangeIndex = 2 ∧ p.server.commitIndex = 2) (by decide +kernel) ?_
  rintro w p hrun hp ⟨hlead, hconfig, hcommit⟩
  exact ⟨hlead, hconfig, hcommit, removed_leader_steps_down hrun hp hlead (by omega)⟩

/-- Server 1 removes itself from {1, 2} and steps down.  Server 2 leads, adds it again, and server 1
is elected and removes itself once more. -/
def removedTwice : List Action :=
  leaderOfTwo ++ [.run [1] 0, .deliver [2] 1, .receive [1] 0 1, .act [1] (.removeServer [1]),
    .heartbeat [1], .run [1] 0, .run [1] 0, .deliver [2] 2, .receive [1] 0 2, .timeout [2],
    .run [2] 0, .run [2] 0, .run [2] 0, .act [2] (.addServer [1]), .heartbeat [2], .run [2] 0,
    .run [2] 0, .deliver [1] 3, .receive [2] 0 3, .heartbeat [2], .run [2] 0, .run [2] 0,
    .deliver [1] 4, .receive [2] 0 4, .heartbeat [2], .run [2] 0, .run [2] 0, .deliver [1] 5,
    .receive [2] 0 5, .timeout [1], .run [1] 0, .deliver [2] 6, .receive [1] 0 6, .run [1] 0,
    .run [1] 0, .run [1] 0, .run [1] 0, .deliver [2] 7, .receive [1] 0 7,
    .act [1] (.removeServer [1]), .heartbeat [1], .run [1] 0, .run [1] 0, .deliver [2] 8,
    .receive [1] 0 8]

/-- The first time server 1 steps down, the second time it goes on leading. -/
theorem latched_leader_stays :
    ∃ w p w' p', Run (fun w a w' => exec (journalCluster [[1], [2]]) w a = some w') {}
        (removedTwice.take 18) w ∧ (w.node [1]).proc = some p ∧ p.server.role = .follower ∧
      Run (fun w a w' => exec (journalCluster [[1], [2]]) w a = some w') {} removedTwice w' ∧
      (w'.node [1]).proc = some p' ∧ p'.server.role = .leader ∧ p'.server.id = [1] ∧
      p'.server.peers = [[2]] ∧ p'.server.configChangeIndex = 6 ∧ p'.server.commitIndex = 6 := by
  obtain ⟨w, p, hrun, hp, hrole⟩ : ∃ w p,
      Run (fun w a w' => exec (journalCluster [[1], [2]]) w a = some w') {}
        (removedTwice.take 18) w ∧
      (w.node [1]).proc = some p ∧ p.server.role = .follower := exists_run_some (by decide +kernel)
  simp only [exists_and_left]
  exact ⟨w, hrun, p, hp, hrole, exists_run (by decide +kernel)⟩

end CoreBank.Raft
