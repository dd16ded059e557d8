import CoreBank.Raft.FixedRun

/-!
# Logs in a fixed membership

A safe run of a fixed membership has a history, and the history says what the logs of the servers
have in common: two logs with an entry of one term at one index agree below it, and whoever leads a
later term holds what was committed before.

The runs have to be safe.  A server that crashes between the two writes of an `InstallSnapshot`
comes back with the snapshot of a later term than its own.  It takes entries of leaders of the terms
in between on top of the snapshot (`tornSnapshot`), and answers for entries that it has never seen
(`tornInstall`).
-/

set_option autoImplicit false

namespace CoreBank.Raft

open ActionSystem Consensus

variable {σ : Type} {m : StateMachine σ} {members : List NodeID} {w w' : World σ} {id id' : NodeID}
  {s s' : Server σ} {confOf : Bytes → Option (List NodeID)} {C₀ : List NodeID}

theorem server_eq_some : w.server id = some s ↔ ∃ p, (w.node id).proc = some p ∧ p.server = s :=
  Option.map_eq_some_iff

variable {h : History NodeID Bytes}

theorem Refines.server (hR : Refines confOf C₀ w h) (hs : w.server id = some s) :
    ServerRef h id s ∧ s.log.WF := by
  obtain ⟨p, hp, rfl⟩ := server_eq_some.1 hs
  exact ⟨((hR.node id).proc p hp).server, (hR.wf.proc id p hp).server.log⟩

/-! ## Log matching -/

/-- Where both logs hold an entry or a sentinel of one term, they agree on everything below that
both of them still hold.  A sentinel stands for the entry it replaced, but for its command. -/
def Log.Match (l l' : Log) : Prop :=
  ∀ i e e', l.entryAt i = some e → l'.entryAt i = some e' → e.term = e'.term →
    ∀ j f f', j ≤ i → l.entryAt j = some f → l'.entryAt j = some f' →
      f.term = f'.term ∧ (l.baseIndex < j → l'.baseIndex < j → f.bytes = f'.bytes)

theorem Log.WF.held {l : Log} (hw : l.WF) {i : Nat} {e : LogEntry} (he : l.entryAt i = some e) :
    l.baseIndex ≤ i ∧ i ≤ l.abs.length ∧ e.term = Consensus.lastTerm (l.abs.take i) := by
  have hbounds : ¬ (i < l.baseIndex ∨ l.lastIndex < i) := by
    intro hout
    rw [Log.entryAt, if_pos hout] at he
    cases he
  have hlast := hw.lastIndex
  have hbase : l.baseIndex ≤ i := by omega
  have hlen : i ≤ l.logical.length := by omega
  have hterm : l.termAt i = some e.term := by rw [Log.termAt, he]; rfl
  rw [hw.termAt hbase hlen] at hterm
  exact ⟨hbase, by rw [Log.length_abs]; exact hlen, (Option.some.inj hterm).symm⟩

theorem Log.WF.getElem?_abs {l : Log} (hw : l.WF) {i : Nat} {e : LogEntry} (hi : l.baseIndex < i)
    (he : l.entryAt i = some e) : l.abs[i - 1]? = some e.abs := by
  rw [hw.entryAt hi] at he
  rw [Log.abs, List.getElem?_map, he]
  rfl

theorem Log.Match.of_grown {l l' : Log} (hw : l.WF) (hw' : l'.WF) (hl : Grown h l.abs)
    (hl' : Grown h l'.abs) : l.Match l' := by
  intro i e e' he he' hterm j f f' hj hf hf'
  obtain ⟨-, hlen, ht⟩ := hw.held he
  obtain ⟨-, hlen', ht'⟩ := hw'.held he'
  have htake : l.abs.take i = l'.abs.take i :=
    hl.take_eq_of_lastTerm hl' hlen hlen' (by rw [← ht, ← ht', hterm])
  have hsame : l.abs.take j = l'.abs.take j := by
    have := congrArg (List.take j) htake
    rwa [List.take_take, List.take_take, Nat.min_eq_left hj] at this
  refine ⟨?_, fun hb hb' => ?_⟩
  · rw [(hw.held hf).2.2, (hw'.held hf').2.2, hsame]
  · have hlt : j - 1 < j := by omega
    have hget : (l.abs.take j)[j - 1]? = (l'.abs.take j)[j - 1]? := by rw [hsame]
    rw [List.getElem?_take_of_lt hlt, List.getElem?_take_of_lt hlt, hw.getElem?_abs hb hf,
      hw'.getElem?_abs hb' hf'] at hget
    exact congrArg Consensus.Entry.payload (Option.some.inj hget)

/-- **Log matching**, across compaction. -/
theorem log_matching (hnd : members.Nodup) {as : List Action}
    (hrun : Run (SafeStep m members) {} as w) (hs : w.server id = some s)
    (hs' : w.server id' = some s') : s.log.Match s'.log := by
  obtain ⟨h, -, hS⟩ := settled_of_run hnd hrun (settled_empty members)
  obtain ⟨href, hw⟩ := hS.refines.server hs
  obtain ⟨href', hw'⟩ := hS.refines.server hs'
  exact .of_grown hw hw' (href.log ▸ hS.refines.inv.log_grown id)
    (href'.log ▸ hS.refines.inv.log_grown id')

/-- Server 1 leads and commits its no-op with server 2, which then leads the next term. -/
def handover : List Action :=
  leaderOfTwo ++ [.run [1] 0, .deliver [2] 1, .receive [1] 0 1, .timeout [2], .run [2] 0,
    .deliver [1] 2, .receive [2] 0 2, .run [2] 0, .run [2] 0, .run [2] 0]

/-- Both logs of `handover` start with the no-op of term 1. -/
theorem log_matching_handover :
    ∃ w s s', Run (SafeStep journal [[1], [2]]) {} handover w ∧ w.server [1] = some s ∧
      w.server [2] = some s' ∧ s.log.termAt 1 = some 1 ∧ s'.log.termAt 1 = some 1 ∧
      s.log.Match s'.log := by
  obtain ⟨w, s, hrun, hs, ht, s', hs', ht'⟩ : ∃ w s,
      Run (SafeStep journal [[1], [2]]) {} handover w ∧ w.server [1] = some s ∧
      s.log.termAt 1 = some 1 ∧ ∃ s' ∈ w.server [2], s'.log.termAt 1 = some 1 :=
    exists_run_guarded_some (by decide +kernel)
  exact ⟨w, s, s', hrun, hs, hs', ht, ht', log_matching (by decide) hrun hs hs'⟩

/-- Server 1 leads term 1 and sends its log to server 5.  Server 2 leads term 2, commits its no-op
and compacts; server 5, still in term 1, crashes after the snapshot was stored and before the term
was.  It comes back in term 1 and takes the second entry of server 1 on top of the snapshot. -/
def tornSnapshot : List Action :=
  [.boot [1], .boot [2], .boot [3], .boot [4], .boot [5],
    -- term 1: the votes of 5 and 3
    .timeout [1], .run [1] 0, .deliver [5] 3, .receive [1] 3 0, .run [1] 3, .deliver [3] 1,
    .receive [1] 1 1, .run [1] 2, .run [1] 2, .run [1] 2, .act [1] (.submit [7]), .run [1] 5,
    -- term 2: the votes of 3 and 4, which also hold the no-op
    .timeout [2], .run [2] 0, .timeout [2], .run [2] 4, .deliver [3] 10, .receive [2] 5 2,
    .run [2] 7, .deliver [4] 11, .receive [2] 5 3, .run [2] 6, .run [2] 6, .run [2] 6, .run [2] 7,
    .deliver [3] 13, .receive [2] 9 4, .run [2] 7, .deliver [4] 14, .receive [2] 8 5,
    .act [2] (.maybeCompact 0), .run [2] 7, .run [2] 7,
    -- the snapshot reaches server 5, and then the entries of term 1 do
    .cut [5] (.deliver 15 false) 1, .boot [5], .deliver [5] 4]

/-- Servers 1 and 5 both hold the second entry of term 1; below it server 1 holds an entry of term 1
and server 5 the sentinel of an entry of term 2. -/
theorem torn_snapshot_breaks_matching :
    ∃ w s s', Run (fun w a w' => exec (journalCluster [[1], [2], [3], [4], [5]]) w a = some w' ∧
        Fixed [[1], [2], [3], [4], [5]] a) {} tornSnapshot w ∧
      w.server [1] = some s ∧ w.server [5] = some s' ∧ ¬ s.log.Match s'.log := by
  obtain ⟨w, s, hrun, hs, ⟨h2, h1⟩, s', hs', h2', h1'⟩ : ∃ w s,
      Run (fun w a w' => exec (journalCluster [[1], [2], [3], [4], [5]]) w a = some w' ∧
        Fixed [[1], [2], [3], [4], [5]] a) {} tornSnapshot w ∧ w.server [1] = some s ∧
      (s.log.entryAt 2 = some ⟨1, 2, some [7]⟩ ∧ s.log.entryAt 1 = some ⟨1, 1, none⟩) ∧
      ∃ s' ∈ w.server [5], s'.log.entryAt 2 = some ⟨1, 2, some [7]⟩ ∧
        s'.log.entryAt 1 = some ⟨2, 1, none⟩ := exists_run_guarded_some (by decide +kernel)
  refine ⟨w, s, s', hrun, hs, hs', fun hmatch => ?_⟩
  have := (hmatch 2 _ _ h2 h2' rfl 1 _ _ (by decide) h1 h1').1
  cases this

/-! ## Leader completeness -/

/-- What was decided at one moment of a history is in the log of a leader of a later term, whether
that leader is looked at before or after. -/
theorem prefix_of_leader {h₁ h₂ : History NodeID Bytes} (hI₁ : Inv confOf C₀ h₁)
    (hI₂ : Inv confOf C₀ h₂) (hx : Extends h₁ h₂ ∨ Extends h₂ h₁) (hs : ServerRef h₁ id s)
    (hs' : ServerRef h₂ id' s') (hlead : s'.role = .leader) (hT : s.currentTerm < s'.currentTerm) :
    s.log.abs.take s.commitIndex <+: s'.log.abs := by
  obtain ⟨A, hl⟩ := hs'.leader hlead
  have hA : s.log.abs.take s.commitIndex <+: A := by
    rcases hx with hx | hx
    · exact ((hs.decided hI₁).mono hI₁ hx (le_rfl)).prefix_election hI₂ hT hl.elected
    · exact (hs.decided hI₁).prefix_election hI₁ hT (hx.elected hl.elected)
  refine hA.trans ?_
  rw [← hl.log]
  exact hI₂.isPrefix_election hl.elected

/-- **A leader of a later term holds what was committed**, in the words of the logs. -/
theorem leader_holds_committed {h' : History NodeID Bytes} (hR : Refines confOf C₀ w h)
    (hR' : Refines confOf C₀ w' h') (hx : Extends h h' ∨ Extends h' h) (hs : w.server id = some s)
    (hs' : w'.server id' = some s') (hlead : s'.role = .leader)
    (hT : s.currentTerm < s'.currentTerm) {N : Nat} (hN : N ≤ s.commitIndex) :
    N ≤ s'.log.lastIndex ∧ s'.log.abs.take N = s.log.abs.take N := by
  obtain ⟨href, -⟩ := hR.server hs
  obtain ⟨href', hw'⟩ := hR'.server hs'
  have hle := href.length
  have hheld := prefix_of_leader hR.inv hR'.inv hx href href' hlead hT
  have hlen := hheld.length_le
  rw [List.length_take, Nat.min_eq_left hle, Log.length_abs] at hlen
  refine ⟨by rw [hw'.lastIndex]; omega, ?_⟩
  rw [take_eq_of_isPrefix hheld (by rw [List.length_take]; omega), List.take_take,
    Nat.min_eq_left hN]

/-- **Leader completeness.**  A server that has committed through `N` in some term, and one that
leads a later term, be it at a later moment of the run or at an earlier one: the leader holds the
same entries through `N`. -/
theorem leader_completeness (hnd : members.Nodup) {as bs : List Action}
    (hrun : Run (SafeStep m members) {} as w) (hrun' : Run (SafeStep m members) {} bs w')
    (hpre : as <+: bs ∨ bs <+: as) (hs : w.server id = some s) (hs' : w'.server id' = some s')
    (hlead : s'.role = .leader) (hT : s.currentTerm < s'.currentTerm) {N : Nat}
    (hN : N ≤ s.commitIndex) : N ≤ s'.log.lastIndex ∧ s'.log.abs.take N = s.log.abs.take N := by
  obtain ⟨h, h', hS, hS', hx⟩ := hrun.simulate_moments (R := fun w h => Settled members w h) .refl
    (fun h₁ h₂ => h₁.trans h₂) (fun _ _ _ _ hs hS => hS.step hnd hs.1 hs.2.1 hs.2.2)
    (fun _ _ _ _ hx hy => Option.some.inj (hx.1.symm.trans hy.1)) hrun' hpre (settled_empty members)
  exact leader_holds_committed hS.refines hS'.refines hx hs hs' hlead hT hN

/-- What server 1 has committed in term 1 of `handover`, server 2 holds when it leads term 2. -/
theorem leader_completeness_handover :
    ∃ w w' s s', Run (SafeStep journal [[1], [2]]) {} (handover.take 12) w ∧
      Run (SafeStep journal [[1], [2]]) {} handover w' ∧ w.server [1] = some s ∧
      w'.server [2] = some s' ∧ s'.role = .leader ∧ s.currentTerm < s'.currentTerm ∧
      s.commitIndex = 1 ∧ 1 ≤ s'.log.lastIndex ∧ s'.log.abs.take 1 = s.log.abs.take 1 := by
  obtain ⟨w, s, hrun, hs, hterm, hcommit⟩ : ∃ w s,
      Run (SafeStep journal [[1], [2]]) {} (handover.take 12) w ∧ w.server [1] = some s ∧
      s.currentTerm = 1 ∧ s.commitIndex = 1 := exists_run_guarded_some (by decide +kernel)
  obtain ⟨w', s', hrun', hs', hlead, hterm'⟩ : ∃ w s,
      Run (SafeStep journal [[1], [2]]) {} handover w ∧ w.server [2] = some s ∧
      s.role = .leader ∧ s.currentTerm = 2 := exists_run_guarded_some (by decide +kernel)
  have hT : s.currentTerm < s'.currentTerm := by omega
  exact ⟨w, w', s, s', hrun, hrun', hs, hs', hlead, hT, hcommit,
    leader_completeness (by decide) hrun hrun' (.inl (List.take_prefix _ _)) hs hs' hlead hT
      (by omega)⟩

/-- Seven servers; server 7 crashes while it installs a snapshot, and answers for entries of term 3
that it has never seen. -/
def tornInstall : List Action :=
  [.boot [1], .boot [2], .boot [3], .boot [4], .boot [5], .boot [6], .boot [7],
    -- term 1: server 1 leads with 5, 6 and 7; its five entries are sent to 7
    .timeout [1], .run [1] 0, .deliver [5] 3, .receive [1] 3 0, .run [1] 5, .deliver [6] 4,
    .receive [1] 3 1, .run [1] 4, .deliver [7] 5, .receive [1] 3 2, .run [1] 3, .run [1] 3,
    .run [1] 3, .act [1] (.submit [1]), .act [1] (.submit [1]), .act [1] (.submit [1]),
    .act [1] (.submit [1]), .run [1] 8,
    -- term 2: server 2 leads with 4, 5 and 6, and keeps its no-op to itself
    .timeout [2], .run [2] 0, .timeout [2], .run [2] 6, .deliver [4] 15, .receive [2] 8 3,
    .run [2] 11, .deliver [5] 16, .receive [2] 8 4, .run [2] 10, .deliver [6] 17, .receive [2] 8 5,
    .run [2] 9, .run [2] 9, .run [2] 9,
    -- term 3: server 3 leads with 4, 5 and 6; its three entries are sent to 7 and reach 4 and 5
    .timeout [3], .run [3] 0, .timeout [3], .run [3] 6, .timeout [3], .run [3] 12, .deliver [4] 33,
    .receive [3] 14 6, .run [3] 17, .deliver [5] 34, .receive [3] 14 7, .run [3] 16,
    .deliver [6] 35, .receive [3] 14 8, .run [3] 15, .run [3] 15, .run [3] 15,
    .act [3] (.submit [2]), .act [3] (.submit [3]), .run [3] 20, .run [3] 17, .deliver [4] 38,
    .receive [3] 22 9, .run [3] 17, .deliver [5] 39, .receive [3] 21 10,
    -- term 4: server 2 hears of term 3 and campaigns; it gets the votes of 1 and 6
    .run [2] 10, .deliver [3] 40, .receive [2] 14 11, .timeout [2], .run [2] 14, .deliver [1] 41,
    .receive [2] 14 12, .run [2] 19, .deliver [6] 45, .receive [2] 17 13, .run [2] 18,
    -- term 5: server 4 leads with 1, 5 and 6
    .timeout [4], .run [4] 0, .timeout [4], .run [4] 6, .deliver [1] 53, .receive [4] 6 14,
    .run [4] 11, .deliver [5] 56, .receive [4] 8 15, .run [4] 10, .deliver [6] 57,
    .receive [4] 8 16, .run [4] 9, .run [4] 9, .run [4] 9,
    -- it brings 5, 1 and 6 up to date, commits the fourth entry and compacts
    .run [4] 12, .deliver [5] 59, .receive [4] 14 17, .run [4] 9, .deliver [1] 60,
    .receive [4] 13 18, .run [4] 11, .deliver [6] 61, .receive [4] 12 19, .heartbeat [4],
    .run [4] 12, .run [4] 12, .deliver [1] 62, .receive [4] 17 20, .run [4] 15, .deliver [6] 63,
    .receive [4] 16 21, .heartbeat [4], .run [4] 16, .run [4] 16, .deliver [1] 64,
    .receive [4] 21 22, .run [4] 19, .deliver [6] 65, .receive [4] 20 23, .heartbeat [4],
    .run [4] 20, .run [4] 20, .deliver [1] 66, .receive [4] 25 24, .run [4] 23, .deliver [6] 67,
    .receive [4] 24 25, .act [4] (.maybeCompact 0), .run [4] 11, .run [4] 23,
    -- the snapshot reaches server 7, which crashes before it has saved the term
    .cut [7] (.deliver 68 false) 1, .boot [7],
    -- the fifth entry of term 1, and the acknowledgement that server 3 was missing
    .deliver [7] 6, .deliver [7] 37, .receive [3] 20 27]

/-- Server 7 gives server 2 the vote that it was missing in term 4. -/
def tornVote : List Action :=
  [.deliver [7] 46, .receive [2] 17 28, .run [2] 17, .run [2] 17]

/-- Server 3 has committed three entries in term 3, and server 2 leads term 4 without them. -/
theorem torn_install_breaks_completeness :
    ∃ w w' s s',
      Run (fun w a w' => exec (journalCluster [[1], [2], [3], [4], [5], [6], [7]]) w a = some w' ∧
        Fixed [[1], [2], [3], [4], [5], [6], [7]] a) {} tornInstall w ∧
      Run (fun w a w' => exec (journalCluster [[1], [2], [3], [4], [5], [6], [7]]) w a = some w' ∧
        Fixed [[1], [2], [3], [4], [5], [6], [7]] a) {} (tornInstall ++ tornVote) w' ∧
      w.server [3] = some s ∧ s.role = .leader ∧ s.currentTerm = 3 ∧ s.commitIndex = 3 ∧
      w'.server [2] = some s' ∧ s'.role = .leader ∧ s'.currentTerm = 4 ∧
      s'.log.abs.take 3 ≠ s.log.abs.take 3 := by
  simp only [exists_and_left, run_guarded_iff_execAll]
  decide +kernel

/-! ## The four indices -/

/-- The boundary of the compacted prefix, the applied and the committed entries, the log. -/
structure Server.Disciplined (s : Server σ) : Prop where
  base_le : s.log.baseIndex ≤ s.lastApplied
  applied_eq : s.lastApplied = s.commitIndex
  commit_le : s.commitIndex ≤ s.log.lastIndex

/-- None of the indices has moved back. -/
structure Server.Advances (s s' : Server σ) : Prop where
  commit : s.commitIndex ≤ s'.commitIndex
  applied : s.lastApplied ≤ s'.lastApplied
  base : s.log.baseIndex ≤ s'.log.baseIndex

theorem Server.Advances.refl (s : Server σ) : s.Advances s :=
  ⟨le_rfl, le_rfl, le_rfl⟩

theorem Server.Advances.trans {s s' s'' : Server σ} (h : s.Advances s') (h' : s'.Advances s'') :
    s.Advances s'' :=
  ⟨h.commit.trans h'.commit, h.applied.trans h'.applied, h.base.trans h'.base⟩

theorem ServerRef.disciplined (hs : ServerRef h id s) (hw : s.log.WF) :
    s.Disciplined where
  base_le := by rw [hs.applied]; exact hs.base
  applied_eq := hs.applied
  commit_le := by rw [hw.lastIndex, ← Log.length_abs]; exact hs.length

theorem Log.WF.indexed {l : Log} (hw : l.WF) : l.Indexed := by
  intro k e he
  have hlog : l.logical[l.covered.length + k]? = some e := by
    rw [Log.logical, List.getElem?_append_right (Nat.le_add_right _ _), Nat.add_sub_cancel_left, he]
  rw [hw.index _ _ hlog, hw.covered_length]
  omega

theorem Settled.advances {a : Action} (hnd : members.Nodup) (hS : Settled members w h)
    (hstep : SafeStep m members w a w') (hs : w.server id = some s) (hs' : w'.server id = some s') :
    s.Advances s' := by
  obtain ⟨hexec, hfixed, hsafe⟩ := hstep
  obtain ⟨h', -, hS'⟩ := hS.step hnd hexec hfixed hsafe
  obtain ⟨p, hp, rfl⟩ := server_eq_some.1 hs
  obtain ⟨p', hp', rfl⟩ := server_eq_some.1 hs'
  obtain ⟨href', hw'⟩ := hS'.refines.server hs'
  obtain ⟨href, hw⟩ := hS.refines.server hs
  have hmoves : p.server.commitIndex ≤ p'.server.commitIndex ∧
      p.server.log.baseIndex ≤ p'.server.log.baseIndex := by
    have hord := hS.ordered hnd hfixed
    cases (stepped_of_exec hexec).procStep hp' with
    | other _ hp' => rw [hp] at hp'; cases hp'; exact ⟨le_rfl, le_rfl⟩
    | boot q hdown => rw [hp] at hdown; cases hdown
    | act q a e hq ha =>
      rw [hp] at hq
      cases hq
      obtain ⟨beats, hM⟩ := hS.refines.messages
      obtain ⟨g, hsim⟩ := hS.refines.simulate hM hp rfl ha (hord p hp)
      exact ⟨hsim.commit, (move_of_act ha).logStep.base_le⟩
  exact ⟨hmoves.1, by rw [href.applied, href'.applied]; exact hmoves.1, hmoves.2⟩

/-- The action starts the server or ends its process. -/
def Action.restarts (id : NodeID) : Action → Prop
  | .boot x | .crash x | .cut x _ _ => x = id
  | .act _ _ => False

instance (id : NodeID) (a : Action) : Decidable (a.restarts id) := by
  induction a using Action.casesOn <;> unfold Action.restarts <;> infer_instance

theorem exists_server_of_step {cl : Cluster σ} {a : Action} (hexec : exec cl w a = some w')
    (ha : ¬ a.restarts id) (hs : w.server id = some s) : ∃ s', w'.server id = some s' := by
  obtain ⟨p, hp, rfl⟩ := server_eq_some.1 hs
  have hn := (stepped_of_exec hexec).nodeStep id
  rw [World.server]
  generalize w'.node id = n' at hn
  cases hn with
  | other => exact ⟨_, by rw [hp]; rfl⟩
  | act => exact ⟨_, rfl⟩
  | boot | crash | cut => exact absurd rfl ha

/-- **Index discipline.**  In every state of a safe run the indices of a server are in order, and as
long as the server is not started anew none of them moves back. -/
theorem index_discipline (hnd : members.Nodup) {as bs : List Action}
    (hrun : Run (SafeStep m members) {} as w)
    (hlater : Run (fun w a w' => SafeStep m members w a w' ∧ ¬ a.restarts id) w bs w')
    (hs : w.server id = some s) (hs' : w'.server id = some s') : s.Disciplined ∧ s.Advances s' := by
  obtain ⟨h, -, hS⟩ := settled_of_run hnd hrun (settled_empty members)
  obtain ⟨href, hw⟩ := hS.refines.server hs
  refine ⟨href.disciplined hw, ?_⟩
  -- the later states have histories of their own
  have hinv : (∃ h, Settled members w' h) ∧ ∃ x, w'.server id = some x ∧ s.Advances x := by
    refine hlater.invariant (P := fun w' => (∃ h, Settled members w' h) ∧
      ∃ x, w'.server id = some x ∧ s.Advances x) ?_ ⟨⟨h, hS⟩, s, hs, .refl s⟩
    rintro v a v' ⟨hstep, ha⟩ ⟨⟨g, hG⟩, x, hx, hadv⟩
    obtain ⟨y, hy⟩ := exists_server_of_step hstep.1 ha hx
    obtain ⟨g', -, hG'⟩ := hG.step hnd hstep.1 hstep.2.1 hstep.2.2
    exact ⟨⟨g', hG'⟩, y, hy, hadv.trans (hG.advances hnd hstep hx hy)⟩
  obtain ⟨-, x, hx, hadv⟩ := hinv
  rw [hs'] at hx
  cases hx
  exact hadv

/-- Server 1 goes through `handover` from where it was started. -/
theorem index_discipline_handover :
    ∃ w w' s s', Run (SafeStep journal [[1], [2]]) {} (handover.take 2) w ∧
      Run (fun w a w' => SafeStep journal [[1], [2]] w a w' ∧ ¬ a.restarts [1]) w
        (handover.drop 2) w' ∧
      w.server [1] = some s ∧ w'.server [1] = some s' ∧ s'.commitIndex = 1 ∧ s.Disciplined ∧
      s.Advances s' := by
  obtain ⟨w, s, hrun, hs, w', hw', s', hs', hcommit⟩ : ∃ w s,
      Run (SafeStep journal [[1], [2]]) {} (handover.take 2) w ∧ w.server [1] = some s ∧
      ∃ w' ∈ execAll (guarded (fun w a => (Fixed [[1], [2]] a ∧ Safe journal w a) ∧
        ¬ a.restarts [1]) (exec (journalCluster [[1], [2]]))) w (handover.drop 2),
        ∃ s' ∈ w'.server [1], s'.commitIndex = 1 := exists_run_guarded_some (by decide +kernel)
  have hlater := (run_of_execAll_guarded hw').mono fun w a w' hstep =>
    (⟨⟨hstep.1, hstep.2.1⟩, hstep.2.2⟩ : SafeStep journal [[1], [2]] w a w' ∧ ¬ a.restarts [1])
  exact ⟨w, w', s, s', hrun, hlater, hs, hs', hcommit,
    index_discipline (by decide) hrun hlater hs hs'⟩

/-- Server 2, the leader of term 4, replaces the log of server 3 by its own, which is shorter. -/
def tornOverwrite : List Action :=
  [.run [2] 17, .run [2] 18, .deliver [3] 69, .receive [2] 22 29, .heartbeat [2], .run [2] 22,
    .run [2] 23, .deliver [3] 70]

/-- The log of server 3 is shorter than what it has committed. -/
theorem torn_install_breaks_discipline :
    ∃ w s,
      Run (fun w a w' => exec (journalCluster [[1], [2], [3], [4], [5], [6], [7]]) w a = some w' ∧
        Fixed [[1], [2], [3], [4], [5], [6], [7]]
          a) {} (tornInstall ++ tornVote ++ tornOverwrite) w ∧
      w.server [3] = some s ∧ s.commitIndex = 3 ∧ s.log.lastIndex = 2 ∧ ¬ s.Disciplined := by
  refine exists_run_guarded_imp (R := fun _ s => s.commitIndex = 3 ∧ s.log.lastIndex = 2)
    (by decide +kernel) ?_
  rintro w s hrun hs ⟨hcommit, hlast⟩
  refine ⟨hcommit, hlast, fun hd => ?_⟩
  have := hd.commit_le
  omega

end CoreBank.Raft
