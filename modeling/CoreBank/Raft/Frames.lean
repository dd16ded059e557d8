import CoreBank.Raft.Logs

/-!
# What the parts of a section leave alone

The sections of a server are built from a few functions that each touch a few fields.  Each lemma
here says which: the result is the old server with those fields changed.  Sections that do several
things at once (`advanceCommitIndex`, the handlers) are given as the list of their outcomes.
-/

set_option autoImplicit false

namespace CoreBank.Raft

/-! ## Bookkeeping -/

namespace Progress

theorem at_insert_self (m : Progress) (p : NodeID) (v : Nat) :
    Progress.at (m.insert p v) p = v := by
  rw [Progress.at, AList.lookup_insert, Option.getD_some]

theorem at_insert_ne (m : Progress) {p q : NodeID} (v : Nat) (hq : q ≠ p) :
    Progress.at (m.insert p v) q = m.at q := by
  rw [Progress.at, AList.lookup_insert_ne hq, Progress.at]

theorem forall_insert {P : NodeID → Nat → Prop} {m : Progress} {p : NodeID} {v : Nat}
    (hm : ∀ q, P q (m.at q)) (hp : P p v) (q : NodeID) : P q (Progress.at (m.insert p v) q) := by
  by_cases hq : q = p
  · rw [hq, at_insert_self]
    exact hp
  · rw [at_insert_ne m v hq]
    exact hm q

theorem at_foldl_insert (m : Progress) (ps : List NodeID) (v : Nat) (q : NodeID) :
    Progress.at (ps.foldl (fun m p => m.insert p v) m) q = if q ∈ ps then v else m.at q := by
  induction ps generalizing m with
  | nil => rfl
  | cons p ps ih =>
    rw [List.foldl_cons, ih]
    by_cases hq : q ∈ ps
    · rw [if_pos hq, if_pos (List.mem_cons_of_mem _ hq)]
    · rw [if_neg hq]
      by_cases hp : q = p
      · subst hp
        rw [at_insert_self, if_pos List.mem_cons_self]
      · rw [at_insert_ne m v hp, if_neg (by simp [hp, hq])]

theorem at_foldl_erase_le (m : Progress) (ps : List NodeID) (q : NodeID) :
    Progress.at (ps.foldl (fun m p => m.erase p) m) q ≤ m.at q := by
  induction ps generalizing m with
  | nil => exact le_rfl
  | cons p ps ih =>
    refine (ih (m.erase p)).trans ?_
    by_cases hp : q = p
    · subst hp
      rw [Progress.at, AList.lookup_erase]
      exact Nat.zero_le _
    · rw [Progress.at, AList.lookup_erase_ne hp, Progress.at]

/-- What is kept of servers with a property, by looking at the keys. -/
theorem forall_at_eq_zero {m : Progress} {P : NodeID → Prop} :
    (∀ q, P q → m.at q = 0) ↔ ∀ x ∈ m.entries, P x.1 → x.2 = 0 := by
  constructor
  · rintro h ⟨q, v⟩ hx hq
    have hlook : m.lookup q = some v := AList.mem_lookup_iff.2 hx
    have hat := h q hq
    rw [Progress.at, hlook] at hat
    exact hat
  · intro h q hq
    rw [Progress.at]
    cases hlook : m.lookup q with
    | none => rfl
    | some v => exact h ⟨q, v⟩ (AList.mem_lookup_iff.1 hlook) hq

end Progress

namespace Server

variable {σ : Type}

/-! ## Configurations -/

/-- Using a configuration claims nothing about a peer that was not known before. -/
theorem useConfiguration_progress (s : Server σ) (servers : List NodeID) (q : NodeID) :
    (s.useConfiguration servers).nextIndex.at q ≤ max (s.nextIndex.at q) (s.log.lastIndex + 1) ∧
      ((s.useConfiguration servers).matchIndex.at q ≤ s.matchIndex.at q ∨
        (q = s.id ∧ (s.useConfiguration servers).matchIndex.at q ≤ s.log.lastIndex)) := by
  rw [useConfiguration]
  split
  · exact ⟨Nat.le_max_left _ _, .inl (le_rfl)⟩
  · dsimp only [trackMembers]
    constructor
    · refine (Progress.at_foldl_erase_le _ _ q).trans ?_
      rw [Progress.at_foldl_insert]
      split
      · exact Nat.le_max_right _ _
      · exact Nat.le_max_left _ _
    · by_cases hq : q = s.id
      · right
        rw [hq, Progress.at_insert_self]
        exact ⟨rfl, le_rfl⟩
      · left
        rw [Progress.at_insert_ne _ _ hq]
        refine (Progress.at_foldl_erase_le _ _ q).trans ?_
        rw [Progress.at_foldl_insert]
        split
        · exact Nat.zero_le _
        · exact le_rfl

theorem useConfiguration_frame (s : Server σ) (servers : List NodeID) :
    ∃ nextIndex matchIndex, s.useConfiguration servers =
      { s with peers := servers, nextIndex := nextIndex, matchIndex := matchIndex } := by
  rw [useConfiguration]
  split
  · exact ⟨s.nextIndex, s.matchIndex, rfl⟩
  · exact ⟨_, _, rfl⟩

/-- The peers after a change of the log: those of its newest configuration, if it has one. -/
theorem adoptConfigFromLog_frame (s : Server σ) :
    ∃ nextIndex matchIndex configChangeIndex, s.adoptConfigFromLog =
      { s with
        peers := ((latestConfig s.log).map Prod.snd).getD s.peers
        nextIndex := nextIndex
        matchIndex := matchIndex
        configChangeIndex := configChangeIndex } := by
  rw [adoptConfigFromLog]
  split
  next h => rw [h]; exact ⟨s.nextIndex, s.matchIndex, s.configChangeIndex, rfl⟩
  next i servers h =>
    obtain ⟨nextIndex, matchIndex, hu⟩ := s.useConfiguration_frame servers
    rw [h, hu]
    exact ⟨nextIndex, matchIndex, i, rfl⟩

theorem loadState_frame (s : Server σ) (st : Saved) :
    ∃ peers nextIndex matchIndex configChangeIndex, s.loadState st =
      { s with
        peers := peers
        currentTerm := st.term
        votedFor := st.votedFor
        log := st.log.decoded
        role := .follower
        commitIndex := 0
        lastApplied := 0
        nextIndex := nextIndex
        matchIndex := matchIndex
        configChangeIndex := configChangeIndex } := by
  obtain ⟨ni, mi, ci, h⟩ := adoptConfigFromLog_frame { s with
    currentTerm := st.term, votedFor := st.votedFor, log := st.log.decoded, role := .follower }
  rw [loadState, h]
  exact ⟨_, ni, mi, ci, rfl⟩

theorem loadState_log (s : Server σ) (st : Saved) : (s.loadState st).log = st.log.decoded := by
  obtain ⟨_, _, _, _, h⟩ := s.loadState_frame st
  rw [h]

theorem checkSelfRemoval_frame (s : Server σ) :
    s.checkSelfRemoval = s ∨
      s.checkSelfRemoval = { s with role := .follower, removedFromCluster := true } := by
  rw [checkSelfRemoval]
  split
  · exact .inl rfl
  split
  · exact .inl rfl
  split
  · exact .inl rfl
  · right
    rw [becomeFollower, if_neg (Nat.lt_irrefl _)]

/-! ## Applying -/

/-- The state machine after some entries. -/
def applyAll (m : StateMachine σ) (es : List LogEntry) (x : σ) : σ :=
  es.foldl (fun x e => applyEntry m e x) x

theorem applyLoop_frame (m : StateMachine σ) (n : Nat) (s : Server σ) :
    ∃ k x, k ≤ n ∧
      applyLoop m n s = { s with lastApplied := s.lastApplied + k, sm := x } := by
  induction n generalizing s with
  | zero => exact ⟨0, s.sm, Nat.le_refl 0, rfl⟩
  | succ n ih =>
    rw [applyLoop]
    split
    · exact ⟨0, s.sm, Nat.zero_le _, rfl⟩
    next e he =>
      obtain ⟨k, x, hk, hx⟩ :=
        ih { s with lastApplied := s.lastApplied + 1, sm := applyEntry m e s.sm }
      refine ⟨k + 1, x, Nat.succ_le_succ hk, ?_⟩
      rw [hx, Nat.add_assoc, Nat.add_comm 1 k]

theorem applyLoop_eq (m : StateMachine σ) {n : Nat} {s : Server σ} (hw : s.log.WF)
    (hbase : s.log.baseIndex ≤ s.lastApplied) (hlen : s.lastApplied + n ≤ s.log.logical.length) :
    applyLoop m n s = { s with
      lastApplied := s.lastApplied + n
      sm := applyAll m ((s.log.logical.drop s.lastApplied).take n) s.sm } := by
  induction n generalizing s with
  | zero => rfl
  | succ n ih =>
    have hlt : s.lastApplied < s.log.logical.length := by omega
    have hentry := hw.entryAt (i := s.lastApplied + 1) (by omega)
    rw [Nat.add_sub_cancel, List.getElem?_eq_getElem hlt] at hentry
    have hnext := ih (s := { s with lastApplied := s.lastApplied + 1,
                                    sm := applyEntry m s.log.logical[s.lastApplied] s.sm })
      hw (Nat.le_succ_of_le hbase) (by dsimp only; omega)
    rw [applyLoop, hentry]
    dsimp only
    rw [hnext, List.drop_eq_getElem_cons hlt, List.take_succ_cons, applyAll, applyAll,
      List.foldl_cons]
    dsimp only
    rw [Nat.add_assoc, Nat.add_comm 1 n]

theorem applyCommitted_frame (m : StateMachine σ) (s : Server σ) :
    ∃ k x, k ≤ s.commitIndex - s.lastApplied ∧
      (applyCommitted m s).1 = { s with lastApplied := s.lastApplied + k, sm := x } ∧
      ∀ w ∈ (applyCommitted m s).2, w = .saveApplied (s.lastApplied + k) := by
  obtain ⟨k, x, hk, hx⟩ := applyLoop_frame m (s.commitIndex - s.lastApplied) s
  refine ⟨k, x, hk, hx, fun w hw => ?_⟩
  rw [applyCommitted, hx] at hw
  dsimp only at hw
  split at hw
  · exact List.mem_singleton.1 hw
  · cases hw

/-! ## Committing -/

theorem commitCandidate_spec {s : Server σ} {n i : Nat} (h : s.commitCandidate n = some i) :
    s.commitIndex < i ∧ i ≤ n ∧ s.canCommit i = true := by
  induction n with
  | zero => cases h
  | succ n ih =>
    rw [commitCandidate] at h
    split at h
    · cases h
    next hlt =>
      split at h
      next hc =>
        cases h
        exact ⟨by omega, le_rfl, hc⟩
      next =>
        obtain ⟨h1, h2, h3⟩ := ih h
        exact ⟨h1, Nat.le_succ_of_le h2, h3⟩

/-- A leader commits, applies and perhaps leaves, or nothing happens. -/
theorem advanceCommitIndex_cases (m : StateMachine σ) (s : Server σ) :
    s.advanceCommitIndex m = (s, []) ∨
      ∃ i, s.role = .leader ∧ s.commitIndex < i ∧ i ≤ s.log.lastIndex ∧ s.canCommit i = true ∧
        s.advanceCommitIndex m =
          ((applyCommitted m { s with commitIndex := i }).1.checkSelfRemoval,
            (applyCommitted m { s with commitIndex := i }).2) := by
  rw [advanceCommitIndex]
  split
  · exact .inl rfl
  next hrole =>
    rw [not_not] at hrole
    split
    · exact .inl rfl
    next i hi =>
      obtain ⟨h1, h2, h3⟩ := commitCandidate_spec hi
      exact .inr ⟨i, hrole, h1, h2, h3, rfl⟩

theorem advanceCommitIndex_frame (m : StateMachine σ) (s : Server σ) :
    ∃ c k x role removed, (role = s.role ∨ role = .follower) ∧
      (s.advanceCommitIndex m).1 = { s with
        commitIndex := c, lastApplied := s.lastApplied + k, sm := x, role := role,
        removedFromCluster := removed } ∧
      ∀ w ∈ (s.advanceCommitIndex m).2, w = .saveApplied (s.lastApplied + k) := by
  rcases s.advanceCommitIndex_cases m with h | ⟨i, -, -, -, -, h⟩
  · rw [h]
    exact ⟨s.commitIndex, 0, s.sm, s.role, s.removedFromCluster, .inl rfl, rfl, nofun⟩
  · obtain ⟨k, x, -, hx, hws⟩ := applyCommitted_frame m { s with commitIndex := i }
    rw [h, hx]
    rcases checkSelfRemoval_frame
      ({ s with commitIndex := i, lastApplied := s.lastApplied + k, sm := x } : Server σ) with hc |
        hc
    · exact ⟨i, k, x, s.role, s.removedFromCluster, .inl rfl, hc, hws⟩
    · exact ⟨i, k, x, .follower, true, .inr rfl, hc, hws⟩

/-! What `advanceCommitIndex` leaves alone. -/

section Advance

variable (m : StateMachine σ) (s : Server σ)

@[simp] theorem id_advance : (s.advanceCommitIndex m).1.id = s.id := by
  obtain ⟨c, k, x, role, removed, -, h, -⟩ := s.advanceCommitIndex_frame m
  rw [h]

@[simp] theorem peers_advance : (s.advanceCommitIndex m).1.peers = s.peers := by
  obtain ⟨c, k, x, role, removed, -, h, -⟩ := s.advanceCommitIndex_frame m
  rw [h]

@[simp] theorem currentTerm_advance : (s.advanceCommitIndex m).1.currentTerm = s.currentTerm := by
  obtain ⟨c, k, x, role, removed, -, h, -⟩ := s.advanceCommitIndex_frame m
  rw [h]

@[simp] theorem log_advance : (s.advanceCommitIndex m).1.log = s.log := by
  obtain ⟨c, k, x, role, removed, -, h, -⟩ := s.advanceCommitIndex_frame m
  rw [h]

@[simp] theorem nextIndex_advance : (s.advanceCommitIndex m).1.nextIndex = s.nextIndex := by
  obtain ⟨c, k, x, role, removed, -, h, -⟩ := s.advanceCommitIndex_frame m
  rw [h]

@[simp] theorem matchIndex_advance : (s.advanceCommitIndex m).1.matchIndex = s.matchIndex := by
  obtain ⟨c, k, x, role, removed, -, h, -⟩ := s.advanceCommitIndex_frame m
  rw [h]

end Advance

/-! A reply changes the page of its peer, and no other. -/

theorem recordMatch_frame (s : Server σ) (peer : NodeID) (k : Nat) :
    ∃ ni mi, s.recordMatch peer k = { s with nextIndex := ni, matchIndex := mi } ∧
      ∀ q, q ≠ peer → ni.at q = s.nextIndex.at q ∧ mi.at q = s.matchIndex.at q := by
  rw [recordMatch]
  split
  · exact ⟨_, _, rfl, fun q hq => ⟨Progress.at_insert_ne _ _ hq, Progress.at_insert_ne _ _ hq⟩⟩
  · exact ⟨_, _, rfl, fun _ _ => ⟨rfl, rfl⟩⟩

theorem backUp_frame (s : Server σ) (peer : NodeID) :
    ∃ ni, s.backUp peer = { s with nextIndex := ni } ∧
      ∀ q, q ≠ peer → ni.at q = s.nextIndex.at q := by
  rw [backUp]
  split
  · exact ⟨_, rfl, fun q hq => Progress.at_insert_ne _ _ hq⟩
  · exact ⟨_, rfl, fun _ _ => rfl⟩

theorem recordSnapshot_frame (s : Server σ) (peer : NodeID) (idx : Nat) :
    ∃ ni mi, s.recordSnapshot peer idx = { s with nextIndex := ni, matchIndex := mi } ∧
      ∀ q, q ≠ peer → ni.at q = s.nextIndex.at q ∧ mi.at q = s.matchIndex.at q := by
  refine ⟨_, _, rfl, fun q hq => ⟨?_, ?_⟩⟩
  · split
    · exact Progress.at_insert_ne _ _ hq
    · rfl
  · split
    · exact Progress.at_insert_ne _ _ hq
    · rfl

/-- The leader with the entry of a new configuration in its log, noted as the last change. -/
def appendConfig (s : Server σ) (next : Configuration) : Server σ :=
  { s.appendOwn (encodeConfig next) with configChangeIndex := s.log.lastIndex + 1 }

section Changes

variable {s s' : Server σ} {mutate : Configuration → Option Configuration} {ws : List Write}

theorem changeConfiguration_eq (h : s.changeConfiguration mutate = some (s', ws)) :
    s.role = .leader ∧ s.id ∈ s.peers ∧ s.configChangeIndex ≤ s.commitIndex ∧
      ∃ next, mutate ⟨s.peers⟩ = some next ∧ Configuration.differsByOne ⟨s.peers⟩ next = true ∧
        s' = (s.appendConfig next).useConfiguration next.servers ∧ ws = [s'.persist] := by
  rw [changeConfiguration] at h
  split at h
  · cases h
  next hrole =>
    split at h
    · cases h
    next hmem =>
      split at h
      · cases h
      next hidx =>
        split at h
        · cases h
        next next hnext =>
          split at h
          · cases h
          next hone =>
            cases h
            rw [Bool.not_eq_false] at hone hmem
            exact ⟨not_not.1 hrole, List.contains_iff_mem.1 hmem,
              Nat.le_of_not_lt hidx, next, hnext,
              hone, rfl, rfl⟩

/-- The server with the entry of a new configuration, which it uses from then on. -/
def configured (s : Server σ) (next : Configuration) (nextIndex matchIndex : Progress) :
    Server σ :=
  { s.appendConfig next with
    peers := next.servers
    nextIndex := nextIndex
    matchIndex := matchIndex }

theorem changeConfiguration_cases (h : s.changeConfiguration mutate = some (s', ws)) :
    s.role = .leader ∧ s.id ∈ s.peers ∧ s.configChangeIndex ≤ s.commitIndex ∧
      ∃ next nextIndex matchIndex, mutate ⟨s.peers⟩ = some next ∧
        Configuration.differsByOne ⟨s.peers⟩ next = true ∧
        s' = s.configured next nextIndex matchIndex ∧ ws = [s'.persist] := by
  obtain ⟨hrole, hmem, hidx, next, hnext, hone, hs', hws⟩ := changeConfiguration_eq h
  obtain ⟨ni, mi, hu⟩ := (s.appendConfig next).useConfiguration_frame next.servers
  exact ⟨hrole, hmem, hidx, next, ni, mi, hnext, hone, hs'.trans hu, hws⟩

end Changes

/-! ## The handlers -/

theorem becomeFollower_frame (s : Server σ) (t : Nat) :
    s.becomeFollower t = { s with
      role := .follower
      currentTerm := max s.currentTerm t
      votedFor := if s.currentTerm < t then none else s.votedFor } := by
  rw [becomeFollower]
  split
  next h => rw [Nat.max_eq_right h.le]
  next h => rw [Nat.max_eq_left (Nat.le_of_not_lt h)]

theorem observeTerm_frame (s : Server σ) (t : Nat) :
    s.observeTerm t = { s with
      role := if s.currentTerm < t then .follower else s.role
      currentTerm := max s.currentTerm t
      votedFor := if s.currentTerm < t then none else s.votedFor } := by
  rw [observeTerm]
  split
  next h =>
    rw [becomeFollower, if_pos h, Nat.max_eq_right h.le]
  next h => rw [Nat.max_eq_left (Nat.le_of_not_lt h)]

theorem followLeader_frame (s : Server σ) (t : Nat) (leader : NodeID) :
    ∃ role, (role = s.role ∧ ¬ s.currentTerm < t ∧ (role = .candidate → t ≠ s.currentTerm) ∨
        role = .follower) ∧
      s.followLeader t leader = { s with
        role := role
        currentTerm := max s.currentTerm t
        votedFor := if s.currentTerm < t then none else s.votedFor
        leaderID := leader } := by
  rw [followLeader, observeTerm_frame]
  refine ⟨_, ?_, rfl⟩
  dsimp only
  by_cases hlt : s.currentTerm < t
  · right
    rw [if_pos hlt, if_neg (by simp)]
  · rw [if_neg hlt, Nat.max_eq_left (Nat.le_of_not_lt hlt)]
    by_cases hc : s.role = .candidate ∧ t = s.currentTerm
    · exact .inr (if_pos hc)
    · rw [if_neg hc]
      exact .inl ⟨rfl, hlt, fun hr ht => hc ⟨hr, ht⟩⟩

theorem heedSnapshot_frame (s : Server σ) (t : Nat) (leader : NodeID) :
    s.heedSnapshot t leader = { s with
      role := if s.currentTerm < t then .follower else s.role
      currentTerm := max s.currentTerm t
      votedFor := if s.currentTerm < t then none else s.votedFor
      leaderID := leader } := by
  rw [heedSnapshot]
  split
  next h => rw [Nat.max_eq_right h.le]
  next h => rw [Nat.max_eq_left (Nat.le_of_not_lt h)]

/-- The server with the entries of a request, and what it takes from a configuration in them. -/
def received (s : Server σ) (prev : Nat) (entries : List LogEntry) (peers : List NodeID)
    (nextIndex matchIndex : Progress) (configChangeIndex : Nat) : Server σ :=
  { s with
    log := (s.log.appendFrom prev entries).1
    peers := peers
    nextIndex := nextIndex
    matchIndex := matchIndex
    configChangeIndex := configChangeIndex }

theorem takeEntries_frame (s : Server σ) (prev : Nat) (entries : List LogEntry) :
    ∃ peers ni mi ci, (s.takeEntries prev entries).1 = s.received prev entries peers ni mi ci ∧
      peers = if (s.log.appendFrom prev entries).2 then
          ((latestConfig (s.log.appendFrom prev entries).1).map Prod.snd).getD s.peers
        else s.peers := by
  rw [takeEntries]
  dsimp only
  split
  · obtain ⟨ni, mi, ci, h⟩ :=
      adoptConfigFromLog_frame { s with log := (s.log.appendFrom prev entries).1 }
    rw [h]
    exact ⟨_, ni, mi, ci, rfl, rfl⟩
  · exact ⟨s.peers, s.nextIndex, s.matchIndex, s.configChangeIndex, rfl, rfl⟩

theorem learnCommit_frame (m : StateMachine σ) (s : Server σ) (leaderCommit lastNew : Nat) :
    ∃ c k x, (learnCommit m s leaderCommit lastNew).1 =
        { s with commitIndex := c, lastApplied := s.lastApplied + k, sm := x } ∧
      ∀ w ∈ (learnCommit m s leaderCommit lastNew).2, w = .saveApplied (s.lastApplied + k) := by
  rw [learnCommit]
  split
  · obtain ⟨k, x, -, hx, hws⟩ :=
      applyCommitted_frame m { s with commitIndex := min leaderCommit lastNew }
    rw [hx]
    exact ⟨_, k, x, rfl, hws⟩
  · exact ⟨s.commitIndex, 0, s.sm, rfl, nofun⟩

theorem appendEntries_cases (m : StateMachine σ) (s : Server σ) (args : AppendEntriesArgs) :
    ((s.stopped = true ∨ args.term < s.currentTerm) ∧
        s.appendEntries m args = (s, [], ⟨s.currentTerm, false⟩)) ∨
      (s.currentTerm ≤ args.term ∧
        (s.log.matchesPrevLog args.prevLogIndex args.prevLogTerm = false) ∧
        s.appendEntries m args = (s.followLeader args.term args.leaderID,
          if s.currentTerm < args.term then [(s.followLeader args.term args.leaderID).persist]
          else [], ⟨args.term, false⟩)) ∨
      (s.currentTerm ≤ args.term ∧
        s.log.matchesPrevLog args.prevLogIndex args.prevLogTerm = true ∧
        ∃ s₂ : Server σ, s₂ = ((s.followLeader args.term args.leaderID).takeEntries
            args.prevLogIndex args.entries).1 ∧
          s.appendEntries m args =
            ((learnCommit m s₂ args.leaderCommit (args.prevLogIndex + args.entries.length)).1,
              (if (s.log.appendFrom args.prevLogIndex args.entries).2 ∨ s.currentTerm < args.term
                then [s₂.persist] else []) ++
                (learnCommit m s₂ args.leaderCommit
                  (args.prevLogIndex + args.entries.length)).2,
              ⟨args.term, true⟩)) := by
  rw [appendEntries]
  by_cases hold : s.stopped = true ∨ args.term < s.currentTerm
  · exact .inl ⟨hold, if_pos hold⟩
  have hle : s.currentTerm ≤ args.term := by
    rw [not_or] at hold
    omega
  obtain ⟨role, -, hf⟩ := s.followLeader_frame args.term args.leaderID
  have hlog : (s.followLeader args.term args.leaderID).log = s.log := by rw [hf]
  have hterm : (s.followLeader args.term args.leaderID).currentTerm = args.term := by
    rw [hf]
    exact Nat.max_eq_right hle
  right
  rw [if_neg hold]
  dsimp only
  rw [hlog]
  cases hm : s.log.matchesPrevLog args.prevLogIndex args.prevLogTerm with
  | false =>
    left
    refine ⟨hle, rfl, ?_⟩
    rw [if_pos rfl, hterm]
    simp only [decide_eq_true_eq]
  | true =>
    right
    refine ⟨hle, rfl, _, rfl, ?_⟩
    rw [if_neg (by simp)]
    have htake : ((s.followLeader args.term args.leaderID).takeEntries args.prevLogIndex
        args.entries).2 = (s.log.appendFrom args.prevLogIndex args.entries).2 := by
      rw [takeEntries, hlog]
    obtain ⟨peers, ni, mi, ci, ht, -⟩ := (s.followLeader args.term args.leaderID).takeEntries_frame
      args.prevLogIndex args.entries
    obtain ⟨c, k, x, hl, -⟩ :=
      learnCommit_frame m ((s.followLeader args.term args.leaderID).takeEntries
      args.prevLogIndex args.entries).1 args.leaderCommit (args.prevLogIndex + args.entries.length)
    have hfinal : (learnCommit m ((s.followLeader args.term args.leaderID).takeEntries
        args.prevLogIndex args.entries).1 args.leaderCommit
        (args.prevLogIndex + args.entries.length)).1.currentTerm = args.term := by
      rw [hl, ht]
      exact hterm
    rw [hfinal, htake]
    simp only [Bool.or_eq_true, decide_eq_true_eq]

theorem requestVote_cases (s : Server σ) (args : RequestVoteArgs) (recent : Bool) :
    s.requestVote args recent = (s, [], ⟨s.currentTerm, false⟩) ∨
      (s.currentTerm ≤ args.term ∧ s.requestVote args recent = (s.observeTerm args.term,
        if s.currentTerm < args.term then [(s.observeTerm args.term).persist] else [],
        ⟨args.term, false⟩)) ∨
      (s.currentTerm ≤ args.term ∧
        ((s.observeTerm args.term).votedFor = none ∨
          (s.observeTerm args.term).votedFor = some args.candidateID) ∧
        s.log.isUpToDate args.lastLogIndex args.lastLogTerm = true ∧
        ∃ s₂ : Server σ, s₂ = { s.observeTerm args.term with votedFor := some args.candidateID } ∧
          s.requestVote args recent = (s₂, [s₂.persist], ⟨args.term, true⟩)) := by
  rw [requestVote]
  by_cases hold : s.stopped = true ∨ args.term < s.currentTerm
  · exact .inl (if_pos hold)
  rw [if_neg hold]
  by_cases hrecent : s.leaderID ≠ [] ∧ s.role = .follower ∧ recent = true
  · exact .inl (if_pos hrecent)
  rw [if_neg hrecent]
  have hle : s.currentTerm ≤ args.term := by
    rw [not_or] at hold
    omega
  have hlog : (s.observeTerm args.term).log = s.log := by rw [observeTerm_frame]
  have hterm : (s.observeTerm args.term).currentTerm = args.term := by
    rw [observeTerm_frame]
    exact Nat.max_eq_right hle
  right
  dsimp only
  rw [hlog]
  split
  · left
    refine ⟨hle, ?_⟩
    rw [hterm]
    simp only [decide_eq_true_eq]
  next hno =>
    right
    rw [not_or, not_and_or, not_not, not_not, Bool.not_eq_false] at hno
    exact ⟨hle, hno.1, hno.2, _, rfl, by rw [hterm]⟩

theorem installSnapshot_cases (m : StateMachine σ) (s : Server σ) (args : InstallSnapshotArgs) :
    (args.term < s.currentTerm ∧ s.installSnapshot m args = (s, [], ⟨s.currentTerm⟩)) ∨
      (s.currentTerm ≤ args.term ∧
        (args.snapshot.lastIncludedIndex ≤ s.log.baseIndex ∨
          args.snapshot.lastIncludedIndex ≤ s.lastApplied ∨
          (m.snapshotter.bind fun r => r.restoreSnapshot args.snapshot.data s.sm) = none) ∧
        s.installSnapshot m args = (s.heedSnapshot args.term args.leaderID, [], ⟨args.term⟩)) ∨
      (s.currentTerm ≤ args.term ∧ s.log.baseIndex < args.snapshot.lastIncludedIndex ∧
        s.lastApplied < args.snapshot.lastIncludedIndex ∧
        ∃ x, (m.snapshotter.bind fun r => r.restoreSnapshot args.snapshot.data s.sm) = some x ∧
        ∃ s₂ : Server σ,
          s₂ = (s.heedSnapshot args.term args.leaderID).adoptSnapshot args.snapshot x ∧
          s.installSnapshot m args =
            (s₂, [.saveSnapshot args.snapshot, s₂.persist], ⟨args.term⟩)) := by
  rw [installSnapshot]
  by_cases hold : args.term < s.currentTerm
  · exact .inl ⟨hold, if_pos hold⟩
  have hle : s.currentTerm ≤ args.term := Nat.le_of_not_lt hold
  have hheed : (s.heedSnapshot args.term args.leaderID).log = s.log ∧
      (s.heedSnapshot args.term args.leaderID).lastApplied = s.lastApplied ∧
      (s.heedSnapshot args.term args.leaderID).sm = s.sm ∧
      (s.heedSnapshot args.term args.leaderID).currentTerm = args.term := by
    rw [heedSnapshot_frame]
    exact ⟨rfl, rfl, rfl, Nat.max_eq_right hle⟩
  obtain ⟨hlog, happ, hsm, hterm⟩ := hheed
  right
  rw [if_neg hold]
  dsimp only
  rw [hlog, happ, hsm, hterm]
  by_cases hcov : args.snapshot.lastIncludedIndex ≤ s.log.baseIndex ∨
      args.snapshot.lastIncludedIndex ≤ s.lastApplied
  · exact .inl ⟨hle, hcov.imp_right .inl, if_pos hcov⟩
  rw [if_neg hcov]
  cases hx : m.snapshotter.bind fun r => r.restoreSnapshot args.snapshot.data s.sm with
  | none => exact .inl ⟨hle, .inr (.inr rfl), rfl⟩
  | some x =>
    rw [not_or, Nat.not_le, Nat.not_le] at hcov
    have hadopt : ((s.heedSnapshot args.term args.leaderID).adoptSnapshot args.snapshot
        x).currentTerm = args.term := hterm
    exact .inr ⟨hle, hcov.1, hcov.2, x, rfl, _, rfl, by dsimp only; rw [hadopt]⟩

end Server
end CoreBank.Raft
