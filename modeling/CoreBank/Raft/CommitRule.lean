import CoreBank.Raft.Cursors
import CoreBank.Raft.Stopped

/-!
# The commit rule is applied

A leader commits an index of its own term that a majority of its peers is known to match.
`advanceCommitIndexLocked` looks for the largest such index, and it is called where the log grows
and where a match grows.  It is not called where the configuration changes: an index can become due
by the removal of a server, and then waits for the next reply.

`commit_rule_applied` says when nothing is ever left due: if servers are removed only from
configurations of odd size, whose majority does not shrink, or when everything was committed before.
-/

set_option autoImplicit false

namespace CoreBank.Raft

open ActionSystem

variable {σ : Type}

namespace Server

variable {s s' : Server σ}

/-- The rule allows to commit the index, and it is not committed. -/
structure CommitDue (s : Server σ) (n : Nat) : Prop where
  above : s.commitIndex < n
  within : n ≤ s.log.lastIndex
  term : s.log.termAt n = some s.currentTerm
  majority : s.majority ≤ s.peers.countP fun p => decide (n ≤ s.matchIndex.at p)

theorem CommitDue.canCommit {n : Nat} (h : s.CommitDue n) : s.canCommit n = true := by
  rw [Server.canCommit, h.term, Bool.and_eq_true, beq_self_eq_true, decide_eq_true_eq]
  exact ⟨rfl, h.majority⟩

theorem le_commitCandidate {j : Nat} (hj : s.commitIndex < j) (hcan : s.canCommit j = true) :
    ∀ {n : Nat}, j ≤ n → ∃ i, s.commitCandidate n = some i ∧ j ≤ i := by
  intro n
  induction n with
  | zero =>
    intro hle
    omega
  | succ n ih =>
    intro hle
    rw [commitCandidate, if_neg (by omega)]
    split
    · exact ⟨n + 1, rfl, hle⟩
    next hno =>
      refine ih ?_
      have hne : j ≠ n + 1 := fun he => hno (he ▸ hcan)
      omega

/-- **After the rule was applied nothing is due.** -/
theorem not_commitDue_advance (m : StateMachine σ) (hrole : s.role = .leader) (n : Nat) :
    ¬ (s.advanceCommitIndex m).1.CommitDue n := by
  intro hdue
  rw [advanceCommitIndex, if_neg (not_not.2 hrole)] at hdue
  split at hdue
  next hnone =>
    obtain ⟨i, hi, -⟩ := le_commitCandidate hdue.above hdue.canCommit hdue.within
    rw [hnone] at hi
    cases hi
  next i hsome =>
    obtain ⟨k, x, -, happ, -⟩ := applyCommitted_frame m { s with commitIndex := i }
    have hbooks : ∃ role removed lastApplied sm,
        (applyCommitted m { s with commitIndex := i }).1.checkSelfRemoval =
          { s with
            commitIndex := i, role := role, removedFromCluster := removed
            lastApplied := lastApplied, sm := sm } := by
      rcases (applyCommitted m { s with commitIndex := i }).1.checkSelfRemoval_frame with h | h
      · rw [h, happ]
        exact ⟨_, _, _, _, rfl⟩
      · rw [h, happ]
        exact ⟨_, _, _, _, rfl⟩
    obtain ⟨role, removed, k', x', heq⟩ := hbooks
    dsimp only at hdue
    rw [heq] at hdue
    obtain ⟨habove, hwithin, hterm, hmaj⟩ := hdue
    have hold : s.CommitDue n :=
      ⟨(commitCandidate_spec hsome).1.trans habove, hwithin, hterm, hmaj⟩
    obtain ⟨j, hj, hle⟩ := le_commitCandidate hold.above hold.canCommit hold.within
    rw [hsome] at hj
    cases hj
    have hlt : i < n := habove
    omega

theorem SameBooks.commitDue (h : s.SameBooks s') {n : Nat} (hdue : s'.CommitDue n) :
    s.CommitDue n := by
  obtain ⟨habove, hwithin, hterm, hmaj⟩ := hdue
  refine ⟨h.commitIndex ▸ habove, h.lastIndex ▸ hwithin, ?_, ?_⟩
  · rw [← h.term]
    exact h.termAt n _ hterm
  · rw [Server.majority, h.peers, h.matchIndex] at hmaj
    exact hmaj

theorem commitDue_of_backUp {peer : NodeID} {n : Nat} (hdue : (s.backUp peer).CommitDue n) :
    s.CommitDue n := by
  rw [backUp] at hdue
  split at hdue
  · exact ⟨hdue.above, hdue.within, hdue.term, hdue.majority⟩
  · exact hdue

end Server

/-! ## A change of the configuration -/

theorem termAt_push {l : Log} (hw : l.WF) {t n : Nat} {cmd : Option Bytes} (hn : n ≤ l.lastIndex) :
    (l.push ⟨t, l.lastIndex + 1, cmd⟩).termAt n = l.termAt n := by
  rw [hw.lastIndex] at hn ⊢
  by_cases hbase : n < l.baseIndex
  · have hnone (l' : Log) (h : n < l'.baseIndex) : l'.termAt n = none := by
      rw [Log.termAt, Log.entryAt, if_pos (.inl h)]
      rfl
    rw [hnone l hbase, hnone (l.push ⟨t, l.logical.length + 1, cmd⟩) hbase]
  · have hlen : n ≤ (l.push ⟨t, l.logical.length + 1, cmd⟩).logical.length := by
      rw [Log.logical_push, List.length_append]
      exact hn.trans (Nat.le_add_right _ _)
    have hbase' : (l.push ⟨t, l.logical.length + 1, cmd⟩).baseIndex ≤ n := Nat.not_lt.1 hbase
    rw [hw.push.termAt hbase' hlen, hw.termAt (Nat.not_lt.1 hbase) hn, Log.abs, Log.logical_push,
      List.map_append, List.take_append_of_le_length (by rw [List.length_map]; exact hn)]
    rfl

namespace Server

variable {s s' : Server σ}

/-- What the leader knows of itself and of its peers lies within its log. -/
structure Accounts (s : Server σ) : Prop where
  own : s.matchIndex.at s.id = s.log.lastIndex
  others : ∀ q ∈ s.peers, q ≠ s.id → s.matchIndex.at q ≤ s.log.lastIndex

/-- The books after a change of the configuration. -/
structure Changed (s : Server σ) (next : Configuration) (s' : Server σ) : Prop where
  id : s'.id = s.id
  peers : s'.peers = next.servers
  commitIndex : s'.commitIndex = s.commitIndex
  term : s'.currentTerm = s.currentTerm
  lastIndex : s'.log.lastIndex = s.log.lastIndex + 1
  termAt : ∀ n, n ≤ s.log.lastIndex → s'.log.termAt n = s.log.termAt n
  own : s'.matchIndex.at s.id = s.log.lastIndex + 1
  others : ∀ q, q ≠ s.id → s'.matchIndex.at q ≤ s.matchIndex.at q
  /-- A server without a page starts with none of the log. -/
  added : ∀ q ∈ next.servers, q ≠ s.id → q ∉ s.nextIndex → s'.matchIndex.at q = 0

theorem changed_of_changeConfiguration (hw : s.log.WF)
    {mutate : Configuration → Option Configuration} {ws : List Write}
    (hs : s.changeConfiguration mutate = some (s', ws)) :
    ∃ next, mutate ⟨s.peers⟩ = some next ∧ s.Changed next s' := by
  obtain ⟨hrole, -, -, next, hnext, -, rfl, -⟩ := changeConfiguration_eq hs
  refine ⟨next, hnext, ?_⟩
  have hprog := (s.appendConfig next).useConfiguration_progress next.servers
  have hlast : (s.appendConfig next).log.lastIndex = s.log.lastIndex + 1 := Log.lastIndex_push _ _
  have huse : (s.appendConfig next).useConfiguration next.servers =
      s.configured next (trackMembers next.servers (s.log.lastIndex + 1 + 1) s.nextIndex
        (s.matchIndex.insert s.id (s.log.lastIndex + 1))).1
      ((trackMembers next.servers (s.log.lastIndex + 1 + 1) s.nextIndex
        (s.matchIndex.insert s.id (s.log.lastIndex + 1))).2.insert s.id
          (s.log.lastIndex + 1)) := by
    have hrole' : (s.appendConfig next).role = .leader := hrole
    rw [useConfiguration, if_neg (not_not.2 hrole')]
    dsimp only
    rw [hlast]
    rfl
  rw [huse] at hprog ⊢
  refine ⟨rfl, rfl, rfl, rfl, hlast, fun n hn => termAt_push hw hn, Progress.at_insert_self _ _ _,
    fun q hq => ?_, fun q hmem hq hkey => ?_⟩
  · rcases (hprog q).2 with hle | ⟨he, -⟩
    · exact hle.trans (Nat.le_of_eq (Progress.at_insert_ne _ _ hq))
    · exact absurd he hq
  · rw [configured, Progress.at_insert_ne _ _ hq, (at_trackMembers _ _ _ hmem).2, if_neg hkey]

variable {next : Configuration}

/-- An index that was within the log is matched by no more of the servers than before. -/
theorem Changed.countP_le (hc : s.Changed next s') (hacc : s.Accounts) {n : Nat}
    (hn : n ≤ s.log.lastIndex) (l : List NodeID) :
    (l.countP fun q => decide (n ≤ s'.matchIndex.at q)) ≤
      l.countP fun q => decide (n ≤ s.matchIndex.at q) := by
  refine List.countP_mono_left fun q _ hq => ?_
  rw [decide_eq_true_eq] at hq ⊢
  by_cases hid : q = s.id
  · rw [hid, hacc.own]
    exact hn
  · exact hq.trans (hc.others q hid)

/-- The entry of the change itself is matched by the leader only. -/
theorem Changed.not_due_new (hc : s.Changed next s') (hnd : next.servers.Nodup)
    (htwo : 2 ≤ next.servers.length)
    (hothers : ∀ q ∈ next.servers, q ≠ s.id → s'.matchIndex.at q ≤ s.log.lastIndex) :
    ¬ s'.CommitDue (s.log.lastIndex + 1) := by
  intro hdue
  have hle : (next.servers.countP fun q => decide (s.log.lastIndex + 1 ≤ s'.matchIndex.at q))
    ≤ 1 := by
    refine le_trans (List.countP_mono_left fun q hmem hq => ?_)
      (List.nodup_iff_count_le_one.1 hnd s.id)
    rw [decide_eq_true_eq] at hq
    by_contra hne
    have hid : q ≠ s.id := fun he => hne (beq_iff_eq.2 he)
    have := hothers q hmem hid
    omega
  have hmaj := hdue.majority
  rw [Server.majority, hc.peers] at hmaj
  omega

/-- A larger configuration makes nothing due. -/
theorem not_commitDue_addServer (hw : s.log.WF) (hacc : s.Accounts) (hnd : s.peers.Nodup)
    {x : NodeID} (hx : x ∉ s.nextIndex) {ws : List Write} (hs : s.addServer x = some (s', ws))
    (hno : ∀ n, ¬ s.CommitDue n) (n : Nat) : ¬ s'.CommitDue n := by
  obtain ⟨-, hid, -⟩ := changeConfiguration_eq hs
  obtain ⟨next, hnext, hc⟩ := changed_of_changeConfiguration hw hs
  rw [Option.ite_none_left_eq_some] at hnext
  obtain ⟨hnew, ⟨⟩⟩ := hnext
  have hxp : x ∉ s.peers := fun h => hnew (List.contains_iff_mem.2 h)
  have hperm : (Configuration.withServer ⟨s.peers⟩ x).servers.Perm (x :: s.peers) :=
    Configuration.perm_withServer hxp
  have hxid : x ≠ s.id := fun he => hxp (he ▸ hid)
  have hzero : s'.matchIndex.at x = 0 :=
    hc.added x (Configuration.mem_withServer.2 (.inr rfl)) hxid hx
  have hlen := hperm.length_eq
  rw [List.length_cons] at hlen
  have hpos : 0 < s.peers.length := List.length_pos_of_mem hid
  intro hdue
  have hn := hdue.within
  rw [hc.lastIndex] at hn
  rcases Nat.lt_or_ge s.log.lastIndex n with hlt | hle
  · obtain rfl : n = s.log.lastIndex + 1 := by omega
    refine hc.not_due_new (Configuration.nodup_withServer hnd x) (by omega) (fun q hmem hq => ?_)
      hdue
    rcases Configuration.mem_withServer.1 hmem with hq' | rfl
    · exact (hc.others q hq).trans (hacc.others q hq' hq)
    · rw [hzero]
      exact Nat.zero_le _
  · refine hno n ⟨hc.commitIndex ▸ hdue.above, hle, ?_, ?_⟩
    · rw [← hc.termAt n hle, hdue.term, hc.term]
    · have hmaj := hdue.majority
      rw [Server.majority, hc.peers, hperm.countP_eq, List.countP_cons, hzero] at hmaj
      have hcount := hc.countP_le hacc hle s.peers
      have habove := hdue.above
      rw [if_neg (by simp; omega)] at hmaj
      rw [Server.majority]
      omega

/-- A smaller configuration makes nothing due if its majority is the same, or if nothing was
pending and the change itself needs another server. -/
theorem not_commitDue_removeServer (hw : s.log.WF) (hacc : s.Accounts) (hnd : s.peers.Nodup)
    {x : NodeID} {ws : List Write} (hs : s.removeServer x = some (s', ws))
    (hsize : s.peers.length % 2 = 1 ∨ (2 < s.peers.length ∧ s.log.lastIndex = s.commitIndex))
    (hno : ∀ n, ¬ s.CommitDue n) (n : Nat) : ¬ s'.CommitDue n := by
  obtain ⟨-, hcount, hlast⟩ := removeServer_iff.1 ⟨_, hs⟩
  obtain ⟨next, hnext, hc⟩ := changed_of_changeConfiguration hw hs
  rw [Option.ite_none_left_eq_some, Option.ite_none_left_eq_some] at hnext
  obtain ⟨-, -, ⟨⟩⟩ := hnext
  have hsub : (Configuration.withoutServer ⟨s.peers⟩ x).servers.Sublist s.peers :=
    List.filter_sublist
  have hlen := length_withoutServer ⟨s.peers⟩ x
  dsimp only at hlen
  have hpos : 0 < s.peers.length := List.length_pos_of_mem
    (List.count_pos_iff.1 (hcount ▸ Nat.one_pos : 0 < s.peers.count x))
  intro hdue
  have hn := hdue.within
  rw [hc.lastIndex] at hn
  rcases Nat.lt_or_ge s.log.lastIndex n with hlt | hle
  · obtain rfl : n = s.log.lastIndex + 1 := by omega
    refine hc.not_due_new (hnd.sublist hsub) (by omega) (fun q hmem hq => ?_) hdue
    exact (hc.others q hq).trans (hacc.others q (hsub.subset hmem) hq)
  · have habove := hdue.above
    rw [hc.commitIndex] at habove
    refine hno n ⟨habove, hle, ?_, ?_⟩
    · rw [← hc.termAt n hle, hdue.term, hc.term]
    · have hmaj := hdue.majority
      rw [Server.majority, hc.peers] at hmaj
      have hless := (hsub.countP_le (p := fun q => decide (n ≤ s'.matchIndex.at q))).trans
        (hc.countP_le hacc hle s.peers)
      rw [Server.majority]
      omega

end Server

/-! ## Whole runs -/

/-- Servers are removed only where the majority stays or nothing is pending, and added only where
the books have no page of them; no leader is told of another of its own term. -/
def Process.Steered (w : World σ) (id : NodeID) (p : Process σ) : Local → Prop
  | .addServer x => p.server.peers.Nodup ∧ x ∉ p.server.nextIndex.keys
  | .removeServer _ => p.server.peers.Nodup ∧ (p.server.peers.length % 2 = 1 ∨
      (2 < p.server.peers.length ∧ p.server.log.lastIndex = p.server.commitIndex))
  | .deliver call recent => p.Undisputed w id (.deliver call recent)
  | _ => True

instance (w : World σ) (id : NodeID) (p : Process σ) (a : Local) :
    Decidable (p.Steered w id a) := by
  induction a using Local.casesOn <;> unfold Process.Steered <;> infer_instance

/-- The action is one of a server whose section is steered. -/
abbrev Steered (w : World σ) : Action → Prop := w.Takes fun id p => p.Steered w id

section Steps

variable {m : StateMachine σ} {w : World σ} {id : NodeID} {p : Process σ} {a : Local}
  {s' : Server σ}

theorem Process.Steered.unmixed (h : p.Steered w id a) : p.Unmixed w id a := by
  cases a with
  | addServer x => exact h.2
  | deliver call recent => exact h
  | _ => trivial

theorem Led.own (hl : Led m w id p a s') (hw : p.server.log.WF) (ha : p.Undisputed w id a)
    (haim : p.Aimed)
    (h : p.server.role = .leader → p.server.matchIndex.at p.server.id = p.server.log.lastIndex) :
    s'.matchIndex.at s'.id = s'.log.lastIndex := by
  have hchange {mutate : Configuration → Option Configuration} {s' : Server σ} {ws : List Write}
      (hs : p.server.changeConfiguration mutate = some (s', ws)) :
      s'.matchIndex.at s'.id = s'.log.lastIndex := by
    obtain ⟨next, -, hc⟩ := Server.changed_of_changeConfiguration hw hs
    rw [hc.id, hc.own, hc.lastIndex]
  cases hl with
  | same _ hrole hs =>
    rw [hs.matchIndex, hs.id, hs.lastIndex]
    exact h hrole
  | promoted =>
    rw [Server.matchIndex_advance, Server.id_advance, Server.log_advance, Server.lead,
      Log.lastIndex_push]
    exact Progress.at_insert_self _ _ _
  | matched i j call peer term k r ht hr hle hrole hterm =>
    have hk := (haim.append call peer term k (List.mem_of_getElem? ht)).get hrole hterm
    rw [Server.matchIndex_advance, Server.id_advance, Server.log_advance, Server.recordMatch]
    split
    next hlt =>
      have hne : p.server.id ≠ peer := by
        rintro rfl
        rw [h hrole] at hlt
        omega
      dsimp only
      rw [Progress.at_insert_ne _ _ hne]
      exact h hrole
    next => exact h hrole
  | backedUp i j call peer term k r ht hr hle hrole =>
    obtain ⟨ni, heq, -⟩ := p.server.backUp_frame peer
    rw [heq]
    exact h hrole
  | shipped i j call peer term idx r ht hr hle hrole hterm =>
    have hk := (haim.snapshot call peer term idx (List.mem_of_getElem? ht)).get hrole hterm
    rw [Server.matchIndex_advance, Server.id_advance, Server.log_advance, Server.recordSnapshot]
    dsimp only
    split
    next hlt =>
      have hne : p.server.id ≠ peer := by
        rintro rfl
        rw [h hrole] at hlt
        omega
      rw [Progress.at_insert_ne _ _ hne]
      exact h hrole
    next => exact h hrole
  | submitted cmd hrole =>
    rw [Server.matchIndex_advance, Server.id_advance, Server.log_advance, Server.appendOwn,
      Log.lastIndex_push]
    exact Progress.at_insert_self _ _ _
  | added _ _ _ hs | removed _ _ _ hs => exact hchange hs
  | overruled call recent c hc hdst hrole hterm => exact absurd hterm (ha hrole c hc hdst)

/-- **A leader's section leaves nothing due.** -/
theorem Led.not_commitDue (hl : Led m w id p a s') (hw : p.server.log.WF) (ha : p.Steered w id a)
    (hacc : p.server.role = .leader → p.server.Accounts)
    (h : p.server.role = .leader → ∀ n, ¬ p.server.CommitDue n) (n : Nat) : ¬ s'.CommitDue n := by
  cases hl with
  | same _ hrole hs => exact fun hdue => h hrole n (hs.commitDue hdue)
  | promoted => exact Server.not_commitDue_advance m rfl n
  | matched i j call peer term k r ht hr hle hrole =>
    refine Server.not_commitDue_advance m ?_ n
    rw [Server.recordMatch]
    split <;> exact hrole
  | backedUp i j call peer term k r ht hr hle hrole =>
    exact fun hdue => h hrole n (Server.commitDue_of_backUp hdue)
  | shipped i j call peer term idx r ht hr hle hrole =>
    exact Server.not_commitDue_advance (s := p.server.recordSnapshot peer idx) m hrole n
  | submitted cmd hrole =>
    exact Server.not_commitDue_advance (s := p.server.appendOwn cmd) m hrole n
  | added x _ ws hs =>
    have hrole := (Server.changeConfiguration_eq hs).1
    exact Server.not_commitDue_addServer hw (hacc hrole) ha.1 ha.2 hs (h hrole) n
  | removed x _ ws hs =>
    have hrole := (Server.changeConfiguration_eq hs).1
    exact Server.not_commitDue_removeServer hw (hacc hrole) ha.1 hs ha.2 (h hrole) n
  | overruled call recent c hc hdst hrole hterm => exact absurd hterm (ha hrole c hc hdst)

end Steps

/-- No leader has left anything due. -/
structure Diligent (w : World σ) : Prop where
  bounded : Bounded w
  own : ∀ id p, (w.node id).proc = some p → p.server.role = .leader →
    p.server.matchIndex.at p.server.id = p.server.log.lastIndex
  applied : ∀ id p, (w.node id).proc = some p → p.server.role = .leader → ∀ n,
    ¬ p.server.CommitDue n

theorem diligent_empty : Diligent ({} : World σ) :=
  ⟨bounded_empty, fun _ _ hp => by (cases hp), fun _ _ hp => by (cases hp)⟩

theorem Diligent.step {cl : Cluster σ} {w w' : World σ} {a : Action} (h : Diligent w)
    (hs : exec cl w a = some w') (ha : Steered w a) : Diligent w' := by
  have hunmixed : Unmixed w a := by
    cases a with
    | act id a => exact fun p hp => (ha p hp).unmixed
    | _ => trivial
  have hnode (id : NodeID) (p' : Process σ) (hp' : (w'.node id).proc = some p')
      (hlead : p'.server.role = .leader) :
      p'.server.matchIndex.at p'.server.id = p'.server.log.lastIndex ∧
        ∀ n, ¬ p'.server.CommitDue n := by
    rcases h.bounded.anchored.wf.leader_step hs hp' hlead with hold | ⟨p, b, rfl, hp, hled⟩
    · exact ⟨h.own id p' hold hlead, h.applied id p' hold hlead⟩
    have hw := (h.bounded.anchored.wf.proc id p hp).server.log
    have hacc (hrole : p.server.role = .leader) : p.server.Accounts :=
      ⟨h.own id p hp hrole, fun q hmem hq =>
        ((h.bounded.proc id p hp).within hrole q hmem hq).1⟩
    exact ⟨hled.own hw (ha p hp).unmixed.undisputed (h.bounded.proc id p hp).aimed (h.own id p hp),
      hled.not_commitDue hw (ha p hp) hacc (h.applied id p hp)⟩
  exact ⟨h.bounded.step hs hunmixed, fun id p hp hlead => (hnode id p hp hlead).1,
    fun id p hp hlead => (hnode id p hp hlead).2⟩

/-- **The commit rule is never left unapplied**, in every run in which servers are removed only from
configurations of odd size or when nothing is pending. -/
theorem commit_rule_applied {cl : Cluster σ} {as : List Action} {w : World σ}
    (hrun : Run (fun w a w' => exec cl w a = some w' ∧ Steered w a) {} as w) {id : NodeID}
    {p : Process σ} (hp : (w.node id).proc = some p) (hlead : p.server.role = .leader) (n : Nat) :
    ¬ p.server.CommitDue n := by
  have h := hrun.invariant (P := Diligent) (fun _ _ _ hs h => h.step hs.1 hs.2) diligent_empty
  exact h.applied id p hp hlead n

/-- Server 1 removes server 3 of three; the entry of the change waits for server 2. -/
theorem commit_rule_applied_removal :
    ∃ w p, Run (fun w a w' => exec (journalCluster [[1], [2], [3]]) w a = some w' ∧ Steered w a) {}
        (removal.take 17) w ∧
      (w.node [1]).proc = some p ∧ p.server.role = .leader ∧ p.server.peers = [[1], [2]] ∧
      p.server.commitIndex = 1 ∧ p.server.log.lastIndex = 2 ∧ ∀ n, ¬ p.server.CommitDue n := by
  refine exists_run_guarded_imp (R := fun _ p => p.server.role = .leader ∧
    p.server.peers = [[1], [2]] ∧ p.server.commitIndex = 1 ∧ p.server.log.lastIndex = 2)
    (by decide +kernel) ?_
  rintro w p hrun hp ⟨hlead, hpeers, hcommit, hlast⟩
  exact ⟨hlead, hpeers, hcommit, hlast, commit_rule_applied hrun hp hlead⟩

/-- Server 1 leads server 2 and removes it. -/
def lastRemoval : List Action :=
  [.boot [1], .boot [2], .timeout [1], .run [1] 0, .deliver [2] 0, .receive [1] 0 0, .run [1] 0,
    .run [1] 0, .act [1] (.removeServer [2])]

/-- The leader is a majority of itself now, and has not committed the entries that it alone must
match; no peer is left whose reply would make it look again. -/
theorem removal_leaves_entries_due :
    ∃ w p, Run (fun w a w' => exec (journalCluster [[1], [2]]) w a = some w') {} lastRemoval w ∧
      (w.node [1]).proc = some p ∧ p.server.role = .leader ∧ p.server.peers = [[1]] ∧
      p.server.commitIndex = 0 ∧ p.server.CommitDue 1 ∧ p.server.CommitDue 2 := by
  obtain ⟨w, p, hrun, hp, hlead, hpeers, hcommit, hlast, hone, htwo, hmatch⟩ : ∃ w p,
      Run (fun w a w' => exec (journalCluster [[1], [2]]) w a = some w') {} lastRemoval w ∧
      (w.node [1]).proc = some p ∧ p.server.role = .leader ∧ p.server.peers = [[1]] ∧
      p.server.commitIndex = 0 ∧ p.server.log.lastIndex = 2 ∧
      p.server.log.termAt 1 = some p.server.currentTerm ∧
      p.server.log.termAt 2 = some p.server.currentTerm ∧ p.server.matchIndex.at [1] = 2 :=
    exists_run_some (by decide +kernel)
  have hmaj (n : Nat) (hn : n ≤ 2) :
      p.server.majority ≤ p.server.peers.countP fun q => decide (n ≤ p.server.matchIndex.at q) := by
    rw [Server.majority, hpeers, List.countP_singleton, hmatch, if_pos (decide_eq_true hn)]
    decide
  exact ⟨w, p, hrun, hp, hlead, hpeers, hcommit,
    ⟨by omega, by omega, hone, hmaj 1 (by decide)⟩, ⟨by omega, by omega, htwo, hmaj 2 (by decide)⟩⟩

end CoreBank.Raft
