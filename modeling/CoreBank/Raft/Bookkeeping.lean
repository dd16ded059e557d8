import CoreBank.Raft.Leadership

/-!
# One page for each peer

`nextIndex` and `matchIndex` are maps from servers to indices, and are meant to have one key for
each peer.  They are pruned only while the server leads and uses a new configuration.  So a reply
from a server that was removed puts its keys back, and a promotion finds the keys of an earlier
term.

`books_cover_membership` says that these two, and a promotion of a server outside its own
configuration, are the only ways in which the keys come to differ from the peers.
-/

set_option autoImplicit false

namespace CoreBank.Raft

open ActionSystem

variable {σ : Type}

/-! ## Keys -/

variable {m : Progress} {q : NodeID}

namespace Progress

theorem mem_foldl_insert {ps : List NodeID} {v : Nat} :
    q ∈ ps.foldl (fun m p => m.insert p v) m ↔ q ∈ ps ∨ q ∈ m := by
  induction ps generalizing m with
  | nil => simp
  | cons p ps ih =>
    rw [List.foldl_cons, ih, AList.mem_insert, List.mem_cons]
    tauto

theorem mem_foldl_erase {ps : List NodeID} :
    q ∈ ps.foldl (fun m p => m.erase p) m ↔ q ∉ ps ∧ q ∈ m := by
  induction ps generalizing m with
  | nil => simp
  | cons p ps ih =>
    rw [List.foldl_cons, ih, AList.mem_erase, List.mem_cons]
    tauto

theorem mem_of_pos (h : 0 < m.at q) : q ∈ m := by
  rw [Progress.at] at h
  rw [← AList.lookup_isSome]
  cases hq : m.lookup q with
  | none => simp [hq] at h
  | some v => rfl

theorem at_of_notMem (h : q ∉ m) : m.at q = 0 := by
  by_contra hne
  exact h (mem_of_pos (Nat.pos_of_ne_zero hne))

end Progress

namespace Server

variable {s s' : Server σ}

/-- The books have one page for each peer, and one for the leader itself. -/
structure Covers (s : Server σ) : Prop where
  next : ∀ q, q ∈ s.nextIndex ↔ q ∈ s.peers
  match_ : ∀ q, q ∈ s.matchIndex ↔ q ∈ s.peers ∨ q = s.id

/-- Pruning to a list of servers leaves their keys, whatever was there; it takes away the matches of
the keys that were dropped, and of no others. -/
theorem mem_trackMembers {servers : List NodeID} {next : Nat} {ni mi : Progress} :
    (q ∈ (trackMembers servers next ni mi).1 ↔ q ∈ servers) ∧
      (q ∈ (trackMembers servers next ni mi).2 ↔
        (q ∈ ni → q ∈ servers) ∧ (q ∈ mi ∨ (q ∈ servers ∧ q ∉ ni))) := by
  rw [trackMembers]
  simp only [Progress.mem_foldl_erase, Progress.mem_foldl_insert, List.mem_filter,
    ← AList.mem_keys, Option.isNone_iff_eq_none, AList.lookup_eq_none, Bool.not_eq_true',
    ← Bool.not_eq_true, List.contains_iff_mem]
  tauto

section Covers

variable (h : s.Covers)

include h

theorem Covers.of_eq (hid : s'.id = s.id) (hpeers : s'.peers = s.peers)
    (hnext : s'.nextIndex = s.nextIndex) (hmatch : s'.matchIndex = s.matchIndex) : s'.Covers := by
  obtain ⟨hn, hm⟩ := h
  rw [← hpeers, ← hnext] at hn
  rw [← hpeers, ← hmatch, ← hid] at hm
  exact ⟨hn, hm⟩

theorem Covers.advance (m : StateMachine σ) : (s.advanceCommitIndex m).1.Covers :=
  h.of_eq (id_advance m s) (peers_advance m s) (nextIndex_advance m s) (matchIndex_advance m s)

theorem Covers.set {peer : NodeID} (hpeer : peer ∈ s.peers) {ni mi : Progress}
    (hni : ni = s.nextIndex ∨ ∃ v, ni = s.nextIndex.insert peer v)
    (hmi : mi = s.matchIndex ∨ ∃ v, mi = s.matchIndex.insert peer v) :
    Covers { s with nextIndex := ni, matchIndex := mi } := by
  constructor
  · intro q
    rcases hni with rfl | ⟨v, rfl⟩
    · exact h.next q
    · rw [AList.mem_insert, h.next q]
      exact or_iff_right_of_imp fun hq => hq ▸ hpeer
  · intro q
    rcases hmi with rfl | ⟨v, rfl⟩
    · exact h.match_ q
    · rw [AList.mem_insert, h.match_ q]
      exact or_iff_right_of_imp fun hq => .inl (hq ▸ hpeer)

theorem Covers.recordMatch {peer : NodeID} (hpeer : peer ∈ s.peers) (k : Nat) :
    (s.recordMatch peer k).Covers := by
  rw [Server.recordMatch]
  split
  · exact h.set hpeer (.inr ⟨_, rfl⟩) (.inr ⟨_, rfl⟩)
  · exact h

theorem Covers.recordSnapshot {peer : NodeID} (hpeer : peer ∈ s.peers) (idx : Nat) :
    (s.recordSnapshot peer idx).Covers := by
  rw [Server.recordSnapshot]
  refine h.set hpeer ?_ ?_
  · split
    · exact .inr ⟨_, rfl⟩
    · exact .inl rfl
  · split
    · exact .inr ⟨_, rfl⟩
    · exact .inl rfl

/-- Backing up writes only where there is something to back up from. -/
theorem Covers.backUp (peer : NodeID) : (s.backUp peer).Covers := by
  rw [Server.backUp]
  split
  next hpos =>
    have hmem : peer ∈ s.nextIndex := Progress.mem_of_pos (by omega)
    exact h.set ((h.next peer).1 hmem) (.inr ⟨_, rfl⟩) (.inl rfl)
  next => exact h

theorem Covers.appendOwn (cmd : Bytes) : (s.appendOwn cmd).Covers := by
  refine ⟨h.next, fun q => ?_⟩
  rw [Server.appendOwn, AList.mem_insert, h.match_ q]
  tauto

theorem Covers.useConfiguration (hrole : s.role = .leader) (servers : List NodeID) :
    (s.useConfiguration servers).Covers := by
  rw [Server.useConfiguration, if_neg (not_not.2 hrole)]
  constructor
  · intro q
    dsimp only
    rw [mem_trackMembers.1]
  · intro q
    dsimp only
    rw [AList.mem_insert, mem_trackMembers.2, h.match_, h.next]
    tauto

theorem Covers.adoptConfigFromLog (hrole : s.role = .leader) : s.adoptConfigFromLog.Covers := by
  rw [Server.adoptConfigFromLog]
  split
  · exact h
  · exact (h.useConfiguration hrole _).of_eq rfl rfl rfl rfl

theorem Covers.changeConfiguration {mutate : Configuration → Option Configuration}
    {ws : List Write} (hs : s.changeConfiguration mutate = some (s', ws)) : s'.Covers := by
  obtain ⟨hrole, -, -, next, -, -, rfl, -⟩ := changeConfiguration_eq hs
  have happ : (s.appendConfig next).Covers :=
    (h.appendOwn (encodeConfig next)).of_eq rfl rfl rfl rfl
  exact happ.useConfiguration hrole next.servers

theorem Covers.takeEntries (prev : Nat) (es : List LogEntry)
    (hlead : (s.takeEntries prev es).1.role = .leader) : (s.takeEntries prev es).1.Covers := by
  have hlog : Covers { s with log := (s.log.appendFrom prev es).1 } := h.of_eq rfl rfl rfl rfl
  obtain ⟨peers, ni, mi, ci, ht, -⟩ := s.takeEntries_frame prev es
  have hrole : s.role = .leader := by
    rw [ht] at hlead
    exact hlead
  rw [Server.takeEntries]
  dsimp only
  split
  · exact hlog.adoptConfigFromLog hrole
  · exact hlog

/-- A leader that follows another of its own term prunes its books like any other leader. -/
theorem Covers.appendEntries (m : StateMachine σ) (args : AppendEntriesArgs)
    (hlead : (s.appendEntries m args).1.role = .leader) : (s.appendEntries m args).1.Covers := by
  obtain ⟨role, -, hf⟩ := s.followLeader_frame args.term args.leaderID
  have hfollow : (s.followLeader args.term args.leaderID).Covers := by
    rw [hf]
    exact h.of_eq rfl rfl rfl rfl
  rcases s.appendEntries_cases m args with ⟨-, he⟩ | ⟨-, -, he⟩ | ⟨-, -, s₂, hs₂, he⟩
  · rw [he]
    exact h
  · rw [he]
    exact hfollow
  · obtain ⟨c, k, x, hl, -⟩ :=
      learnCommit_frame m s₂ args.leaderCommit (args.prevLogIndex + args.entries.length)
    rw [he, hl] at hlead ⊢
    subst hs₂
    exact (hfollow.takeEntries _ _ hlead).of_eq rfl rfl rfl rfl

theorem Covers.installSnapshot (m : StateMachine σ) (args : InstallSnapshotArgs) :
    (s.installSnapshot m args).1.Covers := by
  rcases s.installSnapshot_cases m args with ⟨-, he⟩ | ⟨-, -, he⟩ | ⟨-, -, -, x, -, s₂, hs₂, he⟩
  · rw [he]
    exact h
  · rw [he, heedSnapshot_frame]
    exact h.of_eq rfl rfl rfl rfl
  · rw [he, hs₂, adoptSnapshot, heedSnapshot_frame]
    exact h.of_eq rfl rfl rfl rfl

end Covers

/-- The books of a candidate have no page that the promotion would keep by mistake. -/
def BooksClear (s : Server σ) : Prop :=
  s.id ∈ s.peers ∧ (∀ q ∈ s.nextIndex.keys, q ∈ s.peers) ∧
    ∀ q ∈ s.matchIndex.keys, q ∈ s.peers ∨ q = s.id

instance (s : Server σ) : Decidable s.BooksClear := by
  unfold BooksClear
  infer_instance

theorem Covers.lead (h : s.BooksClear) : s.lead.Covers := by
  obtain ⟨hid, hnext, hmatch⟩ := h
  constructor
  · intro q
    rw [Server.lead, AList.mem_insert, Progress.mem_foldl_insert]
    have hq := hnext q
    constructor
    · rintro (rfl | hp | hk)
      · exact hid
      · exact hp
      · exact hq hk
    · exact fun hp => .inr (.inl hp)
  · intro q
    rw [Server.lead, AList.mem_insert, Progress.mem_foldl_insert]
    have hq := hmatch q
    constructor
    · rintro (rfl | hp | hk)
      · exact .inr rfl
      · exact .inl hp
      · exact hq hk
    · rintro (hp | rfl)
      · exact .inr (.inl hp)
      · exact .inl rfl

/-- A server that is no peer starts at zero when it is added. -/
theorem Covers.addServer (h : s.Covers) {x : NodeID} {ws : List Write}
    (hs : s.addServer x = some (s', ws)) : s'.matchIndex.at x = 0 := by
  obtain ⟨hrole, hid, -, next, hnext, -, rfl, -⟩ := changeConfiguration_eq hs
  rw [Option.ite_none_left_eq_some] at hnext
  have hx : x ∉ s.peers := fun hx => hnext.1 (List.contains_iff_mem.2 hx)
  have hself : x ≠ s.id := fun he => hx (he ▸ hid)
  have hmatch : x ∉ s.matchIndex := fun hk => ((h.match_ x).1 hk).elim hx hself
  have hzero : (s.appendConfig next).matchIndex.at x = 0 :=
    (Progress.at_insert_ne _ _ hself).trans (Progress.at_of_notMem hmatch)
  rcases ((s.appendConfig next).useConfiguration_progress next.servers x).2 with hle | ⟨he, -⟩
  · exact Nat.le_zero.1 (hle.trans hzero.le)
  · exact absurd he hself

/-- The peer whose answer to replication the goroutine waits for, while the server leads in the
term of the request. -/
def hears (s : Server σ) : Task → Option NodeID
  | .await _ (.append peer term _) =>
    if s.role = .leader ∧ s.currentTerm = term then some peer else none
  | .await _ (.snapshot peer term _) =>
    if s.role = .leader ∧ s.currentTerm = term then some peer else none
  | _ => none

/-- The goroutine makes the server leader when it continues. -/
def promotedBy (s : Server σ) : Task → Bool
  | .becomeLeader term => decide (s.role = .candidate ∧ s.currentTerm = term)
  | _ => false

end Server

/-- Only peers are heard, and only a server that has no old pages and is its own peer is
promoted. -/
def Process.Tended (p : Process σ) : Local → Prop
  | .run i => ∀ t ∈ p.tasks[i]?, p.server.promotedBy t = true → p.server.BooksClear
  | .receive i _ => ∀ t ∈ p.tasks[i]?, ∀ q ∈ p.server.hears t, q ∈ p.server.peers
  | _ => True

instance (p : Process σ) (a : Local) : Decidable (p.Tended a) := by
  induction a using Local.casesOn <;> unfold Process.Tended <;> infer_instance

/-- The action is one of a server whose section tends the books. -/
abbrev Tended (w : World σ) : Action → Prop := w.Takes fun _ p => p.Tended

theorem Led.covers {m : StateMachine σ} {w : World σ} {id : NodeID} {p : Process σ} {a : Local}
    {s' : Server σ} (hl : Led m w id p a s') (hlead : s'.role = .leader) (ha : p.Tended a)
    (h : p.server.role = .leader → p.server.Covers) : s'.Covers := by
  cases hl with
  | same _ hrole hs => exact (h hrole).of_eq hs.id hs.peers hs.nextIndex hs.matchIndex
  | promoted i term ht hrole hterm =>
    refine (Server.Covers.lead (ha _ ht ?_)).advance m
    rw [Server.promotedBy]
    exact decide_eq_true ⟨hrole, hterm⟩
  | matched i j call peer term k r ht hr hle hrole hterm =>
    have hpeer : peer ∈ p.server.peers := ha _ ht peer (by
      rw [Server.hears, if_pos ⟨hrole, hterm⟩]
      rfl)
    exact ((h hrole).recordMatch hpeer k).advance m
  | backedUp i j call peer term k r ht hr hle hrole => exact (h hrole).backUp peer
  | shipped i j call peer term idx r ht hr hle hrole hterm =>
    have hpeer : peer ∈ p.server.peers := ha _ ht peer (by
      rw [Server.hears, if_pos ⟨hrole, hterm⟩]
      rfl)
    exact ((h hrole).recordSnapshot hpeer idx).advance m
  | submitted cmd hrole => exact ((h hrole).appendOwn cmd).advance m
  | added _ _ _ hs | removed _ _ _ hs =>
    exact (h (Server.changeConfiguration_eq hs).1).changeConfiguration hs
  | overruled call recent c hc hdst hrole hterm =>
    cases hreq : c.request with
    | appendEntries args =>
      rw [hreq] at hlead
      exact (h hrole).appendEntries m args hlead
    | installSnapshot args => exact (h hrole).installSnapshot m args
    | requestVote args =>
      rw [hreq] at hterm
      cases hterm

/-! ## One page for each peer -/

/-- Every leader's books cover its peers. -/
structure Covered (w : World σ) : Prop where
  wf : WellFormed w
  leader : ∀ id p, (w.node id).proc = some p → p.server.role = .leader → p.server.Covers

theorem covered_empty : Covered ({} : World σ) := ⟨wellFormed_empty, fun _ _ h => by cases h⟩

theorem Covered.step {cl : Cluster σ} {w w' : World σ} {a : Action} (h : Covered w)
    (hs : exec cl w a = some w') (ha : Tended w a) : Covered w' := by
  refine ⟨h.wf.step (stepped_of_exec hs), fun id p' hp' hlead => ?_⟩
  rcases h.wf.leader_step hs hp' hlead with hold | ⟨p, b, rfl, hp, hled⟩
  · exact h.leader id p' hold hlead
  · exact hled.covers hlead (ha p hp) (h.leader id p hp)

/-- **The books of a leader cover its peers and no others**, in every run in which only peers are
heard and no server is promoted with old pages or outside its configuration; and a server that is
added starts with nothing. -/
theorem books_cover_membership {cl : Cluster σ} {as : List Action} {w : World σ}
    (hrun : Run (fun w a w' => exec cl w a = some w' ∧ Tended w a) {} as w) {id : NodeID}
    {p : Process σ} (hp : (w.node id).proc = some p) (hlead : p.server.role = .leader) :
    p.server.Covers ∧
      ∀ x s' ws, p.server.addServer x = some (s', ws) → s'.matchIndex.at x = 0 := by
  have hcov := hrun.invariant (P := Covered) (fun _ _ _ hs h => h.step hs.1 hs.2) covered_empty
  have hbooks := hcov.leader id p hp hlead
  exact ⟨hbooks, fun _ _ _ hs => hbooks.addServer hs⟩

/-- Server 1 leads servers 2 and 3, hears both, removes server 3 and commits the removal. -/
def removal : List Action :=
  leaderOfThree ++ [.run [1] 2, .deliver [3] 2, .receive [1] 2 1, .run [1] 1, .deliver [2] 3,
    .receive [1] 1 2, .act [1] (.removeServer [3]), .heartbeat [1], .run [1] 1, .run [1] 1,
    .deliver [2] 4, .receive [1] 1 3]

theorem books_cover_membership_removal :
    ∃ w p, Run (fun w a w' => exec (journalCluster [[1], [2], [3]]) w a = some w' ∧ Tended w a) {}
        removal w ∧
      (w.node [1]).proc = some p ∧ p.server.role = .leader ∧ p.server.peers = [[1], [2]] ∧
      p.server.Covers ∧ ∃ s' ws, p.server.addServer [3] = some (s', ws) ∧
        s'.matchIndex.at [3] = 0 := by
  refine exists_run_guarded_imp (R := fun _ p => p.server.role = .leader ∧
    p.server.peers = [[1], [2]] ∧ ∃ r ∈ p.server.addServer [3], True) (by decide +kernel) ?_
  rintro w p hrun hp ⟨hlead, hpeers, ⟨s', ws⟩, hadd, -⟩
  obtain ⟨hcov, hzero⟩ := books_cover_membership hrun hp hlead
  exact ⟨hlead, hpeers, hcov, s', ws, hadd, hzero _ _ _ hadd⟩

/-- The same, but the reply of server 3 comes after it was removed. -/
def lateReply : List Action :=
  leaderOfThree ++ [.run [1] 2, .deliver [3] 2, .run [1] 1, .deliver [2] 3, .receive [1] 2 2,
    .act [1] (.removeServer [3]), .receive [1] 1 1, .heartbeat [1], .run [1] 1, .run [1] 1,
    .deliver [2] 4, .receive [1] 1 3]

/-- The leader keeps a page for server 3, which is no peer, and when server 3 is added again it is
believed to match what it held before. -/
theorem late_reply_survives_removal :
    ∃ w p, Run (fun w a w' => exec (journalCluster [[1], [2], [3]]) w a = some w') {} lateReply w ∧
      (w.node [1]).proc = some p ∧ p.server.role = .leader ∧ p.server.peers = [[1], [2]] ∧
      [3] ∈ p.server.nextIndex ∧ [3] ∈ p.server.matchIndex ∧ ¬ p.server.Covers ∧
      ∃ s' ws, p.server.addServer [3] = some (s', ws) ∧ s'.matchIndex.at [3] = 1 := by
  obtain ⟨w, p, hrun, hp, hlead, hpeers, hnext, hmatch, ⟨s', ws⟩, hadd⟩ : ∃ w p,
      Run (fun w a w' => exec (journalCluster [[1], [2], [3]]) w a = some w') {} lateReply w ∧
      (w.node [1]).proc = some p ∧ p.server.role = .leader ∧ p.server.peers = [[1], [2]] ∧
      [3] ∈ p.server.nextIndex.keys ∧ [3] ∈ p.server.matchIndex.keys ∧
      ∃ r ∈ p.server.addServer [3], r.1.matchIndex.at [3] = 1 := exists_run_some (by decide +kernel)
  refine ⟨w, p, hrun, hp, hlead, hpeers, hnext, hmatch, fun hcov => ?_, s', ws, hadd⟩
  have hmem := (hcov.next [3]).1 hnext
  rw [hpeers] at hmem
  revert hmem
  decide

end CoreBank.Raft
