import Mathlib.Data.List.Count
import CoreBank.Raft.Frames
import CoreBank.Raft.Moves
import CoreBank.Raft.Quorums

/-!
# A server that was stopped

`Stop` latches `stopped` while the handlers of the server stay reachable over the open listener.
The latch is read by `AppendEntries`, `RequestVote` and `Submit`, and by nothing else.  So a stopped
server still installs snapshots, changes its configuration if it was the leader, steps down for the
reply to a vote request, and becomes the leader when the last vote it needs arrives.

`Process.stopped_standsAside_iff` says for each of these sections exactly when the server stays as
it was and its reply counts for nothing.
-/

set_option autoImplicit false

namespace CoreBank.Raft

open ActionSystem

variable {σ : Type}

/-! ## What must not happen -/

namespace Server

/-- The part of a server that takes part in consensus has not changed, and it was not promoted. -/
structure Untouched (s s' : Server σ) : Prop where
  term : s'.currentTerm = s.currentTerm
  votedFor : s'.votedFor = s.votedFor
  log : s'.log = s.log
  peers : s'.peers = s.peers
  sm : s'.sm = s.sm
  role : s'.role = .leader → s.role = .leader

theorem Untouched.refl (s : Server σ) : s.Untouched s := ⟨rfl, rfl, rfl, rfl, rfl, fun h => h⟩

/-- Whether `replicateTo` writes `lastContact` for the peer when it gets this reply. -/
def appendContact (l : Server σ) (term : Nat) (r : AppendEntriesReply) : Bool :=
  decide (r.term ≤ l.currentTerm) && decide (l.role = .leader ∧ l.currentTerm = term) && r.success

/-- Whether `sendSnapshotTo` does. -/
def snapshotContact (l : Server σ) (term : Nat) (r : InstallSnapshotReply) : Bool :=
  decide (r.term ≤ l.currentTerm) && decide (l.role = .leader ∧ l.currentTerm = term)

/-! ## The sections of a stopped server -/

section Sections

variable {s : Server σ} {m : StateMachine σ}

theorem appendEntries_of_stopped (hs : s.stopped = true) (args : AppendEntriesArgs) :
    s.appendEntries m args = (s, [], ⟨s.currentTerm, false⟩) := by
  rw [appendEntries, if_pos (.inl hs)]

theorem requestVote_of_stopped (hs : s.stopped = true) (args : RequestVoteArgs) (recent : Bool) :
    s.requestVote args recent = (s, [], ⟨s.currentTerm, false⟩) := by
  rw [requestVote, if_pos (.inl hs)]

theorem submit_of_stopped (hs : s.stopped = true) (cmd : Bytes) : s.submit m cmd = none := by
  rw [submit, if_pos (.inr hs)]

/-- Whoever asks for a snapshot to be installed is answered in the term it asked in, unless that
is over. -/
theorem installSnapshot_reply (args : InstallSnapshotArgs) :
    (s.installSnapshot m args).2.2 = ⟨max s.currentTerm args.term⟩ := by
  rcases s.installSnapshot_cases m args with ⟨hlt, h⟩ | ⟨hle, -, h⟩ | ⟨hle, -, -, x, -, s₂, -, h⟩
  · rw [h, Nat.max_eq_left hlt.le]
  · rw [h, Nat.max_eq_right hle]
  · rw [h, Nat.max_eq_right hle]

theorem ne_push (l : Log) (e : LogEntry) : l.push e ≠ l := by
  intro h
  have hlen : (l.entries ++ [e]).length = l.entries.length := congrArg (fun l => l.entries.length) h
  simp at hlen

/-- What a configuration change asks of the server, whatever the change. -/
def MayReconfigure (s : Server σ) : Prop :=
  s.role = .leader ∧ s.id ∈ s.peers ∧ s.configChangeIndex ≤ s.commitIndex

theorem log_ne_of_changeConfiguration {s' : Server σ} {ws : List Write}
    {mutate : Configuration → Option Configuration}
    (h : s.changeConfiguration mutate = some (s', ws)) : s'.log ≠ s.log := by
  obtain ⟨-, -, -, next, ni, mi, -, -, rfl, -⟩ := changeConfiguration_cases h
  exact ne_push _ _

theorem changeConfiguration_of_may {mutate : Configuration → Option Configuration}
    (next : Configuration) (h : s.MayReconfigure) (hnext : mutate ⟨s.peers⟩ = some next)
    (hone : Configuration.differsByOne ⟨s.peers⟩ next = true) :
    ∃ r, s.changeConfiguration mutate = some r := by
  obtain ⟨hrole, hmem, hidx⟩ := h
  rw [changeConfiguration, if_neg (not_not.2 hrole),
    if_neg (by rw [List.contains_iff_mem.2 hmem]; decide), if_neg (Nat.not_lt.2 hidx)]
  simp only [hnext, hone, Bool.true_eq_false, if_false]
  exact ⟨_, rfl⟩

/-- A server that is no member yet can be added whenever the server may reconfigure. -/
theorem addServer_iff {x : NodeID} :
    (∃ r, s.addServer x = some r) ↔ s.MayReconfigure ∧ x ∉ s.peers := by
  have hcontains : Configuration.contains ⟨s.peers⟩ x = true ↔ x ∈ s.peers := List.contains_iff_mem
  constructor
  · rintro ⟨⟨s', ws⟩, h⟩
    obtain ⟨hrole, hmem, hidx, next, hnext, -⟩ := changeConfiguration_eq h
    refine ⟨⟨hrole, hmem, hidx⟩, fun hx => ?_⟩
    rw [if_pos (hcontains.2 hx)] at hnext
    cases hnext
  · rintro ⟨hmay, hx⟩
    refine changeConfiguration_of_may _ hmay (if_neg fun h => hx (hcontains.1 h)) ?_
    exact Configuration.differsByOne_iff.2 (.inl
      ⟨fun y hy => Configuration.mem_withServer.2 (.inl hy),
        (Configuration.perm_withServer hx).length_eq⟩)

theorem length_withoutServer (c : Configuration) (x : NodeID) :
    (c.withoutServer x).servers.length + c.servers.count x = c.servers.length := by
  have h := List.length_eq_length_filter_add (l := c.servers) fun y => y == x
  have hcount : c.servers.count x = (c.servers.filter fun y => y == x).length := by
    rw [List.count, List.countP_eq_length_filter]
  have hwithout : (c.withoutServer x).servers = c.servers.filter fun y => !(y == x) :=
    List.filter_congr fun y _ => by rw [Bool.eq_iff_iff]; simp
  rw [hwithout, hcount]
  omega

/-- A server can be removed if it is listed once and is not the last. -/
theorem removeServer_iff {x : NodeID} :
    (∃ r, s.removeServer x = some r) ↔
      s.MayReconfigure ∧ s.peers.count x = 1 ∧ s.peers.length ≠ 1 := by
  have hlen := length_withoutServer ⟨s.peers⟩ x
  have hcontains : Configuration.contains ⟨s.peers⟩ x = false ↔ x ∉ s.peers := by
    rw [← Bool.not_eq_true, Configuration.contains, List.contains_iff_mem]
  constructor
  · rintro ⟨⟨s', ws⟩, h⟩
    obtain ⟨hrole, hmem, hidx, next, hnext, hone, -⟩ := changeConfiguration_eq h
    refine ⟨⟨hrole, hmem, hidx⟩, ?_⟩
    rw [Option.ite_none_left_eq_some, Option.ite_none_left_eq_some, Option.some.injEq] at hnext
    obtain ⟨-, hlast, rfl⟩ := hnext
    refine ⟨?_, hlast⟩
    have hlen' := Configuration.differsByOne_iff.1 hone
    dsimp only at hlen hlen'
    omega
  · rintro ⟨hmay, hcount, hlast⟩
    have hx : x ∈ s.peers := List.count_pos_iff.1 (hcount ▸ Nat.one_pos)
    refine changeConfiguration_of_may (Configuration.withoutServer ⟨s.peers⟩ x) hmay ?_ ?_
    · rw [if_neg fun h => hcontains.1 h hx, if_neg hlast]
    · dsimp only at hlen
      exact Configuration.differsByOne_iff.2
        (.inr ⟨fun y hy => (Configuration.mem_withoutServer.1 hy).1, by dsimp only; omega⟩)

end Sections

end Server

/-- No server that waits for the reply to this request raises what it believes the sender of the
reply to hold, or notes that it has heard from it. -/
def Uncounted (m : StateMachine σ) : Request → Reply → Prop
  | .appendEntries args, .appendEntries r =>
    ∀ (l : Server σ) (peer : NodeID) (k : Nat),
      (l.onAppendReply m peer args.term k r).1.matchIndex.at peer ≤ l.matchIndex.at peer ∧
        l.appendContact args.term r = false
  | .installSnapshot args, .installSnapshot r =>
    ∀ (l : Server σ) (peer : NodeID),
      (l.onSnapshotReply m peer args.term args.snapshot.lastIncludedIndex r).1.matchIndex.at peer ≤
          l.matchIndex.at peer ∧
        l.snapshotContact args.term r = false
  | _, _ => True

section Replies

variable {m : StateMachine σ}

theorem matchIndex_stepDown (l : Server σ) (t : Nat) :
    (l.stepDown t).1.matchIndex = l.matchIndex := by
  rw [Server.stepDown, Server.becomeFollower_frame]

theorem uncounted_of_failure (args : AppendEntriesArgs) (t : Nat) :
    Uncounted m (.appendEntries args) (.appendEntries ⟨t, false⟩) := by
  intro l peer k
  refine ⟨?_, by simp [Server.appendContact]⟩
  rw [Server.onAppendReply]
  split
  · rw [matchIndex_stepDown]
  · split
    · exact le_rfl
    · rw [if_neg nofun, Server.backUp]
      split <;> exact le_rfl

/-- The reply to a snapshot counts unless it carries a later term than the request. -/
theorem uncounted_snapshot_iff (x : σ) (args : InstallSnapshotArgs) (t : Nat) :
    Uncounted m (.installSnapshot args) (.installSnapshot ⟨t⟩) ↔ args.term < t := by
  constructor
  · intro h
    by_contra hle
    -- the leader that sent the request, still in its term
    have hl := (h
      { id := [], peers := [], sm := x, role := .leader, currentTerm := args.term } []).2
    simp [Server.snapshotContact] at hl
    omega
  · intro hlt l peer
    by_cases hterm : l.currentTerm < t
    · rw [Server.onSnapshotReply, if_pos hterm, matchIndex_stepDown]
      refine ⟨le_rfl, ?_⟩
      simp only [Server.snapshotContact, Nat.not_le.2 hterm, decide_false, Bool.false_and]
    · have hne : l.currentTerm ≠ args.term := by omega
      rw [Server.onSnapshotReply, if_neg hterm, if_pos (.inr hne)]
      exact ⟨le_rfl, by simp [Server.snapshotContact, hne]⟩

end Replies

/-! ## The sections -/

namespace Process

/-- The sections in which others reach a server that was stopped: a request, a call of its API, and
what is left of an election, which is the reply to a vote request, its count, and the promotion. -/
def Late (p : Process σ) : Local → Prop
  | .deliver _ _ => True
  | .submit _ => True
  | .addServer _ => True
  | .removeServer _ => True
  | .receive i _ => ∃ call term peer, p.tasks[i]? = some (.await call (.vote term peer))
  | .run i => ∃ term, p.tasks[i]? = some (.becomeLeader term) ∨
      ∃ peer, p.tasks[i]? = some (.countVote term peer)
  | _ => False

/-- The section leaves the server as it was, and its reply counts for nothing. -/
def StandsAside (m : StateMachine σ) (w : World σ) (id : NodeID) (p : Process σ) (a : Local) :
    Prop :=
  ∀ e, p.act m w id a = some e → p.server.Untouched e.proc.server ∧
    ∀ call recent c r, a = .deliver call recent → w.calls[call]? = some c → e.reply = some r →
      Uncounted m c.request r

/-- When a late section is harmless: a snapshot comes from a leader of an earlier term, a
configuration change is one the server refuses anyway, the reply to a vote request carries no later
term, and the election that was won is over. -/
def Spared (w : World σ) (id : NodeID) (p : Process σ) : Local → Prop
  | .deliver call _ => ∀ c args, w.calls[call]? = some c → c.dst = id →
      c.request = .installSnapshot args → args.term < p.server.currentTerm
  | .addServer x => p.server.MayReconfigure → x ∈ p.server.peers
  | .removeServer x => p.server.MayReconfigure →
      p.server.peers.count x ≠ 1 ∨ p.server.peers.length = 1
  | .receive i j => ∀ call k r, p.tasks[i]? = some (.await call k) →
      w.replies[j]? = some (call, .requestVote r) → r.term ≤ p.server.currentTerm
  | .run i => ∀ term, p.tasks[i]? = some (.becomeLeader term) →
      p.server.role ≠ .candidate ∨ p.server.currentTerm ≠ term
  | _ => True

section Stopped

variable {m : StateMachine σ} {w : World σ} {id : NodeID} {p : Process σ}

/-- Of the three requests a stopped server answers, only the snapshot reaches its state, and only
that reply is counted. -/
theorem handle_of_stopped_iff (hs : p.server.stopped = true) (recent : Bool) (q : Request) :
    (p.server.Untouched (p.handle m recent q).proc.server ∧
        ∀ r, (p.handle m recent q).reply = some r → Uncounted m q r) ↔
      ∀ args, q = .installSnapshot args → args.term < p.server.currentTerm := by
  cases q with
  | appendEntries args =>
    rw [handle, Server.appendEntries_of_stopped hs]
    refine iff_of_true ⟨.refl _, ?_⟩ nofun
    rintro r ⟨⟩
    exact uncounted_of_failure args _
  | requestVote args =>
    rw [handle, Server.requestVote_of_stopped hs]
    refine iff_of_true ⟨.refl _, ?_⟩ nofun
    rintro r ⟨⟩
    trivial
  | installSnapshot args =>
    have hreply : (p.handle m recent (.installSnapshot args)).reply =
        some (.installSnapshot ⟨max p.server.currentTerm args.term⟩) :=
      congrArg (fun r => some (Reply.installSnapshot r)) (Server.installSnapshot_reply args)
    rw [hreply]
    constructor
    · rintro ⟨-, h⟩ _ ⟨⟩
      have hlt := (uncounted_snapshot_iff p.server.sm args _).1 (h _ rfl)
      omega
    · intro h
      have hlt := h args rfl
      refine ⟨?_, ?_⟩
      · rw [handle, Server.installSnapshot, if_pos hlt]
        exact .refl _
      · rintro r ⟨⟩
        exact (uncounted_snapshot_iff p.server.sm args _).2 (by omega)

/-- A call that appends to the log is harmless if it is refused. -/
theorem standsAside_ofAppend_iff {a : Local} {ts : List Task} {o : Option (Server σ × List Write)}
    (hact : p.act m w id a = p.ofAppend ts o)
    (hlog : ∀ s ws, o = some (s, ws) → s.log ≠ p.server.log) :
    StandsAside m w id p a ↔ ¬ ∃ r, o = some r := by
  rw [StandsAside, hact]
  cases o with
  | none => simp [ofAppend]
  | some r =>
    refine iff_of_false ?_ (by simp)
    intro h
    exact hlog _ _ rfl (h _ rfl).1.log

theorem standsAside_voteReply_iff {i j call term : Nat} {peer : NodeID}
    (ht : p.tasks[i]? = some (.await call (.vote term peer))) :
    StandsAside m w id p (.receive i j) ↔ Spared w id p (.receive i j) := by
  constructor
  · intro h call' k r ht' hr
    obtain ⟨rfl, rfl⟩ : call' = call ∧ k = .vote term peer := by
      rw [ht] at ht'
      cases ht'
      exact ⟨rfl, rfl⟩
    by_contra hlt
    have hact : p.act m w id (.receive i j) = some
        { proc := (p.drop i).withServer (p.server.stepDown r.term).1
          writes := (p.server.stepDown r.term).2 } := by
      simp only [act, ht, hr, if_true, receive]
      rw [if_pos (Nat.not_le.1 hlt)]
      rfl
    have hterm : (p.server.becomeFollower r.term).currentTerm = p.server.currentTerm :=
      (h _ hact).1.term
    rw [Server.becomeFollower_frame] at hterm
    dsimp only at hterm
    omega
  · intro h e he
    refine ⟨?_, by intros; contradiction⟩
    simp only [act, ht] at he
    split at he
    next call' k call'' reply hk hr =>
      rw [Option.ite_none_right_eq_some] at he
      obtain ⟨rfl, he⟩ := he
      cases hk
      cases reply with
      | requestVote r =>
        have hle : ¬ p.server.currentTerm < r.term := Nat.not_lt.2 (h call _ r ht hr)
        simp only [receive] at he
        rw [if_neg hle] at he
        split at he <;> cases he <;> exact .refl _
      | appendEntries r => cases he
      | installSnapshot r => cases he
    · cases he

/-- A promotion that is not over appends the no-op of the term. -/
theorem standsAside_becomeLeader_iff {i term : Nat} (ht : p.tasks[i]? = some (.becomeLeader term)) :
    StandsAside m w id p (.run i) ↔ Spared w id p (.run i) := by
  have hact : p.act m w id (.run i) = some ((p.drop i).becomeLeader m term) := by
    simp only [act, ht, run]
    rfl
  rw [StandsAside, hact]
  have hover : (p.server.role ≠ .candidate ∨ p.server.currentTerm ≠ term) ↔
      Spared w id p (.run i) := by
    constructor
    · intro h term' ht'
      rw [ht] at ht'
      cases ht'
      exact h
    · exact fun h => h term ht
  rw [← hover]
  by_cases hc : p.server.role ≠ .candidate ∨ p.server.currentTerm ≠ term
  · refine iff_of_true ?_ hc
    rintro e ⟨⟩
    have hnone : (p.drop i).server.becomeLeader m term = none := if_pos hc
    rw [becomeLeader, hnone]
    exact ⟨.refl _, by intros; contradiction⟩
  · refine iff_of_false ?_ hc
    intro h
    have hlog := (h _ rfl).1.log
    have hsome : (p.drop i).server.becomeLeader m term = some
        ((p.server.lead.advanceCommitIndex m).1,
          p.server.lead.persist :: (p.server.lead.advanceCommitIndex m).2) := if_neg hc
    rw [becomeLeader, hsome] at hlog
    have hpush : (p.server.lead.advanceCommitIndex m).1.log = p.server.log := hlog
    rw [Server.log_advance] at hpush
    exact Server.ne_push _ _ hpush

/-- A stopped server takes no part in a late section, and its reply counts for nothing, exactly if
the section is harmless by what it finds. -/
theorem stopped_standsAside_iff {a : Local} (hs : p.server.stopped = true) (ha : p.Late a) :
    p.StandsAside m w id a ↔ p.Spared w id a := by
  cases a with
  | deliver call recent =>
    constructor
    · intro h c args hc hdst
      have hact : p.act m w id (.deliver call recent) = some (p.handle m recent c.request) := by
        simp only [act, hc, hdst, if_true]
      refine (handle_of_stopped_iff hs recent c.request).1 ⟨(h _ hact).1, fun r hr => ?_⟩ args
      exact (h _ hact).2 call recent c r rfl hc hr
    · intro h e he
      simp only [act] at he
      split at he
      · cases he
      next c hc =>
        rw [Option.ite_none_right_eq_some] at he
        obtain ⟨hdst, ⟨⟩⟩ := he
        obtain ⟨hsame, hreply⟩ :=
          (handle_of_stopped_iff hs recent c.request).2 fun args => h c args hc hdst
        refine ⟨hsame, ?_⟩
        rintro _ _ c' r ⟨⟩ hc' hr
        rw [hc] at hc'
        cases hc'
        exact hreply r hr
  | submit cmd =>
    rw [standsAside_ofAppend_iff rfl (by rw [Server.submit_of_stopped hs]; intros; contradiction),
      Server.submit_of_stopped hs]
    exact iff_of_true (fun h => by obtain ⟨_, h⟩ := h; cases h) trivial
  | addServer x =>
    rw [standsAside_ofAppend_iff (o := p.server.addServer x) rfl
      fun _ _ h => Server.log_ne_of_changeConfiguration h, Server.addServer_iff, not_and, not_not]
    rfl
  | removeServer x =>
    rw [standsAside_ofAppend_iff (o := p.server.removeServer x) rfl
      fun _ _ h => Server.log_ne_of_changeConfiguration h, Server.removeServer_iff, not_and,
        not_and_or, not_not]
    rfl
  | receive i j =>
    obtain ⟨call, term, peer, ht⟩ := ha
    exact standsAside_voteReply_iff ht
  | run i =>
    obtain ⟨term, ht | ⟨peer, ht⟩⟩ := ha
    · exact standsAside_becomeLeader_iff ht
    · have hact : p.act m w id (.run i) = some { proc := (p.drop i).countVote term } := by
        simp only [act, ht, run]
        rfl
      refine iff_of_true ?_ fun term' ht' => by rw [ht] at ht'; cases ht'
      rw [StandsAside, hact]
      rintro e ⟨⟩
      have hserver : ((p.drop i).countVote term).server = p.server := by
        rw [countVote]
        split <;> rfl
      exact ⟨hserver ▸ .refl _, by intros; contradiction⟩
  | _ => exact ha.elim

end Stopped

end Process

/-! ## A snapshot that arrives late -/

/-- Server 1 leads, commits its no-op with server 2, discards it, and sends server 3 the snapshot
instead, as call 3. -/
def lateSnapshot : List Action :=
  leaderOfThree ++ [.run [1] 1, .deliver [2] 2, .receive [1] 2 1, .act [1] (.maybeCompact 0),
    .run [1] 1, .run [1] 1]

/-- Server 3 was stopped before; it installs the snapshot all the same, and the leader takes the
reply for an acknowledgement. -/
theorem stopped_server_installs_snapshot :
    ∃ as w p l, Run (fun w a w' => exec (journalCluster [[1], [2], [3]]) w a = some w') {} as w ∧
      (w.node [3]).proc = some p ∧ p.server.stopped = true ∧ p.Late (.deliver 3 false) ∧
      ¬ p.StandsAside journal w [3] (.deliver 3 false) ∧
      w.server [1] = some l ∧ l.matchIndex.at [3] = 0 ∧
      ∃ e, p.act journal w [3] (.deliver 3 false) = some e ∧
        e.proc.server.log.baseIndex ≠ p.server.log.baseIndex ∧
        e.reply = some (.installSnapshot ⟨1⟩) ∧
        (l.onSnapshotReply journal [3] 1 1 ⟨1⟩).1.matchIndex.at [3] = 1 ∧
        l.snapshotContact 1 ⟨1⟩ = true := by
  obtain ⟨w, p, hrun, hp, hs, ⟨e, he, hbase, hreply⟩, l, hl, hzero, hone⟩ : ∃ w p,
      Run (fun w a w' => exec (journalCluster [[1], [2], [3]]) w a = some w') {}
        (lateSnapshot ++ [.act [3] .stop]) w ∧
      (w.node [3]).proc = some p ∧ p.server.stopped = true ∧
      (∃ e ∈ p.act journal w [3] (.deliver 3 false),
        e.proc.server.log.baseIndex ≠ p.server.log.baseIndex ∧
        e.reply = some (.installSnapshot ⟨1⟩)) ∧
      ∃ l ∈ w.server [1], l.matchIndex.at [3] = 0 ∧
        (l.onSnapshotReply journal [3] 1 1 ⟨1⟩).1.matchIndex.at [3] = 1 ∧
        l.snapshotContact 1 ⟨1⟩ = true := exists_run_some (by decide +kernel)
  exact ⟨_, w, p, l, hrun, hp, hs, trivial,
    fun haside => hbase (congrArg Log.baseIndex (haside e he).1.log), hl, hzero, e, he,
      hbase, hreply, hone⟩

/-- If server 3 has campaigned twice before it was stopped, the snapshot is of an earlier term. -/
theorem stopped_standsAside_earlier_term :
    ∃ as w p, Run (fun w a w' => exec (journalCluster [[1], [2], [3]]) w a = some w') {} as w ∧
      (w.node [3]).proc = some p ∧ p.server.stopped = true ∧
      p.StandsAside journal w [3] (.deliver 3 false) := by
  obtain ⟨w, p, hrun, hp, ⟨hs, hterm⟩, c, hc, hreq⟩ : ∃ w p,
      Run (fun w a w' => exec (journalCluster [[1], [2], [3]]) w a = some w') {}
        (lateSnapshot ++ [.timeout [3], .run [3] 0, .timeout [3], .run [3] 2, .act [3] .stop]) w ∧
      (w.node [3]).proc = some p ∧ (p.server.stopped = true ∧ p.server.currentTerm = 2) ∧
      ∃ c ∈ w.calls[3]?, c.request = .installSnapshot ⟨1, [1], 1, 1, [], [⟨1, 1, none⟩]⟩ :=
    exists_run_some (by decide +kernel)
  refine ⟨_, w, p, hrun, hp, hs,
    (Process.stopped_standsAside_iff (a := .deliver 3 false) hs trivial).2 ?_⟩
  intro c' args hc' hdst hargs
  rw [show w.calls[3]? = some c from hc] at hc'
  cases hc'
  obtain rfl := Request.installSnapshot.inj (hargs.symm.trans hreq)
  rw [hterm]
  decide

end CoreBank.Raft
