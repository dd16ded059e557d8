import CoreBank.Raft.WellFormed

/-!
# The books of a leader

A leader keeps, for each of its peers, where the next entries go and how far the peer is known to
match; next to these stand its configuration, the commit index and the length of its log.  Six kinds
of section write to these books: the promotion, the two replies to replication, `Submit`, and the
two membership changes.

`Led` is the list of these sections.  What other modules say of the books is an analysis of `Led`.
-/

set_option autoImplicit false

namespace CoreBank.Raft

open ActionSystem

variable {σ : Type}

/-- The books are as before; a compaction may have shortened the slice in front. -/
structure Server.SameBooks (s s' : Server σ) : Prop where
  id : s'.id = s.id
  term : s'.currentTerm = s.currentTerm
  peers : s'.peers = s.peers
  nextIndex : s'.nextIndex = s.nextIndex
  matchIndex : s'.matchIndex = s.matchIndex
  commitIndex : s'.commitIndex = s.commitIndex
  configChangeIndex : s'.configChangeIndex = s.configChangeIndex
  removed : s'.removedFromCluster = s.removedFromCluster
  lastIndex : s'.log.lastIndex = s.log.lastIndex
  termAt : ∀ n t, s'.log.termAt n = some t → s.log.termAt n = some t

theorem Server.SameBooks.refl (s : Server σ) : s.SameBooks s :=
  ⟨rfl, rfl, rfl, rfl, rfl, rfl, rfl, rfl, rfl, fun _ _ h => h⟩

/-- The term in which a request claims to lead. -/
def Request.leaderTerm : Request → Option Nat
  | .appendEntries args => some args.term
  | .installSnapshot args => some args.term
  | .requestVote _ => none

/-- A section that leaves the process with server `s'` leading. -/
inductive Led (m : StateMachine σ) (w : World σ) (id : NodeID) (p : Process σ) :
    Local → Server σ → Prop
  | same {a : Local} (s' : Server σ) (hrole : p.server.role = .leader)
      (hs : p.server.SameBooks s') : Led m w id p a s'
  | promoted (i term : Nat) (ht : p.tasks[i]? = some (.becomeLeader term))
      (hrole : p.server.role = .candidate) (hterm : p.server.currentTerm = term) :
      Led m w id p (.run i) (p.server.lead.advanceCommitIndex m).1
  | matched (i j call : Nat) (peer : NodeID) (term k : Nat) (r : AppendEntriesReply)
      (ht : p.tasks[i]? = some (.await call (.append peer term k)))
      (hr : w.replies[j]? = some (call, .appendEntries r)) (hle : r.term ≤ p.server.currentTerm)
      (hrole : p.server.role = .leader) (hterm : p.server.currentTerm = term)
      (hsuccess : r.success = true) :
      Led m w id p (.receive i j) ((p.server.recordMatch peer k).advanceCommitIndex m).1
  | backedUp (i j call : Nat) (peer : NodeID) (term k : Nat) (r : AppendEntriesReply)
      (ht : p.tasks[i]? = some (.await call (.append peer term k)))
      (hr : w.replies[j]? = some (call, .appendEntries r)) (hle : r.term ≤ p.server.currentTerm)
      (hrole : p.server.role = .leader) (hterm : p.server.currentTerm = term)
      (hfailed : r.success = false) : Led m w id p (.receive i j) (p.server.backUp peer)
  | shipped (i j call : Nat) (peer : NodeID) (term idx : Nat) (r : InstallSnapshotReply)
      (ht : p.tasks[i]? = some (.await call (.snapshot peer term idx)))
      (hr : w.replies[j]? = some (call, .installSnapshot r)) (hle : r.term ≤ p.server.currentTerm)
      (hrole : p.server.role = .leader) (hterm : p.server.currentTerm = term) :
      Led m w id p (.receive i j) ((p.server.recordSnapshot peer idx).advanceCommitIndex m).1
  | submitted (cmd : Bytes) (hrole : p.server.role = .leader) :
      Led m w id p (.submit cmd) ((p.server.appendOwn cmd).advanceCommitIndex m).1
  | added (x : NodeID) (s' : Server σ) (ws : List Write)
      (hs : p.server.addServer x = some (s', ws)) : Led m w id p (.addServer x) s'
  | removed (x : NodeID) (s' : Server σ) (ws : List Write)
      (hs : p.server.removeServer x = some (s', ws)) : Led m w id p (.removeServer x) s'
  /-- Another leader of the same term. -/
  | overruled (call : Nat) (recent : Bool) (c : Call) (hc : w.calls[call]? = some c)
      (hdst : c.dst = id) (hrole : p.server.role = .leader)
      (hterm : c.request.leaderTerm = some p.server.currentTerm) :
      Led m w id p (.deliver call recent) (p.handle m recent c.request).proc.server

/-! ## The inversion -/

section Inversion

variable {m : StateMachine σ} {w : World σ} {id : NodeID} {p : Process σ} {s : Server σ}

theorem role_stepDown (s : Server σ) (t : Nat) : (s.stepDown t).1.role = .follower := by
  rw [Server.stepDown, Server.becomeFollower_frame]

theorem Server.sameBooks_compact (hw : s.log.WF) (snap : Snapshot) :
    s.SameBooks (s.compact snap).1 := by
  rw [compact]
  split
  · exact .refl s
  next h =>
    simp only [not_or, not_le, not_lt, not_not] at h
    obtain ⟨hbase, hlast, hterm⟩ := h
    have hlen : snap.lastIncludedIndex ≤ s.log.logical.length := hw.lastIndex ▸ hlast
    have hw' := hw.discardThrough hbase.le hlen hterm
    have hlogical := hw.logical_discardThrough snap.lastIncludedIndex snap.lastIncludedTerm
    refine ⟨rfl, rfl, rfl, rfl, rfl, rfl, rfl, rfl, ?_, ?_⟩
    · rw [hw'.lastIndex, hw.lastIndex, hlogical]
    · intro n t ht
      -- what is left of the log is what stood there
      by_cases hn : n < snap.lastIncludedIndex
      · have hnone : (s.log.discardThrough snap.lastIncludedIndex snap.lastIncludedTerm).termAt n =
            none := by
          rw [Log.termAt, Log.entryAt, if_pos (.inl hn)]
          rfl
        rw [hnone] at ht
        cases ht
      · have hle : n ≤ s.log.logical.length := by
          by_contra hgt
          rw [hw'.termAt_none (hlogical ▸ Nat.not_le.1 hgt)] at ht
          cases ht
        rw [hw'.termAt (Nat.not_lt.1 hn) (hlogical ▸ hle), Log.abs, hlogical] at ht
        rw [hw.termAt (by omega) hle]
        exact ht

theorem Server.sameBooks_requestVote (args : RequestVoteArgs) (recent : Bool)
    (hrole : (s.requestVote args recent).1.role = .leader) :
    s.SameBooks (s.requestVote args recent).1 := by
  have hsame (hlead : (s.observeTerm args.term).role = .leader) : s.observeTerm args.term = s := by
    rw [observeTerm_frame] at hlead
    rw [observeTerm]
    split
    next hlt =>
      dsimp only at hlead
      rw [if_pos hlt] at hlead
      cases hlead
    next => rfl
  rcases s.requestVote_cases args recent with h | ⟨-, h⟩ | ⟨-, -, -, s₂, rfl, h⟩
  · rw [h]
    exact .refl s
  · rw [h] at hrole ⊢
    dsimp only at hrole ⊢
    rw [hsame hrole]
    exact .refl s
  · rw [h] at hrole ⊢
    dsimp only at hrole ⊢
    rw [hsame hrole]
    exact ⟨rfl, rfl, rfl, rfl, rfl, rfl, rfl, rfl, rfl, fun _ _ h => h⟩

/-- A request of a leader is refused, or it takes the server to its term at least. -/
theorem Server.term_appendEntries (m : StateMachine σ) (s : Server σ) (args : AppendEntriesArgs) :
    (s.appendEntries m args).1 = s ∨
      (s.appendEntries m args).1.currentTerm = max s.currentTerm args.term := by
  obtain ⟨role, -, hf⟩ := s.followLeader_frame args.term args.leaderID
  rcases s.appendEntries_cases m args with ⟨-, h⟩ | ⟨-, -, h⟩ | ⟨-, -, s₂, hs₂, h⟩
  · exact .inl (by rw [h])
  · rw [h, hf]
    exact .inr rfl
  · obtain ⟨peers, ni, mi, ci, ht, -⟩ :=
      (s.followLeader args.term args.leaderID).takeEntries_frame args.prevLogIndex args.entries
    obtain ⟨c, k, x, hl, -⟩ :=
      learnCommit_frame m s₂ args.leaderCommit (args.prevLogIndex + args.entries.length)
    rw [h, hl, hs₂, ht, hf]
    exact .inr rfl

theorem Server.term_installSnapshot (m : StateMachine σ) (s : Server σ)
    (args : InstallSnapshotArgs) :
    (s.installSnapshot m args).1 = s ∨
      (s.installSnapshot m args).1.currentTerm = max s.currentTerm args.term := by
  rcases s.installSnapshot_cases m args with ⟨-, h⟩ | ⟨-, -, h⟩ | ⟨-, -, -, x, -, s₂, hs₂, h⟩
  · exact .inl (by rw [h])
  · rw [h, heedSnapshot_frame]
    exact .inr rfl
  · rw [h, hs₂, adoptSnapshot, heedSnapshot_frame]
    exact .inr rfl

/-- A leader that still leads after a request was told of no later term: it has refused, or was
told of another leader of its own. -/
theorem led_handle {call : Nat} {c : Call} {recent : Bool} (hc : w.calls[call]? = some c)
    (hdst : c.dst = id) (hlead : (p.handle m recent c.request).proc.server.role = .leader) :
    Led m w id p (.deliver call recent) (p.handle m recent c.request).proc.server := by
  obtain ⟨hrole, hterm⟩ := (Remains.handle hc hdst recent).leader hlead
  have hover (ht : c.request.leaderTerm = some p.server.currentTerm) :
      Led m w id p (.deliver call recent) (p.handle m recent c.request).proc.server :=
    .overruled call recent c hc hdst hrole ht
  -- unless it is refused, a request of a leader raises the term or is of this one
  have hleader {s' : Server σ} {t : Nat} (hs' : s'.currentTerm = p.server.currentTerm)
      (hcases : s' = p.server ∨ s'.currentTerm = max p.server.currentTerm t)
      (hlow : t < p.server.currentTerm → s' = p.server) (hne : t ≠ p.server.currentTerm) :
      p.server.SameBooks s' := by
    obtain rfl : s' = p.server := hcases.elim (fun h => h) fun hmax => hlow (by omega)
    exact .refl _
  cases hreq : c.request with
  | appendEntries args =>
    rw [hreq] at hterm hover
    by_cases heq : args.term = p.server.currentTerm
    · exact hover (congrArg some heq)
    · refine .same _ hrole (hleader hterm (p.server.term_appendEntries m args) (fun hlt => ?_) heq)
      rw [Process.handle, Server.appendEntries, if_pos (.inr hlt)]
      rfl
  | requestVote args =>
    rw [hreq] at hlead
    exact .same _ hrole (Server.sameBooks_requestVote args recent hlead)
  | installSnapshot args =>
    rw [hreq] at hterm hover
    by_cases heq : args.term = p.server.currentTerm
    · exact hover (congrArg some heq)
    · refine .same _ hrole
        (hleader hterm (p.server.term_installSnapshot m args) (fun hlt => ?_) heq)
      rw [Process.handle, Server.installSnapshot, if_pos hlt]
      rfl

/-- **The inversion.**  A section after which the server leads. -/
theorem Move.led {a : Local} {e : Effect σ} (hm : Move m w id p a e) (hw : p.server.log.WF)
    (hlead : e.proc.server.role = .leader) : Led m w id p a e.proc.server := by
  have hsame {a : Local} {s' : Server σ} (hs : s' = p.server) (hl : s'.role = .leader) :
      Led m w id p a s' := by
    subst hs
    exact .same _ hl (.refl _)
  have hcompact {a : Local} (snap : Snapshot) (hl : (p.server.compact snap).1.role = .leader) :
      Led m w id p a (p.server.compact snap).1 := by
    refine .same _ ?_ (Server.sameBooks_compact hw snap)
    rw [Server.compact] at hl
    split at hl <;> exact hl
  cases hm with
  | idle p' hserver => exact hsame hserver hlead
  | stop =>
    exact .same _ hlead ⟨rfl, rfl, rfl, rfl, rfl, rfl, rfl, rfl, rfl, fun _ _ h => h⟩
  | startElection i ht =>
    have hcand : (p.drop i).startElection.proc.server.role = .candidate := by
      rw [Process.startElection]
      dsimp only
      split <;> rfl
    rw [hcand] at hlead
    cases hlead
  | becomeLeader i term s ws ht hs =>
    obtain ⟨hrole, hterm, rfl, -⟩ := becomeLeader_cases hs
    exact .promoted i term ht hrole hterm
  | countVote i term =>
    have hserver : ((p.drop i).countVote term).server = p.server := by
      rw [Process.countVote]
      split <;> rfl
    exact hsame hserver hlead
  | sendEntries | sendSnapshot | sendBeat | saveSnapshot | voteReply | takeSnapshot =>
    exact hsame rfl hlead
  | compact i snap => exact hcompact snap hlead
  | maybeCompact threshold snap => exact hcompact snap hlead
  | stepDown i r term =>
    have hfoll : ((p.drop i).withServer (p.server.stepDown term).1).server.role = .follower :=
      role_stepDown p.server term
    rw [hfoll] at hlead
    cases hlead
  | appendReply i j call peer term k r ht hr =>
    have hl : (p.server.onAppendReply m peer term k r).1.role = .leader := hlead
    show Led m w id p _ (p.server.onAppendReply m peer term k r).1
    rw [Server.onAppendReply] at hl ⊢
    split
    next hlt =>
      rw [if_pos hlt, role_stepDown] at hl
      cases hl
    next hle =>
      rw [if_neg hle] at hl
      split
      next hno =>
        rw [if_pos hno] at hl
        exact hsame rfl hl
      next hlead' =>
        simp only [not_or, not_not] at hlead'
        split
        next hok =>
          exact .matched i j call peer term k r ht hr (Nat.not_lt.1 hle) hlead'.1 hlead'.2 hok
        next hno =>
          exact .backedUp i j call peer term k r ht hr (Nat.not_lt.1 hle) hlead'.1 hlead'.2
            (Bool.eq_false_iff.2 hno)
  | snapshotReply i j call peer term idx r ht hr =>
    have hl : (p.server.onSnapshotReply m peer term idx r).1.role = .leader := hlead
    show Led m w id p _ (p.server.onSnapshotReply m peer term idx r).1
    rw [Server.onSnapshotReply] at hl ⊢
    split
    next hlt =>
      rw [if_pos hlt, role_stepDown] at hl
      cases hl
    next hle =>
      rw [if_neg hle] at hl
      split
      next hno =>
        rw [if_pos hno] at hl
        exact hsame rfl hl
      next hlead' =>
        simp only [not_or, not_not] at hlead'
        exact .shipped i j call peer term idx r ht hr (Nat.not_lt.1 hle) hlead'.1 hlead'.2
  | handle call c recent hc hdst => exact led_handle hc hdst hlead
  | submit cmd s ws hs =>
    rw [Server.submit, Option.ite_none_left_eq_some] at hs
    obtain ⟨hno, ⟨⟩⟩ := hs
    simp only [not_or, not_not] at hno
    exact .submitted cmd hno.1
  | addServer x s ws hs => exact .added x s ws hs
  | removeServer x s ws hs => exact .removed x s ws hs

/-- A server that is a candidate after a section was one before, or campaigns in a new term. -/
theorem Move.campaigns {a : Local} {e : Effect σ} (hm : Move m w id p a e)
    (hcand : e.proc.server.role = .candidate) :
    p.server.role = .candidate ∨ p.server.currentTerm < e.proc.server.currentTerm := by
  obtain ⟨turn, work, -, finish, -⟩ := hm.phases
  obtain ⟨-, hterm, -, hrole⟩ := work.kept
  obtain ⟨c, k, x, role, removed, hrole', hs', -⟩ := finish.frame
  rw [hs'] at hcand ⊢
  dsimp only at hcand ⊢
  rcases hrole' with rfl | rfl
  · rcases hrole with hrole | ⟨-, hlead, -⟩
    · rw [hrole] at hcand
      rcases turn.role with ⟨hsame, -⟩ | hfollow | ⟨-, hlt⟩
      · exact .inl (hsame ▸ hcand)
      · rw [hfollow] at hcand
        cases hcand
      · exact .inr (hterm ▸ hlt)
    · rw [hlead] at hcand
      cases hcand
  · cases hcand

end Inversion

/-! ## One leader at a time -/

/-- The section does not tell a leader of another one of its own term. -/
def Process.Undisputed (w : World σ) (id : NodeID) (p : Process σ) : Local → Prop
  | .deliver call _ => p.server.role = .leader → ∀ c ∈ w.calls[call]?, c.dst = id →
      c.request.leaderTerm ≠ some p.server.currentTerm
  | _ => True

instance (w : World σ) (id : NodeID) (p : Process σ) (a : Local) :
    Decidable (p.Undisputed w id a) := by
  induction a using Local.casesOn <;> unfold Process.Undisputed <;> infer_instance

section Undisputed

variable {m : StateMachine σ} {w : World σ} {id : NodeID} {p : Process σ} {a : Local}
  {s' : Server σ}

theorem Led.lastIndex_le (hl : Led m w id p a s') (ha : p.Undisputed w id a) :
    p.server.log.lastIndex ≤ s'.log.lastIndex := by
  have hpush (e : LogEntry) (he : e.index = p.server.log.lastIndex + 1) :
      p.server.log.lastIndex ≤ (p.server.log.push e).lastIndex := by
    rw [Log.lastIndex_push, he]
    exact Nat.le_succ _
  have hchange {mutate : Configuration → Option Configuration} {s' : Server σ} {ws : List Write}
      (hs : p.server.changeConfiguration mutate = some (s', ws)) :
      p.server.log.lastIndex ≤ s'.log.lastIndex := by
    obtain ⟨-, -, -, next, ni, mi, -, -, rfl, -⟩ := Server.changeConfiguration_cases hs
    exact hpush _ rfl
  cases hl with
  | same _ hrole hs => exact hs.lastIndex.symm.le
  | promoted | submitted =>
    rw [Server.log_advance]
    exact hpush _ rfl
  | matched i j call peer term k =>
    obtain ⟨ni, mi, heq, -⟩ := p.server.recordMatch_frame peer k
    rw [Server.log_advance, heq]
  | backedUp i j call peer =>
    obtain ⟨ni, heq, -⟩ := p.server.backUp_frame peer
    rw [heq]
  | shipped =>
    rw [Server.log_advance]
    exact le_rfl
  | added x _ ws hs => exact hchange hs
  | removed x _ ws hs => exact hchange hs
  | overruled call recent c hc hdst hrole hterm => exact absurd hterm (ha hrole c hc hdst)

end Undisputed

/-- Who leads after a step of the cluster has not moved, or leads after a section of its own. -/
theorem WellFormed.leader_step {cl : Cluster σ} {w w' : World σ} {a : Action} (hwf : WellFormed w)
    (hs : exec cl w a = some w') {id : NodeID} {p' : Process σ}
    (hp' : (w'.node id).proc = some p') (hlead : p'.server.role = .leader) :
    (w.node id).proc = some p' ∨ ∃ p b, a = .act id b ∧ (w.node id).proc = some p ∧
      Led cl.machine w id p b p'.server := by
  cases (stepped_of_exec hs).procStep hp' with
  | other _ hp' => exact .inl hp'
  | boot p hdown hp =>
    rw [(start_id hp).2.1] at hlead
    cases hlead
  | act p b e hp hact =>
    exact .inr ⟨p, b, rfl, hp, (move_of_act hact).led (hwf.proc id p hp).server.log hlead⟩

end CoreBank.Raft
