import CoreBank.Raft.Frames
import CoreBank.Raft.Moves

/-!
# The phases of a section

Every section does the same things in the same order, and leaves out what it has no use for.  It
adopts a term or gives up a role (`Turn`); it works on the log, on what it knows of its peers or on
the snapshot (`Work`); it saves term, vote and log (`Stored`); and it advances the commit index and
applies (`Finish`).

`Move.phases` reads this off the sections once; what has to be shown of every section is then shown
of the phases.
-/

set_option autoImplicit false

namespace CoreBank.Raft

variable {σ : Type}

/-! ## Terms and roles -/

/-- What a section does before it looks at the log. -/
structure Turn (s s₁ : Server σ) : Prop where
  frame : ∃ t v r run stop ldr, s₁ = { s with
    currentTerm := t, votedFor := v, role := r, running := run, stopped := stop, leaderID := ldr }
  term : s.currentTerm ≤ s₁.currentTerm
  vote : s₁.currentTerm = s.currentTerm → s.votedFor = none ∨ s₁.votedFor = s.votedFor
  role : (s₁.role = s.role ∧ s₁.currentTerm = s.currentTerm) ∨ s₁.role = .follower ∨
    (s₁.role = .candidate ∧ s.currentTerm < s₁.currentTerm)

namespace Turn

variable {s s' : Server σ}

theorem of_eq (h : s' = s) : Turn s s' := by
  subst h
  exact ⟨⟨_, _, _, _, _, _, rfl⟩, le_rfl, fun _ => .inr rfl, .inl ⟨rfl, rfl⟩⟩

/-- The term rule, in the form all handlers share. -/
theorem raise {t : Nat} {r : Role} (ldr : NodeID)
    (hr : r = s.role ∧ ¬ s.currentTerm < t ∨ r = .follower) :
    Turn s { s with
      role := r
      currentTerm := max s.currentTerm t
      votedFor := if s.currentTerm < t then none else s.votedFor
      leaderID := ldr } where
  frame := ⟨_, _, _, _, _, _, rfl⟩
  term := Nat.le_max_left _ _
  vote h := .inr (if_neg (Nat.not_lt.2 ((Nat.le_max_right _ _).trans_eq h)))
  role := hr.imp (fun h => ⟨h.1, Nat.max_eq_left (Nat.le_of_not_lt h.2)⟩) .inl

theorem stepDown (s : Server σ) (t : Nat) : Turn s (s.stepDown t).1 := by
  rw [Server.stepDown, Server.becomeFollower_frame]
  exact raise s.leaderID (.inr rfl)

theorem role_of_lt (s : Server σ) (t : Nat) :
    (if s.currentTerm < t then Role.follower else s.role) = s.role ∧ ¬ s.currentTerm < t ∨
      (if s.currentTerm < t then Role.follower else s.role) = .follower := by
  by_cases h : s.currentTerm < t
  · exact .inr (if_pos h)
  · exact .inl ⟨if_neg h, h⟩

theorem observeTerm (s : Server σ) (t : Nat) : Turn s (s.observeTerm t) := by
  rw [Server.observeTerm_frame]
  exact raise s.leaderID (role_of_lt s t)

theorem heedSnapshot (s : Server σ) (t : Nat) (leader : NodeID) :
    Turn s (s.heedSnapshot t leader) := by
  rw [Server.heedSnapshot_frame]
  exact raise leader (role_of_lt s t)

theorem followLeader (s : Server σ) (t : Nat) (leader : NodeID) :
    Turn s (s.followLeader t leader) := by
  obtain ⟨role, hrole, hf⟩ := s.followLeader_frame t leader
  rw [hf]
  exact raise leader (hrole.imp_left fun h => ⟨h.1, h.2.1⟩)

theorem grant {t : Nat} {q : NodeID}
    (hfree : (s.observeTerm t).votedFor = none ∨ (s.observeTerm t).votedFor = some q) :
    Turn s { s.observeTerm t with votedFor := some q } := by
  have hobs := observeTerm s t
  obtain ⟨_, _, _, _, _, _, heq⟩ := hobs.frame
  refine ⟨?_, hobs.term, fun h => ?_, hobs.role⟩
  · rw [heq]
    exact ⟨_, _, _, _, _, _, rfl⟩
  · rcases hobs.vote h with hnone | hsame
    · exact .inl hnone
    · rw [hsame] at hfree
      exact hfree.imp_right Eq.symm

theorem startElection (s : Server σ) : Turn s s.startElection.1 where
  frame := ⟨_, _, _, _, _, _, rfl⟩
  term := Nat.le_succ _
  vote h := absurd h (Nat.succ_ne_self _)
  role := .inr (.inr ⟨rfl, Nat.lt_succ_self _⟩)

variable (h : Turn s s')

include h

theorem id : s'.id = s.id := by
  obtain ⟨_, _, _, _, _, _, rfl⟩ := h.frame
  rfl

theorem log : s'.log = s.log := by
  obtain ⟨_, _, _, _, _, _, rfl⟩ := h.frame
  rfl

theorem peers : s'.peers = s.peers := by
  obtain ⟨_, _, _, _, _, _, rfl⟩ := h.frame
  rfl

theorem snapshot : s'.snapshot = s.snapshot := by
  obtain ⟨_, _, _, _, _, _, rfl⟩ := h.frame
  rfl

theorem applied : s'.lastApplied = s.lastApplied ∧ s'.commitIndex = s.commitIndex ∧
    s'.sm = s.sm := by
  obtain ⟨_, _, _, _, _, _, rfl⟩ := h.frame
  exact ⟨rfl, rfl, rfl⟩

theorem progress : s'.nextIndex = s.nextIndex ∧ s'.matchIndex = s.matchIndex := by
  obtain ⟨_, _, _, _, _, _, rfl⟩ := h.frame
  exact ⟨rfl, rfl⟩

end Turn

/-! ## Committing and applying -/

/-- What a section does in the end; `l` is the log it found. -/
inductive Finish (m : StateMachine σ) (l : Log) (s : Server σ) : Server σ → List Write → Prop
  | rest : Finish m l s s []
  | advance : Finish m l s (s.advanceCommitIndex m).1 (s.advanceCommitIndex m).2
  | learn (args : AppendEntriesArgs)
      (hmatch : l.matchesPrevLog args.prevLogIndex args.prevLogTerm = true)
      (hlog : s.log = (l.appendFrom args.prevLogIndex args.entries).1) :
      Finish m l s
        (s.learnCommit m args.leaderCommit (args.prevLogIndex + args.entries.length)).1
        (s.learnCommit m args.leaderCommit (args.prevLogIndex + args.entries.length)).2

variable {s : Server σ}

theorem Finish.of_eq {m : StateMachine σ} {l : Log} {s' : Server σ} (h : s' = s) :
    Finish m l s s' [] := h ▸ .rest

variable {ws : List Write}

/-- Only the marker is written, and little but the machine changes. -/
theorem Finish.frame {m : StateMachine σ} {l : Log} {s' : Server σ} (h : Finish m l s s' ws) :
    ∃ c k x role removed, (role = s.role ∨ role = .follower) ∧
      s' = { s with
        commitIndex := c, lastApplied := s.lastApplied + k, sm := x, role := role,
        removedFromCluster := removed } ∧
      ∀ w ∈ ws, w = .saveApplied s'.lastApplied := by
  cases h with
  | rest => exact ⟨_, 0, _, _, _, .inl rfl, rfl, List.forall_mem_nil _⟩
  | advance =>
    obtain ⟨c, k, x, role, removed, hrole, hs, hws⟩ := s.advanceCommitIndex_frame m
    exact ⟨c, k, x, role, removed, hrole, hs, fun w hw => by rw [hs]; exact hws w hw⟩
  | learn args =>
    obtain ⟨c, k, x, hs, hws⟩ :=
      s.learnCommit_frame m args.leaderCommit (args.prevLogIndex + args.entries.length)
    exact ⟨c, k, x, _, _, .inl rfl, hs, fun w hw => by rw [hs]; exact hws w hw⟩

/-! ## The work of a section -/

/-- `InstallSnapshot` of a higher term finds nothing new, or cannot restore. -/
def Server.heedsOnly (m : StateMachine σ) (s : Server σ) (args : InstallSnapshotArgs) : Bool :=
  decide (s.currentTerm < args.term) &&
    (decide (args.snapshot.lastIncludedIndex ≤ s.log.baseIndex) ||
      decide (args.snapshot.lastIncludedIndex ≤ s.lastApplied) ||
      (m.snapshotter.bind fun r => r.restoreSnapshot args.snapshot.data s.sm).isNone)

/-- The section is an `InstallSnapshot` of a higher term that returns early. -/
def Process.adoptsUnsaved (m : StateMachine σ) (w : World σ) (p : Process σ) : Local → Bool
  | .deliver call _ =>
    match w.calls[call]? with
    | some ⟨_, _, .installSnapshot args⟩ => p.server.heedsOnly m args
    | _ => false
  | _ => false

/-- The section delivers a snapshot of a leader, and the snapshot is installed. -/
def Installs (m : StateMachine σ) (w : World σ) (id : NodeID) (p : Process σ) (a : Local)
    (e : Effect σ) (src : NodeID) (args : InstallSnapshotArgs) : Prop :=
  ∃ call recent x, a = .deliver call recent ∧
    w.calls[call]? = some ⟨src, id, .installSnapshot args⟩ ∧
    (m.snapshotter.bind fun r => r.restoreSnapshot args.snapshot.data p.server.sm) = some x ∧
    p.server.currentTerm ≤ args.term ∧ p.server.log.baseIndex < args.snapshot.lastIncludedIndex ∧
    p.server.lastApplied < args.snapshot.lastIncludedIndex ∧
    e.proc = p.withServer
      ((p.server.heedSnapshot args.term args.leaderID).adoptSnapshot args.snapshot x) ∧
    e.writes = [.saveSnapshot args.snapshot, e.proc.server.persist]

/-- What a section does to the log, to what it knows of its peers and to the snapshot, from the
server it has turned to on, and the snapshot it stores first. -/
inductive Work (m : StateMachine σ) (w : World σ) (id : NodeID) (p : Process σ) (a : Local)
    (e : Effect σ) : Server σ → Server σ → List Write → Prop
  | none (s : Server σ) : Work m w id p a e s s []
  | store (i : Nat) (snap : Snapshot) (ha : a = .run i)
      (ht : p.tasks[i]? = some (.saveSnapshot snap)) (hs : e.proc.server = p.server)
      (hws : e.writes = [.saveSnapshot snap]) :
      Work m w id p a e p.server p.server [.saveSnapshot snap]
  | lead (i : Nat) (ha : a = .run i)
      (ht : p.tasks[i]? = some (.becomeLeader p.server.currentTerm))
      (hrole : p.server.role = .candidate) : Work m w id p a e p.server p.server.lead []
  | own (cmd : Bytes) (ha : a = .submit cmd) :
      Work m w id p a e p.server (p.server.appendOwn cmd) []
  | config (x : NodeID) (C : Configuration) (ni mi : Progress) (ws : List Write)
      (hs : (a = .addServer x ∧ p.server.addServer x = some (p.server.configured C ni mi, ws)) ∨
        (a = .removeServer x ∧
          p.server.removeServer x = some (p.server.configured C ni mi, ws))) :
      Work m w id p a e p.server (p.server.configured C ni mi) []
  /-- A reply changes the page of its peer. -/
  | tracked (i j : Nat) (call : Nat) (peer : NodeID) (term k : Nat) (ni mi : Progress)
      (ha : a = .receive i j) (ht : .await call (.append peer term k) ∈ p.tasks ∨
        .await call (.snapshot peer term k) ∈ p.tasks)
      (hbooks : ∀ q, q ≠ peer →
        ni.at q = p.server.nextIndex.at q ∧ mi.at q = p.server.matchIndex.at q) :
      Work m w id p a e p.server { p.server with nextIndex := ni, matchIndex := mi } []
  | entries (call : Nat) (c : Call) (recent : Bool) (args : AppendEntriesArgs)
      (peers : List NodeID) (ni mi : Progress) (ci : Nat) (ha : a = .deliver call recent)
      (hc : w.calls[call]? = some c) (hreq : c.request = .appendEntries args)
      (hstop : p.server.stopped = false) (hle : p.server.currentTerm ≤ args.term)
      (hmatch : p.server.log.matchesPrevLog args.prevLogIndex args.prevLogTerm = true)
      (htake : ((p.server.followLeader args.term args.leaderID).takeEntries args.prevLogIndex
        args.entries).1 = (p.server.followLeader args.term args.leaderID).received
          args.prevLogIndex args.entries peers ni mi ci) :
      Work m w id p a e (p.server.followLeader args.term args.leaderID)
        ((p.server.followLeader args.term args.leaderID).received args.prevLogIndex args.entries
          peers ni mi ci) []
  /-- The second section of a compaction, or both. -/
  | compact (snap : Snapshot) (ws : List Write)
      (hsnap : (.compact snap ∈ p.tasks ∧ ws = []) ∨
        ∃ threshold, a = .maybeCompact threshold ∧
          p.server.takeSnapshot m threshold = some snap ∧ ws = [.saveSnapshot snap])
      (hs : e.proc.server = (p.server.compact snap).1)
      (hws : e.writes = ws ++ (p.server.compact snap).2) :
      Work m w id p a e p.server (p.server.compact snap).1 ws
  | install (src : NodeID) (args : InstallSnapshotArgs) (x : σ)
      (h : Installs m w id p a e src args) :
      Work m w id p a e (p.server.heedSnapshot args.term args.leaderID)
        ((p.server.heedSnapshot args.term args.leaderID).adoptSnapshot args.snapshot x)
        [.saveSnapshot args.snapshot]

namespace Work

variable {m : StateMachine σ} {w : World σ} {id : NodeID} {p : Process σ} {a : Local} {e : Effect σ}
  {s₁ s₂ : Server σ} {snaps : List Write} (h : Work m w id p a e s₁ s₂ snaps)

include h

theorem mem_snaps {x : Write} (hx : x ∈ snaps) : ∃ snap, x = .saveSnapshot snap := by
  cases h with
  | store i snap => exact ⟨snap, List.mem_singleton.1 hx⟩
  | compact snap ws hsnap =>
    rcases hsnap with ⟨-, rfl⟩ | ⟨threshold, -, -, rfl⟩
    · cases hx
    · exact ⟨snap, List.mem_singleton.1 hx⟩
  | install src args => exact ⟨args.snapshot, List.mem_singleton.1 hx⟩
  | _ => cases hx

/-- The name, the term and the vote stay, and so does the role but at the end of an election. -/
theorem kept :
    s₂.id = s₁.id ∧ s₂.currentTerm = s₁.currentTerm ∧ s₂.votedFor = s₁.votedFor ∧
      (s₂.role = s₁.role ∨ (s₁ = p.server ∧ s₂.role = .leader ∧ p.server.role = .candidate ∧
        .becomeLeader p.server.currentTerm ∈ p.tasks ∧ ∃ i, a = .run i)) := by
  cases h with
  | none | store | own | config | tracked | entries | install => exact ⟨rfl, rfl, rfl, .inl rfl⟩
  | lead i ha ht hrole =>
    exact ⟨rfl, rfl, rfl, .inr ⟨rfl, rfl, hrole, List.mem_of_getElem? ht, i, ha⟩⟩
  | compact snap =>
    rw [Server.compact]
    split <;> exact ⟨rfl, rfl, rfl, .inl rfl⟩

/-- Before the last phase only a leader's snapshot touches the machine, and only a compaction moves
the boundary of the log. -/
theorem steady :
    (s₂.lastApplied = s₁.lastApplied ∧ s₂.commitIndex = s₁.commitIndex ∧ s₂.sm = s₁.sm ∧
        s₂.log.baseIndex = s₁.log.baseIndex) ∨
      (∃ snap, (.compact snap ∈ p.tasks ∨
          ∃ threshold, p.server.takeSnapshot m threshold = some snap) ∧
        e.proc.server = (p.server.compact snap).1) ∨
      ∃ src args, Installs m w id p a e src args := by
  cases h with
  | none | store | lead | own | config | tracked => exact .inl ⟨rfl, rfl, rfl, rfl⟩
  | entries => exact .inl ⟨rfl, rfl, rfl, congrArg LogEntry.index (Log.sentinel_appendFrom _ _ _)⟩
  | compact snap ws hsnap hs =>
    refine .inr (.inl ⟨snap, hsnap.imp And.left fun h => ?_, hs⟩)
    obtain ⟨threshold, -, htake, -⟩ := h
    exact ⟨threshold, htake⟩
  | install src args x hin => exact .inr (.inr ⟨src, args, hin⟩)

end Work

/-- What becomes of the state file when the work is done. -/
inductive Stored (m : StateMachine σ) (w : World σ) (p : Process σ) (a : Local) (e : Effect σ)
    (s : Server σ) : List Write → Prop
  | saved : Stored m w p a e s [s.persist]
  | same (h : s.persist = p.server.persist) : Stored m w p a e s []
  | unsaved (h : p.adoptsUnsaved m w a = true) (hterm : p.server.currentTerm < s.currentTerm)
      (hvote : s.votedFor = none) (hrole : s.role = .follower) (hlog : s.log = p.server.log)
      (hws : e.writes = []) : Stored m w p a e s []

/-- A section, taken apart. -/
inductive Phases (m : StateMachine σ) (w : World σ) (id : NodeID) (p : Process σ) (a : Local)
    (e : Effect σ) : Prop
  | mk {s₁ s₂ : Server σ} {snaps saves marker : List Write} (turn : Turn p.server s₁)
      (work : Work m w id p a e s₁ s₂ snaps) (stored : Stored m w p a e s₂ saves)
      (finish : Finish m p.server.log s₂ e.proc.server marker)
      (writes : e.writes = snaps ++ saves ++ marker)

/-! ## The inversion -/

section Inversion

variable {m : StateMachine σ} {w : World σ} {id : NodeID} {p : Process σ} {a : Local} {e : Effect σ}

theorem Log.appendFrom_unmodified {l : Log} {prev : Nat} {es : List LogEntry}
    (h : (l.appendFrom prev es).2 = false) : (l.appendFrom prev es).1 = l := by
  induction es generalizing prev with
  | nil => rfl
  | cons e es ih =>
    rw [Log.appendFrom] at h ⊢
    split at h
    next hle =>
      rw [if_pos hle]
      exact ih h
    next hgt =>
      rw [if_neg hgt]
      split at h
      next existing hex =>
        split at h
        next hterm =>
          rw [if_pos hterm]
          exact ih h
        next => cases h
      next => cases h

theorem Stored.optional {c : Prop} [Decidable c] (h : ¬ c → s.persist = p.server.persist) :
    Stored m w p a e s (if c then [s.persist] else []) := by
  split
  · exact .saved
  next hno => exact .same (h hno)

/-- Without a higher term nothing is to be saved. -/
theorem Server.persist_raise (s : Server σ) {t : Nat} (h : ¬ s.currentTerm < t) (r : Role)
    (ldr : NodeID) :
    persist { s with
      role := r
      currentTerm := max s.currentTerm t
      votedFor := if s.currentTerm < t then none else s.votedFor
      leaderID := ldr } = s.persist := by
  rw [persist, persist]
  dsimp only
  rw [if_neg h, Nat.max_eq_left (Nat.le_of_not_lt h)]

theorem Phases.of_turn (hs : e.proc.server = s) (hws : e.writes = ws) (ht : Turn p.server s)
    (hst : Stored m w p a e s ws) :
    Phases m w id p a e :=
  ⟨ht, .none s, hst, .of_eq hs, by rw [hws, List.nil_append, List.append_nil]⟩

theorem Phases.of_eq (hs : e.proc.server = p.server) (hws : e.writes = []) :
    Phases m w id p a e :=
  .of_turn hs hws (.of_eq rfl) (.same rfl)

theorem Phases.of_work {snaps saves marker : List Write}
    (hwork : Work m w id p a e p.server s snaps) (hst : Stored m w p a e s saves)
    (hf : Finish m p.server.log s e.proc.server marker)
    (hws : e.writes = snaps ++ saves ++ marker) : Phases m w id p a e :=
  ⟨.of_eq rfl, hwork, hst, hf, hws⟩

theorem Phases.of_stepDown {t : Nat} (hs : e.proc.server = (p.server.stepDown t).1)
    (hws : e.writes = (p.server.stepDown t).2) : Phases m w id p a e :=
  .of_turn hs hws (.stepDown p.server t) .saved

theorem Phases.of_compact {snap : Snapshot}
    (hsnap : (.compact snap ∈ p.tasks ∧ ws = []) ∨
      ∃ threshold, a = .maybeCompact threshold ∧
        p.server.takeSnapshot m threshold = some snap ∧ ws = [.saveSnapshot snap])
    (hs : e.proc.server = (p.server.compact snap).1)
    (hws : e.writes = ws ++ (p.server.compact snap).2) : Phases m w id p a e := by
  have hst : Stored m w p a e (p.server.compact snap).1 (p.server.compact snap).2 := by
    rw [Server.compact]
    split
    · exact .same rfl
    · exact .saved
  exact .of_work (.compact snap ws hsnap hs hws) hst (.of_eq hs) (by rw [hws, List.append_nil])

theorem Phases.of_appendEntries {call : Nat} {c : Call} {recent : Bool} {args : AppendEntriesArgs}
    (hc : w.calls[call]? = some c) (hreq : c.request = .appendEntries args) :
    Phases m w id p (.deliver call recent) (p.handle m recent (.appendEntries args)) := by
  obtain ⟨role, -, hf⟩ := p.server.followLeader_frame args.term args.leaderID
  have hturn := Turn.followLeader p.server args.term args.leaderID
  have hsame (h : ¬ p.server.currentTerm < args.term) :
      (p.server.followLeader args.term args.leaderID).persist = p.server.persist := by
    rw [hf]
    exact p.server.persist_raise h role args.leaderID
  rw [Process.handle]
  by_cases hstop : p.server.stopped = true
  · rw [Server.appendEntries, if_pos (.inl hstop)]
    exact .of_eq rfl rfl
  rcases p.server.appendEntries_cases m args with ⟨-, he⟩ | ⟨-, -, he⟩ | ⟨hle, hmatch, s₂, rfl, he⟩
  · rw [he]
    exact .of_eq rfl rfl
  · rw [he]
    exact .of_turn rfl rfl hturn (.optional hsame)
  · obtain ⟨peers, ni, mi, ci, ht, -⟩ :=
      (p.server.followLeader args.term args.leaderID).takeEntries_frame args.prevLogIndex
        args.entries
    rw [he, ht]
    refine ⟨hturn, .entries call c recent args peers ni mi ci rfl hc hreq
        (Bool.eq_false_of_not_eq_true hstop) hle hmatch ht,
      .optional fun hno => ?_, .learn args hmatch (by rw [Server.received, hturn.log]), rfl⟩
    rw [not_or, Bool.not_eq_true] at hno
    rw [← hsame hno.2, Server.received, Server.persist, Server.persist, hturn.log,
      Log.appendFrom_unmodified hno.1]

theorem Phases.of_requestVote {recent : Bool} {args : RequestVoteArgs} :
    Phases m w id p a (p.handle m recent (.requestVote args)) := by
  rw [Process.handle]
  rcases p.server.requestVote_cases args recent with he | ⟨-, he⟩ | ⟨-, hfree, -, s₂, rfl, he⟩
  · rw [he]
    exact .of_eq rfl rfl
  · rw [he]
    refine .of_turn rfl rfl (.observeTerm p.server args.term) (.optional fun hno => ?_)
    rw [Server.observeTerm_frame]
    exact p.server.persist_raise hno _ p.server.leaderID
  · rw [he]
    exact .of_turn rfl rfl (.grant hfree) .saved

theorem Phases.of_installSnapshot {call : Nat} {src : NodeID} {recent : Bool}
    {args : InstallSnapshotArgs} (hc : w.calls[call]? = some ⟨src, id, .installSnapshot args⟩) :
    Phases m w id p (.deliver call recent) (p.handle m recent (.installSnapshot args)) := by
  have hturn := Turn.heedSnapshot p.server args.term args.leaderID
  rcases p.server.installSnapshot_cases m args with ⟨-, he⟩ | ⟨-, hno, he⟩ |
    ⟨hterm, hbase, happ, x, hx, s₂, rfl, he⟩
  · rw [Process.handle, he]
    exact .of_eq rfl rfl
  · rw [Process.handle, he]
    refine .of_turn rfl rfl hturn ?_
    rw [Server.heedSnapshot_frame]
    by_cases hlt : p.server.currentTerm < args.term
    · refine .unsaved ?_ (Nat.lt_of_lt_of_le hlt (Nat.le_max_right _ _)) (if_pos hlt)
        (if_pos hlt) rfl rfl
      rw [Process.adoptsUnsaved, hc]
      simp only [Server.heedsOnly, Bool.and_eq_true, Bool.or_eq_true, decide_eq_true_eq,
        Option.isNone_iff_eq_none, or_assoc]
      exact ⟨hlt, hno⟩
    · exact .same (p.server.persist_raise hlt _ args.leaderID)
  · have hin : Installs m w id p (.deliver call recent)
        (p.handle m recent (.installSnapshot args)) src args := by
      refine ⟨call, recent, x, rfl, hc, hx, hterm, hbase, happ, ?_, ?_⟩
      · rw [Process.handle, he]
      · rw [Process.handle, he]
        rfl
    refine ⟨hturn, .install src args x hin, .saved, .of_eq ?_, ?_⟩
    · rw [Process.handle, he]
      rfl
    · rw [Process.handle, he]
      rfl

/-- **The phases of a section.** -/
theorem Move.phases (hm : Move m w id p a e) :
    Phases m w id p a e := by
  cases hm with
  | idle p' hserver => exact .of_eq hserver rfl
  | stop =>
    exact .of_turn rfl rfl ⟨⟨_, _, _, _, _, _, rfl⟩, le_rfl, fun _ => .inr rfl,
      .inl ⟨rfl, rfl⟩⟩ (.same rfl)
  | startElection i ht =>
    refine .of_turn ?_ ?_ (.startElection p.server) .saved
    · rw [Process.startElection]
      dsimp only
      split <;> rfl
    · rw [Process.startElection]
      dsimp only
      split <;> rfl
  | becomeLeader i term s ws ht hs =>
    rw [Server.becomeLeader, Option.ite_none_left_eq_some, Option.some.injEq] at hs
    obtain ⟨hno, ⟨⟩⟩ := hs
    rw [not_or, not_not, not_not] at hno
    exact .of_work (.lead i rfl (by rw [hno.2]; exact ht) hno.1) .saved .advance rfl
  | countVote i term peer ht =>
    refine .of_eq ?_ rfl
    rw [Process.countVote]
    dsimp only
    split <;> rfl
  | sendEntries | sendSnapshot | sendBeat | voteReply | takeSnapshot => exact .of_eq rfl rfl
  | saveSnapshot i snap ht => exact .of_work (.store i snap rfl ht rfl rfl) (.same rfl) .rest rfl
  | compact i snap ht => exact .of_compact (.inl ⟨List.mem_of_getElem? ht, rfl⟩) rfl rfl
  | stepDown i r term hterm => exact .of_stepDown rfl rfl
  | appendReply i j call peer term k r ht hr =>
    have hmem := List.mem_of_getElem? ht
    rw [Server.onAppendReply]
    split
    · exact .of_stepDown rfl rfl
    split
    · exact .of_eq rfl rfl
    split
    · obtain ⟨ni, mi, heq, hbooks⟩ := p.server.recordMatch_frame peer k
      rw [heq]
      exact .of_work (.tracked i j call peer term k ni mi rfl (.inl hmem) hbooks) (.same rfl)
        .advance rfl
    · obtain ⟨ni, heq, hbooks⟩ := p.server.backUp_frame peer
      rw [heq]
      exact .of_work (.tracked i j call peer term k ni p.server.matchIndex rfl (.inl hmem)
        fun q hq => ⟨hbooks q hq, rfl⟩) (.same rfl) .rest rfl
  | snapshotReply i j call peer term idx r ht hr =>
    rw [Server.onSnapshotReply]
    split
    · exact .of_stepDown rfl rfl
    split
    · exact .of_eq rfl rfl
    · obtain ⟨ni, mi, heq, hbooks⟩ := p.server.recordSnapshot_frame peer idx
      rw [heq]
      exact .of_work (.tracked i j call peer term idx ni mi rfl (.inr (List.mem_of_getElem? ht))
        hbooks) (.same rfl) .advance rfl
  | handle call c recent hc hdst =>
    cases hreq : c.request with
    | appendEntries args => exact .of_appendEntries hc hreq
    | requestVote args => exact .of_requestVote
    | installSnapshot args =>
      obtain ⟨src, dst, req⟩ := c
      cases hdst
      cases hreq
      exact .of_installSnapshot hc
  | submit cmd s ws hs =>
    rw [Server.submit, Option.ite_none_left_eq_some, Option.some.injEq] at hs
    obtain ⟨-, ⟨⟩⟩ := hs
    exact .of_work (.own cmd rfl) .saved .advance rfl
  | addServer x s ws hs =>
    obtain ⟨-, -, -, C, ni, mi, -, -, rfl, rfl⟩ := Server.changeConfiguration_cases hs
    exact .of_work (.config x C ni mi _ (.inl ⟨rfl, hs⟩)) .saved .rest rfl
  | removeServer x s ws hs =>
    obtain ⟨-, -, -, C, ni, mi, -, -, rfl, rfl⟩ := Server.changeConfiguration_cases hs
    exact .of_work (.config x C ni mi _ (.inr ⟨rfl, hs⟩)) .saved .rest rfl
  | maybeCompact threshold snap hs =>
    exact .of_compact (.inr ⟨threshold, rfl, hs, rfl⟩) rfl rfl

end Inversion

end CoreBank.Raft
