import CoreBank.Raft.Types

/-!
# One server

The Go struct `Server` without its lock, its timers and its failure counters, and everything it does
while it holds the lock.  A locked section is a function from the server to the server; next to the
new server it returns the writes it makes to stable storage, in order, and what it sends or replies.
What follows when a reply arrives is put together in `CoreBank.Raft.Cluster`.

## What is here

* `Server`, `Disk`, `Write` — volatile state, stable storage, and the three kinds of write;
* the handlers `appendEntries`, `requestVote` and `installSnapshot`;
* the sections of the role loop: `startElection`, `becomeLeader`, `replicateTo`, and what is done
  with a reply; `advanceCommitIndex` and `applyCommitted`;
* `submit`, `addServer`, `removeServer`, and compaction;
* `restore` — what a new process makes of the storage it finds.

The two uses of a clock are parameters: whether a leader was heard from within the minimum election
timeout (`recent` in `requestVote`), and when a timer has run out.
-/

set_option autoImplicit false

namespace CoreBank.Raft

/-- What a leader tracks for each peer; Go reads a missing key as zero. -/
abbrev Progress := Map NodeID Nat

/-- A missing key reads as zero. -/
def Progress.at (m : Progress) (p : NodeID) : Nat := (m.lookup p).getD 0

/-! ## Stable storage -/

/-- The content of the state file. -/
structure Saved where
  term : Nat
  votedFor : Option NodeID
  log : Log
deriving DecidableEq, Repr

/-- What survives a crash: the state file, the snapshot file and the applied marker.  This is the
contract of `raft.Storage` and `raft.SnapshotStorage`, that what was saved last is loaded; the files
of `storage.RaftState` meet it for writes whose lengths their formats can hold. -/
structure Disk where
  state : Option Saved := none
  snapshot : Option Snapshot := none
  applied : Nat := 0
deriving DecidableEq, Repr

/-- A call of `Storage` or `SnapshotStorage`. -/
inductive Write
  | save (st : Saved)
  | saveSnapshot (snap : Snapshot)
  | saveApplied (i : Nat)
deriving DecidableEq, Repr

/-- What the disk holds after a write. -/
def Disk.write (d : Disk) : Write → Disk
  | .save st => { d with state := some st }
  | .saveSnapshot snap => { d with snapshot := some snap }
  | .saveApplied i => { d with applied := i }

/-- What the disk holds after some writes. -/
def Disk.writeAll (d : Disk) (ws : List Write) : Disk := ws.foldl Disk.write d

/-- `decodeState` yields a nil command for one without bytes. -/
def LogEntry.decoded (e : LogEntry) : LogEntry :=
  { e with command := e.command.filter fun c => c ≠ [] }

/-- The log as a restart decodes it. -/
def Log.decoded (l : Log) : Log where
  sentinel := l.sentinel.decoded
  entries := l.entries.map LogEntry.decoded
  covered := l.covered.map LogEntry.decoded

/-! ## The server -/

/-- The fields of `raft.Server` that Raft reads. -/
structure Server (σ : Type) where
  id : NodeID
  peers : List NodeID
  currentTerm : Nat := 0
  votedFor : Option NodeID := none
  log : Log := Log.empty
  commitIndex : Nat := 0
  lastApplied : Nat := 0
  nextIndex : Progress := ∅
  matchIndex : Progress := ∅
  role : Role := .follower
  /-- Empty if no leader is known. -/
  leaderID : NodeID := []
  sm : σ
  snapshot : Option Snapshot := none
  configChangeIndex : Nat := 0
  removedFromCluster : Bool := false
  running : Bool := false
  stopped : Bool := false

namespace Server

variable {σ : Type}

/-- The size of a quorum of the peers. -/
def majority (s : Server σ) : Nat := s.peers.length / 2 + 1

/-- Follow in `term`, if it is not an old one. -/
def becomeFollower (s : Server σ) (term : Nat) : Server σ :=
  if s.currentTerm < term then
    { s with role := .follower, currentTerm := term, votedFor := none }
  else { s with role := .follower }

/-- A higher term ends what the server was doing. -/
def observeTerm (s : Server σ) (t : Nat) : Server σ :=
  if s.currentTerm < t then s.becomeFollower t else s

/-- `persistLocked`. -/
def persist (s : Server σ) : Write := .save ⟨s.currentTerm, s.votedFor, s.log⟩

/-! ### Configurations -/

/-- The bookkeeping of a leader, cut to the members of a configuration: `next` for those that are
new. -/
def trackMembers (servers : List NodeID) (next : Nat) (nextIndex matchIndex : Progress) :
    Progress × Progress :=
  let added := servers.filter fun p => (nextIndex.lookup p).isNone
  let gone := nextIndex.keys.filter fun p => !servers.contains p
  (gone.foldl (fun m p => m.erase p) (added.foldl (fun m p => m.insert p next) nextIndex),
    gone.foldl (fun m p => m.erase p) (added.foldl (fun m p => m.insert p 0) matchIndex))

/-- Count with `servers`; a leader tracks the new ones. -/
def useConfiguration (s : Server σ) (servers : List NodeID) : Server σ :=
  if s.role ≠ .leader then { s with peers := servers }
  else
    let tracked := trackMembers servers (s.log.lastIndex + 1) s.nextIndex s.matchIndex
    { s with
      peers := servers
      nextIndex := tracked.1
      matchIndex := tracked.2.insert s.id s.log.lastIndex }

/-- The newest configuration entry of the slice that can be decoded. -/
def latestConfig (l : Log) : Option (Nat × List NodeID) :=
  l.entries.reverse.findSome? fun e => (configOf e.bytes).map (e.index, ·)

/-- Use the last configuration in the log. -/
def adoptConfigFromLog (s : Server σ) : Server σ :=
  match latestConfig s.log with
  | none => s
  | some (i, servers) => { s.useConfiguration servers with configChangeIndex := i }

/-- A leader steps down once a configuration without it has committed. -/
def checkSelfRemoval (s : Server σ) : Server σ :=
  if s.role ≠ .leader ∨ s.removedFromCluster then s
  else if s.configChangeIndex = 0 ∨ s.commitIndex < s.configChangeIndex then s
  else if s.peers.contains s.id then s
  else { s with removedFromCluster := true }.becomeFollower s.currentTerm

/-! ### Applying and committing -/

/-- Applying one entry; a no-op carries nothing to apply. -/
def applyEntry (m : StateMachine σ) (e : LogEntry) (x : σ) : σ :=
  match e.command with
  | none => x
  | some cmd => m.applyAt e.index cmd x

/-- The loop of `applyCommitted`, for at most `n` entries. -/
def applyLoop (m : StateMachine σ) : Nat → Server σ → Server σ
  | 0, s => s
  | n + 1, s =>
    match s.log.entryAt (s.lastApplied + 1) with
    | none => s
    | some e => applyLoop m n { s with lastApplied := s.lastApplied + 1, sm := applyEntry m e s.sm }

/-- The loop ends early, and nothing is recorded, if a committed entry is missing. -/
def applyCommitted (m : StateMachine σ) (s : Server σ) : Server σ × List Write :=
  let s' := applyLoop m (s.commitIndex - s.lastApplied) s
  (s', if 0 < s'.lastApplied ∧ s'.commitIndex ≤ s'.lastApplied then [.saveApplied s'.lastApplied]
    else [])

/-- The entry at `n` is of the current term and a majority of the peers matches it. -/
def canCommit (s : Server σ) (n : Nat) : Bool :=
  s.log.termAt n == some s.currentTerm &&
    decide (s.majority ≤ s.peers.countP fun p => decide (n ≤ s.matchIndex.at p))

/-- The largest index up to `n`, above the commit index, that can be committed. -/
def commitCandidate (s : Server σ) : Nat → Option Nat
  | 0 => none
  | n + 1 =>
    if n + 1 ≤ s.commitIndex then none
    else if s.canCommit (n + 1) then some (n + 1) else s.commitCandidate n

/-- The leader commits what a majority holds, and applies it. -/
def advanceCommitIndex (m : StateMachine σ) (s : Server σ) : Server σ × List Write :=
  if s.role ≠ .leader then (s, [])
  else
    match s.commitCandidate s.log.lastIndex with
    | none => (s, [])
    | some n =>
      let r := applyCommitted m { s with commitIndex := n }
      (r.1.checkSelfRemoval, r.2)

/-! ### AppendEntries -/

/-- What a request of a current leader changes before the log is looked at. -/
def followLeader (s : Server σ) (term : Nat) (leader : NodeID) : Server σ :=
  let s' := s.observeTerm term
  { s' with
    role := if s'.role = .candidate ∧ term = s'.currentTerm then .follower else s'.role
    leaderID := leader }

/-- Rules 3 and 4, with the configurations that arrive. -/
def takeEntries (s : Server σ) (prevLogIndex : Nat) (entries : List LogEntry) :
    Server σ × Bool :=
  let r := s.log.appendFrom prevLogIndex entries
  (if r.2 then { s with log := r.1 }.adoptConfigFromLog else { s with log := r.1 }, r.2)

/-- Rule 5. -/
def learnCommit (m : StateMachine σ) (s : Server σ) (leaderCommit lastNew : Nat) :
    Server σ × List Write :=
  if s.commitIndex < leaderCommit then
    applyCommitted m { s with commitIndex := min leaderCommit lastNew }
  else (s, [])

/-- `AppendEntries`, at the follower. -/
def appendEntries (m : StateMachine σ) (s : Server σ) (args : AppendEntriesArgs) :
    Server σ × List Write × AppendEntriesReply :=
  if s.stopped ∨ args.term < s.currentTerm then (s, [], ⟨s.currentTerm, false⟩)
  else
    let termChanged := decide (s.currentTerm < args.term)
    let s₁ := s.followLeader args.term args.leaderID
    if s₁.log.matchesPrevLog args.prevLogIndex args.prevLogTerm = false then
      (s₁, if termChanged then [s₁.persist] else [], ⟨s₁.currentTerm, false⟩)
    else
      let s₂ := s₁.takeEntries args.prevLogIndex args.entries
      let ws := if s₂.2 || termChanged then [s₂.1.persist] else []
      let s₃ := learnCommit m s₂.1 args.leaderCommit (args.prevLogIndex + args.entries.length)
      (s₃.1, ws ++ s₃.2, ⟨s₃.1.currentTerm, true⟩)

/-! ### RequestVote -/

/-- `RequestVote`; `recent`: a leader was heard of a moment ago. -/
def requestVote (s : Server σ) (args : RequestVoteArgs) (recent : Bool) :
    Server σ × List Write × RequestVoteReply :=
  if s.stopped ∨ args.term < s.currentTerm then (s, [], ⟨s.currentTerm, false⟩)
  else if s.leaderID ≠ [] ∧ s.role = .follower ∧ recent then (s, [], ⟨s.currentTerm, false⟩)
  else
    let termChanged := decide (s.currentTerm < args.term)
    let s₁ := s.observeTerm args.term
    if (s₁.votedFor ≠ none ∧ s₁.votedFor ≠ some args.candidateID) ∨
        s₁.log.isUpToDate args.lastLogIndex args.lastLogTerm = false then
      (s₁, if termChanged then [s₁.persist] else [], ⟨s₁.currentTerm, false⟩)
    else
      let s₂ := { s₁ with votedFor := some args.candidateID }
      (s₂, [s₂.persist], ⟨s₂.currentTerm, true⟩)

/-! ### InstallSnapshot -/

/-- The log after a snapshot: what follows the boundary is kept if the entry there is the one the
snapshot ends with. -/
def rebase (l : Log) (snap : Snapshot) : Log :=
  match l.entryAt snap.lastIncludedIndex with
  | some e =>
    if e.term = snap.lastIncludedTerm then
      l.discardThrough snap.lastIncludedIndex snap.lastIncludedTerm
    else ⟨⟨snap.lastIncludedTerm, snap.lastIncludedIndex, none⟩, [], snap.covered⟩
  | none => ⟨⟨snap.lastIncludedTerm, snap.lastIncludedIndex, none⟩, [], snap.covered⟩

/-- The term rule as `InstallSnapshot` writes it: a candidate of the same term stays one. -/
def heedSnapshot (s : Server σ) (term : Nat) (leader : NodeID) : Server σ :=
  if s.currentTerm < term then
    { s with currentTerm := term, votedFor := none, role := .follower, leaderID := leader }
  else { s with leaderID := leader }

/-- The server once its state machine was replaced by `x`. -/
def adoptSnapshot (s : Server σ) (snap : Snapshot) (x : σ) : Server σ :=
  { s with
    sm := x
    log := rebase s.log snap
    lastApplied := snap.lastIncludedIndex
    commitIndex := max s.commitIndex snap.lastIncludedIndex
    snapshot := some snap }

/-- `InstallSnapshot`, at the follower. -/
def installSnapshot (m : StateMachine σ) (s : Server σ) (args : InstallSnapshotArgs) :
    Server σ × List Write × InstallSnapshotReply :=
  if args.term < s.currentTerm then (s, [], ⟨s.currentTerm⟩)
  else
    let s₁ := s.heedSnapshot args.term args.leaderID
    if args.snapshot.lastIncludedIndex ≤ s₁.log.baseIndex ∨
        args.snapshot.lastIncludedIndex ≤ s₁.lastApplied then (s₁, [], ⟨s₁.currentTerm⟩)
    else
      match m.snapshotter.bind fun r => r.restoreSnapshot args.snapshot.data s₁.sm with
      | none => (s₁, [], ⟨s₁.currentTerm⟩)
      | some x =>
        let s₂ := s₁.adoptSnapshot args.snapshot x
        (s₂, [.saveSnapshot args.snapshot, s₂.persist], ⟨s₂.currentTerm⟩)

/-! ### Elections -/

/-- The new term and the vote for itself, durable before any request goes out. -/
def startElection (s : Server σ) : Server σ × List Write × RequestVoteArgs :=
  let s' := { s with
    role := .candidate, currentTerm := s.currentTerm + 1, votedFor := some s.id }
  (s', [s'.persist], ⟨s'.currentTerm, s'.id, s'.log.lastIndex, s'.log.lastTerm⟩)

/-- The server as leader, with the no-op of its term appended. -/
def lead (s : Server σ) : Server σ :=
  let idx := s.log.lastIndex + 1
  { s with
    role := .leader
    leaderID := s.id
    log := s.log.push ⟨s.currentTerm, idx, none⟩
    nextIndex := (s.peers.foldl (fun m p => m.insert p idx) s.nextIndex).insert s.id (idx + 1)
    matchIndex := (s.peers.foldl (fun m p => m.insert p 0) s.matchIndex).insert s.id idx }

/-- `none` if the server is no longer the candidate it was. -/
def becomeLeader (m : StateMachine σ) (s : Server σ) (term : Nat) :
    Option (Server σ × List Write) :=
  if s.role ≠ .candidate ∨ s.currentTerm ≠ term then none
  else
    let r := s.lead.advanceCommitIndex m
    some (r.1, s.lead.persist :: r.2)

/-- A reply with a higher term: step down and make the term durable. -/
def stepDown (s : Server σ) (term : Nat) : Server σ × List Write :=
  let s' := s.becomeFollower term
  (s', [s'.persist])

/-! ### Replication -/

/-- What `replicateTo` finds to send. -/
inductive Outgoing
  | nothing
  | snapshot
  | entries (args : AppendEntriesArgs)

/-- What the leader of `term` has to send to `peer`. -/
def replicateTo (s : Server σ) (peer : NodeID) (term : Nat) : Outgoing :=
  if s.role ≠ .leader ∨ s.currentTerm ≠ term then .nothing
  else
    let next := max (s.nextIndex.at peer) 1
    if next ≤ s.log.baseIndex then .snapshot
    else
      .entries {
        term := term
        leaderID := s.id
        prevLogIndex := next - 1
        prevLogTerm := (s.log.termAt (next - 1)).getD 0
        entries := if next ≤ s.log.lastIndex then s.log.slice.drop (s.log.slot next) else []
        leaderCommit := s.commitIndex }

/-- The peer holds the entries up to `k`, as it said. -/
def recordMatch (s : Server σ) (peer : NodeID) (k : Nat) : Server σ :=
  if s.matchIndex.at peer < k then
    { s with
      matchIndex := s.matchIndex.insert peer k
      nextIndex := s.nextIndex.insert peer (k + 1) }
  else s

/-- A failed consistency check: back up and probe again. -/
def backUp (s : Server σ) (peer : NodeID) : Server σ :=
  if 1 < s.nextIndex.at peer then
    { s with nextIndex := s.nextIndex.insert peer (s.nextIndex.at peer - 1) }
  else s

/-- The reply to an AppendEntries that carried the entries up to `k`. -/
def onAppendReply (m : StateMachine σ) (s : Server σ) (peer : NodeID) (term : Nat) (k : Nat)
    (reply : AppendEntriesReply) : Server σ × List Write :=
  if s.currentTerm < reply.term then s.stepDown reply.term
  else if s.role ≠ .leader ∨ s.currentTerm ≠ term then (s, [])
  else if reply.success then (s.recordMatch peer k).advanceCommitIndex m
  else (s.backUp peer, [])

/-- The snapshot that the leader of `term` sends. -/
def sendSnapshotTo (s : Server σ) (term : Nat) : Option InstallSnapshotArgs :=
  if s.role ≠ .leader ∨ s.currentTerm ≠ term then none
  else s.snapshot.map fun snap => ⟨s.currentTerm, s.id, snap⟩

/-- A peer that answered a snapshot holds everything through it. -/
def recordSnapshot (s : Server σ) (peer : NodeID) (idx : Nat) : Server σ :=
  { s with
    matchIndex := if s.matchIndex.at peer < idx then s.matchIndex.insert peer idx else s.matchIndex
    nextIndex :=
      if s.nextIndex.at peer < idx + 1 then s.nextIndex.insert peer (idx + 1) else s.nextIndex }

/-- The leader of `term` hears that `peer` has the snapshot. -/
def onSnapshotReply (m : StateMachine σ) (s : Server σ) (peer : NodeID) (term : Nat)
    (idx : Nat) (reply : InstallSnapshotReply) : Server σ × List Write :=
  if s.currentTerm < reply.term then s.stepDown reply.term
  else if s.role ≠ .leader ∨ s.currentTerm ≠ term then (s, [])
  else (s.recordSnapshot peer idx).advanceCommitIndex m

/-! ### Commands and configuration changes -/

/-- The leader's log with one more entry, which the leader itself matches. -/
def appendOwn (s : Server σ) (cmd : Bytes) : Server σ :=
  let idx := s.log.lastIndex + 1
  { s with
    log := s.log.push ⟨s.currentTerm, idx, some cmd⟩
    matchIndex := s.matchIndex.insert s.id idx }

/-- `none` if this server is not the leader. -/
def submit (m : StateMachine σ) (s : Server σ) (cmd : Bytes) : Option (Server σ × List Write) :=
  if s.role ≠ .leader ∨ s.stopped then none
  else
    let r := (s.appendOwn cmd).advanceCommitIndex m
    some (r.1, (s.appendOwn cmd).persist :: r.2)

/-- `none` for each of the errors. -/
def changeConfiguration (s : Server σ) (mutate : Configuration → Option Configuration) :
    Option (Server σ × List Write) :=
  if s.role ≠ .leader then none
  else if s.peers.contains s.id = false then none
  else if s.commitIndex < s.configChangeIndex then none
  else
    match mutate ⟨s.peers⟩ with
    | none => none
    | some next =>
      if Configuration.differsByOne ⟨s.peers⟩ next = false then none
      else
        let s' := { s.appendOwn (encodeConfig next) with
          configChangeIndex := s.log.lastIndex + 1 }.useConfiguration next.servers
        some (s', [s'.persist])

/-- `AddServer`, up to the append. -/
def addServer (s : Server σ) (id : NodeID) : Option (Server σ × List Write) :=
  s.changeConfiguration fun c => if c.contains id then none else some (c.withServer id)

/-- `RemoveServer`, up to the append. -/
def removeServer (s : Server σ) (id : NodeID) : Option (Server σ × List Write) :=
  s.changeConfiguration fun c =>
    if c.contains id = false then none
    else if c.servers.length = 1 then none
    else some (c.withoutServer id)

/-! ### Compaction -/

/-- The first section of `MaybeCompact`: the snapshot to be saved, if there is one to take. -/
def takeSnapshot (m : StateMachine σ) (s : Server σ) (threshold : Nat) : Option Snapshot :=
  match m.snapshotter with
  | none => none
  | some r =>
    if s.lastApplied ≤ s.log.baseIndex ∨ s.log.entries.length < threshold then none
    else
      match s.log.entryAt s.lastApplied, r.snapshot s.sm with
      | some e, some data =>
        some ⟨e.index, e.term, data, s.log.logical.take e.index⟩
      | _, _ => none

/-- The second section, after the snapshot was saved. -/
def compact (s : Server σ) (snap : Snapshot) : Server σ × List Write :=
  if snap.lastIncludedIndex ≤ s.log.baseIndex ∨ s.log.lastIndex < snap.lastIncludedIndex ∨
      s.log.termAt snap.lastIncludedIndex ≠ some snap.lastIncludedTerm then (s, [])
  else
    let s' := { s with
      log := s.log.discardThrough snap.lastIncludedIndex snap.lastIncludedTerm
      snapshot := some snap }
    (s', [s'.persist])

/-! ### Starting -/

/-- `NewServerWith`. -/
def new (m : StateMachine σ) (id : NodeID) (peers : List NodeID) : Server σ :=
  { id := id, peers := peers, sm := m.new }

/-- The part of `Restore` that reads the state file. -/
def loadState (s : Server σ) (st : Saved) : Server σ :=
  { { s with
      currentTerm := st.term
      votedFor := st.votedFor
      log := st.log.decoded
      role := .follower }.adoptConfigFromLog with
    commitIndex := 0
    lastApplied := 0 }

/-- The part that reads the snapshot file: an error if the state machine cannot restore it. -/
def loadSnapshot (m : StateMachine σ) (s : Server σ) (snap : Snapshot) : Option (Server σ) :=
  match m.snapshotter.bind fun r => r.restoreSnapshot snap.data s.sm with
  | none => none
  | some x =>
    some { s with
      sm := x
      snapshot := some snap
      commitIndex := snap.lastIncludedIndex
      lastApplied := snap.lastIncludedIndex
      log := if s.log.baseIndex < snap.lastIncludedIndex then rebase s.log snap else s.log }

/-- Applying the entries at the `n` indices from `i` on; an error if one is missing. -/
def replay (m : StateMachine σ) (l : Log) : Nat → Nat → σ → Option σ
  | 0, _, x => some x
  | n + 1, i, x =>
    match l.entryAt i with
    | none => none
    | some e => replay m l n (i + 1) (applyEntry m e x)

/-- The applied marker, clamped to the part of the log that can be replayed. -/
def clampApplied (l : Log) (applied : Nat) : Nat :=
  min (max applied l.baseIndex) l.lastIndex

/-- The part that replays the log up to the applied marker. -/
def loadApplied (m : StateMachine σ) (s : Server σ) (applied : Nat) : Option (Server σ) :=
  let prev := clampApplied s.log applied
  (replay m s.log (prev - s.log.baseIndex) (s.log.baseIndex + 1) s.sm).map fun x =>
    { s with sm := x, commitIndex := max s.commitIndex prev, lastApplied := max s.lastApplied prev }

/-- The server reads its disk; none if that fails. -/
def restore (m : StateMachine σ) (s : Server σ) (d : Disk) : Option (Server σ) :=
  match d.state with
  | none => some s
  | some st =>
    let s₁ := s.loadState st
    (match d.snapshot with
      | none => some s₁
      | some snap => loadSnapshot m s₁ snap).bind fun s₂ => loadApplied m s₂ d.applied

end Server

end CoreBank.Raft
