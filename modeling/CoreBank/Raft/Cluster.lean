import CoreBank.Lib.Run
import CoreBank.Raft.Server

/-!
# Servers, goroutines and the network

A process is a server together with its goroutines.  A goroutine is a `Task`: what it will do the
next time it takes the lock, or the reply it waits for.  One step of a process is one locked
section, which is atomic; what the section sends goes into the network, and what it has left to do
becomes tasks of its own.

The network keeps every request and every reply for good.  A request may be delivered any number of
times, at any later time, or never; a goroutine that waits for a reply takes any of the replies to
its call, or none.

A crash drops the process and keeps the disk.  It may also fall inside a section: `cut` says after
how many of the section's writes, and then nothing the section sends or replies gets out.  `boot`
is `NewServerWith`, `Restore` and `Start`; it is also how a server starts for the first time.
-/

set_option autoImplicit false

namespace CoreBank.Raft

variable {σ : Type}

/-! ## Messages -/

/-- The arguments of the three calls. -/
inductive Request
  | appendEntries (args : AppendEntriesArgs)
  | requestVote (args : RequestVoteArgs)
  | installSnapshot (args : InstallSnapshotArgs)
deriving DecidableEq, Repr

/-- The replies to the three calls. -/
inductive Reply
  | appendEntries (r : AppendEntriesReply)
  | requestVote (r : RequestVoteReply)
  | installSnapshot (r : InstallSnapshotReply)
deriving DecidableEq, Repr

/-- A request that was sent; the position in the network's list identifies the call. -/
structure Call where
  src : NodeID
  dst : NodeID
  request : Request
deriving DecidableEq, Repr

/-! ## Processes -/

/-- What a goroutine does with the reply it waits for. -/
inductive Pending
  /-- A vote of `peer` in the election of `term`. -/
  | vote (term : Nat) (peer : NodeID)
  /-- The entries up to `k` were sent to `peer`. -/
  | append (peer : NodeID) (term : Nat) (k : Nat)
  | snapshot (peer : NodeID) (term : Nat) (idx : Nat)
  /-- The heartbeat of a read. -/
  | beat (rid : Nat)
deriving DecidableEq, Repr

/-- What a goroutine is about to do. -/
inductive Task
  | startElection
  | becomeLeader (term : Nat)
  | broadcast
  | replicateTo (peer : NodeID) (term : Nat)
  | sendSnapshotTo (peer : NodeID) (term : Nat)
  /-- A granted vote that is not counted yet. -/
  | countVote (term : Nat) (peer : NodeID)
  /-- A heartbeat of a read that is not sent yet. -/
  | beat (rid : Nat) (peer : NodeID)
  /-- An answered heartbeat that is not counted yet. -/
  | countAck (rid : Nat)
  /-- `MaybeCompact` between its two sections, before and after `SaveSnapshot`. -/
  | saveSnapshot (snap : Snapshot)
  | compact (snap : Snapshot)
  | await (call : Nat) (k : Pending)
deriving DecidableEq, Repr

/-- The variables that the goroutines of one election share. -/
structure Election where
  term : Nat
  needed : Nat
  votes : Nat := 1
  resolved : Bool := false
deriving DecidableEq, Repr

/-- How far a call of `LinearizableRead` has come. -/
inductive Stage (σ : Type)
  /-- `ReadIndex` waits for a majority. -/
  | waiting
  /-- `ReadIndex` has returned. -/
  | index
  /-- `lastApplied` has reached the read index. -/
  | ready
  /-- `fn` was called with `sm` when `applied` entries had been applied. -/
  | done (applied : Nat) (sm : σ)
  | failed
deriving DecidableEq

/-- A call of `LinearizableRead`, with the variables its goroutines share. -/
structure Read (σ : Type) where
  term : Nat
  idx : Nat
  needed : Nat
  acks : Nat := 1
  confirmed : Bool := false
  stage : Stage σ := .waiting

/-- A running server with its goroutines. -/
structure Process (σ : Type) where
  server : Server σ
  tasks : List Task := []
  elections : List Election := []
  /-- The position in the list identifies the read. -/
  reads : List (Read σ) := []

/-- A server's disk, and its process. -/
structure Node (σ : Type) where
  disk : Disk := {}
  /-- None while the server is down. -/
  proc : Option (Process σ) := none

/-- The nodes, and every call and reply ever sent. -/
structure World (σ : Type) where
  nodes : Map NodeID (Node σ) := ∅
  calls : List Call := []
  replies : List (Nat × Reply) := []

/-- What the servers are started with. -/
structure Cluster (σ : Type) where
  machine : StateMachine σ
  peers : NodeID → List NodeID

/-- A node that never started has an empty disk. -/
def World.node (w : World σ) (id : NodeID) : Node σ := (w.nodes.lookup id).getD {}

/-- The world with another node at `id`. -/
def World.setNode (w : World σ) (id : NodeID) (n : Node σ) : World σ :=
  { w with nodes := w.nodes.insert id n }

/-! ## One section -/

/-- What a section does: the process after it, the writes, the calls it makes with what becomes of
their replies, and the reply it gives. -/
structure Effect (σ : Type) where
  proc : Process σ
  writes : List Write := []
  calls : List (NodeID × Request × Pending) := []
  reply : Option Reply := none

/-- What a process may do next.  `run` and `receive` continue the goroutine at a position of the
task list; `receive` says which of the network's replies it gets. -/
inductive Local
  | tick (timedOut heartbeatDue : Bool)
  | stop
  | run (i : Nat)
  | receive (i : Nat) (r : Nat)
  | deliver (call : Nat) (recent : Bool)
  | submit (cmd : Bytes)
  | addServer (id : NodeID)
  | removeServer (id : NodeID)
  /-- `MaybeCompact` without interruption. -/
  | maybeCompact (threshold : Nat)
  /-- The first section of `MaybeCompact`. -/
  | takeSnapshot (threshold : Nat)
  | read
  | confirm (rid : Nat)
  | ready (rid : Nat)
  | answer (rid : Nat)
  | expire (rid : Nat)
deriving DecidableEq, Repr

namespace Process

/-- Goroutines start. -/
def spawn (p : Process σ) (ts : List Task) : Process σ := { p with tasks := p.tasks ++ ts }

/-- The process with another server. -/
def withServer (p : Process σ) (s : Server σ) : Process σ := { p with server := s }

/-- The peers a server talks to: all but itself. -/
def others (s : Server σ) : List NodeID := s.peers.filter fun p => p ≠ s.id

/-- The role loop reads the role, and acts on it in a later section. -/
def tick (p : Process σ) (timedOut heartbeatDue : Bool) : Process σ :=
  if p.server.role = .leader then
    if heartbeatDue then p.spawn [.broadcast] else p
  else if timedOut then p.spawn [.startElection] else p

/-- A candidate asks its peers, or wins alone. -/
def startElection (p : Process σ) : Effect σ :=
  let r := p.server.startElection
  let s := r.1
  if s.majority ≤ 1 then
    { proc := (p.withServer s).spawn [.becomeLeader s.currentTerm], writes := r.2.1 }
  else
    { proc := { p.withServer s with
        elections := p.elections ++ [⟨s.currentTerm, s.majority, 1, false⟩] }
      writes := r.2.1
      calls := (others s).map fun q => (q, .requestVote r.2.2, .vote s.currentTerm q) }

/-- A new leader sends to its peers at once. -/
def becomeLeader (m : StateMachine σ) (p : Process σ) (term : Nat) : Effect σ :=
  match p.server.becomeLeader m term with
  | none => { proc := p }
  | some (s, ws) => { proc := (p.withServer s).spawn [.broadcast], writes := ws }

/-- One goroutine for each peer. -/
def broadcast (p : Process σ) : Process σ :=
  if p.server.role ≠ .leader then p
  else p.spawn ((others p.server).map fun q => .replicateTo q p.server.currentTerm)

/-- Send entries, or go on with a snapshot. -/
def replicateTo (p : Process σ) (peer : NodeID) (term : Nat) : Effect σ :=
  match p.server.replicateTo peer term with
  | .nothing => { proc := p }
  | .snapshot => { proc := p.spawn [.sendSnapshotTo peer term] }
  | .entries args =>
    { proc := p
      calls := [(peer, .appendEntries args,
        .append peer term (args.prevLogIndex + args.entries.length))] }

/-- Send the snapshot. -/
def sendSnapshotTo (p : Process σ) (peer : NodeID) (term : Nat) : Effect σ :=
  match p.server.sendSnapshotTo term with
  | none => { proc := p }
  | some args =>
    { proc := p
      calls := [(peer, .installSnapshot args,
        .snapshot peer term args.snapshot.lastIncludedIndex)] }

/-- One more vote in the election of `term`; the vote that completes the majority promotes the
server. -/
def countVote (p : Process σ) (term : Nat) : Process σ :=
  let won := p.elections.any fun e =>
    e.term == term && !e.resolved && decide (e.needed ≤ e.votes + 1)
  let p' := { p with elections := p.elections.map fun e =>
    if e.term = term then
      { e with votes := e.votes + 1, resolved := e.resolved || decide (e.needed ≤ e.votes + 1) }
    else e }
  if won then p'.spawn [.becomeLeader term] else p'

/-- The process with another state of read `rid`. -/
def setRead (p : Process σ) (rid : Nat) (r : Read σ) : Process σ :=
  { p with reads := p.reads.set rid r }

/-- The start of `ReadIndex` on a leader. -/
def read (p : Process σ) : Option (Process σ) :=
  let s := p.server
  if s.role ≠ .leader then none
  else if s.majority ≤ 1 then
    some { p with reads :=
      p.reads ++ [⟨s.currentTerm, s.commitIndex, s.majority, 1, false, .index⟩] }
  else
    let p' : Process σ := { p with
      reads := p.reads ++ [⟨s.currentTerm, s.commitIndex, s.majority, 1, false, .waiting⟩] }
    some (p'.spawn ((others s).map fun q => .beat p.reads.length q))

/-- The heartbeat carries the term the read was started in, and the log as it is now. -/
def beat (p : Process σ) (rid : Nat) (peer : NodeID) : Effect σ :=
  match p.reads[rid]? with
  | none => { proc := p }
  | some r =>
    { proc := p
      calls := [(peer, .appendEntries {
        term := r.term
        leaderID := p.server.id
        prevLogIndex := p.server.log.lastIndex
        prevLogTerm := p.server.log.lastTerm
        entries := []
        leaderCommit := p.server.commitIndex }, .beat rid)] }

/-- Read `rid` counts one more heartbeat. -/
def countAck (p : Process σ) (rid : Nat) : Process σ :=
  match p.reads[rid]? with
  | none => p
  | some r =>
    p.setRead rid { r with
      acks := r.acks + 1, confirmed := r.confirmed || decide (r.needed ≤ r.acks + 1) }

/-- `ReadIndex` after a majority has answered. -/
def confirm (p : Process σ) (rid : Nat) : Option (Process σ) :=
  match p.reads[rid]? with
  | some ⟨term, idx, needed, acks, true, .waiting⟩ =>
    if p.server.role ≠ .leader ∨ p.server.currentTerm ≠ term then
      some (p.setRead rid ⟨term, idx, needed, acks, true, .failed⟩)
    else some (p.setRead rid ⟨term, idx, needed, acks, true, .index⟩)
  | _ => none

/-- `LinearizableRead` finds that the read index was applied. -/
def ready (p : Process σ) (rid : Nat) : Option (Process σ) :=
  match p.reads[rid]? with
  | some ⟨term, idx, needed, acks, c, .index⟩ =>
    if idx ≤ p.server.lastApplied then
      some (p.setRead rid ⟨term, idx, needed, acks, c, .ready⟩)
    else none
  | _ => none

/-- `LinearizableRead` calls `fn`. -/
def answer (p : Process σ) (rid : Nat) : Option (Process σ) :=
  match p.reads[rid]? with
  | some ⟨term, idx, needed, acks, c, .ready⟩ =>
    some (p.setRead rid
      ⟨term, idx, needed, acks, c, .done p.server.lastApplied p.server.sm⟩)
  | _ => none

/-- A timeout of `ReadIndex` or of the wait for `lastApplied`. -/
def expire (p : Process σ) (rid : Nat) : Option (Process σ) :=
  match p.reads[rid]? with
  | some ⟨term, idx, needed, acks, c, .waiting⟩ =>
    some (p.setRead rid ⟨term, idx, needed, acks, c, .failed⟩)
  | some ⟨term, idx, needed, acks, c, .index⟩ =>
    some (p.setRead rid ⟨term, idx, needed, acks, c, .failed⟩)
  | _ => none

/-- A goroutine that waits for nothing continues. -/
def run (m : StateMachine σ) (p : Process σ) : Task → Option (Effect σ)
  | .startElection => some p.startElection
  | .becomeLeader term => some (p.becomeLeader m term)
  | .broadcast => some { proc := p.broadcast }
  | .replicateTo peer term => some (p.replicateTo peer term)
  | .sendSnapshotTo peer term => some (p.sendSnapshotTo peer term)
  | .countVote term _ => some { proc := p.countVote term }
  | .beat rid peer => some (p.beat rid peer)
  | .countAck rid => some { proc := p.countAck rid }
  | .saveSnapshot snap => some { proc := p.spawn [.compact snap], writes := [.saveSnapshot snap] }
  | .compact snap =>
    let r := p.server.compact snap
    some { proc := p.withServer r.1, writes := r.2 }
  | .await _ _ => none

/-- A goroutine continues with the reply it waited for. -/
def receive (m : StateMachine σ) (p : Process σ) : Pending → Reply → Option (Effect σ)
  | .vote term peer, .requestVote r =>
    if p.server.currentTerm < r.term then
      let d := p.server.stepDown r.term
      some { proc := p.withServer d.1, writes := d.2 }
    else if p.server.currentTerm ≠ term ∨ p.server.role ≠ .candidate ∨ r.voteGranted = false then
      some { proc := p }
    else some { proc := p.spawn [.countVote term peer] }
  | .append peer term k, .appendEntries r =>
    let d := p.server.onAppendReply m peer term k r
    some { proc := p.withServer d.1, writes := d.2 }
  | .snapshot peer term idx, .installSnapshot r =>
    let d := p.server.onSnapshotReply m peer term idx r
    some { proc := p.withServer d.1, writes := d.2 }
  | .beat rid, .appendEntries r =>
    if p.server.currentTerm < r.term then
      let d := p.server.stepDown r.term
      some { proc := p.withServer d.1, writes := d.2 }
    else
      match p.reads[rid]? with
      | none => some { proc := p }
      | some rd =>
        if p.server.role ≠ .leader ∨ p.server.currentTerm ≠ rd.term then some { proc := p }
        else some { proc := p.spawn [.countAck rid] }
  | _, _ => none

/-- A request arrives. -/
def handle (m : StateMachine σ) (p : Process σ) (recent : Bool) : Request → Effect σ
  | .appendEntries args =>
    let r := p.server.appendEntries m args
    { proc := p.withServer r.1, writes := r.2.1, reply := some (.appendEntries r.2.2) }
  | .requestVote args =>
    let r := p.server.requestVote args recent
    { proc := p.withServer r.1, writes := r.2.1, reply := some (.requestVote r.2.2) }
  | .installSnapshot args =>
    let r := p.server.installSnapshot m args
    { proc := p.withServer r.1, writes := r.2.1, reply := some (.installSnapshot r.2.2) }

/-- A section that only appends to the leader's log, and then replicates if `replicate` says so. -/
def ofAppend (p : Process σ) (replicate : List Task) :
    Option (Server σ × List Write) → Option (Effect σ)
  | none => none
  | some (s, ws) => some { proc := (p.withServer s).spawn replicate, writes := ws }

/-- `MaybeCompact` as one step: both sections and the write between them. -/
def maybeCompact (m : StateMachine σ) (p : Process σ) (threshold : Nat) : Option (Effect σ) :=
  (p.server.takeSnapshot m threshold).map fun snap =>
    let r := p.server.compact snap
    { proc := p.withServer r.1, writes := .saveSnapshot snap :: r.2 }

end Process

/-- One section of the process of a server.  A call that returns an error and changes nothing is
no step. -/
def Process.act (m : StateMachine σ) (w : World σ) (id : NodeID) (p : Process σ) :
    Local → Option (Effect σ)
  | .tick timedOut heartbeatDue =>
    if p.server.running then some { proc := p.tick timedOut heartbeatDue } else none
  | .stop =>
    if p.server.running then
      some { proc := p.withServer { p.server with running := false, stopped := true } }
    else none
  | .run i =>
    match p.tasks[i]? with
    | none => none
    | some t => Process.run m { p with tasks := p.tasks.eraseIdx i } t
  | .receive i r =>
    match p.tasks[i]?, w.replies[r]? with
    | some (.await call k), some (call', reply) =>
      if call = call' then Process.receive m { p with tasks := p.tasks.eraseIdx i } k reply
      else none
    | _, _ => none
  | .deliver call recent =>
    match w.calls[call]? with
    | none => none
    | some c => if c.dst = id then some (p.handle m recent c.request) else none
  | .submit cmd => p.ofAppend [.broadcast] (p.server.submit m cmd)
  | .addServer x => p.ofAppend [] (p.server.addServer x)
  | .removeServer x => p.ofAppend [] (p.server.removeServer x)
  | .maybeCompact threshold => p.maybeCompact m threshold
  | .takeSnapshot threshold =>
    (p.server.takeSnapshot m threshold).map fun snap => { proc := p.spawn [.saveSnapshot snap] }
  | .read => p.read.map fun p' => { proc := p' }
  | .confirm rid => (p.confirm rid).map fun p' => { proc := p' }
  | .ready rid => (p.ready rid).map fun p' => { proc := p' }
  | .answer rid => (p.answer rid).map fun p' => { proc := p' }
  | .expire rid => (p.expire rid).map fun p' => { proc := p' }

/-! ## One step of the cluster -/

/-- What may happen in the cluster. -/
inductive Action
  | boot (id : NodeID)
  | crash (id : NodeID)
  | act (id : NodeID) (a : Local)
  /-- The process crashes in the section, after `k` of its writes. -/
  | cut (id : NodeID) (a : Local) (k : Nat)
deriving DecidableEq, Repr

namespace Action

/-- The election timer of the server runs out. -/
abbrev timeout (id : NodeID) : Action := .act id (.tick true false)

/-- The heartbeat of the server is due. -/
abbrev heartbeat (id : NodeID) : Action := .act id (.tick false true)

/-- The goroutine at position `i` of the server takes its next section. -/
abbrev run (id : NodeID) (i : Nat) : Action := .act id (.run i)

/-- The goroutine at position `i` of the server gets reply `r`. -/
abbrev receive (id : NodeID) (i r : Nat) : Action := .act id (.receive i r)

/-- A call is delivered to a server that has not heard from a leader recently. -/
abbrev deliver (id : NodeID) (call : Nat) : Action := .act id (.deliver call false)

end Action

/-- The process that `boot` starts, if `Restore` succeeds. -/
def Cluster.start (cl : Cluster σ) (id : NodeID) (d : Disk) : Option (Process σ) :=
  ((Server.new cl.machine id (cl.peers id)).restore cl.machine d).map fun s =>
    { server := { s with running := true } }

/-- The reply of a delivered request, under the number of its call. -/
def Local.replies : Local → Option Reply → List (Nat × Reply)
  | .deliver call _, some r => [(call, r)]
  | _, _ => []

/-- The goroutines that wait for the replies to the calls just made, which get the numbers from
`n` on. -/
def awaiting (n : Nat) (calls : List (NodeID × Request × Pending)) : List Task :=
  calls.zipIdx.map fun c => .await (n + c.2) c.1.2.2

/-- The world after a section was carried out to its end. -/
def World.commit (w : World σ) (id : NodeID) (a : Local) (e : Effect σ) : World σ where
  nodes := w.nodes.insert id
    { disk := (w.node id).disk.writeAll e.writes
      proc := some (e.proc.spawn (awaiting w.calls.length e.calls)) }
  calls := w.calls ++ e.calls.map fun c => ⟨id, c.1, c.2.1⟩
  replies := w.replies ++ a.replies e.reply

/-- One step of the cluster. -/
def exec (cl : Cluster σ) (w : World σ) : Action → Option (World σ)
  | .boot id =>
    match (w.node id).proc with
    | some _ => none
    | none =>
      (cl.start id (w.node id).disk).map fun p => w.setNode id { w.node id with proc := some p }
  | .crash id =>
    match (w.node id).proc with
    | none => none
    | some _ => some (w.setNode id { w.node id with proc := none })
  | .act id a =>
    match (w.node id).proc with
    | none => none
    | some p => (p.act cl.machine w id a).map fun e => w.commit id a e
  | .cut id a k =>
    match (w.node id).proc with
    | none => none
    | some p => (p.act cl.machine w id a).map fun e =>
        w.setNode id { disk := (w.node id).disk.writeAll (e.writes.take k), proc := none }

/-- The server of a running process. -/
def World.server (w : World σ) (id : NodeID) : Option (Server σ) :=
  (w.node id).proc.map Process.server

/-- The section that the action takes is one that meets `P`. -/
def World.Takes (w : World σ) (P : NodeID → Process σ → Local → Prop) : Action → Prop
  | .act id a => ∀ p ∈ (w.node id).proc, P id p a
  | _ => True

instance (w : World σ) (P : NodeID → Process σ → Local → Prop) [∀ id p a, Decidable (P id p a)]
    (a : Action) : Decidable (w.Takes P a) := by
  induction a using Action.casesOn <;> unfold World.Takes <;> infer_instance

/-! ## A small state machine

It keeps the bytes of every command it applied, in order, and its snapshot is that record.  The
schedules that show how a property fails run on it. -/

/-- A machine that remembers every command. -/
def journal : StateMachine Bytes where
  new := []
  applyAt _ cmd x := x ++ cmd
  snapshotter := some ⟨some, fun data _ => some data⟩

/-- Servers that all start with the same list. -/
def journalCluster (servers : List NodeID) : Cluster Bytes := ⟨journal, fun _ => servers⟩

/-- Two servers start, and the first leads term 1. -/
def leaderOfTwo : List Action :=
  [.boot [1], .boot [2], .timeout [1], .run [1] 0, .deliver [2] 0, .receive [1] 0 0, .run [1] 0,
    .run [1] 0, .run [1] 0]

/-- Three servers start, and the first leads term 1 with the vote of the second. -/
def leaderOfThree : List Action :=
  [.boot [1], .boot [2], .boot [3], .timeout [1], .run [1] 0, .deliver [2] 0, .receive [1] 0 0,
    .run [1] 1, .run [1] 1, .run [1] 1]

/-- Server 3 has applied the command 7 when server 1 sends it a snapshot through the command 8. -/
def laggingInstall : List Action :=
  leaderOfThree ++ [.act [1] (.submit [7]), .run [1] 1, .deliver [2] 2, .receive [1] 3 1,
    .run [1] 1, .deliver [3] 3, .receive [1] 2 2, .act [1] (.submit [8]), .run [1] 1, .run [1] 2,
    .deliver [2] 4, .receive [1] 3 3, .act [1] (.maybeCompact 0), .run [1] 2, .run [1] 2]

end CoreBank.Raft
