import Mathlib.Data.List.Sort
import CoreBank.Ledger.State

/-!
# Log entries, the log, and configurations

The data of the consensus package and the functions on it that involve no server.  A log is what the
Go slice holds, a sentinel followed by the entries after it: the sentinel is the zero entry until
the first compaction and the boundary of the snapshot from then on.  A Go `[]byte` that may be nil
is an `Option`.  Terms and indices are natural numbers; the source's are 64-bit counters that start
at zero and grow by one.

## What is here

* `LogEntry`, `Log` and the accessors of `log.go`, down to `appendFrom`;
* `Configuration` with the encoding of `membership.go`: a command whose first byte is
  `configPrefix` is a configuration change;
* `Snapshot`, `StateMachine` and the arguments and replies of the three RPCs.

`Log.covered` and `Snapshot.covered` are auxiliary: the entries that the sentinel, or the snapshot,
stands for.  No function of the source has them and no function here reads them for anything but
carrying them along; they let a statement speak about the part of a log that was compacted away.
-/

set_option autoImplicit false

namespace CoreBank.Raft

/-- The name of a server. -/
abbrev NodeID := Str
/-- What a command is to Raft. -/
abbrev Bytes := List UInt8

/-- The three states of a server. -/
inductive Role
  | follower
  | candidate
  | leader
deriving DecidableEq, Repr

/-- One entry of the replicated log; a no-op has no command. -/
structure LogEntry where
  term : Nat
  index : Nat
  command : Option Bytes
deriving DecidableEq, Repr

/-- The bytes of the command, none for a no-op. -/
def LogEntry.bytes (e : LogEntry) : Bytes := e.command.getD []

/-! ## The log -/

/-- The slice `s.log`: the sentinel and the entries after it. -/
structure Log where
  sentinel : LogEntry
  entries : List LogEntry
  /-- Auxiliary: the entries at the indices up to the sentinel's. -/
  covered : List LogEntry
deriving DecidableEq, Repr

namespace Log

/-- The log of a new server. -/
def empty : Log := ⟨⟨0, 0, none⟩, [], []⟩

/-- The slice itself. -/
def slice (l : Log) : List LogEntry := l.sentinel :: l.entries

/-- The whole log, the compacted prefix included. -/
def logical (l : Log) : List LogEntry := l.covered ++ l.entries

/-- The last index that compaction dropped. -/
def baseIndex (l : Log) : Nat := l.sentinel.index

/-- The term of the entry at `baseIndex`. -/
def baseTerm (l : Log) : Nat := l.sentinel.term

/-- Where index `i` is in the slice. -/
def slot (l : Log) (i : Nat) : Nat := i - l.baseIndex

/-- The last element of the slice. -/
def lastEntry (l : Log) : LogEntry := l.entries.getLast?.getD l.sentinel

/-- The sentinel's index if there are no entries. -/
def lastIndex (l : Log) : Nat := l.lastEntry.index

/-- The term of the last entry. -/
def lastTerm (l : Log) : Nat := l.lastEntry.term

/-- The entry at index `i`, if the log still holds it. -/
def entryAt (l : Log) (i : Nat) : Option LogEntry :=
  if i < l.baseIndex ∨ l.lastIndex < i then none else l.slice[l.slot i]?

/-- Compaction dropped the entry at index `i`. -/
def compactedAway (l : Log) (i : Nat) : Bool := decide (i < l.baseIndex)

/-- The term of the entry at index `i`. -/
def termAt (l : Log) (i : Nat) : Option Nat := (l.entryAt i).map LogEntry.term

/-- The candidate's log is no older than this one. -/
def isUpToDate (l : Log) (candLastIndex : Nat) (candLastTerm : Nat) : Bool :=
  if candLastTerm ≠ l.lastTerm then decide (l.lastTerm < candLastTerm)
  else decide (l.lastIndex ≤ candLastIndex)

/-- The consistency check of `AppendEntries`. -/
def matchesPrevLog (l : Log) (prevLogIndex : Nat) (prevLogTerm : Nat) : Bool :=
  if l.compactedAway prevLogIndex then true
  else
    match l.termAt prevLogIndex with
    | none => false
    | some t => t == prevLogTerm

/-- `append(s.log, e)`. -/
def push (l : Log) (e : LogEntry) : Log := { l with entries := l.entries ++ [e] }

/-- `s.log[:s.slot(i)]`, for an index above the sentinel's. -/
def truncate (l : Log) (i : Nat) : Log := { l with entries := l.entries.take (l.slot i - 1) }

/-- Receiver rules 3 and 4 of AppendEntries, and whether the log was modified. -/
def appendFrom (l : Log) (prevLogIndex : Nat) : List LogEntry → Log × Bool
  | [] => (l, false)
  | e :: es =>
    let idx := prevLogIndex + 1
    if idx ≤ l.baseIndex then l.appendFrom idx es
    else
      match l.entryAt idx with
      | some existing =>
        if existing.term = e.term then l.appendFrom idx es
        else ((((l.truncate idx).push ⟨e.term, idx, e.command⟩).appendFrom idx es).1, true)
      | none => (((l.push ⟨e.term, idx, e.command⟩).appendFrom idx es).1, true)

/-- Compaction: index `idx` becomes the sentinel. -/
def discardThrough (l : Log) (idx : Nat) (term : Nat) : Log where
  sentinel := ⟨term, idx, none⟩
  entries := l.entries.drop (l.slot idx)
  covered := l.covered ++ l.entries.take (l.slot idx)

end Log

/-! ## Configurations -/

/-- The set of servers in the cluster. -/
structure Configuration where
  servers : List NodeID
deriving DecidableEq, Repr

namespace Configuration

/-- `id` is a member. -/
def contains (c : Configuration) (id : NodeID) : Bool := c.servers.contains id

/-- The configuration with `id` added, in order. -/
def withServer (c : Configuration) (id : NodeID) : Configuration :=
  if c.contains id then c
  else ⟨(c.servers ++ [id]).insertionSort fun a b => a ≤ b⟩

/-- The configuration with `id` taken out. -/
def withoutServer (c : Configuration) (id : NodeID) : Configuration :=
  ⟨c.servers.filter fun s => s ≠ id⟩

/-- Exactly one server was added or removed. -/
def differsByOne (c other : Configuration) : Bool :=
  if other.servers.length = c.servers.length + 1 then
    c.servers.all fun s => other.contains s
  else if c.servers.length = other.servers.length + 1 then
    other.servers.all fun s => c.contains s
  else false

end Configuration

/-- The byte that marks a configuration entry. -/
def configPrefix : UInt8 := 0xC0

/-- `binary.LittleEndian.PutUint64`. -/
def putUint64 (n : Nat) : Bytes := (List.range 8).map fun i => UInt8.ofNat (n / 256 ^ i)

/-- `binary.LittleEndian.Uint64`. -/
def uint64 (b : Bytes) : Nat := b.foldr (fun x n => x.toNat + 256 * n) 0

/-- The command that carries a configuration. -/
def encodeConfig (c : Configuration) : Bytes :=
  configPrefix :: (putUint64 c.servers.length ++
    c.servers.flatMap fun s => putUint64 s.length ++ s)

/-- The command carries a configuration. -/
def isConfigEntry (cmd : Bytes) : Bool := cmd.head? == some configPrefix

/-- The loop of `decodeConfig`: `n` servers from the bytes that remain. -/
def decodeServers : Nat → Bytes → Option (List NodeID)
  | 0, _ => some []
  | n + 1, b =>
    if b.length < 8 then none
    else
      let size := uint64 (b.take 8)
      let rest := b.drop 8
      if rest.length < size then none
      else (decodeServers n (rest.drop size)).map (rest.take size :: ·)

/-- The configuration that a command carries. -/
def decodeConfig (cmd : Bytes) : Option Configuration :=
  if isConfigEntry cmd = false then none
  else if cmd.length < 9 then none
  else (decodeServers (uint64 ((cmd.drop 1).take 8)) (cmd.drop 9)).map Configuration.mk

/-- The configuration a command carries: none for an ordinary command, and none for a malformed
configuration entry, which is counted and skipped. -/
def configOf (cmd : Bytes) : Option (List NodeID) := (decodeConfig cmd).map Configuration.servers

/-! ## Snapshots and the state machine -/

/-- A serialized state machine and the log position it covers. -/
structure Snapshot where
  lastIncludedIndex : Nat
  lastIncludedTerm : Nat
  data : Bytes
  /-- Auxiliary: the entries through `lastIncludedIndex`. -/
  covered : List LogEntry
deriving DecidableEq, Repr

/-- The optional extension that compaction needs; `none` is a returned error. -/
structure Snapshotter (σ : Type) where
  snapshot : σ → Option Bytes
  restoreSnapshot : Bytes → σ → Option σ

/-- The replicated application: what the constructor of the process yields, what applying a command
does (a machine that is not indexed ignores the index), and the snapshot extension if it has it. -/
structure StateMachine (σ : Type) where
  new : σ
  applyAt : Nat → Bytes → σ → σ
  snapshotter : Option (Snapshotter σ)

/-! ## RPCs -/

/-- A leader's entries, after the entry at `prevLogIndex`. -/
structure AppendEntriesArgs where
  term : Nat
  leaderID : NodeID
  prevLogIndex : Nat
  prevLogTerm : Nat
  entries : List LogEntry
  leaderCommit : Nat
deriving DecidableEq, Repr

/-- The answer to `AppendEntriesArgs`. -/
structure AppendEntriesReply where
  term : Nat
  success : Bool
deriving DecidableEq, Repr

/-- A candidate asks for a vote. -/
structure RequestVoteArgs where
  term : Nat
  candidateID : NodeID
  lastLogIndex : Nat
  lastLogTerm : Nat
deriving DecidableEq, Repr

/-- The answer to `RequestVoteArgs`. -/
structure RequestVoteReply where
  term : Nat
  voteGranted : Bool
deriving DecidableEq, Repr

/-- A leader's snapshot, for a follower that is behind its log. -/
structure InstallSnapshotArgs where
  term : Nat
  leaderID : NodeID
  snapshot : Snapshot
deriving DecidableEq, Repr

/-- The answer to `InstallSnapshotArgs`. -/
structure InstallSnapshotReply where
  term : Nat
deriving DecidableEq, Repr

end CoreBank.Raft
