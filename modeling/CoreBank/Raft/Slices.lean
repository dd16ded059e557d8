import CoreBank.Lib.Access
import CoreBank.Raft.Compaction

/-!
# The log as a Go slice

`Log` has a sentinel by construction and subtracts indices as natural numbers, so it cannot show
whether the Go code ever reads outside of its slice.  Here the functions of `log.go`, and what else
reads the log by position, are written over the bare slice, with unsigned 64-bit arithmetic and with
`Access` for every read: `none` is the panic.

On a well-formed slice each of them yields what the function on `Log` yields (`entryAt_slice`,
`appendFrom_slice`, `discardThrough_slice`, …).  `calls_in_range` concludes that no call of a server
panics on an index, whatever arguments it is given, and that the slice stays what it has to be: not
empty, with consecutive indices.

Indices are below `2 ^ 63` throughout (`Input.Small`).
-/

set_option autoImplicit false

namespace CoreBank.Raft

open Access ActionSystem

variable {σ : Type}

/-! ## The functions of `log.go` -/

namespace Slice

/-- `baseIndex`: reads `log[0]`. -/
def baseIndex (xs : List LogEntry) : Option Nat := (get xs 0).map LogEntry.index

/-- `slot`: the difference, as an `int`. -/
def slot (xs : List LogEntry) (i : Nat) : Option Int :=
  (baseIndex xs).map fun (base : Nat) => toInt64 ((i : Int) - (base : Int))

/-- `lastIndex`: reads the last element. -/
def lastIndex (xs : List LogEntry) : Option Nat :=
  (get xs ((xs.length : Int) - 1)).map LogEntry.index

/-- `lastTerm`: reads the last element. -/
def lastTerm (xs : List LogEntry) : Option Nat :=
  (get xs ((xs.length : Int) - 1)).map LogEntry.term

/-- The outer `none` is the panic, the inner one the answer that there is no such entry. -/
def entryAt (xs : List LogEntry) (i : Nat) : Option (Option LogEntry) := do
  let base ← baseIndex xs
  let last ← lastIndex xs
  if i < base ∨ last < i then some none
  else
    let k ← slot xs i
    let e ← get xs k
    some (some e)

/-- `termAt`: the inner option is the source's `ok`. -/
def termAt (xs : List LogEntry) (i : Nat) : Option (Option Nat) := do
  let e ← entryAt xs i
  some (e.map LogEntry.term)

/-- `isUpToDate`: reads the last element. -/
def isUpToDate (xs : List LogEntry) (candLastIndex candLastTerm : Nat) : Option Bool := do
  let myIndex ← lastIndex xs
  let myTerm ← lastTerm xs
  some (if candLastTerm ≠ myTerm then decide (myTerm < candLastTerm)
    else decide (myIndex ≤ candLastIndex))

/-- `matchesPrevLog`: reads `log[0]` and the previous entry. -/
def matchesPrevLog (xs : List LogEntry) (prevLogIndex prevLogTerm : Nat) : Option Bool := do
  let base ← baseIndex xs
  if prevLogIndex < base then some true
  else
    let t ← termAt xs prevLogIndex
    some (t == some prevLogTerm)

/-- The loop of `AppendEntries`: the new slice, and whether it changed. -/
def appendFrom (xs : List LogEntry) (prevLogIndex : Nat) :
    List LogEntry → Option (List LogEntry × Bool)
  | [] => some (xs, false)
  | e :: es => do
    let idx := (prevLogIndex + 1) % 2 ^ 64
    let base ← baseIndex xs
    if idx ≤ base then appendFrom xs idx es
    else
      let existing ← entryAt xs idx
      match existing with
      | some x =>
        if x.term = e.term then appendFrom xs idx es
        else
          let k ← slot xs idx
          let kept ← upTo xs k
          let r ← appendFrom (kept ++ [⟨e.term, idx, e.command⟩]) idx es
          some (r.1, true)
      | none =>
        let r ← appendFrom (xs ++ [⟨e.term, idx, e.command⟩]) idx es
        some (r.1, true)

/-- `discardThrough`: slices from the slot after `idx`. -/
def discardThrough (xs : List LogEntry) (idx term : Nat) : Option (List LogEntry) := do
  let k ← slot xs idx
  let tail ← since xs (k + 1)
  some (⟨term, idx, none⟩ :: tail)

/-! ## Other readers of the log -/

/-- The scan of `adoptConfigFromLogLocked`, from position `n` down to one. -/
def latestConfig (xs : List LogEntry) : Nat → Option (Option (Nat × List NodeID))
  | 0 => some none
  | n + 1 => do
    let e ← get xs ((n : Int) + 1)
    match configOf e.bytes with
    | some servers => some (some (e.index, servers))
    | none => latestConfig xs n

/-- `adoptConfigFromLogLocked`; a leader that adopts a configuration looks up its last index. -/
def adoptConfigFromLog (xs : List LogEntry) (leads : Bool) : Option Unit := do
  let c ← latestConfig xs (xs.length - 1)
  match c with
  | none => some ()
  | some _ => if leads then (lastIndex xs).map fun _ => () else some ()

/-- The reads of `applyCommitted`, for at most `n` entries after the one at `i`. -/
def applyLoop (xs : List LogEntry) : Nat → Nat → Option Unit
  | 0, _ => some ()
  | n + 1, i => do
    let e ← entryAt xs (i + 1)
    match e with
    | none => some ()
    | some _ => applyLoop xs n (i + 1)

/-- The scan of `advanceCommitIndexLocked`, from index `n` down to the commit index. -/
def commitCandidate (xs : List LogEntry) (s : Server σ) : Nat → Option (Option Nat)
  | 0 => some none
  | n + 1 =>
    if n + 1 ≤ s.commitIndex then some none
    else do
      let t ← termAt xs (n + 1)
      if t = some s.currentTerm ∧
          s.majority ≤ s.peers.countP fun p => decide (n + 1 ≤ s.matchIndex.at p) then
        some (some (n + 1))
      else commitCandidate xs s n

/-- `advanceCommitIndex`: reads the entries it counts for. -/
def advanceCommitIndex (xs : List LogEntry) (s : Server σ) : Option Unit :=
  if s.role ≠ .leader then some ()
  else do
    let last ← lastIndex xs
    let n ← commitCandidate xs s last
    match n with
    | none => some ()
    | some n => applyLoop xs (n - s.lastApplied) s.lastApplied

end Slice

/-! ## The calls -/

namespace Server

/-- A call of the server, or what it does on its own between two calls. -/
inductive Input (σ : Type)
  | appendEntries (args : AppendEntriesArgs)
  | requestVote (args : RequestVoteArgs) (recent : Bool)
  | installSnapshot (args : InstallSnapshotArgs)
  | submit (cmd : Bytes)
  /-- The two sections of `MaybeCompact`. -/
  | takeSnapshot (threshold : Nat)
  | compact (snap : Snapshot)
  | replicateTo (peer : NodeID) (term : Nat)
  /-- Elections, replies, timers: the server becomes `s'`. -/
  | other (s' : Server σ)

/-- The server after a call. -/
def Input.exec (m : StateMachine σ) (s : Server σ) : Input σ → Server σ
  | .appendEntries args => (s.appendEntries m args).1
  | .requestVote args recent => (s.requestVote args recent).1
  | .installSnapshot args => (s.installSnapshot m args).1
  | .submit cmd => ((s.submit m cmd).map Prod.fst).getD s
  | .takeSnapshot _ => s
  | .compact snap => (s.compact snap).1
  | .replicateTo _ _ => s
  | .other s' => s'

/-- The indices in a call, and those it gives to new entries, are below `2 ^ 63`; between the calls
the log stays as it is, or an entry is appended. -/
def Input.Small (s : Server σ) : Input σ → Prop
  | .appendEntries args => args.prevLogIndex + args.entries.length < 2 ^ 63
  | .installSnapshot args => args.snapshot.lastIncludedIndex < 2 ^ 63
  | .submit _ => s.log.lastIndex + 1 < 2 ^ 63
  | .other s' => s'.log = s.log ∨ s.log.lastIndex + 1 < 2 ^ 63 ∧
      ∃ t cmd, s'.log = s.log.push ⟨t, s.log.lastIndex + 1, cmd⟩
  | _ => True

/-- What `AppendEntries` does with the slice. -/
def appendEntriesOn (xs : List LogEntry) (s : Server σ) (args : AppendEntriesArgs) :
    Option (List LogEntry) :=
  if s.stopped ∨ args.term < s.currentTerm then some xs
  else do
    let ok ← Slice.matchesPrevLog xs args.prevLogIndex args.prevLogTerm
    if ok = false then some xs
    else
      let r ← Slice.appendFrom xs args.prevLogIndex args.entries
      let _ ← if r.2 then
          Slice.adoptConfigFromLog r.1
            (decide ((s.followLeader args.term args.leaderID).role = .leader))
        else some ()
      let _ ← if s.commitIndex < args.leaderCommit then
          Slice.applyLoop r.1
            (min args.leaderCommit (args.prevLogIndex + args.entries.length) - s.lastApplied)
            s.lastApplied
        else some ()
      some r.1

/-- `RequestVote`, by what it reads of the slice. -/
def requestVoteOn (xs : List LogEntry) (s : Server σ) (args : RequestVoteArgs) (recent : Bool) :
    Option (List LogEntry) :=
  if s.stopped ∨ args.term < s.currentTerm then some xs
  else if s.leaderID ≠ [] ∧ s.role = .follower ∧ recent then some xs
  else
    let s₁ := s.observeTerm args.term
    if s₁.votedFor ≠ none ∧ s₁.votedFor ≠ some args.candidateID then some xs
    else (Slice.isUpToDate xs args.lastLogIndex args.lastLogTerm).map fun _ => xs

/-- `InstallSnapshot`, by what it does to the slice. -/
def installSnapshotOn (m : StateMachine σ) (xs : List LogEntry) (s : Server σ)
    (args : InstallSnapshotArgs) : Option (List LogEntry) :=
  if args.term < s.currentTerm then some xs
  else do
    let base ← Slice.baseIndex xs
    let snap := args.snapshot
    if snap.lastIncludedIndex ≤ base ∨ snap.lastIncludedIndex ≤ s.lastApplied then some xs
    else if (m.snapshotter.bind fun r => r.restoreSnapshot snap.data s.sm).isNone then some xs
    else
      let e ← Slice.entryAt xs snap.lastIncludedIndex
      if e.map LogEntry.term = some snap.lastIncludedTerm then
        Slice.discardThrough xs snap.lastIncludedIndex snap.lastIncludedTerm
      else some [⟨snap.lastIncludedTerm, snap.lastIncludedIndex, none⟩]

/-- `Submit`, by what it does to the slice. -/
def submitOn (xs : List LogEntry) (s : Server σ) (cmd : Bytes) : Option (List LogEntry) :=
  if s.role ≠ .leader ∨ s.stopped then some xs
  else do
    let last ← Slice.lastIndex xs
    let xs' := xs ++ [⟨s.currentTerm, (last + 1) % 2 ^ 64, some cmd⟩]
    let _ ← Slice.advanceCommitIndex xs' (s.appendOwn cmd)
    some xs'

/-- The first section of `MaybeCompact`, by what it reads of the slice. -/
def takeSnapshotOn (m : StateMachine σ) (xs : List LogEntry) (s : Server σ) (threshold : Nat) :
    Option (List LogEntry) :=
  if m.snapshotter.isNone then some xs
  else do
    let base ← Slice.baseIndex xs
    if s.lastApplied ≤ base ∨ xs.length - 1 < threshold then some xs
    else (Slice.entryAt xs s.lastApplied).map fun _ => xs

/-- The second section, by what it does to the slice. -/
def compactOn (xs : List LogEntry) (snap : Snapshot) : Option (List LogEntry) := do
  let base ← Slice.baseIndex xs
  let last ← Slice.lastIndex xs
  if snap.lastIncludedIndex ≤ base ∨ last < snap.lastIncludedIndex then some xs
  else
    let e ← Slice.entryAt xs snap.lastIncludedIndex
    if e.map LogEntry.term ≠ some snap.lastIncludedTerm then some xs
    else Slice.discardThrough xs snap.lastIncludedIndex snap.lastIncludedTerm

/-- `replicateTo`, by what it reads of the slice. -/
def replicateToOn (xs : List LogEntry) (s : Server σ) (peer : NodeID) (term : Nat) :
    Option Outgoing :=
  if s.role ≠ .leader ∨ s.currentTerm ≠ term then some .nothing
  else do
    let next := max (s.nextIndex.at peer) 1
    let base ← Slice.baseIndex xs
    if next ≤ base then some .snapshot
    else
      let prevTerm ← Slice.termAt xs (next - 1)
      let last ← Slice.lastIndex xs
      let entries ← if next ≤ last then (Slice.slot xs next).bind (since xs) else some []
      some (.entries {
        term := term
        leaderID := s.id
        prevLogIndex := next - 1
        prevLogTerm := prevTerm.getD 0
        entries := entries
        leaderCommit := s.commitIndex })

/-- The slice after a call, unless the call panics on an index. -/
def Input.slice (m : StateMachine σ) (s : Server σ) : Input σ → Option (List LogEntry)
  | .appendEntries args => appendEntriesOn s.log.slice s args
  | .requestVote args recent => requestVoteOn s.log.slice s args recent
  | .installSnapshot args => installSnapshotOn m s.log.slice s args
  | .submit cmd => submitOn s.log.slice s cmd
  | .takeSnapshot threshold => takeSnapshotOn m s.log.slice s threshold
  | .compact snap => compactOn s.log.slice snap
  | .replicateTo peer term => (replicateToOn s.log.slice s peer term).map fun _ => s.log.slice
  | .other s' => some s'.log.slice

end Server

/-! ## On a well-formed slice -/

variable {l : Log}

namespace Slice

variable {i : Nat}

theorem baseIndex_slice (l : Log) : baseIndex l.slice = some l.baseIndex := rfl

theorem get_last_slice (l : Log) : get l.slice ((l.slice.length : Int) - 1) = some l.lastEntry := by
  have hlen : ((l.slice.length : Int) - 1) = (l.entries.length : Nat) := by
    rw [Log.slice, List.length_cons]
    omega
  rw [hlen, get_natCast, Log.slice, Log.lastEntry, List.getLast?_eq_getElem?]
  cases l.entries with
  | nil => rfl
  | cons e es =>
    rw [List.length_cons, List.getElem?_cons_succ, Nat.add_sub_cancel,
      List.getElem?_eq_getElem (by simp)]
    rfl

theorem lastIndex_slice (l : Log) : lastIndex l.slice = some l.lastIndex := by
  rw [lastIndex, get_last_slice]
  rfl

theorem lastTerm_slice (l : Log) : lastTerm l.slice = some l.lastTerm := by
  rw [lastTerm, get_last_slice]
  rfl

theorem isUpToDate_slice (l : Log) (i t : Nat) :
    isUpToDate l.slice i t = some (l.isUpToDate i t) := by
  rw [isUpToDate, lastIndex_slice, lastTerm_slice]
  rfl

theorem latestConfig_ne_none {n : Nat} (hn : n < l.slice.length) :
    ∃ c, latestConfig l.slice n = some c := by
  induction n with
  | zero => exact ⟨none, rfl⟩
  | succ n ih =>
    have hcast : ((n : Int) + 1) = ((n + 1 : Nat) : Int) := rfl
    rw [latestConfig, hcast, get_natCast, List.getElem?_eq_getElem hn]
    simp only [Option.bind_eq_bind, Option.bind_some]
    split
    · exact ⟨_, rfl⟩
    · exact ih (by omega)

theorem adoptConfigFromLog_slice (l : Log) (leads : Bool) :
    adoptConfigFromLog l.slice leads = some () := by
  obtain ⟨c, hc⟩ := latestConfig_ne_none (l := l) (n := l.slice.length - 1)
    (by rw [Log.slice, List.length_cons]; omega)
  rw [adoptConfigFromLog, hc, lastIndex_slice]
  cases c <;> cases leads <;> rfl

theorem slot_slice (hi : l.baseIndex ≤ i) (hsmall : i < 2 ^ 63) :
    slot l.slice i = some ((l.slot i : Nat) : Int) := by
  rw [slot, baseIndex_slice, Option.map_some, toInt64_of_lt (by omega) (by omega), Log.slot,
    Int.ofNat_sub hi]

section Indexed

variable (h : l.Indexed) (hsmall : l.lastIndex < 2 ^ 63)

include h

theorem upTo_slice (hi : l.baseIndex < i) (hle : i ≤ l.lastIndex) :
    upTo l.slice ((l.slot i : Nat) : Int) = some (l.truncate i).slice := by
  have hlast := h.lastIndex
  obtain ⟨k, hk⟩ : ∃ k, l.slot i = k + 1 := ⟨l.slot i - 1, by rw [Log.slot]; omega⟩
  rw [upTo_natCast (by rw [Log.slot, Log.slice, List.length_cons]; omega), Log.truncate, hk,
    Log.slice, List.take_succ_cons]
  rfl

include hsmall

theorem entryAt_slice (i : Nat) :
    entryAt l.slice i = some (l.entryAt i) := by
  have hlast := h.lastIndex
  unfold entryAt
  rw [baseIndex_slice, lastIndex_slice, Log.entryAt]
  simp only [Option.bind_eq_bind, Option.bind_some]
  split
  · rfl
  next hin =>
    have hk : l.slot i < l.slice.length := by
      rw [Log.slot, Log.slice, List.length_cons]
      omega
    rw [slot_slice (by omega) (by omega), Option.bind_some, get_natCast,
      List.getElem?_eq_getElem hk, Option.bind_some]

theorem termAt_slice (i : Nat) :
    termAt l.slice i = some (l.termAt i) := by
  rw [termAt, entryAt_slice h hsmall]
  rfl

theorem matchesPrevLog_slice (i t : Nat) :
    matchesPrevLog l.slice i t = some (l.matchesPrevLog i t) := by
  unfold matchesPrevLog
  rw [baseIndex_slice, termAt_slice h hsmall, Log.matchesPrevLog, Log.compactedAway]
  simp only [Option.bind_eq_bind, Option.bind_some, decide_eq_true_eq]
  split
  · rfl
  · cases l.termAt i <;> rfl

theorem discardThrough_slice (hi : l.baseIndex ≤ i) (hle : i ≤ l.lastIndex) (t : Nat) :
    discardThrough l.slice i t = some (l.discardThrough i t).slice := by
  have hlast := h.lastIndex
  have hcast : ((l.slot i : Nat) : Int) + 1 = ((l.slot i + 1 : Nat) : Int) := rfl
  rw [discardThrough, slot_slice hi (by omega)]
  simp only [Option.bind_eq_bind, Option.bind_some]
  rw [hcast, since_natCast (by rw [Log.slot, Log.slice, List.length_cons]; omega)]
  rfl

theorem appendFrom_slice {prev : Nat} (hprev : prev ≤ l.lastIndex) (es : List LogEntry)
    (hes : prev + es.length < 2 ^ 63) :
    appendFrom l.slice prev es =
      some ((l.appendFrom prev es).1.slice, (l.appendFrom prev es).2) := by
  induction es generalizing l prev with
  | nil => rfl
  | cons e es ih =>
    rw [List.length_cons] at hes
    have hidx : (prev + 1) % 2 ^ 64 = prev + 1 := Nat.mod_eq_of_lt (by omega)
    have hlast := h.lastIndex
    rw [appendFrom, Log.appendFrom, hidx, baseIndex_slice, entryAt_slice h hsmall]
    simp only [Option.bind_eq_bind, Option.bind_some]
    split
    next hb => exact ih h hsmall (by omega) (by omega)
    next hb =>
      cases hx : l.entryAt (prev + 1) with
      | none =>
        have hlt := h.entryAt_none hx (by omega)
        have hnew := @ih (l.push ⟨e.term, prev + 1, e.command⟩) (h.push (by omega))
          (by rw [Log.lastIndex_push]; show prev + 1 < _; omega) (prev + 1)
          (by rw [Log.lastIndex_push]) (by omega)
        exact congrArg (fun r => r.bind fun r => some (r.1, true)) hnew
      | some x =>
        obtain ⟨-, hle⟩ := Log.le_lastIndex_of_entryAt hx
        dsimp only
        split
        · exact ih h hsmall hle (by omega)
        · rw [slot_slice (by omega) (by omega), Option.bind_some, upTo_slice h (by omega) hle,
            Option.bind_some]
          have hnew := @ih ((l.truncate (prev + 1)).push ⟨e.term, prev + 1, e.command⟩)
            (h.overwrite (by omega) hle _ _)
            (by rw [Log.lastIndex_push]; show prev + 1 < _; omega) (prev + 1)
            (by rw [Log.lastIndex_push]) (by omega)
          exact congrArg (fun r => r.bind fun r => some (r.1, true)) hnew

theorem applyLoop_slice (n i : Nat) :
    applyLoop l.slice n i = some () := by
  induction n generalizing i with
  | zero => rfl
  | succ n ih =>
    rw [applyLoop, entryAt_slice h hsmall]
    simp only [Option.bind_eq_bind, Option.bind_some]
    split
    · rfl
    · exact ih (i + 1)

theorem commitCandidate_ne_none (s : Server σ) (n : Nat) :
    ∃ c, commitCandidate l.slice s n = some c := by
  induction n with
  | zero => exact ⟨none, rfl⟩
  | succ n ih =>
    rw [commitCandidate]
    split
    · exact ⟨none, rfl⟩
    · rw [termAt_slice h hsmall]
      simp only [Option.bind_eq_bind, Option.bind_some]
      split
      · exact ⟨_, rfl⟩
      · exact ih

theorem advanceCommitIndex_slice (s : Server σ) :
    advanceCommitIndex l.slice s = some () := by
  rw [advanceCommitIndex]
  split
  · rfl
  · obtain ⟨c, hc⟩ := commitCandidate_ne_none h hsmall s l.lastIndex
    rw [lastIndex_slice]
    simp only [Option.bind_eq_bind, Option.bind_some, hc]
    cases c with
    | none => rfl
    | some n => exact applyLoop_slice h hsmall _ _

end Indexed

end Slice

/-! ## Every call -/

/-- The log is what the source takes it for. -/
structure Log.Sound (l : Log) : Prop where
  indexed : l.Indexed
  small : l.lastIndex < 2 ^ 63

theorem Log.Indexed.lastIndex_appendFrom (h : l.Indexed) {prev : Nat} (hprev : prev ≤ l.lastIndex)
    (es : List LogEntry) :
    (l.appendFrom prev es).1.lastIndex ≤ max l.lastIndex (prev + es.length) := by
  induction es generalizing l prev with
  | nil => exact Nat.le_max_left _ _
  | cons e es ih =>
    have hlast := h.lastIndex
    rw [Log.appendFrom, List.length_cons]
    split
    next hb =>
      have := ih h (show prev + 1 ≤ l.lastIndex by omega)
      omega
    next hb =>
      split
      next x hx =>
        have hle := (Log.le_lastIndex_of_entryAt hx).2
        split
        · have := ih h hle
          omega
        · have := ih (h.overwrite (by omega) hle e.term e.command)
            (show prev + 1 ≤ _ by rw [Log.lastIndex_push])
          rw [Log.lastIndex_push] at this
          show (Log.appendFrom _ _ _).1.lastIndex ≤ _
          dsimp only at this
          omega
      next hx =>
        have hlt := h.entryAt_none hx (by omega)
        have hpush : (l.push ⟨e.term, prev + 1, e.command⟩).Indexed := h.push (by omega)
        have := ih hpush (show prev + 1 ≤ _ by rw [Log.lastIndex_push])
        rw [Log.lastIndex_push] at this
        show (Log.appendFrom _ _ _).1.lastIndex ≤ _
        dsimp only at this
        omega

theorem Log.Sound.appendFrom (h : l.Sound) {prev : Nat} (hprev : prev ≤ l.lastIndex)
    {es : List LogEntry} (hsmall : prev + es.length < 2 ^ 63) : (l.appendFrom prev es).1.Sound := by
  refine ⟨h.indexed.appendFrom hprev es, ?_⟩
  have hle := h.indexed.lastIndex_appendFrom hprev es
  have hlt := h.small
  omega

theorem Log.Sound.push (h : l.Sound) {t : Nat} {cmd : Option Bytes}
    (hsmall : l.lastIndex + 1 < 2 ^ 63) : (l.push ⟨t, l.lastIndex + 1, cmd⟩).Sound := by
  refine ⟨h.indexed.push rfl, ?_⟩
  rw [Log.lastIndex_push]
  exact hsmall

theorem Log.Sound.discardThrough (h : l.Sound) {i : Nat} (hbase : l.baseIndex ≤ i)
    (hle : i ≤ l.lastIndex) (t : Nat) : (l.discardThrough i t).Sound := by
  have hindexed := h.indexed.discardThrough (t := t) hbase
  refine ⟨hindexed, ?_⟩
  have hlast := h.indexed.lastIndex
  have hsmall := h.small
  rw [hindexed.lastIndex, Log.discardThrough]
  show i + (l.entries.drop (l.slot i)).length < _
  rw [List.length_drop, Log.slot]
  omega

theorem Log.Sound.rebase (h : l.Sound) {snap : Snapshot}
    (hbase : l.baseIndex < snap.lastIncludedIndex) (hsmall : snap.lastIncludedIndex < 2 ^ 63) :
    (Server.rebase l snap).Sound := by
  have hfresh : Log.Sound ⟨⟨snap.lastIncludedTerm, snap.lastIncludedIndex, none⟩, [],
      snap.covered⟩ :=
    ⟨fun _ _ hk => by (cases hk), hsmall⟩
  rw [Server.rebase]
  split
  next e he =>
    split
    · exact h.discardThrough hbase.le (le_lastIndex_of_entryAt he).2 _
    · exact hfresh
  · exact hfresh

namespace Server

section Calls

theorem requestVote_log (s : Server σ) (args : RequestVoteArgs) (recent : Bool) :
    (s.requestVote args recent).1.log = s.log := by
  rcases s.requestVote_cases args recent with he | ⟨-, he⟩ | ⟨-, -, -, s₂, hs₂, he⟩
  · rw [he]
  · rw [he, observeTerm_frame]
  · rw [he, hs₂, observeTerm_frame]

theorem requestVoteOn_slice (s : Server σ) (args : RequestVoteArgs) (recent : Bool) :
    requestVoteOn s.log.slice s args recent = some (s.requestVote args recent).1.log.slice := by
  rw [requestVoteOn, Slice.isUpToDate_slice, requestVote_log]
  dsimp only [Option.map_some]
  rw [ite_self, ite_self, ite_self]

variable {s : Server σ} (h : s.log.Sound)

include h

theorem appendEntriesOn_slice (m : StateMachine σ) {args : AppendEntriesArgs}
    (hsmall : args.prevLogIndex + args.entries.length < 2 ^ 63) :
    appendEntriesOn s.log.slice s args = some (s.appendEntries m args).1.log.slice := by
  obtain ⟨role, -, hf⟩ := s.followLeader_frame args.term args.leaderID
  have hlog : (s.followLeader args.term args.leaderID).log = s.log := by rw [hf]
  rw [appendEntriesOn, appendEntries]
  by_cases hold : s.stopped = true ∨ args.term < s.currentTerm
  · rw [if_pos hold, if_pos hold]
  rw [if_neg hold, if_neg hold, Slice.matchesPrevLog_slice h.indexed h.small]
  simp only [Option.bind_eq_bind, Option.bind_some, hlog]
  cases hm : s.log.matchesPrevLog args.prevLogIndex args.prevLogTerm with
  | false =>
    rw [if_pos rfl, if_pos rfl, hlog]
  | true =>
    have hprev := Log.le_lastIndex_of_matches h.indexed hm
    have hnew : (s.log.appendFrom args.prevLogIndex args.entries).1.Sound :=
      h.appendFrom hprev hsmall
    obtain ⟨peers, ni, mi, ci, ht, -⟩ :=
      (s.followLeader args.term args.leaderID).takeEntries_frame args.prevLogIndex args.entries
    obtain ⟨c, k, x, hl, -⟩ := learnCommit_frame m
      ((s.followLeader args.term args.leaderID).takeEntries args.prevLogIndex args.entries).1
      args.leaderCommit (args.prevLogIndex + args.entries.length)
    rw [if_neg (by simp), if_neg (by simp), hl, ht, received, hlog,
      Slice.appendFrom_slice h.indexed h.small hprev _ hsmall, Option.bind_some,
      Slice.adoptConfigFromLog_slice, Slice.applyLoop_slice hnew.indexed hnew.small]
    simp only [Option.bind_some, ite_self]

/-- The log a snapshot leaves behind. -/
theorem rebaseOn_slice {snap : Snapshot} (hbase : s.log.baseIndex < snap.lastIncludedIndex) :
    ((Slice.entryAt s.log.slice snap.lastIncludedIndex).bind fun e =>
      if e.map LogEntry.term = some snap.lastIncludedTerm then
        Slice.discardThrough s.log.slice snap.lastIncludedIndex snap.lastIncludedTerm
      else some [⟨snap.lastIncludedTerm, snap.lastIncludedIndex, none⟩]) =
      some (rebase s.log snap).slice := by
  rw [Slice.entryAt_slice h.indexed h.small, Option.bind_some, rebase]
  cases he : s.log.entryAt snap.lastIncludedIndex with
  | none => rfl
  | some e =>
    dsimp only [Option.map_some]
    by_cases hterm : e.term = snap.lastIncludedTerm
    · rw [if_pos (by rw [hterm]), if_pos hterm]
      exact Slice.discardThrough_slice h.indexed h.small hbase.le
        (Log.le_lastIndex_of_entryAt he).2 _
    · rw [if_neg (fun heq => hterm (Option.some.inj heq)), if_neg hterm]
      rfl

theorem installSnapshotOn_slice (m : StateMachine σ) (args : InstallSnapshotArgs) :
    installSnapshotOn m s.log.slice s args = some (s.installSnapshot m args).1.log.slice := by
  have hheed := s.heedSnapshot_frame args.term args.leaderID
  have hlog : (s.heedSnapshot args.term args.leaderID).log = s.log := by rw [hheed]
  have happ : (s.heedSnapshot args.term args.leaderID).lastApplied = s.lastApplied := by rw [hheed]
  have hsm : (s.heedSnapshot args.term args.leaderID).sm = s.sm := by rw [hheed]
  rw [installSnapshotOn, installSnapshot]
  by_cases hold : args.term < s.currentTerm
  · rw [if_pos hold, if_pos hold]
  rw [if_neg hold, if_neg hold, Slice.baseIndex_slice]
  simp only [Option.bind_eq_bind, Option.bind_some, hlog, happ, hsm]
  by_cases hcov : args.snapshot.lastIncludedIndex ≤ s.log.baseIndex ∨
      args.snapshot.lastIncludedIndex ≤ s.lastApplied
  · rw [if_pos hcov, if_pos hcov, hlog]
  rw [if_neg hcov, if_neg hcov]
  cases m.snapshotter.bind fun r => r.restoreSnapshot args.snapshot.data s.sm with
  | none =>
    rw [if_pos (show (none : Option σ).isNone = true from rfl)]
    dsimp only
    rw [hlog]
  | some x =>
    rw [if_neg (by simp)]
    dsimp only [adoptSnapshot]
    rw [hlog]
    exact rebaseOn_slice h (by omega)

theorem submitOn_slice (m : StateMachine σ) (cmd : Bytes) (hsmall : s.log.lastIndex + 1 < 2 ^ 63) :
    submitOn s.log.slice s cmd = some (((s.submit m cmd).map Prod.fst).getD s).log.slice := by
  rw [submitOn, submit]
  by_cases hno : s.role ≠ .leader ∨ s.stopped = true
  · rw [if_pos hno, if_pos hno]
    rfl
  have hpush : (s.appendOwn cmd).log.Sound := h.push hsmall
  have hidx : (s.log.lastIndex + 1) % 2 ^ 64 = s.log.lastIndex + 1 := Nat.mod_eq_of_lt (by omega)
  have hslice : s.log.slice ++ [⟨s.currentTerm, s.log.lastIndex + 1, some cmd⟩] =
      (s.appendOwn cmd).log.slice := rfl
  obtain ⟨c, k, x, role, removed, -, hs, -⟩ := (s.appendOwn cmd).advanceCommitIndex_frame m
  rw [if_neg hno, if_neg hno, Slice.lastIndex_slice]
  simp only [Option.bind_eq_bind, Option.bind_some, hidx, hslice, Option.map_some,
    Option.getD_some, Slice.advanceCommitIndex_slice hpush.indexed hpush.small, hs]

theorem takeSnapshotOn_slice (m : StateMachine σ) (threshold : Nat) :
    takeSnapshotOn m s.log.slice s threshold = some s.log.slice := by
  rw [takeSnapshotOn, Slice.baseIndex_slice, Slice.entryAt_slice h.indexed h.small]
  simp only [Option.bind_eq_bind, Option.bind_some, Option.map_some]
  rw [ite_self, ite_self]

theorem compactOn_slice (snap : Snapshot) :
    compactOn s.log.slice snap = some (s.compact snap).1.log.slice := by
  rw [compactOn, compact, Slice.baseIndex_slice, Slice.lastIndex_slice,
    Slice.entryAt_slice h.indexed h.small]
  simp only [Option.bind_eq_bind, Option.bind_some]
  by_cases hout : snap.lastIncludedIndex ≤ s.log.baseIndex ∨
      s.log.lastIndex < snap.lastIncludedIndex
  · rw [if_pos hout, if_pos (hout.imp_right .inl)]
  have htermAt : (s.log.entryAt snap.lastIncludedIndex).map LogEntry.term =
      s.log.termAt snap.lastIncludedIndex := rfl
  rw [if_neg hout, htermAt]
  rw [not_or, Nat.not_le, Nat.not_lt] at hout
  by_cases hterm : s.log.termAt snap.lastIncludedIndex = some snap.lastIncludedTerm
  · have hin : ¬ (snap.lastIncludedIndex ≤ s.log.baseIndex ∨
        s.log.lastIndex < snap.lastIncludedIndex ∨
        s.log.termAt snap.lastIncludedIndex ≠ some snap.lastIncludedTerm) := by
      rintro (hle | hlt | hne)
      · omega
      · omega
      · exact hne hterm
    rw [if_neg (not_not.2 hterm), if_neg hin]
    exact Slice.discardThrough_slice h.indexed h.small (by omega) hout.2 _
  · rw [if_pos hterm, if_pos (.inr (.inr hterm))]

theorem replicateToOn_slice (peer : NodeID) (term : Nat) :
    replicateToOn s.log.slice s peer term = some (s.replicateTo peer term) := by
  have hlast := h.indexed.lastIndex
  have hsmall := h.small
  rw [replicateToOn, replicateTo]
  by_cases hno : s.role ≠ .leader ∨ s.currentTerm ≠ term
  · rw [if_pos hno, if_pos hno]
  rw [if_neg hno, if_neg hno, Slice.baseIndex_slice, Slice.lastIndex_slice]
  simp only [Option.bind_eq_bind, Option.bind_some, Slice.termAt_slice h.indexed h.small]
  by_cases hbase : max (s.nextIndex.at peer) 1 ≤ s.log.baseIndex
  · rw [if_pos hbase, if_pos hbase]
  rw [if_neg hbase, if_neg hbase]
  by_cases hnext : max (s.nextIndex.at peer) 1 ≤ s.log.lastIndex
  · rw [if_pos hnext, if_pos hnext, Slice.slot_slice (by omega) (by omega), Option.bind_some,
      since_natCast (by rw [Log.slot, Log.slice, List.length_cons]; omega), Option.bind_some]
  · rw [if_neg hnext, if_neg hnext]

end Calls

/-- No call leaves the slice, and the slice it leaves behind is that of the model. -/
theorem Input.slice_exec (m : StateMachine σ) {s : Server σ} (h : s.log.Sound) {c : Input σ}
    (hc : c.Small s) : c.slice m s = some (c.exec m s).log.slice := by
  cases c with
  | appendEntries args => exact appendEntriesOn_slice h m hc
  | requestVote args recent => exact requestVoteOn_slice s args recent
  | installSnapshot args => exact installSnapshotOn_slice h m args
  | submit cmd => exact submitOn_slice h m cmd hc
  | takeSnapshot threshold => exact takeSnapshotOn_slice h m threshold
  | compact snap => exact compactOn_slice h snap
  | replicateTo peer term =>
    rw [slice, replicateToOn_slice h]
    rfl
  | other s' => rfl

theorem Input.sound_exec (m : StateMachine σ) {s : Server σ} (h : s.log.Sound) {c : Input σ}
    (hc : c.Small s) : (c.exec m s).log.Sound := by
  cases c with
  | appendEntries args =>
    obtain ⟨role, -, hf⟩ := s.followLeader_frame args.term args.leaderID
    show (s.appendEntries m args).1.log.Sound
    rcases s.appendEntries_cases m args with ⟨-, he⟩ | ⟨-, -, he⟩ | ⟨-, hm, s₂, hs₂, he⟩
    · rw [he]
      exact h
    · rw [he, hf]
      exact h
    · obtain ⟨peers, ni, mi, ci, ht, -⟩ :=
        (s.followLeader args.term args.leaderID).takeEntries_frame args.prevLogIndex args.entries
      obtain ⟨c, k, x, hl, -⟩ := learnCommit_frame m s₂ args.leaderCommit
        (args.prevLogIndex + args.entries.length)
      rw [he, hl, hs₂, ht, hf]
      exact h.appendFrom (Log.le_lastIndex_of_matches h.indexed hm) hc
  | requestVote args recent =>
    show (s.requestVote args recent).1.log.Sound
    rw [requestVote_log]
    exact h
  | installSnapshot args =>
    show (s.installSnapshot m args).1.log.Sound
    have hheed := s.heedSnapshot_frame args.term args.leaderID
    rcases s.installSnapshot_cases m args with
      ⟨-, he⟩ | ⟨-, -, he⟩ | ⟨-, hbase, -, x, -, s₂, hs₂, he⟩
    · rw [he]
      exact h
    · rw [he, hheed]
      exact h
    · rw [he, hs₂, hheed]
      exact h.rebase hbase hc
  | submit cmd =>
    show (((s.submit m cmd).map Prod.fst).getD s).log.Sound
    rw [Server.submit]
    split
    · exact h
    · obtain ⟨c, k, x, role, removed, -, hs, -⟩ := (s.appendOwn cmd).advanceCommitIndex_frame m
      simp only [Option.map_some, Option.getD_some, hs]
      exact h.push hc
  | takeSnapshot threshold => exact h
  | compact snap =>
    show (s.compact snap).1.log.Sound
    rw [Server.compact]
    split
    · exact h
    next hin =>
      rw [not_or, not_or] at hin
      exact h.discardThrough (by omega) (by omega) _
  | replicateTo peer term => exact h
  | other s' =>
    rcases hc with heq | ⟨hsmall, t, cmd, heq⟩
    · show s'.log.Sound
      rw [heq]
      exact h
    · show s'.log.Sound
      rw [heq]
      exact h.push hsmall

/-- **No index panics.**  After any calls with any arguments, the slice of the log is not empty and
its indices are consecutive, and the next call, whatever it is, reads and cuts the slice in range
only. -/
theorem calls_in_range (m : StateMachine σ) (id : NodeID) (peers : List NodeID)
    {calls : List (Input σ)} {s : Server σ}
    (h : Run (fun s (c : Input σ) s' => c.Small s ∧ s' = c.exec m s) (Server.new m id peers) calls
      s) :
    s.log.slice ≠ [] ∧
      (∀ k e, s.log.slice[k]? = some e → e.index = s.log.baseIndex + k) ∧
      ∀ c : Input σ, c.Small s → c.slice m s = some (c.exec m s).log.slice := by
  have hsound : s.log.Sound := by
    refine h.invariant (P := fun s => s.log.Sound) (fun s c s' hs hsound => ?_) ?_
    · rw [hs.2]
      exact Input.sound_exec m hsound hs.1
    · exact ⟨Log.indexed_empty, Nat.two_pow_pos 63⟩
  refine ⟨List.cons_ne_nil _ _, fun k e hk => ?_, fun c hc => Input.slice_exec m hsound hc⟩
  cases k with
  | zero =>
    cases hk
    rfl
  | succ k => exact hsound.indexed k e hk

/-- A snapshot through index 7, then four entries after index 5, two of which the snapshot covers;
the next call cuts the other two. -/
theorem calls_in_range_behind :
    ∃ calls s, Run (fun s (c : Input Bytes) s' => c.Small s ∧ s' = c.exec journal s)
        (Server.new journal [1] [[1], [2]]) calls s ∧
      s.log.baseIndex = 7 ∧ s.log.lastIndex = 9 ∧
      (Input.appendEntries ⟨2, [2], 7, 1, [⟨2, 0, some [5]⟩], 0⟩).slice journal s =
        some [⟨1, 7, none⟩, ⟨2, 8, some [5]⟩] := by
  have hrun : Run (fun s (c : Input Bytes) s' => c.Small s ∧ s' = c.exec journal s)
      (Server.new journal [1] [[1], [2]])
      [.installSnapshot ⟨1, [2], ⟨7, 1, [], []⟩⟩,
        .appendEntries ⟨1, [2], 5, 0, List.replicate 4 ⟨1, 0, some [3]⟩, 0⟩] _ :=
    .cons ⟨show 7 < 2 ^ 63 by decide, rfl⟩ (.cons ⟨show 9 < 2 ^ 63 by decide, rfl⟩ (.nil _))
  exact ⟨_, _, hrun, rfl, rfl,
    (calls_in_range journal [1] [[1], [2]] hrun).2.2 _ (show 8 < 2 ^ 63 by decide)⟩

end Server

end CoreBank.Raft
