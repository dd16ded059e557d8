import CoreBank.Consensus.Local
import CoreBank.Raft.Compaction
import CoreBank.Raft.Tally
import CoreBank.Raft.WellFormed

/-!
# A cluster and its history

The servers of a cluster are the nodes of a `Consensus.History`: a node's term, vote and log are
those on the disk of its server, and the rest of the history is what the servers have done so far.
`Refines w h` is the relation between the two.  It also says what the volatile parts stand for: a
leader's log is the log of its term, its match indices are acknowledgements, a commit index is a
decision, and a message speaks about the term in which it was sent.

A log is compared without indices and with its compacted prefix, as `Log.abs`.
-/

set_option autoImplicit false

namespace CoreBank.Raft

open Consensus

variable {σ : Type} {confOf : Bytes → Option (List NodeID)} {C₀ : List NodeID}
  {h h' : History NodeID Bytes}

/-! ## A server in memory -/

/-- A leader that was elected with the log `A` may count index `k` for `q`: if it lies above that
log and above the commit index, then `q` has acknowledged it. -/
def Matched (h : History NodeID Bytes) (s : Server σ) (A : List (Entry Bytes)) (q : NodeID)
    (k : Nat) : Prop :=
  k ≤ A.length ∨ k ≤ s.commitIndex ∨ ∃ j, k ≤ j ∧ h.acked q s.currentTerm j

theorem Matched.mono {s s' : Server σ} {A : List (Entry Bytes)} {q : NodeID} {k k' : Nat}
    (hm : Matched h s A q k) (hk : k' ≤ k) (hterm : s'.currentTerm = s.currentTerm)
    (hcommit : s.commitIndex ≤ s'.commitIndex)
    (hacked : ∀ {j}, h.acked q s.currentTerm j → h'.acked q s.currentTerm j) :
    Matched h' s' A q k' := by
  rw [Matched, hterm]
  rcases hm with hA | hc | ⟨j, hj, ha⟩
  · exact .inl (hk.trans hA)
  · exact .inr (.inl ((hk.trans hc).trans hcommit))
  · exact .inr (.inr ⟨j, hk.trans hj, hacked ha⟩)

/-- A leader that was elected with the log `A`. -/
structure Leading (h : History NodeID Bytes) (id : NodeID) (s : Server σ)
    (A : List (Entry Bytes)) : Prop where
  elected : h.elected s.currentTerm id A
  log : h.leaderLog s.currentTerm = s.log.abs
  next : ∀ q, s.nextIndex.at q ≤ s.log.abs.length + 1
  matched : ∀ q, Matched h s A q (s.matchIndex.at q)
  committed : ∀ i m, h.committed s.currentTerm i m → i ≤ s.commitIndex

/-- A candidate that campaigns with the log `A`. -/
structure Campaigning (h : History NodeID Bytes) (id : NodeID) (s : Server σ)
    (A : List (Entry Bytes)) : Prop where
  campaigned : h.campaigned id s.currentTerm A
  fresh : ∀ B, ¬ h.elected s.currentTerm id B
  /-- A candidate that installs the snapshot of its term's leader stays a candidate. -/
  log : s.log.abs = A ∨ ∃ c B, c ≠ id ∧ h.elected s.currentTerm c B

/-- What a server has committed, compacted and put into a snapshot ends at commit points. -/
structure CommitPoints (h : History NodeID Bytes) (s : Server σ) : Prop where
  applied : s.lastApplied = s.commitIndex
  base : s.log.baseIndex ≤ s.commitIndex
  length : s.commitIndex ≤ s.log.abs.length
  commit : Sealed h (s.log.abs.take s.commitIndex)
  cut : Sealed h (s.log.abs.take s.log.baseIndex)
  snapshot : ∀ snap, s.snapshot = some snap →
    snap.abs <+: s.log.abs.take s.commitIndex ∧ Sealed h snap.abs

theorem CommitPoints.mono {s : Server σ} (hs : CommitPoints h s) (hI : Inv confOf C₀ h)
    (hx : Extends h h') : CommitPoints h' s :=
  { hs with
    commit := hs.commit.mono hI hx
    cut := hs.cut.mono hI hx
    snapshot := fun snap hsnap => (hs.snapshot snap hsnap).imp_right (.mono hI hx) }

/-- The server `s` is the node `id` of the history. -/
structure ServerRef (h : History NodeID Bytes) (id : NodeID) (s : Server σ) : Prop
    extends CommitPoints h s where
  term : h.term id = s.currentTerm
  vote : h.vote id = s.votedFor
  log : h.log id = s.log.abs
  leader : s.role = .leader → ∃ A, Leading h id s A
  candidate : s.role = .candidate → ∃ A, Campaigning h id s A

variable {id : NodeID} {s : Server σ}

/-- What a server has committed was decided by its term. -/
theorem ServerRef.decided (hs : ServerRef h id s) (hI : Inv confOf C₀ h) :
    Decided h s.currentTerm (s.log.abs.take s.commitIndex) := by
  refine hs.commit.decided hI ?_
  rcases eq_nil_or_concat (s.log.abs.take s.commitIndex) with hnil | ⟨X, e, hX⟩
  · rw [hnil, lastTerm_nil]
    exact Nat.zero_le _
  · rw [hX, lastTerm_concat, ← hs.term]
    refine hI.log_term id e ?_
    rw [hs.log]
    refine (List.take_prefix s.commitIndex _).subset ?_
    rw [hX]
    exact List.mem_append_right _ List.mem_cons_self

variable {x : NodeID}

theorem Leading.frame {A : List (Entry Bytes)} (hl : Leading h id s A)
    (ho : Only confOf C₀ x h h') (hne : id ≠ x) : Leading h' id s A where
  elected := ho.extends_.elected hl.elected
  log := (ho.leads id _ A hne hl.elected).1.trans hl.log
  next := hl.next
  matched q := (hl.matched q).mono le_rfl rfl le_rfl ho.extends_.acked
  committed i m hc := hl.committed i m ((ho.leads id _ A hne hl.elected).2 i m hc)

theorem Campaigning.frame {A : List (Entry Bytes)} (hc : Campaigning h id s A)
    (ho : Only confOf C₀ x h h') (hne : id ≠ x) :
    Campaigning h' id s A where
  campaigned := ho.extends_.campaigned hc.campaigned
  fresh B he := hc.fresh B (ho.elected id _ B hne he)
  log := hc.log.imp_right fun ⟨c, B, hcid, he⟩ => ⟨c, B, hcid, ho.extends_.elected he⟩

theorem ServerRef.frame (hs : ServerRef h id s) (hI : Inv confOf C₀ h)
    (ho : Only confOf C₀ x h h') (hne : id ≠ x) : ServerRef h' id s :=
  { hs.mono hI ho.extends_ with
    term := (ho.term id hne).trans hs.term
    vote := (ho.vote id hne).trans hs.vote
    log := (ho.log id hne).trans hs.log
    leader := fun hr => (hs.leader hr).imp fun _ hl => hl.frame ho hne
    candidate := fun hr => (hs.candidate hr).imp fun _ hc => hc.frame ho hne }

/-- What was decided at one moment is a prefix of what is decided later, if that is longer. -/
theorem ServerRef.isPrefix_take {s' : Server σ} (hs : ServerRef h id s) (hs' : ServerRef h' id s')
    (hI : Inv confOf C₀ h) (ho : Only confOf C₀ id h h') (hle : s.commitIndex ≤ s'.commitIndex) :
    s.log.abs.take s.commitIndex <+: s'.log.abs.take s'.commitIndex := by
  have hlen := hs.length
  have hlen' := hs'.length
  rcases (hs.commit.mono hI ho.extends_).total ho.inv hs'.commit with hpre | hpre
  · exact hpre
  · have heq := hpre.eq_of_length_le (by rw [List.length_take, List.length_take]; omega)
    exact heq ▸ List.prefix_refl _

theorem ServerRef.take_eq {s' : Server σ} (hs : ServerRef h id s) (hs' : ServerRef h' id s')
    (hI : Inv confOf C₀ h) (ho : Only confOf C₀ id h h') (hle : s.commitIndex ≤ s'.commitIndex)
    {n : Nat} (hn : n ≤ s.commitIndex) :
    s'.log.abs.take n = s.log.abs.take n := by
  have hlen := hs.length
  obtain ⟨Z, hZ⟩ := hs.isPrefix_take hs' hI ho hle
  calc s'.log.abs.take n = (s'.log.abs.take s'.commitIndex).take n := by
        rw [List.take_take, Nat.min_eq_left (hn.trans hle)]
    _ = (s.log.abs.take s.commitIndex).take n := by
        rw [← hZ, List.take_append_of_le_length (by rw [List.length_take]; omega)]
    _ = s.log.abs.take n := by rw [List.take_take, Nat.min_eq_left hn]

/-! ## Memory and disk -/

/-- The disk backs the running server. -/
structure Backed (h : History NodeID Bytes) (d : Disk) (s : Server σ) : Prop where
  term : d.saved.term = s.currentTerm
  vote : d.saved.votedFor = s.votedFor
  base : d.saved.log.baseIndex ≤ s.log.baseIndex
  cut : Sealed h (s.log.abs.take d.saved.log.baseIndex)
  grown : Grown h d.saved.log.abs
  /-- The log is on disk; or the server has just started with a snapshot in its place. -/
  synced : d.saved.log.abs = s.log.abs ∨
    (s.log.entries = [] ∧ ¬ s.log.abs <+: d.saved.log.abs ∧ d.log.abs = s.log.abs)
  applied : d.applied ≤ s.commitIndex
  marker : Sealed h (s.log.abs.take d.applied)
  snapshot : ∀ snap, d.snapshot = some snap →
    snap.abs <+: s.log.abs.take s.commitIndex ∧ Sealed h snap.abs
  fresh : d.state = none → d.snapshot = none

/-- What the history says of a disk. -/
structure DiskRef (h : History NodeID Bytes) (id : NodeID) (d : Disk) : Prop where
  term : h.term id = d.saved.term
  vote : h.vote id = d.saved.votedFor
  log : h.log id = d.log.abs
  grown : Grown h d.saved.log.abs
  applied : max d.applied d.log.baseIndex ≤ d.log.abs.length
  marker : Sealed h (d.log.abs.take d.applied)
  cut : Sealed h (d.log.abs.take d.saved.log.baseIndex)
  snapshot : ∀ snap, d.snapshot = some snap → Sealed h snap.abs ∧ snap.abs <+: d.log.abs
  fresh : d.state = none → d.snapshot = none

theorem Snapshot.WF.length_abs {snap : Snapshot} (hw : snap.WF) :
    snap.abs.length = snap.lastIncludedIndex :=
  (List.length_map _).trans hw.length

theorem Server.abs_rebase_of_isPrefix {l : Log} (hl : l.WF) {snap : Snapshot} (hw : snap.WF)
    (hbase : l.baseIndex < snap.lastIncludedIndex) (hpre : snap.abs <+: l.abs) :
    (Server.rebase l snap).abs = l.abs := by
  obtain ⟨hlen, htake⟩ := take_of_isPrefix hpre hw.length_abs
  rw [Log.length_abs] at hlen
  obtain ⟨-, -, ⟨-, -, hlog⟩ | ⟨hno, -⟩⟩ := Server.rebase_cases hl hw hbase
  · rw [Log.abs, hlog, Log.abs]
  · exact absurd ⟨hlen, by rw [htake, hw.lastTerm]⟩ hno

variable {d : Disk}

theorem Disk.abs_log_of_isPrefix (hd : d.WF)
    (hsnap : ∀ snap, d.snapshot = some snap → snap.abs <+: d.saved.log.abs) :
    d.log.abs = d.saved.log.abs := by
  rcases d.log_cases with ⟨heq, -⟩ | ⟨snap, hsome, hlt, heq⟩
  · rw [heq]
    exact Log.abs_log_decoded _
  · rw [heq, Server.abs_rebase_of_isPrefix hd.log.decoded (hd.snapshot snap hsome) hlt
      (by rw [Log.abs_log_decoded]; exact hsnap snap hsome)]
    exact Log.abs_log_decoded _

theorem Disk.base_log (hd : d.WF) :
    d.saved.log.baseIndex ≤ d.log.baseIndex ∧ (d.log.baseIndex = d.saved.log.baseIndex ∨
      ∃ snap, d.snapshot = some snap ∧ d.log.baseIndex = snap.lastIncludedIndex) := by
  rcases d.log_cases with ⟨heq, -⟩ | ⟨snap, hsome, hlt, heq⟩
  · rw [heq]
    exact ⟨le_rfl, .inl rfl⟩
  · rw [heq, (Server.rebase_cases hd.log.decoded (hd.snapshot snap hsome) hlt).2.1]
    exact ⟨hlt.le, .inr ⟨snap, hsome, rfl⟩⟩

/-- A server that runs has on disk what it needs to start again. -/
theorem Backed.disk (hb : Backed h d s) (hs : ServerRef h id s) (hd : d.WF) : DiskRef h id d := by
  have hlog : d.log.abs = s.log.abs := by
    rcases hb.synced with heq | ⟨-, -, heq⟩
    · rw [← heq]
      refine d.abs_log_of_isPrefix hd fun snap hsnap => ?_
      rw [heq]
      exact (hb.snapshot snap hsnap).1.trans (List.take_prefix _ _)
    · exact heq
  have hle : max d.applied d.log.baseIndex ≤ s.commitIndex := by
    refine max_le hb.applied ?_
    rcases (d.base_log hd).2 with heq | ⟨snap, hsnap, heq⟩
    · rw [heq]
      exact hb.base.trans hs.base
    · have hlen := (hb.snapshot snap hsnap).1.length_le
      rw [(hd.snapshot snap hsnap).length_abs, List.length_take] at hlen
      rw [heq]
      omega
  refine
    { term := hs.term.trans hb.term.symm
      vote := hs.vote.trans hb.vote.symm
      log := hs.log.trans hlog.symm
      grown := hb.grown
      applied := by rw [hlog]; exact hle.trans hs.length
      marker := by rw [hlog]; exact hb.marker
      cut := by rw [hlog]; exact hb.cut
      snapshot := fun snap hsnap => ?_
      fresh := hb.fresh }
  obtain ⟨hpre, hsealed⟩ := hb.snapshot snap hsnap
  rw [hlog]
  exact ⟨hsealed, hpre.trans (List.take_prefix _ _)⟩

theorem DiskRef.frame (hd : DiskRef h id d) (hI : Inv confOf C₀ h) (ho : Only confOf C₀ x h h')
    (hne : id ≠ x) : DiskRef h' id d :=
  { hd with
    term := (ho.term id hne).trans hd.term
    vote := (ho.vote id hne).trans hd.vote
    log := (ho.log id hne).trans hd.log
    grown := hd.grown.mono ho.extends_.leaderLog
    marker := hd.marker.mono hI ho.extends_
    cut := hd.cut.mono hI ho.extends_
    snapshot := fun snap hsnap => (hd.snapshot snap hsnap).imp_left (.mono hI ho.extends_) }

/-- The log that `Restore` makes is cut at a commit point. -/
theorem DiskRef.cut_log (hd : DiskRef h id d) (hw : d.WF) :
    Sealed h (d.log.abs.take d.log.baseIndex) := by
  rcases (d.base_log hw).2 with heq | ⟨snap, hsnap, heq⟩
  · rw [heq]
    exact hd.cut
  · obtain ⟨hsealed, hpre⟩ := hd.snapshot snap hsnap
    rw [heq, (take_of_isPrefix hpre (hw.snapshot snap hsnap).length_abs).2]
    exact hsealed

/-! ## A server that starts -/

/-- What `Restore` makes of the disk. -/
theorem start_cases {cl : Cluster σ} {p : Process σ} (hfresh : d.state = none → d.snapshot = none)
    (hp : cl.start id d = some p) :
    p.server.log = d.log ∧ p.server.snapshot = d.snapshot ∧
      p.server.commitIndex = max d.snapIndex (Server.clampApplied d.log d.applied) ∧
      p.server.lastApplied = p.server.commitIndex := by
  cases started_of_start hp with
  | restored => exact ⟨rfl, rfl, rfl, rfl⟩
  | fresh hstate =>
    have hsnap := hfresh hstate
    have hlog : d.log = Log.empty := by
      rw [Disk.log, hsnap, Disk.saved, hstate]
      rfl
    have hclamp : Server.clampApplied Log.empty d.applied = 0 := Nat.min_zero _
    rw [hlog, hsnap, Disk.snapIndex, hsnap, hclamp]
    exact ⟨rfl, rfl, rfl, rfl⟩

theorem DiskRef.start {cl : Cluster σ} {p : Process σ} (hd : DiskRef h id d) (hw : d.WF)
    (hp : cl.start id d = some p) :
    ServerRef h id p.server ∧ Backed h d p.server := by
  obtain ⟨hlog, hsnap, hcommit, happ⟩ := start_cases hd.fresh hp
  obtain ⟨hterm, hvote⟩ := start_saved hp
  obtain ⟨-, hrole, -⟩ := start_id hp
  have hlast := hw.log_wf.lastIndex
  have hbase := hw.log_wf.base_le
  have hlen := hd.applied
  rw [Log.length_abs] at hlen
  -- the marker is clamped from below only
  have hclamp : Server.clampApplied d.log d.applied = max d.applied d.log.baseIndex := by
    rw [Server.clampApplied, hlast]
    exact Nat.min_eq_left hlen
  have hheld {snap : Snapshot} (hs : d.snapshot = some snap) :
      d.snapIndex ≤ d.log.abs.length ∧ d.log.abs.take d.snapIndex = snap.abs := by
    refine take_of_isPrefix (hd.snapshot snap hs).2 ?_
    rw [Disk.snapIndex, hs, (hw.snapshot snap hs).length_abs]
    rfl
  rw [hclamp] at hcommit
  have hle : d.snapIndex ≤ d.log.abs.length := by
    cases hs : d.snapshot with
    | none =>
      rw [Disk.snapIndex, hs]
      exact Nat.zero_le _
    | some snap => exact (hheld hs).1
  have hpre (snap : Snapshot) (hs : d.snapshot = some snap) :
      snap.abs <+: d.log.abs.take p.server.commitIndex := by
    rw [← (hheld hs).2, hcommit]
    exact List.take_prefix_take_left (Nat.le_max_left _ _)
  constructor
  · refine
      { term := hd.term.trans hterm.symm
        vote := hd.vote.trans hvote.symm
        log := by rw [hlog]; exact hd.log
        applied := happ
        base := by rw [hlog, hcommit]; omega
        length := by rw [hlog, hcommit]; exact max_le hle hd.applied
        commit := ?_
        cut := by rw [hlog]; exact hd.cut_log hw
        snapshot := fun snap hs => by
          rw [hlog]
          exact ⟨hpre snap (hsnap ▸ hs), (hd.snapshot snap (hsnap ▸ hs)).1⟩
        leader := fun hr => by rw [hrole] at hr; cases hr
        candidate := fun hr => by rw [hrole] at hr; cases hr }
    rw [hlog, hcommit]
    rcases Nat.le_total d.snapIndex (max d.applied d.log.baseIndex) with hmax | hmax
    · rw [Nat.max_eq_right hmax]
      rcases Nat.le_total d.applied d.log.baseIndex with hmax | hmax
      · rw [Nat.max_eq_right hmax]
        exact hd.cut_log hw
      · rw [Nat.max_eq_left hmax]
        exact hd.marker
    · rw [Nat.max_eq_left hmax]
      cases hs : d.snapshot with
      | none =>
        rw [Disk.snapIndex, hs]
        exact sealed_nil h
      | some snap =>
        rw [(hheld hs).2]
        exact (hd.snapshot snap hs).1
  · refine
      { term := hterm.symm
        vote := hvote.symm
        base := by rw [hlog]; exact (d.base_log hw).1
        cut := by rw [hlog]; exact hd.cut
        grown := hd.grown
        synced := ?_
        applied := by rw [hcommit]; omega
        marker := by rw [hlog]; exact hd.marker
        snapshot := fun snap hs => by rw [hlog]; exact ⟨hpre snap hs, (hd.snapshot snap hs).1⟩
        fresh := hd.fresh }
    rw [hlog]
    rcases d.log_cases with ⟨heq, -⟩ | ⟨snap, hs, hlt, heq⟩
    · exact .inl (by rw [heq, Log.abs_log_decoded])
    · have hsw := hw.snapshot snap hs
      obtain ⟨hwf, hrb, ⟨-, -, hkeep⟩ | ⟨hno, hnew⟩⟩ := Server.rebase_cases hw.log.decoded hsw hlt
      · left
        have habs : (Server.rebase d.saved.log.decoded snap).abs = d.saved.log.decoded.abs := by
          rw [Log.abs, hkeep, Log.abs]
        rw [heq, habs, Log.abs_log_decoded]
      · right
        have habs : d.log.abs = snap.abs := by rw [heq, Log.abs, hnew, Snapshot.abs]
        refine ⟨?_, fun hpre => hno ?_, rfl⟩
        · have hcov := hwf.covered_length
          have hsum := Log.length_logical (Server.rebase d.saved.log.decoded snap)
          rw [hnew, hsw.length, hcov, hrb] at hsum
          rw [heq]
          exact List.length_eq_zero_iff.1 (by omega)
        · rw [habs, ← Log.abs_log_decoded] at hpre
          obtain ⟨hle, htake⟩ := take_of_isPrefix hpre hsw.length_abs
          rw [Log.length_abs] at hle
          exact ⟨hle, by rw [htake, hsw.lastTerm]⟩

/-! ## Messages -/

/-- A request speaks about the term in which it was sent. -/
def RequestRef (h : History NodeID Bytes) (src : NodeID) : Request → Prop
  | .requestVote a => a.candidateID = src ∧
      ∃ A, h.campaigned src a.term A ∧ a.lastLogIndex = A.length ∧ a.lastLogTerm = lastTerm A
  | .appendEntries a => (∃ A, h.elected a.term src A) ∧
      a.prevLogIndex + a.entries.length ≤ (h.leaderLog a.term).length ∧
      a.prevLogTerm = lastTerm ((h.leaderLog a.term).take a.prevLogIndex) ∧
      a.entries.map LogEntry.abs =
        ((h.leaderLog a.term).take (a.prevLogIndex + a.entries.length)).drop a.prevLogIndex ∧
      a.leaderCommit ≤ a.prevLogIndex + a.entries.length ∧
      Sealed h ((h.leaderLog a.term).take a.leaderCommit)
  | .installSnapshot a => (∃ A, h.elected a.term src A) ∧ Decided h a.term a.snapshot.abs ∧
      Sealed h a.snapshot.abs

/-- The heartbeat of a read may be sent when the leadership in which the read began is over, and
then it speaks about the log that its sender has by then. -/
def BeatRef (h : History NodeID Bytes) : Request → Prop
  | .appendEntries a => a.entries = [] ∧ ∃ L, Grown h L ∧ a.prevLogIndex = L.length ∧
      a.prevLogTerm = lastTerm L ∧ a.leaderCommit ≤ L.length ∧ Sealed h (L.take a.leaderCommit)
  | _ => False

/-- A call; `beat` says whether it is the heartbeat of a read. -/
structure CallRef (h : History NodeID Bytes) (beat : Prop) (c : Call) : Prop where
  dst : c.dst ≠ c.src
  request : ¬ beat → RequestRef h c.src c.request
  beat : beat → BeatRef h c.request

/-- What is on record about the request that a reply answers. -/
def ReplyRef (h : History NodeID Bytes) (calls : List Call) (k : Nat) : Reply → Prop
  | .requestVote r => r.voteGranted = true → ∃ src dst args,
      calls[k]? = some ⟨src, dst, .requestVote args⟩ ∧ h.voted dst args.term args.candidateID
  | .appendEntries r => r.success = true → ∃ src dst args A,
      calls[k]? = some ⟨src, dst, .appendEntries args⟩ ∧ h.elected args.term src A ∧
        (args.prevLogIndex + args.entries.length ≤ A.length ∨
          h.acked dst args.term (args.prevLogIndex + args.entries.length))
  | .installSnapshot _ => True

theorem RequestRef.mono {src : NodeID} {req : Request} (hr : RequestRef h src req)
    (hI : Inv confOf C₀ h) (hx : Extends h h') : RequestRef h' src req := by
  cases req with
  | requestVote a =>
    obtain ⟨hc, A, hA, hrest⟩ := hr
    exact ⟨hc, A, hx.campaigned hA, hrest⟩
  | appendEntries a =>
    obtain ⟨⟨A, hA⟩, hlen, hprev, hes, hcommit, hdec⟩ := hr
    refine ⟨⟨A, hx.elected hA⟩, hlen.trans (hx.leaderLog _).length_le, ?_, ?_, hcommit, ?_⟩
    · rw [hx.take_leaderLog (by omega)]
      exact hprev
    · rw [hx.take_leaderLog hlen]
      exact hes
    · rw [hx.take_leaderLog (by omega)]
      exact hdec.mono hI hx
  | installSnapshot a =>
    obtain ⟨⟨A, hA⟩, hdec, hsealed⟩ := hr
    exact ⟨⟨A, hx.elected hA⟩, hdec.mono hI hx (le_rfl), hsealed.mono hI hx⟩

theorem BeatRef.mono {req : Request} (hr : BeatRef h req) (hI : Inv confOf C₀ h)
    (hx : Extends h h') : BeatRef h' req := by
  cases req with
  | appendEntries a =>
    obtain ⟨hnil, L, hL, hprev, hterm, hle, hsealed⟩ := hr
    exact ⟨hnil, L, hL.mono hx.leaderLog, hprev, hterm, hle, hsealed.mono hI hx⟩
  | requestVote | installSnapshot => exact hr.elim

theorem CallRef.mono {beat : Prop} {c : Call} (hc : CallRef h beat c) (hI : Inv confOf C₀ h)
    (hx : Extends h h') : CallRef h' beat c :=
  ⟨hc.dst, fun hb => (hc.request hb).mono hI hx, fun hb => (hc.beat hb).mono hI hx⟩

theorem ReplyRef.mono {calls calls' : List Call} {k : Nat} {r : Reply} (hr : ReplyRef h calls k r)
    (hx : Extends h h') (hcalls : ∀ (k : Nat) c, calls[k]? = some c → calls'[k]? = some c) :
    ReplyRef h' calls' k r := by
  cases r with
  | requestVote r =>
    intro hgrant
    obtain ⟨src, dst, args, hcall, hv⟩ := hr hgrant
    exact ⟨src, dst, args, hcalls k _ hcall, hx.voted hv⟩
  | appendEntries r =>
    intro hsucc
    obtain ⟨src, dst, args, A, hcall, he, hack⟩ := hr hsucc
    exact ⟨src, dst, args, A, hcalls k _ hcall, hx.elected he, hack.imp_right hx.acked⟩
  | installSnapshot r => trivial

/-! ## The cluster -/

variable (confOf C₀) in
/-- What the history says of a process. -/
structure ProcRef (h : History NodeID Bytes) (id : NodeID) (d : Disk) (p : Process σ) : Prop where
  server : ServerRef h id p.server
  backed : Backed h d p.server
  tally : Tally (fun T q => h.voted q T id)
    (fun T C => ∃ A, h.campaigned id T A ∧ conf confOf C₀ A = C) p
  /-- A compaction under way is one of what was applied. -/
  compacts : ∀ snap, .saveSnapshot snap ∈ p.tasks ∨ .compact snap ∈ p.tasks →
    snap.abs <+: p.server.log.abs.take p.server.commitIndex ∧ Sealed h snap.abs
  saving : ∀ snap, .saveSnapshot snap ∈ p.tasks →
    d.state ≠ none ∧ d.saved.log.abs = p.server.log.abs
  sent : ∀ call q T i, .await call (.snapshot q T i) ∈ p.tasks → i ≤ p.server.commitIndex
  targets : ∀ t ∈ p.tasks, ∀ q, t.target = some q → q ≠ id

variable (confOf C₀) in
/-- What the history says of a node. -/
structure NodeRef (h : History NodeID Bytes) (id : NodeID) (n : Node σ) : Prop where
  disk : DiskRef h id n.disk
  proc : ∀ p, n.proc = some p → ProcRef confOf C₀ h id n.disk p

/-- The network; `beats` are the calls that are heartbeats of reads.  Nothing is claimed of the
replies to these. -/
structure Messages (h : History NodeID Bytes) (w : World σ) (beats : Nat → Prop) : Prop where
  calls : ∀ k c, w.calls[k]? = some c → CallRef h (beats k) c
  answered : ∀ k r, (k, r) ∈ w.replies → k < w.calls.length
  replies : ∀ k r, (k, r) ∈ w.replies → ¬ beats k → ReplyRef h w.calls k r
  awaited : ∀ id p, (w.node id).proc = some p → ∀ call k, .await call k ∈ p.tasks →
    (∀ rid, k ≠ .beat rid) → ¬ beats call

variable (confOf C₀) in
/-- **The cluster refines the history.** -/
structure Refines (w : World σ) (h : History NodeID Bytes) : Prop where
  inv : Inv confOf C₀ h
  wf : WellFormed w
  wired : Wired w
  /-- Nobody campaigns in term zero. -/
  positive : ∀ c T A, h.campaigned c T A → 0 < T
  node : ∀ id, NodeRef confOf C₀ h id (w.node id)
  messages : ∃ beats, Messages h w beats

theorem ProcRef.frame {p : Process σ} (hp : ProcRef confOf C₀ h id d p) (hI : Inv confOf C₀ h)
    (ho : Only confOf C₀ x h h') (hne : id ≠ x) :
    ProcRef confOf C₀ h' id d p :=
  { hp with
    server := hp.server.frame hI ho hne
    backed := { hp.backed with
      cut := hp.backed.cut.mono hI ho.extends_
      grown := hp.backed.grown.mono ho.extends_.leaderLog
      marker := hp.backed.marker.mono hI ho.extends_
      snapshot := fun snap hsnap => (hp.backed.snapshot snap hsnap).imp_right
        (.mono hI ho.extends_) }
    compacts := fun snap ht => (hp.compacts snap ht).imp_right (.mono hI ho.extends_)
    tally := hp.tally.mono (fun _ _ => ho.extends_.voted)
      fun _ _ ⟨A, hA, hC⟩ => ⟨A, ho.extends_.campaigned hA, hC⟩ }

theorem NodeRef.frame {n : Node σ} (hn : NodeRef confOf C₀ h id n) (hI : Inv confOf C₀ h)
    (ho : Only confOf C₀ x h h') (hne : id ≠ x) :
    NodeRef confOf C₀ h' id n :=
  ⟨hn.disk.frame hI ho hne, fun p hp => (hn.proc p hp).frame hI ho hne⟩

theorem refines_empty : Refines confOf C₀ ({} : World σ) History.init where
  inv := inv_init
  wf := wellFormed_empty
  wired := wired_empty
  positive _ _ _ hc := hc.elim
  node _ :=
    { disk :=
        { term := rfl
          vote := rfl
          log := rfl
          grown := grown_nil _
          applied := le_rfl
          marker := sealed_nil _
          cut := sealed_nil _
          snapshot := fun _ hs => by cases hs
          fresh := fun _ => rfl }
      proc := fun _ hp => by cases hp }
  messages := ⟨fun _ => False,
    { calls := fun _ _ hc => by cases hc
      answered := fun _ _ hr => by cases hr
      replies := fun _ _ hr => by cases hr
      awaited := fun _ _ hp => by cases hp }⟩

/-- The term of a server, on disk while it is down. -/
def Node.term (n : Node σ) : Nat :=
  match n.proc with
  | some p => p.server.currentTerm
  | none => n.disk.saved.term

theorem Refines.term {w : World σ} (hR : Refines confOf C₀ w h) (id : NodeID) :
    h.term id = (w.node id).term := by
  rw [Node.term]
  split
  next p hp => exact ((hR.node id).proc p hp).server.term
  next => exact (hR.node id).disk.term

end CoreBank.Raft
