import CoreBank.Raft.Applied
import CoreBank.Raft.ConfigCodec
import CoreBank.Raft.Fixed

/-!
# The configuration a server uses

A server is meant to use the newest configuration of its log, the compacted prefix included, and the
list it was started with while there is none.  `adoptConfigFromLog` looks for it in the slice, and
if the slice holds none it leaves the peers as they are.  That is right as long as the newest
configuration is not the one that went away: cut off by a new leader, replaced by a snapshot, which
says nothing about members, or compacted before a restart.

## What is here

* `Retains` — no step loses the newest configuration;
* `peers_follow_log`, and a server that keeps a configuration its log has lost.
-/

set_option autoImplicit false

namespace CoreBank.Raft

open Consensus ActionSystem

/-! ## The newest configuration of a log -/

theorem latestConfig_eq_none_iff {l : Log} :
    Server.latestConfig l = none ↔ ∀ e ∈ l.entries, configOf e.bytes = none := by
  rw [Server.latestConfig, List.findSome?_eq_none_iff]
  simp only [List.mem_reverse, Option.map_eq_none_iff]

/-- The newest configuration is in the slice, or else in what was compacted. -/
theorem conf_abs (C₀ : List NodeID) (l : Log) :
    conf configOf C₀ l.abs = ((Server.latestConfig l).map Prod.snd).getD
      (conf configOf C₀ (l.covered.map LogEntry.abs)) := by
  obtain ⟨sentinel, entries, covered⟩ := l
  rw [Log.abs, Log.logical, Server.latestConfig, List.map_append]
  dsimp only
  induction entries using List.reverseRecOn with
  | nil => rw [List.map_nil, List.append_nil]; rfl
  | append_singleton es e ih =>
    have hbytes : configOf e.abs.payload = configOf e.bytes := rfl
    rw [List.map_append, ← List.append_assoc, List.map_singleton, conf_concat, ih,
      List.reverse_append, List.reverse_singleton, List.singleton_append,
        List.findSome?_cons, hbytes]
    cases configOf e.bytes <;> rfl

/-! ## Which steps keep the newest configuration -/

variable {σ : Type} {C₀ : List NodeID} {s s' : Server σ} {m : StateMachine σ}

/-- The server uses the newest configuration of its log, `C₀` if it has none. -/
def FollowsLog (C₀ : List NodeID) (s : Server σ) : Prop := s.peers = conf configOf C₀ s.log.abs

/-- The request gets as far as the entries. -/
def Server.accepts (s : Server σ) (args : AppendEntriesArgs) : Prop :=
  s.stopped = false ∧ s.currentTerm ≤ args.term ∧
    s.log.matchesPrevLog args.prevLogIndex args.prevLogTerm = true

/-- If the request cuts off entries, the slice is left with a configuration, or the one in force has
been compacted. -/
def Server.KeepsConfig (C₀ : List NodeID) (s : Server σ) (args : AppendEntriesArgs) : Prop :=
  ∀ i ∈ s.log.conflict args.prevLogIndex args.entries,
    s.peers = conf configOf C₀ (s.log.covered.map LogEntry.abs) ∨
      ∃ e ∈ (s.log.truncate i).entries ++ args.entries.drop (i - (args.prevLogIndex + 1)),
        configOf e.bytes ≠ none

/-- The section does not lose the newest configuration of the log. -/
def Server.Retains (m : StateMachine σ) (C₀ : List NodeID) (w : World σ)
    (s : Server σ) : Local → Prop
  | .deliver call _ => ∀ c ∈ w.calls[call]?, match c.request with
    | .appendEntries args => s.accepts args → s.KeepsConfig C₀ args
    | .installSnapshot args => s.installs m args = true →
        s.log.termAt args.snapshot.lastIncludedIndex ≠ some args.snapshot.lastIncludedTerm →
          s.peers = conf configOf C₀ args.snapshot.abs
    | .requestVote _ => True
  | .submit cmd => ∀ C ∈ configOf cmd, C = s.peers
  | .addServer x => (Configuration.withServer ⟨s.peers⟩ x).Fits
  | .removeServer x => (Configuration.withoutServer ⟨s.peers⟩ x).Fits
  | _ => True

/-- The newest configuration of a log that was read from disk is in the slice, or it is the list to
start with; and no newer snapshot replaces the log by one with another configuration. -/
def Log.Recalls (C₀ : List NodeID) (l : Log) (snapshot : Option Snapshot) : Prop :=
  ((∃ e ∈ l.entries, configOf e.bytes ≠ none) ∨
    conf configOf C₀ (l.covered.map LogEntry.abs) = C₀) ∧
  ∀ snap ∈ snapshot, l.baseIndex < snap.lastIncludedIndex →
    l.termAt snap.lastIncludedIndex ≠ some snap.lastIncludedTerm →
      conf configOf C₀ snap.abs = conf configOf C₀ l.abs

/-- No step loses the newest configuration. -/
def Retains (cl : Cluster σ) (w : World σ) : Action → Prop
  | .boot id => ∀ st ∈ (w.node id).disk.state,
      st.log.decoded.Recalls (cl.peers id) (w.node id).disk.snapshot
  | .act id a => ∀ p ∈ (w.node id).proc, p.server.Retains cl.machine (cl.peers id) w a
  | _ => True

instance (s : Server σ) (args : AppendEntriesArgs) : Decidable (s.accepts args) :=
  inferInstanceAs (Decidable (_ ∧ _))

instance (s : Server σ) (args : AppendEntriesArgs) : Decidable (s.KeepsConfig C₀ args) :=
  inferInstanceAs (Decidable (∀ i ∈ s.log.conflict args.prevLogIndex args.entries, _))

instance (w : World σ) (s : Server σ) (a : Local) : Decidable (s.Retains m C₀ w a) := by
  induction a using Local.casesOn
  case deliver call recent =>
    refine @Option.decidableForallMem _ _ (fun c => ?_) _
    generalize c.request = req
    induction req using Request.casesOn <;> infer_instance
  all_goals
    unfold Server.Retains
    infer_instance

instance (l : Log) (snapshot : Option Snapshot) : Decidable (l.Recalls C₀ snapshot) :=
  inferInstanceAs (Decidable (_ ∧ ∀ snap ∈ snapshot, _))

instance (cl : Cluster σ) (w : World σ) (a : Action) : Decidable (Retains cl w a) := by
  induction a using Action.casesOn <;> unfold Retains <;> infer_instance

/-! ## One section -/

namespace FollowsLog

variable (h : FollowsLog C₀ s)

include h

theorem of_eq (hpeers : s'.peers = s.peers) (hlog : s'.log.abs = s.log.abs) : FollowsLog C₀ s' := by
  rw [FollowsLog, hpeers, hlog]
  exact h

/-- An entry at the end: the configuration in force is its own, if it has one. -/
theorem push (s' : Server σ) {e : LogEntry} (hlog : s'.log = s.log.push e)
    (hpeers : s'.peers = (configOf e.bytes).getD s.peers) : FollowsLog C₀ s' := by
  rw [FollowsLog, hlog, Log.abs_push, conf_concat, ← h]
  exact hpeers

/-- If entries that come in leave no configuration in the slice, then the one in force is not there
before either. -/
theorem compacted_of_appendFrom (hw : s.log.WF) {args : AppendEntriesArgs}
    (hprev : args.prevLogIndex ≤ s.log.logical.length) (hkeep : s.KeepsConfig C₀ args)
    (hlatest : Server.latestConfig (s.log.appendFrom args.prevLogIndex args.entries).1 = none) :
    s.peers = conf configOf C₀ (s.log.covered.map LogEntry.abs) := by
  obtain ⟨-, -, hcov⟩ := hw.appendFrom hprev args.entries
  generalize hl' : (s.log.appendFrom args.prevLogIndex args.entries).1 = l' at hlatest hcov
  have hfree {e : LogEntry} (he : e.abs ∈ l'.entries.map LogEntry.abs) : configOf
    e.bytes = none := by
    obtain ⟨e', he', habs⟩ := List.mem_map.1 he
    have hbytes : e'.bytes = e.bytes := congrArg Entry.payload habs
    rw [← hbytes]
    exact latestConfig_eq_none_iff.1 hlatest e' he'
  have hsplit : l'.abs = s.log.covered.map LogEntry.abs ++ l'.entries.map LogEntry.abs := by
    rw [Log.abs, Log.logical, List.map_append, hcov]
  cases hc : s.log.conflict args.prevLogIndex args.entries with
  | none =>
    have hpre : s.log.abs <+: l'.abs := hl' ▸ (hw.prefix_appendFrom hprev hc).map LogEntry.abs
    rw [hsplit, Log.abs, Log.logical, List.map_append, List.prefix_append_right_inj] at hpre
    have hnone : Server.latestConfig s.log = none :=
      latestConfig_eq_none_iff.2 fun e he => hfree (hpre.subset (List.mem_map_of_mem he))
    rw [h, conf_abs, hnone]
    rfl
  | some i =>
    have heq := hw.appendFrom_of_conflict hprev hc
    rw [hl', hsplit, Log.abs, Log.logical, List.map_append, List.append_assoc] at heq
    have hentries := List.append_cancel_left heq
    rcases hkeep i hc with hcompacted | ⟨e, he, hconf⟩
    · exact hcompacted
    · refine absurd (hfree ?_) hconf
      rw [hentries, ← List.map_append]
      exact List.mem_map_of_mem he

theorem takeEntries (hw : s.log.WF) {args : AppendEntriesArgs}
    (hprev : args.prevLogIndex ≤ s.log.logical.length) (hkeep : s.KeepsConfig C₀ args) :
    FollowsLog C₀ (s.takeEntries args.prevLogIndex args.entries).1 := by
  obtain ⟨peers, ni, mi, ci, ht, hpeers⟩ := s.takeEntries_frame args.prevLogIndex args.entries
  obtain ⟨-, -, hcov⟩ := hw.appendFrom hprev args.entries
  rw [ht, FollowsLog, Server.received, hpeers]
  split
  next hmod =>
    rw [conf_abs, hcov]
    cases hlatest : Server.latestConfig (s.log.appendFrom args.prevLogIndex args.entries).1 with
    | some x => rfl
    | none => exact h.compacted_of_appendFrom hw hprev hkeep hlatest
  next hmod =>
    rw [Log.appendFrom_unmodified (Bool.eq_false_of_not_eq_true hmod)]
    exact h

end FollowsLog

/-- A log that goes on a snapshot is what it was, or what the snapshot covers. -/
theorem abs_rebase {l : Log} (hw : l.WF) (snap : Snapshot) :
    (Server.rebase l snap).abs = l.abs ∨
      (l.termAt snap.lastIncludedIndex ≠ some snap.lastIncludedTerm ∧
        (Server.rebase l snap).abs = snap.abs) := by
  rw [Server.rebase, Log.termAt]
  split
  next e he =>
    split
    · exact .inl (congrArg (List.map LogEntry.abs) (hw.logical_discardThrough _ _))
    next hterm =>
      rw [he]
      exact .inr ⟨fun h => hterm (Option.some.inj h), List.map_append.trans (List.append_nil _)⟩
  next he =>
    rw [he]
    exact .inr ⟨fun h => by (cases h), List.map_append.trans (List.append_nil _)⟩

theorem FollowsLog.changeConfiguration (h : FollowsLog C₀ s)
    {mutate : Configuration → Option Configuration} {ws : List Write}
    (hs : s.changeConfiguration mutate = some (s', ws))
    (hfits : ∀ next, mutate ⟨s.peers⟩ = some next → next.Fits) : FollowsLog C₀ s' := by
  obtain ⟨-, -, -, next, ni, mi, hnext, -, hs', -⟩ := Server.changeConfiguration_cases hs
  have hpeers : s'.peers = next.servers := by rw [hs']; rfl
  refine h.push s' (e := ⟨s.currentTerm, s.log.lastIndex + 1, some (encodeConfig next)⟩)
    (by rw [hs']; rfl) ?_
  rw [hpeers, LogEntry.bytes, Option.getD_some, configOf_encodeConfig (hfits next hnext)]
  rfl

section Sections

variable {w : World σ} {id : NodeID} {p : Process σ} {a : Local} {e : Effect σ}

/-- **A section.** -/
theorem Move.followsLog (hm : Move m w id p a e) (hw : p.server.log.WF) (h : FollowsLog C₀ p.server)
    (ha : p.server.Retains m C₀ w a) : FollowsLog C₀ e.proc.server := by
  obtain @⟨s₁, s₂, _, _, _, turn, work, -, finish, -⟩ := hm.phases
  obtain ⟨_, _, _, _, _, -, hs', -⟩ := finish.frame
  have h₁ : FollowsLog C₀ s₁ := h.of_eq turn.peers (by rw [turn.log])
  rw [hs']
  show FollowsLog C₀ s₂
  cases work with
  | none => exact h₁
  | store | tracked => exact h
  -- the no-op carries no configuration
  | lead => exact h.push p.server.lead rfl rfl
  | own cmd hcmd =>
    subst hcmd
    refine h.push (p.server.appendOwn cmd) rfl ?_
    cases hc : configOf cmd with
    | none => rw [LogEntry.bytes, Option.getD_some, hc]; rfl
    | some C =>
      rw [LogEntry.bytes, Option.getD_some, hc]
      exact (ha C hc).symm
  | config x C ni mi ws hs =>
    rcases hs with ⟨rfl, hs⟩ | ⟨rfl, hs⟩
    · refine h.changeConfiguration hs fun next hnext => ?_
      split at hnext
      · cases hnext
      · cases hnext
        exact ha
    · refine h.changeConfiguration hs fun next hnext => ?_
      split at hnext
      · cases hnext
      split at hnext
      · cases hnext
      · cases hnext
        exact ha
  | entries call c recent args peers ni mi ci hdel hc hreq hstop hle hmatch htake =>
    obtain ⟨src, dst, req⟩ := c
    cases hreq
    subst hdel
    have hkeep := ha _ hc ⟨hstop, hle, hmatch⟩
    rw [← htake]
    refine h₁.takeEntries (by rw [turn.log]; exact hw) ?_ ?_
    · rw [turn.log]
      exact Server.WF.prev_le hw hmatch
    · rw [Server.KeepsConfig, turn.log, turn.peers]
      exact hkeep
  | compact snap =>
    rw [Server.compact]
    split
    · exact h
    · exact h.of_eq rfl (congrArg (List.map LogEntry.abs) (hw.logical_discardThrough _ _))
  | install src args x hin =>
    obtain ⟨call, recent, y, rfl, hc, hy, hterm, hbase, happ, -⟩ := hin
    have hinst : p.server.installs m args = true := by
      rw [Server.installs, hy, decide_eq_true hterm, decide_eq_true hbase, decide_eq_true happ]
      rfl
    rw [FollowsLog, Server.adoptSnapshot]
    dsimp only
    rw [turn.log, turn.peers]
    rcases abs_rebase hw args.snapshot with habs | ⟨hno, habs⟩
    · rw [habs]; exact h
    · rw [habs]; exact ha _ hc hinst hno

end Sections

/-! ## A restart -/

theorem peers_loadState (s : Server σ) (st : Saved) : (s.loadState st).peers =
    ((Server.latestConfig st.log.decoded).map Prod.snd).getD s.peers := by
  obtain ⟨ni, mi, ci, h⟩ := Server.adoptConfigFromLog_frame { s with
    currentTerm := st.term, votedFor := st.votedFor, log := st.log.decoded, role := .follower }
  rw [Server.loadState, h]

theorem followsLog_loadState {st : Saved} {snapshot : Option Snapshot} (hs : s.peers = C₀)
    (hr : st.log.decoded.Recalls C₀ snapshot) : FollowsLog C₀ (s.loadState st) := by
  rw [FollowsLog, peers_loadState, Server.loadState_log, conf_abs, hs]
  cases hlatest : Server.latestConfig st.log.decoded with
  | some x => rfl
  | none =>
    rcases hr.1 with ⟨e, he, hconf⟩ | hstart
    · exact absurd (latestConfig_eq_none_iff.1 hlatest e he) hconf
    · exact hstart.symm

theorem followsLog_start {cl : Cluster σ} {id : NodeID} {d : Disk} {p : Process σ} (hd : d.WF)
    (hr : ∀ st ∈ d.state, st.log.decoded.Recalls (cl.peers id) d.snapshot)
    (hp : cl.start id d = some p) : FollowsLog (cl.peers id) p.server := by
  cases started_of_start hp with
  | fresh => rfl
  | restored st x y hstate =>
    obtain rfl : d.saved = st := by rw [Disk.saved, hstate]; rfl
    have hloaded := followsLog_loadState (s := Server.new cl.machine id (cl.peers id)) rfl
      (hr _ hstate)
    rw [FollowsLog, Server.loadState_log] at hloaded
    refine hloaded.trans ?_
    show conf configOf (cl.peers id) _ = conf configOf (cl.peers id) d.log.abs
    rcases d.log_cases with ⟨hlog, -⟩ | ⟨snap, hsnap, hbase, hlog⟩
    · rw [hlog]
    · rw [hlog]
      rcases abs_rebase hd.log.decoded snap with habs | ⟨hno, habs⟩
      · rw [habs]
      · rw [habs, (hr _ hstate).2 snap hsnap hbase hno]

/-! ## Whole runs -/

theorem followsLog_step {cl : Cluster σ} {w w' : World σ} {a : Action} (hw : WellFormed w)
    (h : ∀ id p, (w.node id).proc = some p → FollowsLog (cl.peers id) p.server)
    (hs : exec cl w a = some w') (ha : Retains cl w a) (id : NodeID) (p' : Process σ)
    (hp' : (w'.node id).proc = some p') : FollowsLog (cl.peers id) p'.server := by
  cases (stepped_of_exec hs).procStep hp' with
  | other _ hp' => exact h id p' hp'
  | boot p hdown hp =>
    exact followsLog_start (hw.disk id) ha hp
  | act p a e hp he =>
    exact (move_of_act he).followsLog (hw.proc id p hp).server.log (h id p hp) (ha p hp)

/-- **Every server uses the newest configuration of its log**, or the list it was started with while
the log has none, in every run in which no step loses that configuration. -/
theorem peers_follow_log {cl : Cluster σ} {as : List Action} {w : World σ}
    (hrun : Run (fun w a w' => exec cl w a = some w' ∧ Retains cl w a) {} as w) {id : NodeID}
    (hs : w.server id = some s) : s.peers = conf configOf (cl.peers id) s.log.abs := by
  obtain ⟨p, hp, rfl⟩ := Option.map_eq_some_iff.1 hs
  have hinv : WellFormed w ∧
      ∀ id p, (w.node id).proc = some p → FollowsLog (cl.peers id) p.server :=
    hrun.invariant (P := fun w => WellFormed w ∧
        ∀ id p, (w.node id).proc = some p → FollowsLog (cl.peers id) p.server)
      (fun _ _ _ ⟨hs, ha⟩ ⟨hw, h⟩ => ⟨hw.step (stepped_of_exec hs), followsLog_step hw h hs ha⟩)
      ⟨wellFormed_empty, nofun⟩
  exact hinv.2 id p hp

/-- Server 1 of two adds a third, commits that with server 2 and compacts; server 2 restarts. -/
def addition : List Action :=
  leaderOfTwo ++ [.run [1] 0, .deliver [2] 1, .receive [1] 0 1, .act [1] (.addServer [3]),
    .heartbeat [1], .run [1] 0, .run [1] 0, .deliver [2] 2, .receive [1] 1 2,
    .act [1] (.maybeCompact 0), .crash [2], .boot [2]]

/-- Server 1 knows the new configuration although its slice is empty, and server 2 although it was
started with the old one. -/
theorem peers_follow_log_addition :
    ∃ w s₁ s₂, Run (fun w a w' => exec (journalCluster [[1], [2]]) w a = some w' ∧
        Retains (journalCluster [[1], [2]]) w a) {} addition w ∧
      w.server [1] = some s₁ ∧ s₁.log.entries = [] ∧ s₁.peers = [[1], [2], [3]] ∧
      s₁.peers = conf configOf [[1], [2]] s₁.log.abs ∧
      w.server [2] = some s₂ ∧ s₂.peers = [[1], [2], [3]] ∧
      s₂.peers = conf configOf [[1], [2]] s₂.log.abs := by
  obtain ⟨w, s₁, hrun, hs₁, hempty, hpeers₁, s₂, hs₂, hpeers₂⟩ : ∃ w s₁,
      Run (fun w a w' => exec (journalCluster [[1], [2]]) w a = some w' ∧
        Retains (journalCluster [[1], [2]]) w a) {} addition w ∧
      w.server [1] = some s₁ ∧ s₁.log.entries = [] ∧ s₁.peers = [[1], [2], [3]] ∧
      ∃ s₂ ∈ w.server [2], s₂.peers = [[1], [2], [3]] :=
    exists_run_guarded_some (by decide +kernel)
  exact ⟨w, s₁, s₂, hrun, hs₁, hempty, hpeers₁, peers_follow_log hrun hs₁, hs₂, hpeers₂,
    peers_follow_log hrun hs₂⟩

/-- Server 1 of three adds a fourth in term 1, which it tells nobody; server 2 leads term 2 and
sends server 1 its no-op. -/
def overwrittenAddition : List Action :=
  leaderOfThree ++ [.act [1] (.addServer [4]), .timeout [2], .run [2] 0, .deliver [3] 3,
    .receive [2] 1 1, .run [2] 1, .run [2] 1, .run [2] 1, .run [2] 1, .deliver [1] 4]

/-- The entry is gone from the log of server 1, and server 4 is still one of its peers. -/
theorem overwritten_configuration_stays_in_force :
    ∃ w s, Run (fun w a w' => exec (journalCluster [[1], [2], [3]]) w a = some w') {}
        overwrittenAddition w ∧
      w.server [1] = some s ∧ s.log = ⟨⟨0, 0, none⟩, [⟨2, 1, none⟩], []⟩ ∧
      s.peers = [[1], [2], [3], [4]] ∧ s.peers ≠ conf configOf [[1], [2], [3]] s.log.abs :=
  exists_run_some (by decide +kernel)

end CoreBank.Raft
