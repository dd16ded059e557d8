import CoreBank.Raft.Simulation

/-!
# The cluster refines the history

`Refines.step`: every step of the cluster that is `Safe` and `Ordered` leads to a state that refines
an extension of the history, and `refines_of_run` says so of whole runs.  What is left after
`CoreBank.Raft.Simulation` is the disk, also when the process crashes between two writes, and the
goroutines.

For a fixed membership `Ordered` is an invariant; see `CoreBank.Raft.FixedRun`.

## What is here

* `Follows` — the state file and the marker follow the server;
* `Refines.backed`, `Refines.disk_cut` — the disk after a section, and after a part of it;
* `Refines.step`, `refines_of_run`.
-/

set_option autoImplicit false

namespace CoreBank.Raft

open ActionSystem Consensus Majority

variable {σ : Type} {confOf : Bytes → Option (List NodeID)} {C₀ : List NodeID}
  {h h' : History NodeID Bytes} {id : NodeID} {s s' : Server σ}

/-! ## The disk -/

theorem applied_writeAll_cases (d : Disk) (ws : List Write) :
    (d.writeAll ws).applied = d.applied ∨ .saveApplied (d.writeAll ws).applied ∈ ws := by
  induction ws generalizing d with
  | nil => exact .inl rfl
  | cons x ws ih =>
    rcases ih (d.write x) with hd | hmem
    · cases x with
      | save | saveSnapshot => exact .inl hd
      | saveApplied i =>
        right
        have heq : (d.writeAll (.saveApplied i :: ws)).applied = i := hd
        rw [heq]
        exact List.mem_cons_self
    · exact .inr (List.mem_cons_of_mem _ hmem)

/-- The state file and the applied marker follow a server from `s` to `s'`. -/
structure Follows (d d' : Disk) (s s' : Server σ) : Prop where
  state : (d'.state = d.state ∧ s'.toSaved = s.toSaved) ∨ d'.state = some s'.toSaved
  applied : d'.applied = d.applied ∨ d'.applied = s'.lastApplied

/-- After some of its writes a section is on disk, or nothing of it but a snapshot. -/
theorem Saves.follows {early : Prop} {ws : List Write} (hsv : Saves early s s' ws)
    (hno : ¬ early ∨ ws ≠ []) (d : Disk) (k : Nat) :
    Follows d (d.writeAll (ws.take k)) s s' ∨
      (.save s'.toSaved ∈ ws ∧ .save s'.toSaved ∉ ws.take k ∧
        Follows d (d.writeAll (ws.take k)) s s) := by
  have hmark (hmarker : ∀ i, .saveApplied i ∈ ws → i = s'.lastApplied) :
      (d.writeAll (ws.take k)).applied = d.applied ∨
        (d.writeAll (ws.take k)).applied = s'.lastApplied :=
    (applied_writeAll_cases d _).imp_right fun hmem => hmarker _ (List.mem_of_mem_take hmem)
  cases hsv with
  | kept hws hsame hmarker =>
    have hstate : (d.writeAll (ws.take k)).state = d.state := by
      rw [state_writeAll (x := s'.toSaved) fun st hst => absurd (List.mem_of_mem_take hst) (hws st),
        if_neg fun hst => hws _ (List.mem_of_mem_take hst)]
    exact .inl ⟨.inl ⟨hstate, hsame⟩, hmark hmarker⟩
  | saved hmem hws hterm hvote hmarker hfirst =>
    have hstate := state_writeAll (d := d) fun st hst => hws st (List.mem_of_mem_take (i := k) hst)
    by_cases hin : .save s'.toSaved ∈ ws.take k
    · rw [if_pos hin] at hstate
      exact .inl ⟨.inr hstate, hmark hmarker⟩
    · rw [if_neg hin] at hstate
      refine .inr ⟨hmem, hin, .inl ⟨hstate, rfl⟩, ?_⟩
      rcases applied_writeAll_cases d (ws.take k) with heq | hmem'
      · exact .inl heq
      · exact absurd (hfirst k _ hmem') hin
  | unsaved hearly hws =>
    rcases hno with hno | hno
    · exact absurd hearly hno
    · exact absurd hws hno

theorem Saves.follows_all {early : Prop} {ws : List Write} (hsv : Saves early s s' ws)
    (hno : ¬ early) (d : Disk) : Follows d (d.writeAll ws) s s' := by
  have hall := hsv.follows (.inl hno) d ws.length
  rw [List.take_length] at hall
  rcases hall with hf | ⟨hmem, hno, -⟩
  · exact hf
  · exact absurd hmem hno

variable {d : Disk}

theorem Follows.stored {d' : Disk} (hf : Follows d d' s s') (hstate : d.state ≠ none)
    (hsync : d.saved.log.abs = s.log.abs) : d'.state ≠ none ∧ d'.saved.log.abs = s'.log.abs := by
  rcases hf.state with ⟨heq, hsame⟩ | heq
  · have hlog : s'.log = s.log := congrArg Saved.log hsame
    rw [Disk.saved, heq, hlog]
    exact ⟨hstate, hsync⟩
  · rw [Disk.saved, heq]
    exact ⟨Option.some_ne_none _, rfl⟩

/-- The disk of a server that moves on; a new snapshot is one of what was decided. -/
theorem Backed.follow {d' : Disk} (hb : Backed h d s) (hs : ServerRef h id s)
    (hs' : ServerRef h' id s') (hI : Inv confOf C₀ h) (ho : Only confOf C₀ id h h')
    (hle : s.commitIndex ≤ s'.commitIndex) (hf : Follows d d' s s')
    (hsnap : d'.snapshot = d.snapshot ∨ (d'.state ≠ none ∧ d'.saved.log.abs = s'.log.abs ∧
      ∃ snap, d'.snapshot = some snap ∧ snap.abs <+: s'.log.abs.take s'.commitIndex ∧
        Sealed h' snap.abs)) :
    Backed h' d' s' := by
  have hpre := hs.isPrefix_take hs' hI ho hle
  -- a point of the old log that was sealed still is
  have hkept {n : Nat} (hn : n ≤ s.commitIndex) (hx : Sealed h (s.log.abs.take n)) :
      Sealed h' (s'.log.abs.take n) := by
    rw [hs.take_eq hs' hI ho hle hn]
    exact hx.mono hI ho.extends_
  obtain ⟨happ, hmark⟩ : d'.applied ≤ s'.commitIndex ∧ Sealed h' (s'.log.abs.take d'.applied) := by
    rcases hf.applied with heq | heq
    · rw [heq]
      exact ⟨hb.applied.trans hle, hkept hb.applied hb.marker⟩
    · rw [heq, hs'.applied]
      exact ⟨le_rfl, hs'.commit⟩
  have hheld (snap : Snapshot) (hd : d'.snapshot = some snap) :
      snap.abs <+: s'.log.abs.take s'.commitIndex ∧ Sealed h' snap.abs := by
    rcases hsnap with heq | ⟨-, -, snap', heq, hheld⟩
    · obtain ⟨hsp, hsealed⟩ := hb.snapshot snap (heq ▸ hd)
      exact ⟨hsp.trans hpre, hsealed.mono hI ho.extends_⟩
    · rw [hd] at heq
      cases heq
      exact hheld
  rcases hf.state with ⟨heq, hsame⟩ | heq
  · have hsaved : d'.saved = d.saved := by rw [Disk.saved, heq, Disk.saved]
    obtain ⟨hterm, hvote, hlog⟩ : s'.currentTerm = s.currentTerm ∧ s'.votedFor = s.votedFor ∧
        s'.log = s.log :=
      ⟨congrArg Saved.term hsame, congrArg Saved.votedFor hsame, congrArg Saved.log hsame⟩
    refine
      { term := by rw [hsaved, hterm]; exact hb.term
        vote := by rw [hsaved, hvote]; exact hb.vote
        base := by rw [hsaved, hlog]; exact hb.base
        cut := by rw [hsaved]; exact hkept (hb.base.trans hs.base) hb.cut
        grown := by rw [hsaved]; exact hb.grown.mono ho.extends_.leaderLog
        synced := ?_
        applied := happ
        marker := hmark
        snapshot := hheld
        fresh := fun hnone => ?_ }
    · rcases hsnap with heq' | ⟨-, hsync, -⟩
      · have hdlog : d'.log = d.log := by rw [Disk.log, Disk.log, heq', hsaved]
        rw [hsaved, hlog, hdlog]
        exact hb.synced
      · exact .inl hsync
    · rcases hsnap with heq' | ⟨hstate, -⟩
      · rw [heq']
        exact hb.fresh (heq ▸ hnone)
      · exact absurd hnone hstate
  · have hsaved : d'.saved = s'.toSaved := by rw [Disk.saved, heq]; rfl
    exact
      { term := by rw [hsaved]; rfl
        vote := by rw [hsaved]; rfl
        base := by rw [hsaved]; exact le_rfl
        cut := by rw [hsaved]; exact hs'.cut
        grown := by
          have hg := ho.inv.log_grown id
          rw [hs'.log] at hg
          rw [hsaved]
          exact hg
        synced := .inl (by rw [hsaved]; rfl)
        applied := happ
        marker := hmark
        snapshot := hheld
        fresh := fun hnone => by rw [heq] at hnone; cases hnone }

/-- A crash between the two writes of an installation: `Restore` cuts the saved log as the
installation has cut the one in memory. -/
theorem Backed.install (hb : Backed h d s) (hs : ServerRef h id s) (hI : Inv confOf C₀ h)
    (hpos : ∀ c T A, h.campaigned c T A → 0 < T) (hd : d.WF) (hw : s.log.WF) {src : NodeID}
    {args : InstallSnapshotArgs} (hsw : args.snapshot.WF)
    (hr : RequestRef h src (.installSnapshot args)) (hsaved : ¬ d.saved.term < args.term)
    (hterm : s.currentTerm ≤ args.term)
    (hbase : s.log.baseIndex < args.snapshot.lastIncludedIndex) {x : σ}
    (hs' : ServerRef h' id
      ((s.heedSnapshot args.term args.leaderID).adoptSnapshot args.snapshot x))
    (ho : Only confOf C₀ id h h') : DiskRef h' id { d with snapshot := some args.snapshot } := by
  obtain ⟨⟨A, he⟩, hdec, hsealed⟩ := hr
  have heq : s.currentTerm = args.term := by
    have := hb.term
    omega
  have hlt : ¬ s.currentTerm < args.term := by omega
  have hmax := Nat.max_eq_left (Nat.le_of_not_lt hlt)
  rw [Server.heedSnapshot_frame, if_neg hlt, if_neg hlt, hmax] at hs'
  have hT : d.saved.term = args.term := hb.term.trans heq
  have hlen : args.snapshot.abs.length = args.snapshot.lastIncludedIndex := hsw.length_abs
  have hdb : d.saved.log.decoded.baseIndex < args.snapshot.lastIncludedIndex :=
    Nat.lt_of_le_of_lt hb.base hbase
  have hdlog : ({ d with snapshot := some args.snapshot } : Disk).log =
      Server.rebase d.saved.log.decoded args.snapshot := if_pos hdb
  obtain ⟨-, hdbase, hcut⟩ := Server.abs_rebase_cases hI hd.log.decoded
    (by rw [Log.abs_log_decoded]; exact hb.grown) he hsw hdec hdb
  rw [Log.abs_log_decoded] at hcut
  obtain ⟨-, -, hcut'⟩ :=
    Server.abs_rebase_cases hI hw (by rw [← hs.log]; exact hI.log_grown id) he hsw
    hdec hbase
  -- both logs keep what follows the snapshot, or neither does
  have hsame : (Server.rebase s.log args.snapshot).abs =
      (Server.rebase d.saved.log.decoded args.snapshot).abs := by
    rcases hb.synced with hsync | ⟨hnil, hno, -⟩
    · rw [hsync] at hcut
      rcases hcut with ⟨h1, hpre⟩ | ⟨h1, hpre⟩ <;> rcases hcut' with ⟨h2, hpre'⟩ | ⟨h2, hpre'⟩
      · rw [h1, h2]
      · exact absurd hpre hpre'
      · exact absurd hpre' hpre
      · rw [h1, h2]
    · -- the log in memory is the old snapshot, which the new one continues
      have hall : s.log.abs.length = s.log.baseIndex := by
        rw [Log.length_abs, Log.length_logical, hnil, hw.covered_length,
          List.length_nil, Nat.add_zero]
      have hbc := hs.base
      have hdecs : Decided h s.currentTerm s.log.abs := by
        have := hs.decided hI
        rwa [List.take_of_length_le (by omega)] at this
      have hpre : s.log.abs <+: args.snapshot.abs := by
        rcases hdecs.total hI hdec with hpre | hpre
        · exact hpre
        · have := hpre.length_le
          omega
      rcases hcut with ⟨-, hpre'⟩ | ⟨h1, -⟩
      · exact absurd (hpre.trans hpre') hno
      · rcases hcut' with ⟨-, hpre'⟩ | ⟨h2, -⟩
        · have := hpre'.length_le
          omega
        · rw [h1, h2]
  have habs : ({ d with snapshot := some args.snapshot } : Disk).log.abs =
      (Server.rebase s.log args.snapshot).abs := by rw [hdlog, hsame]
  have hlen' : max s.commitIndex args.snapshot.lastIncludedIndex ≤
      (Server.rebase s.log args.snapshot).abs.length := hs'.length
  have hmark : max d.applied (Server.rebase d.saved.log.decoded args.snapshot).baseIndex ≤
      max s.commitIndex args.snapshot.lastIncludedIndex := by
    have := hb.applied
    omega
  obtain ⟨hsnap', hsealed'⟩ : args.snapshot.abs <+: (Server.rebase s.log args.snapshot).abs.take
      (max s.commitIndex args.snapshot.lastIncludedIndex) ∧ Sealed h' args.snapshot.abs :=
    hs'.snapshot _ rfl
  -- what was sealed below the old commit index still is
  have hkept {n : Nat} (hn : n ≤ s.commitIndex) (hx : Sealed h (s.log.abs.take n)) :
      Sealed h' ((Server.rebase s.log args.snapshot).abs.take n) := by
    have := hs.take_eq hs' hI ho (Nat.le_max_left _ _) hn
    rw [show (Server.rebase s.log args.snapshot).abs.take n = s.log.abs.take n from this]
    exact hx.mono hI ho.extends_
  refine
    { term := hs'.term.trans hb.term.symm
      vote := hs'.vote.trans hb.vote.symm
      log := by rw [habs]; exact hs'.log
      grown := hb.grown.mono ho.extends_.leaderLog
      applied := by rw [habs, hdlog]; exact hmark.trans hlen'
      marker := by rw [habs]; exact hkept hb.applied hb.marker
      cut := by rw [habs]; exact hkept (hb.base.trans hs.base) hb.cut
      snapshot := fun snap hsnap => ?_
      fresh := fun hnone => ?_ }
  · cases hsnap
    rw [habs]
    exact ⟨hsealed', hsnap'.trans (List.take_prefix _ _)⟩
  · have hstate : d.state = none := hnone
    have hzero : d.saved.term = 0 := by rw [Disk.saved, hstate]; rfl
    have := hpos _ _ _ (hI.elected_backs _ _ _ he).1
    omega

variable {beats : Nat → Prop}

section Act

variable {m : StateMachine σ} {w : World σ} {p : Process σ} {a : Local} {e : Effect σ}

/-- A snapshot to be taken finds the log on disk. -/
theorem ProcRef.synced (hP : ProcRef confOf C₀ h id d p) (hw : p.server.WF) {threshold : Nat}
    {snap : Snapshot} (hsnap : p.server.takeSnapshot m threshold = some snap) :
    d.state ≠ none ∧ d.saved.log.abs = p.server.log.abs := by
  obtain ⟨-, -, hlt⟩ := hP.server.takeSnapshot hw hsnap
  have hlen := hP.server.length
  have hsync : d.saved.log.abs = p.server.log.abs := by
    rcases hP.backed.synced with hsync | ⟨hnil, -⟩
    · exact hsync
    · rw [Log.length_abs, Log.length_logical, hnil, hw.log.covered_length, List.length_nil] at hlen
      omega
  refine ⟨fun hnone => ?_, hsync⟩
  have hempty : d.saved.log.abs = [] := by rw [Disk.saved, hnone]; rfl
  rw [← hsync, hempty, List.length_nil] at hlen
  omega

/-- Goroutines that wait for replies compact nothing and send nothing. -/
theorem mem_spawn_awaiting {n : Nat} {calls : List (NodeID × Request × Pending)} {t : Task}
    (ht : t ∈ (p.spawn (awaiting n calls)).tasks) : t ∈ p.tasks ∨ ∃ call k, t = .await call k := by
  rcases mem_spawn ht with ht | ht
  · exact .inl ht
  · obtain ⟨c, -, rfl⟩ := List.mem_map.1 ht
    exact .inr ⟨_, _, rfl⟩

variable (hR : Refines confOf C₀ w h) (hM : Messages h w beats) (hp : (w.node id).proc = some p)
  (ha : p.act m w id a = some e) (hsim : Simulated confOf C₀ h w beats id p a e h')

include hR hp ha

/-- The stored snapshot after some writes of a section: the old one, one of what was applied, or a
leader's. -/
theorem Refines.stored (k : Nat) :
    ((w.node id).disk.writeAll (e.writes.take k)).snapshot = (w.node id).disk.snapshot ∨
      ((w.node id).disk.state ≠ none ∧
        (w.node id).disk.saved.log.abs = p.server.log.abs ∧
        ∃ snap, ((w.node id).disk.writeAll (e.writes.take k)).snapshot = some snap ∧
          snap.abs <+: p.server.log.abs.take p.server.commitIndex ∧ Sealed h snap.abs) ∨
      ∃ src args, Installs m w id p a e src args ∧
        ((w.node id).disk.writeAll (e.writes.take k)).snapshot = some args.snapshot ∧ k ≠ 0 := by
  have hP := (hR.node id).proc p hp
  have hw := hR.wf.proc id p hp
  rcases snapshot_writeAll_cases (w.node id).disk (e.writes.take k) with heq | ⟨snap, hsnap, hmem⟩
  · exact .inl heq
  right
  rcases (move_of_act ha).snapshot_mem (List.mem_of_mem_take hmem) with
    ⟨i, -, ht⟩ | ⟨-, threshold, hs⟩ | ⟨src, args, hinst, rfl⟩
  · have hmem := List.mem_of_getElem? ht
    obtain ⟨hstate, hsync⟩ := hP.saving snap hmem
    exact .inl ⟨hstate, hsync, snap, hsnap, hP.compacts snap (.inl hmem)⟩
  · obtain ⟨hstate, hsync⟩ := hP.synced hw.server hs
    obtain ⟨-, habs, -⟩ := hP.server.takeSnapshot hw.server hs
    refine .inl ⟨hstate, hsync, snap, hsnap, ?_⟩
    rw [habs]
    exact ⟨List.prefix_refl _, hP.server.commit⟩
  · refine .inr ⟨src, args, hinst, hsnap, ?_⟩
    rintro rfl
    cases hmem

include hsim

theorem Refines.backed (hno : p.adoptsUnsaved m w a = false) :
    Backed h' ((w.node id).disk.writeAll e.writes) e.proc.server := by
  have hP := (hR.node id).proc p hp
  have hf := (move_of_act ha).saves.follows_all (by rw [hno]; exact nofun) (w.node id).disk
  refine hP.backed.follow hP.server hsim.server hR.inv hsim.only hsim.commit hf ?_
  have hstored := hR.stored hp ha e.writes.length
  rw [List.take_length] at hstored
  rcases hstored with heq | ⟨hstate, hsync, snap, hsnap, hpre, hsealed⟩ |
    ⟨src, args, ⟨call, recent, x, -, -, -, -, -, -, hproc, hws⟩, hsnap, -⟩
  · exact .inl heq
  · obtain ⟨hstate', hsync'⟩ := hf.stored hstate hsync
    exact .inr ⟨hstate', hsync', snap, hsnap,
      hpre.trans (hP.server.isPrefix_take hsim.server hR.inv hsim.only hsim.commit),
      hsealed.mono hR.inv hsim.only.extends_⟩
  · right
    have hstate : ((w.node id).disk.writeAll e.writes).state = some e.proc.server.toSaved := by
      rw [hws]
      rfl
    refine ⟨by rw [hstate]; exact nofun, by rw [Disk.saved, hstate]; rfl, _, hsnap, ?_⟩
    exact hsim.server.snapshot _ (by rw [hproc]; rfl)

include hM

/-- **A crash inside a section**, after `k` of its writes, leaves the disk of the history before the
section or of the one after it. -/
theorem Refines.disk_cut (hne : e.writes ≠ []) {k : Nat}
    (htorn : k = 1 → tears w (w.node id).disk a = false) :
    DiskRef h id ((w.node id).disk.writeAll (e.writes.take k)) ∨
      DiskRef h' id ((w.node id).disk.writeAll (e.writes.take k)) := by
  have hP := (hR.node id).proc p hp
  have hw := hR.wf.proc id p hp
  have hd := hR.wf.disk id
  have hd' := hd.cut hw hR.wf.calls (move_of_act ha) k
  have hI := hR.inv
  have hold {d' : Disk} (hwf : d'.WF) (hf : Follows (w.node id).disk d' p.server p.server)
      (hsnap : d'.snapshot = (w.node id).disk.snapshot ∨
        (d'.state ≠ none ∧ d'.saved.log.abs = p.server.log.abs ∧
          ∃ snap, d'.snapshot = some snap ∧
            snap.abs <+: p.server.log.abs.take p.server.commitIndex ∧ Sealed h snap.abs)) :
      DiskRef h id d' :=
    (hP.backed.follow hP.server hP.server hI (.refl hI) (le_rfl) hf hsnap).disk hP.server hwf
  have hnew {d' : Disk} (hwf : d'.WF) (hf : Follows (w.node id).disk d' p.server e.proc.server)
      (hsnap : d'.snapshot = (w.node id).disk.snapshot ∨
        (d'.state ≠ none ∧ d'.saved.log.abs = e.proc.server.log.abs ∧
          ∃ snap, d'.snapshot = some snap ∧
            snap.abs <+: e.proc.server.log.abs.take e.proc.server.commitIndex ∧
              Sealed h' snap.abs)) : DiskRef h' id d' :=
    (hP.backed.follow hP.server hsim.server hI hsim.only hsim.commit hf hsnap).disk hsim.server hwf
  have hfol := (move_of_act ha).saves.follows (.inr hne) (w.node id).disk k
  rcases hR.stored hp ha k with heq | ⟨hstate, hsync, snap, hsnap, hpre, hsealed⟩ |
    ⟨src, args, ⟨call, recent, x, rfl, hcall, -, hterm, hbase, -, hproc, hws⟩, hsnap, hk⟩
  · rcases hfol with hf | ⟨-, -, hf⟩
    · exact .inr (hnew hd' hf (.inl heq))
    · exact .inl (hold hd' hf (.inl heq))
  · rcases hfol with hf | ⟨-, -, hf⟩
    · obtain ⟨hstate', hsync'⟩ := hf.stored hstate hsync
      exact .inr (hnew hd' hf (.inr ⟨hstate', hsync', snap, hsnap,
        hpre.trans (hP.server.isPrefix_take hsim.server hI hsim.only hsim.commit),
        hsealed.mono hI hsim.only.extends_⟩))
    · obtain ⟨hstate', hsync'⟩ := hf.stored hstate hsync
      exact .inl (hold hd' hf (.inr ⟨hstate', hsync', snap, hsnap, hpre, hsealed⟩))
  · right
    by_cases hone : k = 1
    · -- the snapshot is stored and the log is not
      subst hone
      have hmem := List.mem_of_getElem? hcall
      have htorn' : ¬ (w.node id).disk.saved.term < args.term := by
        have := htorn rfl
        simp only [tears, hcall, decide_eq_false_iff_not] at this
        exact this
      have hno (hb : beats call) : False := (hM.calls _ _ hcall).beat hb
      have hs' := hsim.server
      rw [hproc] at hs'
      rw [hws]
      exact hP.backed.install hP.server hI hR.positive hd hw.server.log (hR.wf.calls _ hmem)
        ((hM.calls _ _ hcall).request hno) htorn' hterm hbase hs' hsim.only
    · have htake : e.writes.take k = e.writes := by
        refine List.take_of_length_le ?_
        rw [hws]
        show 2 ≤ k
        omega
      have hstate : ((w.node id).disk.writeAll (e.writes.take k)).state =
          some e.proc.server.toSaved := by
        rw [htake, hws]
        rfl
      refine hnew hd' ⟨.inr hstate, ?_⟩ (.inr ⟨by rw [hstate]; exact Option.some_ne_none _,
        by rw [Disk.saved, hstate]; rfl, _, hsnap, hsim.server.snapshot _ (by rw [hproc]; rfl)⟩)
      rw [htake, hws]
      exact .inl rfl

/-! ## The process -/

/-- The votes that are counted were given. -/
theorem Refines.tally (hord : p.Ordered confOf C₀ a) (n : Nat) :
    Tally (fun T q => h'.voted q T id) (fun T C => ∃ A, h'.campaigned id T A ∧ conf confOf C₀ A = C)
      (e.proc.spawn (awaiting n e.calls)) := by
  have hP := (hR.node id).proc p hp
  have hx := hsim.only.extends_
  have hid := (hR.wired id p hp).1
  refine (hP.tally.mono (fun _ _ => hx.voted) fun _ _ ⟨A, hA, hC⟩ =>
    ⟨A, hx.campaigned hA, hC⟩).step n
    (move_of_act ha) ?_ ?_
  · intro i call T q r ht hr hgrant
    have hno := hM.awaited id p hp call _ (List.mem_of_getElem? ht) nofun
    obtain ⟨dst, req, hcall, rfl, args, rfl, rfl, hcand⟩ :=
      (hR.wired id p hp).2 call _ (List.mem_of_getElem? ht)
    obtain ⟨src', dst', args', hcall', hv⟩ := hM.replies _ _ hr hno hgrant
    rw [hcall] at hcall'
    cases hcall'
    rw [hcand] at hv
    exact hx.voted hv
  · intro i hi ht
    subst hi
    obtain ⟨hc, hmem⟩ := hord.1 ht
    rw [hid] at hmem ⊢
    obtain ⟨hv, hK⟩ := hsim.stands i rfl ht
    exact ⟨hmem, hc.nodup, hv, hK⟩

theorem Refines.procRef (hno : p.adoptsUnsaved m w a = false) (hord : p.Ordered confOf C₀ a) :
    ProcRef confOf C₀ h' id ((w.node id).disk.writeAll e.writes)
      (e.proc.spawn (awaiting w.calls.length e.calls)) := by
  have hP := (hR.node id).proc p hp
  have hw := hR.wf.proc id p hp
  have hm := move_of_act ha
  have hpre := hP.server.isPrefix_take hsim.server hR.inv hsim.only hsim.commit
  have hf := hm.saves.follows_all (by rw [hno]; exact nofun) (w.node id).disk
  have hold {t : Task} (ht : t ∈ (e.proc.spawn (awaiting w.calls.length e.calls)).tasks)
      (hc : t.compacts = true) : t ∈ e.proc.tasks := by
    rcases mem_spawn_awaiting ht with ht | ⟨call, k, rfl⟩
    · exact ht
    · cases hc
  refine
    { server := hsim.server
      backed := hR.backed hp ha hsim hno
      tally := hR.tally hM hp ha hsim hord _
      compacts := fun snap ht => ?_
      saving := fun snap ht => ?_
      sent := fun call q T i ht => ?_
      targets := fun t ht q hq => ?_ }
  · refine And.imp (List.IsPrefix.trans · hpre) (.mono hR.inv hsim.only.extends_) ?_
    have hcase {t : Task} (ht : t ∈ e.proc.tasks) (hc : t.compacts = true)
        (hsnap : t = .saveSnapshot snap ∨ t = .compact snap) :
        snap.abs <+: p.server.log.abs.take p.server.commitIndex ∧ Sealed h snap.abs := by
      rcases hm.compacts ht hc with hin | ⟨s, rfl, hin, -⟩ | ⟨threshold, s, -, rfl, hs⟩
      · rcases hsnap with rfl | rfl
        · exact hP.compacts snap (.inl hin)
        · exact hP.compacts snap (.inr hin)
      · rcases hsnap with heq | heq <;> cases heq
        exact hP.compacts snap (.inl hin)
      · rcases hsnap with heq | heq <;> cases heq
        rw [(hP.server.takeSnapshot hw.server hs).2.1]
        exact ⟨List.prefix_refl _, hP.server.commit⟩
    rcases ht with ht | ht
    · exact hcase (hold ht rfl) rfl (.inl rfl)
    · exact hcase (hold ht rfl) rfl (.inr rfl)
  · have hstored : (w.node id).disk.state ≠ none ∧
        (w.node id).disk.saved.log.abs = p.server.log.abs := by
      rcases hm.compacts (hold ht rfl) rfl with hin | ⟨s, heq, -⟩ | ⟨threshold, s, -, heq, hs⟩
      · exact hP.saving snap hin
      · cases heq
      · exact hP.synced hw.server hs
    exact hf.stored hstored.1 hstored.2
  · rcases mem_spawn ht with ht | ht
    · exact (hP.sent call q T i (hm.await_mem ht)).trans hsim.commit
    · obtain ⟨c, hc, hk, -⟩ := @await_of_awaiting _ _ a _ id _ _ ht
      have hmatch := hm.calls_match hc
      rw [← hk] at hmatch
      obtain ⟨-, args, hreq, -, rfl⟩ := hmatch
      exact (hsim.sent c hc args hreq).trans hsim.commit
  · rcases mem_spawn_awaiting ht with ht | ⟨call, k, rfl⟩
    · rcases hm.targetsFrom.mem ht hq with ⟨t₀, ht₀, hq₀⟩ | hother
      · exact hP.targets t₀ ht₀ q hq₀
      · rw [← (hR.wired id p hp).1]
        exact of_decide_eq_true (List.mem_filter.1 hother).2
    · cases hq

end Act

/-! ## One step -/

section Step

variable {cl : Cluster σ} {w w' : World σ} {a : Action}

/-- The heartbeats of reads after a section: those from before and those that it sends. -/
def beatsAfter (w : World σ) (beats : Nat → Prop) (e : Effect σ) (n : Nat) : Prop :=
  if n < w.calls.length then beats n
  else ∃ c, e.calls[n - w.calls.length]? = some c ∧ ∃ rid, c.2.2 = .beat rid

theorem Messages.commit {p : Process σ} {a : Local} {e : Effect σ} (hM : Messages h w beats)
    (hR : Refines confOf C₀ w h) (hp : (w.node id).proc = some p)
    (ha : p.act cl.machine w id a = some e) (hsim : Simulated confOf C₀ h w beats id p a e h') :
    Messages h' (w.commit id a e) (beatsAfter w beats e) := by
  have hx := hsim.only.extends_
  have hold {k : Nat} (hk : k < w.calls.length) : beatsAfter w beats e k = beats k := if_pos hk
  have hcalls : ∀ (k : Nat) c, w.calls[k]? = some c → (w.commit id a e).calls[k]? = some c :=
    fun _ _ => calls_commit
  refine ⟨fun k c hc => ?_, fun k r hr => ?_, fun k r hr hno => ?_, ?_⟩
  · by_cases hlt : k < w.calls.length
    · have hc' : w.calls[k]? = some c := by
        rw [← hc]
        exact (List.getElem?_append_left hlt).symm
      rw [hold hlt]
      exact (hM.calls k c hc').mono hR.inv hx
    · have hc' : (e.calls.map fun c => (⟨id, c.1, c.2.1⟩ : Call))[k - w.calls.length]?
        = some c := by
        rw [← hc]
        exact (List.getElem?_append_right (Nat.le_of_not_lt hlt)).symm
      rw [List.getElem?_map] at hc'
      obtain ⟨c₀, hc₀, rfl⟩ := Option.map_eq_some_iff.1 hc'
      obtain ⟨hdst, hreq, hbeat⟩ := hsim.calls c₀ (List.mem_of_getElem? hc₀)
      rw [beatsAfter, if_neg hlt, hc₀]
      refine ⟨hdst, fun hno => hreq fun hb => hno ⟨c₀, rfl, hb⟩, ?_⟩
      rintro ⟨_, ⟨⟩, hb⟩
      exact hbeat hb
  · refine Nat.lt_of_lt_of_le ?_ (List.length_append ▸ Nat.le_add_right _ _)
    rcases List.mem_append.1 hr with hr | hr
    · exact hM.answered k r hr
    · exact (move_of_act ha).replied hr
  · rcases List.mem_append.1 hr with hr | hr
    · rw [hold (hM.answered k r hr)] at hno
      exact (hM.replies k r hr hno).mono hx hcalls
    · rw [hold ((move_of_act ha).replied hr)] at hno
      exact (hsim.replies k r hr hno).mono (.refl h') hcalls
  · have hwaits (q : NodeID) (p : Process σ) (hp : (w.node q).proc = some p) (call : Nat)
        (k : Pending) (ht : .await call k ∈ p.tasks) (hk : ∀ rid, k ≠ .beat rid) :
        ¬ beatsAfter w beats e call := by
      obtain ⟨dst, req, hcall, -⟩ := (hR.wired q p hp).2 call k ht
      rw [hold (List.getElem?_eq_some_iff.1 hcall).1]
      exact hM.awaited q p hp call k ht hk
    refine forall_commit (P := fun _ n => ∀ p, n.proc = some p → ∀ call k, .await call k ∈ p.tasks →
      (∀ rid, k ≠ .beat rid) → ¬ beatsAfter w beats e call) ?_ fun q _ p hp => hwaits q p hp
    rintro _ ⟨⟩ call k ht hk
    rcases mem_spawn ht with ht | ht
    · exact hwaits id p hp call k ((move_of_act ha).await_mem ht) hk
    · obtain ⟨i, c, hc, rfl, rfl⟩ := mem_awaiting ht
      rw [beatsAfter, if_neg (Nat.not_lt.2 (Nat.le_add_right _ _)), Nat.add_sub_cancel_left, hc]
      rintro ⟨_, ⟨⟩, rid, hb⟩
      exact hk rid hb

theorem Refines.act {p : Process σ} {a : Local} {e : Effect σ} (hR : Refines confOf C₀ w h)
    (hM : Messages h w beats) (hp : (w.node id).proc = some p)
    (ha : p.act cl.machine w id a = some e) (hsim : Simulated confOf C₀ h w beats id p a e h')
    (hno : p.adoptsUnsaved cl.machine w a = false) (hord : p.Ordered confOf C₀ a) :
    Refines confOf C₀ (w.commit id a e) h' := by
  have hst : Stepped cl w (.act id a) (w.commit id a e) := .act id p a e hp ha
  have hproc := hR.procRef hM hp ha hsim hno hord
  refine
    { inv := hsim.only.inv
      wf := hR.wf.step hst
      wired := hR.wired.step hst
      positive := fun c T A hc => (hsim.positive c T A hc).elim (hR.positive c T A) fun hT => hT
      node := ?_
      messages := ⟨_, hM.commit hR hp ha hsim⟩ }
  refine forall_commit (P := NodeRef confOf C₀ h') ⟨?_, ?_⟩ fun q hq =>
    (hR.node q).frame hR.inv hsim.only hq
  · have hwf := (hR.wf.step hst).disk id
    rw [node_commit_self] at hwf
    exact hproc.backed.disk hproc.server hwf
  · rintro _ ⟨⟩
    exact hproc

/-- Nothing is sent, and nobody waits who did not wait before. -/
theorem Messages.setNode {n : Node σ} (hM : Messages h w beats) (hI : Inv confOf C₀ h)
    (hx : Extends h h') (hn : ∀ p, n.proc = some p → p.tasks = []) :
    Messages h' (w.setNode id n) beats where
  calls k c hc := (hM.calls k c hc).mono hI hx
  answered := hM.answered
  replies k r hr hno := (hM.replies k r hr hno).mono hx fun _ _ hk => hk
  awaited := by
    refine forall_setNode
      (P := fun _ n => ∀ p, n.proc = some p → ∀ call k, .await call k ∈ p.tasks →
        (∀ rid, k ≠ .beat rid) → ¬ beats call) (fun p hp call k ht => ?_) fun q _ => hM.awaited q
    rw [hn p hp] at ht
    cases ht

variable (hR : Refines confOf C₀ w h)

include hR

theorem Refines.down (ho : Only confOf C₀ id h h') (hpos : ∀ c T A, h'.campaigned c T A → 0 < T)
    (hd : DiskRef h' id d) (hst : Stepped cl w a (w.setNode id { disk := d, proc := none })) :
    Refines confOf C₀ (w.setNode id { disk := d, proc := none }) h' where
  inv := ho.inv
  wf := hR.wf.step hst
  wired := hR.wired.step hst
  positive := hpos
  node := forall_setNode (P := NodeRef confOf C₀ h') ⟨hd, fun _ hp => by cases hp⟩ fun q hq =>
    (hR.node q).frame hR.inv ho hq
  messages := hR.messages.imp fun _ hM => hM.setNode hR.inv ho.extends_ nofun

theorem Refines.boot {p : Process σ} (hp : cl.start id (w.node id).disk = some p)
    (hst : Stepped cl w a (w.setNode id { w.node id with proc := some p })) :
    Refines confOf C₀ (w.setNode id { w.node id with proc := some p }) h := by
  obtain ⟨hs, hb⟩ := (hR.node id).disk.start (hR.wf.disk id) hp
  obtain ⟨-, -, htasks, helections, -⟩ := start_id hp
  have hnone {t : Task} : t ∉ p.tasks := by rw [htasks]; exact nofun
  have hproc : ProcRef confOf C₀ h id (w.node id).disk p :=
    { server := hs
      backed := hb
      tally := by
        obtain ⟨s, -, rfl⟩ := Option.map_eq_some_iff.1 hp
        exact .of_new _
      compacts := fun snap ht => ht.elim (fun ht => absurd ht hnone) fun ht => absurd ht hnone
      saving := fun snap ht => absurd ht hnone
      sent := fun _ _ _ _ ht => absurd ht hnone
      targets := fun t ht => absurd ht hnone }
  exact
    { inv := hR.inv
      wf := hR.wf.step hst
      wired := hR.wired.step hst
      positive := hR.positive
      node := forall_setNode (P := NodeRef confOf C₀ h)
        ⟨(hR.node id).disk, fun q hq => by cases hq; exact hproc⟩ fun q _ => hR.node q
      messages := hR.messages.imp fun _ hM =>
        hM.setNode hR.inv (.refl h) fun q hq => by cases hq; exact htasks }

/-- **The cluster refines the history**: every step that is safe and ordered is one of its server's
node. -/
theorem Refines.step_only (hnil : confOf [] = none) (hs : exec cl w a = some w')
    (hsafe : Safe cl.machine w a) (hord : Ordered confOf C₀ w a) :
    ∃ h', Only confOf C₀ a.id h h' ∧ Refines confOf C₀ w' h' := by
  obtain ⟨beats, hM⟩ := hR.messages
  have hst := stepped_of_exec hs
  cases hst with
  | boot id p hdown hp => exact ⟨h, .refl hR.inv, hR.boot hp (stepped_of_exec hs)⟩
  | crash id p hp =>
    exact ⟨h, .refl hR.inv,
      hR.down (.refl hR.inv) hR.positive (hR.node id).disk (stepped_of_exec hs)⟩
  | act id p a e hp ha =>
    obtain ⟨h', hsim⟩ := hR.simulate hM hp hnil ha (hord p hp)
    exact ⟨h', hsim.only, hR.act hM hp ha hsim (hsafe p hp) (hord p hp)⟩
  | cut id p a k e hp ha =>
    by_cases hne : e.writes = []
    · have hst := stepped_of_exec hs
      rw [hne, List.take_nil] at hst ⊢
      exact ⟨h, .refl hR.inv, hR.down (.refl hR.inv) hR.positive (hR.node id).disk hst⟩
    · obtain ⟨h', hsim⟩ := hR.simulate hM hp hnil ha (hord p hp)
      have hpos (c : NodeID) (T : Nat) (A : List (Entry Bytes))
          (hc : h'.campaigned c T A) : 0 < T :=
        (hsim.positive c T A hc).elim (hR.positive c T A) fun hT => hT
      rcases hR.disk_cut hM hp ha hsim hne hsafe with hd | hd
      · exact ⟨h, .refl hR.inv, hR.down (.refl hR.inv) hR.positive hd (stepped_of_exec hs)⟩
      · exact ⟨h', hsim.only, hR.down hsim.only hpos hd (stepped_of_exec hs)⟩

/-- Each step of the cluster extends the history. -/
theorem Refines.step (hnil : confOf [] = none) (hs : exec cl w a = some w')
    (hsafe : Safe cl.machine w a) (hord : Ordered confOf C₀ w a) :
    ∃ h', Extends h h' ∧ Refines confOf C₀ w' h' := by
  obtain ⟨h', ho, hR'⟩ := hR.step_only hnil hs hsafe hord
  exact ⟨h', ho.extends_, hR'⟩

end Step

/-! ## Runs -/

/-- So does a whole run. -/
theorem refines_of_run {cl : Cluster σ} {w w' : World σ} {as : List Action}
    (hnil : confOf [] = none)
    (hrun : Run (fun w a w' => exec cl w a = some w' ∧ Safe cl.machine w a ∧ Ordered confOf C₀ w a)
      w as w') (hR : Refines confOf C₀ w h) : ∃ h', Extends h h' ∧ Refines confOf C₀ w' h' :=
  hrun.simulate (R := fun w h => Refines confOf C₀ w h) .refl (fun h₁ h₂ => h₁.trans h₂)
    (fun _ _ _ _ hs hR => hR.step hnil hs.1 hs.2.1 hs.2.2) hR

end CoreBank.Raft
