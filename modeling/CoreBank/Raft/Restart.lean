import CoreBank.Raft.MachineSafety

/-!
# Starting after a crash in a compaction

`MaybeCompact` and `InstallSnapshot` write two files, the snapshot first and the log second, and the
applied marker is a third.  A process may stop between any two of the writes.  What `Restore` makes
of the files then is stated in `Server.Recovered`: the machine is the one of the log through
`lastApplied`, which is not below the snapshot, and the saved log above the snapshot is kept if the
two agree on the term at its end.

It fails for a server that has never written its state file: `Restore` takes a missing state file as
a sign that nothing is stored, and does not look for a snapshot.
-/

set_option autoImplicit false

namespace CoreBank.Raft

open ActionSystem Consensus

variable {σ : Type} {m : StateMachine σ} {w w' : World σ} {id : NodeID} {d : Disk} {s s' : Server σ}
  {snap : Snapshot} {h : History NodeID Bytes}

/-! ## What `Restore` makes of the files -/

/-- The entries of a log above a snapshot with whose last term it agrees. -/
def Log.tailAbove (l : Log) (snap : Snapshot) : List LogEntry :=
  if l.termAt snap.lastIncludedIndex = some snap.lastIncludedTerm then
    l.entries.filter fun e => decide (snap.lastIncludedIndex < e.index)
  else []

/-- What is left of the saved log above the stored snapshot. -/
def Disk.tail (d : Disk) : List LogEntry :=
  match d.snapshot with
  | none => d.saved.log.entries
  | some snap => d.saved.log.tailAbove snap

/-- The server is what the files say, its machine up to `R`. -/
structure Server.Recovered (m : StateMachine σ) (R : σ → σ → Prop) (d : Disk) (s : Server σ) :
    Prop where
  machine : R s.sm (m.fold (s.log.abs.take s.lastApplied))
  boundary : d.snapIndex ≤ s.lastApplied
  base : s.log.baseIndex = d.snapIndex
  tail : s.log.entries = d.tail

theorem Log.Indexed.filter_lt {l : Log} (hl : l.Indexed) {i : Nat} (hi : l.baseIndex ≤ i) :
    l.entries.filter (fun e => decide (i < e.index)) = l.entries.drop (i - l.baseIndex) := by
  have hlow : ∀ e ∈ l.entries.take (i - l.baseIndex), ¬ i < e.index := by
    intro e he
    obtain ⟨k, hk⟩ := List.mem_iff_getElem?.1 he
    rw [List.getElem?_take] at hk
    split at hk
    · rw [hl k e hk]
      omega
    · cases hk
  have hhigh : ∀ e ∈ l.entries.drop (i - l.baseIndex), i < e.index := by
    intro e he
    obtain ⟨k, hk⟩ := List.mem_iff_getElem?.1 he
    rw [List.getElem?_drop] at hk
    rw [hl _ e hk]
    omega
  conv_lhs => rw [← List.take_append_drop (i - l.baseIndex) l.entries]
  rw [List.filter_append, List.filter_eq_nil_iff.2, List.nil_append, List.filter_eq_self.2]
  · exact fun e he => decide_eq_true (hhigh e he)
  · exact fun e he => by rw [decide_eq_true_eq]; exact hlow e he

/-- A log whose commands have bytes is read back as it was written. -/
theorem HasBytes.decoded_eq {l : Log} (hl : HasBytes l.entries) :
    l.decoded.entries = l.entries := by
  refine (List.map_congr_left fun e he => ?_).trans (List.map_id _)
  obtain ⟨t, i, cmd⟩ := e
  have hcmd : cmd ≠ some [] := hl _ he
  cases cmd with
  | none => rfl
  | some c =>
    have hne : c ≠ [] := fun hc => hcmd (by rw [hc])
    show (⟨t, i, (some c).filter fun c => c ≠ []⟩ : LogEntry) = ⟨t, i, some c⟩
    rw [Option.filter_some, if_pos (decide_eq_true hne)]

theorem Server.entries_rebase {l : Log} (hl : l.Indexed)
    (hbase : l.baseIndex ≤ snap.lastIncludedIndex) :
    (Server.rebase l snap).entries = l.tailAbove snap := by
  rw [Server.rebase, Log.tailAbove, Log.termAt]
  cases he : l.entryAt snap.lastIncludedIndex with
  | none => rfl
  | some e =>
    dsimp only [Option.map_some]
    by_cases ht : e.term = snap.lastIncludedTerm
    · rw [if_pos ht, if_pos (by rw [ht]), hl.filter_lt hbase]
      rfl
    · rw [if_neg ht, if_neg (fun h => ht (Option.some.inj h))]

theorem Log.WF.termAt_decoded {l : Log} (hl : l.WF) {i : Nat} (hi : l.baseIndex ≤ i) :
    l.decoded.termAt i = l.termAt i := by
  have hlen : l.decoded.logical.length = l.logical.length := by
    rw [← Log.length_abs, Log.abs_log_decoded, Log.length_abs]
  rcases Nat.lt_or_ge l.logical.length i with hlt | hge
  · rw [hl.termAt_none hlt, hl.decoded.termAt_none (hlen ▸ hlt)]
  · rw [hl.termAt hi hge, hl.decoded.termAt hi (hlen ▸ hge), Log.abs_log_decoded]

theorem Restorable.tail (hd : Restorable m d) (hbytes : HasBytes d.saved.log.entries) :
    d.log.entries = d.tail := by
  have hw := hd.wf.log
  have hdec : d.saved.log.decoded.entries = d.saved.log.entries := hbytes.decoded_eq
  cases hsnap : d.snapshot with
  | none =>
    rw [Disk.tail, hsnap, Disk.log, hsnap]
    exact hdec
  | some snap =>
    have hsw := hd.wf.snapshot snap hsnap
    obtain ⟨hpre, -⟩ := hd.snapshot snap hsnap
    rw [Disk.tail, hsnap]
    dsimp only
    rcases d.log_cases with ⟨hlog, -⟩ | ⟨snap', hsnap', hlt, hlog⟩
    · -- the log starts where the snapshot ends, and with its term
      have hbase : d.saved.log.baseIndex = snap.lastIncludedIndex := by
        have hb := hd.base
        rw [hlog, Disk.snapIndex, hsnap] at hb
        exact hb
      have hterm : d.saved.log.termAt snap.lastIncludedIndex = some snap.lastIncludedTerm := by
        have habs : d.log.abs = d.saved.log.abs := by rw [hlog, Log.abs_log_decoded]
        rw [hw.termAt hbase.le (hbase ▸ hw.base_le), ← habs,
          (take_of_isPrefix hpre hsw.length_abs).2, hsw.lastTerm]
      rw [hlog, hdec, Log.tailAbove, if_pos hterm, hw.indexed.filter_lt hbase.le, hbase,
        Nat.sub_self, List.drop_zero]
    · rw [hsnap] at hsnap'
      cases hsnap'
      rw [hlog, Server.entries_rebase hw.decoded.indexed hlt.le, Log.tailAbove,
        Log.tailAbove, hw.termAt_decoded hlt.le, hdec]

theorem Restorable.recovered {cl : Cluster σ} {R : σ → σ → Prop} (hd : Restorable cl.machine d)
    (hfaith : cl.machine.Faithful R) (hbytes : HasBytes d.saved.log.entries) (id : NodeID) :
    ∃ p, cl.start id d = some p ∧ p.server.Recovered cl.machine R d := by
  obtain ⟨p, hp⟩ := hd.exists_start hfaith id
  obtain ⟨hlog, -, hcommit, happ⟩ := start_cases hd.fresh hp
  refine ⟨p, hp, (hd.reflects hp).fold hfaith, ?_, ?_, ?_⟩
  · rw [happ, hcommit]
    exact Nat.le_max_left _ _
  · rw [hlog, hd.base]
  · rw [hlog, hd.tail hbytes]

/-! ## The files after some of the writes -/

/-- A log cut at a leader's snapshot starts with it. -/
theorem RequestRef.prefix_rebase {confOf : Bytes → Option (List NodeID)} {C₀ : List NodeID}
    (hI : Inv confOf C₀ h) {src : NodeID} {args : InstallSnapshotArgs}
    (hr : RequestRef h src (.installSnapshot args)) (hsw : args.snapshot.WF) {l : Log} (hl : l.WF)
    (hgrown : Grown h l.abs) (hbase : l.baseIndex < args.snapshot.lastIncludedIndex) :
    args.snapshot.abs <+: (Server.rebase l args.snapshot).abs := by
  obtain ⟨⟨A, he⟩, hdec, -⟩ := hr
  obtain ⟨-, -, ⟨habs, hpre⟩ | ⟨habs, -⟩⟩ := Server.abs_rebase_cases hI hl hgrown he hsw hdec hbase
  · rw [habs]
    exact hpre
  · rw [habs]

/-- The section is an uninterrupted compaction or the delivery of a snapshot. -/
def Local.snapshots (w : World σ) : Local → Bool
  | .maybeCompact _ => true
  | .deliver call _ =>
    match w.calls[call]? with
    | some ⟨_, _, .installSnapshot _⟩ => true
    | _ => false
  | _ => false

theorem Move.snapshot_writes {p : Process σ} {a : Local} {e : Effect σ} (hm : Move m w id p a e)
    (ha : a.snapshots w = true) :
    e.writes = [] ∨
      (∃ threshold snap, p.server.takeSnapshot m threshold = some snap ∧
        e.proc.server = (p.server.compact snap).1 ∧
        e.writes = .saveSnapshot snap :: (p.server.compact snap).2) ∨
      ∃ src args, Installs m w id p a e src args := by
  cases hm with
  | idle => exact .inl rfl
  | maybeCompact threshold snap hs => exact .inr (.inl ⟨threshold, snap, hs, rfl, rfl⟩)
  | handle call c recent hc hdst =>
    obtain ⟨src, dst, req⟩ := c
    cases hdst
    rw [Local.snapshots, hc] at ha
    cases req with
    | appendEntries | requestVote => cases ha
    | installSnapshot args =>
      rcases handle_installSnapshot (m := m) hc recent p with ⟨-, hun⟩ | ⟨-, hin⟩
      · exact .inl hun.writes
      · exact .inr (.inr ⟨src, args, hin⟩)
  | _ => cases ha

section Cut

variable {confOf : Bytes → Option (List NodeID)} {C₀ : List NodeID} {p : Process σ} {a : Local}
  {e : Effect σ} (hC : Coherent m confOf C₀ w h) (hp : (w.node id).proc = some p)

include hC hp

theorem Coherent.hasBytes_cut (hm : Move m w id p a e) (ha : a.snapshots w = true) (k : Nat) :
    HasBytes ((w.node id).disk.writeAll (e.writes.take k)).saved.log.entries := by
  have hbrings : a.Brings fun c => c ≠ some [] := by
    cases a with
    | maybeCompact | deliver => trivial
    | _ => cases ha
  rcases hm.saves.disk_cut (w.node id).disk k with heq | heq
  · rw [heq]
    exact hC.bytes.disk id
  · rw [heq]
    exact hm.logStep.holds (by nofun) hbrings (hC.bytes.proc id p hp) hC.bytes.calls

theorem Coherent.covered_cut (hm : Move m w id p a e) (ha : a.snapshots w = true) (k : Nat) :
    DiskCovered ((w.node id).disk.writeAll (e.writes.take k)) := by
  refine (((hC.covered id).proc p hp).move (hC.covered id).disk ?_ hm).2 k
  cases a with
  | maybeCompact | deliver => exact nofun
  | _ => cases ha

/-- The files are those of a server with the log and the commit index of `s`. -/
def KeptBy (h : History NodeID Bytes) (id : NodeID) (d : Disk) (s : Server σ) : Prop :=
  ∃ s' : Server σ, Backed h d s' ∧ ServerRef h id s' ∧ s'.log.abs = s.log.abs ∧
    s'.commitIndex = s.commitIndex

theorem Coherent.cut_compact {threshold : Nat}
    (hs : p.server.takeSnapshot m threshold = some snap)
    (hws : e.writes = .saveSnapshot snap :: (p.server.compact snap).2) (k : Nat) :
    KeptBy h id ((w.node id).disk.writeAll (e.writes.take k)) p.server := by
  have hR := hC.refines
  have hI := hR.inv
  have hP := (hR.node id).proc p hp
  have hw := (hR.wf.proc id p hp).server
  obtain ⟨hstate, hsync⟩ := hP.synced hw hs
  obtain ⟨hsw, habs, -⟩ := hP.server.takeSnapshot hw hs
  have hheld : snap.abs <+: p.server.log.abs.take p.server.commitIndex ∧ Sealed h snap.abs := by
    rw [habs]
    exact ⟨List.prefix_refl _, hP.server.commit⟩
  obtain ⟨hs', habs', hcommit⟩ := hP.server.compact hw.log hsw hheld.1 hheld.2
  have hfirst : KeptBy h id ((w.node id).disk.write (.saveSnapshot snap)) p.server := by
    refine ⟨p.server, ?_, hP.server, rfl, rfl⟩
    exact hP.backed.follow hP.server hP.server hI (.refl hI) (le_rfl)
      ⟨.inl ⟨rfl, rfl⟩, .inl rfl⟩ (.inr ⟨hstate, hsync, snap, rfl, hheld⟩)
  rw [hws]
  cases k with
  | zero => exact ⟨p.server, hP.backed, hP.server, rfl, rfl⟩
  | succ k =>
    rw [List.take_succ_cons]
    have hcompact : (p.server.compact snap).2 = [] ∨
        (p.server.compact snap).2 = [(p.server.compact snap).1.persist] := by
      rw [Server.compact]
      split
      · exact .inl rfl
      · exact .inr rfl
    rcases hcompact with hnil | hone
    · rw [hnil, List.take_nil]
      exact hfirst
    · rw [hone]
      cases k with
      | zero => exact hfirst
      | succ k =>
        rw [List.take_succ_cons, List.take_nil]
        refine ⟨(p.server.compact snap).1, ?_, hs', habs', hcommit⟩
        refine hP.backed.follow hP.server hs' hI (.refl hI) hcommit.symm.le
          ⟨.inr rfl, .inl rfl⟩ (.inr ⟨Option.some_ne_none _, rfl, snap, rfl, ?_⟩)
        rw [habs', hcommit]
        exact hheld

theorem Coherent.cut_install {src : NodeID} {args : InstallSnapshotArgs}
    (hin : Installs m w id p a e src args) {k : Nat} (hk : k ≠ 0) :
    let d := (w.node id).disk.writeAll (e.writes.take k)
    d.snapshot = some args.snapshot ∧ d.applied = (w.node id).disk.applied ∧
      (d.state = none → k = 1 ∧ (w.node id).disk.state = none) ∧
      args.snapshot.abs <+: d.log.abs := by
  intro d
  have hR := hC.refines
  have hP := (hR.node id).proc p hp
  obtain ⟨beats, hM⟩ := hR.messages
  obtain ⟨call, recent, x, -, hcall, -, -, hbase, -, hproc, hws⟩ := hin
  have hno (hb : beats call) : False := (hM.calls _ _ hcall).beat hb
  have hr := (hM.calls _ _ hcall).request hno
  have hsw : args.snapshot.WF := hR.wf.calls _ (List.mem_of_getElem? hcall)
  have hwf := hR.wf.disk id
  rcases Nat.lt_or_ge 1 k with hlt | hle
  · have hd : d = (w.node id).disk.writeAll
      [.saveSnapshot args.snapshot, e.proc.server.persist] := by
      show (w.node id).disk.writeAll (e.writes.take k) = _
      rw [hws, List.take_of_length_le (by exact hlt)]
    have hlog : e.proc.server.log = Server.rebase p.server.log args.snapshot := by
      rw [hproc, Server.heedSnapshot_frame]
      rfl
    have hw := (hR.wf.proc id p hp).server.log
    have hrb := (Server.rebase_cases hw hsw hbase).2.1
    have hsnap : d.snapshot = some args.snapshot := by rw [hd]; rfl
    have hsaved : d.saved.log = Server.rebase p.server.log args.snapshot := by rw [hd]; exact hlog
    have hdlog : d.log = (Server.rebase p.server.log args.snapshot).decoded := by
      rw [Disk.log, hsnap, hsaved]
      exact if_neg (Nat.not_lt.2 hrb.symm.le)
    refine ⟨hsnap, by rw [hd]; rfl, by (rw [hd]; intro h; cases h), ?_⟩
    rw [hdlog, Log.abs_log_decoded]
    exact hr.prefix_rebase hR.inv hsw hw (hP.server.log ▸ hR.inv.log_grown id) hbase
  · have hone : k = 1 := by omega
    subst hone
    have hd : d = (w.node id).disk.write (.saveSnapshot args.snapshot) := by
      show (w.node id).disk.writeAll (e.writes.take 1) = _
      rw [hws]
      rfl
    have hdb : (w.node id).disk.saved.log.decoded.baseIndex < args.snapshot.lastIncludedIndex :=
      Nat.lt_of_le_of_lt hP.backed.base hbase
    have hdlog : d.log = Server.rebase (w.node id).disk.saved.log.decoded args.snapshot := by
      rw [hd]
      exact if_pos hdb
    refine ⟨by rw [hd]; rfl, by rw [hd]; rfl, by rw [hd]; exact fun hnone => ⟨rfl, hnone⟩, ?_⟩
    rw [hdlog]
    exact hr.prefix_rebase hR.inv hsw hwf.log.decoded
      (by rw [Log.abs_log_decoded]; exact hP.backed.grown) hdb

/-- **The files after some of the writes** can be restored: they are those of a server that has
committed what this one has, or they hold the snapshot that was being installed. -/
theorem Coherent.cut (hm : Move m w id p a e) (ha : a.snapshots w = true) {k : Nat}
    (hstate : k = 1 → (w.node id).disk.state ≠ none) :
    let d := (w.node id).disk.writeAll (e.writes.take k)
    Restorable m d ∧ (KeptBy h id d p.server ∨ ∃ src args, Installs m w id p a e src args ∧
      d.snapshot = some args.snapshot ∧ d.applied ≤ args.snapshot.lastIncludedIndex) := by
  intro d
  have hR := hC.refines
  have hP := (hR.node id).proc p hp
  have hwf : d.WF := (hR.wf.disk id).cut (hR.wf.proc id p hp) hR.wf.calls hm k
  have hcov : DiskCovered d := hC.covered_cut hp hm ha k
  have hbytes : HasBytes d.saved.log.entries := hC.hasBytes_cut hp hm ha k
  have hhonest (snap : Snapshot) (hs : d.snapshot = some snap) : snap.Honest m :=
    hC.mirrored.snapshots.writes hp (fun _ threshold snap hs =>
      (hR.wf.proc id p hp).server.honest (hC.mirrored.machine id p hp) hs) hm k hs
  have hkept (hk : KeptBy h id d p.server) : Restorable m d := by
    obtain ⟨s', hb, hs', -⟩ := hk
    exact (hb.disk hs' hwf).restorable hwf hcov hbytes hhonest
  have hnone (hnil : e.writes.take k = []) : KeptBy h id d p.server := by
    have hd : d = (w.node id).disk := by
      show (w.node id).disk.writeAll (e.writes.take k) = _
      rw [hnil]
      rfl
    rw [hd]
    exact ⟨p.server, hP.backed, hP.server, rfl, rfl⟩
  rcases hm.snapshot_writes ha with hnil | ⟨threshold, snap, hs, -, hws⟩ | ⟨src, args, hin⟩
  · have hk := hnone (by rw [hnil, List.take_nil])
    exact ⟨hkept hk, .inl hk⟩
  · have hk := hC.cut_compact hp hs hws k
    exact ⟨hkept hk, .inl hk⟩
  · rcases Nat.eq_zero_or_pos k with rfl | hpos
    · have hk := hnone rfl
      exact ⟨hkept hk, .inl hk⟩
    · obtain ⟨hsnap, happ, hst, hpre⟩ := hC.cut_install hp hin (Nat.ne_of_gt hpos)
      refine ⟨⟨hwf, fun hno => absurd (hst hno).2 (hstate (hst hno).1), hcov.base_log hwf,
        hasBytes_log hbytes, fun snap hs => ?_⟩, .inr ⟨src, args, hin, hsnap, ?_⟩⟩
      · cases hsnap.symm.trans hs
        exact ⟨hpre, hhonest _ hs⟩
      · obtain ⟨call, recent, x, -, -, -, -, -, hlt, -⟩ := hin
        have hmark := hP.backed.applied
        rw [← hP.server.applied] at hmark
        exact (happ ▸ hmark).trans hlt.le

end Cut

/-! ## What was committed -/

/-- A server has committed the entries at some moment of the run. -/
def CommittedIn (step : World σ → Action → World σ → Prop) (as : List Action)
    (X : List (Entry Bytes)) : Prop :=
  ∃ bs w x s, bs <+: as ∧ Run step {} bs w ∧ w.server x = some s ∧
    X <+: s.log.abs.take s.commitIndex

/-- The steps of a cluster that keep it coherent: safe, ordered, without a return to an older
snapshot and without empty commands. -/
def CoherentStep (cl : Cluster σ) (C₀ : List NodeID) (w : World σ) (a : Action) (w' : World σ) :
    Prop :=
  exec cl w a = some w' ∧ Safe cl.machine w a ∧ Ordered configOf C₀ w a ∧
    Unregressed a.id (w.node a.id) a ∧ a.nonEmpty

section Run

variable {cl : Cluster σ} {C₀ : List NodeID}

theorem Unregressed.all {a : Action} (hreg : Unregressed a.id (w.node a.id) a) (id : NodeID) :
    Unregressed id (w.node id) a := by
  cases a with
  | act x b | cut x b k =>
    rintro rfl
    exact hreg rfl
  | boot | crash => trivial

theorem CoherentStep.coherent {a : Action} (hs : CoherentStep cl C₀ w a w')
    (hC : Coherent cl.machine configOf C₀ w h) :
    ∃ h', Extends h h' ∧ Coherent cl.machine configOf C₀ w' h' := by
  obtain ⟨hexec, hsafe, hord, hreg, hbytes⟩ := hs
  exact hC.step rfl hexec hsafe hord hreg.all (Action.brings_of_nonEmpty hbytes)

theorem CoherentStep.det {a : Action} {w₁ w₂ : World σ} (h₁ : CoherentStep cl C₀ w a w₁)
    (h₂ : CoherentStep cl C₀ w a w₂) : w₁ = w₂ :=
  Option.some.inj (h₁.1.symm.trans h₂.1)

/-- Every run has a history that it refines. -/
theorem coherent_of_run {as : List Action}
    (hrun : Run (CoherentStep cl C₀) {} as w) : ∃ h, Coherent cl.machine configOf C₀ w h := by
  obtain ⟨h, -, hC⟩ := hrun.simulate (R := Coherent cl.machine configOf C₀) .refl
    (fun h₁ h₂ => h₁.trans h₂) (fun _ _ _ _ hs hC => hs.coherent hC) coherent_empty
  exact ⟨h, hC⟩

/-- Every snapshot is one of entries that were committed. -/
theorem snapshots_committed {as : List Action}
    (hrun : Run (CoherentStep cl C₀) {} as w) :
    Snapshots (fun snap => CommittedIn (CoherentStep cl C₀) as snap.abs) w := by
  induction as using List.reverseRecOn generalizing w with
  | nil =>
    cases hrun
    exact snapshots_empty _
  | append_singleton as a ih =>
    obtain ⟨v, hrun₁, hrun₂⟩ := hrun.split
    obtain ⟨h, hC⟩ := coherent_of_run hrun₁
    have hmono : as <+: as ++ [a] := List.prefix_append _ _
    cases hrun₂ with
    | cons hstep hnil =>
      cases hnil
      refine ((ih hrun₁).mono fun snap ⟨bs, u, x, s, hbs, hX⟩ =>
        ⟨bs, u, x, s, hbs.trans hmono, hX⟩).step ?_ (stepped_of_exec hstep.1)
      intro _ id p hp threshold snap hsnap
      have hs := ((hC.refines.node id).proc p hp).server
      obtain ⟨-, habs, -⟩ := hs.takeSnapshot (hC.refines.wf.proc id p hp).server hsnap
      refine ⟨as, v, id, p.server, hmono, hrun₁, server_eq_some.2 ⟨p, hp, rfl⟩, ?_⟩
      rw [habs]

end Run

/-! ## Crash consistency -/

section Crash

variable {cl : Cluster σ} {C₀ : List NodeID} {p : Process σ}

theorem exec_boot (hdown : (w.node id).proc = none) (hp : cl.start id (w.node id).disk = some p) :
    ∃ w', exec cl w (.boot id) = some w' ∧ w'.server id = some p.server := by
  refine ⟨w.setNode id { w.node id with proc := some p }, ?_, ?_⟩
  · rw [exec, hdown]
    dsimp only
    rw [hp]
    rfl
  · rw [World.server, node_setNode_self]
    rfl

/-- What is applied at the start was committed by the server before. -/
theorem KeptBy.committed (hk : KeptBy h id d s) (hd : d.WF) (hc : DiskCovered d)
    (hp : cl.start id d = some p) :
    p.server.log.abs.take p.server.lastApplied <+: s.log.abs.take s.commitIndex := by
  obtain ⟨s', hb, hs', habs, hcommit'⟩ := hk
  have hD := hb.disk hs' hd
  obtain ⟨hp', -⟩ := hD.start hd hp
  obtain ⟨-, -, hcommit, happ⟩ := start_cases hD.fresh hp
  have hlog : p.server.log.abs = s.log.abs := by rw [← hp'.log, hs'.log, habs]
  have hsnap : d.snapIndex ≤ s.commitIndex := by
    rw [Disk.snapIndex]
    cases hsnap : d.snapshot with
    | none => exact Nat.zero_le _
    | some snap =>
      have hlen := (hb.snapshot snap hsnap).1.length_le
      rw [(hd.snapshot snap hsnap).length_abs, List.length_take, hcommit'] at hlen
      exact hlen.trans (Nat.min_le_left _ _)
  have hle : p.server.lastApplied ≤ s.commitIndex := by
    have hbase := hc.base_log hd
    have hmark := hb.applied
    rw [happ, hcommit, Server.clampApplied]
    omega
  rw [hlog]
  exact List.take_prefix_take_left hle

/-- What is applied at the start from an installed snapshot is what the snapshot covers. -/
theorem applied_of_installed (hd : Restorable cl.machine d) (hsnap : d.snapshot = some snap)
    (hmark : d.applied ≤ snap.lastIncludedIndex) (hp : cl.start id d = some p) :
    p.server.log.abs.take p.server.lastApplied = snap.abs := by
  obtain ⟨hlog, -, hcommit, happ⟩ := start_cases hd.fresh hp
  have hidx : d.snapIndex = snap.lastIncludedIndex := by rw [Disk.snapIndex, hsnap]; rfl
  have hlast := hd.wf.log_wf.lastIndex
  have hbase := hd.wf.log_wf.base_le
  have hb := hd.base
  have hle : p.server.lastApplied = snap.lastIncludedIndex := by
    rw [happ, hcommit, Server.clampApplied]
    omega
  rw [hlog, hle]
  exact (take_of_isPrefix (hd.snapshot snap hsnap).1 (hd.wf.snapshot snap hsnap).length_abs).2

/-- **Crash consistency.**  A process that stops between the writes of a compaction or of an
installation starts again, with what the files say and with nothing that was not committed; unless
it is the first installation of a server that has no state file. -/
theorem crash_consistency {R : σ → σ → Prop} (hfaith : cl.machine.Faithful R) {as : List Action}
    (hrun : Run (CoherentStep cl C₀) {} as w) {a : Local} (ha : a.snapshots w = true) {k : Nat}
    (hcut : exec cl w (.cut id a k) = some w')
    (hstate : k = 1 → (w.node id).disk.state ≠ none) :
    ∃ w'' s, exec cl w' (.boot id) = some w'' ∧ w''.server id = some s ∧
      s.Recovered cl.machine R (w'.node id).disk ∧
      CommittedIn (CoherentStep cl C₀) as (s.log.abs.take s.lastApplied) := by
  obtain ⟨h, hC⟩ := coherent_of_run hrun
  cases stepped_of_exec hcut with
  | cut _ p _ _ e hp hact =>
    have hm := move_of_act hact
    have hwf := (hC.refines.wf.disk id).cut (hC.refines.wf.proc id p hp) hC.refines.wf.calls hm k
    obtain ⟨hD, hcase⟩ := hC.cut hp hm ha hstate
    obtain ⟨p', hp', hrec⟩ := hD.recovered hfaith (hC.hasBytes_cut hp hm ha k) id
    have hnode := node_setNode_self w id
      { disk := (w.node id).disk.writeAll (e.writes.take k), proc := none }
    obtain ⟨w'', hboot, hserver⟩ := exec_boot (by rw [hnode]) (by rw [hnode]; exact hp')
    refine ⟨w'', p'.server, hboot, hserver, by rw [hnode]; exact hrec, ?_⟩
    rcases hcase with hk | ⟨src, args, hin, hsnap, hmark⟩
    · exact ⟨as, w, id, p.server, List.prefix_refl as, hrun, server_eq_some.2 ⟨p, hp, rfl⟩,
        hk.committed hwf (hC.covered_cut hp hm ha k) hp'⟩
    · rw [applied_of_installed hD hsnap hmark hp']
      exact (snapshots_committed hrun).installed hin

end Crash

/-- Server 3 has voted, so that it has a state file, when it crashes between the two writes of an
installation: it starts with the snapshot. -/
def votedInstall : List Action :=
  [.boot [1], .boot [2], .boot [3], .timeout [1], .run [1] 0, .deliver [3] 1, .deliver [2] 0,
    .receive [1] 0 1, .run [1] 1, .run [1] 1, .run [1] 1, .act [1] (.submit [7]), .run [1] 1,
    .deliver [2] 2, .receive [1] 3 2, .act [1] (.maybeCompact 0), .run [1] 1, .run [1] 2]

theorem crash_consistency_votedInstall :
    ∃ w w' w'' s,
      Run (CoherentStep (journalCluster [[1], [2], [3]]) [[1], [2], [3]]) {} votedInstall w ∧
      Local.snapshots w (.deliver 3 false) = true ∧
      exec (journalCluster [[1], [2], [3]]) w (.cut [3] (.deliver 3 false) 1) = some w' ∧
      exec (journalCluster [[1], [2], [3]]) w' (.boot [3]) = some w'' ∧ w''.server [3] = some s ∧
      (w'.node [3]).disk.snapIndex = 2 ∧ s.Recovered journal Eq (w'.node [3]).disk := by
  obtain ⟨w, hrun, ha, hstate, w', hw', hidx⟩ : ∃ w,
      Run (CoherentStep (journalCluster [[1], [2], [3]]) [[1], [2], [3]]) {} votedInstall w ∧
      Local.snapshots w (.deliver 3 false) = true ∧ (w.node [3]).disk.state.isSome = true ∧
      ∃ w' ∈ exec (journalCluster [[1], [2], [3]]) w (.cut [3] (.deliver 3 false) 1),
        (w'.node [3]).disk.snapIndex = 2 := exists_run_guarded (by decide +kernel)
  obtain ⟨w'', s, hboot, hserver, hrec, -⟩ := crash_consistency
    (show (journalCluster [[1], [2], [3]]).machine.Faithful Eq from journal_faithful) hrun ha hw'
    (fun _ hnone => by rw [hnone] at hstate; cases hstate)
  exact ⟨w, w', w'', s, hrun, ha, hw', hboot, hserver, hidx, hrec⟩

/-- Server 3 has no state file when it crashes between the two writes of an installation: it starts
with an empty machine, though it has stored a snapshot. -/
theorem first_install_forgets_snapshot :
    ∃ w w' w'' s,
      Run (CoherentStep (journalCluster [[1], [2], [3]]) [[1], [2], [3]]) {} (caughtUp.take 17) w ∧
      Local.snapshots w (.deliver 3 false) = true ∧
      exec (journalCluster [[1], [2], [3]]) w (.cut [3] (.deliver 3 false) 1) = some w' ∧
      exec (journalCluster [[1], [2], [3]]) w' (.boot [3]) = some w'' ∧ w''.server [3] = some s ∧
      (w'.node [3]).disk.snapIndex = 2 ∧ s.lastApplied = 0 ∧ s.sm = [] ∧
      ¬ s.Recovered journal Eq (w'.node [3]).disk := by
  obtain ⟨w, hrun, ha, w', hw', hidx, w'', hw'', s, hs, happ, hsm⟩ : ∃ w,
      Run (CoherentStep (journalCluster [[1], [2], [3]]) [[1], [2], [3]]) {} (caughtUp.take 17) w ∧
      Local.snapshots w (.deliver 3 false) = true ∧
      ∃ w' ∈ exec (journalCluster [[1], [2], [3]]) w (.cut [3] (.deliver 3 false) 1),
        (w'.node [3]).disk.snapIndex = 2 ∧
        ∃ w'' ∈ exec (journalCluster [[1], [2], [3]]) w' (.boot [3]),
          ∃ s ∈ w''.server [3], s.lastApplied = 0 ∧ s.sm = [] :=
    exists_run_guarded (by decide +kernel)
  refine ⟨w, w', w'', s, hrun, ha, hw', hw'', hs, hidx, happ, hsm, fun hrec => ?_⟩
  have hle := hrec.boundary
  rw [hidx, happ] at hle
  cases hle

end CoreBank.Raft
