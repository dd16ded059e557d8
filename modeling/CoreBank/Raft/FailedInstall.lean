import CoreBank.Raft.Restart
import CoreBank.Raft.Waiters

/-!
# An installation whose writes fail

`InstallSnapshot` writes the snapshot file and then the state file, and goes on if either write
fails.  Three of the four combinations leave files from which `Restore` makes the machine before the
installation or the one after it.  In the fourth the snapshot is not saved and the log that was cut
for it is: the entries that it covered are gone.

`Marked` is what is needed besides crash consistency: the files of a running server say how far it
has applied, either by the marker or by the snapshot.
-/

set_option autoImplicit false

namespace CoreBank.Raft

open ActionSystem Consensus

variable {σ : Type} {m : StateMachine σ} {w w' : World σ} {id : NodeID} {d : Disk} {p : Process σ}
  {h : History NodeID Bytes}

/-! ## The files say how far the server has applied -/

/-- The disk knows how far the server has applied. -/
def Marked (n : Node σ) : Prop :=
  ∀ p, n.proc = some p → p.server.lastApplied ≤ max n.disk.snapIndex n.disk.applied

theorem snapIndex_of_snapshot {snap : Snapshot} (hs : d.snapshot = some snap) :
    d.snapIndex = snap.lastIncludedIndex := by
  rw [Disk.snapIndex, hs]
  rfl

theorem applied_writeAll_of_mem {ws : List Write} {i : Nat}
    (hall : ∀ j, .saveApplied j ∈ ws → j = i) (hmem : .saveApplied i ∈ ws) :
    (d.writeAll ws).applied = i := by
  obtain ⟨as, bs, rfl⟩ := List.append_of_mem hmem
  have hsplit : d.writeAll (as ++ .saveApplied i :: bs) =
      ((d.writeAll as).write (.saveApplied i)).writeAll bs := List.foldl_append
  rw [hsplit]
  rcases applied_writeAll_cases ((d.writeAll as).write (.saveApplied i)) bs with hsame | hlater
  · exact hsame
  · exact hall _ (List.mem_append_right _ (List.mem_cons_of_mem _ hlater))

theorem marked_act {a : Local} {e : Effect σ} (hw : p.WF) (hp : p.Caught)
    (hmarked : p.server.lastApplied ≤ max d.snapIndex d.applied) (hm : Move m w id p a e)
    (hreg : ∀ snap ∈ p.saving? a, d.snapIndex ≤ snap.lastIncludedIndex) :
    e.proc.server.lastApplied ≤
      max (d.writeAll e.writes).snapIndex (d.writeAll e.writes).applied := by
  have hall (i : Nat) (hi : .saveApplied i ∈ e.writes) : i = e.proc.server.lastApplied :=
    hm.marker hi
  rcases (hp.move hw hm).2 with ⟨hle, hmark⟩ |
    ⟨src, args, call, recent, x, -, -, -, -, -, -, hproc, hws⟩
  · by_cases hlt : p.server.lastApplied < e.proc.server.lastApplied
    · rw [applied_writeAll_of_mem hall (hmark hlt)]
      exact Nat.le_max_right _ _
    have happ : e.proc.server.lastApplied = p.server.lastApplied := by omega
    -- the snapshot that is stored is not older, or reaches as far as what is applied
    have hsnap : d.snapIndex ≤ (d.writeAll e.writes).snapIndex ∨
        e.proc.server.lastApplied ≤ (d.writeAll e.writes).snapIndex := by
      rcases snapshot_writeAll_cases d e.writes with hsame | ⟨snap, hs, hmem⟩
      · rw [Disk.snapIndex, Disk.snapIndex, hsame]
        exact .inl (le_rfl)
      · rw [snapIndex_of_snapshot hs]
        rcases hm.snapshot_mem hmem with ⟨i, rfl, ht⟩ | ⟨-, threshold, htake⟩ |
          ⟨src, args, hin, rfl⟩
        · exact .inl (hreg snap (by rw [Process.saving?, ht]; rfl))
        · rw [happ, (hw.server.takeSnapshot htake).2.1]
          exact .inr (le_rfl)
        · obtain ⟨call, recent, x, -, -, -, -, -, -, hproc, -⟩ := hin
          rw [hproc]
          exact .inr (le_rfl)
    rcases applied_writeAll_cases d e.writes with hkept | hnew
    · rw [hkept]
      omega
    · have hnew' := hall _ hnew
      omega
  · have hstored : (d.writeAll e.writes).snapIndex = args.snapshot.lastIncludedIndex := by
      rw [hws]
      rfl
    rw [hstored, hproc]
    exact Nat.le_max_left _ _

theorem marked_start {cl : Cluster σ} (hc : DiskCovered d)
    (hp : cl.start id d = some p) : p.server.lastApplied ≤ max d.snapIndex d.applied := by
  obtain ⟨-, -, hbase⟩ := start_base hc hp
  cases started_of_start hp with
  | fresh => exact Nat.zero_le _
  | restored =>
    have hbase : d.log.baseIndex ≤ d.snapIndex := hbase
    show max d.snapIndex (min (max d.applied d.log.baseIndex) d.log.lastIndex) ≤ _
    omega

/-- Every server is caught up, and its files say so. -/
structure AllCaught (w : World σ) : Prop where
  caught : ∀ id p, (w.node id).proc = some p → p.Caught
  marked : ∀ id, Marked (w.node id)

theorem allCaught_empty : AllCaught ({} : World σ) :=
  ⟨fun _ _ hp => by (cases hp), fun _ _ hp => by (cases hp)⟩

section Run

variable {cl : Cluster σ} {C₀ : List NodeID}

theorem AllCaught.step {a : Action} (hr : AllCaught w) (hs : CoherentStep cl C₀ w a w')
    (hC : Coherent cl.machine configOf C₀ w h) : AllCaught w' := by
  obtain ⟨hexec, -, -, hreg, -⟩ := hs
  have hst := stepped_of_exec hexec
  have hwf := hC.refines.wf
  have hnode (id : NodeID) : (∀ p, (w'.node id).proc = some p → p.Caught)
    ∧ Marked (w'.node id) := by
    have hn := hst.nodeStep id
    have hreg := hreg.all id
    generalize w'.node id = n' at hn ⊢
    cases hn with
    | other => exact ⟨hr.caught id, hr.marked id⟩
    | boot p hdown hp =>
      refine ⟨fun q hq => ?_, fun q hq => ?_⟩ <;> cases hq
      · exact .start (hwf.disk id) hp
      · exact marked_start (hC.covered id).disk hp
    | crash | cut => exact ⟨fun _ hp => by (cases hp), fun _ hp => by (cases hp)⟩
    | act p a e hp hact =>
      have hm := move_of_act hact
      have hw := hwf.proc id p hp
      have hcaught := hr.caught id p hp
      refine ⟨fun q hq => ?_, fun q hq => ?_⟩ <;> cases hq
      · exact (hcaught.move hw hm).1.spawn _ _
      · exact marked_act hw hcaught (hr.marked id p hp) hm (hreg rfl p hp)
  exact ⟨fun id => (hnode id).1, fun id => (hnode id).2⟩

theorem allCaught_of_run {as : List Action} (hrun : Run (CoherentStep cl C₀) {} as w) :
    (∃ h, Coherent cl.machine configOf C₀ w h) ∧ AllCaught w := by
  refine hrun.invariant
    (P := fun w => (∃ h, Coherent cl.machine configOf C₀ w h) ∧ AllCaught w)
    (fun w a w' hs ⟨⟨h, hC⟩, hr⟩ => ?_) ⟨⟨_, coherent_empty⟩, allCaught_empty⟩
  obtain ⟨h', -, hC'⟩ := hs.coherent hC
  exact ⟨⟨h', hC'⟩, hr.step hs hC⟩

end Run

/-! ## The four combinations -/

/-- After a crash now, the server starts with one of the two machines, up to `R`; and the stored log
begins no later than the stored snapshot ends. -/
structure Recoverable (cl : Cluster σ) (R : σ → σ → Prop) (id : NodeID) (d : Disk) (x y : σ) :
    Prop where
  machine : ∃ q, cl.start id d = some q ∧ (R q.server.sm x ∨ R q.server.sm y)
  covered : d.logBase ≤ d.snapIndex

section Install

variable {cl : Cluster σ} {R : σ → σ → Prop} {C₀ : List NodeID}

theorem Coherent.restart (hC : Coherent cl.machine configOf C₀ w h) (hr : AllCaught w)
    (hfaith : cl.machine.Faithful R) (hp : (w.node id).proc = some p) :
    ∃ q, cl.start id (w.node id).disk = some q ∧ R q.server.sm p.server.sm := by
  have hR := hC.refines
  have hP := (hR.node id).proc p hp
  have hwf := hR.wf.disk id
  have hcov := (hC.covered id).disk
  have hkept : KeptBy h id (w.node id).disk p.server := ⟨p.server, hP.backed, hP.server, rfl, rfl⟩
  have hD : Restorable cl.machine (w.node id).disk :=
    (hP.backed.disk hP.server hwf).restorable hwf hcov (hC.bytes.disk id)
      fun snap hs => hC.mirrored.snapshots.disk id snap hs
  obtain ⟨q, hq⟩ := hD.exists_start hfaith id
  refine ⟨q, hq, ?_⟩
  -- it has the log of the running server, and has applied as much of it
  have hdisk := hP.backed.disk hP.server hwf
  have hlog : q.server.log.abs = p.server.log.abs := by
    rw [← (hdisk.start hwf hq).1.log, hP.server.log]
  have hpre := hkept.committed hwf hcov hq
  have hle : p.server.lastApplied ≤ q.server.lastApplied := by
    obtain ⟨-, -, hcommit, happ⟩ := start_cases hD.fresh hq
    have hmarked := hr.marked id p hp
    have hlen := hdisk.applied
    have hlast := hwf.log_wf.lastIndex
    rw [Log.length_abs] at hlen
    rw [happ, hcommit, Server.clampApplied]
    omega
  have hsame : q.server.log.abs.take q.server.lastApplied =
      p.server.log.abs.take p.server.lastApplied := by
    rw [hP.server.applied] at hle ⊢
    refine hpre.eq_of_length_le ?_
    rw [List.length_take, List.length_take, hlog]
    omega
  refine hfaith.trans ((hD.reflects hq).fold hfaith) ?_
  rw [hsame]
  exact hfaith.symm ((hC.mirrored.machine id p hp).fold hfaith)

/-- A server that starts once the snapshot is stored has the machine after the installation, if it
has a state file. -/
theorem Coherent.restart_installed (hC : Coherent cl.machine configOf C₀ w h)
    (hfaith : cl.machine.Faithful R) (hp : (w.node id).proc = some p) {a : Local} {e : Effect σ}
    (hm : Move cl.machine w id p a e) (ha : a.snapshots w = true) {src : NodeID}
    {args : InstallSnapshotArgs} (hin : Installs cl.machine w id p a e src args) {k : Nat}
    (hk : k ≠ 0) (hstate : k = 1 → (w.node id).disk.state ≠ none) :
    ∃ q, cl.start id ((w.node id).disk.writeAll (e.writes.take k)) = some q ∧
      R q.server.sm e.proc.server.sm := by
  have hP := (hC.refines.node id).proc p hp
  obtain ⟨hD, -⟩ := hC.cut hp hm ha hstate
  obtain ⟨hsnap, hmark, -⟩ := hC.cut_install hp hin hk
  have hhonest := hC.mirrored.snapshots.installed hin
  obtain ⟨q, hq⟩ := hD.exists_start hfaith id
  obtain ⟨call, recent, x, -, -, hx, -, -, hlt, hproc, -⟩ := hin
  have hle : (w.node id).disk.applied ≤ args.snapshot.lastIncludedIndex := by
    have hb := hP.backed.applied
    rw [← hP.server.applied] at hb
    exact hb.trans hlt.le
  have hsm : e.proc.server.sm = x := by
    rw [hproc]
    rfl
  refine ⟨q, hq, ?_⟩
  have hfold := (hD.reflects hq).fold hfaith
  rw [applied_of_installed hD hsnap (by rw [hmark]; exact hle) hq] at hfold
  rw [hsm]
  exact hfaith.trans hfold (hfaith.symm ((hhonest.reflects hx).fold hfaith))

/-- A server without a state file has applied nothing, and starts with an empty machine, whatever
snapshot is stored. -/
theorem Coherent.restart_first (hC : Coherent cl.machine configOf C₀ w h)
    (hfaith : cl.machine.Faithful R) (hp : (w.node id).proc = some p)
    (hnone : (w.node id).disk.state = none) {d : Disk} (hd : d.state = none) :
    ∃ q, cl.start id d = some q ∧ R q.server.sm p.server.sm := by
  have hP := (hC.refines.node id).proc p hp
  have hD := hP.backed.disk hP.server (hC.refines.wf.disk id)
  have hlog : p.server.log.abs = [] := by
    rw [← hP.server.log, hD.log, Disk.log, hD.fresh hnone, Disk.saved, hnone]
    rfl
  have hsm : R p.server.sm cl.machine.new := by
    have hrefl := hC.mirrored.machine id p hp
    rw [hlog, List.take_nil] at hrefl
    exact hrefl.fold hfaith
  have hrestore : (Server.new cl.machine id (cl.peers id)).restore cl.machine d =
      some (Server.new cl.machine id (cl.peers id)) := by
    rw [Server.restore, hd]
  exact ⟨_, Option.map_eq_some_iff.2 ⟨_, hrestore, rfl⟩, hfaith.symm hsm⟩

/-- **A failed write costs no data, unless it is that of the snapshot alone.**  Whichever writes of
an `InstallSnapshot` fail, a crash and a start give the machine before it or the one after it, and
the log begins no later than the snapshot ends: if nothing was installed, or the snapshot was saved,
or neither file was. -/
theorem install_recoverable_iff (hfaith : cl.machine.Faithful R) {as : List Action}
    (hrun : Run (CoherentStep cl C₀) {} as w) (hp : (w.node id).proc = some p) {call : Nat}
    {src : NodeID} {args : InstallSnapshotArgs}
    (hc : w.calls[call]? = some ⟨src, id, .installSnapshot args⟩) (recent : Bool) (f : Faults) :
    let e := p.handle cl.machine recent (.installSnapshot args)
    Recoverable cl R id ((w.node id).disk.writeAll (e.writes.filter f.keeps)) p.server.sm
        e.proc.server.sm ↔
      (p.server.installs cl.machine args = true → f.saveSnapshot = true → f.save = true) := by
  intro e
  obtain ⟨⟨h, hC⟩, hr⟩ := allCaught_of_run hrun
  have hP := (hC.refines.node id).proc p hp
  have hm : Move cl.machine w id p (.deliver call recent) e := .handle call _ recent hc rfl
  have ha : Local.snapshots w (.deliver call recent) = true := by
    rw [Local.snapshots, hc]
  obtain ⟨q₀, hq₀, hsm₀⟩ := hC.restart hr hfaith hp
  have hkept : Recoverable cl R id (w.node id).disk p.server.sm e.proc.server.sm :=
    ⟨⟨q₀, hq₀, .inl hsm₀⟩, (hC.covered id).disk.base_le⟩
  rcases handle_installSnapshot (m := cl.machine) hc recent p with ⟨hno, hun⟩ | ⟨hyes, hin⟩
  · refine iff_of_true ?_ fun hyes => by rw [hno] at hyes; cases hyes
    rw [show e.writes = [] from hun.writes]
    exact hkept
  have hws : e.writes = [.saveSnapshot args.snapshot, e.proc.server.persist] := by
    obtain ⟨_, _, _, -, -, -, -, -, -, -, hws⟩ := hin
    exact hws
  have hcut (k : Nat) (hk : k ≠ 0) (hfilter : e.writes.filter f.keeps = e.writes.take k)
      (hstate : k = 1 → (w.node id).disk.state ≠ none) :
      Recoverable cl R id ((w.node id).disk.writeAll (e.writes.filter f.keeps)) p.server.sm
        e.proc.server.sm := by
    obtain ⟨q, hq, hsm⟩ := hC.restart_installed hfaith hp hm ha hin hk hstate
    rw [hfilter]
    exact ⟨⟨q, hq, .inr hsm⟩, (hC.covered_cut hp hm ha k).base_le⟩
  obtain ⟨fsave, fsnap, fapplied⟩ := f
  cases fsnap with
  | false =>
    refine iff_of_true ?_ fun _ hf => by cases hf
    cases fsave with
    | false => exact hcut 2 (Nat.succ_ne_zero 1) (by rw [hws]; rfl) fun h => by cases h
    | true =>
      by_cases hstate : (w.node id).disk.state = none
      · have hone : e.writes.filter (Faults.keeps ⟨true, false, fapplied⟩) = e.writes.take 1 := by
          rw [hws]
          rfl
        have hd : ((w.node id).disk.writeAll (e.writes.take 1)).state = none := by
          rw [hws]
          exact hstate
        obtain ⟨q, hq, hsm⟩ := hC.restart_first hfaith hp hstate hd
        rw [hone]
        exact ⟨⟨q, hq, .inl hsm⟩, (hC.covered_cut hp hm ha 1).base_le⟩
      · exact hcut 1 Nat.one_ne_zero (by rw [hws]; rfl) fun _ => hstate
  | true =>
    cases fsave with
    | true =>
      refine iff_of_true ?_ fun _ _ => rfl
      rw [show e.writes.filter (Faults.keeps ⟨true, true, fapplied⟩) = [] by rw [hws]; rfl]
      exact hkept
    | false =>
      -- the log is cut at a snapshot that is not stored
      refine iff_of_false (fun hrec => ?_) fun hf => absurd (hf hyes rfl) Bool.false_ne_true
      obtain ⟨_, _, x, -, -, -, -, -, hlt, hproc, -⟩ := hin
      have hbase := hrec.covered
      have hlog : e.proc.server.log.baseIndex = args.snapshot.lastIncludedIndex := by
        rw [hproc]
        exact baseIndex_rebase _ _
      have hsnap : (w.node id).disk.snapIndex ≤ p.server.lastApplied := by
        rw [hP.server.applied, Disk.snapIndex]
        cases hs : (w.node id).disk.snapshot with
        | none => exact Nat.zero_le _
        | some snap =>
          have hlen := (hP.backed.snapshot snap hs).1.length_le
          rw [((hC.refines.wf.disk id).snapshot snap hs).length_abs, List.length_take] at hlen
          exact hlen.trans (Nat.min_le_left _ _)
      rw [show e.writes.filter (Faults.keeps ⟨false, true, fapplied⟩) = [e.proc.server.persist] by
        rw [hws]; rfl] at hbase
      have hle : e.proc.server.log.baseIndex ≤ (w.node id).disk.snapIndex := hbase
      omega

end Install

/-- The last call of `laggingInstall`. -/
def laggingArgs : InstallSnapshotArgs :=
  ⟨1, [1], ⟨3, 1, [7, 8], [⟨1, 1, none⟩, ⟨1, 2, some [7]⟩, ⟨1, 3, some [8]⟩]⟩⟩

/-- What the run leads to, and what server 3 makes of the files if the snapshot is not saved. -/
theorem laggingInstall_run :
    ∃ w p, Run (CoherentStep (journalCluster [[1], [2], [3]]) [[1], [2], [3]]) {} laggingInstall w ∧
      (w.node [3]).proc = some p ∧ p.server.sm = [7] ∧
      w.calls[5]? = some ⟨[1], [3], .installSnapshot laggingArgs⟩ ∧
      p.server.installs journal laggingArgs = true ∧ (w.node [3]).disk.snapshot = none ∧
      (∃ q, (journalCluster [[1], [2], [3]]).start [3] ((w.node [3]).disk.writeAll
        ((p.handle journal false (.installSnapshot laggingArgs)).writes.filter
          (Faults.keeps ⟨false, true, false⟩))) = some q ∧
        q.server.sm = [] ∧ q.server.lastApplied = 3) ∧
      (p.handle journal false (.installSnapshot laggingArgs)).proc.server.sm = [7, 8] :=
  exists_run_guarded_some (by decide +kernel)

/-- If the state file alone is not saved, nothing is lost. -/
theorem install_recoverable_iff_lagging :
    ∃ w p, Run (CoherentStep (journalCluster [[1], [2], [3]]) [[1], [2], [3]]) {} laggingInstall w ∧
      (w.node [3]).proc = some p ∧ w.calls[5]? = some ⟨[1], [3], .installSnapshot laggingArgs⟩ ∧
      p.server.installs journal laggingArgs = true ∧
      Recoverable (journalCluster [[1], [2], [3]]) Eq [3] ((w.node [3]).disk.writeAll
        ((p.handle journal false (.installSnapshot laggingArgs)).writes.filter
          (Faults.keeps ⟨true, false, false⟩))) p.server.sm
        (p.handle journal false (.installSnapshot laggingArgs)).proc.server.sm := by
  obtain ⟨w, p, hrun, hp, -, hcall, hinst, -⟩ := laggingInstall_run
  have hiff := install_recoverable_iff
    (show (journalCluster [[1], [2], [3]]).machine.Faithful Eq from journal_faithful) hrun hp hcall
    false ⟨true, false, false⟩
  exact ⟨w, p, hrun, hp, hcall, hinst, hiff.2 fun _ _ => rfl⟩

/-- If the snapshot alone is not saved, the server starts with an empty machine that counts as the
result of three entries. -/
theorem unsaved_snapshot_loses_entries :
    ∃ w p, Run (CoherentStep (journalCluster [[1], [2], [3]]) [[1], [2], [3]]) {} laggingInstall w ∧
      (w.node [3]).proc = some p ∧ w.calls[5]? = some ⟨[1], [3], .installSnapshot laggingArgs⟩ ∧
      p.server.sm = [7] ∧
      (p.handle journal false (.installSnapshot laggingArgs)).proc.server.sm = [7, 8] ∧
      (∃ q, (journalCluster [[1], [2], [3]]).start [3] ((w.node [3]).disk.writeAll
        ((p.handle journal false (.installSnapshot laggingArgs)).writes.filter
          (Faults.keeps ⟨false, true, false⟩))) = some q ∧
        q.server.sm = [] ∧ q.server.lastApplied = 3) ∧
      ¬ Recoverable (journalCluster [[1], [2], [3]]) Eq [3] ((w.node [3]).disk.writeAll
        ((p.handle journal false (.installSnapshot laggingArgs)).writes.filter
          (Faults.keeps ⟨false, true, false⟩))) p.server.sm
        (p.handle journal false (.installSnapshot laggingArgs)).proc.server.sm := by
  obtain ⟨w, p, hrun, hp, hsm, hcall, -, -, ⟨q, hq, hempty, happ⟩, hafter⟩ := laggingInstall_run
  refine ⟨w, p, hrun, hp, hcall, hsm, hafter, ⟨q, hq, hempty, happ⟩, fun hrec => ?_⟩
  obtain ⟨q', hq', hone⟩ := hrec.machine
  cases hq.symm.trans hq'
  rw [hempty, hsm, hafter] at hone
  rcases hone with hone | hone <;> cases hone

end CoreBank.Raft
