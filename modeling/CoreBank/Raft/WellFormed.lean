import CoreBank.Raft.Calls

/-!
# Well-formed logs and snapshots

Every log in the system is well formed: in memory, in a state file, and the snapshots in memory, on
disk, in a message and in the hands of a compaction.  Nothing is assumed about the run; a receiver
numbers the entries it appends itself, and a server takes snapshots of well-formed logs only.
-/

set_option autoImplicit false

namespace CoreBank.Raft

variable {σ : Type}

/-! ## One server -/

/-- The log of the server and the snapshot it keeps are well formed. -/
structure Server.WF (s : Server σ) : Prop where
  log : s.log.WF
  snapshot : ∀ snap, s.snapshot = some snap → snap.WF

variable {m : StateMachine σ} {ws : List Write} {snap : Snapshot}

namespace Server.WF

variable {s s' : Server σ}

/-- What passes the consistency check starts within the log. -/
theorem prev_le {l : Log} (h : l.WF) {i t : Nat} (hm : l.matchesPrevLog i t = true) :
    i ≤ l.logical.length := by
  rcases Nat.lt_or_ge i l.baseIndex with hlt | hge
  · exact hlt.le.trans h.base_le
  · exact ((h.matchesPrevLog hge).1 hm).1

theorem takeSnapshot (h : s.WF) {threshold : Nat} (hs : s.takeSnapshot m threshold = some snap) :
    snap.WF ∧ snap.lastIncludedIndex = s.lastApplied ∧ s.log.baseIndex < s.lastApplied ∧
      s.lastApplied ≤ s.log.logical.length ∧ snap.covered = s.log.logical.take s.lastApplied := by
  rw [Server.takeSnapshot] at hs
  split at hs
  · cases hs
  next r hr =>
    split at hs
    · cases hs
    next hno =>
      split at hs
      next e data he hdata =>
        cases hs
        rw [not_or, Nat.not_le] at hno
        rw [h.log.entryAt hno.1] at he
        have hidx : e.index = s.lastApplied := by
          rw [h.log.index _ _ he]
          omega
        obtain ⟨hlt, -⟩ := List.getElem?_eq_some_iff.1 he
        have hlen : s.lastApplied ≤ s.log.logical.length := by omega
        have hterm : e.term = termOfLast (s.log.logical.take s.lastApplied) := by
          rw [termOfLast, List.getLast?_eq_getElem?, List.length_take, Nat.min_eq_left hlen,
            List.getElem?_take_of_lt (by omega), he]
          rfl
        dsimp only
        rw [hidx]
        refine ⟨⟨?_, hterm, fun k x hx => ?_⟩, rfl, hno.1, hlen, rfl⟩
        · rw [List.length_take, Nat.min_eq_left hlen]
        · rw [List.getElem?_take] at hx
          split at hx
          · exact h.log.index k x hx
          · cases hx
      next => cases hs

end Server.WF

/-! ## Every step -/

/-- The server's logs and snapshots are sound. -/
structure Process.WF (p : Process σ) : Prop where
  server : p.server.WF
  task : ∀ snap, .saveSnapshot snap ∈ p.tasks ∨ .compact snap ∈ p.tasks → snap.WF

/-- The state file and the snapshot file. -/
structure Disk.WF (d : Disk) : Prop where
  log : d.saved.log.WF
  snapshot : ∀ snap, d.snapshot = some snap → snap.WF

theorem Disk.WF.log_wf {d : Disk} (hd : d.WF) : d.log.WF := by
  rcases d.log_cases with ⟨heq, -⟩ | ⟨snap, hsome, hlt, heq⟩
  · rw [heq]
    exact hd.log.decoded
  · rw [heq]
    exact (Server.rebase_cases hd.log.decoded (hd.snapshot snap hsome) hlt).1

/-- A snapshot that is sent is sound. -/
def Request.WF : Request → Prop
  | .installSnapshot args => args.snapshot.WF
  | _ => True

variable {w : World σ} {p : Process σ}

section Sections

variable {id : NodeID} {a : Local} {e : Effect σ} {s₁ s₂ : Server σ} {snaps : List Write}

/-- The log stays well formed, whatever is not known of a leader's snapshot. -/
theorem Work.wf_log (h : Work m w id p a e s₁ s₂ snaps) (hlog : s₁.log = p.server.log)
    (hw : p.server.log.WF) : s₂.log.WF ∨ ∃ src args, Installs m w id p a e src args := by
  have hpush {t : Nat} {cmd : Option Bytes} :
      (p.server.log.push ⟨t, p.server.log.lastIndex + 1, cmd⟩).WF := by
    rw [hw.lastIndex]
    exact hw.push
  cases h with
  | none => exact .inl (hlog ▸ hw)
  | store | tracked => exact .inl hw
  | lead | own | config => exact .inl hpush
  | entries call c recent args peers ni mi ci ha hc hreq hstop hle hmatch =>
    left
    rw [Server.received, hlog]
    exact (hw.appendFrom (Server.WF.prev_le hw hmatch) _).1
  | compact snap =>
    left
    rw [Server.compact]
    split
    · exact hw
    next hno =>
      simp only [not_or, not_not, not_le, not_lt, hw.lastIndex] at hno
      exact hw.discardThrough hno.1.le hno.2.1 hno.2.2
  | install src args x h => exact .inr ⟨src, args, h⟩

variable (hm : Move m w id p a e)

include hm

/-- A section that writes a snapshot got it from a compaction or from a leader. -/
theorem Move.snapshot_mem (h : .saveSnapshot snap ∈ e.writes) :
    (∃ i, a = .run i ∧ p.tasks[i]? = some (.saveSnapshot snap)) ∨
      (a.takes = true ∧ ∃ threshold, p.server.takeSnapshot m threshold = some snap) ∨
      ∃ src args, Installs m w id p a e src args ∧ args.snapshot = snap := by
  obtain @⟨s₁, s₂, snaps, saves, marker, -, work, stored, finish, hws⟩ := hm.phases
  obtain ⟨_, _, _, _, _, -, -, hmark⟩ := finish.frame
  have hsnaps : .saveSnapshot snap ∈ snaps := by
    rw [hws, List.mem_append, List.mem_append] at h
    rcases h with (h | h) | h
    · exact h
    · cases stored with
      | saved => cases List.mem_singleton.1 h
      | same | unsaved => cases h
    · cases hmark _ h
  cases work with
  | store i snap' ha ht =>
    cases List.mem_singleton.1 hsnaps
    exact .inl ⟨i, ha, ht⟩
  | compact snap' ws hsnap =>
    rcases hsnap with ⟨-, rfl⟩ | ⟨threshold, rfl, htake, rfl⟩
    · cases hsnaps
    · cases List.mem_singleton.1 hsnaps
      exact .inr (.inl ⟨rfl, threshold, htake⟩)
  | install src args x hin =>
    cases List.mem_singleton.1 hsnaps
    exact .inr (.inr ⟨src, args, hin, rfl⟩)
  | _ => cases hsnaps

/-- The snapshot that a server holds is the one it held; or it is that of a compaction, or a
leader's, and the log begins with it. -/
theorem Move.held (h : e.proc.server.snapshot = some snap) :
    p.server.snapshot = some snap ∨ (e.proc.server.log.baseIndex = snap.lastIncludedIndex ∧
      (.compact snap ∈ p.tasks ∨
        (a.takes = true ∧ ∃ threshold, p.server.takeSnapshot m threshold = some snap) ∨
        ∃ src args, Installs m w id p a e src args ∧ args.snapshot = snap)) := by
  obtain ⟨turn, work, -, finish, -⟩ := hm.phases
  obtain ⟨c, k, x, role, removed, -, hs', -⟩ := finish.frame
  rw [hs'] at h ⊢
  cases work with
  | none => exact .inl (turn.snapshot ▸ h)
  | store | lead | own | config | tracked => exact .inl h
  | entries => exact .inl (turn.snapshot ▸ h)
  | compact snap' ws hsnap =>
    rw [Server.compact] at h ⊢
    split at h
    · exact .inl h
    next hno =>
      cases h
      rw [if_neg hno]
      refine .inr ⟨rfl, hsnap.imp (fun h => h.1) fun h => .inl ?_⟩
      obtain ⟨threshold, rfl, htake, -⟩ := h
      exact ⟨rfl, threshold, htake⟩
  | install src args x hin =>
    cases h
    exact .inr ⟨baseIndex_rebase _ _, .inr (.inr ⟨src, args, hin, rfl⟩)⟩

end Sections

theorem snapshot_writeAll_cases (d : Disk) (ws : List Write) :
    (d.writeAll ws).snapshot = d.snapshot ∨
      ∃ snap, (d.writeAll ws).snapshot = some snap ∧ .saveSnapshot snap ∈ ws := by
  induction ws generalizing d with
  | nil => exact .inl rfl
  | cons x ws ih =>
    rcases ih (d.write x) with hd | ⟨snap, hsnap, hmem⟩
    · cases x with
      | save | saveApplied => exact .inl hd
      | saveSnapshot snap => exact .inr ⟨snap, hd, List.mem_cons_self⟩
    · exact .inr ⟨snap, hsnap, List.mem_cons_of_mem _ hmem⟩

theorem snapshot_writeAll {d : Disk} (h : (d.writeAll ws).snapshot = some snap) :
    d.snapshot = some snap ∨ .saveSnapshot snap ∈ ws := by
  rcases snapshot_writeAll_cases d ws with hd | ⟨snap', hsnap, hmem⟩
  · exact .inl (hd ▸ h)
  · cases hsnap.symm.trans h
    exact .inr hmem

theorem Process.WF.move {id : NodeID} {a : Local} {e : Effect σ} (h : p.WF)
    (hcalls : ∀ c ∈ w.calls, c.request.WF) (hm : Move m w id p a e) :
    e.proc.WF ∧ ∀ c ∈ e.calls, c.2.1.WF := by
  have hargs {src : NodeID} {args : InstallSnapshotArgs} (hin : Installs m w id p a e src args) :
      args.snapshot.WF := by
    obtain ⟨call, recent, x, -, hc, -⟩ := hin
    exact hcalls _ (List.mem_of_getElem? hc)
  refine ⟨⟨⟨?_, fun snap hs => ?_⟩, fun snap ht => ?_⟩, fun c hc => ?_⟩
  · obtain ⟨turn, work, -, finish, -⟩ := hm.phases
    obtain ⟨c, k, x, role, removed, -, hs', -⟩ := finish.frame
    rcases work.wf_log turn.log h.server.log with hw | ⟨src, args, hin⟩
    · rw [hs']
      exact hw
    · have hsnap := hargs hin
      obtain ⟨call, recent, x, -, -, -, -, hbase, -, hproc, -⟩ := hin
      rw [hproc, Process.withServer, Server.adoptSnapshot, Server.heedSnapshot_frame]
      exact (Server.rebase_cases h.server.log hsnap hbase).1
  · rcases hm.held hs with hold | ⟨-, ht | ⟨-, threshold, htake⟩ | ⟨src, args, hin, rfl⟩⟩
    · exact h.server.snapshot snap hold
    · exact h.task snap (.inr ht)
    · exact (h.server.takeSnapshot htake).1
    · exact hargs hin
  · rcases hm.compacting ht with hold | ⟨threshold, hs⟩
    · exact h.task snap hold
    · exact (h.server.takeSnapshot hs).1
  · cases hm.made hc with
    | snapshot peer term args ht ha => exact h.server.snapshot _ (sendSnapshotTo_cases ha).2.2.1
    | vote | entries | beat => trivial

theorem Disk.WF.cut {id : NodeID} {a : Local} {e : Effect σ} {d : Disk} (hd : d.WF) (h : p.WF)
    (hcalls : ∀ c ∈ w.calls, c.request.WF) (hm : Move m w id p a e) (k : Nat) :
    (d.writeAll (e.writes.take k)).WF := by
  refine ⟨?_, fun snap hsnap => ?_⟩
  · rcases hm.saves.disk_cut d k with hk | hk
    · rw [hk]
      exact hd.log
    · rw [hk]
      exact (h.move hcalls hm).1.server.log
  · rcases snapshot_writeAll hsnap with hold | hmem
    · exact hd.snapshot snap hold
    · rcases hm.snapshot_mem (List.mem_of_mem_take hmem) with
        ⟨i, -, ht⟩ | ⟨-, threshold, hs⟩ | ⟨src, args, ⟨call, recent, x, -, hcall, -⟩, rfl⟩
      · exact h.task snap (.inl (List.mem_of_getElem? ht))
      · exact (h.server.takeSnapshot hs).1
      · exact hcalls _ (List.mem_of_getElem? hcall)

/-- Every log and every snapshot is well formed. -/
structure WellFormed (w : World σ) : Prop where
  disk : ∀ id, (w.node id).disk.WF
  proc : ∀ id p, (w.node id).proc = some p → p.WF
  calls : ∀ c ∈ w.calls, c.request.WF

theorem wellFormed_empty : WellFormed ({} : World σ) where
  disk _ := ⟨Log.WF.empty, fun _ h => by cases h⟩
  proc _ _ h := by cases h
  calls _ h := by cases h

theorem Process.WF.start {cl : Cluster σ} {id : NodeID} {d : Disk} (hd : d.WF)
    (hp : cl.start id d = some p) : p.WF := by
  have hnone : ∀ snap, .saveSnapshot snap ∈ ([] : List Task) ∨ .compact snap ∈ ([] : List Task) →
      snap.WF := fun _ h => by rcases h with h | h <;> cases h
  cases started_of_start hp with
  | fresh => exact ⟨⟨Log.WF.empty, fun _ h => by (cases h)⟩, hnone⟩
  | restored => exact ⟨⟨hd.log_wf, hd.snapshot⟩, hnone⟩

theorem Process.WF.spawn (h : p.WF) (n : Nat) (calls : List (NodeID × Request × Pending)) :
    (p.spawn (awaiting n calls)).WF :=
  ⟨h.server, fun snap ht => h.task snap (compacting_of_awaiting ht)⟩

theorem WellFormed.step {cl : Cluster σ} {w' : World σ} {a : Action} (h : WellFormed w)
    (hs : Stepped cl w a w') : WellFormed w' := by
  have hnode (id : NodeID) : (w'.node id).disk.WF ∧ ∀ p, (w'.node id).proc = some p → p.WF := by
    have hn := hs.nodeStep id
    generalize w'.node id = n' at hn ⊢
    cases hn with
    | other => exact ⟨h.disk id, h.proc id⟩
    | boot p hdown hp => exact ⟨h.disk id, fun q hq => by cases hq; exact .start (h.disk id) hp⟩
    | crash p hp => exact ⟨h.disk id, nofun⟩
    | act p a e hp ha =>
      have hm := move_of_act ha
      have hcut := (h.disk id).cut (h.proc id p hp) h.calls hm e.writes.length
      rw [List.take_length] at hcut
      refine ⟨hcut, fun q hq => ?_⟩
      cases hq
      exact ((h.proc id p hp).move h.calls hm).1.spawn _ _
    | cut p a k e hp ha =>
      exact ⟨(h.disk id).cut (h.proc id p hp) h.calls (move_of_act ha) k, nofun⟩
  refine ⟨fun id => (hnode id).1, fun id => (hnode id).2, ?_⟩
  cases hs with
  | boot | crash | cut => exact h.calls
  | act id p a e hp ha =>
    intro c hc
    rcases List.mem_append.1 hc with hc | hc
    · exact h.calls c hc
    · obtain ⟨c₀, hc₀, rfl⟩ := List.mem_map.1 hc
      exact ((h.proc id p hp).move h.calls (move_of_act ha)).2 c₀ hc₀

end CoreBank.Raft
