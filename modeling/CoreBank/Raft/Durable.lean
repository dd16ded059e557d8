import CoreBank.Raft.Phases

/-!
# The state file

Term, vote and log are saved before a section ends, so that a crash right after a reply takes back
nothing the reply rests on.  `Saves` is what each section does: it leaves the three alone, or it
saves them as they are at its end.

There is one exception.  `InstallSnapshot` adopts a higher term and forgets the vote before it looks
at the snapshot, and returns without a save when the snapshot brings nothing or cannot be restored.
A second gap opens when a save fails: `mustPersistLocked` stops the process, but `InstallSnapshot`,
a configuration change and the second section of `MaybeCompact` use `persistLocked` and go on.
`durable_before_reply` shows that these are the only ways to reply on the strength of what is not on
disk.

`Started` says what `Restore` makes of the files.
-/

set_option autoImplicit false

namespace CoreBank.Raft

open ActionSystem

variable {σ : Type}

/-! ## What a section saves -/

/-- What the state file holds of a server. -/
def Server.toSaved (s : Server σ) : Saved := ⟨s.currentTerm, s.votedFor, s.log⟩

/-- The content of the state file; a server that finds none starts as if it held this. -/
def Disk.saved (d : Disk) : Saved := d.state.getD ⟨0, none, Log.empty⟩

variable {ws : List Write}

/-- The state file after some writes that save one and the same thing, or nothing. -/
theorem state_writeAll {d : Disk} {x : Saved} (h : ∀ st, .save st ∈ ws → st = x) :
    (d.writeAll ws).state = if .save x ∈ ws then some x else d.state := by
  induction ws generalizing d with
  | nil => rfl
  | cons w ws ih =>
    have hrest := ih (d := d.write w) fun st hst => h st (List.mem_cons_of_mem _ hst)
    have hcons : d.writeAll (w :: ws) = (d.write w).writeAll ws := rfl
    rw [hcons, hrest]
    by_cases hmem : .save x ∈ ws
    · rw [if_pos hmem, if_pos (List.mem_cons_of_mem _ hmem)]
    · rw [if_neg hmem]
      cases w with
      | save st =>
        rw [h st List.mem_cons_self, if_pos List.mem_cons_self]
        rfl
      | saveSnapshot | saveApplied => rw [if_neg (by simpa using hmem)]; rfl

/-- What a section does to the state file; `early` says when it may adopt a term without a save. -/
inductive Saves (early : Prop) (s s' : Server σ) (ws : List Write) : Prop
  /-- Nothing, and nothing that is in it has changed. -/
  | kept (hws : ∀ st, .save st ∉ ws) (h : s'.toSaved = s.toSaved)
      (hmarker : ∀ i, .saveApplied i ∈ ws → i = s'.lastApplied)
  /-- It is written, with what is in memory at the end. -/
  | saved (hmem : .save s'.toSaved ∈ ws) (hws : ∀ st, .save st ∈ ws → st = s'.toSaved)
      (hterm : s.currentTerm ≤ s'.currentTerm)
      (hvote : s'.currentTerm = s.currentTerm → s.votedFor = none ∨ s'.votedFor = s.votedFor)
      (hmarker : ∀ i, .saveApplied i ∈ ws → i = s'.lastApplied)
      /- The applied marker is written after the log it counts. -/
      (hfirst : ∀ k i, .saveApplied i ∈ ws.take k → .save s'.toSaved ∈ ws.take k)
  /-- Nothing, though a higher term was adopted. -/
  | unsaved (hearly : early) (hws : ws = []) (hterm : s.currentTerm < s'.currentTerm)
      (hvote : s'.votedFor = none) (hrole : s'.role = .follower) (hlog : s'.log = s.log)

variable {m : StateMachine σ} {p : Process σ} {id : NodeID}

/-- **Every section saves what it changes**, or adopts a higher term without a save. -/
theorem Move.saves {w : World σ} {a : Local} {e : Effect σ} (h : Move m w id p a e) :
    Saves (p.adoptsUnsaved m w a = true) p.server e.proc.server e.writes := by
  obtain @⟨s₁, s₂, snaps, saves, marker, turn, work, stored, finish, hws⟩ := h.phases
  obtain ⟨c, k, x, role, removed, hrole, hs', hmark⟩ := finish.frame
  obtain ⟨-, hterm, hvote, -⟩ := work.kept
  have hsaved : e.proc.server.toSaved = s₂.toSaved := by rw [hs']; rfl
  have hterm' : e.proc.server.currentTerm = s₁.currentTerm := by rw [hs']; exact hterm
  have hvote' : e.proc.server.votedFor = s₁.votedFor := by rw [hs']; exact hvote
  -- the snapshot comes first and the marker last
  have hsave (st : Saved) (hst : .save st ∈ e.writes) : .save st ∈ saves := by
    rw [hws, List.mem_append, List.mem_append] at hst
    rcases hst with (hst | hst) | hst
    · obtain ⟨snap, hsnap⟩ := work.mem_snaps hst
      cases hsnap
    · exact hst
    · cases hmark _ hst
  have hbefore (i : Nat) (hi : .saveApplied i ∈ snaps ++ saves) : .saveApplied i ∈ saves := by
    rcases List.mem_append.1 hi with hi | hi
    · obtain ⟨snap, hsnap⟩ := work.mem_snaps hi
      cases hsnap
    · exact hi
  have hmarker (hno : ∀ i, .saveApplied i ∉ saves) (i : Nat) (hi : .saveApplied i ∈ e.writes) :
      i = e.proc.server.lastApplied := by
    rw [hws] at hi
    rcases List.mem_append.1 hi with hi | hi
    · exact (hno i (hbefore i hi)).elim
    · exact Write.saveApplied.inj (hmark _ hi)
  cases stored with
  | saved =>
    have hp : s₂.persist = .save e.proc.server.toSaved := by rw [hsaved]; rfl
    rw [hp] at hws hsave hmarker hbefore
    refine .saved (by rw [hws]; simp) (fun st hst => ?_) (by rw [hterm']; exact turn.term)
      (fun h => by rw [hvote']; exact turn.vote (hterm' ▸ h)) (hmarker fun i => by simp)
      fun k i hi => ?_
    · exact Write.save.inj (List.mem_singleton.1 (hsave st hst))
    · rw [hws, List.take_append] at hi ⊢
      rcases List.mem_append.1 hi with hi | hi
      · cases List.mem_singleton.1 (hbefore i (List.mem_of_mem_take hi))
      · have hpos : (snaps ++ [Write.save e.proc.server.toSaved]).length ≤ k := by
          by_contra hlt
          rw [Nat.sub_eq_zero_of_le (Nat.le_of_not_le hlt)] at hi
          cases hi
        rw [List.take_of_length_le hpos]
        simp
  | same heq =>
    refine .kept (fun st hst => ?_) (hsaved.trans (Write.save.inj heq)) (hmarker fun i h => ?_)
    · cases hsave st hst
    · cases h
  | unsaved hearly hlt hnone hfollow hlog hnil =>
    refine .unsaved hearly hnil ?_ ?_ ?_ ?_
    · rw [hs']; exact hlt
    · rw [hs']; exact hnone
    · rw [hs']; exact hrole.elim (fun h => h.trans hfollow) fun h => h
    · rw [hs']; exact hlog

theorem Saves.term_le {early : Prop} {s s' : Server σ} (h : Saves early s s' ws) :
    s.currentTerm ≤ s'.currentTerm := by
  cases h with
  | kept hws h => exact Nat.le_of_eq (congrArg Saved.term h).symm
  | saved hmem hws hterm => exact hterm
  | unsaved hearly hws hterm => exact hterm.le

/-- A section writes the state file once at most: after some of the writes it holds what it held, or
what is in memory at the end. -/
theorem Saves.disk_cut {early : Prop} {s s' : Server σ} (h : Saves early s s' ws) (d : Disk)
    (k : Nat) :
    (d.writeAll (ws.take k)).saved = d.saved ∨ (d.writeAll (ws.take k)).saved = s'.toSaved := by
  have hone : ∀ st, .save st ∈ ws.take k → st = s'.toSaved := by
    intro st hst
    have hmem := List.mem_of_mem_take hst
    cases h with
    | kept hws => exact absurd hmem (hws st)
    | saved hmem' hws => exact hws st hmem
    | unsaved hearly hws => rw [hws] at hmem; cases hmem
  rw [Disk.saved, Disk.saved, state_writeAll hone]
  split
  · exact .inr rfl
  · exact .inl rfl

/-! ## Saves that fail -/

/-- Which of the writes of a section fail. -/
structure Faults where
  save : Bool
  saveSnapshot : Bool
  saveApplied : Bool
deriving DecidableEq

/-- The write does not fail. -/
def Faults.keeps (f : Faults) : Write → Bool
  | .save _ => !f.save
  | .saveSnapshot _ => !f.saveSnapshot
  | .saveApplied _ => !f.saveApplied

/-- The sections that go on when the state file or the snapshot was not saved.  In the others
`mustPersistLocked` stops the process, which is a `cut`. -/
def Process.goesOn (w : World σ) (p : Process σ) : Local → Bool
  | .deliver call _ =>
    match w.calls[call]? with
    | some ⟨_, _, .installSnapshot _⟩ => true
    | _ => false
  | .addServer _ | .removeServer _ => true
  | .run i =>
    match p.tasks[i]? with
    | some (.compact _) => true
    | _ => false
  | _ => false

/-- A step of one server, with or without failing writes. -/
inductive Event
  | sound (a : Action)
  /-- A section goes on although some of its writes fail.  A failed `SaveApplied` is only counted,
  in every section. -/
  | faulty (a : Local) (f : Faults)
deriving DecidableEq

/-- One step of server `id` in an arbitrary cluster, on storage that may fail. -/
def FaultyStep (cl : Cluster σ) (id : NodeID) (n : Node σ) (x : World σ × Event) (n' : Node σ) :
    Prop :=
  match x.2 with
  | .sound a => ServerStep cl id n (x.1, a) n'
  | .faulty a f => ∃ p e, x.1.node id = n ∧ n.proc = some p ∧
      p.act cl.machine x.1 id a = some e ∧
      (p.goesOn x.1 a = true ∨ (f.save = false ∧ f.saveSnapshot = false)) ∧
      n' = { disk := n.disk.writeAll (e.writes.filter f.keeps)
             proc := some (e.proc.spawn (awaiting x.1.calls.length e.calls)) }

/-- No `InstallSnapshot` of a higher term returns early, and no section goes on without its state
file. -/
def Heeded (cl : Cluster σ) (id : NodeID) (n : Node σ) : World σ × Event → Prop
  | (w, .sound (.act id' a)) => id' = id → ∀ p ∈ n.proc, p.adoptsUnsaved cl.machine w a = false
  | (w, .faulty a f) => f.save = false ∧ ∀ p ∈ n.proc, p.adoptsUnsaved cl.machine w a = false
  | _ => True

/-- The server does not start from a snapshot ahead of the saved log, at which `Restore` cuts the
log in memory. -/
def UncutStart (id : NodeID) (n : Node σ) : World σ × Event → Prop
  | (_, .sound (.boot id')) => id' = id →
    ∀ st ∈ n.disk.state, ∀ snap ∈ n.disk.snapshot, snap.lastIncludedIndex ≤ st.log.baseIndex
  | _ => True

/-! ## Memory and disk agree -/

/-- A section that may not adopt a term unsaved leaves the state file and the memory apart or
together, as they were. -/
theorem Saves.disk {early : Prop} {s s' : Server σ} {ws' : List Write} (h : Saves early s s' ws)
    (hno : ¬ early) (d : Disk) (hws' : ∀ st, .save st ∈ ws' ↔ .save st ∈ ws) :
    ((d.writeAll ws').saved = d.saved ∧ s'.toSaved = s.toSaved) ∨
      (d.writeAll ws').saved = s'.toSaved := by
  cases h with
  | kept hws h =>
    have hnone (st : Saved) : .save st ∉ ws' := fun hst => hws st ((hws' st).1 hst)
    have hstate := state_writeAll (d := d) (x := s.toSaved) fun st hst => absurd hst (hnone st)
    rw [if_neg (hnone _)] at hstate
    exact .inl ⟨by rw [Disk.saved, hstate]; rfl, h⟩
  | saved hmem hws =>
    have hstate := state_writeAll (d := d) fun st hst => hws st ((hws' st).1 hst)
    rw [if_pos ((hws' _).2 hmem)] at hstate
    exact .inr (by rw [Disk.saved, hstate]; rfl)
  | unsaved hearly => exact absurd hearly hno

/-- Terms and votes on disk are those in memory. -/
def NodeSynced (n : Node σ) : Prop :=
  ∀ p, n.proc = some p →
    n.disk.saved.term = p.server.currentTerm ∧ n.disk.saved.votedFor = p.server.votedFor

/-- So is the log. -/
def LogSynced (n : Node σ) : Prop :=
  ∀ p, n.proc = some p → n.disk.saved.log.decoded = p.server.log.decoded

theorem act_saves {w : World σ} {a : Local} {e : Effect σ} (ha : p.act m w id a = some e)
    (hno : p.adoptsUnsaved m w a = false) (d : Disk) {ws' : List Write}
    (hws' : ∀ st, .save st ∈ ws' ↔ .save st ∈ e.writes) :
    ((d.writeAll ws').saved = d.saved ∧ e.proc.server.toSaved = p.server.toSaved) ∨
      (d.writeAll ws').saved = e.proc.server.toSaved :=
  (move_of_act ha).saves.disk (by rw [hno]; exact Bool.false_ne_true) d hws'

theorem mem_filter_keeps {f : Faults} (hf : f.save = false) (ws : List Write) (st : Saved) :
    .save st ∈ ws.filter f.keeps ↔ .save st ∈ ws := by
  rw [List.mem_filter, Faults.keeps, hf]
  exact and_iff_left rfl

variable {cl : Cluster σ} {x : World σ × Event}

/-- What a step that meets the condition can do to the node. -/
theorem heeded_step {n n' : Node σ} (h : FaultyStep cl id n x n') (hheed : Heeded cl id n x) :
    n' = n ∨ n'.proc = none ∨
      (x.2 = .sound (.boot id) ∧
        ∃ p, cl.start id n.disk = some p ∧ n' = { n with proc := some p }) ∨
      ∃ p p', n.proc = some p ∧ n'.proc = some p' ∧
        ((n'.disk.saved = n.disk.saved ∧ p'.server.toSaved = p.server.toSaved) ∨
          n'.disk.saved = p'.server.toSaved) := by
  obtain ⟨w, ev⟩ := x
  cases ev with
  | sound a =>
    have hstep : NodeStep cl w id n a n' := ServerStep.nodeStep h
    cases hstep with
    | other => exact .inl rfl
    | boot p hdown hp => exact .inr (.inr (.inl ⟨rfl, p, hp, rfl⟩))
    | crash | cut => exact .inr (.inl rfl)
    | act p a e hp ha =>
      exact .inr (.inr
        (.inr ⟨p, _, hp, rfl, act_saves ha (hheed rfl p hp) n.disk fun _ => Iff.rfl⟩))
  | faulty a f =>
    obtain ⟨p, e, -, hp, ha, -, rfl⟩ := h
    exact .inr (.inr (.inr ⟨p, _, hp, rfl,
      act_saves ha (hheed.2 p hp) n.disk (mem_filter_keeps hheed.1 e.writes)⟩))

/-! ## Starting -/

/-- The last index that the stored snapshot includes. -/
def Disk.snapIndex (d : Disk) : Nat := (d.snapshot.map Snapshot.lastIncludedIndex).getD 0

/-- The log that `Restore` makes of a disk with a state file. -/
def Disk.log (d : Disk) : Log :=
  match d.snapshot with
  | none => d.saved.log.decoded
  | some snap =>
    if d.saved.log.decoded.baseIndex < snap.lastIncludedIndex then
      Server.rebase d.saved.log.decoded snap
    else d.saved.log.decoded

/-- The saved log, or a snapshot ahead of it with what the saved log has above. -/
theorem Disk.log_cases (d : Disk) :
    (d.log = d.saved.log.decoded ∧
        ∀ snap, d.snapshot = some snap → snap.lastIncludedIndex ≤ d.saved.log.decoded.baseIndex) ∨
      ∃ snap, d.snapshot = some snap ∧ d.saved.log.decoded.baseIndex < snap.lastIncludedIndex ∧
        d.log = Server.rebase d.saved.log.decoded snap := by
  rw [Disk.log]
  split
  next hno => exact .inl ⟨rfl, fun snap hsome => by rw [hno] at hsome; cases hsome⟩
  next snap hsome =>
    split
    next hlt => exact .inr ⟨snap, hsome, hlt, rfl⟩
    next hge =>
      refine .inl ⟨rfl, fun snap' hsome' => ?_⟩
      rw [hsome] at hsome'
      cases hsome'
      exact Nat.le_of_not_lt hge

/-- The machine that `Restore` begins the replay with. -/
def Disk.machine (m : StateMachine σ) (d : Disk) : Option σ :=
  match d.snapshot with
  | none => some m.new
  | some snap => m.snapshotter.bind fun r => r.restoreSnapshot snap.data m.new

/-- The process that `Restore` makes of the state `st` once the replay has left the machine at
`y`. -/
def Cluster.restored (cl : Cluster σ) (id : NodeID) (d : Disk) (st : Saved) (y : σ) : Process σ :=
  let loaded := (Server.new cl.machine id (cl.peers id)).loadState st
  let applied := max d.snapIndex (Server.clampApplied d.log d.applied)
  { server := { Server.new cl.machine id (cl.peers id) with
      running := true
      currentTerm := st.term
      votedFor := st.votedFor
      log := d.log
      snapshot := d.snapshot
      sm := y
      commitIndex := applied
      lastApplied := applied
      peers := loaded.peers
      nextIndex := loaded.nextIndex
      matchIndex := loaded.matchIndex
      configChangeIndex := loaded.configChangeIndex } }

section Start

variable {d : Disk}

theorem start_eq {st : Saved} (hstate : d.state = some st) :
    cl.start id d = (d.machine cl.machine).bind fun x =>
      (Server.replay cl.machine d.log (Server.clampApplied d.log d.applied - d.log.baseIndex)
        (d.log.baseIndex + 1) x).map (cl.restored id d st) := by
  obtain ⟨_, _, _, _, hf⟩ := (Server.new cl.machine id (cl.peers id)).loadState_frame st
  have hsaved : d.saved = st := by rw [Disk.saved, hstate]; rfl
  unfold Cluster.start Server.restore Disk.machine Disk.log Cluster.restored Disk.snapIndex Disk.log
  rw [hstate, hsaved]
  dsimp only
  rw [hf]
  cases d.snapshot with
  | none =>
    rw [Option.bind_some, Server.loadApplied, Option.map_map]
    rfl
  | some snap =>
    dsimp only [Server.loadSnapshot, Server.new]
    cases cl.machine.snapshotter.bind fun r => r.restoreSnapshot snap.data cl.machine.new with
    | none => rfl
    | some x =>
      rw [Option.bind_some, Option.bind_some, Server.loadApplied, Option.map_map]
      rfl

/-- What `New` and `Restore` make of the files. -/
inductive Started (cl : Cluster σ) (id : NodeID) (d : Disk) : Process σ → Prop
  | fresh (hstate : d.state = none) :
      Started cl id d { server := { Server.new cl.machine id (cl.peers id) with running := true } }
  | restored (st : Saved) (x y : σ) (hstate : d.state = some st)
      (hx : d.machine cl.machine = some x)
      (hy : Server.replay cl.machine d.log (Server.clampApplied d.log d.applied - d.log.baseIndex)
        (d.log.baseIndex + 1) x = some y) : Started cl id d (cl.restored id d st y)

variable (h : cl.start id d = some p)

include h

theorem started_of_start : Started cl id d p := by
  cases hstate : d.state with
  | none =>
    rw [Cluster.start, Server.restore, hstate] at h
    cases h
    exact .fresh hstate
  | some st =>
    rw [start_eq hstate] at h
    obtain ⟨x, hx, h⟩ := Option.bind_eq_some_iff.1 h
    obtain ⟨y, hy, rfl⟩ := Option.map_eq_some_iff.1 h
    exact .restored st x y hstate hx hy

theorem start_id :
    p.server.id = id ∧ p.server.role = .follower ∧ p.tasks = [] ∧
      p.elections = [] ∧ p.reads = [] := by
  cases started_of_start h with
  | fresh | restored => exact ⟨rfl, rfl, rfl, rfl, rfl⟩

theorem start_saved :
    p.server.currentTerm = d.saved.term ∧ p.server.votedFor = d.saved.votedFor := by
  cases started_of_start h with
  | fresh hstate | restored _ _ _ hstate =>
    rw [Disk.saved, hstate]
    exact ⟨rfl, rfl⟩

theorem start_log
    (huncut : ∀ st ∈ d.state, ∀ snap ∈ d.snapshot, snap.lastIncludedIndex ≤ st.log.baseIndex) :
    p.server.log.decoded = d.saved.log.decoded := by
  cases started_of_start h with
  | fresh hstate =>
    rw [Disk.saved, hstate]
    rfl
  | restored st x y hstate =>
    show d.log.decoded = _
    rcases d.log_cases with ⟨hlog, -⟩ | ⟨snap, hsnap, hlt, -⟩
    · rw [hlog, Log.decoded_decoded]
    · rw [Disk.saved, hstate] at hlt
      exact absurd hlt (Nat.not_lt.2 (huncut st hstate snap hsnap))

end Start

/-! ## Every run -/

theorem NodeSynced.step {n n' : Node σ} (h : NodeSynced n) (hstep : FaultyStep cl id n x n')
    (hheed : Heeded cl id n x) : NodeSynced n' := by
  rcases heeded_step hstep hheed with rfl | hdown | ⟨-, p, hp, rfl⟩ | ⟨p, p', hp, hp', hsaved⟩
  · exact h
  · intro q hq
    rw [hdown] at hq
    cases hq
  · intro q hq
    cases hq
    obtain ⟨hterm, hvote⟩ := start_saved hp
    exact ⟨hterm.symm, hvote.symm⟩
  · intro q hq
    rw [hp'] at hq
    cases hq
    rcases hsaved with ⟨hdisk, hsame⟩ | hdisk
    · obtain ⟨hterm, hvote⟩ := h p hp
      rw [hdisk, hterm, hvote]
      exact ⟨(congrArg Saved.term hsame).symm, (congrArg Saved.votedFor hsame).symm⟩
    · rw [hdisk]
      exact ⟨rfl, rfl⟩

theorem LogSynced.step {n n' : Node σ} (h : LogSynced n) (hstep : FaultyStep cl id n x n')
    (hheed : Heeded cl id n x) (huncut : UncutStart id n x) :
    LogSynced n' := by
  rcases heeded_step hstep hheed with rfl | hdown | ⟨hx, p, hp, rfl⟩ | ⟨p, p', hp, hp', hsaved⟩
  · exact h
  · intro q hq
    rw [hdown] at hq
    cases hq
  · intro q hq
    cases hq
    obtain ⟨w, ev⟩ := x
    cases hx
    exact (start_log hp (huncut rfl)).symm
  · intro q hq
    rw [hp'] at hq
    cases hq
    rcases hsaved with ⟨hdisk, hsame⟩ | hdisk
    · rw [hdisk, h p hp]
      exact congrArg (fun st => st.log.decoded) hsame.symm
    · rw [hdisk]
      rfl

/-- **Durable before the reply.**  On storage that may fail, and whatever the cluster around it
does, a server that meets the condition has on disk the term and the vote it has in memory, so that
a crash and `Restore` bring back both; and it has the log on disk as well if it never started from a
snapshot ahead of it. -/
theorem durable_before_reply (cl : Cluster σ) (id : NodeID)
    {xs : List (World σ × Event)} {n : Node σ}
    {p : Process σ}
    (hrun : Run (fun n x n' => FaultyStep cl id n x n' ∧ Heeded cl id n x) {} xs n)
    (hp : n.proc = some p) :
    (n.disk.saved.term = p.server.currentTerm ∧ n.disk.saved.votedFor = p.server.votedFor) ∧
      (∀ q, cl.start id n.disk = some q →
        q.server.currentTerm = p.server.currentTerm ∧ q.server.votedFor = p.server.votedFor) ∧
      (Run (fun n x n' => (FaultyStep cl id n x n' ∧ Heeded cl id n x)
        ∧ UncutStart id n x) {} xs n →
        n.disk.saved.log.decoded = p.server.log.decoded) := by
  have hsync : NodeSynced n := hrun.invariant (fun n x n' hs h => h.step hs.1 hs.2) nofun
  obtain ⟨hterm, hvote⟩ := hsync p hp
  refine ⟨⟨hterm, hvote⟩, fun q hq => ?_, fun hrun' => ?_⟩
  · obtain ⟨hqterm, hqvote⟩ := start_saved hq
    exact ⟨hqterm.trans hterm, hqvote.trans hvote⟩
  · have hlog : LogSynced n :=
      hrun'.invariant (fun n x n' hs h => h.step hs.1.1 hs.1.2 hs.2) nofun
    exact hlog p hp

/-! ## The early return -/

/-- A world in which `n` is server 1 and a leader of term 1 has sent it a snapshot through `i`. -/
def offered (n : Node Bytes) (i : Nat) : World Bytes where
  nodes := (∅ : Map NodeID (Node Bytes)).insert [1] n
  calls := [⟨[2], [1], .installSnapshot ⟨1, [2], ⟨i, 1, [], []⟩⟩⟩]

/-- A new server answers a snapshot that brings nothing, in the leader's term; after a crash it is
back in term 0. -/
theorem early_return_loses_term :
    ∃ xs n p, Run (FaultyStep (journalCluster [[1], [2]]) [1]) {} xs n ∧ n.proc = some p ∧
      p.server.currentTerm = 1 ∧ n.disk.saved.term = 0 ∧
      ∃ q, (journalCluster [[1], [2]]).start [1] n.disk = some q ∧ q.server.currentTerm = 0 := by
  refine ⟨[({}, .sound (.boot [1])),
    (offered ⟨{}, some _⟩ 0, .sound (.deliver [1] 0))],
    ⟨{}, some _⟩, _, .cons ⟨rfl, _, rfl, rfl⟩ (.cons ⟨rfl, _, rfl, rfl⟩ (.nil _)), rfl, rfl, rfl, _,
    rfl, rfl⟩

/-- The term of a snapshot that is installed is on disk, even if the snapshot itself is not. -/
theorem durable_before_reply_installed :
    ∃ xs n p, Run (fun n x n' => FaultyStep (journalCluster [[1], [2]]) [1] n x n' ∧
        Heeded (journalCluster [[1], [2]]) [1] n x) {} xs n ∧ n.proc = some p ∧
      n.disk.snapshot = none ∧ p.server.currentTerm = 1 ∧ n.disk.saved.term = 1 := by
  have hrun : Run (fun n x n' => FaultyStep (journalCluster [[1], [2]]) [1] n x n' ∧
      Heeded (journalCluster [[1], [2]]) [1] n x) {}
      [({}, .sound (.boot [1])),
        (offered ⟨{}, some _⟩ 5, .faulty (.deliver 0 false) ⟨false, true, false⟩)]
      ⟨_, some _⟩ :=
    .cons ⟨⟨rfl, _, rfl, rfl⟩, trivial⟩
      (.cons ⟨⟨_, _, rfl, rfl, rfl, .inl rfl, rfl⟩, rfl, fun p hp => by cases hp; rfl⟩ (.nil _))
  exact ⟨_, _, _, hrun, rfl, rfl, rfl,
    (durable_before_reply (journalCluster [[1], [2]]) [1] hrun rfl).1.1⟩

end CoreBank.Raft
