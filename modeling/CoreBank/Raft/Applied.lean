import CoreBank.Raft.Entries
import CoreBank.Raft.Refinement

/-!
# The state machine and the log

A server's state machine is the result of applying the entries of its log, each once and in order,
up to `lastApplied`.  Entries reach the machine by four routes: a leader commits, a follower learns
that its leader did, a snapshot is installed, and a new process reads its files.  Two of these go
through snapshots, so the statement is about snapshots as well: their data is what a machine says of
itself after the entries they cover.

## What is here

* `StateMachine.Reflects` — the states that a log may lead to, `StateMachine.fold` — the one it
  leads to if `RestoreSnapshot` undoes `Snapshot` (`StateMachine.Faithful`);
* `Applied` — one section and the machine;
* `Restorable` — the files from which `Restore` makes a machine that reflects the log;
* `Snapshots` — where snapshots come from;
* `Mirrored` — every machine reflects its log, and every snapshot the entries it covers; `Coherent`
  — this with the refinement.
-/

set_option autoImplicit false

namespace CoreBank.Raft

open Consensus

variable {σ : Type} {R : σ → σ → Prop} {cl : Cluster σ} {args : InstallSnapshotArgs}

/-! ## Folding a log -/

namespace StateMachine

/-- Applying the entry at index `i`; an entry without bytes carries nothing to apply. -/
def next (m : StateMachine σ) (i : Nat) (e : Consensus.Entry Bytes) (x : σ) : σ :=
  if e.payload = [] then x else m.applyAt i e.payload x

/-- Applying the entries that follow index `n`, in order. -/
def after (m : StateMachine σ) : Nat → List (Consensus.Entry Bytes) → σ → σ
  | _, [], x => x
  | n, e :: L, x => m.after (n + 1) L (m.next (n + 1) e x)

/-- A new machine after the entries of a log. -/
def fold (m : StateMachine σ) (L : List (Consensus.Entry Bytes)) : σ := m.after 0 L m.new

/-- `RestoreSnapshot` undoes `Snapshot`, whatever the machine held before, up to a relation that
`Apply` respects.  It is an equivalence of the states that a machine can come to; the others need
not be related to themselves. -/
structure Faithful (m : StateMachine σ) (R : σ → σ → Prop) : Prop where
  new : R m.new m.new
  symm : ∀ {x y}, R x y → R y x
  trans : ∀ {x y z}, R x y → R y z → R x z
  apply : ∀ i b {x y}, R x y → R (m.applyAt i b x) (m.applyAt i b y)
  restore : ∀ r ∈ m.snapshotter, ∀ {x data}, R x x → r.snapshot x = some data →
    ∀ y, ∃ x', r.restoreSnapshot data y = some x' ∧ R x' x

theorem after_append (m : StateMachine σ) (n : Nat) (L M : List (Consensus.Entry Bytes)) (x : σ) :
    m.after n (L ++ M) x = m.after (n + L.length) M (m.after n L x) := by
  induction L generalizing n x with
  | nil => rfl
  | cons e L ih =>
    rw [List.cons_append, after, ih, after, List.length_cons, Nat.add_assoc, Nat.add_comm 1]

section

variable {m : StateMachine σ} {x y : σ}

theorem Faithful.refl (hm : m.Faithful R) (h : R x y) : R x x := hm.trans h (hm.symm h)

theorem Faithful.next (hm : m.Faithful R) (h : R x y) (i : Nat) (e : Consensus.Entry Bytes) :
    R (m.next i e x) (m.next i e y) := by
  rw [StateMachine.next, StateMachine.next]
  split
  · exact h
  · exact hm.apply i e.payload h

theorem Faithful.after (hm : m.Faithful R) (h : R x y) (n : Nat)
    (L : List (Consensus.Entry Bytes)) : R (m.after n L x) (m.after n L y) := by
  induction L generalizing n x y with
  | nil => exact h
  | cons e L ih => exact ih (hm.next h _ _) _

end

/-- The state is that of a new machine to which the entries were applied in order; in between, a
snapshot of it may have been restored. -/
inductive Reflects (m : StateMachine σ) : List (Consensus.Entry Bytes) → σ → Prop
  | new : m.Reflects [] m.new
  | next {X : List (Consensus.Entry Bytes)} {x : σ} (e : Consensus.Entry Bytes)
      (h : m.Reflects X x) : m.Reflects (X ++ [e]) (m.next (X.length + 1) e x)
  | restored {X : List (Consensus.Entry Bytes)} {x y x' : σ} {r : Snapshotter σ} {data : Bytes}
      (h : m.Reflects X x) (hr : m.snapshotter = some r) (hs : r.snapshot x = some data)
      (hx : r.restoreSnapshot data y = some x') : m.Reflects X x'

namespace Reflects

variable {m : StateMachine σ} {X : List (Consensus.Entry Bytes)} {x : σ}

theorem after (h : m.Reflects X x) (L : List (Consensus.Entry Bytes)) :
    m.Reflects (X ++ L) (m.after X.length L x) := by
  induction L generalizing X x with
  | nil =>
    rw [List.append_nil]
    exact h
  | cons e L ih =>
    have hrest := ih (h.next e)
    rw [List.append_assoc, List.singleton_append, List.length_append,
      List.length_singleton] at hrest
    exact hrest

theorem segment {L : List (Consensus.Entry Bytes)} {i : Nat} (hi : i ≤ L.length)
    (h : m.Reflects (L.take i) x) (n : Nat) :
    m.Reflects (L.take (i + n)) (m.after i ((L.drop i).take n) x) := by
  have hrest := h.after ((L.drop i).take n)
  rw [List.length_take, Nat.min_eq_left hi] at hrest
  rw [List.take_add]
  exact hrest

/-- A machine that honours the contract of `Snapshotter` is the fold of the entries. -/
theorem fold (h : m.Reflects X x) (hm : m.Faithful R) : R x (m.fold X) := by
  induction h with
  | new => exact hm.new
  | @next X x e _ ih =>
    rw [StateMachine.fold, after_append, Nat.zero_add]
    exact hm.next ih _ _
  | restored _ hr hs hx ih =>
    obtain ⟨x', hx', hR⟩ := hm.restore _ hr (hm.refl ih) hs _
    cases hx.symm.trans hx'
    exact hm.trans hR ih

end Reflects

end StateMachine

/-- No entry carries a command without bytes; such a command would be read back as a no-op. -/
abbrev HasBytes : List LogEntry → Prop := Holds fun c => c ≠ some []

/-- A command that is submitted has bytes. -/
def Local.nonEmpty : Local → Prop
  | .submit cmd => cmd ≠ []
  | _ => True

/-- The action's section is `nonEmpty`. -/
def Action.nonEmpty : Action → Prop
  | .act _ a | .cut _ a _ => a.nonEmpty
  | _ => True

instance (a : Local) : Decidable a.nonEmpty := by
  induction a using Local.casesOn <;> unfold Local.nonEmpty <;> infer_instance

instance (a : Action) : Decidable a.nonEmpty := by
  induction a using Action.casesOn <;> unfold Action.nonEmpty <;> infer_instance

theorem Action.brings_of_nonEmpty {a : Action} (ha : a.nonEmpty) :
    a.Brings fun c => c ≠ some [] := by
  have hlocal {b : Local} (hb : b.nonEmpty) : b.Brings fun c => c ≠ some [] := by
    cases b with
    | submit cmd => exact fun h => hb (Option.some.inj h)
    | addServer | removeServer => exact fun C h => nomatch Option.some.inj h
    | _ => trivial
  cases a with
  | act id b | cut id b k => exact hlocal ha
  | boot | crash => trivial

theorem applyEntry_eq {e : LogEntry} (he : e.command ≠ some []) (m : StateMachine σ) (x : σ) :
    Server.applyEntry m e x = m.next e.index e.abs x := by
  obtain ⟨t, i, cmd⟩ := e
  cases cmd with
  | none => rfl
  | some cmd =>
    have hne : cmd ≠ [] := fun h => he (by rw [h])
    show m.applyAt i cmd x = if cmd = [] then x else m.applyAt i cmd x
    rw [if_neg hne]

theorem applyAll_eq (m : StateMachine σ) {es : List LogEntry} {n : Nat}
    (hindex : ∀ k e, es[k]? = some e → e.index = n + k + 1) (hbytes : HasBytes es) (x : σ) :
    Server.applyAll m es x = m.after n (es.map LogEntry.abs) x := by
  induction es generalizing n x with
  | nil => rfl
  | cons e es ih =>
    have he : e.index = n + 1 := hindex 0 e rfl
    have hrest := ih (n := n + 1)
      (fun k f hf => by rw [hindex (k + 1) f hf]; omega)
      (hbytes.sublist (List.sublist_cons_self _ _)) (Server.applyEntry m e x)
    rw [List.map_cons, StateMachine.after, ← he, ← applyEntry_eq (hbytes e List.mem_cons_self), he]
    exact hrest

theorem applyAll_segment (m : StateMachine σ) {l : Log} (hw : l.WF) (hbytes : HasBytes l.entries)
    {i : Nat} (hi : l.baseIndex ≤ i) (n : Nat) (x : σ) :
    Server.applyAll m ((l.logical.drop i).take n) x = m.after i ((l.abs.drop i).take n) x := by
  have hsub : ((l.logical.drop i).take n).Sublist l.entries := by
    refine (List.take_sublist _ _).trans ?_
    rw [Log.logical, List.drop_append, List.drop_eq_nil_of_le (by rw [hw.covered_length]; exact hi),
      List.nil_append]
    exact List.drop_sublist _ _
  have hmap : (l.abs.drop i).take n = ((l.logical.drop i).take n).map LogEntry.abs := by
    rw [Log.abs, List.map_take, List.map_drop]
  rw [hmap]
  refine applyAll_eq m (fun k e he => ?_) (hbytes.sublist hsub) x
  rw [List.getElem?_take] at he
  split at he
  · rw [List.getElem?_drop] at he
    exact hw.index _ _ he
  · cases he

/-! ## One section -/

/-- The machine of `s'` is that of `s` after the entries from `s.lastApplied` to
`s'.lastApplied`. -/
structure Applied (m : StateMachine σ) (s s' : Server σ) : Prop where
  le : s.lastApplied ≤ s'.lastApplied
  base : s.lastApplied < s'.lastApplied → s'.log.baseIndex ≤ s.lastApplied
  sm : s'.sm = Server.applyAll m
    ((s'.log.logical.drop s.lastApplied).take (s'.lastApplied - s.lastApplied)) s.sm

namespace Applied

variable {m : StateMachine σ} {s s₁ s' : Server σ}

theorem of_eq (happ : s'.lastApplied = s.lastApplied) (hsm : s'.sm = s.sm) : Applied m s s' where
  le := happ.symm.le
  base hlt := (Nat.ne_of_gt hlt happ).elim
  sm := by rw [happ, Nat.sub_self, List.take_zero, hsm]; rfl

theorem of_start (h : Applied m s₁ s') (happ : s₁.lastApplied = s.lastApplied)
    (hsm : s₁.sm = s.sm) : Applied m s s' where
  le := happ ▸ h.le
  base := happ ▸ h.base
  sm := by rw [h.sm, happ, hsm]

theorem applyCommitted (hw : s.log.WF) (hbase : s.log.baseIndex ≤ s.lastApplied)
    (hlen : s.commitIndex ≤ s.log.logical.length) : Applied m s (Server.applyCommitted m s).1 := by
  rcases Nat.le_total s.commitIndex s.lastApplied with hle | hle
  · rw [Server.applyCommitted, Nat.sub_eq_zero_of_le hle]
    exact .of_eq rfl rfl
  · rw [Server.applyCommitted, Server.applyLoop_eq m hw hbase (by omega)]
    refine ⟨Nat.le_add_right _ _, fun _ => hbase, ?_⟩
    dsimp only
    rw [Nat.add_sub_cancel_left]

end Applied

variable {m : StateMachine σ}

/-- The last phase applies nothing, or what is committed up to an index within the log. -/
theorem Finish.applies {l : Log} {s s' : Server σ} {ws : List Write} (h : Finish m l s s' ws)
    (hl : l.WF) (hw : s.log.WF) :
    (s' = s ∧ ws = []) ∨ ∃ c role removed, c ≤ s.log.logical.length ∧
      s' = { (Server.applyCommitted m { s with commitIndex := c }).1 with
        role := role, removedFromCluster := removed } ∧
      ws = (Server.applyCommitted m { s with commitIndex := c }).2 := by
  cases h with
  | rest => exact .inl ⟨rfl, rfl⟩
  | advance =>
    rcases s.advanceCommitIndex_cases m with h | ⟨i, -, -, hi, -, h⟩
    · rw [h]
      exact .inl ⟨rfl, rfl⟩
    · rw [hw.lastIndex] at hi
      rw [h]
      rcases (Server.applyCommitted m { s with commitIndex := i }).1.checkSelfRemoval_frame with
        hc | hc
      · exact .inr ⟨i, _, _, hi, hc, rfl⟩
      · exact .inr ⟨i, _, _, hi, hc, rfl⟩
  | learn args hmatch hlog =>
    rw [Server.learnCommit]
    split
    · -- a follower is told of a commit index that its log reaches
      refine .inr ⟨_, _, _, ?_, rfl, rfl⟩
      rw [hlog]
      exact (Nat.min_le_right _ _).trans
        (hl.le_length_appendFrom (Server.WF.prev_le hl hmatch) args.entries)
    · exact .inl ⟨rfl, rfl⟩

/-- `InstallSnapshot` gets past its checks and restores the snapshot. -/
def Server.installs (m : StateMachine σ) (s : Server σ) (args : InstallSnapshotArgs) : Bool :=
  decide (s.currentTerm ≤ args.term) &&
    decide (s.log.baseIndex < args.snapshot.lastIncludedIndex) &&
    decide (s.lastApplied < args.snapshot.lastIncludedIndex) &&
    (m.snapshotter.bind fun r => r.restoreSnapshot args.snapshot.data s.sm).isSome

/-- What an `InstallSnapshot` leaves alone that installs nothing. -/
structure Uninstalled (p : Process σ) (e : Effect σ) : Prop where
  applied : e.proc.server.lastApplied = p.server.lastApplied
  commit : e.proc.server.commitIndex = p.server.commitIndex
  sm : e.proc.server.sm = p.server.sm
  base : e.proc.server.log.baseIndex = p.server.log.baseIndex
  writes : e.writes = []

theorem handle_installSnapshot {w : World σ} {id src : NodeID} {call : Nat}
    (hc : w.calls[call]? = some ⟨src, id, .installSnapshot args⟩) (recent : Bool) (p : Process σ) :
    (p.server.installs m args = false ∧
      Uninstalled p (p.handle m recent (.installSnapshot args))) ∨
    (p.server.installs m args = true ∧ Installs m w id p (.deliver call recent)
      (p.handle m recent (.installSnapshot args)) src args) := by
  have hheed := p.server.heedSnapshot_frame args.term args.leaderID
  rw [Process.handle, Server.installs]
  rcases p.server.installSnapshot_cases m args with ⟨hterm, he⟩ | ⟨-, hno, he⟩ |
    ⟨hterm, hb, happ, x, hx, s₂, hs₂, he⟩
  · refine .inl ⟨?_, by rw [he]; exact ⟨rfl, rfl, rfl, rfl, rfl⟩⟩
    rw [decide_eq_false (Nat.not_le.2 hterm)]
    rfl
  · refine .inl ⟨?_, by rw [he, hheed]; exact ⟨rfl, rfl, rfl, rfl, rfl⟩⟩
    rcases hno with hb | happ | hx
    · simp [Nat.not_lt.2 hb]
    · simp [Nat.not_lt.2 happ]
    · simp [hx]
  · rw [he, hs₂, hx, decide_eq_true hterm, decide_eq_true hb, decide_eq_true happ]
    exact .inr ⟨rfl, call, recent, x, rfl, hc, hx, hterm, hb, happ, rfl, rfl⟩

/-- **What a section does to the machine**: it applies what follows, or it installs a snapshot. -/
theorem Move.applied {w : World σ} {id : NodeID} {p : Process σ} {a : Local} {e : Effect σ}
    (hm : Move m w id p a e) (hw : p.server.log.WF)
    (hbase : p.server.log.baseIndex ≤ p.server.lastApplied) :
    Applied m p.server e.proc.server ∨ ∃ src args, Installs m w id p a e src args := by
  obtain @⟨s₁, s₂, _, _, _, turn, work, -, finish, -⟩ := hm.phases
  obtain ⟨happ, -, hsm⟩ := turn.applied
  rcases work.steady with ⟨happ₂, -, hsm₂, hbase₂⟩ | ⟨snap, -, hs⟩ | hin
  · rcases work.wf_log turn.log hw with hw₂ | hin
    · left
      rw [turn.log] at hbase₂
      rcases finish.applies hw hw₂ with ⟨hs', -⟩ | ⟨c, role, removed, hc, hs', -⟩
      · rw [hs']
        exact .of_eq (happ₂.trans happ) (hsm₂.trans hsm)
      · have hdone := Applied.applyCommitted (m := m) (s := { s₂ with commitIndex := c }) hw₂
          (by rw [hbase₂, happ₂, happ]; exact hbase) hc
        rw [hs']
        exact Applied.of_start ⟨hdone.le, hdone.base, hdone.sm⟩ (happ₂.trans happ) (hsm₂.trans hsm)
    · exact .inr hin
  · left
    rw [hs, Server.compact]
    split <;> exact .of_eq rfl rfl
  · exact .inr hin

/-! ## Snapshots and starting from one -/

/-- The data is what a machine says of itself after the entries that the snapshot covers. -/
def Snapshot.Honest (m : StateMachine σ) (snap : Snapshot) : Prop :=
  ∃ r x, m.snapshotter = some r ∧ m.Reflects snap.abs x ∧ r.snapshot x = some snap.data

section Start

variable {snap : Snapshot} {s : Server σ} {d : Disk} {id : NodeID}
  {h : History NodeID Bytes}

theorem Snapshot.Honest.reflects (hs : snap.Honest m) {y x : σ}
    (hx : (m.snapshotter.bind fun r => r.restoreSnapshot snap.data y) = some x) :
    m.Reflects snap.abs x := by
  obtain ⟨r, x₀, hr, hx₀, hdata⟩ := hs
  rw [hr] at hx
  exact hx₀.restored hr hdata hx

theorem Snapshot.Honest.exists_restore (hs : snap.Honest m) (hm : m.Faithful R) (y : σ) :
    ∃ x, (m.snapshotter.bind fun r => r.restoreSnapshot snap.data y) = some x := by
  obtain ⟨r, x, hr, hx, hdata⟩ := hs
  obtain ⟨x', hx', -⟩ := hm.restore r hr (hm.refl (hx.fold hm)) hdata y
  exact ⟨x', by rw [hr]; exact hx'⟩

theorem Server.WF.honest (hw : s.WF) (hsm : m.Reflects (s.log.abs.take s.lastApplied) s.sm)
    {threshold : Nat} (hs : s.takeSnapshot m threshold = some snap) : snap.Honest m := by
  obtain ⟨-, -, -, -, hcov⟩ := hw.takeSnapshot hs
  rw [Server.takeSnapshot] at hs
  split at hs
  · cases hs
  next r hr =>
    split at hs
    · cases hs
    · split at hs
      next e data he hdata =>
        cases hs
        refine ⟨r, s.sm, hr, ?_, hdata⟩
        rw [Snapshot.abs, hcov, List.map_take]
        exact hsm
      next => cases hs

theorem replay_eq (m : StateMachine σ) {l : Log} (hw : l.WF) {i n : Nat} (hi : l.baseIndex ≤ i)
    (hlen : i + n ≤ l.logical.length) (x : σ) :
    Server.replay m l n (i + 1) x = some (Server.applyAll m ((l.logical.drop i).take n) x) := by
  induction n generalizing i x with
  | zero => rfl
  | succ n ih =>
    have hlt : i < l.logical.length := by omega
    have hentry := hw.entryAt (i := i + 1) (by omega)
    rw [Nat.add_sub_cancel, List.getElem?_eq_getElem hlt] at hentry
    rw [Server.replay, hentry]
    dsimp only
    rw [ih (by omega) (by omega), List.drop_eq_getElem_cons hlt, List.take_succ_cons,
      Server.applyAll, Server.applyAll, List.foldl_cons]

/-- A disk from which `Restore` makes a machine that fits the log. -/
structure Restorable (m : StateMachine σ) (d : Disk) : Prop where
  wf : d.WF
  fresh : d.state = none → d.snapshot = none
  base : d.log.baseIndex = d.snapIndex
  bytes : HasBytes d.log.entries
  snapshot : ∀ snap, d.snapshot = some snap → snap.abs <+: d.log.abs ∧ snap.Honest m

/-- The marker is clamped to the part of the log above the snapshot. -/
theorem Restorable.clamp (hd : Restorable m d) :
    d.snapIndex ≤ Server.clampApplied d.log d.applied ∧
      Server.clampApplied d.log d.applied ≤ d.log.logical.length := by
  have hbase := hd.wf.log_wf.base_le
  rw [Server.clampApplied, hd.wf.log_wf.lastIndex, ← hd.base]
  omega

theorem Restorable.replay (hd : Restorable m d) (x : σ) :
    Server.replay m d.log (Server.clampApplied d.log d.applied - d.log.baseIndex)
        (d.log.baseIndex + 1) x =
      some (m.after d.log.baseIndex ((d.log.abs.drop d.log.baseIndex).take
        (Server.clampApplied d.log d.applied - d.log.baseIndex)) x) := by
  have hclamp := hd.clamp
  rw [replay_eq m hd.wf.log_wf (le_rfl) (by rw [hd.base]; omega),
    applyAll_segment m hd.wf.log_wf hd.bytes (le_rfl)]

/-- The machine that `Restore` begins the replay with. -/
theorem Restorable.machine (hd : Restorable m d) {x : σ} (hx : d.machine m = some x) :
    m.Reflects (d.log.abs.take d.snapIndex) x := by
  rw [Disk.machine] at hx
  rw [Disk.snapIndex]
  cases hsnap : d.snapshot with
  | none =>
    rw [hsnap] at hx
    cases hx
    exact .new
  | some snap =>
    rw [hsnap] at hx
    obtain ⟨hpre, hhonest⟩ := hd.snapshot snap hsnap
    show m.Reflects (d.log.abs.take snap.lastIncludedIndex) x
    rw [(take_of_isPrefix hpre (hd.wf.snapshot snap hsnap).length_abs).2]
    exact hhonest.reflects hx

/-- **A machine that `Restore` makes** reflects the log through `lastApplied`. -/
theorem Restorable.reflects (hd : Restorable cl.machine d) {p : Process σ}
    (hp : cl.start id d = some p) :
    cl.machine.Reflects (p.server.log.abs.take p.server.lastApplied) p.server.sm := by
  cases started_of_start hp with
  | fresh => exact .new
  | restored st x y hst hx hy =>
    have hclamp := hd.clamp
    have hmax : max d.snapIndex (Server.clampApplied d.log d.applied) =
        d.log.baseIndex + (Server.clampApplied d.log d.applied - d.log.baseIndex) := by
      rw [hd.base]
      omega
    rw [hd.replay] at hy
    cases hy
    show cl.machine.Reflects (d.log.abs.take (max d.snapIndex _)) _
    rw [hmax]
    refine StateMachine.Reflects.segment ?_ (hd.base ▸ hd.machine hx) _
    rw [Log.length_abs]
    exact hd.wf.log_wf.base_le

/-- **`Restore` succeeds** with a machine that honours the contract. -/
theorem Restorable.exists_start (hd : Restorable cl.machine d) (hm : cl.machine.Faithful R)
    (id : NodeID) : ∃ p, cl.start id d = some p := by
  cases hst : d.state with
  | none =>
    rw [Cluster.start, Server.restore, hst]
    exact ⟨_, rfl⟩
  | some st =>
    have hx : ∃ x, d.machine cl.machine = some x := by
      rw [Disk.machine]
      cases hsnap : d.snapshot with
      | none => exact ⟨_, rfl⟩
      | some snap => exact (hd.snapshot snap hsnap).2.exists_restore hm cl.machine.new
    obtain ⟨x, hx⟩ := hx
    rw [start_eq hst, hx, Option.bind_some, hd.replay]
    exact ⟨_, rfl⟩

theorem DiskCovered.base_log (hc : DiskCovered d) (hw : d.WF) :
    d.log.baseIndex = d.snapIndex := by
  have hle : d.saved.log.baseIndex ≤ d.snapIndex := by
    have hbase := hc.base_le
    rw [Disk.logBase] at hbase
    rw [Disk.saved]
    cases hst : d.state with
    | none => exact Nat.zero_le _
    | some st =>
      rw [hst] at hbase
      exact hbase
  rcases d.log_cases with ⟨hlog, hsnap⟩ | ⟨snap, hsnap, hlt, hlog⟩
  · rw [hlog]
    refine Nat.le_antisymm hle ?_
    rw [Disk.snapIndex]
    cases hs : d.snapshot with
    | none => exact Nat.zero_le _
    | some snap => exact hsnap snap hs
  · rw [hlog, Disk.snapIndex, hsnap]
    exact (Server.rebase_cases hw.log.decoded (hw.snapshot snap hsnap) hlt).2.1

theorem hasBytes_log (hbytes : HasBytes d.saved.log.entries) : HasBytes d.log.entries := by
  have hdec : HasBytes d.saved.log.decoded.entries := hbytes.decoded nofun
  rcases d.log_cases with ⟨hlog, -⟩ | ⟨snap, -, -, hlog⟩
  · rw [hlog]
    exact hdec
  · rw [hlog]
    exact hdec.rebase snap

theorem DiskRef.restorable (hd : DiskRef h id d) (hw : d.WF) (hc : DiskCovered d)
    (hbytes : HasBytes d.saved.log.entries)
    (hsnap : ∀ snap, d.snapshot = some snap → snap.Honest m) : Restorable m d where
  wf := hw
  fresh := hd.fresh
  base := hc.base_log hw
  bytes := hasBytes_log hbytes
  snapshot snap hs := ⟨(hd.snapshot snap hs).2, hsnap snap hs⟩

end Start

/-! ## Where snapshots come from -/

section Provenance

variable {w : World σ} {id : NodeID} {p : Process σ} {a : Local} {e : Effect σ}
  {snap : Snapshot}

/-- A snapshot that is sent is the one that the leader holds. -/
theorem Move.snapshot_sent (hm : Move m w id p a e) {c : NodeID × Request × Pending}
    (hc : c ∈ e.calls) (hreq : c.2.1 = .installSnapshot args) :
    p.server.snapshot = some args.snapshot := by
  cases hm.made hc with
  | snapshot peer t args' ht hargs =>
    cases hreq
    exact (sendSnapshotTo_cases hargs).2.2.1
  | vote | entries | beat => cases hreq

variable (P : Snapshot → Prop) in
/-- Every snapshot in the cluster satisfies `P`: those on disk, in memory, about to be saved, and
sent. -/
structure Snapshots (w : World σ) : Prop where
  disk : ∀ id snap, (w.node id).disk.snapshot = some snap → P snap
  held : ∀ id p, (w.node id).proc = some p → ∀ snap, p.server.snapshot = some snap → P snap
  tasks : ∀ id p, (w.node id).proc = some p →
    ∀ snap, .saveSnapshot snap ∈ p.tasks ∨ .compact snap ∈ p.tasks → P snap
  calls : ∀ c ∈ w.calls, ∀ args, c.request = .installSnapshot args → P args.snapshot

variable {P Q : Snapshot → Prop} {w' : World σ}

theorem snapshots_empty (P : Snapshot → Prop) : Snapshots P ({} : World σ) where
  disk _ _ hd := by cases hd
  held _ _ hp := by cases hp
  tasks _ _ hp := by cases hp
  calls _ hc := by cases hc

theorem Snapshots.mono (hS : Snapshots P w) (hPQ : ∀ snap, P snap → Q snap) : Snapshots Q w where
  disk id snap hs := hPQ snap (hS.disk id snap hs)
  held id p hp snap hs := hPQ snap (hS.held id p hp snap hs)
  tasks id p hp snap ht := hPQ snap (hS.tasks id p hp snap ht)
  calls c hc args hreq := hPQ _ (hS.calls c hc args hreq)

theorem Snapshots.installed (hS : Snapshots P w) {src : NodeID}
    (hin : Installs m w id p a e src args) : P args.snapshot := by
  obtain ⟨call, recent, x, -, hcall, -⟩ := hin
  exact hS.calls _ (List.mem_of_getElem? hcall) args rfl

theorem Snapshots.writes (hS : Snapshots P w) (hp : (w.node id).proc = some p)
    (htake : a.takes = true → ∀ threshold snap, p.server.takeSnapshot m threshold = some snap →
      P snap) (hm : Move m w id p a e) (k : Nat)
    (hsnap : ((w.node id).disk.writeAll (e.writes.take k)).snapshot = some snap) : P snap := by
  rcases snapshot_writeAll hsnap with hold | hmem
  · exact hS.disk id snap hold
  · rcases hm.snapshot_mem (List.mem_of_mem_take hmem) with
      ⟨i, -, ht⟩ | ⟨ha, threshold, hs⟩ | ⟨src, args, hin, rfl⟩
    · exact hS.tasks id p hp snap (.inl (List.mem_of_getElem? ht))
    · exact htake ha threshold snap hs
    · exact hS.installed hin

theorem Snapshots.prepares (hS : Snapshots P w) (hp : (w.node id).proc = some p)
    (htake : a.takes = true → ∀ threshold snap, p.server.takeSnapshot m threshold = some snap →
      P snap) (hm : Move m w id p a e)
    (ht : .saveSnapshot snap ∈ e.proc.tasks ∨ .compact snap ∈ e.proc.tasks) : P snap := by
  have hcase {t : Task} (ht : t ∈ e.proc.tasks) (hc : t.compacts = true)
      (hsnap : t = .saveSnapshot snap ∨ t = .compact snap) : P snap := by
    rcases hm.compacts ht hc with hold | ⟨s, rfl, hs, -⟩ | ⟨threshold, s, ha, rfl, hs⟩
    · rcases hsnap with rfl | rfl
      · exact hS.tasks id p hp snap (.inl hold)
      · exact hS.tasks id p hp snap (.inr hold)
    · rcases hsnap with hsnap | hsnap <;> cases hsnap
      exact hS.tasks id p hp snap (.inl hs)
    · rcases hsnap with hsnap | hsnap <;> cases hsnap
      exact htake (by rw [ha]; rfl) threshold snap hs
  rcases ht with ht | ht
  · exact hcase ht rfl (.inl rfl)
  · exact hcase ht rfl (.inr rfl)

theorem start_snapshot {d : Disk} (hp : cl.start id d = some p)
    (hs : p.server.snapshot = some snap) : d.snapshot = some snap := by
  cases started_of_start hp with
  | fresh => cases hs
  | restored => exact hs

/-- **Snapshots are made by `MaybeCompact`** and copied by everything else. -/
theorem Snapshots.step {a : Action} (hS : Snapshots P w)
    (htake : a.takes = true → ∀ id p, (w.node id).proc = some p → ∀ threshold snap,
      p.server.takeSnapshot cl.machine threshold = some snap → P snap) (hs : Stepped cl w a w') :
    Snapshots P w' := by
  have hnode (id : NodeID) :
      (∀ snap, (w'.node id).disk.snapshot = some snap → P snap) ∧
      ∀ p, (w'.node id).proc = some p → (∀ snap, p.server.snapshot = some snap → P snap) ∧
        ∀ snap, .saveSnapshot snap ∈ p.tasks ∨ .compact snap ∈ p.tasks → P snap := by
    have hn := hs.nodeStep id
    generalize w'.node id = n' at hn ⊢
    cases hn with
    | other => exact ⟨hS.disk id, fun p hp => ⟨hS.held id p hp, hS.tasks id p hp⟩⟩
    | boot p hdown hp =>
      refine ⟨hS.disk id, fun q hq => ?_⟩
      cases hq
      refine ⟨fun snap hs => hS.disk id snap (start_snapshot hp hs), fun snap ht => ?_⟩
      rw [(start_id hp).2.2.1] at ht
      rcases ht with ht | ht <;> cases ht
    | crash p hp => exact ⟨hS.disk id, nofun⟩
    | act p a e hp ha =>
      have hm := move_of_act ha
      refine ⟨fun snap hsnap => ?_, fun q hq => ?_⟩
      · refine hS.writes hp (fun ha => htake ha id p hp) hm e.writes.length ?_
        rw [List.take_length]
        exact hsnap
      · cases hq
        refine ⟨fun snap hsnap => ?_,
          fun snap ht => hS.prepares hp (fun ha => htake ha id p hp) hm ?_⟩
        · rcases hm.held hsnap with hold | ⟨-, ht | ⟨ha, threshold, hs⟩ | ⟨src, args, hin, rfl⟩⟩
          · exact hS.held id p hp snap hold
          · exact hS.tasks id p hp snap (.inr ht)
          · exact htake ha id p hp threshold snap hs
          · exact hS.installed hin
        · have hmem {t : Task} (ht : t ∈ (e.proc.spawn (awaiting w.calls.length e.calls)).tasks)
              (hc : t.compacts = true) : t ∈ e.proc.tasks := by
            rcases mem_spawn_awaiting ht with ht | ⟨call, k, rfl⟩
            · exact ht
            · cases hc
          exact ht.imp (hmem · rfl) (hmem · rfl)
    | cut p a k e hp ha =>
      refine ⟨fun snap hsnap => ?_, nofun⟩
      exact hS.writes hp (fun ha => htake ha id p hp) (move_of_act ha) k hsnap
  refine ⟨fun id => (hnode id).1, fun id p hp => ((hnode id).2 p hp).1,
    fun id p hp => ((hnode id).2 p hp).2, ?_⟩
  cases hs with
  | boot | crash | cut => exact hS.calls
  | act id p a e hp ha =>
    intro c hc args hreq
    rcases List.mem_append.1 hc with hc | hc
    · exact hS.calls c hc args hreq
    · obtain ⟨c₀, hc₀, rfl⟩ := List.mem_map.1 hc
      exact hS.held id p hp _ ((move_of_act ha).snapshot_sent hc₀ hreq)

end Provenance

/-! ## Every step -/

section Step

variable {confOf : Bytes → Option (List NodeID)} {C₀ : List NodeID} {h h' : History NodeID Bytes}
  {m : StateMachine σ} {w w' : World σ} {id : NodeID} {p : Process σ} {a : Local} {e : Effect σ}

theorem Applied.reflects {s s' : Server σ} (happ : Applied m s s') (hs : ServerRef h id s)
    (hs' : ServerRef h' id s') (hI : Inv confOf C₀ h) (ho : Only confOf C₀ id h h')
    (hle : s.commitIndex ≤ s'.commitIndex) (hw' : s'.log.WF) (hbytes : HasBytes s'.log.entries)
    (hsm : m.Reflects (s.log.abs.take s.lastApplied) s.sm) :
    m.Reflects (s'.log.abs.take s'.lastApplied) s'.sm := by
  have htake : s'.log.abs.take s.lastApplied = s.log.abs.take s.lastApplied :=
    hs.take_eq hs' hI ho hle hs.applied.le
  have hlen : s.lastApplied ≤ s'.log.abs.length := by
    have hlen' := hs'.length
    have heq := hs.applied
    omega
  rw [← htake] at hsm
  rcases Nat.eq_or_lt_of_le happ.le with heq | hlt
  · rw [happ.sm, ← heq, Nat.sub_self, List.take_zero]
    exact hsm
  · have hrest := hsm.segment hlen (s'.lastApplied - s.lastApplied)
    rw [Nat.add_sub_cancel' happ.le] at hrest
    rw [happ.sm, applyAll_segment m hw' hbytes (happ.base hlt)]
    exact hrest

theorem Installs.reflects {src : NodeID} (hin : Installs m w id p a e src args)
    (hs' : ServerRef h' id e.proc.server) (hwf : args.snapshot.WF)
    (hhonest : args.snapshot.Honest m) :
    m.Reflects (e.proc.server.log.abs.take e.proc.server.lastApplied) e.proc.server.sm := by
  obtain ⟨call, recent, x, -, -, hx, -, -, -, hproc, -⟩ := hin
  obtain ⟨hpre, -⟩ := hs'.snapshot args.snapshot (by rw [hproc]; rfl)
  rw [(take_of_isPrefix (hpre.trans (List.take_prefix _ _)) (by rw [hproc, hwf.length_abs]; rfl)).2,
    hproc]
  exact hhonest.reflects hx

/-- **Every machine reflects its log**, and every snapshot is one of the entries that it covers. -/
structure Mirrored (m : StateMachine σ) (w : World σ) : Prop where
  machine : ∀ id p, (w.node id).proc = some p →
    m.Reflects (p.server.log.abs.take p.server.lastApplied) p.server.sm
  snapshots : Snapshots (Snapshot.Honest m) w

theorem mirrored_empty (m : StateMachine σ) : Mirrored m ({} : World σ) where
  machine _ _ hp := by cases hp
  snapshots := snapshots_empty _

theorem Mirrored.act {beats : Nat → Prop} (hF : Mirrored m w) (hR : Refines confOf C₀ w h)
    (hp : (w.node id).proc = some p) (hm : Move m w id p a e)
    (hsim : Simulated confOf C₀ h w beats id p a e h')
    (hbytes : HasBytes e.proc.server.log.entries) :
    m.Reflects (e.proc.server.log.abs.take e.proc.server.lastApplied) e.proc.server.sm := by
  have hs := ((hR.node id).proc p hp).server
  have hw := hR.wf.proc id p hp
  have hw' := (hw.move hR.wf.calls hm).1
  have hbase : p.server.log.baseIndex ≤ p.server.lastApplied := by
    rw [hs.applied]
    exact hs.base
  rcases hm.applied hw.server.log hbase with happ | ⟨src, args, hin⟩
  · exact happ.reflects hs hsim.server hR.inv hsim.only hsim.commit hw'.server.log hbytes
      (hF.machine id p hp)
  · have hwf : args.snapshot.WF := by
      obtain ⟨call, recent, x, -, hcall, -⟩ := hin
      exact hR.wf.calls _ (List.mem_of_getElem? hcall)
    exact hin.reflects hsim.server hwf (hF.snapshots.installed hin)

theorem Mirrored.step {a : Action} (hF : Mirrored cl.machine w) (hR : Refines confOf C₀ w h)
    (hnil : confOf [] = none) (hcov : ∀ id, NodeCovered (w.node id))
    (hbytes : Carried (fun c => c ≠ some []) w) (hbytes' : Carried (fun c => c ≠ some []) w')
    (hs : exec cl w a = some w') (hord : Ordered confOf C₀ w a) : Mirrored cl.machine w' := by
  obtain ⟨beats, hM⟩ := hR.messages
  have hstep := stepped_of_exec hs
  refine ⟨fun id p' hp' => ?_, hF.snapshots.step (fun _ id p hp threshold snap hsnap =>
    (hR.wf.proc id p hp).server.honest (hF.machine id p hp) hsnap) hstep⟩
  have hb := hbytes'.proc id p' hp'
  cases hstep.procStep hp' with
  | other _ hp' => exact hF.machine id p' hp'
  | boot p hdown hp =>
    exact ((hR.node id).disk.restorable (hR.wf.disk id) (hcov id).disk (hbytes.disk id)
      (hF.snapshots.disk id)).reflects hp
  | act p a e hp ha =>
    obtain ⟨h', hsim⟩ := hR.simulate hM hp hnil ha (hord p hp)
    exact hF.act hR hp (move_of_act ha) hsim hb

/-- The cluster refines a history, and what the machines and the files hold fits the logs. -/
structure Coherent (m : StateMachine σ) (confOf : Bytes → Option (List NodeID)) (C₀ : List NodeID)
    (w : World σ) (h : History NodeID Bytes) : Prop where
  refines : Refines confOf C₀ w h
  mirrored : Mirrored m w
  covered : ∀ id, NodeCovered (w.node id)
  bytes : Carried (fun c => c ≠ some []) w

theorem coherent_empty : Coherent m confOf C₀ ({} : World σ) History.init where
  refines := refines_empty
  mirrored := mirrored_empty m
  covered _ := nodeCovered_empty
  bytes := carried_empty _

theorem Coherent.step {a : Action} (hC : Coherent cl.machine confOf C₀ w h)
    (hnil : confOf [] = none) (hs : exec cl w a = some w') (hsafe : Safe cl.machine w a)
    (hord : Ordered confOf C₀ w a) (hreg : ∀ id, Unregressed id (w.node id) a)
    (hbytes : a.Brings fun c => c ≠ some []) :
    ∃ h', Extends h h' ∧ Coherent cl.machine confOf C₀ w' h' := by
  obtain ⟨h', hx, hR⟩ := hC.refines.step hnil hs hsafe hord
  have hstep := stepped_of_exec hs
  have hbytes' := hC.bytes.step (by nofun) hstep hbytes
  refine ⟨h', hx, hR, ?_, fun id => (hC.covered id).step (hreg id) (hstep.nodeStep id), hbytes'⟩
  exact hC.mirrored.step hC.refines hnil hC.covered hC.bytes hbytes' hs hord

end Step

end CoreBank.Raft
