import CoreBank.Raft.Applied

/-!
# Who waits for an entry

A caller of `WaitApplied` gets a channel that is to be closed once the entry at its index has been
applied.  `applyCommitted` closes the channels that are due, as the last thing it does;
`WaitApplied` itself closes one that is due at once.  `InstallSnapshot` also moves `lastApplied`,
and closes nothing: whoever waits for an index it covers goes on waiting until the next entry is
applied.
-/

set_option autoImplicit false

namespace CoreBank.Raft

open ActionSystem

variable {σ : Type}

/-! ## The channels of a process -/

/-- The channels that `WaitApplied` has returned, numbered in that order. -/
structure Waiters where
  /-- The index that each channel is for. -/
  made : List Nat := []
  /-- `applyWaiters`: the indices that are registered, each with a channel. -/
  waiting : List (Nat × Nat) := []
  /-- The calls of `close`, in order. -/
  closed : List Nat := []
deriving DecidableEq

namespace Waiters

/-- A closed channel if the index is applied already. -/
def waitApplied (wt : Waiters) (lastApplied idx : Nat) : Waiters :=
  let ch := wt.made.length
  if idx ≤ lastApplied then { wt with made := wt.made ++ [idx], closed := wt.closed ++ [ch] }
  else { wt with made := wt.made ++ [idx], waiting := wt.waiting ++ [(idx, ch)] }

/-- Closes the channels whose index is applied. -/
def signalApplied (wt : Waiters) (lastApplied : Nat) : Waiters :=
  { wt with
    waiting := wt.waiting.filter fun x => !decide (x.1 ≤ lastApplied)
    closed := wt.closed ++ (wt.waiting.filter fun x => decide (x.1 ≤ lastApplied)).map Prod.snd }

/-- No channel is closed before its index has been reached. -/
structure Heard (wt : Waiters) (applied : Nat) : Prop where
  waiting : ∀ x ∈ wt.waiting, wt.made[x.2]? = some x.1
  closed : ∀ ch ∈ wt.closed, ∃ idx, wt.made[ch]? = some idx ∧ idx ≤ applied

/-- The channels fit what has been applied: each is either closed, once, or registered, and it is
closed if its index has been reached. -/
structure Fits (wt : Waiters) (applied : Nat) : Prop where
  channels : (wt.closed ++ wt.waiting.map Prod.snd).Perm (List.range wt.made.length)
  waiting : ∀ x ∈ wt.waiting, wt.made[x.2]? = some x.1 ∧ applied < x.1
  closed : ∀ ch ∈ wt.closed, ∀ idx, wt.made[ch]? = some idx → idx ≤ applied

variable {wt : Waiters} {applied applied' : Nat}

theorem made_waitApplied (wt : Waiters) (applied idx : Nat) :
    (wt.waitApplied applied idx).made = wt.made ++ [idx] := by
  rw [waitApplied]
  split <;> rfl

theorem getElem?_waitApplied {ch i : Nat} (hch : wt.made[ch]? = some i) (applied idx : Nat) :
    (wt.waitApplied applied idx).made[ch]? = some i := by
  rw [made_waitApplied, List.getElem?_append_left (List.getElem?_eq_some_iff.1 hch).1]
  exact hch

theorem getElem?_waitApplied_self (wt : Waiters) (applied idx : Nat) :
    (wt.waitApplied applied idx).made[wt.made.length]? = some idx := by
  rw [made_waitApplied]
  exact List.getElem?_concat_length

theorem heard_empty (applied : Nat) : Heard {} applied := ⟨nofun, nofun⟩

theorem Heard.le (h : wt.Heard applied) {ch idx : Nat} (hc : ch ∈ wt.closed)
    (hch : wt.made[ch]? = some idx) : idx ≤ applied := by
  obtain ⟨i, hi, hle⟩ := h.closed ch hc
  rw [hch, Option.some.injEq] at hi
  rw [hi]
  exact hle

theorem Heard.mono (h : wt.Heard applied) (hle : applied ≤ applied') : wt.Heard applied' where
  waiting := h.waiting
  closed ch hc := by
    obtain ⟨idx, hch, hidx⟩ := h.closed ch hc
    exact ⟨idx, hch, hidx.trans hle⟩

theorem Heard.signalApplied (h : wt.Heard applied) (hle : applied ≤ applied') :
    (wt.signalApplied applied').Heard applied' where
  waiting x hx := h.waiting x (List.mem_filter.1 hx).1
  closed ch hc := by
    rcases List.mem_append.1 hc with hc | hc
    · exact (h.mono hle).closed ch hc
    · obtain ⟨x, hx, rfl⟩ := List.mem_map.1 hc
      obtain ⟨hx, hdue⟩ := List.mem_filter.1 hx
      exact ⟨x.1, h.waiting x hx, of_decide_eq_true hdue⟩

theorem Heard.waitApplied (h : wt.Heard applied) (idx : Nat) :
    (wt.waitApplied applied idx).Heard applied := by
  have hnew := getElem?_waitApplied_self wt applied idx
  have hwait (x : Nat × Nat) (hx : x ∈ wt.waiting) :=
    getElem?_waitApplied (h.waiting x hx) applied idx
  have hold (ch : Nat) (hc : ch ∈ wt.closed) :
      ∃ i, (wt.waitApplied applied idx).made[ch]? = some i ∧ i ≤ applied := by
    obtain ⟨i, hch, hle⟩ := h.closed ch hc
    exact ⟨i, getElem?_waitApplied hch applied idx, hle⟩
  rw [Waiters.waitApplied] at hnew hwait hold ⊢
  split at hnew
  next hle =>
    rw [if_pos hle] at hwait hold ⊢
    refine ⟨hwait, fun ch hc => ?_⟩
    rcases List.mem_append.1 hc with hc | hc
    · exact hold ch hc
    · rw [List.mem_singleton.1 hc]
      exact ⟨idx, hnew, hle⟩
  next hgt =>
    rw [if_neg hgt] at hwait hold ⊢
    refine ⟨fun x hx => ?_, hold⟩
    rcases List.mem_append.1 hx with hx | hx
    · exact hwait x hx
    · rw [List.mem_singleton.1 hx]
      exact hnew

theorem fits_empty (applied : Nat) : Fits {} applied := ⟨.refl _, nofun, nofun⟩

theorem Fits.heard (h : wt.Fits applied) : wt.Heard applied where
  waiting x hx := (h.waiting x hx).1
  closed ch hc := by
    have hlt := List.mem_range.1 (h.channels.mem_iff.1 (List.mem_append_left _ hc))
    have hch := List.getElem?_eq_getElem hlt
    exact ⟨_, hch, h.closed ch hc _ hch⟩

theorem Heard.fits (h : wt.Heard applied)
    (hperm : (wt.closed ++ wt.waiting.map Prod.snd).Perm (List.range wt.made.length))
    (hlater : ∀ x ∈ wt.waiting, applied < x.1) : wt.Fits applied where
  channels := hperm
  waiting x hx := ⟨h.waiting x hx, hlater x hx⟩
  closed _ hc _ hch := h.le hc hch

section Fits

variable (h : wt.Fits applied)

include h

/-- A channel is closed exactly if its index has been reached. -/
theorem Fits.mem_closed_iff {ch idx : Nat} (hch : wt.made[ch]? = some idx) :
    ch ∈ wt.closed ↔ idx ≤ applied := by
  refine ⟨fun hc => h.closed ch hc idx hch, fun hle => ?_⟩
  have hlt : ch < wt.made.length := (List.getElem?_eq_some_iff.1 hch).1
  rcases List.mem_append.1 (h.channels.mem_iff.2 (List.mem_range.2 hlt)) with hc | hc
  · exact hc
  · obtain ⟨x, hx, rfl⟩ := List.mem_map.1 hc
    obtain ⟨hmade, hdue⟩ := h.waiting x hx
    rw [hch, Option.some.injEq] at hmade
    omega

theorem Fits.nodup_closed : wt.closed.Nodup :=
  (h.channels.nodup_iff.2 List.nodup_range).sublist (List.sublist_append_left _ _)

theorem Fits.raise (hle : applied ≤ applied') (hno : ∀ x ∈ wt.waiting, applied' < x.1) :
    wt.Fits applied' where
  channels := h.channels
  waiting x hx := ⟨(h.waiting x hx).1, hno x hx⟩
  closed ch hc idx hch := (h.closed ch hc idx hch).trans hle

theorem Fits.signalApplied (hle : applied ≤ applied') :
    (wt.signalApplied applied').Fits applied' := by
  refine (h.heard.signalApplied hle).fits (List.Perm.trans ?_ h.channels) fun x hx => ?_
  · show ((wt.closed ++ _) ++ _).Perm _
    rw [List.append_assoc, ← List.map_append]
    exact .append_left _ ((List.filter_append_perm _ _).map _)
  · obtain ⟨-, hlt⟩ := List.mem_filter.1 hx
    rw [Bool.not_eq_true', decide_eq_false_iff_not] at hlt
    exact Nat.lt_of_not_le hlt

theorem Fits.waitApplied (idx : Nat) : (wt.waitApplied applied idx).Fits applied := by
  have hperm : (wt.closed ++ wt.waiting.map Prod.snd ++ [wt.made.length]).Perm
      (List.range (wt.waitApplied applied idx).made.length) := by
    rw [made_waitApplied, List.length_append, List.length_singleton, List.range_succ]
    exact h.channels.append_right _
  refine (h.heard.waitApplied idx).fits (List.Perm.trans ?_ hperm) fun x hx => ?_
  · rw [Waiters.waitApplied]
    split
    · show (wt.closed ++ [wt.made.length] ++ _).Perm _
      rw [List.append_assoc, List.append_assoc]
      exact .append_left _ List.perm_append_comm
    · show (wt.closed ++ (wt.waiting ++ [(idx, wt.made.length)]).map Prod.snd).Perm _
      rw [List.map_append, ← List.append_assoc]
      exact .refl _
  · rw [Waiters.waitApplied] at hx
    split at hx
    next hle => exact (h.waiting x hx).2
    next hgt =>
      rcases List.mem_append.1 hx with hx | hx
      · exact (h.waiting x hx).2
      · rw [List.mem_singleton.1 hx]
        exact Nat.lt_of_not_le hgt

/-! ## When the channels are closed -/

/-- `applyCommitted` writes the applied marker and then signals; nothing else does either. -/
def written (wt : Waiters) (ws : List Write) : Waiters :=
  ws.foldl (fun wt w => match w with
    | .saveApplied i => wt.signalApplied i
    | _ => wt) wt

/-- The channels after a section whose markers are all of what has been applied at its end. -/
theorem Fits.written (hle : applied ≤ applied') {ws : List Write}
    (hall : ∀ i, .saveApplied i ∈ ws → i = applied')
    (hmark : applied < applied' → .saveApplied applied' ∈ ws) : (wt.written ws).Fits applied' := by
  induction ws generalizing wt applied with
  | nil =>
    have heq : applied = applied' := by
      by_contra hne
      exact absurd (hmark (Nat.lt_of_le_of_ne hle hne)) List.not_mem_nil
    rw [← heq]
    exact h
  | cons w ws ih =>
    have hall' : ∀ i, .saveApplied i ∈ ws → i = applied' := fun i hi =>
      hall i (List.mem_cons_of_mem _ hi)
    rcases w with st | snap | i
    · exact ih h hle hall' fun hlt => (List.mem_cons.1 (hmark hlt)).resolve_left nofun
    · exact ih h hle hall' fun hlt => (List.mem_cons.1 (hmark hlt)).resolve_left nofun
    · rw [hall i List.mem_cons_self]
      exact ih (h.signalApplied hle) (le_rfl) hall' fun hlt => absurd hlt (Nat.lt_irrefl _)

end Fits

theorem Heard.written (h : wt.Heard applied) (hle : applied ≤ applied') {ws : List Write}
    (hall : ∀ i, .saveApplied i ∈ ws → i = applied') : (wt.written ws).Heard applied' := by
  induction ws generalizing wt applied with
  | nil => exact h.mono hle
  | cons w ws ih =>
    have hall' : ∀ i, .saveApplied i ∈ ws → i = applied' := fun i hi =>
      hall i (List.mem_cons_of_mem _ hi)
    rcases w with st | snap | i
    · exact ih h hle hall'
    · exact ih h hle hall'
    · rw [hall i List.mem_cons_self]
      exact ih (h.signalApplied hle) (le_rfl) hall'

theorem made_written (wt : Waiters) (ws : List Write) : (wt.written ws).made = wt.made := by
  induction ws generalizing wt with
  | nil => rfl
  | cons w ws ih => cases w <;> exact ih _

end Waiters

/-! ## What a section applies -/

/-- `lastApplied` has not gone back, everything committed is applied, and if `lastApplied` has moved
then the marker says where to. -/
structure Server.Reached (s s' : Server σ) (ws : List Write) : Prop where
  le : s.lastApplied ≤ s'.lastApplied
  commit : s'.commitIndex ≤ s'.lastApplied
  marked : s.lastApplied < s'.lastApplied → .saveApplied s'.lastApplied ∈ ws
  base : s'.log.baseIndex = s.log.baseIndex

namespace Server.Reached

variable {s s₁ s' : Server σ} {m : StateMachine σ} {ws : List Write}

theorem of_eq (hcommit : s.commitIndex ≤ s.lastApplied) (happ : s'.lastApplied = s.lastApplied)
    (heq : s'.commitIndex = s.commitIndex) (hbase : s'.log.baseIndex = s.log.baseIndex) :
    Reached s s' ws where
  le := happ.symm.le
  commit := by rw [happ, heq]; exact hcommit
  marked hlt := absurd hlt (by omega)
  base := hbase

theorem of_start (h : Reached s₁ s' ws) (happ : s₁.lastApplied = s.lastApplied)
    (hbase : s₁.log.baseIndex = s.log.baseIndex) (ws₁ : List Write) : Reached s s' (ws₁ ++ ws) where
  le := happ ▸ h.le
  commit := h.commit
  marked hlt := List.mem_append_right _ (h.marked (happ.symm ▸ hlt))
  base := h.base.trans hbase

/-- The loop does not end early: every entry that is to be applied is there. -/
theorem applyCommitted (hw : s.log.WF) (hbase : s.log.baseIndex ≤ s.lastApplied)
    (hlen : s.commitIndex ≤ s.log.logical.length) :
    Reached s (s.applyCommitted m).1 (s.applyCommitted m).2 := by
  have hloop : (applyLoop m (s.commitIndex - s.lastApplied) s).lastApplied =
        max s.lastApplied s.commitIndex ∧
      (applyLoop m (s.commitIndex - s.lastApplied) s).commitIndex = s.commitIndex ∧
      (applyLoop m (s.commitIndex - s.lastApplied) s).log = s.log := by
    rcases Nat.le_total s.commitIndex s.lastApplied with hle | hle
    · rw [Nat.sub_eq_zero_of_le hle, applyLoop, Nat.max_eq_left hle]
      exact ⟨rfl, rfl, rfl⟩
    · rw [applyLoop_eq m hw hbase (by omega), Nat.max_eq_right hle]
      exact ⟨by dsimp only; omega, rfl, rfl⟩
  obtain ⟨happ, hcommit, hlog⟩ := hloop
  rw [Server.applyCommitted]
  refine ⟨by rw [happ]; omega, by rw [happ, hcommit]; omega, fun hlt => ?_, by rw [hlog]⟩
  dsimp only at hlt ⊢
  rw [if_pos ⟨by omega, by rw [happ, hcommit]; omega⟩]
  exact List.mem_singleton_self _

end Server.Reached

variable {m : StateMachine σ} {p : Process σ} {id : NodeID}

/-- **What a section applies**, unless it discards a prefix of the log or installs a snapshot. -/
theorem Move.reached {w : World σ} {a : Local} {e : Effect σ} (hm : Move m w id p a e)
    (hw : p.server.log.WF) (hbase : p.server.log.baseIndex ≤ p.server.lastApplied)
    (hcommit : p.server.commitIndex ≤ p.server.lastApplied) :
    p.server.Reached e.proc.server e.writes ∨
      (∃ snap, (.compact snap ∈ p.tasks ∨
          ∃ threshold, p.server.takeSnapshot m threshold = some snap) ∧
        e.proc.server = (p.server.compact snap).1) ∨
      ∃ src args, Installs m w id p a e src args := by
  obtain @⟨s₁, s₂, snaps, saves, marker, turn, work, -, finish, hws⟩ := hm.phases
  obtain ⟨happ, hcommit₁, -⟩ := turn.applied
  rcases work.steady with ⟨happ₂, hcommit₂, -, hbase₂⟩ | hcompact | hin
  · rw [turn.log] at hbase₂
    rcases work.wf_log turn.log hw with hw₂ | hin
    · left
      rcases finish.applies hw hw₂ with ⟨hs', -⟩ | ⟨c, role, removed, hc, hs', hmark⟩
      · rw [hs']
        exact .of_eq hcommit (happ₂.trans happ) (hcommit₂.trans hcommit₁) hbase₂
      · have hr := Server.Reached.applyCommitted (m := m) (s := { s₂ with commitIndex := c }) hw₂
          (by rw [hbase₂, happ₂, happ]; exact hbase) hc
        have hlast : s₂.Reached e.proc.server marker := by
          rw [hs', hmark]
          exact ⟨hr.le, hr.commit, hr.marked, hr.base⟩
        rw [hws]
        exact hlast.of_start (happ₂.trans happ) hbase₂ (snaps ++ saves)
    · exact .inr (.inr hin)
  · exact .inr (.inl hcompact)
  · exact .inr (.inr hin)

/-! ## Everything committed is applied -/

/-- Everything committed was applied, and nothing else is discarded, or going to be. -/
structure Process.Caught (p : Process σ) : Prop where
  commit : p.server.commitIndex ≤ p.server.lastApplied
  base : p.server.log.baseIndex ≤ p.server.lastApplied
  task : ∀ snap, .saveSnapshot snap ∈ p.tasks ∨ .compact snap ∈ p.tasks →
    snap.lastIncludedIndex ≤ p.server.lastApplied

variable {cl : Cluster σ}

namespace Process.Caught

variable {m : StateMachine σ} {w : World σ} {id : NodeID} {p : Process σ} {a : Local} {e : Effect σ}

theorem spawn (h : p.Caught) (n : Nat) (calls : List (NodeID × Request × Pending)) :
    (p.spawn (awaiting n calls)).Caught :=
  ⟨h.commit, h.base, fun snap ht => h.task snap (compacting_of_awaiting ht)⟩

/-- **A section leaves the process caught up**, and signals what it has applied unless a snapshot
brought it. -/
theorem move (h : p.Caught) (hw : p.WF) (hm : Move m w id p a e) :
    e.proc.Caught ∧ ((p.server.lastApplied ≤ e.proc.server.lastApplied ∧
        (p.server.lastApplied < e.proc.server.lastApplied →
          .saveApplied e.proc.server.lastApplied ∈ e.writes)) ∨
      ∃ src args, Installs m w id p a e src args) := by
  have htask (hle : p.server.lastApplied ≤ e.proc.server.lastApplied) (snap : Snapshot)
      (ht : .saveSnapshot snap ∈ e.proc.tasks ∨ .compact snap ∈ e.proc.tasks) :
      snap.lastIncludedIndex ≤ e.proc.server.lastApplied := by
    rcases hm.compacting ht with hold | ⟨threshold, hs⟩
    · exact (h.task snap hold).trans hle
    · rw [(hw.server.takeSnapshot hs).2.1]
      exact hle
  rcases hm.reached hw.server.log h.base h.commit with hr | ⟨snap, hsnap, hs⟩ | ⟨src, args, hin⟩
  · refine ⟨⟨hr.commit, ?_, htask hr.le⟩, .inl ⟨hr.le, hr.marked⟩⟩
    rw [hr.base]
    exact h.base.trans hr.le
  · have hle : snap.lastIncludedIndex ≤ p.server.lastApplied := by
      rcases hsnap with hold | ⟨threshold, htake⟩
      · exact h.task snap (.inr hold)
      · exact Nat.le_of_eq (hw.server.takeSnapshot htake).2.1
    have hkept : e.proc.server.lastApplied = p.server.lastApplied ∧
        e.proc.server.commitIndex = p.server.commitIndex ∧
        e.proc.server.log.baseIndex ≤ p.server.lastApplied := by
      rw [hs, Server.compact]
      split
      · exact ⟨rfl, rfl, h.base⟩
      · exact ⟨rfl, rfl, hle⟩
    obtain ⟨happ, hcommit, hbase⟩ := hkept
    exact ⟨⟨by rw [happ, hcommit]; exact h.commit, by rw [happ]; exact hbase,
      htask happ.symm.le⟩, .inl ⟨happ.symm.le, fun hlt => by omega⟩⟩
  · refine ⟨?_, .inr ⟨src, args, hin⟩⟩
    obtain ⟨call, recent, x, -, -, -, -, -, happ, hproc, -⟩ := hin
    have hserver : e.proc.server.lastApplied = args.snapshot.lastIncludedIndex ∧
        e.proc.server.commitIndex = max p.server.commitIndex args.snapshot.lastIncludedIndex ∧
        e.proc.server.log.baseIndex = args.snapshot.lastIncludedIndex := by
      rw [hproc]
      refine ⟨rfl, ?_, baseIndex_rebase _ _⟩
      show max (p.server.heedSnapshot args.term args.leaderID).commitIndex _ = _
      rw [Server.heedSnapshot_frame]
    obtain ⟨happ', hcommit, hbase⟩ := hserver
    refine ⟨?_, by omega, htask (by omega)⟩
    rw [happ', hcommit]
    exact Nat.max_le.2 ⟨h.commit.trans happ.le, le_rfl⟩

theorem start {d : Disk} (hd : d.WF) (hp : cl.start id d = some p) : p.Caught := by
  have hw := (Process.WF.start hd hp).server.log
  have htask : ∀ snap, .saveSnapshot snap ∈ p.tasks ∨ .compact snap ∈ p.tasks →
      snap.lastIncludedIndex ≤ p.server.lastApplied := by
    rw [(start_id hp).2.2.1]
    exact fun _ ht => by simp at ht
  cases started_of_start hp with
  | fresh => exact ⟨Nat.le_refl 0, Nat.le_refl 0, htask⟩
  | restored =>
    have hbase : d.log.baseIndex ≤ d.log.lastIndex := hw.lastIndex ▸ hw.base_le
    refine ⟨le_rfl, ?_, htask⟩
    show d.log.baseIndex ≤ max d.snapIndex (min (max d.applied d.log.baseIndex) d.log.lastIndex)
    omega

end Process.Caught

/-! ## The cluster with its channels -/

/-- The cluster, and the channels of each of its processes. -/
structure Awaited (σ : Type) where
  world : World σ := {}
  waiters : NodeID → Waiters := fun _ => {}

/-- What may happen. -/
inductive WaitAction
  /-- Somebody in the process of server `id` calls `WaitApplied`. -/
  | wait (id : NodeID) (idx : Nat)
  | step (a : Action)
deriving DecidableEq

/-- The channels after a step of the cluster.  Those of a process are gone with it. -/
def Awaited.after (w : Awaited σ) (m : StateMachine σ) : Action → NodeID → Waiters
  | .act id a =>
    match (w.world.node id).proc.bind fun p => p.act m w.world id a with
    | some e => Function.update w.waiters id ((w.waiters id).written e.writes)
    | none => w.waiters
  | .boot id | .crash id | .cut id _ _ => Function.update w.waiters id {}

/-- `WaitApplied` at server `id`. -/
def Awaited.wait (w : Awaited σ) (id : NodeID) (lastApplied idx : Nat) : Awaited σ :=
  { w with waiters := Function.update w.waiters id ((w.waiters id).waitApplied lastApplied idx) }

/-- One step. -/
def waitExec (cl : Cluster σ) (w : Awaited σ) : WaitAction → Option (Awaited σ)
  | .wait id idx => (w.world.node id).proc.map fun p => w.wait id p.server.lastApplied idx
  | .step a =>
    (exec cl w.world a).map fun world => { world := world, waiters := w.after cl.machine a }

/-- What a step makes of a process, and of its channels. -/
inductive ChannelStep (cl : Cluster σ) (w : Awaited σ) (id : NodeID) :
    Action → Process σ → Waiters → Prop
  | other {a : Action} {p : Process σ} (hid : a.id ≠ id) (hp : (w.world.node id).proc = some p) :
      ChannelStep cl w id a p (w.waiters id)
  | boot (p : Process σ) (hp : cl.start id (w.world.node id).disk = some p) :
      ChannelStep cl w id (.boot id) p {}
  | act (p : Process σ) (a : Local) (e : Effect σ) (hp : (w.world.node id).proc = some p)
      (hact : p.act cl.machine w.world id a = some e) :
      ChannelStep cl w id (.act id a) (e.proc.spawn (awaiting w.world.calls.length e.calls))
        ((w.waiters id).written e.writes)

theorem Awaited.after_of_ne (w : Awaited σ) (m : StateMachine σ) {a : Action} (hid : a.id ≠ id) :
    w.after m a id = w.waiters id := by
  cases a with
  | act x a =>
    rw [Awaited.after]
    generalize (w.world.node x).proc.bind _ = e
    cases e with
    | none => rfl
    | some e => exact Function.update_of_ne (Ne.symm hid) _ _
  | boot x | crash x | cut x a k => exact Function.update_of_ne (Ne.symm hid) _ _

variable {w : Awaited σ}

theorem Awaited.channelStep {world : World σ} {a : Action} (hs : exec cl w.world a = some world)
    {p' : Process σ} (hp' : (world.node id).proc = some p') :
    ChannelStep cl w id a p' (w.after cl.machine a id) := by
  cases (stepped_of_exec hs).procStep hp' with
  | other hid hp' =>
    rw [w.after_of_ne cl.machine hid]
    exact .other hid hp'
  | boot p hdown hp =>
    rw [Awaited.after, Function.update_self]
    exact .boot _ hp
  | act p a e hp hact =>
    rw [Awaited.after, hp, Option.bind_some, hact]
    dsimp only
    rw [Function.update_self]
    exact .act p a e hp hact

/-- The servers are caught up, and nobody is woken early. -/
structure Attended (w : Awaited σ) : Prop where
  wf : WellFormed w.world
  caught : ∀ id p, (w.world.node id).proc = some p → p.Caught
  heard : ∀ id p, (w.world.node id).proc = some p → (w.waiters id).Heard p.server.lastApplied

theorem attended_empty : Attended ({} : Awaited σ) :=
  ⟨wellFormed_empty, fun _ _ h => by (cases h), fun _ _ h => by (cases h)⟩

/-- All markers that a section writes are of what it has applied at its end. -/
theorem Move.marker {w : World σ} {a : Local} {e : Effect σ} (hm : Move m w id p a e) {i : Nat}
    (hi : .saveApplied i ∈ e.writes) :
    i = e.proc.server.lastApplied := by
  cases hm.saves with
  | kept _ _ hmarker | saved _ _ _ _ hmarker => exact hmarker i hi
  | unsaved hearly hws =>
    rw [hws] at hi
    cases hi

theorem forall_wait {P : Process σ → Waiters → Prop}
    (h : ∀ id p, (w.world.node id).proc = some p → P p (w.waiters id)) {x : NodeID}
    {q : Process σ} (hq : (w.world.node x).proc = some q) {idx : Nat}
    (hwait : P q (w.waiters x) → P q ((w.waiters x).waitApplied q.server.lastApplied idx))
    (id : NodeID) (p : Process σ) (hp : (w.world.node id).proc = some p) :
    P p ((w.wait x q.server.lastApplied idx).waiters id) := by
  rw [Awaited.wait]
  dsimp only
  by_cases hid : id = x
  · subst hid
    rw [hp] at hq
    cases hq
    rw [Function.update_self]
    exact hwait (h id _ hp)
  · rw [Function.update_of_ne hid]
    exact h id p hp

theorem Attended.wait (h : Attended w) (hp : (w.world.node id).proc = some p) (idx : Nat) :
    Attended (w.wait id p.server.lastApplied idx) :=
  ⟨h.wf, h.caught, forall_wait (P := fun p wt => wt.Heard p.server.lastApplied) h.heard hp
    fun hheard => hheard.waitApplied idx⟩

theorem Attended.step {world : World σ} {a : Action} (h : Attended w)
    (hs : exec cl w.world a = some world) :
    Attended { world := world, waiters := w.after cl.machine a } := by
  refine ⟨h.wf.step (stepped_of_exec hs), fun id p' hp' => ?_, fun id p' hp' => ?_⟩
  · have hst := Awaited.channelStep hs hp'
    generalize w.after cl.machine a id = wt' at hst
    cases hst with
    | other hid hp => exact h.caught id p' hp
    | boot _ hp => exact .start (h.wf.disk id) hp
    | act p a e hp hact =>
      exact ((h.caught id p hp).move (h.wf.proc id p hp) (move_of_act hact)).1.spawn _ _
  · have hst := Awaited.channelStep hs hp'
    dsimp only
    generalize w.after cl.machine a id = wt' at hst ⊢
    cases hst with
    | other hid hp => exact h.heard id p' hp
    | boot _ hp => exact Waiters.heard_empty _
    | act p a e hp hact =>
      have hm := move_of_act hact
      refine (h.heard id p hp).written ?_ fun i hi => hm.marker hi
      rcases ((h.caught id p hp).move (h.wf.proc id p hp) hm).2 with ⟨hle, -⟩ | ⟨src, args, hin⟩
      · exact hle
      · obtain ⟨call, recent, x, -, -, -, -, -, happ, hproc, -⟩ := hin
        show p.server.lastApplied ≤ e.proc.server.lastApplied
        rw [hproc]
        exact happ.le

/-- A snapshot that the request brings is installed only if nobody waits for what it covers. -/
def Request.unawaited (m : StateMachine σ) (s : Server σ) (wt : Waiters) : Request → Bool
  | .installSnapshot args => !s.installs m args ||
      wt.waiting.all fun x => decide (args.snapshot.lastIncludedIndex < x.1)
  | _ => true

/-- Nobody waits for what an installed snapshot covers. -/
def Unawaited (m : StateMachine σ) (w : Awaited σ) : WaitAction → Prop
  | .step (.act id (.deliver call _)) =>
    ∀ p ∈ (w.world.node id).proc, ∀ c ∈ w.world.calls[call]?,
      c.request.unawaited m p.server (w.waiters id) = true
  | _ => True

instance (m : StateMachine σ) (w : Awaited σ) (a : WaitAction) : Decidable (Unawaited m w a) := by
  unfold Unawaited
  split <;> infer_instance

/-- The servers are caught up, and the channels fit. -/
structure Signalled (w : Awaited σ) : Prop where
  wf : WellFormed w.world
  caught : ∀ id p, (w.world.node id).proc = some p → p.Caught
  fits : ∀ id p, (w.world.node id).proc = some p → (w.waiters id).Fits p.server.lastApplied

theorem signalled_empty : Signalled ({} : Awaited σ) :=
  ⟨wellFormed_empty, fun _ _ h => by (cases h), fun _ _ h => by (cases h)⟩

theorem Signalled.attended (h : Signalled w) : Attended w :=
  ⟨h.wf, h.caught, fun id p hp => (h.fits id p hp).heard⟩

theorem Signalled.wait (h : Signalled w) (hp : (w.world.node id).proc = some p) (idx : Nat) :
    Signalled (w.wait id p.server.lastApplied idx) :=
  ⟨h.wf, h.caught, forall_wait (P := fun p wt => wt.Fits p.server.lastApplied) h.fits hp
    fun hfits => hfits.waitApplied idx⟩

theorem Signalled.act (h : Signalled w) {a : Local} {e : Effect σ}
    (hp : (w.world.node id).proc = some p) (hact : p.act m w.world id a = some e)
    (ha : Unawaited m w (.step (.act id a))) :
    ((w.waiters id).written e.writes).Fits e.proc.server.lastApplied := by
  have hm := move_of_act hact
  have hfits := h.fits id p hp
  rcases ((h.caught id p hp).move (h.wf.proc id p hp) hm).2 with ⟨hle, hmark⟩ | ⟨src, args, hin⟩
  · exact hfits.written hle (fun i hi => hm.marker hi) hmark
  · obtain ⟨call, recent, x, rfl, hc, hx, hterm, hb, happ, hproc, hws⟩ := hin
    have hlast : e.proc.server.lastApplied = args.snapshot.lastIncludedIndex := by
      rw [hproc]
      rfl
    have hinst : p.server.installs m args = true := by
      rw [Server.installs, hx, decide_eq_true hterm, decide_eq_true hb, decide_eq_true happ]
      rfl
    have hlater := ha p hp _ hc
    rw [Request.unawaited, hinst, Bool.not_true, Bool.false_or, List.all_eq_true] at hlater
    rw [hws, hlast]
    exact hfits.raise happ.le fun y hy => of_decide_eq_true (hlater y hy)

theorem Signalled.step {world : World σ} {a : Action} (h : Signalled w)
    (hs : exec cl w.world a = some world) (ha : Unawaited cl.machine w (.step a)) :
    Signalled { world := world, waiters := w.after cl.machine a } := by
  have hatt := h.attended.step hs
  refine ⟨hatt.wf, hatt.caught, fun id p' hp' => ?_⟩
  have hst := Awaited.channelStep hs hp'
  dsimp only
  generalize w.after cl.machine a id = wt' at hst ⊢
  cases hst with
  | other hid hp => exact h.fits id p' hp
  | boot _ hp => exact Waiters.fits_empty _
  | act p a e hp hact => exact h.act hp hact ha

/-- **Everybody who waits for an entry is woken when it has been applied**, in every run in which no
snapshot is installed that covers an index somebody waits for: no index that is registered has been
reached, a channel is closed exactly if its index has been, and no channel is closed twice. -/
theorem waiters_woken {cl : Cluster σ} {as : List WaitAction} {w : Awaited σ}
    (hrun : Run (fun w a w' => waitExec cl w a = some w' ∧ Unawaited cl.machine w a) {} as w)
    {id : NodeID} {p : Process σ} (hp : (w.world.node id).proc = some p) :
    (∀ x ∈ (w.waiters id).waiting, p.server.lastApplied < x.1) ∧
      (∀ ch idx, (w.waiters id).made[ch]? = some idx →
        (ch ∈ (w.waiters id).closed ↔ idx ≤ p.server.lastApplied)) ∧
      (w.waiters id).closed.Nodup := by
  have h : Signalled w := by
    refine hrun.invariant (fun w a w' hs h => ?_) signalled_empty
    obtain ⟨hs, ha⟩ := hs
    cases a with
    | wait id idx =>
      obtain ⟨p, hp, rfl⟩ := Option.map_eq_some_iff.1 hs
      exact h.wait hp idx
    | step a =>
      obtain ⟨world, hworld, rfl⟩ := Option.map_eq_some_iff.1 hs
      exact h.step hworld ha
  have hfits := h.fits id p hp
  exact ⟨fun x hx => (hfits.waiting x hx).2, fun ch idx hch => hfits.mem_closed_iff hch,
    hfits.nodup_closed⟩

/-- Server 3 leads and appends a command at index 2, which nobody gets.  Server 1 is elected by
server 2, commits its own command at index 2, discards it, and sends server 3 the snapshot. -/
def overtaken : List Action :=
  [.boot [1], .boot [2], .boot [3], .timeout [3], .run [3] 0, .deliver [1] 0, .receive [3] 0 0,
    .run [3] 1, .run [3] 1, .run [3] 1, .act [3] (.submit [7]), .timeout [1], .run [1] 0,
    .deliver [2] 2, .receive [1] 0 1, .run [1] 1, .run [1] 1, .run [1] 1, .act [1] (.submit [8]),
    .run [1] 1, .deliver [2] 4, .receive [1] 3 2, .act [1] (.maybeCompact 0), .run [1] 1,
    .run [1] 2, .deliver [3] 5]

/-- A run in which somebody calls `WaitApplied` on a server after `n` of the actions. -/
def waitAfter (n : Nat) (id : NodeID) (idx : Nat) (as : List Action) : List WaitAction :=
  (as.take n).map .step ++ .wait id idx :: (as.drop n).map .step

/-- Whoever waits for the second command is woken. -/
theorem waiters_woken_second :
    ∃ w p, Run (fun w a w' => waitExec (journalCluster [[1], [2], [3]]) w a = some w' ∧
        Unawaited journal w a) {} (waitAfter 19 [1] 2 overtaken) w ∧
      (w.world.node [1]).proc = some p ∧ (w.waiters [1]).made[0]? = some 2 ∧
      p.server.lastApplied = 2 ∧ 0 ∈ (w.waiters [1]).closed := by
  refine exists_run_guarded_imp (R := fun w p => (w.waiters [1]).made[0]? = some 2 ∧
    p.server.lastApplied = 2) (by decide +kernel) ?_
  rintro w p hrun hp ⟨hmade, happ⟩
  have hclosed := (waiters_woken hrun hp).2.1 0 2 hmade
  exact ⟨hmade, happ, hclosed.2 (by omega)⟩

/-- Whoever waits for the first one, on the server that was overtaken, is not, though the index has
been applied. -/
theorem snapshot_forgets_waiter :
    ∃ w p, Run (fun w a w' => waitExec (journalCluster [[1], [2], [3]]) w a = some w') {}
        (waitAfter 11 [3] 2 overtaken) w ∧
      (w.world.node [3]).proc = some p ∧ p.server.lastApplied = 2 ∧
      (w.waiters [3]).made[0]? = some 2 ∧ (2, 0) ∈ (w.waiters [3]).waiting ∧
      0 ∉ (w.waiters [3]).closed :=
  exists_run_some (by decide +kernel)

end CoreBank.Raft
