import CoreBank.Raft.Durable

/-!
# The stored snapshot and the discarded prefix

What a log has discarded must be in the stored snapshot, or a restart rebuilds the state machine
from a gap.  `MaybeCompact` saves its snapshot outside the lock, though, and while it does, a
leader's `InstallSnapshot` may have saved a newer one and cut the log there: the late save then
replaces the newer snapshot by the older.

`Unregressed` excludes exactly that, and `snapshot_covers_log` shows that nothing else can go wrong,
at any moment and after any crash.
-/

set_option autoImplicit false

namespace CoreBank.Raft

open ActionSystem

variable {σ : Type}

/-! ## Indices of a log -/

variable {l : Log} {i t : Nat}

namespace Log

/-- The entries after the sentinel are numbered from it on. -/
def Indexed (l : Log) : Prop := ∀ k e, l.entries[k]? = some e → e.index = l.baseIndex + (k + 1)

theorem indexed_empty : empty.Indexed := by
  intro k e h
  cases h

theorem Indexed.lastIndex (h : l.Indexed) :
    l.lastIndex = l.baseIndex + l.entries.length := by
  rw [Log.lastIndex, lastEntry, List.getLast?_eq_getElem?]
  cases hl : l.entries with
  | nil => rfl
  | cons e es =>
    rw [← hl, List.getElem?_eq_getElem (by rw [hl]; exact Nat.lt_succ_self _), Option.getD_some,
      h _ _ (List.getElem?_eq_getElem _)]
    have : 0 < l.entries.length := by rw [hl]; exact Nat.succ_pos _
    omega

theorem Indexed.entryAt (h : l.Indexed) {e : LogEntry} (he : l.entryAt i = some e) :
    e.index = i := by
  rw [Log.entryAt] at he
  split at he
  · cases he
  next hin =>
    rw [slice, slot] at he
    obtain ⟨k, hk⟩ : ∃ k, i = l.baseIndex + k := ⟨i - l.baseIndex, by omega⟩
    rw [hk, Nat.add_sub_cancel_left] at he
    cases k with
    | zero => cases he; exact hk.symm
    | succ k => rw [hk]; exact h k e he

theorem Indexed.push (h : l.Indexed) {cmd : Option Bytes} (hi : i = l.lastIndex + 1) :
    (l.push ⟨t, i, cmd⟩).Indexed := by
  intro k e he
  rw [Log.push] at he
  rcases Nat.lt_or_ge k l.entries.length with hlt | hge
  · rw [List.getElem?_append_left hlt] at he
    exact h k e he
  · rw [List.getElem?_append_right hge, List.getElem?_singleton] at he
    split at he
    next hk =>
      cases he
      have hlast := h.lastIndex
      show i = l.baseIndex + (k + 1)
      omega
    next => cases he

theorem Indexed.take (h : l.Indexed) (n : Nat) :
    Indexed { l with entries := l.entries.take n } := by
  intro k e he
  dsimp only at he
  rw [List.getElem?_take] at he
  split at he
  · exact h k e he
  · cases he

theorem Indexed.discardThrough (h : l.Indexed) (hi : l.baseIndex ≤ i) :
    (l.discardThrough i t).Indexed := by
  intro k e he
  rw [Log.discardThrough] at he
  dsimp only at he
  rw [List.getElem?_drop] at he
  have := h _ e he
  rw [slot] at this
  show e.index = i + (k + 1)
  omega

theorem le_lastIndex_of_entryAt {e : LogEntry} (h : l.entryAt i = some e) :
    l.baseIndex ≤ i ∧ i ≤ l.lastIndex := by
  rw [Log.entryAt] at h
  split at h
  · cases h
  · omega

theorem Indexed.entryAt_none (h : l.Indexed) (hi : l.entryAt i = none) (hbase : l.baseIndex ≤ i) :
    l.lastIndex < i := by
  have hlast := h.lastIndex
  rw [Log.entryAt] at hi
  split at hi
  · omega
  next hin =>
    rw [List.getElem?_eq_none_iff, slice, List.length_cons, slot] at hi
    omega

/-- The log is cut before an entry in conflict, and the new one takes its place. -/
theorem Indexed.overwrite (h : l.Indexed) (hbase : l.baseIndex < i) (hle : i ≤ l.lastIndex)
    (t : Nat) (cmd : Option Bytes) : ((l.truncate i).push ⟨t, i, cmd⟩).Indexed := by
  have hlast := h.lastIndex
  have hcut := (h.take (l.slot i - 1)).lastIndex
  dsimp only [List.length_take] at hcut
  refine (h.take _).push ?_
  rw [hcut, List.length_take, slot]
  show i = l.baseIndex + _ + 1
  omega

theorem Indexed.appendFrom (h : l.Indexed) {prev : Nat} (hprev : prev ≤ l.lastIndex)
    (es : List LogEntry) : (l.appendFrom prev es).1.Indexed := by
  induction es generalizing l prev with
  | nil => exact h
  | cons e es ih =>
    have hlast := h.lastIndex
    rw [Log.appendFrom]
    split
    next hb => exact ih h (by omega)
    next hb =>
      split
      next x hx =>
        have hle := (le_lastIndex_of_entryAt hx).2
        split
        · exact ih h hle
        · refine ih (h.overwrite (by omega) hle _ _) ?_
          rw [lastIndex_push]
      next hx =>
        have hlt := h.entryAt_none hx (by omega)
        refine ih (h.push (by omega)) ?_
        rw [lastIndex_push]

theorem Indexed.decoded (h : l.Indexed) : l.decoded.Indexed := by
  intro k e he
  rw [Log.decoded] at he
  dsimp only at he
  rw [List.getElem?_map] at he
  obtain ⟨x, hx, rfl⟩ := Option.map_eq_some_iff.1 he
  exact h k x hx

theorem le_lastIndex_of_matches (h : l.Indexed) (hm : l.matchesPrevLog i t = true) :
    i ≤ l.lastIndex := by
  have hlast := h.lastIndex
  rw [matchesPrevLog, compactedAway] at hm
  split at hm
  next hb => rw [decide_eq_true_eq] at hb; omega
  next hb =>
    rw [termAt, Log.entryAt] at hm
    by_cases hout : i < l.baseIndex ∨ l.lastIndex < i
    · rw [if_pos hout] at hm
      cases hm
    · omega

end Log

variable {snap : Snapshot}

theorem Log.Indexed.rebase (h : l.Indexed) (hb : l.baseIndex ≤ snap.lastIncludedIndex) :
    (Server.rebase l snap).Indexed ∧ (Server.rebase l snap).baseIndex = snap.lastIncludedIndex := by
  rw [Server.rebase]
  split
  · split
    · exact ⟨h.discardThrough hb, rfl⟩
    · exact ⟨fun _ _ h => by (cases h), rfl⟩
  · exact ⟨fun _ _ h => by (cases h), rfl⟩

/-! ## The condition -/

/-- The base index of the saved log. -/
def Disk.logBase (d : Disk) : Nat := (d.state.map fun st => st.log.baseIndex).getD 0

/-- The snapshot that a section of `MaybeCompact` is about to save. -/
def Process.saving? (p : Process σ) : Local → Option Snapshot
  | .run i =>
    match p.tasks[i]? with
    | some (.saveSnapshot snap) => some snap
    | _ => none
  | _ => none

/-- The server does not save an older snapshot than the one that is stored. -/
def Unregressed (id : NodeID) (n : Node σ) : Action → Prop
  | .act id' a | .cut id' a _ =>
    id' = id → ∀ p ∈ n.proc, ∀ snap ∈ p.saving? a, n.disk.snapIndex ≤ snap.lastIncludedIndex
  | _ => True

instance (id : NodeID) (n : Node σ) (a : Action) : Decidable (Unregressed id n a) := by
  induction a using Action.casesOn <;> unfold Unregressed <;> infer_instance

/-! ## Sections that do not compact -/

/-- The section keeps the base of the log and saves logs with that base only. -/
structure Plain (s s' : Server σ) (ws : List Write) : Prop where
  base : s'.log.baseIndex = s.log.baseIndex
  applied : s.lastApplied ≤ s'.lastApplied
  indexed : s'.log.Indexed
  writes : ∀ w ∈ ws, (∃ st, w = .save st ∧ st.log.baseIndex = s.log.baseIndex ∧ st.log.Indexed) ∨
    ∃ i, w = .saveApplied i

variable {s s' : Server σ} {ws : List Write} {m : StateMachine σ}

namespace Plain

theorem of_log (h : s.log.Indexed) (hlog : s'.log = s.log) (happ : s'.lastApplied = s.lastApplied) :
    Plain s s' [] where
  base := by rw [hlog]
  applied := happ.symm.le
  indexed := by rw [hlog]; exact h
  writes := nofun

theorem persist (h : Plain s s' ws) :
    Plain s s' (s'.persist :: ws) :=
  { h with
    writes := fun w hw => by
      rcases List.mem_cons.1 hw with rfl | hw
      · exact .inl ⟨_, rfl, h.base, h.indexed⟩
      · exact h.writes w hw }

/-- Applying and advancing the commit index come after a section's own changes. -/
theorem then_apply {s₁ s₂ : Server σ} {ws' : List Write} (h : Plain s s₁ ws)
    (hlog : s₂.log = s₁.log) (happ : s₁.lastApplied ≤ s₂.lastApplied)
    (hws : ∀ w ∈ ws', ∃ i, w = .saveApplied i) : Plain s s₂ (ws ++ ws') where
  base := by rw [hlog]; exact h.base
  applied := h.applied.trans happ
  indexed := by rw [hlog]; exact h.indexed
  writes w hw := by
    rcases List.mem_append.1 hw with hw | hw
    · exact h.writes w hw
    · exact .inr (hws w hw)

theorem push (h : s.log.Indexed) {cmd : Option Bytes}
    (hlog : s'.log = s.log.push ⟨t, s.log.lastIndex + 1, cmd⟩)
    (happ : s'.lastApplied = s.lastApplied) : Plain s s' [] where
  base := by rw [hlog]; rfl
  applied := happ.symm.le
  indexed := by rw [hlog]; exact h.push rfl
  writes := nofun

end Plain

/-! ## The invariant -/

/-- The process and its disk: what the log has discarded is stored, and so is what a compaction
under way is going to discard. -/
structure ProcCovered (d : Disk) (p : Process σ) : Prop where
  indexed : p.server.log.Indexed
  saved_le : d.logBase ≤ p.server.log.baseIndex
  base_le : p.server.log.baseIndex ≤ d.snapIndex
  taken : ∀ snap, .saveSnapshot snap ∈ p.tasks → snap.lastIncludedIndex ≤ p.server.lastApplied
  stored : ∀ snap, .compact snap ∈ p.tasks →
    snap.lastIncludedIndex ≤ p.server.lastApplied ∧ snap.lastIncludedIndex ≤ d.snapIndex

/-- The snapshot on disk covers what the log on disk lacks. -/
structure DiskCovered (d : Disk) : Prop where
  base_le : d.logBase ≤ d.snapIndex
  indexed : ∀ st, d.state = some st → st.log.Indexed

/-- Compaction has lost nothing at the node. -/
structure NodeCovered (n : Node σ) : Prop where
  disk : DiskCovered n.disk
  proc : ∀ p, n.proc = some p → ProcCovered n.disk p

variable {d : Disk}

theorem diskCovered_of_plain {b : Nat}
    (hws : ∀ w ∈ ws, (∃ st, w = .save st ∧ st.log.baseIndex = b ∧ st.log.Indexed) ∨
      ∃ i, w = .saveApplied i) (hb : d.logBase ≤ b)
    (hi : ∀ st, d.state = some st → st.log.Indexed) :
    (d.writeAll ws).snapIndex = d.snapIndex ∧ (d.writeAll ws).logBase ≤ b ∧
      ∀ st, (d.writeAll ws).state = some st → st.log.Indexed := by
  induction ws generalizing d with
  | nil => exact ⟨rfl, hb, hi⟩
  | cons w ws ih =>
    have hrest := fun w hw => hws w (List.mem_cons_of_mem _ hw)
    rcases hws w List.mem_cons_self with ⟨st, rfl, hst, hix⟩ | ⟨i, rfl⟩
    · exact ih hrest (d := d.write (.save st))
        hst.le fun st' h' => by cases h'; exact hix
    · exact ih hrest (d := d.write (.saveApplied i)) hb hi

variable {p : Process σ}

section Tasks

variable {p' : Process σ} (h : ProcCovered d p) (hd : DiskCovered d)
  (htaken : ∀ snap, .saveSnapshot snap ∈ p'.tasks → snap.lastIncludedIndex ≤ p.server.lastApplied)
  (hstored : ∀ snap, .compact snap ∈ p'.tasks → .compact snap ∈ p.tasks)

include h hd htaken hstored

theorem ProcCovered.plain (hpl : Plain p.server p'.server ws) :
    ProcCovered (d.writeAll ws) p' ∧ ∀ k, DiskCovered (d.writeAll (ws.take k)) := by
  have hdisk (ws' : List Write) (hsub : ws' ⊆ ws) :=
    diskCovered_of_plain (fun w hw => hpl.writes w (hsub hw)) h.saved_le hd.indexed
  obtain ⟨hsnap, hbase, -⟩ := hdisk ws (List.Subset.refl ws)
  refine ⟨⟨hpl.indexed, ?_, ?_, fun snap hs => ?_, fun snap hs => ?_⟩, fun k => ?_⟩
  · rw [hpl.base]
    exact hbase
  · rw [hpl.base, hsnap]
    exact h.base_le
  · exact (htaken snap hs).trans hpl.applied
  · obtain ⟨h1, h2⟩ := h.stored snap (hstored snap hs)
    exact ⟨h1.trans hpl.applied, by rw [hsnap]; exact h2⟩
  · obtain ⟨hs, hb, hi⟩ := hdisk (ws.take k) (List.take_subset _ _)
    exact ⟨by rw [hs]; exact hb.trans h.base_le, hi⟩

theorem ProcCovered.compact (hp' : p'.server = (p.server.compact snap).1)
    (hsnap : snap.lastIncludedIndex ≤ d.snapIndex) :
    ProcCovered (d.writeAll (p.server.compact snap).2) p' ∧
      ∀ k, DiskCovered (d.writeAll ((p.server.compact snap).2.take k)) := by
  rw [Server.compact] at hp' ⊢
  split at hp'
  next hno =>
    rw [if_pos hno]
    exact h.plain hd htaken hstored (Plain.of_log h.indexed (by rw [hp']) (by rw [hp']))
  next hno =>
    rw [if_neg hno]
    have hb : p.server.log.baseIndex ≤ snap.lastIncludedIndex := by
      rw [not_or] at hno
      omega
    have hix := h.indexed.discardThrough (t := snap.lastIncludedTerm) hb
    have hlog : p'.server.log =
        p.server.log.discardThrough snap.lastIncludedIndex snap.lastIncludedTerm := by rw [hp']
    have happ : p'.server.lastApplied = p.server.lastApplied := by rw [hp']
    refine ⟨⟨by rw [hlog]; exact hix, ?_, ?_, fun s hs => ?_, fun s hs => ?_⟩, fun k => ?_⟩
    · rw [hlog]
      exact le_rfl
    · rw [hlog]
      exact hsnap
    · rw [happ]
      exact htaken s hs
    · rw [happ]
      exact h.stored s (hstored s hs)
    · cases k with
      | zero => exact hd
      | succ k =>
        dsimp only
        rw [List.take_succ_cons, List.take_nil]
        exact ⟨hsnap, fun st hst => by cases hst; exact hix⟩

end Tasks

/-- A new stored snapshot that is not older than anything that relies on it. -/
theorem ProcCovered.saveSnapshot (h : ProcCovered d p)
    (hbase : p.server.log.baseIndex ≤ snap.lastIncludedIndex)
    (hstored : ∀ s, .compact s ∈ p.tasks → s.lastIncludedIndex ≤ snap.lastIncludedIndex) :
    ProcCovered (d.write (.saveSnapshot snap)) p :=
  { h with
    base_le := hbase
    stored := fun s hs => ⟨(h.stored s hs).1, hstored s hs⟩ }

theorem DiskCovered.saveSnapshot (h : DiskCovered d) (hbase : d.logBase ≤ snap.lastIncludedIndex) :
    DiskCovered (d.write (.saveSnapshot snap)) :=
  ⟨hbase, h.indexed⟩

/-- A section that installs a leader's snapshot, which is newer than anything the process knows. -/
theorem ProcCovered.install {p' : Process σ} {x : σ} (h : ProcCovered d p) (hd : DiskCovered d)
    (hlog : s.log = p.server.log) (hbase : p.server.log.baseIndex < snap.lastIncludedIndex)
    (happ : p.server.lastApplied < snap.lastIncludedIndex)
    (hp' : p'.server = s.adoptSnapshot snap x) (htasks : p'.tasks = p.tasks) :
    ProcCovered (d.writeAll [.saveSnapshot snap, (s.adoptSnapshot snap x).persist]) p' ∧
      ∀ k, DiskCovered
        (d.writeAll ([.saveSnapshot snap, (s.adoptSnapshot snap x).persist].take k)) := by
  have hre := h.indexed.rebase hbase.le
  rw [← hlog] at hre
  have hs : DiskCovered (d.write (.saveSnapshot snap)) :=
    hd.saveSnapshot (h.saved_le.trans hbase.le)
  refine ⟨⟨by rw [hp']; exact hre.1, ?_, ?_, fun t ht => ?_, fun t ht => ?_⟩, fun k => ?_⟩
  · rw [hp']
    exact le_rfl
  · rw [hp']
    exact hre.2.le
  · rw [htasks] at ht
    rw [hp']
    exact (h.taken t ht).trans happ.le
  · rw [htasks] at ht
    have ht := (h.stored t ht).1.trans happ.le
    rw [hp']
    exact ⟨ht, ht⟩
  · match k with
    | 0 => exact hd
    | 1 => exact hs
    | k + 2 =>
      rw [List.take_succ_cons, List.take_succ_cons, List.take_nil]
      exact ⟨hre.2.le, fun st hst => by cases hst; exact hre.1⟩

/-- The snapshot of a compaction ends with the last entry that was applied. -/
theorem takeSnapshot_index (h : s.log.Indexed) {threshold : Nat}
    (hs : s.takeSnapshot m threshold = some snap) :
    snap.lastIncludedIndex = s.lastApplied ∧ s.log.baseIndex < s.lastApplied := by
  rw [Server.takeSnapshot] at hs
  split at hs
  · cases hs
  split at hs
  · cases hs
  next hno =>
    split at hs
    next e data he hdata =>
      cases hs
      rw [not_or] at hno
      exact ⟨h.entryAt he, by omega⟩
    next => cases hs

/-- **Every section keeps the discarded prefix stored**, also when it is cut short. -/
theorem ProcCovered.move {w : World σ} {id : NodeID} {a : Local} {e : Effect σ}
    (h : ProcCovered d p) (hd : DiskCovered d)
    (hreg : ∀ snap ∈ p.saving? a, d.snapIndex ≤ snap.lastIncludedIndex) (hm : Move m w id p a e) :
    ProcCovered (d.writeAll e.writes) e.proc ∧ ∀ k, DiskCovered (d.writeAll (e.writes.take k)) := by
  obtain @⟨s₁, s₂, snaps, saves, marker, turn, work, hsaves, finish, hws⟩ := hm.phases
  have htaken (snap : Snapshot) (ht : .saveSnapshot snap ∈ e.proc.tasks) :
      snap.lastIncludedIndex ≤ p.server.lastApplied := by
    rcases hm.compacts ht rfl with hold | ⟨s, hs, -⟩ | ⟨threshold, s, -, hs, htake⟩
    · exact h.taken snap hold
    · cases hs
    · cases hs
      exact Nat.le_of_eq (takeSnapshot_index h.indexed htake).1
  -- only the section that saves a snapshot goes on to discard what it covers
  have hcompact (snap : Snapshot) (ht : .compact snap ∈ e.proc.tasks) :
      .compact snap ∈ p.tasks ∨ (.saveSnapshot snap ∈ p.tasks ∧
        e.writes = [.saveSnapshot snap] ∧ ∃ i, a = .run i) := by
    rcases hm.compacts ht rfl with hold | ⟨s, hs, hrun⟩ | ⟨threshold, s, -, hs, -⟩
    · exact .inl hold
    · cases hs
      exact .inr hrun
    · cases hs
  have hplain (hsnaps : snaps = []) (hpl : Plain p.server s₂ []) :
      ProcCovered (d.writeAll e.writes) e.proc ∧
        ∀ k, DiskCovered (d.writeAll (e.writes.take k)) := by
    obtain ⟨_, _, _, _, _, -, hs', hmark⟩ := finish.frame
    have hpl' : Plain p.server e.proc.server e.writes := by
      have hsaved : Plain p.server s₂ saves := by
        cases hsaves with
        | saved => exact hpl.persist
        | same | unsaved => exact hpl
      rw [hws, hsnaps, List.nil_append]
      exact hsaved.then_apply (by rw [hs']) (by rw [hs']; exact Nat.le_add_right _ _)
        fun w hw => ⟨_, hmark w hw⟩
    refine h.plain hd htaken (fun snap ht => ?_) hpl'
    rcases hcompact snap ht with hold | ⟨-, hone, -⟩
    · exact hold
    · rcases hpl'.writes _ (by rw [hone]; exact List.mem_singleton_self _) with
        ⟨st, hw, -⟩ | ⟨i, hw⟩
      · cases hw
      · cases hw
  cases work with
  | none => exact hplain rfl (.of_log h.indexed turn.log turn.applied.1)
  | tracked => exact hplain rfl (.of_log h.indexed rfl rfl)
  | lead | own | config => exact hplain rfl (.push h.indexed rfl rfl)
  | entries call c recent args _ _ _ _ _ _ _ _ _ hmatch =>
    refine hplain rfl ?_
    rw [Server.received, turn.log]
    exact ⟨congrArg LogEntry.index (Log.sentinel_appendFrom _ _ _),
      turn.applied.1.symm.le,
      h.indexed.appendFrom (Log.le_lastIndex_of_matches h.indexed hmatch) _, List.forall_mem_nil _⟩
  | store i snap ha ht hs hone =>
    subst ha
    have hle := hreg snap (by rw [Process.saving?, ht]; rfl)
    have hsave := h.saveSnapshot (h.base_le.trans hle) fun s hs => (h.stored s hs).2.trans hle
    rw [hone]
    refine ⟨⟨by rw [hs]; exact hsave.indexed, by rw [hs]; exact hsave.saved_le,
      by rw [hs]; exact hsave.base_le, by rw [hs]; exact htaken, fun s ht' => ?_⟩, fun k => ?_⟩
    · rw [hs]
      rcases hcompact s ht' with hold | ⟨hold, hs, -⟩
      · exact hsave.stored s hold
      · rw [hone] at hs
        cases hs
        exact ⟨h.taken snap hold, le_rfl⟩
    · cases k with
      | zero => exact hd
      | succ k =>
        rw [List.take_succ_cons, List.take_nil]
        exact hd.saveSnapshot (hd.base_le.trans hle)
  | compact snap ws hsnap hs hws' =>
    rw [hws']
    rcases hsnap with ⟨ht, rfl⟩ | ⟨threshold, rfl, htake, rfl⟩
    · refine h.compact hd htaken (fun s hs' => ?_) hs (h.stored snap ht).2
      rcases hcompact s hs' with hold | ⟨-, hone, -⟩
      · exact hold
      · rw [hws', List.nil_append, Server.compact] at hone
        split at hone <;> cases hone
    · obtain ⟨hidx, hbase⟩ := takeSnapshot_index h.indexed htake
      have hle : p.server.log.baseIndex ≤ snap.lastIncludedIndex := by omega
      have hsave := h.saveSnapshot hle fun s hs => by rw [hidx]; exact (h.stored s hs).1
      have hdisk := hd.saveSnapshot (h.saved_le.trans hle)
      have hold (s : Snapshot) (ht : .compact s ∈ e.proc.tasks) : .compact s ∈ p.tasks := by
        rcases hcompact s ht with hold | ⟨-, -, i, hrun⟩
        · exact hold
        · cases hrun
      obtain ⟨hproc, hcut⟩ := hsave.compact hdisk htaken hold hs (le_rfl)
      refine ⟨hproc, fun k => ?_⟩
      cases k with
      | zero => exact hd
      | succ k => exact hcut k
  | install src args x hin =>
    obtain ⟨call, recent, y, -, -, -, -, hbase, happ, hproc, hone⟩ := hin
    rw [hone, hproc]
    exact h.install hd turn.log hbase happ rfl rfl

theorem ProcCovered.spawn_await (h : ProcCovered d p) (k : Nat)
    (calls : List (NodeID × Request × Pending)) : ProcCovered d (p.spawn (awaiting k calls)) := by
  have hmem {t : Task} (ht : t ∈ (p.spawn (awaiting k calls)).tasks) (hc : t.compacts = true) :
      t ∈ p.tasks := by
    rcases mem_spawn ht with ht | ht
    · exact ht
    · obtain ⟨c, -, rfl⟩ := List.mem_map.1 ht
      cases hc
  exact { h with
    taken := fun snap hs => h.taken snap (hmem hs rfl)
    stored := fun snap hs => h.stored snap (hmem hs rfl) }

/-- What `Restore` makes of the files: the log as it was saved, or cut at the stored snapshot. -/
theorem start_base {cl : Cluster σ} {id : NodeID} (hd : DiskCovered d)
    (h : cl.start id d = some p) : p.server.log.Indexed ∧ d.logBase ≤ p.server.log.baseIndex ∧
      p.server.log.baseIndex ≤ d.snapIndex := by
  cases started_of_start h with
  | fresh hstate =>
    rw [Disk.logBase, hstate]
    exact ⟨Log.indexed_empty, le_rfl, Nat.zero_le _⟩
  | restored st x y hstate =>
    obtain rfl : d.saved = st := by rw [Disk.saved, hstate]; rfl
    have hix := (hd.indexed _ hstate).decoded
    have hbase : d.logBase = d.saved.log.decoded.baseIndex := by
      rw [Disk.logBase, hstate]
      rfl
    show d.log.Indexed ∧ d.logBase ≤ d.log.baseIndex ∧ d.log.baseIndex ≤ d.snapIndex
    rcases d.log_cases with ⟨hlog, -⟩ | ⟨snap, hsnap, hlt, hlog⟩
    · rw [hlog, ← hbase]
      exact ⟨hix, le_rfl, hd.base_le⟩
    · obtain ⟨hri, hrb⟩ := hix.rebase hlt.le
      rw [hlog, hbase, hrb, Disk.snapIndex, hsnap]
      exact ⟨hri, hlt.le, le_rfl⟩

/-! ## Every run -/

theorem NodeCovered.step {cl : Cluster σ} {w : World σ} {id : NodeID} {n n' : Node σ} {a : Action}
    (h : NodeCovered n) (hreg : Unregressed id n a) (hstep : NodeStep cl w id n a n') :
    NodeCovered n' := by
  cases hstep with
  | other => exact h
  | boot p hdown hp =>
    refine ⟨h.disk, fun q hq => ?_⟩
    cases hq
    obtain ⟨hix, hsaved, hbase⟩ := start_base h.disk hp
    have hnone := (start_id hp).2.2.1
    exact ⟨hix, hsaved, hbase, by rw [hnone]; exact nofun, by rw [hnone]; exact nofun⟩
  | crash p hp => exact ⟨h.disk, nofun⟩
  | act p a e hp ha =>
    obtain ⟨hproc, hcut⟩ := (h.proc p hp).move h.disk (hreg rfl p hp) (move_of_act ha)
    have hwhole := hcut e.writes.length
    rw [List.take_length] at hwhole
    refine ⟨hwhole, fun q hq => ?_⟩
    cases hq
    exact hproc.spawn_await _ _
  | cut p a k e hp ha =>
    obtain ⟨-, hcut⟩ := (h.proc p hp).move h.disk (hreg rfl p hp) (move_of_act ha)
    exact ⟨hcut k, nofun⟩

theorem nodeCovered_empty : NodeCovered ({} : Node σ) :=
  ⟨⟨le_rfl, nofun⟩, nofun⟩

/-- **The stored snapshot covers the discarded prefix** of the stored log, as long as no older
snapshot is saved over a newer one. -/
theorem snapshot_covers_log (cl : Cluster σ) (id : NodeID) {as : List (World σ × Action)}
    {n : Node σ}
    (hrun : Run (fun n x n' => ServerStep cl id n x n' ∧ Unregressed id n x.2) {} as n) :
    n.disk.logBase ≤ n.disk.snapIndex := by
  have hinv : NodeCovered n :=
    hrun.invariant (fun n x n' hs h => h.step hs.2 hs.1.nodeStep) nodeCovered_empty
  exact hinv.disk.base_le

/-! ## The late save -/

/-- Server 3 has applied the first entry and has taken a snapshot of it, which it has not saved; the
leader, server 1, has compacted through the second entry and has sent its own snapshot. -/
def lateSave : List Action :=
  leaderOfThree ++
    -- the no-op of server 1 reaches server 3, is committed, and server 3 learns that
    [.run [1] 2, .deliver [3] 2, .receive [1] 2 1, .heartbeat [1], .run [1] 2, .run [1] 3,
    .deliver [3] 3, .act [3] (.takeSnapshot 0),
    -- a command is committed with server 2 and compacted away
    .act [1] (.submit [7]), .run [1] 1, .deliver [2] 4, .receive [1] 4 3,
    .act [1] (.maybeCompact 0), .run [1] 3, .run [1] 4, .run [1] 4]

/-- The snapshot of the leader arrives before the save: the older snapshot replaces the newer one,
and the second entry is in neither file. -/
theorem late_save_uncovers_log :
    ∃ xs n, Run (ServerStep (journalCluster [[1], [2], [3]]) [3]) {} xs n ∧
      n.disk.snapIndex < n.disk.logBase := by
  obtain ⟨w, hrun, hlt⟩ : ∃ w, Run (fun w a w' =>
        exec (journalCluster [[1], [2], [3]]) w a = some w' ∧ True) {}
        (lateSave ++ [.deliver [3] 5, .run [3] 0]) w ∧
      (w.node [3]).disk.snapIndex < (w.node [3]).disk.logBase :=
    exists_run_guarded (by decide +kernel)
  obtain ⟨xs, hxs⟩ := serverRun_of_run [3] (P := fun _ _ => True) hrun
  exact ⟨xs, _, hxs.mono fun _ _ _ h => h.1, hlt⟩

/-- With the save before the arrival, the snapshot covers what the log has discarded. -/
theorem snapshot_covers_log_early_save :
    ∃ xs n, Run (fun n x n' => ServerStep (journalCluster [[1], [2], [3]]) [3] n x n' ∧
        Unregressed [3] n
          x.2) {} xs n ∧ n.disk.logBase = 2 ∧ n.disk.logBase ≤ n.disk.snapIndex := by
  obtain ⟨w, hrun, hbase⟩ : ∃ w, Run (fun w a w' =>
        exec (journalCluster [[1], [2], [3]]) w a = some w' ∧ Unregressed [3] (w.node [3]) a) {}
        (lateSave ++ [.run [3] 0, .deliver [3] 5, .run [3] 0]) w ∧
      (w.node [3]).disk.logBase = 2 := exists_run_guarded (by decide +kernel)
  obtain ⟨xs, hxs⟩ := serverRun_of_run [3] hrun
  exact ⟨xs, _, hxs, hbase, snapshot_covers_log _ _ hxs⟩

end CoreBank.Raft
