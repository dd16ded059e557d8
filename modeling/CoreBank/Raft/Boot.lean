import CoreBank.Raft.Compaction
import CoreBank.Raft.Persist
import CoreBank.Storage.Files

/-!
# Starting from the files

`Restore` of the source, from the bytes on disk on: the state record, the snapshot and the applied
marker are read independently of each other, and a snapshot that cannot be read counts as one that
was never taken.  A log that was compacted needs its snapshot, though.  `Restore` does not look
whether there is one that reaches up to the log: it starts the replay at the log's base, and the
entries before it may be in no state machine (`boot_without_hole_iff`).

* `Represents` — the files as what the rest of the development takes for the disk of a server.
-/

set_option autoImplicit false

namespace CoreBank.Raft

open Storage

variable {σ : Type}

/-! ## Restore -/

/-- The last index of 64 bits. -/
def maxIndex : Nat := 2 ^ 64 - 1

/-- The log that `decodeState` makes of its entries; a persisted log always has a sentinel. -/
def Log.ofSlice : List LogEntry → Option Log
  | [] => none
  | sentinel :: entries => some ⟨sentinel, entries, []⟩

namespace Server

/-- The part of `Restore` that reads the snapshot file. -/
def readSnapshot (m : StateMachine σ) (s : Server σ) (f : Files) : Option (Server σ) :=
  match f.loadSnapshot with
  | none => some s
  | some (idx, term, data) => loadSnapshot m s ⟨idx, term, data, []⟩

/-- The part of `Restore` after the snapshot.  The loop of the replay counts in 64 bits and compares
with `<=`: it cannot end at the last index, and goes on to an index that is missing. -/
def replayMarker (m : StateMachine σ) (s : Server σ) (applied : Nat) : Option (Server σ) :=
  if clampApplied s.log applied = maxIndex then none else loadApplied m s applied

/-- `Restore`; an error is `none`. -/
def boot (m : StateMachine σ) (s : Server σ) (f : Files) : Option (Server σ) :=
  match f.load with
  | none | some [] => some s
  | some (x :: data) =>
    match decodeState (x :: data) with
    | .error _ => none
    | .ok (term, votedFor, slice) =>
      (Log.ofSlice slice).bind fun log =>
        ((s.loadState ⟨term, votedFor, log⟩).readSnapshot m f).bind fun s₂ =>
          s₂.replayMarker m f.loadApplied

end Server

/-- The log in the state file, if there is one that can be decoded. -/
def log? (f : Files) : Option Log :=
  match f.load with
  | none | some [] => none
  | some (x :: data) =>
    match decodeState (x :: data) with
    | .error _ => none
    | .ok (_, _, slice) => Log.ofSlice slice

theorem log?_snapshot (f : Files) (file : Option Bytes) :
    log? { f with snapshot := file } = log? f := rfl

/-! ## Holes -/

/-- The machine is that of `x`, which stands for the entries up to `k`, and of every entry from
there up to the last one that counts as applied. -/
def Server.Rebuilt (m : StateMachine σ) (s : Server σ) (k : Nat) (x : σ) : Prop :=
  k ≤ s.lastApplied ∧ ∃ es, es.map LogEntry.index = List.range' (k + 1) (s.lastApplied - k)
    ∧ (∀ e ∈ es, s.log.entryAt e.index = some e) ∧ s.sm = Server.applyAll m es x

/-- The machine was rebuilt from a snapshot that reaches up to the log, or from nothing when the log
is whole. -/
def WithoutHole (m : StateMachine σ) (f : Files) (s : Server σ) : Prop :=
  (∃ idx term data x, f.loadSnapshot = some (idx, term, data)
      ∧ ((log? f).map Log.baseIndex).getD 0 ≤ idx
      ∧ (m.snapshotter.bind fun r => r.restoreSnapshot data m.new) = some x ∧ s.Rebuilt m idx x)
    ∨ (((log? f).map Log.baseIndex).getD 0 = 0 ∧ s.Rebuilt m 0 m.new)

/-- The snapshot file fits the log: it reaches up to it, or the machine refuses it. -/
def Fitting (m : StateMachine σ) (f : Files) (l : Log) : Prop :=
  match f.loadSnapshot with
  | none => l.baseIndex = 0
  | some (idx, _, data) =>
    l.baseIndex ≤ idx ∨ (m.snapshotter.bind fun r => r.restoreSnapshot data m.new) = none

/-! ## The replay -/

variable {l : Log}

theorem Log.Indexed.exists_entryAt (h : l.Indexed) {i : Nat} (hi : l.baseIndex ≤ i)
    (hlast : i < l.lastIndex) : ∃ e, l.entryAt (i + 1) = some e ∧ e.index = i + 1 := by
  have hlen := h.lastIndex
  have hget : i + 1 - l.baseIndex < l.slice.length := by
    rw [Log.slice, List.length_cons]
    omega
  have hentry : l.entryAt (i + 1) = some l.slice[i + 1 - l.baseIndex] := by
    rw [Log.entryAt, if_neg (by omega), Log.slot, List.getElem?_eq_getElem hget]
  exact ⟨_, hentry, h.entryAt hentry⟩

/-- In a log without gaps the replay does not fail, and it applies the entries it is to apply. -/
theorem exists_replay (m : StateMachine σ) (h : l.Indexed) {i n : Nat} (hi : l.baseIndex ≤ i)
    (hlast : i + n ≤ l.lastIndex) (x : σ) :
    ∃ es, es.map LogEntry.index = List.range' (i + 1) n ∧ (∀ e ∈ es, l.entryAt e.index = some e)
      ∧ Server.replay m l n (i + 1) x = some (Server.applyAll m es x) := by
  induction n generalizing i x with
  | zero => exact ⟨[], rfl, nofun, rfl⟩
  | succ n ih =>
    obtain ⟨e, he, hindex⟩ := h.exists_entryAt hi (by omega)
    obtain ⟨es, hes, hmem, hrep⟩ := ih (i := i + 1) (by omega) (by omega) (Server.applyEntry m e x)
    refine ⟨e :: es, ?_, ?_, ?_⟩
    · rw [List.map_cons, hindex, hes, List.range'_succ]
    · intro e' he'
      rcases List.mem_cons.1 he' with rfl | he'
      · rw [hindex, he]
      · exact hmem e' he'
    · rw [Server.replay, he]
      exact hrep

theorem clampApplied_decoded (h : l.Indexed) (applied : Nat) :
    Server.clampApplied l.decoded applied = Server.clampApplied l applied := by
  have hlast : l.decoded.lastIndex = l.lastIndex := by
    rw [h.decoded.lastIndex, h.lastIndex, Log.decoded, List.length_map]
    rfl
  rw [Server.clampApplied, Server.clampApplied, hlast]
  rfl

variable {m : StateMachine σ} {s : Server σ}

/-- The replay starts at the base of the log, wherever the machine stands. -/
theorem replayMarker_eq_some (h : s.log.Indexed) (hle : s.lastApplied ≤ s.log.baseIndex)
    {applied : Nat} (hmax : Server.clampApplied s.log applied ≠ maxIndex) :
    ∃ s', s.replayMarker m applied = some s' ∧ s'.Rebuilt m s.log.baseIndex s.sm := by
  have hlast := h.lastIndex
  have hclamp : s.log.baseIndex ≤ Server.clampApplied s.log applied
      ∧ Server.clampApplied s.log applied ≤ s.log.lastIndex := by
    rw [Server.clampApplied]
    omega
  obtain ⟨es, hes, hmem, hrep⟩ := exists_replay m h (le_rfl)
    (n := Server.clampApplied s.log applied - s.log.baseIndex) (by omega) s.sm
  have happlied : max s.lastApplied (Server.clampApplied s.log applied)
      = Server.clampApplied s.log applied := Nat.max_eq_right (by omega)
  refine ⟨_, by rw [Server.replayMarker, if_neg hmax, Server.loadApplied, hrep]; rfl, ?_⟩
  refine ⟨hclamp.1.trans (Nat.le_max_right _ _), es, ?_, hmem, rfl⟩
  dsimp only
  rw [happlied, hes]

/-! ## What is there before the replay -/

/-- What the machine is built from: the snapshot that was read, or nothing. -/
def Source (m : StateMachine σ) (f : Files) (k : Nat) (x : σ) : Prop :=
  (f.loadSnapshot = none ∧ k = 0 ∧ x = m.new) ∨
    ∃ term data, f.loadSnapshot = some (k, term, data)
      ∧ (m.snapshotter.bind fun r => r.restoreSnapshot data m.new) = some x

/-- The server when it turns to the applied marker. -/
structure Opened (l : Log) (k : Nat) (x : σ) (s : Server σ) : Prop where
  indexed : s.log.Indexed
  base : s.log.baseIndex = max l.baseIndex k
  log : k ≤ l.baseIndex → s.log = l.decoded
  applied : s.lastApplied ≤ s.log.baseIndex
  sm : s.sm = x

variable {f : Files}

theorem fitting_iff_of_source {k : Nat} {x : σ} (h : Source m f k x) (l : Log) :
    Fitting m f l ↔ l.baseIndex ≤ k := by
  rcases h with ⟨hnone, rfl, -⟩ | ⟨term, data, hsome, hx⟩
  · rw [Fitting, hnone]
    exact Nat.le_zero.symm
  · rw [Fitting, hsome]
    dsimp only
    rw [hx]
    exact or_iff_left (Option.some_ne_none x)

theorem withoutHole_iff_of_source {k : Nat} {x : σ} (h : Source m f k x) (hl : log? f = some l)
    (hs : s.Rebuilt m (max l.baseIndex k) x) : WithoutHole m f s ↔ l.baseIndex ≤ k := by
  have hbase : ((log? f).map Log.baseIndex).getD 0 = l.baseIndex := by rw [hl]; rfl
  rw [WithoutHole, hbase]
  constructor
  · rintro (⟨idx, term, data, y, hsnap, hle, -, -⟩ | ⟨h0, -⟩)
    · rcases h with ⟨hnone, -⟩ | ⟨term', data', hsome, -⟩
      · rw [hnone] at hsnap
        cases hsnap
      · rw [hsome] at hsnap
        cases hsnap
        exact hle
    · rw [h0]
      exact Nat.zero_le k
  · intro hle
    rw [Nat.max_eq_right hle] at hs
    rcases h with ⟨-, rfl, rfl⟩ | ⟨term, data, hsome, hx⟩
    · exact .inr ⟨Nat.le_zero.1 hle, hs⟩
    · exact .inl ⟨k, term, data, x, hsome, hle, hx, hs⟩

/-- Without a log nothing is restored, or the record is refused. -/
theorem boot_of_log_none {s' : Server σ} (hl : log? f = none) (h : s.boot m f = some s') :
    s' = s := by
  rw [Server.boot] at h
  rw [log?] at hl
  split at h
  next => exact (Option.some.inj h).symm
  next => exact (Option.some.inj h).symm
  next x data hload =>
    rw [hload] at hl
    dsimp only at hl
    split at h
    next => cases h
    next term votedFor slice hdec =>
      rw [hdec] at hl
      dsimp only at hl
      rw [hl] at h
      cases h

theorem boot_of_log_some (hl : log? f = some l) (m : StateMachine σ) (s : Server σ) :
    ∃ term votedFor, s.boot m f
      = ((s.loadState ⟨term, votedFor, l⟩).readSnapshot m f).bind fun s₂ =>
          s₂.replayMarker m f.loadApplied := by
  rw [log?] at hl
  split at hl
  next => cases hl
  next => cases hl
  next x data hload =>
    split at hl
    next => cases hl
    next term votedFor slice hdec =>
      refine ⟨term, votedFor, ?_⟩
      rw [Server.boot, hload]
      dsimp only
      rw [hdec]
      dsimp only
      rw [hl]
      rfl

/-- Before the replay the snapshot was refused, or the server stands at its source. -/
theorem readSnapshot_cases (m : StateMachine σ) (id : NodeID) (peers : List NodeID) (f : Files)
    {st : Saved} (h : st.log.Indexed) :
    (((Server.new m id peers).loadState st).readSnapshot m f = none ∧ Fitting m f st.log) ∨
      ∃ s k x, ((Server.new m id peers).loadState st).readSnapshot m f = some s
        ∧ Source m f k x ∧ Opened st.log k x s := by
  obtain ⟨_, _, _, _, hf⟩ := (Server.new m id peers).loadState_frame st
  rw [Server.readSnapshot]
  cases hsnap : f.loadSnapshot with
  | none =>
    refine .inr ⟨_, 0, m.new, rfl, .inl ⟨hsnap, rfl, rfl⟩, ?_⟩
    rw [hf]
    exact ⟨h.decoded, (Nat.max_eq_left (Nat.zero_le _)).symm, fun _ => rfl, Nat.zero_le _, rfl⟩
  | some rec =>
    obtain ⟨idx, term, data⟩ := rec
    dsimp only
    rw [Server.loadSnapshot, hf]
    dsimp only [Server.new]
    cases hx : m.snapshotter.bind fun r => r.restoreSnapshot data m.new with
    | none =>
      refine .inl ⟨rfl, ?_⟩
      rw [Fitting, hsnap]
      exact .inr hx
    | some x =>
      refine .inr ⟨_, idx, x, rfl, .inr ⟨term, data, hsnap, hx⟩, ?_⟩
      rcases Nat.lt_or_ge st.log.baseIndex idx with hlt | hge
      · -- the log is cut at the snapshot
        obtain ⟨hri, hrb⟩ := @Log.Indexed.rebase _ ⟨idx, term, data, []⟩ h.decoded
          hlt.le
        have hlog : (if st.log.decoded.baseIndex < idx then
            Server.rebase st.log.decoded ⟨idx, term, data, []⟩ else st.log.decoded)
            = Server.rebase st.log.decoded ⟨idx, term, data, []⟩ := if_pos hlt
        refine ⟨?_, ?_, fun hle => absurd hle (Nat.not_le.2 hlt), ?_, rfl⟩ <;> dsimp only
        · rwa [hlog]
        · rw [hlog, hrb, Nat.max_eq_right hlt.le]
        · rw [hlog, hrb]
      · have hlog : (if st.log.decoded.baseIndex < idx then
            Server.rebase st.log.decoded ⟨idx, term, data, []⟩ else st.log.decoded)
            = st.log.decoded := if_neg (Nat.not_lt.2 hge)
        refine ⟨?_, ?_, fun _ => hlog, ?_, rfl⟩ <;> dsimp only
        · rw [hlog]
          exact h.decoded
        · rw [hlog, Nat.max_eq_left hge]
          rfl
        · rw [hlog]
          exact hge

/-- **Restore never boots on a hole** exactly if the snapshot it can read reaches up to the log, or
the machine refuses it, or the replay would have to end at the last index of 64 bits. -/
theorem boot_without_hole_iff (m : StateMachine σ) (id : NodeID) (peers : List NodeID) (f : Files)
    (hlog : ∀ l, log? f = some l → l.Indexed) :
    (∀ s, (Server.new m id peers).boot m f = some s → WithoutHole m f s) ↔
      ∀ l, log? f = some l →
        Fitting m f l ∨ Server.clampApplied l f.loadApplied = maxIndex := by
  cases hl : log? f with
  | none =>
    refine iff_of_true (fun s hs => .inr ⟨by rw [hl]; rfl, ?_⟩) nofun
    obtain rfl := boot_of_log_none hl hs
    exact ⟨Nat.le_refl 0, [], rfl, nofun, rfl⟩
  | some l =>
    have hix : l.Indexed := hlog l hl
    obtain ⟨term, votedFor, hboot⟩ := boot_of_log_some hl m (Server.new m id peers)
    have hall : (∀ l', some l = some l' →
        Fitting m f l' ∨ Server.clampApplied l' f.loadApplied = maxIndex) ↔
          (Fitting m f l ∨ Server.clampApplied l f.loadApplied = maxIndex) := by simp
    rw [hall, hboot]
    rcases @readSnapshot_cases _ m id peers f ⟨term, votedFor, l⟩ hix with
      ⟨hrefused, hfit⟩ | ⟨s₂, k, x, hread, hsource, hopen⟩
    · rw [hrefused]
      exact iff_of_true nofun (.inl hfit)
    · rw [hread, Option.bind_some, fitting_iff_of_source hsource]
      by_cases hmax : Server.clampApplied s₂.log f.loadApplied = maxIndex
      · -- the replay fails
        have hnone : s₂.replayMarker m f.loadApplied = none := by
          rw [Server.replayMarker, if_pos hmax]
        rw [hnone]
        refine iff_of_true nofun ?_
        rcases Nat.le_total l.baseIndex k with hle | hge
        · exact .inl hle
        · rw [hopen.log hge, clampApplied_decoded hix] at hmax
          exact .inr hmax
      · obtain ⟨s, hs, hrebuilt⟩ := replayMarker_eq_some hopen.indexed hopen.applied hmax
        rw [hopen.base, hopen.sm] at hrebuilt
        have hhole := withoutHole_iff_of_source hsource hl hrebuilt
        rw [hs]
        constructor
        · exact fun hno => .inl (hhole.1 (hno s rfl))
        · rintro (hle | hclamp) s' hs'
          · obtain rfl := Option.some.inj hs'
            exact hhole.2 hle
          · -- the log was cut at the snapshot, or this would be the case above
            obtain rfl := Option.some.inj hs'
            refine hhole.2 (Nat.le_of_not_lt fun hlt => hmax ?_)
            rw [hopen.log hlt.le, clampApplied_decoded hix]
            exact hclamp

/-! ## A log that was compacted -/

/-- The log was cut at index 2; the entry after it has been applied. -/
def compactedLog : Log := ⟨⟨1, 2, none⟩, [⟨1, 3, some [9]⟩], []⟩

/-- The files of a server with that log, without a snapshot file. -/
def compactedFiles : Files :=
  ((({} : Files).save (stateBytes 1 none compactedLog.slice)).saveApplied 3)

theorem indexed_compactedLog : compactedLog.Indexed := by
  intro k e he
  cases k with
  | zero => cases he; rfl
  | succ k => cases he

theorem log?_compactedFiles : log? compactedFiles = some compactedLog := by decide +kernel

/-- With its snapshot the server comes back as it was. -/
theorem boot_compacted :
    ∃ s, (Server.new journal [1] [[1]]).boot journal
      (compactedFiles.saveSnapshot 2 1 [7, 8]) = some s
      ∧ s.lastApplied = 3 ∧ s.sm = [7, 8, 9]
      ∧ WithoutHole journal (compactedFiles.saveSnapshot 2 1 [7, 8]) s := by
  have h : ((Server.new journal [1] [[1]]).boot journal
      (compactedFiles.saveSnapshot 2 1 [7, 8])).map (fun s => (s.lastApplied, s.sm))
        = some (3, [7, 8, 9]) := by decide +kernel
  obtain ⟨s, hs, hp⟩ := Option.map_eq_some_iff.1 h
  obtain ⟨happlied, hsm⟩ := Prod.mk.inj hp
  have hlog (l : Log) (hl : log? (compactedFiles.saveSnapshot 2 1 [7, 8]) = some l) :
      l = compactedLog := by
    rw [Files.saveSnapshot, log?_snapshot, log?_compactedFiles] at hl
    exact (Option.some.inj hl).symm
  have hsnap : (compactedFiles.saveSnapshot 2 1 [7, 8]).loadSnapshot = some (2, 1, [7, 8]) := by
    decide +kernel
  refine ⟨s, hs, happlied, hsm, (boot_without_hole_iff journal [1] [[1]]
    (compactedFiles.saveSnapshot 2 1 [7, 8]) ?_).2 ?_ s hs⟩
  · intro l hl
    rw [hlog l hl]
    exact indexed_compactedLog
  · intro l hl
    rw [hlog l hl, Fitting, hsnap]
    exact .inl (.inl (Nat.le_refl 2))

/-- When the snapshot file is damaged, the server comes back all the same, without the two entries
the snapshot stood for. -/
theorem boot_on_hole :
    ∃ s, (Server.new journal [1] [[1]]).boot journal { compactedFiles with snapshot := some [0] }
        = some s
      ∧ log? { compactedFiles with snapshot := some [0] } = some compactedLog
      ∧ compactedLog.Indexed ∧ s.lastApplied = 3 ∧ s.sm = [9]
      ∧ ¬ WithoutHole journal { compactedFiles with snapshot := some [0] } s := by
  have h : ((Server.new journal [1] [[1]]).boot journal
      { compactedFiles with snapshot := some [0] }).map (fun s => (s.lastApplied, s.sm))
        = some (3, [9]) := by decide +kernel
  obtain ⟨s, hs, hp⟩ := Option.map_eq_some_iff.1 h
  obtain ⟨happlied, hsm⟩ := Prod.mk.inj hp
  have hlog : log? { compactedFiles with snapshot := some [0] } = some compactedLog := by
    rw [log?_snapshot, log?_compactedFiles]
  refine ⟨s, hs, hlog, indexed_compactedLog, happlied, hsm, ?_⟩
  rintro (⟨idx, term, data, x, hsnap, -⟩ | ⟨hbase, -⟩)
  · cases hsnap
  · rw [hlog] at hbase
    cases hbase

/-! ## The disk of the model

The rest of the development takes the disk of a server for the values that were written to it.  The
files hold them as long as their lengths can be written down, and `Restore` makes the same server of
both; the auxiliary parts of logs and snapshots are in no file. -/

/-- The log without its ghost part. -/
def Log.bare (l : Log) : Log := { l with covered := [] }

/-- The snapshot without its ghost part. -/
def Snapshot.bare (snap : Snapshot) : Snapshot := { snap with covered := [] }

/-- The server without its ghost parts. -/
def Server.bare (s : Server σ) : Server σ :=
  { s with log := s.log.bare, snapshot := s.snapshot.map Snapshot.bare }

/-- A write, in bytes; a state too long for a slice ends the process. -/
def writeFile (f : Files) : Write → Option Files
  | .save st => (encodeState st.term st.votedFor st.log.slice).map f.save
  | .saveSnapshot snap =>
    some (f.saveSnapshot snap.lastIncludedIndex snap.lastIncludedTerm snap.data)
  | .saveApplied i => some (f.saveApplied i)

/-- What is written has lengths and numbers that can be written down, and a state that can be read
again. -/
def Write.Fits : Write → Prop
  | .save st => st.term < 2 ^ 64 ∧ (∀ v ∈ st.votedFor, v.length < 2 ^ 16)
    ∧ (∀ e ∈ st.log.slice, e.Fits)
    ∧ (stateBytes st.term st.votedFor st.log.slice).length ≤ maxRecordSize
  | .saveSnapshot snap => snap.lastIncludedIndex < 2 ^ 64 ∧ snap.lastIncludedTerm < 2 ^ 64
    ∧ snap.data.length < 2 ^ 64
  | .saveApplied i => i < 2 ^ 64

/-- The files hold what the disk holds. -/
structure Represents (f : Files) (d : Disk) : Prop where
  unsaved : d.state = none → f.load = none
  saved : ∀ st, d.state = some st → ∃ x data, f.load = some (x :: data)
    ∧ decodeState (x :: data) = .ok (st.term, st.votedFor, st.log.decoded.slice)
  snapshot : f.loadSnapshot
    = d.snapshot.map fun snap => (snap.lastIncludedIndex, snap.lastIncludedTerm, snap.data)
  applied : f.loadApplied = d.applied

theorem represents_empty : Represents {} {} :=
  ⟨fun _ => rfl, nofun, rfl, rfl⟩

variable {d : Disk}

/-- **A write to the files is a write to the disk.** -/
theorem Represents.write {f' : Files} (h : Represents f d) {w : Write} (hw : w.Fits)
    (hf : writeFile f w = some f') : Represents f' (d.write w) := by
  cases w with
  | save st =>
    obtain ⟨hterm, hvote, hlog, hsize⟩ := hw
    obtain ⟨b, hb, rfl⟩ := Option.map_eq_some_iff.1 hf
    obtain ⟨rfl, hlen⟩ := Wire.length_of_buffer hb
    have hload : (f.save (stateBytes st.term st.votedFor st.log.slice)).load
        = some (stateBytes st.term st.votedFor st.log.slice) := by
      rw [Files.save, Files.load, Files.readFramedFile_frameRecord, if_pos hsize]
    have hdecode : decodeState (stateBytes st.term st.votedFor st.log.slice)
        = .ok (st.term, st.votedFor, st.log.decoded.slice) := by
      rw [decodeState, (reads_readState hterm hvote hlog (count_lt hlen)).run]
      rfl
    refine ⟨fun h => by (cases h), ?_, h.snapshot, h.applied⟩
    intro st' hst'
    obtain rfl := Option.some.inj hst'
    cases hbytes : stateBytes st.term st.votedFor st.log.slice with
    | nil =>
      have hpos := length_stateBytes st.term st.votedFor st.log.slice
      rw [hbytes, List.length_nil] at hpos
      omega
    | cons x data =>
      rw [hbytes] at hload hdecode
      exact ⟨x, data, hload, hdecode⟩
  | saveSnapshot snap =>
    obtain rfl := Option.some.inj hf
    exact { h with snapshot := Files.loadSnapshot_saveSnapshot f hw.1 hw.2.1 hw.2.2 }
  | saveApplied i =>
    obtain rfl := Option.some.inj hf
    exact { h with applied := Files.loadApplied_saveApplied f hw }

theorem loadState_bare (s : Server σ) (st : Saved) :
    (s.loadState ⟨st.term, st.votedFor, st.log.decoded.bare⟩).bare = (s.loadState st).bare := by
  have hdec : st.log.decoded.bare.decoded = st.log.decoded.bare :=
    congrArg Log.bare st.log.decoded_decoded
  have hconf : Server.latestConfig st.log.decoded.bare = Server.latestConfig st.log.decoded := rfl
  rw [Server.loadState, Server.loadState, Server.adoptConfigFromLog, Server.adoptConfigFromLog]
  dsimp only
  rw [hdec, hconf]
  cases Server.latestConfig st.log.decoded <;> rfl

theorem rebase_bare (l : Log) (snap : Snapshot) :
    (Server.rebase l.bare snap.bare).bare = (Server.rebase l snap).bare := by
  rw [Server.rebase, Server.rebase,
    show l.bare.entryAt snap.bare.lastIncludedIndex = l.entryAt snap.lastIncludedIndex from rfl]
  cases l.entryAt snap.lastIncludedIndex with
  | none => rfl
  | some e =>
    dsimp only
    by_cases ht : e.term = snap.lastIncludedTerm
    · rw [if_pos ht, if_pos (show e.term = snap.bare.lastIncludedTerm from ht)]
      rfl
    · rw [if_neg ht, if_neg (show ¬ e.term = snap.bare.lastIncludedTerm from ht)]
      rfl

section Bare

variable (m : StateMachine σ)

theorem loadSnapshot_bare (s : Server σ) (snap : Snapshot) :
    (Server.loadSnapshot m s.bare snap.bare).map Server.bare
      = (Server.loadSnapshot m s snap).map Server.bare := by
  rw [Server.loadSnapshot, Server.loadSnapshot,
    show s.bare.sm = s.sm from rfl, show snap.bare.data = snap.data from rfl]
  cases m.snapshotter.bind fun r => r.restoreSnapshot snap.data s.sm with
  | none => rfl
  | some x =>
    have hlog : (if s.bare.log.baseIndex < snap.bare.lastIncludedIndex
        then Server.rebase s.bare.log snap.bare else s.bare.log).bare
        = (if s.log.baseIndex < snap.lastIncludedIndex then Server.rebase s.log snap
          else s.log).bare := by
      by_cases hlt : s.log.baseIndex < snap.lastIncludedIndex
      · rw [if_pos hlt, if_pos (show s.bare.log.baseIndex < snap.bare.lastIncludedIndex from hlt)]
        exact rebase_bare s.log snap
      · rw [if_neg hlt,
          if_neg (show ¬ s.bare.log.baseIndex < snap.bare.lastIncludedIndex from hlt)]
        rfl
    exact congrArg (fun log => some { s with
      sm := x
      snapshot := some snap.bare
      commitIndex := snap.lastIncludedIndex
      lastApplied := snap.lastIncludedIndex
      log := log }) hlog

theorem replay_bare (l : Log) (n i : Nat) (x : σ) :
    Server.replay m l.bare n i x = Server.replay m l n i x := by
  induction n generalizing i x with
  | zero => rfl
  | succ n ih =>
    rw [Server.replay, Server.replay, show l.bare.entryAt i = l.entryAt i from rfl]
    cases l.entryAt i with
    | none => rfl
    | some e => exact ih _ _

theorem loadApplied_bare (s : Server σ) (applied : Nat) :
    Server.loadApplied m s.bare applied = (Server.loadApplied m s applied).map Server.bare := by
  have hclamp : Server.clampApplied s.bare.log applied = Server.clampApplied s.log applied := rfl
  have hbase : s.bare.log.baseIndex = s.log.baseIndex := rfl
  have hreplay := replay_bare m s.log (Server.clampApplied s.log applied - s.log.baseIndex)
    (s.log.baseIndex + 1) s.sm
  rw [Server.loadApplied, Server.loadApplied, hclamp, hbase, Option.map_map]
  exact congrArg (Option.map _) hreplay

theorem loadSnapshot_congr {t : Server σ} (h : s.bare = t.bare) {snap snap' : Snapshot}
    (hsnap : snap.bare = snap'.bare) :
    (Server.loadSnapshot m s snap).map Server.bare
      = (Server.loadSnapshot m t snap').map Server.bare := by
  rw [← loadSnapshot_bare m s, h, hsnap, loadSnapshot_bare]

/-- `Server.readSnapshot` of a disk. -/
def Server.diskSnapshot (m : StateMachine σ) (s : Server σ) (d : Disk) : Option (Server σ) :=
  match d.snapshot with
  | none => some s
  | some snap => loadSnapshot m s snap

theorem restore_of_state (s : Server σ) {st : Saved} (h : d.state = some st) :
    s.restore m d
      = ((s.loadState st).diskSnapshot m d).bind fun s₂ => s₂.loadApplied m d.applied := by
  rw [Server.restore, h]
  rfl

theorem readSnapshot_eq (h : Represents f d) {t : Server σ} (hs : s.bare = t.bare) :
    (s.readSnapshot m f).map Server.bare = (t.diskSnapshot m d).map Server.bare := by
  rw [Server.readSnapshot, Server.diskSnapshot, h.snapshot]
  cases d.snapshot with
  | none => exact congrArg some hs
  | some snap => exact loadSnapshot_congr m hs rfl

end Bare

theorem baseIndex_loadSnapshot {s' : Server σ} {snap : Snapshot}
    (h : Server.loadSnapshot m s snap = some s') :
    s'.log.baseIndex = max s.log.baseIndex snap.lastIncludedIndex := by
  rw [Server.loadSnapshot] at h
  split at h
  next => cases h
  next x _ =>
    obtain rfl := Option.some.inj h
    dsimp only
    split
    next hlt => rw [baseIndex_rebase, Nat.max_eq_right hlt.le]
    next hlt => rw [Nat.max_eq_left (Nat.not_lt.1 hlt)]

/-- The base of the log that is replayed is that of the state file or of the snapshot. -/
theorem baseIndex_diskSnapshot {s' : Server σ} (h : s.diskSnapshot m d = some s') :
    s'.log.baseIndex = max s.log.baseIndex d.snapIndex := by
  rw [Server.diskSnapshot] at h
  rw [Disk.snapIndex]
  split at h
  next hsnap =>
    obtain rfl := Option.some.inj h
    rw [hsnap]
    exact (Nat.max_zero _).symm
  next snap hsnap =>
    rw [hsnap]
    exact baseIndex_loadSnapshot h

/-- **The files start the server that the disk starts**, as long as the replay stays below the last
index of 64 bits. -/
theorem Represents.boot (h : Represents f d) (m : StateMachine σ) (s : Server σ)
    (hlast : max d.applied (max d.logBase d.snapIndex) < maxIndex) :
    (s.boot m f).map Server.bare = (s.restore m d).map Server.bare := by
  cases hstate : d.state with
  | none =>
    rw [Server.boot, h.unsaved hstate, Server.restore, hstate]
  | some st =>
    obtain ⟨x, data, hload, hdecode⟩ := h.saved st hstate
    have hslice : Log.ofSlice st.log.decoded.slice = some st.log.decoded.bare := rfl
    have hread := readSnapshot_eq m h (loadState_bare s st)
    rw [restore_of_state m s hstate, Server.boot, hload]
    dsimp only
    rw [hdecode]
    dsimp only
    rw [hslice, Option.bind_some]
    cases ht : (s.loadState st).diskSnapshot m d with
    | none =>
      rw [ht] at hread
      rw [Option.map_eq_none_iff.1 hread]
      rfl
    | some t =>
      rw [ht] at hread
      obtain ⟨s₂, hs, hbare⟩ := Option.map_eq_some_iff.1 hread
      have hbase : t.log.baseIndex = max d.logBase d.snapIndex := by
        rw [baseIndex_diskSnapshot ht, Server.loadState_log, Disk.logBase, hstate]
        rfl
      have hlog : Server.clampApplied s₂.log d.applied = Server.clampApplied t.log d.applied := by
        change Server.clampApplied s₂.bare.log d.applied = Server.clampApplied t.bare.log d.applied
        rw [hbare]
      have hne : Server.clampApplied s₂.log d.applied ≠ maxIndex := by
        rw [hlog, Server.clampApplied]
        omega
      rw [hs, Option.bind_some, Option.bind_some, Server.replayMarker, h.applied, if_neg hne,
        ← loadApplied_bare, hbare, loadApplied_bare]

theorem Represents.writeAll {ws : List Write} {f' : Files} (h : Represents f d)
    (hws : ∀ x ∈ ws, x.Fits) (hf : ws.foldlM writeFile f = some f') :
    Represents f' (d.writeAll ws) := by
  induction ws generalizing f d with
  | nil =>
    obtain rfl := Option.some.inj hf
    exact h
  | cons x ws ih =>
    obtain ⟨hx, hws⟩ := List.forall_mem_cons.1 hws
    rw [List.foldlM_cons] at hf
    obtain ⟨g, hg, hf⟩ := Option.bind_eq_some_iff.1 hf
    exact ih (h.write hx hg) hws hf

/-- **The files refine the disk.**  After any writes, `Restore` makes of the bytes in the files the
server that the model makes of the values that were written. -/
theorem files_refine_disk (m : StateMachine σ) (s : Server σ) {ws : List Write} {f : Files}
    (hws : ∀ x ∈ ws, x.Fits) (hf : ws.foldlM writeFile {} = some f)
    (hlast : max (Disk.writeAll {} ws).applied
      (max (Disk.writeAll {} ws).logBase (Disk.writeAll {} ws).snapIndex) < maxIndex) :
    (s.boot m f).map Server.bare = (s.restore m (Disk.writeAll {} ws)).map Server.bare :=
  (represents_empty.writeAll hws hf).boot m s hlast

/-- The writes of the compacted server. -/
def compactedWrites : List Write :=
  [.save ⟨1, none, compactedLog⟩, .saveSnapshot ⟨2, 1, [7, 8], []⟩, .saveApplied 3]

theorem files_refine_disk_compacted : ∃ f, compactedWrites.foldlM writeFile {} = some f ∧
    ((Server.new journal [1] [[1]]).boot journal f).map Server.bare
      = ((Server.new journal [1] [[1]]).restore journal (Disk.writeAll {} compactedWrites)).map
        Server.bare := by
  have hlog : ∀ e ∈ compactedLog.slice, e.Fits := by
    simp only [compactedLog, Log.slice, List.forall_mem_cons]
    exact ⟨⟨by decide, by decide, by decide⟩, ⟨by decide, by decide, by decide⟩,
      List.forall_mem_nil _⟩
  have hws : ∀ x ∈ compactedWrites, x.Fits := by
    simp only [compactedWrites, List.forall_mem_cons, Write.Fits]
    exact ⟨⟨by decide, by decide, hlog, by decide +kernel⟩, by decide, by decide,
      List.forall_mem_nil _⟩
  have hf : compactedWrites.foldlM writeFile {}
      = some (compactedFiles.saveSnapshot 2 1 [7, 8]) := rfl
  exact ⟨_, hf, files_refine_disk journal _ hws hf (by decide)⟩

end CoreBank.Raft
