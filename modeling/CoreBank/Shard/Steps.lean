import Mathlib.Data.List.Infix
import CoreBank.Shard.Coordinator

/-!
# What a step of the coordinator system can do

`Step` lists the effects of `exec` on the world: a call begins, a process goes on with a reply or
by itself, an entry is appended, a group applies one, a process dies.  `step_of_exec` is the only
place where `exec` is unfolded.

The second half is about one group.  `Settles` singles out the entries that carry a decision, and
`GroupInv` reads the machine of a group off its log: what was decided, committed or aborted there
goes back to an entry that says so, and a YES vote is kept until an outcome ends it.
-/

set_option autoImplicit false

namespace CoreBank.Shard

open Ledger Hlc

/-! ## The effects of a step -/

/-- How a proposal of `p` has ended, as far as the world `w` shows. -/
inductive Replied (w : World) (p : Proc) : ProposeReply → Prop
  /-- Nothing was appended. -/
  | refused {rep : ProposeReply} (hwait : p.wait = none)
      (h : rep.isLeader = true → rep.err ≠ none) : Replied w p rep
  /-- The entry was applied and this is its result. -/
  | reported {g : ID} {index : Nat} (hwait : p.wait = some (g, index))
      (happ : index ≤ (w.group g).applied) :
      Replied w p { res := (w.group g).machine.appliedResult index, isLeader := true }
  /-- The process gave up. -/
  | gaveUp {rep : ProposeReply} (hwait : p.wait ≠ none) (h : rep.err ≠ none) : Replied w p rep

/-- The effect of an action on the world. -/
inductive Step (shardFor : AccountID → ID) (w : World) : Action → World → Prop
  | transfer (txID : TxID) (cmd : Ledger.Command) (groups : List ID) (now : Timestamp) :
      Step shardFor w (.transfer txID cmd groups now)
        { w with procs := w.procs ++
          [{ task := .transfer ⟨txID, stamp cmd now, groups⟩
              (Call.route shardFor ⟨txID, stamp cmd now, groups⟩) }] }
  | recover (groups : List ID) (r : Recovery) :
      Step shardFor w (.recover groups)
        { w with procs := w.procs ++ [{ task := .recover r .groupLoop }] }
  | reply {a : Action} {pid : Nat} {p : Proc} {rep : ProposeReply} (hp : w.procs[pid]? = some p)
      (hreq : p.wait = none → ∃ start, a = .propose pid start) (hrep : Replied w p rep) :
      Step shardFor w a
        (w.setProc pid { p with task := p.task.onReply shardFor w.group rep, wait := none })
  | move {a : Action} {pid : Nat} {p : Proc} {t : Task} (hp : w.procs[pid]? = some p)
      (hwait : p.wait = none) (ht : localStep w a p.task = some t) :
      Step shardFor w a (w.setProc pid { p with task := t })
  | append {pid : Nat} {p : Proc} {g : ID} {c : Command} (hp : w.procs[pid]? = some p)
      (hwait : p.wait = none) (hreq : p.task.request shardFor = some (g, c)) :
      Step shardFor w (.propose pid .append)
        ((w.setGroup g { w.group g with log := (w.group g).log ++ [c] }).setProc pid
          { p with wait := some (g, (w.group g).log.length + 1) })
  | apply {g : ID} {gr : Group} (h : (w.group g).applyNext = some gr) :
      Step shardFor w (.apply g) (w.setGroup g gr)
  | crash {pid : Nat} {p : Proc} (hp : w.procs[pid]? = some p) :
      Step shardFor w (.crash pid) (w.setProc pid { p with alive := false })

variable {w : World}

theorem forall_setProc {P : Proc → Prop} (h : ∀ p ∈ w.procs, P p) {pid : Nat} {p' : Proc}
    (hp : P p') : ∀ p ∈ (w.setProc pid p').procs, P p := by
  intro q hq
  rcases List.mem_or_eq_of_mem_set hq with hq | rfl
  · exact h q hq
  · exact hp

theorem forall_addProc {P : Proc → Prop} (h : ∀ p ∈ w.procs, P p) {p' : Proc} (hp : P p') :
    ∀ p ∈ w.procs ++ [p'], P p :=
  List.forall_mem_append.2 ⟨h, List.forall_mem_singleton.2 hp⟩

theorem exec_proc {shardFor : AccountID → ID} {w' : World} {a : Action} {pid : Nat}
    (ha : a.pid? = some pid) (h : exec shardFor w a = some w') :
    ∃ p, w.procs[pid]? = some p ∧ procStep shardFor w pid p a = some w' := by
  unfold exec at h
  rw [ha] at h
  dsimp only at h
  split at h
  next p hp =>
    split at h
    next => exact ⟨p, hp, h⟩
    next => cases h
  next => cases h

/-- **The inversion of `exec`.** -/
theorem step_of_exec {shardFor : AccountID → ID} {w' : World} {a : Action}
    (h : exec shardFor w a = some w') : Step shardFor w a w' := by
  have hlocal {a : Action} {pid : Nat} {p : Proc} (hp : w.procs[pid]? = some p)
      (h : (if p.wait.isNone then
        (localStep w a p.task).map fun t => w.setProc pid { p with task := t } else none)
          = some w') : Step shardFor w a w' := by
    split at h
    next hwait =>
      obtain ⟨t, ht, rfl⟩ := Option.map_eq_some_iff.1 h
      exact .move hp (Option.isNone_iff_eq_none.1 hwait) ht
    next => cases h
  cases a with
  | transfer txID cmd groups now =>
    cases h
    exact .transfer txID cmd groups now
  | recover groups =>
    simp only [exec, Action.pid?] at h
    split at h
    · cases h
      exact .recover groups _
    · cases h
  | apply g =>
    obtain ⟨gr, hgr, rfl⟩ := Option.map_eq_some_iff.1 h
    exact .apply hgr
  | propose pid start =>
    obtain ⟨p, hp, h⟩ := exec_proc rfl h
    unfold procStep at h
    simp only at h
    split at h
    next g c hwait hreq =>
      cases start with
      | fail isLeader err =>
        dsimp only at h
        split at h
        · cases h
        next hne =>
          cases h
          have he : (⟨p.task.onReply shardFor w.group ⟨{}, isLeader, err⟩, p.wait, p.alive⟩ :
              Proc) = { p with task := p.task.onReply shardFor w.group ⟨{}, isLeader, err⟩,
                               wait := none } := by rw [hwait]
          rw [he]
          refine .reply hp (fun _ => ⟨_, rfl⟩) (.refused hwait fun hl hn => hne ⟨hl, ?_⟩)
          exact Option.isNone_iff_eq_none.2 hn
      | append =>
        cases h
        exact .append hp hwait hreq
    next => cases h
  | report pid =>
    obtain ⟨p, hp, h⟩ := exec_proc rfl h
    unfold procStep at h
    simp only at h
    split at h
    next g index hwait =>
      split at h
      next happ =>
        cases h
        exact .reply hp (fun hn => by rw [hwait] at hn; cases hn) (.reported hwait happ)
      next => cases h
    next => cases h
  | timeout pid isLeader err =>
    obtain ⟨p, hp, h⟩ := exec_proc rfl h
    unfold procStep at h
    simp only at h
    split at h
    next x hwait =>
      cases h
      have hne : p.wait ≠ none := by rw [hwait]; exact Option.some_ne_none _
      exact .reply hp (fun hn => absurd hn hne) (.gaveUp hne (Option.some_ne_none _))
    next => cases h
  | crash pid =>
    obtain ⟨p, hp, h⟩ := exec_proc rfl h
    cases h
    exact .crash hp
  | visit pid g isLeader | scan pid order | next pid | ask pid isLeader =>
    obtain ⟨p, hp, h⟩ := exec_proc rfl h
    exact hlocal hp h

/-! ## Worlds -/

theorem group_setGroup_self (w : World) (g : ID) (gr : Group) : (w.setGroup g gr).group g = gr := by
  rw [World.group, World.setGroup, AList.lookup_insert, Option.getD_some]

theorem group_setGroup_ne (w : World) {g g' : ID} (gr : Group) (h : g' ≠ g) :
    (w.setGroup g gr).group g' = w.group g' := by
  rw [World.group, World.setGroup, AList.lookup_insert_ne h, World.group]

@[simp] theorem group_setProc (w : World) (pid : Nat) (p : Proc) (g : ID) :
    (w.setProc pid p).group g = w.group g := rfl

/-- All entries in all logs. -/
def World.logs (w : World) : List Command := w.groups.entries.flatMap fun e => e.2.log

variable {c : Command}

theorem mem_keys_of_log {g : ID} (h : c ∈ (w.group g).log) :
    g ∈ w.groups.keys := by
  by_contra hno
  rw [World.group, AList.lookup_eq_none.2 hno] at h
  cases h

theorem mem_logs : c ∈ w.logs ↔ ∃ g, c ∈ (w.group g).log := by
  rw [World.logs, List.mem_flatMap]
  constructor
  · rintro ⟨⟨g, gr⟩, hmem, hc⟩
    refine ⟨g, ?_⟩
    rw [World.group, AList.mem_lookup_iff.2 hmem, Option.getD_some]
    exact hc
  · rintro ⟨g, hc⟩
    rw [World.group] at hc
    cases hl : w.groups.lookup g with
    | none => rw [hl] at hc; cases hc
    | some gr =>
      rw [hl] at hc
      exact ⟨⟨g, gr⟩, AList.mem_lookup_iff.1 hl, hc⟩

/-! ## Entries that settle a transaction -/

/-- The entry carries a decision for `id`, one way or the other. -/
def Command.Settles (c : Command) (id : TxID) (commit : Bool) : Prop :=
  c.txID = id ∧ c.commit = commit ∧ (c.op = .decision ∨ c.op = .outcome)

instance (c : Command) (id : TxID) (commit : Bool) : Decidable (c.Settles id commit) :=
  inferInstanceAs (Decidable (_ ∧ _))

/-- Some entry of this log settles `id` that way. -/
def Group.HasSettled (gr : Group) (id : TxID) (commit : Bool) : Prop :=
  ∃ c ∈ gr.log, c.Settles id commit

/-- A decision or outcome of that kind for `id` has been appended to some group's log. -/
def World.Appended (w : World) (id : TxID) (commit : Bool) : Prop :=
  ∃ c ∈ w.logs, c.Settles id commit

instance (w : World) (id : TxID) (commit : Bool) : Decidable (w.Appended id commit) :=
  inferInstanceAs (Decidable (∃ c ∈ w.logs, _))

variable {id : TxID}

theorem appended_iff {commit : Bool} :
    w.Appended id commit ↔ ∃ g, (w.group g).HasSettled id commit := by
  constructor
  · rintro ⟨c, hc, hs⟩
    obtain ⟨g, hg⟩ := mem_logs.1 hc
    exact ⟨g, c, hg, hs⟩
  · rintro ⟨g, c, hc, hs⟩
    exact ⟨c, mem_logs.2 ⟨g, hc⟩, hs⟩

/-! ## One entry

The consequences of `TxStep` for the phase and the decision of a transaction.  In each lemma the
machine before the entry accounts for the property, or the entry itself does. -/

namespace Machine

section Apply

variable (m : Machine)

theorem lookup_applyAt (index : Nat) (c : Command) (id : TxID) :
    (m.applyAt index c).txs.lookup id = (m.apply c).1.txs.lookup id := rfl

theorem phase_applyAt (index : Nat) (c : Command) (id : TxID) :
    (m.applyAt index c).phase id = (m.apply c).1.phase id := rfl

theorem decision_applyAt (index : Nat) (c : Command) (id : TxID) :
    (m.applyAt index c).decision id = (m.apply c).1.decision id := rfl

theorem state_applyAt (index : Nat) (c : Command) :
    (m.applyAt index c).state = (m.apply c).1.state := rfl

theorem appliedResult_applyAt_self (index : Nat) (c : Command) :
    (m.applyAt index c).appliedResult index = (m.apply c).2 := by
  dsimp only [applyAt, appliedResult]
  rw [AList.lookup_insert, Option.getD_some]

theorem byIndex_recordResult (key : Str) (res : Result) :
    (m.recordResult key res).byIndex = m.byIndex := by
  unfold recordResult
  split <;> rfl

theorem byIndex_apply (c : Command) : (m.apply c).1.byIndex = m.byIndex := by
  unfold apply
  split
  · exact byIndex_recordResult _ _ _
  · unfold applyPrepare
    repeat' split
    all_goals rfl
  · rfl
  · unfold applyOutcome
    repeat' split
    all_goals rfl
  · rfl

theorem appliedResult_applyAt_ne {i index : Nat} (c : Command) (h : i ≠ index) :
    (m.applyAt index c).appliedResult i = m.appliedResult i := by
  dsimp only [applyAt, appliedResult]
  rw [AList.lookup_insert_ne h, byIndex_apply]

end Apply

theorem phase_of_lookup {m : Machine} {r : Option TxRecord} (h : m.txs.lookup id = r) :
    m.phase id = (r.map TxRecord.phase).getD .none := by
  rw [phase, h]
  cases r <;> rfl

theorem decision_of_lookup {m : Machine} {r : TxRecord} (h : m.txs.lookup id = some r) :
    m.decision id = if r.decided then some r.commit else none := by
  rw [decision, h]

theorem phase_apply_ne (m : Machine) (h : id ≠ c.txID) :
    (m.apply c).1.phase id = m.phase id := by
  rw [phase, lookup_apply_ne m h, phase]

theorem decision_apply_ne (m : Machine) (h : id ≠ c.txID) :
    (m.apply c).1.decision id = m.decision id := by
  rw [decision, lookup_apply_ne m h, decision]

theorem phase_apply (m : Machine) (c : Command) (id : TxID) :
    (m.apply c).1.phase id = m.phase id
      ∨ (c.txID = id ∧ c.op = .prepare ∧ m.phase id = .none
          ∧ ((m.apply c).1.phase id = .prepared ∨ (m.apply c).1.phase id = .aborted))
      ∨ (c.Settles id true ∧ (m.apply c).1.phase id = .committed)
      ∨ (c.Settles id false ∧ (m.apply c).1.phase id = .aborted) := by
  by_cases hid : id = c.txID
  · subst hid
    have hs := txStep_apply m c
    generalize hr : m.txs.lookup c.txID = r at hs
    generalize hr' : (m.apply c).1.txs.lookup c.txID = r' at hs
    rw [phase_of_lookup hr, phase_of_lookup hr']
    have hnone (h : ∀ x, r = some x → x.phase = .none ∧ x.decided = false) :
        (r.map TxRecord.phase).getD .none = .none := by
      cases r with
      | none => rfl
      | some x => exact (h x rfl).1
    cases hs with
    | same => exact .inl rfl
    | yes hop h hp => exact .inr (.inl ⟨rfl, hop, hnone h, .inl hp⟩)
    | no hop h hp => exact .inr (.inl ⟨rfl, hop, hnone h, .inr hp⟩)
    | decision hop hp => exact .inl hp
    | outcome hop ht hp =>
      refine .inr (.inr ?_)
      cases hc : c.commit with
      | true => rw [hc, if_pos rfl] at hp; exact .inl ⟨⟨rfl, hc, .inr hop⟩, hp⟩
      | false => rw [hc] at hp; exact .inr ⟨⟨rfl, hc, .inr hop⟩, hp⟩
  · exact .inl (phase_apply_ne m hid)

theorem decision_apply (m : Machine) (c : Command) (id : TxID) :
    (m.apply c).1.decision id = m.decision id
      ∨ (c.txID = id ∧ c.op = .prepare ∧ m.decision id = none
          ∧ (m.apply c).1.decision id ≠ some true)
      ∨ (c.Settles id c.commit ∧ (m.apply c).1.decision id = some c.commit) := by
  by_cases hid : id = c.txID
  · subst hid
    have hs := txStep_apply m c
    have hnone (h : ∀ x, m.txs.lookup c.txID = some x → x.phase = .none ∧ x.decided = false) :
        m.decision c.txID = none := by
      rw [decision]
      split
      next x hx => rw [(h x hx).2]; rfl
      next => rfl
    generalize hr : m.txs.lookup c.txID = r at hs hnone
    generalize hr' : (m.apply c).1.txs.lookup c.txID = r' at hs
    cases hs with
    | same => left; rw [decision, hr', decision, hr]
    | yes hop h hp hd =>
      refine .inr (.inl ⟨rfl, hop, hnone h, ?_⟩)
      rw [decision_of_lookup hr', hd]
      simp
    | no hop h hp hc =>
      refine .inr (.inl ⟨rfl, hop, hnone h, ?_⟩)
      rw [decision_of_lookup hr', hc]
      split <;> simp
    | decision hop hp hd hc =>
      refine .inr (.inr ⟨⟨rfl, rfl, .inl hop⟩, ?_⟩)
      rw [decision_of_lookup hr', hd, hc]
      rfl
    | outcome hop ht hp hd hc =>
      refine .inr (.inr ⟨⟨rfl, rfl, .inr hop⟩, ?_⟩)
      rw [decision_of_lookup hr', hd, hc]
      rfl
  · exact .inl (decision_apply_ne m hid)

end Machine

/-! ## One group -/

/-- The group has voted YES on `id`, and only an outcome in its log has ended or will end that. -/
def Group.Promised (gr : Group) (id : TxID) : Prop :=
  gr.machine.phase id ≠ .none ∧ (gr.machine.phase id = .aborted → gr.HasSettled id false)

/-- The machine of a group, read off its log. -/
structure GroupInv (gr : Group) : Prop where
  /-- A commit on record goes back to a decision or an outcome. -/
  decided : ∀ id, gr.machine.decision id = some true → gr.HasSettled id true
  committed : ∀ id, gr.machine.phase id = .committed → gr.HasSettled id true
  /-- A transaction is aborted by an outcome or by a NO vote. -/
  aborted : ∀ id, gr.machine.phase id = .aborted →
    gr.HasSettled id false ∨ ∃ c ∈ gr.log, c.op = .prepare ∧ c.txID = id
  /-- A vote reported as YES is a promise. -/
  voted : ∀ i c, i < gr.applied → gr.log[i]? = some c → c.op = .prepare →
    (gr.machine.appliedResult (i + 1)).ok = true → gr.Promised c.txID
  /-- A booked leg goes back to a commit outcome. -/
  booked : ∀ id, Booked gr.machine.state id → gr.HasSettled id true

theorem groupInv_empty : GroupInv {} where
  decided _ h := by cases h
  committed _ h := by cases h
  aborted _ h := by cases h
  voted _ _ h := absurd h (Nat.not_lt_zero _)
  booked _ h := absurd h (not_booked_of_history_nil rfl _)

variable {gr : Group}

theorem Group.HasSettled.append {commit : Bool} (c : Command) (h : gr.HasSettled id commit) :
    { gr with log := gr.log ++ [c] : Group }.HasSettled id commit := by
  obtain ⟨d, hd, hs⟩ := h
  exact ⟨d, List.mem_append_left _ hd, hs⟩

theorem Group.Promised.append (c : Command) (h : gr.Promised id) :
    { gr with log := gr.log ++ [c] : Group }.Promised id :=
  ⟨h.1, fun ha => (h.2 ha).append c⟩

theorem GroupInv.append (h : GroupInv gr) (happ : gr.applied ≤ gr.log.length) (c : Command) :
    GroupInv { gr with log := gr.log ++ [c] } where
  decided id hd := (h.decided id hd).append c
  committed id hc := (h.committed id hc).append c
  aborted id ha := (h.aborted id ha).imp (·.append c) fun ⟨d, hd, hr⟩ =>
    ⟨d, List.mem_append_left _ hd, hr⟩
  voted i d hi hd hop hok := by
    rw [List.getElem?_append_left (Nat.lt_of_lt_of_le hi happ)] at hd
    exact (h.voted i d hi hd hop hok).append c
  booked id hb := (h.booked id hb).append c

theorem applyNext_eq_some {gr' : Group} (h : gr.applyNext = some gr') :
    ∃ c, gr.log[gr.applied]? = some c ∧
      gr' = { gr with applied := gr.applied + 1,
                      machine := gr.machine.applyAt (gr.applied + 1) c } := by
  unfold Group.applyNext at h
  split at h
  next c hc => exact ⟨c, hc, (Option.some.inj h).symm⟩
  next => cases h

theorem Group.Promised.applyNext {gr' : Group} (happ : gr.applyNext = some gr')
    (h : gr.Promised id) : gr'.Promised id := by
  obtain ⟨c, hc, rfl⟩ := applyNext_eq_some happ
  have hmem : c ∈ gr.log := List.mem_of_getElem? hc
  dsimp only [Group.Promised]
  rw [Machine.phase_applyAt]
  rcases gr.machine.phase_apply c id with hp | ⟨-, -, hp, -⟩ | ⟨hs, hp⟩ | ⟨hs, hp⟩
  · rw [hp]; exact h
  · exact absurd hp h.1
  · rw [hp]; exact ⟨Phase.noConfusion, Phase.noConfusion⟩
  · exact ⟨by rw [hp]; exact Phase.noConfusion, fun _ => ⟨c, hmem, hs⟩⟩

theorem GroupInv.applyNext {gr' : Group} (h : GroupInv gr) (happ : gr.applyNext = some gr') :
    GroupInv gr' := by
  have hprom {id : TxID} (hp : gr.Promised id) : gr'.Promised id := hp.applyNext happ
  obtain ⟨c, hc, rfl⟩ := applyNext_eq_some happ
  have hmem : c ∈ gr.log := List.mem_of_getElem? hc
  constructor
  · intro id hd
    rw [Machine.decision_applyAt] at hd
    rcases gr.machine.decision_apply c id with he | ⟨-, -, -, hne⟩ | ⟨hs, he⟩
    · exact h.decided id (he ▸ hd)
    · exact absurd hd hne
    · rw [he, Option.some.injEq] at hd
      exact ⟨c, hmem, hd ▸ hs⟩
  · intro id hp
    rw [Machine.phase_applyAt] at hp
    rcases gr.machine.phase_apply c id with he | ⟨-, -, -, he | he⟩ | ⟨hs, -⟩ | ⟨-, he⟩
    · exact h.committed id (he ▸ hp)
    · rw [he] at hp; cases hp
    · rw [he] at hp; cases hp
    · exact ⟨c, hmem, hs⟩
    · rw [he] at hp; cases hp
  · intro id hp
    rw [Machine.phase_applyAt] at hp
    rcases gr.machine.phase_apply c id with he | ⟨hid, hop, -, -⟩ | ⟨-, he⟩ | ⟨hs, -⟩
    · exact h.aborted id (he ▸ hp)
    · exact .inr ⟨c, hmem, hop, hid⟩
    · rw [he] at hp; cases hp
    · exact .inl ⟨c, hmem, hs⟩
  · intro i d hi hd hop hok
    rcases Nat.lt_succ_iff_lt_or_eq.1 hi with hi | rfl
    · rw [Machine.appliedResult_applyAt_ne _ _ (by omega)] at hok
      exact hprom (h.voted i d hi hd hop hok)
    · -- the entry just applied
      obtain rfl : d = c := Option.some.inj (hd.symm.trans hc)
      rw [Machine.appliedResult_applyAt_self] at hok
      have hp := Machine.phase_of_ok_prepare hop hok
      dsimp only [Group.Promised]
      rw [Machine.phase_applyAt, hp]
      exact ⟨Phase.noConfusion, Phase.noConfusion⟩
  · intro id hb
    rw [Machine.state_applyAt] at hb
    rcases Machine.booked_of_apply hb with hb | ⟨hop, hcm, hid⟩
    · exact h.booked id hb
    · exact ⟨c, hmem, hid, hcm, .inr hop⟩

end CoreBank.Shard
