import CoreBank.Shard.Turns

/-!
# Atomic commitment

Is a cross-shard transfer ever committed at one participant and aborted at the other?  It is, in two
ways.  A retry meets a record that is already decided, takes the refusal for a NO vote and aborts
what the first attempt committed.  And recovery, finding no decision *applied* at the coordinator
shard, presumes abort while a transfer is still on its way to commit.

`Undisputed` excludes exactly these proposals, and `atomic_commitment` shows that nothing else is
needed: `Inv` follows every YES vote from the log of its shard into the call that counts it, and
from there into the decision.
-/

set_option autoImplicit false

namespace CoreBank.Shard

open Ledger Hlc ActionSystem

/-! ## The conditions on a run -/

/-- The call a task runs, if it is one of `Transfer`. -/
def Task.call? : Task → Option Call
  | .transfer c _ => some c
  | .recover _ _ => none

/-- A repeated transaction id comes with the same request, as a retry does. -/
def SameCommand (w : World) : Action → Prop
  | .transfer txID cmd _ _ =>
    ∀ p ∈ w.procs, ∀ c ∈ p.task.call?, c.txID = txID → c.cmd.SameRequest cmd
  | _ => True

instance (w : World) (a : Action) : Decidable (SameCommand w a) := by
  unfold SameCommand
  split <;> infer_instance

/-- An abort, be it a decision or an outcome, is appended only while no commit of the transaction is
in any log, and a commit decision only while no abort of it is. -/
def Undisputed (shardFor : AccountID → ID) (w : World) : Action → Prop
  | .propose pid .append =>
    ∀ p ∈ w.procs[pid]?, ∀ e ∈ p.task.request shardFor,
      (e.2.Settles e.2.txID false → ¬ w.Appended e.2.txID true) ∧
      (e.2.op = .decision → e.2.commit = true → ¬ w.Appended e.2.txID false)
  | _ => True

instance (shardFor : AccountID → ID) (w : World) (a : Action) :
    Decidable (Undisputed shardFor w a) := by
  unfold Undisputed
  split <;> infer_instance

/-! ## What grows along a run -/

/-- The later world has longer logs and keeps the promises. -/
structure Extends (w w' : World) : Prop where
  log : ∀ g, (w.group g).log <+: (w'.group g).log
  promised : ∀ g id, (w.group g).Promised id → (w'.group g).Promised id

variable {w w' : World}

theorem Extends.appended (h : Extends w w') {id : TxID} {commit : Bool}
    (ha : w.Appended id commit) : w'.Appended id commit := by
  obtain ⟨g, c, hc, hs⟩ := appended_iff.1 ha
  exact appended_iff.2 ⟨g, c, (h.log g).subset hc, hs⟩

variable {a : Action}

theorem Step.extends {shardFor : AccountID → ID} (h : Step shardFor w a w') : Extends w w' where
  log g := (h.groupStep g).isPrefix_log
  promised g id hp := by
    generalize hg : w'.group g = gr'
    cases hg ▸ h.groupStep g with
    | same => exact hp
    | append c => exact hp.append c
    | apply c hc => exact hp.applyNext (GroupStep.applyNext hc)

/-! ## Calls -/

variable {t : Task}

section Invariant

variable (shardFor : AccountID → ID)

/-- The call has been made. -/
def World.Called (w : World) (c : Call) : Prop := ∃ p ∈ w.procs, p.task.call? = some c

theorem call?_onReply (groups : ID → Group) (rep : ProposeReply) (t : Task) :
    (t.onReply shardFor groups rep).call? = t.call? := by
  cases t <;> rfl

theorem call?_localStep {t' : Task} (h : localStep w a t = some t') :
    t.call? = none ∧ t'.call? = none := by
  unfold localStep at h
  split at h
  next r =>
    refine ⟨rfl, ?_⟩
    unfold Recovery.visit at h
    split at h
    · cases h; rfl
    split at h
    · cases h; rfl
    · cases h
  next =>
    split at h
    · cases h; exact ⟨rfl, rfl⟩
    · cases h
  next r g todo =>
    cases h
    refine ⟨rfl, ?_⟩
    cases todo with
    | nil => rfl
    | cons id todo => rw [Recovery.next]; split <;> rfl
  next =>
    cases h
    refine ⟨rfl, ?_⟩
    unfold Recovery.ask
    dsimp only
    split <;> rfl
  next => cases h

theorem called_setProc {pid : Nat} {p p' : Proc} (hp : w.procs[pid]? = some p)
    (hc : p'.task.call? = p.task.call?) {c : Call} : (w.setProc pid p').Called c ↔ w.Called c := by
  constructor
  · rintro ⟨q, hq, hqc⟩
    rcases List.mem_or_eq_of_mem_set hq with hq | rfl
    · exact ⟨q, hq, hqc⟩
    · exact ⟨p, List.mem_of_getElem? hp, hc ▸ hqc⟩
  · rintro ⟨q, hq, hqc⟩
    obtain ⟨i, hi⟩ := List.mem_iff_getElem?.1 hq
    by_cases hip : pid = i
    · subst hip
      obtain rfl : q = p := Option.some.inj (hi.symm.trans hp)
      have hlt := (List.getElem?_eq_some_iff.1 hi).1
      exact ⟨p', List.mem_of_getElem? (List.getElem?_set_self hlt), hc ▸ hqc⟩
    · exact ⟨q, List.mem_of_getElem? ((List.getElem?_set_ne hip).trans hi), hqc⟩

theorem Step.called (h : Step shardFor w a w') {c : Call} (hc : w.Called c) : w'.Called c := by
  cases h with
  | transfer | recover =>
    obtain ⟨q, hq, hqc⟩ := hc
    exact ⟨q, List.mem_append_left _ hq, hqc⟩
  | reply hp => exact (called_setProc hp (call?_onReply shardFor _ _ _)).2 hc
  | move hp _ ht =>
    have h := call?_localStep ht
    exact (called_setProc hp (h.2.trans h.1.symm)).2 hc
  | append hp => exact (called_setProc (w := World.setGroup w _ _) hp (by rfl)).2 hc
  | apply => exact hc
  | crash hp => exact (called_setProc hp (by rfl)).2 hc

theorem Step.called_inv (h : Step shardFor w a w') {c : Call} (hc : w'.Called c) :
    w.Called c ∨ ∃ txID cmd groups now,
      a = .transfer txID cmd groups now ∧ c = ⟨txID, stamp cmd now, groups⟩ := by
  cases h with
  | transfer txID cmd groups now =>
    obtain ⟨q, hq, hqc⟩ := hc
    rcases List.mem_append.1 hq with hq | hq
    · exact .inl ⟨q, hq, hqc⟩
    · rw [List.mem_singleton] at hq
      subst hq
      exact .inr ⟨txID, cmd, groups, now, rfl, (Option.some.inj hqc).symm⟩
  | recover groups r =>
    obtain ⟨q, hq, hqc⟩ := hc
    rcases List.mem_append.1 hq with hq | hq
    · exact .inl ⟨q, hq, hqc⟩
    · rw [List.mem_singleton] at hq
      subst hq
      cases hqc
  | reply hp => exact .inl ((called_setProc hp (call?_onReply shardFor _ _ _)).1 hc)
  | move hp _ ht =>
    have h := call?_localStep ht
    exact .inl ((called_setProc hp (h.2.trans h.1.symm)).1 hc)
  | append hp => exact .inl ((called_setProc (w := World.setGroup w _ _) hp (by rfl)).1 hc)
  | apply => exact .inl hc
  | crash hp => exact .inl ((called_setProc hp (by rfl)).1 hc)

/-! ## The invariant -/

/-- What is known where a task stands. -/
def TaskInv (w : World) : Task → Prop
  | .transfer c .prepareCredit => (w.group (c.fromShard shardFor)).Promised c.txID
  | .transfer c (.decision .commit) =>
    (w.group (c.fromShard shardFor)).Promised c.txID
      ∧ (w.group (c.toShard shardFor)).Promised c.txID
  | .transfer c (.outcomeDebit .commit) => w.Appended c.txID true
  | .transfer c (.outcomeCredit .commit _) => w.Appended c.txID true
  | .recover _ (.settle _ _ id _ _ true) => w.Appended id true
  | _ => True

/-- What is known of a process: the entry it waits for is the one it proposed. -/
structure ProcInv (w : World) (p : Proc) : Prop where
  waits : ∀ g index, p.wait = some (g, index) → ∃ c, p.task.request shardFor = some (g, c) ∧
    0 < index ∧ (w.group g).log[index - 1]? = some c
  stands : TaskInv shardFor w p.task

/-- What holds in every reachable world. -/
structure Inv (w : World) : Prop where
  applied_le : ∀ g, (w.group g).applied ≤ (w.group g).log.length
  groups : ∀ g, GroupInv (w.group g)
  procs : ∀ p ∈ w.procs, ProcInv shardFor w p
  /-- Calls with one id make one request. -/
  calls : ∀ c d, w.Called c → w.Called d → c.txID = d.txID → c.cmd.SameRequest d.cmd
  /-- Only participants are asked to prepare. -/
  prepares : ∀ g, ∀ e ∈ (w.group g).log, e.op = .prepare → ∃ c, w.Called c ∧ c.txID = e.txID ∧
    (g = c.fromShard shardFor ∨ g = c.toShard shardFor)
  /-- A commit goes back to two YES votes. -/
  commits : ∀ id, w.Appended id true → ∃ c, w.Called c ∧ c.txID = id ∧
    (w.group (c.fromShard shardFor)).Promised id ∧ (w.group (c.toShard shardFor)).Promised id
  exclusive : ∀ id, w.Appended id true → ¬ w.Appended id false

variable {shardFor}

theorem TaskInv.extends (h : Extends w w') (ht : TaskInv shardFor w t) : TaskInv shardFor w' t := by
  unfold TaskInv at ht ⊢
  split
  · exact h.promised _ _ ht
  · exact ⟨h.promised _ _ ht.1, h.promised _ _ ht.2⟩
  · exact h.appended ht
  · exact h.appended ht
  · exact h.appended ht
  · trivial

theorem ProcInv.extends (h : Extends w w') {p : Proc} (hp : ProcInv shardFor w p) :
    ProcInv shardFor w' p where
  waits g index hw := by
    obtain ⟨c, hreq, hpos, hc⟩ := hp.waits g index hw
    obtain ⟨t, ht⟩ := h.log g
    refine ⟨c, hreq, hpos, ?_⟩
    rw [← ht, List.getElem?_append_left (List.getElem?_eq_some_iff.1 hc).1]
    exact hc
  stands := hp.stands.extends h

/-- The entry whose result was reported is the one that was proposed, and it has been applied. -/
theorem ProcInv.reported {p : Proc} (hp : ProcInv shardFor w p) {rep : ProposeReply}
    (hrep : Replied w p rep) (herr : rep.err = none) (hlead : rep.isLeader = true) :
    ∃ g c i, p.task.request shardFor = some (g, c) ∧ (w.group g).log[i]? = some c ∧
      i < (w.group g).applied ∧ rep.res = (w.group g).machine.appliedResult (i + 1) := by
  cases hrep with
  | refused hwait h => exact absurd herr (h hlead)
  | gaveUp hwait h => exact absurd herr h
  | @reported g index hwait happ =>
    obtain ⟨c, hreq, hpos, hc⟩ := hp.waits g index hwait
    refine ⟨g, c, index - 1, hreq, hc, by omega, ?_⟩
    rw [Nat.sub_add_cancel hpos]

/-- **A reply leads a call only where its knowledge allows.** -/
theorem taskInv_onReply (hw : ∀ g, GroupInv (w.group g)) {p : Proc} (hp : ProcInv shardFor w p)
    {rep : ProposeReply} (hrep : Replied w p rep) :
    TaskInv shardFor w (p.task.onReply shardFor w.group rep) := by
  -- a reported YES vote is a promise of the group that was asked
  have hvote {g : ID} {c : Command} (hreq : p.task.request shardFor = some (g, c))
      (hop : c.op = .prepare) (herr : rep.err = none) (hlead : rep.isLeader = true)
      (hok : rep.res.ok = true) : (w.group g).Promised c.txID := by
    obtain ⟨g', c', i, hreq', hc, hi, hres⟩ := hp.reported hrep herr hlead
    rw [hreq, Option.some.injEq, Prod.mk.injEq] at hreq'
    obtain ⟨rfl, rfl⟩ := hreq'
    exact (hw g).voted i c hi hc hop (hres ▸ hok)
  -- and a reported decision is in the log
  have hdecided {g : ID} {c : Command} (hreq : p.task.request shardFor = some (g, c))
      {id : TxID} (hs : c.Settles id true) (herr : rep.err = none) (hlead : rep.isLeader = true) :
      w.Appended id true := by
    obtain ⟨g', c', i, hreq', hc, -, -⟩ := hp.reported hrep herr hlead
    rw [hreq, Option.some.injEq, Prod.mk.injEq] at hreq'
    obtain ⟨rfl, rfl⟩ := hreq'
    exact appended_iff.2 ⟨g, c, List.mem_of_getElem? hc, hs⟩
  have hstands := hp.stands
  cases ht : p.task with
  | recover r pc =>
    cases pc with
    | catchUp g =>
      simp only [Task.onReply, RecoverPc.onReply]
      repeat' split
      all_goals trivial
    | settle g todo id r' coord commit =>
      simp only [Task.onReply, RecoverPc.onReply]
      split <;> trivial
    | groupLoop | scan | txLoop | ask | returned => trivial
  | transfer c pc =>
    rw [ht] at hstands hvote hdecided
    cases pc with
    | single s =>
      simp only [Task.onReply, TransferPc.onReply]
      repeat' split
      all_goals trivial
    | prepareDebit =>
      simp only [Task.onReply, TransferPc.onReply]
      split
      · trivial
      next hlead =>
        split
        · trivial
        next herr =>
          split
          next hok => exact hvote rfl rfl herr (by simpa using hlead) hok
          · trivial
    | prepareCredit =>
      simp only [Task.onReply, TransferPc.onReply]
      split
      · trivial
      next hyes =>
        simp only [not_or, Bool.not_eq_true, Bool.not_eq_false, Option.isSome_eq_false_iff,
          Option.isNone_iff_eq_none] at hyes
        exact ⟨hstands, hvote rfl rfl hyes.1 hyes.2.1 hyes.2.2⟩
    | decision d =>
      simp only [Task.onReply, TransferPc.onReply]
      split
      · cases d <;> trivial
      next hok =>
        simp only [not_or, Bool.not_eq_true, Bool.not_eq_false, Option.isSome_eq_false_iff,
          Option.isNone_iff_eq_none] at hok
        cases d with
        | commit => exact hdecided rfl ⟨rfl, rfl, .inl rfl⟩ hok.1 hok.2
        | abort res e => trivial
    | outcomeDebit d =>
      cases d with
      | commit => exact hstands
      | abort res e => trivial
    | outcomeCredit d firstErr =>
      simp only [Task.onReply, TransferPc.onReply, afterDecide]
      repeat' split
      all_goals trivial
    | returned res err => trivial

/-- Recovery proposes a commit only on the strength of one on record. -/
theorem taskInv_localStep (hw : ∀ g, GroupInv (w.group g)) {t' : Task}
    (h : localStep w a t = some t') : TaskInv shardFor w t' := by
  unfold localStep at h
  split at h
  next r =>
    unfold Recovery.visit at h
    split at h
    · cases h; split <;> trivial
    split at h
    · cases h; trivial
    · cases h
  next =>
    split at h
    · cases h; trivial
    · cases h
  next r g todo =>
    cases h
    cases todo with
    | nil => trivial
    | cons id todo => rw [Recovery.next]; split <;> trivial
  next r g todo id rec_ =>
    cases h
    unfold Recovery.ask
    dsimp only
    split
    · trivial
    · cases hd : (w.group (coordinatorOf rec_)).machine.decision id with
      | none => trivial
      | some commit =>
        cases commit with
        | true => exact appended_iff.2 ⟨_, (hw _).decided id hd⟩
        | false => trivial
  next => cases h

section Requests

variable {g : ID} {c : Command}

/-- A task proposes a commit outcome only when a commit is in a log already. -/
theorem appended_of_request (ht : TaskInv shardFor w t)
    (hreq : t.request shardFor = some (g, c)) (hop : c.op = .outcome) (hc : c.commit = true) :
    w.Appended c.txID true := by
  cases t with
  | recover r pc =>
    cases pc with
    | settle g' todo id r' coord commit =>
      cases hreq
      dsimp only at hc
      subst hc
      exact ht
    | catchUp => cases hreq; cases hop
    | groupLoop | scan | txLoop | ask | returned => cases hreq
  | transfer call pc =>
    cases pc with
    | outcomeDebit d | outcomeCredit d firstErr =>
      cases hreq
      cases d with
      | commit => exact ht
      | abort => cases hc
    | single | prepareDebit | prepareCredit | decision => cases hreq; cases hop
    | returned => cases hreq

/-- Only a call decides, at its debit shard. -/
theorem task_of_decision (hreq : t.request shardFor = some (g, c))
    (hop : c.op = .decision) : ∃ call d,
      t = .transfer call (.decision d) ∧ c = call.entry shardFor .decision d.flag true := by
  cases t with
  | recover r pc => cases pc <;> cases hreq <;> cases hop
  | transfer call pc =>
    cases pc with
    | decision d => cases hreq; exact ⟨call, d, rfl, rfl⟩
    | single | prepareDebit | prepareCredit | outcomeDebit | outcomeCredit => cases hreq; cases hop
    | returned => cases hreq

/-- A commit decision is proposed by a call that has both votes. -/
theorem promised_of_request (ht : TaskInv shardFor w t)
    (hreq : t.request shardFor = some (g, c)) (hop : c.op = .decision) (hc : c.commit = true) :
    ∃ call, t.call? = some call ∧ call.txID = c.txID ∧
      (w.group (call.fromShard shardFor)).Promised c.txID ∧
      (w.group (call.toShard shardFor)).Promised c.txID := by
  obtain ⟨call, d, rfl, rfl⟩ := task_of_decision hreq hop
  cases d with
  | commit => exact ⟨call, rfl, rfl, ht⟩
  | abort => cases hc

/-- Only a call asks to prepare, and only its own shards. -/
theorem call_of_prepare (hreq : t.request shardFor = some (g, c)) (hop : c.op = .prepare) :
    ∃ call, t.call? = some call ∧
      ((g = call.fromShard shardFor ∧ c = call.entry shardFor .prepare false true) ∨
        (g = call.toShard shardFor ∧ c = call.entry shardFor .prepare false false)) := by
  cases t with
  | recover r pc => cases pc <;> cases hreq <;> cases hop
  | transfer call pc =>
    cases pc with
    | prepareDebit => cases hreq; exact ⟨call, rfl, .inl ⟨rfl, rfl⟩⟩
    | prepareCredit => cases hreq; exact ⟨call, rfl, .inr ⟨rfl, rfl⟩⟩
    | single | decision | outcomeDebit | outcomeCredit => cases hreq; cases hop
    | returned => cases hreq

end Requests

theorem Step.mem_log (h : Step shardFor w a w') {g : ID} {e : Command} (he : e ∈ (w'.group g).log) :
    e ∈ (w.group g).log ∨ ∃ pid p, a = .propose pid .append ∧
      w.procs[pid]? = some p ∧ p.task.request shardFor = some (g, e) := by
  cases h with
  | transfer | recover | reply | move | crash => exact .inl he
  | @append pid p g' c hp hwait hreq =>
    rw [group_setProc] at he
    by_cases hg : g = g'
    · subst hg
      rw [group_setGroup_self] at he
      rcases List.mem_append.1 he with he | he
      · exact .inl he
      · rw [List.mem_singleton] at he
        subst he
        exact .inr ⟨pid, p, rfl, hp, hreq⟩
    · rw [group_setGroup_ne w _ hg] at he
      exact .inl he
  | @apply g' gr h =>
    by_cases hg : g = g'
    · subst hg
      rw [group_setGroup_self] at he
      obtain ⟨c, -, rfl⟩ := applyNext_eq_some h
      exact .inl he
    · rw [group_setGroup_ne w _ hg] at he
      exact .inl he

theorem Step.appended_inv (h : Step shardFor w a w') {id : TxID} {commit : Bool}
    (ha : w'.Appended id commit) : w.Appended id commit ∨
      ∃ pid p g e, a = .propose pid .append ∧ w.procs[pid]? = some p ∧
        p.task.request shardFor = some (g, e) ∧ e.Settles id commit := by
  obtain ⟨g, e, he, hs⟩ := appended_iff.1 ha
  rcases h.mem_log he with he | ⟨pid, p, rfl, hp, hreq⟩
  · exact .inl (appended_iff.2 ⟨g, e, he, hs⟩)
  · exact .inr ⟨pid, p, g, e, rfl, hp, hreq, hs⟩

/-- A step keeps the groups in order: an entry is appended at the end, or the next one applied. -/
theorem Step.groups (h : Step shardFor w a w')
    (hle : ∀ g, (w.group g).applied ≤ (w.group g).log.length) (hinv : ∀ g, GroupInv (w.group g))
    (g : ID) : (w'.group g).applied ≤ (w'.group g).log.length ∧ GroupInv (w'.group g) := by
  refine ⟨(h.groupStep g).applied_le (hle g), ?_⟩
  generalize hg : w'.group g = gr'
  cases hg ▸ h.groupStep g with
  | same => exact hinv g
  | append c => exact (hinv g).append (hle g) c
  | apply c hc => exact (hinv g).applyNext (GroupStep.applyNext hc)

theorem taskInv_route (w : World) (c : Call) :
    TaskInv shardFor w (.transfer c (c.route shardFor)) := by
  unfold Call.route
  dsimp only
  repeat' split
  all_goals trivial

theorem Step.procs (h : Step shardFor w a w') (hinv : ∀ g, GroupInv (w.group g))
    (hprocs : ∀ p ∈ w.procs, ProcInv shardFor w p) : ∀ p ∈ w'.procs, ProcInv shardFor w' p := by
  have hext := h.extends
  have hold (p : Proc) (hp : p ∈ w.procs) : ProcInv shardFor w' p := (hprocs p hp).extends hext
  cases h with
  | transfer txID cmd groups now =>
    exact forall_addProc hold ⟨fun _ _ h => (by cases h), taskInv_route _ _⟩
  | recover groups r => exact forall_addProc hold ⟨fun _ _ h => (by cases h), trivial⟩
  | reply hp hreq hrep =>
    have hpi := hprocs _ (List.mem_of_getElem? hp)
    exact forall_setProc hold
      ⟨fun _ _ h => (by cases h), (taskInv_onReply hinv hpi hrep).extends hext⟩
  | move hp hwait ht =>
    refine forall_setProc hold ⟨fun _ _ h => ?_, (taskInv_localStep hinv ht).extends hext⟩
    dsimp only at h
    rw [hwait] at h
    cases h
  | @append pid p g c hp hwait hreq =>
    refine forall_setProc (w := w.setGroup g _) hold ⟨fun g' index h => ?_,
      (hprocs p (List.mem_of_getElem? hp)).stands.extends hext⟩
    cases h
    refine ⟨c, hreq, Nat.succ_pos _, ?_⟩
    rw [group_setProc, group_setGroup_self, Nat.add_sub_cancel]
    exact List.getElem?_concat_length
  | apply => exact hold
  | crash hp =>
    have hpi := hold _ (List.mem_of_getElem? hp)
    exact forall_setProc hold ⟨hpi.waits, hpi.stands⟩

theorem sameRequest_stamp (cmd : Ledger.Command) (now : Timestamp) :
    cmd.SameRequest (stamp cmd now) := by
  unfold stamp
  split <;> exact ⟨rfl, rfl, rfl, rfl, rfl⟩

theorem inv_init : Inv shardFor {} where
  applied_le _ := Nat.le_refl 0
  groups _ := groupInv_empty
  procs _ h := by cases h
  calls _ _ h := by obtain ⟨_, h, _⟩ := h; cases h
  prepares _ _ h := by cases h
  commits _ h := by obtain ⟨_, h, _⟩ := h; cases h
  exclusive _ h := by obtain ⟨_, h, _⟩ := h; cases h

/-- **Every undisputed step keeps the invariant.** -/
theorem Inv.step (h : Inv shardFor w) (hs : Step shardFor w a w') (hsame : SameCommand w a)
    (hund : Undisputed shardFor w a) : Inv shardFor w' := by
  have hext := hs.extends
  have htask {pid : Nat} {p : Proc} (hp : w.procs[pid]? = some p) : TaskInv shardFor w p.task :=
    (h.procs p (List.mem_of_getElem? hp)).stands
  have hcalled {pid : Nat} {p : Proc} (hp : w.procs[pid]? = some p) {c : Call}
      (hc : p.task.call? = some c) : w.Called c := ⟨p, List.mem_of_getElem? hp, hc⟩
  constructor
  case applied_le => exact fun g => (hs.groups h.applied_le h.groups g).1
  case groups => exact fun g => (hs.groups h.applied_le h.groups g).2
  case procs => exact hs.procs h.groups h.procs
  case calls =>
    have hnew {c : Call} {txID : TxID} {cmd : Ledger.Command} {groups : List ID} {now : Timestamp}
        (ha : a = .transfer txID cmd groups now) (hc : w.Called c) (hid : c.txID = txID) :
        c.cmd.SameRequest cmd := by
      subst ha
      obtain ⟨p, hp, hpc⟩ := hc
      exact hsame p hp c hpc hid
    intro c d hc hd hid
    rcases hs.called_inv _ hc with hc | ⟨txID, cmd, groups, now, ha, rfl⟩ <;>
      rcases hs.called_inv _ hd with hd | ⟨txID', cmd', groups', now', ha', rfl⟩
    · exact h.calls c d hc hd hid
    · exact (hnew ha' hc hid).trans (sameRequest_stamp cmd' now')
    · exact ((hnew ha hd hid.symm).trans (sameRequest_stamp cmd now)).symm
    · rw [ha] at ha'
      cases ha'
      exact .refl _
  case prepares =>
    intro g e he hop
    rcases hs.mem_log he with he | ⟨pid, p, -, hp, hreq⟩
    · obtain ⟨c, hc, hr⟩ := h.prepares g e he hop
      exact ⟨c, hs.called _ hc, hr⟩
    · obtain ⟨c, hc, ⟨rfl, rfl⟩ | ⟨rfl, rfl⟩⟩ := call_of_prepare hreq hop
      · exact ⟨c, hs.called _ (hcalled hp hc), rfl, .inl rfl⟩
      · exact ⟨c, hs.called _ (hcalled hp hc), rfl, .inr rfl⟩
  case commits =>
    have hold {id : TxID} (ha : w.Appended id true) : ∃ c, w'.Called c ∧ c.txID = id ∧
        (w'.group (c.fromShard shardFor)).Promised id ∧
        (w'.group (c.toShard shardFor)).Promised id := by
      obtain ⟨c, hc, hid, hf, ht⟩ := h.commits id ha
      exact ⟨c, hs.called _ hc, hid, hext.promised _ _ hf, hext.promised _ _ ht⟩
    intro id ha
    rcases hs.appended_inv ha with ha | ⟨pid, p, g, e, -, hp, hreq, rfl, hc, hop | hop⟩
    · exact hold ha
    · obtain ⟨c, hcall, hid, hf, ht⟩ := promised_of_request (htask hp) hreq hop hc
      exact ⟨c, hs.called _ (hcalled hp hcall), hid, hext.promised _ _ hf, hext.promised _ _ ht⟩
    · exact hold (appended_of_request (htask hp) hreq hop hc)
  case exclusive =>
    intro id ht hf
    rcases hs.appended_inv ht with ht | ⟨pid, p, g, e, ha, hp, hreq, rfl, hc, hop⟩
    · rcases hs.appended_inv hf with hf | ⟨pid, p, g, e, rfl, hp, hreq, hse⟩
      · exact h.exclusive id ht hf
      · -- an abort is appended after a commit
        obtain rfl : e.txID = id := hse.1
        exact (hund p hp (g, e) hreq).1 hse ht
    · rcases hs.appended_inv hf with hf | ⟨pid', p', g', e', ha', hp', hreq', hse'⟩
      · -- a commit is appended after an abort
        subst ha
        rcases hop with hop | hop
        · exact (hund p hp (g, e) hreq).2 hop hc hf
        · exact h.exclusive _ (appended_of_request (htask hp) hreq hop hc) hf
      · -- one step appends one entry
        rw [ha] at ha'
        cases ha'
        rw [hp, Option.some.injEq] at hp'
        subst hp'
        rw [hreq, Option.some.injEq, Prod.mk.injEq] at hreq'
        obtain ⟨rfl, rfl⟩ := hreq'
        rw [hse'.2.1] at hc
        cases hc

end Invariant

/-! ## The theorem -/

/-- **Atomic commitment.**  In every run of transfers and recoveries whose proposals are undisputed,
with retries of the same request and crashes anywhere, no transaction is ever committed at one shard
and aborted at another. -/
theorem atomic_commitment (shardFor : AccountID → ID) {as : List Action} {w : World}
    (hrun : Run (fun w a w' => exec shardFor w a = some w' ∧ SameCommand w a ∧
      Undisputed shardFor w a) {} as w) (id : TxID) (g h : ID) :
    ¬ ((w.group g).machine.phase id = .committed ∧ (w.group h).machine.phase id = .aborted) := by
  have hinv : Inv shardFor w :=
    hrun.invariant (fun _ _ _ hs hi => hi.step (step_of_exec hs.1) hs.2.1 hs.2.2) inv_init
  rintro ⟨hg, hh⟩
  have hcommit : w.Appended id true := appended_iff.2 ⟨g, (hinv.groups g).committed id hg⟩
  have hno : ¬ (w.group h).HasSettled id false := fun hs =>
    hinv.exclusive id hcommit (appended_iff.2 ⟨h, hs⟩)
  rcases (hinv.groups h).aborted id hh with hs | ⟨e, he, hop, rfl⟩
  · exact hno hs
  · -- `h` voted, so it is a participant, and both participants promised
    obtain ⟨c, hc, hcid, hpart⟩ := hinv.prepares h e he hop
    obtain ⟨d, hd, hdid, hf, ht⟩ := hinv.commits _ hcommit
    have hsame := hinv.calls c d hc hd (hcid.trans hdid.symm)
    have hprom : (w.group h).Promised e.txID := by
      rcases hpart with rfl | rfl
      · rw [Call.fromShard, hsame.2.2.1]; exact hf
      · rw [Call.toShard, hsame.2.2.2.1]; exact ht
    exact hno (hprom.2 hh)

/-! ## A schedule

Two shards, two accounts, one transfer.  `round` is a proposal that goes well. -/

namespace Schedule

/-- The shard of alice. -/
def debitShard : ID := str "shard-0"

/-- The shard of everybody else. -/
def creditShard : ID := str "shard-1"

/-- The shard of an account. -/
def ring (a : AccountID) : ID := if a = str "alice" then debitShard else creditShard

/-- Both shards. -/
def groups : List ID := [debitShard, creditShard]

/-- What the clock reads. -/
def now : Timestamp := ⟨1, 0⟩

/-- The id of the transfer. -/
def tx : TxID := str "tx"

/-- Opens account `a`. -/
def openAccount (a : AccountID) (amount : Money) : Ledger.Command :=
  { op := .openAccount, idempotencyKey := str "open-" ++ a, fromAcc := [], toAcc := a,
    amount := amount, timestamp := .zero }

/-- Alice pays bob 30. -/
def payment : Ledger.Command :=
  { op := .transfer, idempotencyKey := tx, fromAcc := str "alice", toAcc := str "bob", amount := 30,
    timestamp := .zero }

/-- A process proposes to `g`, the entry is applied and its result reported. -/
def round (pid : Nat) (g : ID) : List Action := [.propose pid .append, .apply g, .report pid]

/-- Processes 0 and 1 open the two accounts. -/
def opening : List Action :=
  .transfer (str "open-alice") (openAccount (str "alice") 100) groups now :: round 0 debitShard
    ++ .transfer (str "open-bob") (openAccount (str "bob") 0) groups now :: round 1 creditShard

/-- Process 2 runs the transfer up to its last proposal, the outcome for the credit shard. -/
def attempt : List Action :=
  .transfer tx payment groups now :: round 2 debitShard ++ round 2 creditShard
    ++ round 2 debitShard ++ round 2 debitShard

/-- That proposal goes well. -/
def completed : List Action := attempt ++ round 2 creditShard

/-- That proposal fails, and the call returns `ErrInDoubt`. -/
def interrupted : List Action :=
  attempt ++ [.propose 2 (.fail false (some (str "lost leadership mid-propose")))]

/-- Process 3 repeats the transfer: the debit shard refuses the prepare, and the call aborts. -/
def retry : List Action :=
  .transfer tx payment groups now :: round 3 debitShard ++ round 3 debitShard ++ round 3 debitShard
    ++ round 3 creditShard

/-- The phases of the transaction at the two shards. -/
def phases (w : World) : Phase × Phase :=
  ((w.group debitShard).machine.phase tx, (w.group creditShard).machine.phase tx)

end Schedule

open Schedule in
/-- The retry of an interrupted transfer leaves the debit committed and aborts the credit. -/
theorem retry_splits_transfer : ∃ as w,
    Run (fun w a w' => exec ring w a = some w' ∧ SameCommand w a) {} as w ∧
      ∃ id g h, (w.group g).machine.phase id = .committed
        ∧ (w.group h).machine.phase id = .aborted := by
  obtain ⟨w, hrun, hp⟩ : ∃ w, Run (fun w a w' => exec ring w a = some w' ∧ SameCommand w a) {}
        (opening ++ interrupted ++ retry) w ∧ phases w = (.committed, .aborted) :=
    exists_run_guarded (by decide +kernel)
  rw [phases, Prod.mk.injEq] at hp
  exact ⟨_, w, hrun, tx, debitShard, creditShard, hp⟩

open Schedule in
/-- The transfer that is not interrupted meets the conditions, and commits at both shards. -/
theorem atomic_commitment_completed : ∃ w,
    Run (fun w a w' => exec ring w a = some w' ∧ SameCommand w a ∧ Undisputed ring w a) {}
      (opening ++ completed) w ∧ phases w = (.committed, .committed) ∧
      ¬ ((w.group debitShard).machine.phase tx = .committed
        ∧ (w.group creditShard).machine.phase tx = .aborted) := by
  obtain ⟨w, hrun, hp⟩ : ∃ w,
      Run (fun w a w' => exec ring w a = some w' ∧ SameCommand w a ∧ Undisputed ring w a) {}
        (opening ++ completed) w ∧ phases w = (.committed, .committed) :=
    exists_run_guarded (by decide +kernel)
  exact ⟨w, hrun, hp, atomic_commitment ring hrun tx debitShard creditShard⟩

end CoreBank.Shard
