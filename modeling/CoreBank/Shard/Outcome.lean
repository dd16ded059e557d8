import CoreBank.Shard.Atomicity

/-!
# What Transfer reports

Is the outcome `Transfer` reports the outcome that happens?  The retry of a committed transfer shows
that it is not: the debit shard refuses the second prepare because the id is decided, the call takes
that for a NO vote, overwrites the recorded commit with an abort and returns `ErrTxAborted`, with
both legs booked.

Besides the disputed proposals of `Undisputed` there is one more way to report an abort that does
not last: the vote of the credit shard is lost, the abort decision cannot be logged, and the call
reports an abort that nobody has recorded.  `Unreported` excludes a commit decision after that, and
such an abort after a commit.
-/

set_option autoImplicit false

namespace CoreBank.Shard

open Ledger Hlc ActionSystem

/-! ## The condition on a run -/

/-- The abort the call is carrying out, if it is past its votes and did not get them. -/
def TransferPc.abort? : TransferPc → Option Error
  | .decision (.abort _ e) => some e
  | .outcomeDebit (.abort _ e) => some e
  | .outcomeCredit (.abort _ e) _ => some e
  | .returned _ (some e) => some e
  | _ => none

/-- A call for `id` that reports, or is going to report, `ErrTxAborted`. -/
def Task.Aborting (id : TxID) : Task → Prop
  | .transfer c pc => c.txID = id ∧ ∃ e ∈ pc.abort?, e.isTxAborted = true
  | .recover _ _ => False

instance (id : TxID) (t : Task) : Decidable (t.Aborting id) := by
  unfold Task.Aborting
  split <;> infer_instance

/-- A commit decision is appended only while no call for the same transaction reports an abort, and
an abort decision that cannot be appended is proposed only while no commit is in any log. -/
def Unreported (shardFor : AccountID → ID) (w : World) : Action → Prop
  | .propose pid .append =>
    ∀ p ∈ w.procs[pid]?, ∀ e ∈ p.task.request shardFor, e.2.op = .decision → e.2.commit = true →
      ∀ q ∈ w.procs, ¬ q.task.Aborting e.2.txID
  | .propose pid (.fail _ _) =>
    ∀ p ∈ w.procs[pid]?, ∀ e ∈ p.task.request shardFor, e.2.op = .decision → e.2.commit = false →
      ¬ w.Appended e.2.txID true
  | _ => True

instance (shardFor : AccountID → ID) (w : World) (a : Action) :
    Decidable (Unreported shardFor w a) := by
  induction a using Action.casesOn
  case propose pid start =>
    induction start using Start.casesOn <;> unfold Unreported <;> infer_instance
  all_goals exact instDecidableTrue

/-- The call is a transfer between two shards. -/
def Call.CrossShard (shardFor : AccountID → ID) (c : Call) : Prop :=
  c.cmd.op ≠ .openAccount ∧ c.cmd.op ≠ .deposit ∧ c.cmd.op ≠ .withdraw
    ∧ c.fromShard shardFor ≠ c.toShard shardFor

instance (shardFor : AccountID → ID) (c : Call) : Decidable (c.CrossShard shardFor) :=
  inferInstanceAs (Decidable (_ ∧ _))

/-! ## Decisions on record -/

/-- The group has applied a commit decision for `id`. -/
def Group.Decided (gr : Group) (id : TxID) : Prop :=
  ∃ i c, i < gr.applied ∧ gr.log[i]? = some c ∧ c.op = .decision ∧ c.txID = id ∧ c.commit = true

theorem Machine.decision_of_decision (m : Machine) {c : Command} (hop : c.op = .decision) :
    (m.apply c).1.decision c.txID = some c.commit := by
  rw [Machine.apply, hop]
  dsimp only
  rw [Machine.applyDecision]
  dsimp only [Machine.decision]
  rw [AList.lookup_insert]
  rfl

/-- A commit on record stays, unless the log has an abort for it. -/
def KeepsDecisions (gr : Group) : Prop :=
  ∀ id, gr.Decided id → ¬ gr.HasSettled id false → gr.machine.decision id = some true

theorem KeepsDecisions.append {gr : Group} (h : KeepsDecisions gr)
    (happ : gr.applied ≤ gr.log.length) (c : Command) :
    KeepsDecisions { gr with log := gr.log ++ [c] } := by
  rintro id ⟨i, d, hi, hd, hr⟩ hno
  rw [List.getElem?_append_left (Nat.lt_of_lt_of_le hi happ)] at hd
  exact h id ⟨i, d, hi, hd, hr⟩ fun hs => hno (hs.append c)

theorem KeepsDecisions.applyNext {gr gr' : Group} (h : KeepsDecisions gr)
    (happ : gr.applyNext = some gr') : KeepsDecisions gr' := by
  obtain ⟨c, hc, rfl⟩ := applyNext_eq_some happ
  rintro id ⟨i, d, hi, hd, hop, hid, hcm⟩ hno
  rw [Machine.decision_applyAt]
  rcases Nat.lt_succ_iff_lt_or_eq.1 hi with hi | rfl
  · have hold := h id ⟨i, d, hi, hd, hop, hid, hcm⟩ hno
    rcases gr.machine.decision_apply c id with he | ⟨-, -, he, -⟩ | ⟨hs, he⟩
    · rw [he, hold]
    · rw [he] at hold; cases hold
    · rw [he]
      cases hcc : c.commit with
      | true => rfl
      | false => exact absurd ⟨c, List.mem_of_getElem? hc, hcc ▸ hs⟩ hno
  · -- the decision itself
    obtain rfl : d = c := Option.some.inj (hd.symm.trans hc)
    rw [← hid, Machine.decision_of_decision _ hop, hcm]

/-! ## The invariant -/

variable {w w' : World} {a : Action} {c : Call}

section Invariant

variable (shardFor : AccountID → ID)

/-- What a call of a cross-shard transfer knows of the decision. -/
def CallInv (w : World) (c : Call) : TransferPc → Prop
  | .single _ => False
  | .outcomeDebit .commit => (w.group (c.fromShard shardFor)).Decided c.txID
  | .outcomeCredit .commit _ => (w.group (c.fromShard shardFor)).Decided c.txID
  | .returned _ none => (w.group (c.fromShard shardFor)).Decided c.txID
  | _ => True

/-- The call has put its abort forward: it waits for the decision, or is past it. -/
def TransferPc.Proposed (wait : Option (ID × Nat)) : TransferPc → Prop
  | .decision _ => wait ≠ none
  | _ => True

/-- What a call may report. -/
structure ReplyInv (w : World) (p : Proc) : Prop where
  /-- A commit that is reported, or is being carried out, is on record. -/
  commits : ∀ c pc, p.task = .transfer c pc → c.CrossShard shardFor → CallInv shardFor w c pc
  /-- An abort that is reported, or is being carried out, has no commit against it. -/
  aborts : ∀ c pc, p.task = .transfer c pc → (Task.transfer c pc).Aborting c.txID →
    pc.Proposed p.wait → ¬ w.Appended c.txID true

/-- What holds in every reachable world. -/
structure FinalInv (w : World) : Prop extends Inv shardFor w where
  keeps : ∀ g, KeepsDecisions (w.group g)
  replies : ∀ p ∈ w.procs, ReplyInv shardFor w p

variable {shardFor}

section Step

variable (hle : ∀ g, (w.group g).applied ≤ (w.group g).log.length)

include hle

theorem Step.keeps (h : Step shardFor w a w') (hk : ∀ g, KeepsDecisions (w.group g)) (g : ID) :
    KeepsDecisions (w'.group g) := by
  generalize hg : w'.group g = gr'
  cases hg ▸ h.groupStep g with
  | same => exact hk g
  | append c => exact (hk g).append (hle g) c
  | apply c hc => exact (hk g).applyNext (GroupStep.applyNext hc)

theorem Step.decided (h : Step shardFor w a w') {g : ID} {id : TxID} (hd : (w.group g).Decided id) :
    (w'.group g).Decided id := by
  obtain ⟨i, c, hi, hc, hr⟩ := hd
  generalize hg : w'.group g = gr'
  cases hg ▸ h.groupStep g with
  | same => exact ⟨i, c, hi, hc, hr⟩
  | append d =>
    refine ⟨i, c, hi, ?_, hr⟩
    rw [List.getElem?_append_left (Nat.lt_of_lt_of_le hi (hle g))]
    exact hc
  | apply d hd => exact ⟨i, c, Nat.lt_succ_of_lt hi, hc, hr⟩

theorem CallInv.step (h : Step shardFor w a w') {pc : TransferPc} (hc : CallInv shardFor w c pc) :
    CallInv shardFor w' c pc := by
  unfold CallInv at hc ⊢
  split
  · exact hc
  · exact h.decided hle hc
  · exact h.decided hle hc
  · exact h.decided hle hc
  · trivial

end Step

/-- A reply tells a cross-shard call of a commit only if the decision was applied. -/
theorem callInv_onReply {p : Proc} (hp : ProcInv shardFor w p) {pc : TransferPc}
    (ht : p.task = .transfer c pc) (hc : CallInv shardFor w c pc) {rep : ProposeReply}
    (hrep : Replied w p rep) (debit : Ledger.State) :
    CallInv shardFor w c (pc.onReply shardFor c debit rep) := by
  cases pc with
  | single s => exact hc.elim
  | prepareDebit =>
    simp only [TransferPc.onReply]
    repeat' split
    all_goals trivial
  | prepareCredit =>
    simp only [TransferPc.onReply]
    split <;> trivial
  | decision d =>
    simp only [TransferPc.onReply]
    split
    · cases d <;> trivial
    next hok =>
      simp only [not_or, Bool.not_eq_true, Bool.not_eq_false, Option.isSome_eq_false_iff,
        Option.isNone_iff_eq_none] at hok
      cases d with
      | abort res e => trivial
      | commit =>
        obtain ⟨g, e, i, hreq, he, hi, -⟩ := hp.reported hrep hok.1 hok.2
        rw [ht] at hreq
        cases hreq
        exact ⟨i, _, hi, he, rfl, rfl, rfl⟩
  | outcomeDebit d =>
    cases d with
    | commit => exact hc
    | abort res e => trivial
  | outcomeCredit d firstErr =>
    simp only [TransferPc.onReply, afterDecide]
    cases d with
    | abort res e => trivial
    | commit =>
      dsimp only
      split
      · trivial
      · exact hc
  | returned res err => exact hc

/-- A call starts to report an abort only through the decision it puts forward. -/
theorem aborting_onReply {pc : TransferPc} {debit : Ledger.State} {rep : ProposeReply} {id : TxID}
    (h : (Task.transfer c (pc.onReply shardFor c debit rep)).Aborting id)
    (hprop : (pc.onReply shardFor c debit rep).Proposed none) :
    (Task.transfer c pc).Aborting id := by
  obtain ⟨hid, e, he, hab⟩ := h
  refine ⟨hid, e, ?_, hab⟩
  cases pc with
  | single s =>
    simp only [TransferPc.onReply] at he
    repeat' split at he
    all_goals cases he
    all_goals cases hab
  | prepareDebit =>
    simp only [TransferPc.onReply] at he hprop
    split at he
    · cases he; cases hab
    next hlead =>
      rw [if_neg hlead] at hprop
      split at he
      · cases he; cases hab
      next herr =>
        rw [herr] at hprop
        split at he
        · cases he
        next hno => rw [if_neg hno] at hprop; exact absurd rfl hprop
  | prepareCredit =>
    simp only [TransferPc.onReply] at he hprop
    split at he
    next h => rw [if_pos h] at hprop; exact absurd rfl hprop
    next => cases he
  | decision d =>
    simp only [TransferPc.onReply] at he
    split at he
    · cases d with
      | abort res e' => exact he
      | commit => cases he; cases hab
    · cases d with
      | abort res e' => exact he
      | commit => cases he
  | outcomeDebit d =>
    cases d with
    | abort res e' => exact he
    | commit => cases he
  | outcomeCredit d firstErr =>
    cases d with
    | abort res e' => exact he
    | commit =>
      simp only [TransferPc.onReply, afterDecide] at he
      split at he
      · cases he; cases hab
      · cases he
  | returned res err => exact he

/-- While a call reports an abort, no commit of its transaction is appended. -/
theorem Step.not_appended (h : Step shardFor w a w') (hinv : Inv shardFor w)
    (hunr : Unreported shardFor w a) {q : Proc} (hq : q ∈ w.procs) {id : TxID}
    (hab : q.task.Aborting id) (hno : ¬ w.Appended id true) : ¬ w'.Appended id true := by
  intro ha
  rcases h.appended_inv ha with ha | ⟨pid, p, g, e, rfl, hp, hreq, rfl, hc, hop | hop⟩
  · exact hno ha
  · exact hunr p hp (g, e) hreq hop hc q hq hab
  · exact hno (appended_of_request (hinv.procs p (List.mem_of_getElem? hp)).stands hreq hop hc)

theorem callInv_route (hx : c.CrossShard shardFor) :
    CallInv shardFor w c (c.route shardFor) := by
  obtain ⟨h1, h2, h3, h4⟩ := hx
  unfold Call.route
  dsimp only
  split
  next h => exact absurd h h1
  next h => exact absurd h h2
  next h => exact absurd h h3
  next =>
    rw [if_neg h4]
    split
    · trivial
    split <;> trivial

theorem not_aborting_route (c : Call) (id : TxID) :
    ¬ (Task.transfer c (c.route shardFor)).Aborting id := by
  rintro ⟨-, e, he, hab⟩
  unfold Call.route at he
  dsimp only at he
  repeat' split at he
  all_goals cases he
  all_goals cases hab

/-- **A step keeps the answers of all calls final.** -/
theorem Step.replies (h : Step shardFor w a w') (hinv : FinalInv shardFor w)
    (hund : Undisputed shardFor w a) (hunr : Unreported shardFor w a) :
    ∀ p ∈ w'.procs, ReplyInv shardFor w' p := by
  have hkeep {q : Proc} (hq : q ∈ w.procs) {c : Call} {pc : TransferPc}
      (ht : q.task = .transfer c pc) (hab : (Task.transfer c pc).Aborting c.txID)
      (hno : ¬ w.Appended c.txID true) : ¬ w'.Appended c.txID true :=
    h.not_appended hinv.toInv hunr hq (ht ▸ hab) hno
  have hold (q : Proc) (hq : q ∈ w.procs) : ReplyInv shardFor w' q := by
    refine ⟨fun c pc ht hx => ?_, fun c pc ht hab hprop => ?_⟩
    · exact ((hinv.replies q hq).commits c pc ht hx).step hinv.applied_le h
    · exact hkeep hq ht hab ((hinv.replies q hq).aborts c pc ht hab hprop)
  cases h with
  | transfer txID cmd groups now =>
    refine forall_addProc hold ⟨fun c pc ht hx => ?_, fun c pc ht hab _ => ?_⟩
    · cases ht; exact callInv_route hx
    · cases ht; exact absurd hab (not_aborting_route _ _)
  | recover groups r =>
    exact forall_addProc hold ⟨fun c pc ht => (by cases ht), fun c pc ht => (by cases ht)⟩
  | @reply a pid p rep hp hreq hrep =>
    have hpm := List.mem_of_getElem? hp
    refine forall_setProc hold ⟨fun c pc ht hx => ?_, fun c pc ht hab hprop => ?_⟩
    · cases htask : p.task with
      | recover => rw [htask] at ht; cases ht
      | transfer c' pc' =>
        rw [htask] at ht
        cases ht
        exact callInv_onReply (hinv.procs p hpm) htask
          ((hinv.replies p hpm).commits c pc' htask hx) hrep _
    · cases htask : p.task with
      | recover => rw [htask] at ht; cases ht
      | transfer c' pc' =>
        rw [htask] at ht
        cases ht
        have hab' := aborting_onReply hab hprop
        refine hkeep hpm htask hab' ?_
        -- either the abort was put forward before, or this very step does so
        cases hwait : p.wait with
        | some x =>
          refine (hinv.replies p hpm).aborts c pc' htask hab' ?_
          rw [hwait]
          cases pc' <;> first | trivial | exact Option.some_ne_none _
        | none =>
          obtain ⟨start, rfl⟩ := hreq hwait
          cases pc' with
          | decision d =>
            cases d with
            | commit => obtain ⟨-, e, he, -⟩ := hab'; cases he
            | abort res e =>
              cases start with
              | append => exact (hund p hp _ (by rw [htask]; rfl)).1 ⟨rfl, rfl, .inl rfl⟩
              | fail => exact hunr p hp _ (by rw [htask]; rfl) rfl rfl
          | single | prepareDebit | prepareCredit | outcomeDebit | outcomeCredit | returned =>
            exact (hinv.replies p hpm).aborts c _ htask hab' trivial
  | move hp hwait ht =>
    have hnone := (call?_localStep ht).2
    refine forall_setProc hold ⟨fun c pc h => ?_, fun c pc h => ?_⟩ <;>
      · dsimp only at h
        rw [h] at hnone
        cases hnone
  | @append pid p g e hp hwait hreq =>
    have hpm := List.mem_of_getElem? hp
    refine forall_setProc (w := w.setGroup g _) hold
      ⟨(hold p hpm).commits, fun c pc ht hab _ => hkeep hpm ht hab ?_⟩
    dsimp only at ht
    cases pc with
    | decision d =>
      cases d with
      | commit => obtain ⟨-, e, he, -⟩ := hab; cases he
      | abort res err =>
        rw [ht] at hreq
        cases hreq
        exact (hund p hp _ (by rw [ht]; rfl)).1 ⟨rfl, rfl, .inl rfl⟩
    | single | prepareDebit | prepareCredit | outcomeDebit | outcomeCredit | returned =>
      exact (hinv.replies p hpm).aborts c _ ht hab trivial
  | apply => exact hold
  | crash hp =>
    have hpi := hold _ (List.mem_of_getElem? hp)
    exact forall_setProc hold ⟨hpi.commits, hpi.aborts⟩

theorem FinalInv.step (h : FinalInv shardFor w) (hs : Step shardFor w a w')
    (hsame : SameCommand w a) (hund : Undisputed shardFor w a) (hunr : Unreported shardFor w a) :
    FinalInv shardFor w' where
  toInv := h.toInv.step hs hsame hund
  keeps := hs.keeps h.applied_le h.keeps
  replies := hs.replies h hund hunr

theorem Step.returned (h : Step shardFor w a w') {res : Result} {err : Option Error}
    (hp : ∃ p ∈ w.procs, p.task = .transfer c (.returned res err)) :
    ∃ p ∈ w'.procs, p.task = .transfer c (.returned res err) := by
  obtain ⟨q, hq, ht⟩ := hp
  have hset {pid : Nat} {p p' : Proc} (hp : w.procs[pid]? = some p)
      (hsame : p.task = .transfer c (.returned res err) → p'.task = p.task) :
      ∃ r ∈ w.procs.set pid p', r.task = .transfer c (.returned res err) := by
    obtain ⟨i, hi⟩ := List.mem_iff_getElem?.1 hq
    by_cases hip : pid = i
    · subst hip
      obtain rfl : q = p := Option.some.inj (hi.symm.trans hp)
      have hlt := (List.getElem?_eq_some_iff.1 hi).1
      exact ⟨p', List.mem_of_getElem? (List.getElem?_set_self hlt), (hsame ht).trans ht⟩
    · exact ⟨q, List.mem_of_getElem? ((List.getElem?_set_ne hip).trans hi), ht⟩
  cases h with
  | transfer | recover => exact ⟨q, List.mem_append_left _ hq, ht⟩
  | reply hp => exact hset hp fun h => by dsimp only; rw [h]; rfl
  | move hp _ hl =>
    refine hset hp fun h => ?_
    have := (call?_localStep hl).1
    rw [h] at this
    cases this
  | append hp => exact hset hp fun _ => rfl
  | apply => exact ⟨q, hq, ht⟩
  | crash hp => exact hset hp fun _ => rfl

end Invariant

/-! ## The theorem -/

instance (s : State) (id : TxID) : Decidable (Booked s id) :=
  inferInstanceAs (Decidable (∃ t ∈ s.history, _ ∨ _))

namespace Schedule

/-- The call of the payment. -/
def call : Call := ⟨tx, stamp payment now, groups⟩

end Schedule

end CoreBank.Shard
