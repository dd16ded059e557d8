import CoreBank.Ledger.Same
import CoreBank.Shard.Codec

/-!
# The books of a shard

Whatever bytes a replica is handed, the ledger of its shard stays sound: nothing is spent twice, no
balance wraps, and the balances are the sum of the history.
-/

set_option autoImplicit false

namespace CoreBank.Shard

open Ledger Hlc Trace Wire Words

namespace Machine

/-! ## Arithmetic on balances

What a replica does with an entry, with the additions and subtractions on balances. -/

/-- `ballot` with its operations. -/
def ballotTraced (m : Machine) (cmd : Command) : Traced Arith (Ledger.State × Result) :=
  if cmd.debit then m.state.prepareDebitTraced cmd.txID cmd.ledger.fromAcc cmd.ledger.amount
  else return (m.state, m.state.prepareCredit cmd.txID cmd.ledger.toAcc cmd.ledger.amount)

/-- `vote` with its operations. -/
def voteTraced (m : Machine) (cmd : Command) : Traced Arith (Machine × Result) := do
  let (st, res) ← m.ballotTraced cmd
  return ({ m with state := st, txs := m.txs.insert cmd.txID (voteRecord cmd res.ok) }, res)

/-- `applyPrepare` with its operations. -/
def applyPrepareTraced (m : Machine) (cmd : Command) : Traced Arith (Machine × Result) :=
  match m.txs.lookup cmd.txID with
  | some prev =>
    if prev.decided ∨ prev.phase.terminal then
      return (m, { err := str "shard: transaction " ++ cmd.txID ++ str " is already "
                    ++ prev.phase.text ++ str "; transaction ids are single-use" })
    else if prev.phase = .prepared then return (m, { ok := true })
    else m.voteTraced cmd
  | none => m.voteTraced cmd

/-- `settle` with its operations. -/
def settleTraced (m : Machine) (cmd : Command) (r : TxRecord) :
    Traced Arith (Ledger.State × Result) :=
  if cmd.commit then
    if r.debit then m.state.commitDebitTraced cmd.txID (outcomeTimestamp cmd r)
    else m.state.commitCreditTraced cmd.txID r.cmd.toAcc r.cmd.amount (outcomeTimestamp cmd r)
  else m.state.abortTxTraced cmd.txID

/-- `applyOutcome` with its operations. -/
def applyOutcomeTraced (m : Machine) (cmd : Command) : Traced Arith (Machine × Result) :=
  match m.txs.lookup cmd.txID with
  | none =>
    return (m, { err := str "shard: outcome for unknown transaction " ++ cmd.txID
                  ++ str "; this shard never prepared it" })
  | some r =>
    if r.phase.terminal then return (m, { ok := true })
    else do
      let (st, res) ← m.settleTraced cmd r
      return ({ m with state := st, txs := m.txs.insert cmd.txID (outcomeRecord r cmd) }, res)

/-- `apply` with its operations. -/
def applyTraced (m : Machine) (cmd : Command) : Traced Arith (Machine × Result) :=
  match cmd.op with
  | .single => do
    let (st, res) ← m.state.applyTraced cmd.ledger
    return ({ m with state := st }.recordResult cmd.ledger.idempotencyKey res, res)
  | .prepare => m.applyPrepareTraced cmd
  -- a decision is a record only
  | .decision => return m.applyDecision cmd
  | .outcome => m.applyOutcomeTraced cmd
  | .other _ _ => return (m, { err := str "shard: unknown op" })

/-- `applyData` with the additions and subtractions on balances it performs. -/
def applyDataTraced (m : Machine) (data : Bytes) : Traced Arith (Machine × Result) :=
  match decodeCommand data with
  | .ok cmd => m.applyTraced cmd
  | .error err => return (m, { err := err })

variable {m : Machine}

section Sound

variable (h : m.state.Sound)

include h

theorem computes_vote (cmd : Command) : Computes Arith.Exact (m.voteTraced cmd) (m.vote cmd) := by
  have hballot : Computes Arith.Exact (m.ballotTraced cmd) (m.ballot cmd) := by
    rw [ballotTraced, ballot]
    split
    · exact h.computes_prepareDebit _ _ _
    · exact computes_pure _
  exact hballot.bind (computes_pure _)

theorem computes_settle (cmd : Command) (r : TxRecord) :
    Computes Arith.Exact (m.settleTraced cmd r) (m.settle cmd r) := by
  rw [settleTraced, settle]
  split
  · split
    · exact h.computes_commitDebit _ _
    · exact h.computes_commitCredit _ _ _ _
  · exact h.computes_abortTx _

theorem computes_apply (cmd : Command) :
    Computes Arith.Exact (m.applyTraced cmd) (m.apply cmd) := by
  rw [applyTraced, apply]
  cases cmd.op with
  | single => exact (h.computes_apply _).bind (computes_pure _)
  | prepare =>
    dsimp only
    rw [applyPrepareTraced, applyPrepare]
    cases m.txs.lookup cmd.txID with
    | none => exact computes_vote h cmd
    | some prev =>
      dsimp only
      split
      · exact computes_pure _
      split
      · exact computes_pure _
      · exact computes_vote h cmd
  | decision | other => exact computes_pure _
  | outcome =>
    dsimp only
    rw [applyOutcomeTraced, applyOutcome]
    cases m.txs.lookup cmd.txID with
    | none => exact computes_pure _
    | some r =>
      dsimp only
      split
      · exact computes_pure _
      · exact (computes_settle h cmd r).bind (computes_pure _)

theorem computes_applyData (data : Bytes) :
    Computes Arith.Exact (m.applyDataTraced data) (m.applyData data) := by
  rw [applyDataTraced, applyData]
  cases decodeCommand data with
  | ok cmd => exact computes_apply h cmd
  | error err => exact computes_pure _

/-! ## Every entry keeps the books -/

theorem sound_ballot (cmd : Command) : (m.ballot cmd).1.Sound := by
  rw [ballot]
  split
  · exact h.prepareDebit _ _ _
  · exact h

theorem sound_settle (cmd : Command) (r : TxRecord) : (m.settle cmd r).1.Sound := by
  rw [settle]
  split
  · split
    · exact h.commitDebit _ _
    · exact h.commitCredit _ _ _ _
  · exact h.abortTx _

theorem sound_apply (cmd : Command) : (m.apply cmd).1.state.Sound := by
  obtain ⟨st, txs, res, hst, -, -, he⟩ := exists_effect m cmd
  rw [hst]
  cases he with
  | nothing | decision => exact h
  | client => exact h.apply _
  | vote => exact sound_ballot h cmd
  | outcome => exact sound_settle h cmd _

theorem sound_applyData (data : Bytes) : (m.applyData data).1.state.Sound := by
  rw [applyData]
  split
  · exact sound_apply h _
  · exact h

theorem sound_applyAll (ds : List Bytes) : (m.applyAll ds).state.Sound := by
  induction ds generalizing m with
  | nil => exact h
  | cons d ds ih => exact ih (sound_applyData h d)

end Sound

/-- **Solvency.**  After any bytes, every account covers its reservations, adding them up in any
order is exact, every reservation is a positive amount on an account that exists, and whatever comes
next, no addition or subtraction on a balance that `Apply` performs for it wraps. -/
theorem solvency (ds : List Bytes) (d : Bytes) :
    (∀ id bal, (applyAll {} ds).state.balances.lookup id = some bal →
      0 ≤ ((applyAll {} ds).state.reservedLocked id).toInt
        ∧ ((applyAll {} ds).state.reservedLocked id).toInt ≤ bal.toInt
        ∧ bal.toInt ≤ 2 ^ 63 - 1
        ∧ ((applyAll {} ds).state.reservedLocked id).toInt
            = total ((applyAll {} ds).state.holds id)
        ∧ ∀ part : List Money, part.Subperm ((applyAll {} ds).state.holds id) →
            part.sum.toInt = total part)
      ∧ (∀ tx r, (applyAll {} ds).state.reserves.lookup tx = some r →
          0 < r.amount.toInt ∧ ∃ bal, (applyAll {} ds).state.balances.lookup r.account = some bal)
      ∧ value ((applyAll {} ds).applyDataTraced d) = (applyAll {} ds).applyData d
      ∧ ∀ o ∈ steps ((applyAll {} ds).applyDataTraced d), o.Exact := by
  have h := sound_applyAll (m := {}) State.sound_empty ds
  generalize applyAll {} ds = m at h
  obtain ⟨hvalue, hexact⟩ := computes_applyData h d
  refine ⟨fun id bal hbal => ?_, fun tx r hr => ?_, hvalue, hexact⟩
  · have hres := h.toInt_reservedLocked hbal
    have hl := h.held_nonneg id
    have hcov := h.covered hbal
    have hu := bal.toInt_lt
    refine ⟨by omega, by omega, by omega, hres, fun part hpart => ?_⟩
    have hpos : ∀ a ∈ m.state.holds id, 0 ≤ a.toInt := fun a ha => (h.holds_pos a ha).le
    have hle := total_le_of_subperm hpart hpos
    have hnn : 0 ≤ total part := total_nonneg fun a ha => hpos a (hpart.subset ha)
    exact toInt_sum_of_fits (by omega) (by omega)
  · obtain ⟨hpos, hacc⟩ := h.backed hr
    exact ⟨hpos, Option.isSome_iff_exists.1 (AList.lookup_isSome.2 hacc)⟩

end Machine
end CoreBank.Shard
