import CoreBank.Ledger.State

/-!
# The shard state machine

Each shard's Raft group replicates a `Machine`: the ledger of the shard together with the durable
records of the distributed transactions it takes part in.  Every step of the two-phase commit is a
log entry, a `Command`, and `Machine.apply` is what a replica does with it.

`Effect` says, once, everything an entry can do to the ledger and to the records, and `TxStep` what
becomes of the record of one transaction; the results about whole logs are derived from these and
never unfold `apply` again.
-/

set_option autoImplicit false

namespace CoreBank.Shard

open Ledger Hlc

/-- A shard, that is a Raft group. -/
abbrev ID := Str

/-- A distributed transaction. -/
abbrev TxID := Str

/-- A shard's state for one transaction. -/
inductive Phase
  | none
  | prepared
  | committed
  | aborted
deriving DecidableEq

/-- What `String` prints. -/
def Phase.text : Phase → Str
  | .none => str "None"
  | .prepared => str "Prepared"
  | .committed => str "Committed"
  | .aborted => str "Aborted"

/-- No outcome is applied to a transaction in this phase any more. -/
def Phase.terminal (p : Phase) : Prop := p = .committed ∨ p = .aborted

instance (p : Phase) : Decidable p.terminal := inferInstanceAs (Decidable (_ ∨ _))

/-- The kind of a log entry.  As for the ledger, codes that name none are kept. -/
inductive Op
  | prepare
  | decision
  | outcome
  | single
  | other (code : UInt8) (h : 4 < code ∨ code = 0)
deriving DecidableEq

/-- A log entry of a shard. -/
structure Command where
  op : Op
  txID : TxID
  ledger : Ledger.Command
  /-- The decision, for `decision` and `outcome`. -/
  commit : Bool
  /-- Whether this shard is the debit side. -/
  debit : Bool
  participants : List ID
  coordinator : ID
deriving DecidableEq

/-- The durable state of one distributed transaction at one shard. -/
structure TxRecord where
  id : TxID
  phase : Phase
  cmd : Ledger.Command
  debit : Bool
  participants : List ID
  coordinator : ID
  decided : Bool
  commit : Bool
deriving DecidableEq

/-- The state machine of a shard group. -/
structure Machine where
  state : Ledger.State := {}
  txs : Map TxID TxRecord := ∅
  results : Map Str Result := ∅
  /-- The result of the entry at each log index. -/
  byIndex : Map Nat Result := ∅

namespace Machine

/-- The ledger's vote: the debit side reserves the funds, the credit side looks the account up. -/
def ballot (m : Machine) (cmd : Command) : Ledger.State × Result :=
  if cmd.debit then m.state.prepareDebit cmd.txID cmd.ledger.fromAcc cmd.ledger.amount
  else (m.state, m.state.prepareCredit cmd.txID cmd.ledger.toAcc cmd.ledger.amount)

/-- The record of a vote.  A NO is recorded too, so that a restart cannot turn it into a maybe. -/
def voteRecord (cmd : Command) (yes : Bool) : TxRecord :=
  if yes then
    { id := cmd.txID, phase := .prepared, cmd := cmd.ledger, debit := cmd.debit,
      participants := cmd.participants, coordinator := cmd.coordinator, decided := false,
      commit := false }
  else
    { id := cmd.txID, phase := .aborted, cmd := cmd.ledger, debit := cmd.debit,
      participants := [], coordinator := [], decided := true, commit := false }

/-- Votes on a transaction that is new here, and records the vote. -/
def vote (m : Machine) (cmd : Command) : Machine × Result :=
  let (st, res) := m.ballot cmd
  ({ m with state := st, txs := m.txs.insert cmd.txID (voteRecord cmd res.ok) }, res)

/-- A transaction id is single-use: one that is decided or terminal is refused, one that is already
prepared repeats its YES. -/
def applyPrepare (m : Machine) (cmd : Command) : Machine × Result :=
  match m.txs.lookup cmd.txID with
  | some prev =>
    if prev.decided ∨ prev.phase.terminal then
      (m, { err := str "shard: transaction " ++ cmd.txID ++ str " is already " ++ prev.phase.text
              ++ str "; transaction ids are single-use" })
    else if prev.phase = .prepared then (m, { ok := true })
    else m.vote cmd
  | none => m.vote cmd

/-- The record a decision finds, or makes for itself. -/
def decisionBase (m : Machine) (cmd : Command) : TxRecord :=
  (m.txs.lookup cmd.txID).getD
    { id := cmd.txID, phase := .none, cmd := cmd.ledger, debit := cmd.debit, participants := [],
      coordinator := [], decided := false, commit := false }

/-- The record after a decision. -/
def decisionRecord (prev : TxRecord) (cmd : Command) : TxRecord :=
  { prev with
    decided := true
    commit := cmd.commit
    participants := if cmd.participants ≠ [] then cmd.participants else prev.participants
    coordinator := if cmd.coordinator ≠ [] then cmd.coordinator else prev.coordinator }

/-- Records the coordinator's decision. -/
def applyDecision (m : Machine) (cmd : Command) : Machine × Result :=
  ({ m with txs := m.txs.insert cmd.txID (decisionRecord (m.decisionBase cmd) cmd) },
    { ok := true })

/-- The timestamp a leg is booked under: the outcome's own, or the one of the prepare. -/
def outcomeTimestamp (cmd : Command) (r : TxRecord) : Timestamp :=
  if cmd.ledger.timestamp.isZero then r.cmd.timestamp else cmd.ledger.timestamp

/-- What an outcome does to the balances. -/
def settle (m : Machine) (cmd : Command) (r : TxRecord) : Ledger.State × Result :=
  if cmd.commit then
    if r.debit then m.state.commitDebit cmd.txID (outcomeTimestamp cmd r)
    else m.state.commitCredit cmd.txID r.cmd.toAcc r.cmd.amount (outcomeTimestamp cmd r)
  else m.state.abortTx cmd.txID

/-- The record after an outcome. -/
def outcomeRecord (r : TxRecord) (cmd : Command) : TxRecord :=
  { r with
    phase := if cmd.commit then .committed else .aborted, decided := true, commit := cmd.commit }

/-- Applies the decision to this shard's balances, unless the transaction is unknown here or already
terminal. -/
def applyOutcome (m : Machine) (cmd : Command) : Machine × Result :=
  match m.txs.lookup cmd.txID with
  | none =>
    (m, { err := str "shard: outcome for unknown transaction " ++ cmd.txID
            ++ str "; this shard never prepared it" })
  | some r =>
    if r.phase.terminal then (m, { ok := true })
    else
      let (st, res) := m.settle cmd r
      ({ m with state := st, txs := m.txs.insert cmd.txID (outcomeRecord r cmd) }, res)

/-- Commands without a key leave no result. -/
def recordResult (m : Machine) (key : Str) (res : Result) : Machine :=
  if key = [] then m else { m with results := m.results.insert key res }

/-- What a replica does with an entry. -/
def apply (m : Machine) (cmd : Command) : Machine × Result :=
  match cmd.op with
  | .single =>
    let (st, res) := m.state.apply cmd.ledger
    ({ m with state := st }.recordResult cmd.ledger.idempotencyKey res, res)
  | .prepare => m.applyPrepare cmd
  | .decision => m.applyDecision cmd
  | .outcome => m.applyOutcome cmd
  | .other _ _ => (m, { err := str "shard: unknown op" })

/-- Applies the entry at a log index and keeps its result under that index. -/
def applyAt (m : Machine) (index : Nat) (cmd : Command) : Machine :=
  let (m', res) := m.apply cmd
  { m' with byIndex := m'.byIndex.insert index res }

/-- The result recorded for the entry at an index. -/
def appliedResult (m : Machine) (index : Nat) : Result :=
  (m.byIndex.lookup index).getD { ok := true }

/-- The durable record of a transaction. -/
def tx (m : Machine) (id : TxID) : Option TxRecord := m.txs.lookup id

/-- The transactions prepared here and not yet settled. -/
def inDoubt (m : Machine) : List TxID :=
  (m.txs.entries.filter fun r => r.2.phase = .prepared).map Sigma.fst

/-- The outcome of a transaction, if this shard knows it. -/
def decision (m : Machine) (id : TxID) : Option Bool :=
  match m.txs.lookup id with
  | some r => if r.decided then some r.commit else none
  | none => none

/-- The phase of a transaction; one without a record is in no phase. -/
def phase (m : Machine) (id : TxID) : Phase :=
  match m.txs.lookup id with
  | some r => r.phase
  | none => .none

end Machine

/-! ## What an entry does -/

namespace Machine

theorem txs_recordResult (m : Machine) (key : Str) (res : Result) :
    (m.recordResult key res).txs = m.txs := by
  unfold recordResult
  split <;> rfl

theorem state_recordResult (m : Machine) (key : Str) (res : Result) :
    (m.recordResult key res).state = m.state := by
  unfold recordResult
  split <;> rfl

/-- The ledger, the records and the result after the entry `c`. -/
inductive Effect (m : Machine) (c : Command) : Ledger.State → Map TxID TxRecord → Result → Prop
  /-- Nothing: a refusal, or a message that was heard before. -/
  | nothing (res : Result) (hdecision : c.op ≠ .decision)
      (hprepare : c.op = .prepare → res.ok = true → m.phase c.txID = .prepared)
      (houtcome : c.op = .outcome → ∀ r, m.txs.lookup c.txID = some r → r.phase.terminal) :
      Effect m c m.state m.txs res
  | client (hop : c.op = .single) :
      Effect m c (m.state.apply c.ledger).1 m.txs (m.state.apply c.ledger).2
  /-- A vote on a transaction that has neither been voted on nor decided here. -/
  | vote (hop : c.op = .prepare)
      (hnew : ∀ x, m.txs.lookup c.txID = some x → x.phase = .none ∧ x.decided = false) :
      Effect m c (m.ballot c).1 (m.txs.insert c.txID (voteRecord c (m.ballot c).2.ok))
        (m.ballot c).2
  | decision (hop : c.op = .decision) :
      Effect m c m.state (m.txs.insert c.txID (decisionRecord (m.decisionBase c) c)) { ok := true }
  | outcome (hop : c.op = .outcome) {r : TxRecord} (hr : m.txs.lookup c.txID = some r)
      (ht : ¬ r.phase.terminal) :
      Effect m c (m.settle c r).1 (m.txs.insert c.txID (outcomeRecord r c)) (m.settle c r).2

theorem effect_applyPrepare (m : Machine) {c : Command} (hop : c.op = .prepare) :
    Effect m c (m.applyPrepare c).1.state (m.applyPrepare c).1.txs (m.applyPrepare c).2 := by
  rw [applyPrepare]
  split
  next prev hprev =>
    have hquiet (res : Result) (hres : res.ok = true → prev.phase = .prepared) :
        Effect m c m.state m.txs res :=
      .nothing res (by simp [hop]) (fun _ h => by rw [phase, hprev]; exact hres h) (by simp [hop])
    split
    · exact hquiet _ fun h => by cases h
    next hnd =>
      split
      next hp => exact hquiet _ fun _ => hp
      next hnp =>
        refine .vote hop fun x hx => ?_
        rw [hprev, Option.some.injEq] at hx
        subst hx
        rw [not_or, Bool.not_eq_true] at hnd
        refine ⟨?_, hnd.1⟩
        cases hph : prev.phase with
        | none => rfl
        | prepared => exact absurd hph hnp
        | committed => exact absurd (.inl hph) hnd.2
        | aborted => exact absurd (.inr hph) hnd.2
  next hnone => exact .vote hop fun x hx => by rw [hnone] at hx; cases hx

/-- **What an entry does.** -/
theorem effect_apply (m : Machine) (c : Command) :
    Effect m c (m.apply c).1.state (m.apply c).1.txs (m.apply c).2 := by
  rw [apply]
  split
  next hop =>
    dsimp only
    rw [txs_recordResult, state_recordResult]
    exact .client hop
  next hop => exact effect_applyPrepare m hop
  next hop => exact .decision hop
  next hop =>
    rw [applyOutcome]
    split
    next hnone =>
      refine .nothing _ (by simp [hop]) (by simp [hop]) fun _ r hr => ?_
      rw [hnone] at hr
      cases hr
    next r hr =>
      split
      next ht =>
        refine .nothing _ (by simp [hop]) (by simp [hop]) fun _ r' hr' => ?_
        rw [hr, Option.some.injEq] at hr'
        exact hr' ▸ ht
      next ht => exact .outcome hop hr ht
  next hop => exact .nothing _ (by simp [hop]) (by simp [hop]) (by simp [hop])

theorem exists_effect (m : Machine) (c : Command) : ∃ st txs res, (m.apply c).1.state = st ∧
    (m.apply c).1.txs = txs ∧ (m.apply c).2 = res ∧ Effect m c st txs res :=
  ⟨_, _, _, rfl, rfl, rfl, effect_apply m c⟩

end Machine

/-! ## What an entry does to the record of a transaction -/

/-- The record of the transaction `c.txID` before and after the entry `c`. -/
inductive TxStep (c : Command) : Option TxRecord → Option TxRecord → Prop
  /-- The entry leaves the record alone. -/
  | same (r : Option TxRecord) : TxStep c r r
  /-- A YES vote. -/
  | yes {r : Option TxRecord} {r' : TxRecord} (hop : c.op = .prepare)
      (hr : ∀ x, r = some x → x.phase = .none ∧ x.decided = false) (hp : r'.phase = .prepared)
      (hd : r'.decided = false) : TxStep c r (some r')
  /-- A NO vote. -/
  | no {r : Option TxRecord} {r' : TxRecord} (hop : c.op = .prepare)
      (hr : ∀ x, r = some x → x.phase = .none ∧ x.decided = false) (hp : r'.phase = .aborted)
      (hc : r'.commit = false) : TxStep c r (some r')
  /-- A decision: it sets the flag and keeps the phase. -/
  | decision {r : Option TxRecord} {r' : TxRecord} (hop : c.op = .decision)
      (hp : r'.phase = (r.map TxRecord.phase).getD .none) (hd : r'.decided = true)
      (hc : r'.commit = c.commit) : TxStep c r (some r')
  /-- An outcome for a transaction that has none yet. -/
  | outcome {r r' : TxRecord} (hop : c.op = .outcome) (ht : ¬ r.phase.terminal)
      (hp : r'.phase = if c.commit then .committed else .aborted) (hd : r'.decided = true)
      (hc : r'.commit = c.commit) : TxStep c (some r) (some r')

namespace Machine

variable {m : Machine} {c : Command} {id : TxID}

/-- **What an entry does to its transaction.** -/
theorem txStep_apply (m : Machine) (c : Command) :
    TxStep c (m.txs.lookup c.txID) ((m.apply c).1.txs.lookup c.txID) := by
  obtain ⟨st, txs, res, -, htxs, -, he⟩ := exists_effect m c
  rw [htxs]
  cases he with
  | nothing | client => exact .same _
  | vote hop hnew =>
    rw [AList.lookup_insert]
    cases (m.ballot c).2.ok with
    | true => exact .yes hop hnew rfl rfl
    | false => exact .no hop hnew rfl rfl
  | decision hop =>
    rw [AList.lookup_insert]
    refine .decision hop ?_ rfl rfl
    rw [decisionRecord, decisionBase]
    cases m.txs.lookup c.txID <;> rfl
  | outcome hop hr ht =>
    rw [AList.lookup_insert, hr]
    exact .outcome hop ht rfl rfl rfl

/-- An entry leaves the records of all other transactions alone. -/
theorem lookup_apply_ne (m : Machine) (h : id ≠ c.txID) :
    (m.apply c).1.txs.lookup id = m.txs.lookup id := by
  obtain ⟨st, txs, res, -, htxs, -, he⟩ := exists_effect m c
  rw [htxs]
  cases he with
  | nothing | client => rfl
  | vote | decision | outcome => exact AList.lookup_insert_ne h

theorem phase_of_ok_prepare (hop : c.op = .prepare) (hok : (m.apply c).2.ok = true) :
    (m.apply c).1.phase c.txID = .prepared := by
  obtain ⟨st, txs, res, -, htxs, hres, he⟩ := exists_effect m c
  rw [hres] at hok
  rw [phase, htxs]
  cases he with
  | nothing res hd hp => exact hp hop hok
  | vote =>
    rw [AList.lookup_insert, hok]
    rfl
  | client hop' | decision hop' | outcome hop' => cases hop.symm.trans hop'

theorem history_ballot (m : Machine) (c : Command) :
    (m.ballot c).1.history = m.state.history := by
  rw [ballot]
  split
  · exact history_prepareDebit _ _ _ _
  · rfl

/-- A leg is booked only by a commit outcome for its own transaction. -/
theorem booked_of_apply (h : Booked (m.apply c).1.state id) :
    Booked m.state id ∨ (c.op = .outcome ∧ c.commit = true ∧ c.txID = id) := by
  obtain ⟨st, txs, res, hst, -, -, he⟩ := exists_effect m c
  rw [hst] at h
  cases he with
  | nothing | decision => exact .inl h
  | client => exact .inl h.of_apply
  | vote =>
    obtain ⟨t, ht, hk⟩ := h
    exact .inl ⟨t, history_ballot m c ▸ ht, hk⟩
  | outcome hop hr ht =>
    rw [settle] at h
    split at h
    next hc =>
      split at h
      · exact h.of_commitDebit.imp_right fun e => ⟨hop, hc, e⟩
      · exact h.of_commitCredit.imp_right fun e => ⟨hop, hc, e⟩
    · obtain ⟨t, ht, hk⟩ := h
      exact .inl ⟨t, history_abortTx m.state c.txID ▸ ht, hk⟩

end Machine

end CoreBank.Shard
