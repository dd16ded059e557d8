import CoreBank.Lib.Run
import CoreBank.Shard.Books

/-!
# Snapshots of a shard

The ledger snapshot, the transaction records and the single-shard results, as bytes and back.  The
encoding of a record leaves out the clock reading of its command, so what comes back is the machine
with `TxRecord.unstamped` records (`restoreSnapshot_snapshot`).  Whether later entries can tell the
difference is decided in `invisible_iff`.
-/

set_option autoImplicit false

namespace CoreBank.Shard

open Ledger Hlc Wire Words ActionSystem

/-- The number of a phase. -/
def Phase.code : Phase → Nat
  | .none => 0
  | .prepared => 1
  | .committed => 2
  | .aborted => 3

/-- The phase a number stands for; the conversion keeps its low byte.  A byte that names no phase is
taken as `none`: phases are only ever compared with the other three, so it acts like one. -/
def Phase.ofCode (n : Nat) : Phase :=
  let b := UInt8.ofNat n
  if b = 1 then .prepared
  else if b = 2 then .committed
  else if b = 3 then .aborted
  else .none

/-- A word. -/
def readPhase : Reader Phase := Phase.ofCode <$> word

theorem reads_phase (p : Phase) : Reads readPhase (putWord p.code) p := by
  have hcode : p.code < 2 ^ 64 := by cases p <;> simp [Phase.code]
  exact (reads_word hcode).map (by cases p <;> rfl)

/-- The record as a snapshot keeps it. -/
def TxRecord.unstamped (r : TxRecord) : TxRecord :=
  { r with cmd := { r.cmd with timestamp := .zero } }

/-- One record; its command's timestamp is left out. -/
def putTx (r : TxRecord) : Bytes :=
  putBlob r.id ++ (putWord r.phase.code ++ (putBool r.debit ++ (putBool r.decided
    ++ (putBool r.commit ++ (putBlob r.coordinator ++ (putList putBlob r.participants
    ++ (putOp r.cmd.op ++ (putBlob r.cmd.idempotencyKey ++ (putBlob r.cmd.fromAcc
    ++ (putBlob r.cmd.toAcc ++ putMoney r.cmd.amount))))))))))

/-- Reads what `putTx` writes. -/
def readTx : Reader TxRecord := do
  let id ← blob
  let phase ← readPhase
  let debit ← bool
  let decided ← bool
  let commit ← bool
  let coordinator ← blob
  let participants ← list blob
  let op ← readOp
  let key ← blob
  let fromAcc ← blob
  let toAcc ← blob
  let amount ← money
  return { id := id, phase := phase, debit := debit, decided := decided, commit := commit,
           coordinator := coordinator, participants := participants,
           cmd := { op := op, idempotencyKey := key, fromAcc := fromAcc, toAcc := toAcc,
                    amount := amount, timestamp := .zero } }

theorem reads_tx (r : TxRecord) (h : (putTx r).length < 2 ^ 64) :
    Reads readTx (putTx r) r.unstamped := by
  simp only [putTx, List.length_append] at h
  have hparts : Reads (list blob) (putList putBlob r.participants) r.participants :=
    reads_list_of_length (by omega) (fun p _ => by simp) fun p _ => reads_blob_of_length
  exact (reads_blob_of_length (by omega)).bind ((reads_phase r.phase).bind
    ((reads_bool r.debit).bind ((reads_bool r.decided).bind ((reads_bool r.commit).bind
    ((reads_blob_of_length (by omega)).bind (hparts.bind ((reads_op r.cmd.op).bind
    ((reads_blob_of_length (by omega)).bind ((reads_blob_of_length (by omega)).bind
    ((reads_blob_of_length (by omega)).bind ((reads_money r.cmd.amount).last rfl)))))))))))

namespace Machine

/-- The records in the order of their keys. -/
def records (m : Machine) : List TxRecord := (Maps.sorted m.txs).map Sigma.snd

/-- The bytes of a snapshot. -/
def bytes (m : Machine) (ledgerData : Bytes) : Bytes :=
  putBlob ledgerData ++ (putList putTx m.records ++ putMap putResult m.results)

/-- `Snapshot` of the source. -/
def snapshot (m : Machine) : Option Bytes := do
  let ledgerData ← m.state.snapshot
  buffer (m.bytes ledgerData)

/-- The records by their own ids. -/
def byID (rs : List TxRecord) : Map TxID TxRecord :=
  Maps.ofBindings (rs.map fun r => (⟨r.id, r⟩ : Σ _ : TxID, TxRecord))

/-- Reads what `bytes` writes. -/
def readMachine : Reader (Bytes × List TxRecord × Map Str Result) := do
  let ledgerData ← blob
  let txs ← list readTx
  let results ← readMap readResult
  return (ledgerData, txs, results)

/-- `RestoreSnapshot` of the source: the machine that takes the old one's place, or nothing if the
bytes end too early.  The results by index start afresh. -/
def restoreSnapshot (data : Bytes) : Option Machine := do
  let ((ledgerData, txs, results), _) ← readMachine data
  let st ← State.restoreSnapshot ledgerData
  return { state := st, txs := byID txs, results := results, byIndex := ∅ }

/-- What is restored from a snapshot of `m`. -/
def restored (m : Machine) : Machine :=
  { state := m.state.restored, txs := byID (m.records.map TxRecord.unstamped),
    results := reread m.results, byIndex := ∅ }

/-- A snapshot files a record under the id it carries, so that should be its key. -/
def Keyed (m : Machine) : Prop := ∀ id r, m.txs.lookup id = some r → r.id = id

variable {m : Machine}

theorem reads_machine {ledgerData : Bytes} (h : (m.bytes ledgerData).length < 2 ^ 64) :
    Reads readMachine (m.bytes ledgerData)
      (ledgerData, m.records.map TxRecord.unstamped, reread m.results) := by
  simp only [bytes, List.length_append] at h
  have hlist : Reads (list readTx) (putList putTx m.records) (m.records.map TxRecord.unstamped) :=
    reads_list_map (by omega) (fun r _ => by simp [putTx]) fun r _ => reads_tx r
  exact (reads_blob_of_length (by omega)).bind
    (hlist.bind ((reads_map m.results (by omega) reads_result).last rfl))

/-- **A snapshot is read back**, without the clock readings. -/
theorem restoreSnapshot_snapshot (h : m.state.Audited) {b : Bytes} (hb : m.snapshot = some b) :
    restoreSnapshot b = some m.restored := by
  rw [snapshot, Option.bind_eq_bind, Option.bind_eq_some_iff] at hb
  obtain ⟨ledgerData, hledger, hbuf⟩ := hb
  obtain ⟨rfl, hlen⟩ := length_of_buffer hbuf
  have hrun : readMachine (m.bytes ledgerData) =
      some ((ledgerData, m.records.map TxRecord.unstamped, reread m.results), []) :=
    (reads_machine (by omega)).run
  rw [restoreSnapshot, hrun, Option.bind_eq_bind, Option.bind_some]
  dsimp only
  rw [State.restoreSnapshot_snapshot h hledger]
  rfl

/-! ## Every entry files records under their ids -/

theorem Keyed.insert (h : Keyed m) {r : TxRecord} {id : TxID} (hid : r.id = id) :
    ∀ id' r', (m.txs.insert id r).lookup id' = some r' → r'.id = id' := by
  intro id' r' hr'
  by_cases heq : id' = id
  · subst heq
    rw [AList.lookup_insert, Option.some.injEq] at hr'
    rw [← hr', hid]
  · rw [AList.lookup_insert_ne heq] at hr'
    exact h id' r' hr'

theorem keyed_apply (h : Keyed m) (cmd : Command) : Keyed (m.apply cmd).1 := by
  obtain ⟨st, txs, res, -, htxs, -, he⟩ := exists_effect m cmd
  rw [Keyed, htxs]
  cases he with
  | nothing | client => exact h
  | vote =>
    refine h.insert ?_
    rw [voteRecord]
    split <;> rfl
  | decision =>
    refine h.insert ?_
    rw [decisionRecord, decisionBase]
    cases hr : m.txs.lookup cmd.txID with
    | none => rfl
    | some r => exact h _ r hr
  | @outcome _ r hr => exact Keyed.insert (r := outcomeRecord r cmd) h (h _ r hr)

theorem keyed_applyData (h : Keyed m) (data : Bytes) :
    Keyed (m.applyData data).1 := by
  rw [applyData]
  split
  · exact keyed_apply h _
  · exact h

/-! ## The same machine -/

/-- The same ledger, transaction records and results.  The results by index are not compared: a
snapshot does not carry them. -/
structure Same (m m' : Machine) : Prop where
  state : m.state.Same m'.state
  txs : m.txs.entries.Perm m'.txs.entries
  results : m.results.entries.Perm m'.results.entries

/-- The records of a map, without the clock readings. -/
theorem entries_restored (h : Keyed m) :
    m.restored.txs.entries.Perm
      (m.txs.entries.map fun b => ⟨b.1, b.2.unstamped⟩) := by
  have hkeys : ((m.records.map TxRecord.unstamped).map fun r => (⟨r.id, r⟩ : Σ _ : TxID, TxRecord))
      = (Maps.sorted m.txs).map fun b => ⟨b.1, b.2.unstamped⟩ := by
    rw [records, List.map_map, List.map_map]
    refine List.map_congr_left fun b hb => ?_
    have hmem : b ∈ m.txs.entries := (Maps.sorted_perm m.txs).mem_iff.1 hb
    have hid : b.2.id = b.1 := h b.1 b.2 (AList.mem_lookup_iff.2 hmem)
    show (⟨b.2.id, b.2.unstamped⟩ : Σ _ : TxID, TxRecord) = ⟨b.1, b.2.unstamped⟩
    rw [hid]
  have hnodup : ((Maps.sorted m.txs).map fun b =>
      (⟨b.1, b.2.unstamped⟩ : Σ _ : TxID, TxRecord)).NodupKeys := by
    have hsorted : (Maps.sorted m.txs).NodupKeys :=
      (List.perm_nodupKeys (Maps.sorted_perm m.txs)).2 m.txs.nodupKeys
    exact List.NodupKeys.map₂ (fun _ => TxRecord.unstamped) _ hsorted
  have hperm := Maps.entries_ofBindings hnodup
  rw [← hkeys] at hperm
  refine hperm.trans ?_
  rw [hkeys]
  exact (Maps.sorted_perm m.txs).map _

/-- Restoring gives the same machine exactly if no record carries a clock reading. -/
theorem same_restored_iff (h : Keyed m) :
    Same m.restored m ↔ ∀ id r, m.txs.lookup id = some r → r.cmd.timestamp = .zero := by
  constructor
  · intro hs id r hr
    have hlookup : m.restored.txs.lookup id = some r :=
      (AList.perm_lookup hs.txs).trans hr
    have hmem := (entries_restored h).mem_iff.1 (AList.mem_lookup_iff.1 hlookup)
    obtain ⟨b, -, hb⟩ := List.mem_map.1 hmem
    obtain ⟨-, hbr⟩ := Sigma.mk.inj hb
    rw [← eq_of_heq hbr]
    rfl
  · intro hz
    refine ⟨State.same_restored _, ?_, reread_perm _⟩
    have hsame : (m.txs.entries.map fun b => (⟨b.1, b.2.unstamped⟩ : Σ _ : TxID, TxRecord))
        = m.txs.entries := by
      conv_rhs => rw [← List.map_id m.txs.entries]
      refine List.map_congr_left fun b hb => ?_
      have hts := hz b.1 b.2 (AList.mem_lookup_iff.2 hb)
      show (⟨b.1, b.2.unstamped⟩ : Σ _ : TxID, TxRecord) = ⟨b.1, b.2⟩
      rw [TxRecord.unstamped, ← hts]
    have hperm := entries_restored h
    rwa [hsame] at hperm

/-- The same outcome: one result, and the same machine. -/
def Alike (p p' : Machine × Result) : Prop := p.2 = p'.2 ∧ Same p.1 p'.1

namespace Same

variable {m m' : Machine} (h : Same m m')

include h

theorem lookup_txs (id : TxID) : m.txs.lookup id = m'.txs.lookup id :=
  AList.perm_lookup h.txs

theorem recordResult (key : Str) (res : Result) :
    Same (m.recordResult key res) (m'.recordResult key res) := by
  rw [Machine.recordResult, Machine.recordResult]
  split
  · exact h
  · exact { h with results := AList.perm_insert h.results }

variable (cmd : Command)

theorem ballot : State.Alike (m.ballot cmd) (m'.ballot cmd) := by
  rw [Machine.ballot, Machine.ballot]
  split
  · exact h.state.prepareDebit _ _ _
  · exact ⟨h.state.prepareCredit cmd.txID _ _, h.state⟩

theorem vote : Alike (m.vote cmd) (m'.vote cmd) := by
  obtain ⟨hres, hst⟩ := h.ballot cmd
  refine ⟨hres, { h with state := hst, txs := ?_ }⟩
  rw [Machine.vote, Machine.vote]
  dsimp only
  rw [hres]
  exact AList.perm_insert h.txs

theorem applyPrepare : Alike (m.applyPrepare cmd) (m'.applyPrepare cmd) := by
  rw [Machine.applyPrepare, Machine.applyPrepare, h.lookup_txs]
  cases m'.txs.lookup cmd.txID with
  | none => exact h.vote cmd
  | some prev =>
    dsimp only
    split
    · exact ⟨rfl, h⟩
    split
    · exact ⟨rfl, h⟩
    · exact h.vote cmd

theorem applyDecision : Alike (m.applyDecision cmd) (m'.applyDecision cmd) := by
  rw [Machine.applyDecision, Machine.applyDecision, decisionBase, decisionBase, h.lookup_txs]
  exact ⟨rfl, { h with txs := AList.perm_insert h.txs }⟩

theorem settle (r : TxRecord) : State.Alike (m.settle cmd r) (m'.settle cmd r) := by
  rw [Machine.settle, Machine.settle]
  split
  · split
    · exact h.state.commitDebit _ _
    · exact h.state.commitCredit _ _ _ _
  · exact h.state.abortTx _

theorem applyOutcome : Alike (m.applyOutcome cmd) (m'.applyOutcome cmd) := by
  rw [Machine.applyOutcome, Machine.applyOutcome, h.lookup_txs]
  cases m'.txs.lookup cmd.txID with
  | none => exact ⟨rfl, h⟩
  | some r =>
    dsimp only
    split
    · exact ⟨rfl, h⟩
    · obtain ⟨hres, hst⟩ := h.settle cmd r
      exact ⟨hres, { h with state := hst, txs := AList.perm_insert h.txs }⟩

theorem apply : Alike (m.apply cmd) (m'.apply cmd) := by
  rw [Machine.apply, Machine.apply]
  cases cmd.op with
  | single =>
    obtain ⟨hres, hst⟩ := h.state.apply cmd.ledger
    refine ⟨hres, ?_⟩
    have hm : Same { m with state := (m.state.apply cmd.ledger).1 }
        { m' with state := (m'.state.apply cmd.ledger).1 } := { h with state := hst }
    dsimp only
    rw [hres]
    exact hm.recordResult _ _
  | prepare => exact h.applyPrepare cmd
  | decision => exact h.applyDecision cmd
  | outcome => exact h.applyOutcome cmd
  | other => exact ⟨rfl, h⟩

theorem applyData (data : Bytes) : Alike (m.applyData data) (m'.applyData data) := by
  rw [Machine.applyData, Machine.applyData]
  cases decodeCommand data with
  | ok cmd => exact h.apply cmd
  | error err => exact ⟨rfl, h⟩

theorem applyAll (ds : List Bytes) : Same (m.applyAll ds) (m'.applyAll ds) := by
  induction ds generalizing m m' with
  | nil => exact h
  | cons d ds ih => exact ih (h.applyData d).2

end Same

/-! ## Runs with snapshots -/

/-- What happens to a replica's machine: it applies the bytes of an entry, or it is snapshotted and
restored. -/
inductive Event
  | data (d : Bytes)
  | roundTrip

/-- A snapshot that does not fit in memory ends the process; one that is refused leaves the machine
as it was. -/
def step (m : Machine) : Event → Option Machine
  | .data d => some (m.applyData d).1
  | .roundTrip => m.snapshot.map fun b => (restoreSnapshot b).getD m

/-- What every reachable machine has. -/
structure Ordered (m : Machine) : Prop where
  sound : m.state.Sound
  keyed : Keyed m

theorem keyed_restored (h : Keyed m) : Keyed m.restored := by
  intro id r hr
  have hmem := (entries_restored h).mem_iff.1 (AList.mem_lookup_iff.1 hr)
  obtain ⟨b, hb, heq⟩ := List.mem_map.1 hmem
  obtain ⟨hid, hrec⟩ := Sigma.mk.inj heq
  rw [← eq_of_heq hrec, ← hid]
  exact h b.1 b.2 (AList.mem_lookup_iff.2 hb)

theorem Ordered.restored (h : Ordered m) : Ordered m.restored :=
  ⟨(State.same_restored m.state).symm.sound h.sound, keyed_restored h.keyed⟩

theorem Ordered.step {m' : Machine} (h : Ordered m) {e : Event} (hs : m.step e = some m') :
    Ordered m' := by
  cases e with
  | data d =>
    obtain rfl := Option.some.inj hs
    exact ⟨sound_applyData h.sound d, keyed_applyData h.keyed d⟩
  | roundTrip =>
    obtain ⟨b, hb, hm'⟩ := Option.map_eq_some_iff.1 hs
    rw [restoreSnapshot_snapshot h.sound.toAudited hb, Option.getD_some] at hm'
    subst hm'
    exact h.restored

theorem ordered_empty : Ordered {} := ⟨State.sound_empty, fun id r hr => by simp at hr⟩

theorem ordered_of_run {es : List Event} (hr : execAll step {} es = some m) :
    Ordered m :=
  (run_of_execAll hr).invariant (fun _ _ _ hs h => h.step hs) ordered_empty

/-- Opens account `A` with 100. -/
def openEntry : Bytes :=
  [4, 0, 0, 0, 0, 0, 0, 0, 0] ++ [4, 1, 0, 107, 0, 0, 1, 0, 65, 100, 0, 0, 0, 0, 0, 0, 0]

/-- **The audit never fails.**  After any entries and snapshots, the accounts are those of the
history, every balance is the integer sum of its entries, the transactions are numbered in order,
and `record` has never been given a transaction it would refuse. -/
theorem audit (es : List Event) (m : Machine) (hrun : execAll step {} es = some m) :
    m.state.verifyDoubleEntry = none
      ∧ (∀ id, id ∈ m.state.balances ↔ ∃ t ∈ m.state.history, ∃ e ∈ t.entries, e.account = id)
      ∧ (∀ id bal, m.state.balances.lookup id = some bal →
          bal.toInt = total (amountsOf (m.state.history.flatMap Transaction.entries) id))
      ∧ (∀ t ∈ m.state.history, t.op = .transfer → t.entries.length = 2 →
          total (t.entries.map Entry.amount) = 0)
      ∧ (∀ i (hi : i < m.state.history.length), (m.state.history.get ⟨i, hi⟩).seq = i + 1)
      ∧ ∀ t ∈ m.state.history, t.balances = true := by
  have h := (ordered_of_run hrun).sound
  refine ⟨h.verifyDoubleEntry, fun id => ?_, fun id bal => h.sums,
    fun t ht => (h.balanced t ht).cancels, fun i hi => ?_, fun t ht => (h.balanced t ht).accepted⟩
  · rw [h.accounts, State.postings]
    simp only [List.mem_flatMap]
    constructor
    · rintro ⟨e, ⟨t, ht, he⟩, hid⟩
      exact ⟨t, ht, e, he, hid⟩
    · rintro ⟨t, ht, e, he, hid⟩
      exact ⟨e, ⟨t, ht, he⟩, hid⟩
  · have hnum : (m.state.history.map Transaction.seq)[i]? =
        (List.range' 1 m.state.history.length)[i]? := by rw [h.numbered]
    simpa [hi, Nat.add_comm] using hnum

/-- A machine that opened an account and was then snapshotted. -/
theorem audit_roundTrip :
    (execAll step {} [.data openEntry, .roundTrip]).isSome = true ∧
      ∀ m, execAll step {} [.data openEntry, .roundTrip] = some m →
        m.state.verifyDoubleEntry = none :=
  ⟨by decide +kernel, fun m hm => (audit _ m hm).1⟩

/-- The two machines cannot be told apart by anything applied later. -/
def Invisible (m m' : Machine) : Prop :=
  ∀ ds : List Bytes, Same (m'.applyAll ds) (m.applyAll ds)
    ∧ ∀ d, ((m'.applyAll ds).applyData d).2 = ((m.applyAll ds).applyData d).2

theorem invisible_iff_same {m' : Machine} : Invisible m m' ↔ Same m' m := by
  constructor
  · exact fun h => (h []).1
  · exact fun h ds => ⟨h.applyAll ds, fun d => ((h.applyAll ds).applyData d).1⟩

/-- **Compaction is invisible** exactly as long as no transaction record carries a clock reading. -/
theorem invisible_iff (es : List Event) (m : Machine) (b : Bytes)
    (hrun : execAll step {} es = some m) (hb : m.snapshot = some b) :
    ∃ m', restoreSnapshot b = some m' ∧
      (Invisible m m' ↔ ∀ id r, m.txs.lookup id = some r → r.cmd.timestamp = .zero) := by
  have h := ordered_of_run hrun
  refine ⟨m.restored, restoreSnapshot_snapshot h.sound.toAudited hb, ?_⟩
  rw [invisible_iff_same, same_restored_iff h.keyed]

/-! ## A promise whose clock reading is lost

The credit side of a transfer votes at clock reading 7.  Its outcome carries no reading of its own,
so the leg is booked under the one of the prepare, unless the machine went through a snapshot. -/

/-- Prepares a credit of 10 to `A` in transaction `t`, without a clock reading. -/
def plainPrepareEntry : Bytes :=
  [1, 0, 1, 116, 0, 0, 0, 0, 0, 0] ++ [3, 1, 0, 116, 0, 0, 1, 0, 65, 10, 0, 0, 0, 0, 0, 0, 0]

/-- The same, at wall clock 7. -/
def prepareEntry : Bytes := plainPrepareEntry ++ [7, 0, 0, 0, 0, 0, 0, 0, 0, 0, 0, 0]

/-- Commits `t`, without a clock reading. -/
def commitEntry : Bytes :=
  [3, 0, 1, 116, 1, 0, 0, 0, 0, 0] ++ [3, 1, 0, 116, 0, 0, 1, 0, 65, 10, 0, 0, 0, 0, 0, 0, 0]

/-- The leg is booked under reading zero after the snapshot, and under 7 without it. -/
theorem restored_leg_unstamped :
    ∃ m b m', execAll step {} [.data openEntry, .data prepareEntry] = some m
      ∧ m.snapshot = some b ∧ restoreSnapshot b = some m'
      ∧ (m'.applyAll [commitEntry]).state.history.map Transaction.timestamp = [⟨0, 0⟩, ⟨0, 0⟩]
      ∧ (m.applyAll [commitEntry]).state.history.map Transaction.timestamp = [⟨0, 0⟩, ⟨7, 0⟩]
      ∧ ¬ Invisible m m' := by
  obtain ⟨m, hm, b, hb, m', hm', hrestored, hkept⟩ :
      ∃ m ∈ execAll step {} [.data openEntry, .data prepareEntry], ∃ b ∈ m.snapshot,
        ∃ m' ∈ restoreSnapshot b,
          (m'.applyAll [commitEntry]).state.history.map Transaction.timestamp = [⟨0, 0⟩, ⟨0, 0⟩] ∧
          (m.applyAll [commitEntry]).state.history.map Transaction.timestamp
            = [⟨0, 0⟩, ⟨7, 0⟩] := by decide +kernel
  refine ⟨m, b, m', hm, hb, hm', hrestored, hkept, fun hinv => ?_⟩
  have hsame := (hinv [commitEntry]).1.state.history
  rw [hsame, hkept] at hrestored
  exact absurd hrestored (by decide)

/-- A promise made without a clock reading survives a snapshot. -/
theorem plain_promise_restored :
    ∃ m b m', execAll step {} [.data openEntry, .data plainPrepareEntry] = some m
      ∧ m.snapshot = some b ∧ restoreSnapshot b = some m'
      ∧ (m.txs.lookup [116]).isSome ∧ Invisible m m' := by
  obtain ⟨m, hm, b, hb, hsome, hzero⟩ :
      ∃ m ∈ execAll step {} [.data openEntry, .data plainPrepareEntry], ∃ b ∈ m.snapshot,
        (m.txs.lookup [116]).isSome ∧ ∀ r ∈ m.txs.entries, r.2.cmd.timestamp = .zero := by
    decide +kernel
  obtain ⟨m', hm', hiff⟩ := invisible_iff _ m b hm hb
  refine ⟨m, b, m', hm, hb, hm', hsome, hiff.2 fun id r hr => ?_⟩
  exact hzero ⟨id, r⟩ (AList.mem_lookup_iff.1 hr)

end Machine
end CoreBank.Shard
