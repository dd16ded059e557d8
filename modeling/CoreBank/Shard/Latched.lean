import CoreBank.Ledger.Latched
import CoreBank.Raft.Persist
import CoreBank.Shard.Restore

/-!
# The reader of a shard's snapshot

`RestoreSnapshot` of a shard's machine with its reader `rd`, which is the ledger's but for the
method `bytes`.  Its own loops run first; the ledger's follow if they have met no error.

* `Latched.restoreSnapshot_plain` — the loops do not change what is restored;
* `modest_iff` — where the sizes that the input declares stay within it, in the four decoders
  that trust them.
-/

set_option autoImplicit false

namespace CoreBank.Shard

open Ledger Latch
open Ledger.Latched hiding str restoreSnapshot finish
open Wire (Bytes)

namespace Latched

/-! `rd` has the methods of the ledger's reader, and one more. -/

/-- `u64` of the snapshot reader. -/
def u64 : Program Str Nat := uint64

/-- `str` of the snapshot reader. -/
def str : Program Str Str := Ledger.Latched.str

/-- `b` of the snapshot reader. -/
def b : Program Str Bool := Ledger.Latched.bool

/-- The next `n` bytes. -/
def bytes (n : Nat) : Program Str Bytes := take n (truncatedText "blob" n)

/-- `TxPhase(r.u64())`. -/
def phase : Program Str Phase := Phase.ofCode <$> u64

/-- One record. -/
def tx : Program Str TxRecord := do
  let id ← str
  let phase ← phase
  let debit ← b
  let decided ← b
  let commit ← b
  let coordinator ← str
  let participants ← countdown str
  let op ← op
  let key ← str
  let fromAcc ← str
  let toAcc ← str
  let amount ← money
  return { id := id, phase := phase, debit := debit, decided := decided, commit := commit,
           coordinator := coordinator, participants := participants,
           cmd := { op := op, idempotencyKey := key, fromAcc := fromAcc, toAcc := toAcc,
                    amount := amount, timestamp := .zero } }

/-- What follows the ledger.  A record is filed only if the reader has no error. -/
def records (ledgerData : Bytes) : Program Str (Bytes × List TxRecord × Map Str Result) := do
  let txs ← List.filterMap id <$> countdown (unlessErr tx)
  let results ← map result
  return (ledgerData, txs, results)

/-- `RestoreSnapshot`, before it looks at the error. -/
def machine : Program Str (Bytes × List TxRecord × Map Str Result) := do
  let ledgerLen ← u64
  let ledgerData ← bytes ledgerLen
  records ledgerData

/-- The error is looked at when everything has been asked for; then the ledger is restored. -/
def finish (m : Machine) (p : (Bytes × List TxRecord × Map Str Result) × Cursor Str) :
    Restoration Machine :=
  match p.2.err with
  | some e => ⟨m, some (CoreBank.str "shard: restore snapshot: " ++ e), p.2.begun⟩
  | none =>
    let l := Ledger.Latched.restoreSnapshot m.state p.1.1
    match l.err with
    | some e =>
      ⟨{ m with state := l.receiver }, some (CoreBank.str "shard: restore ledger: " ++ e),
        p.2.begun ++ l.begun⟩
    | none =>
      ⟨{ m with
          state := l.receiver
          txs := Machine.byID p.1.2.1
          results := p.1.2.2
          byIndex := ∅ }, none, p.2.begun ++ l.begun⟩

/-- `RestoreSnapshot` of the source, with its reader. -/
def restoreSnapshot (m : Machine) (data : Bytes) : Restoration Machine :=
  finish m (machine { buf := data })

end Latched

/-! ## Where the loops stop in time -/

/-- The participants that a record counts are there, but the last may be missing. -/
def TxRecord.CountFits : Bytes → Prop :=
  After Wire.blob fun _ => After readPhase fun _ => After Ledger.bool fun _ =>
    After Ledger.bool fun _ => After Ledger.bool fun _ => After Wire.blob fun _ =>
      Latch.CountFits Wire.blob fun _ => True

namespace Machine

/-- The same for the records and the results of a machine. -/
def RecordsFit (b : Bytes) : Prop :=
  CountFits readTx TxRecord.CountFits b ∧
    After (Wire.list readTx) (fun _ => CountFits (readBinding readResult) fun _ => True) b

/-- In the first part of a snapshot that is not all there only the last element is missing, and if
that is a part of the ledger's snapshot, the same holds there. -/
def CountsFit (b : Bytes) : Prop :=
  After Wire.blob (fun _ => RecordsFit) b ∧ After readMachine (fun p _ => State.CountsFit p.1) b

end Machine

namespace Latched

theorem latches_tx : Latches 75 tx readTx TxRecord.CountFits := by
  refine (latches_str.bind fun _ => (latches_uint64.map _).bind fun _ => latches_bool.bind fun _ =>
    latches_bool.bind fun _ => latches_bool.bind fun _ => latches_str.bind fun _ =>
      (latches_countdown latches_str).bind fun _ => latches_op.bind fun _ =>
        latches_str.bind fun _ => latches_str.bind fun _ => latches_str.bind fun _ =>
          latches_money.bind fun _ => .pure _).congr fun b => ?_
  simp only [true_and, and_true, after_true]
  rfl

/-- What follows the number of bytes of the ledger. -/
def readContents (n : Nat) : Wire.Reader (Bytes × List TxRecord × Map Str Result) := do
  let ledgerData ← Wire.take n
  let txs ← Wire.list readTx
  let results ← readMap readResult
  return (ledgerData, txs, results)

theorem readMachine_eq : Machine.readMachine = Wire.word >>= readContents := bind_assoc _ _ _

theorem latches_contents (n : Nat) : Latches (n + 16) (bytes n >>= records) (readContents n)
    (After (Wire.take n) fun _ => Machine.RecordsFit) := by
  refine ((latches_take n _).bind fun _ => (latches_counted_unlessErr truncated latches_tx).bind
    fun _ => (latches_map latches_result).bind fun _ => .pure _).congr fun b => ?_
  simp only [true_and, and_true, after_true]
  rfl

theorem latches_machine :
    Latches 24 machine Machine.readMachine (After Wire.blob fun _ => Machine.RecordsFit) := by
  rw [readMachine_eq]
  refine (latches_uint64.bind fun n =>
    (latches_contents n).weaken (Nat.le_add_left 16 n)).congr fun b => ?_
  rw [true_and, Wire.blob, after_bind]

/-- The bytes of the ledger are besides those that the loops have read. -/
theorem machine_reads {data rest : Bytes} {x : Bytes × List TxRecord × Map Str Result}
    (h : Machine.readMachine data = some (x, rest)) :
    ∃ c, machine { buf := data } = (x, c) ∧ c.err = none ∧
      c.begun.length + x.1.length ≤ data.length := by
  rw [readMachine_eq] at h
  obtain ⟨⟨n, mid⟩, hn, hx⟩ := Option.bind_eq_some_iff.1 h
  obtain ⟨-, s, hs, hto⟩ := latches_uint64.reads { buf := data } n mid rfl hn
  obtain rfl : s.rest = mid := hto.2.1
  obtain ⟨-, c, hc, hto'⟩ := (latches_contents n).reads s x rest hto.1 hx
  have hlen : x.1.length = n := by
    obtain ⟨⟨ledgerData, b⟩, htake, hx⟩ := Option.bind_eq_some_iff.1 hx
    obtain ⟨⟨txs, b'⟩, -, hx⟩ := Option.bind_eq_some_iff.1 hx
    obtain ⟨⟨results, b''⟩, -, hx⟩ := Option.bind_eq_some_iff.1 hx
    cases hx
    rw [Wire.take] at htake
    split at htake
    · cases htake
    · cases htake
      rw [List.length_take]
      omega
  obtain ⟨herr, -, d, ⟨t, ht, htime, hlen'⟩, hle⟩ := hto.trans hto'
  refine ⟨c, ?_, herr, ?_⟩
  · have hs' : u64 { buf := data } = (n, s) := hs
    rw [machine, bind_apply, hs']
    exact hc
  · have ht' := hlen' (htime.2 trivial)
    simp only [Cursor.rest, List.drop_zero] at hle
    rw [ht, List.nil_append]
    omega

/-- **The loops do not change what is restored**, or refused. -/
theorem restoreSnapshot_plain (m : Machine) (data : Bytes) :
    (restoreSnapshot m data).receiver = (m.restoreInto data).1 ∧
      ((restoreSnapshot m data).err = none ↔ (m.restoreInto data).2 = none) := by
  rw [restoreSnapshot, Machine.restoreInto]
  cases hx : Machine.readMachine data with
  | none =>
    obtain ⟨herr, -⟩ := latches_machine.fails { buf := data } rfl hx
    generalize machine { buf := data } = p at herr
    obtain ⟨e, he⟩ := Option.ne_none_iff_exists'.1 herr
    rw [finish, he]
    exact ⟨rfl, iff_of_false (Option.some_ne_none _) (Option.some_ne_none _)⟩
  | some p =>
    obtain ⟨⟨ledgerData, txs, results⟩, rest⟩ := p
    obtain ⟨c, hc, herr, -⟩ := machine_reads hx
    have hledger := Ledger.Latched.restoreSnapshot_eq m.state ledgerData
    rw [hc, finish, herr]
    dsimp only
    generalize Ledger.Latched.restoreSnapshot m.state ledgerData = l at hledger
    obtain ⟨st, err, begun⟩ := l
    obtain ⟨hst, herr⟩ := hledger
    generalize m.state.restoreInto ledgerData = q at hst herr
    obtain ⟨st', err'⟩ := q
    dsimp only at hst herr
    subst hst
    cases err with
    | none =>
      obtain rfl : err' = none := herr.1 rfl
      exact ⟨rfl, iff_of_true rfl rfl⟩
    | some e =>
      cases err' with
      | none => cases herr.2 rfl
      | some r =>
        exact ⟨rfl, iff_of_false (Option.some_ne_none _) (Option.some_ne_none _)⟩

theorem restoreSnapshot_timely (m : Machine) (data : Bytes) :
    (Timely (restoreSnapshot m data).begun ↔ Machine.CountsFit data) ∧
      (Timely (restoreSnapshot m data).begun →
        (restoreSnapshot m data).begun.length ≤ data.length) := by
  have howned := latches_machine.begun data
  rw [restoreSnapshot, Machine.CountsFit]
  cases hx : Machine.readMachine data with
  | none =>
    obtain ⟨herr, -⟩ := latches_machine.fails { buf := data } rfl hx
    generalize machine { buf := data } = p at herr howned
    obtain ⟨e, he⟩ := Option.ne_none_iff_exists'.1 herr
    rw [finish, he, and_iff_left (after_of_none hx)]
    exact howned
  | some p =>
    obtain ⟨c, hc, herr, hlen⟩ := machine_reads hx
    have hledger := Ledger.Latched.restoreSnapshot_timely m.state p.1.1
    have hbegun : (finish m (p.1, c)).begun =
        c.begun ++ (Ledger.Latched.restoreSnapshot m.state p.1.1).begun := by
      rw [finish, herr]
      dsimp only
      split <;> rfl
    rw [hc] at howned ⊢
    rw [hbegun, timely_append, howned.1, hledger.1, after_of_some hx]
    refine ⟨Iff.rfl, fun h => ?_⟩
    have hle := hledger.2 (hledger.1.2 h.2)
    rw [List.length_append]
    omega

end Latched

/-! ## Sizes that are declared -/

/-- Four decoders do no more than their input is long: the two of the consensus layer get by with
slices of that many elements, and the loops of the two snapshots begin no iteration after an error
and no more of them than there are bytes. -/
def Modest (x : Bytes) : Prop :=
  Raft.Checked.decodeConfig x.length x ≠ .error .makeslice ∧
    Raft.Checked.decodeState x.length x ≠ .error .makeslice ∧
    (∀ s : State, Timely (Ledger.Latched.restoreSnapshot s x).begun ∧
      (Ledger.Latched.restoreSnapshot s x).begun.length ≤ x.length) ∧
    ∀ m : Machine, Timely (Latched.restoreSnapshot m x).begun ∧
      (Latched.restoreSnapshot m x).begun.length ≤ x.length

/-- The sizes that the input declares are not checked against it, so all depends on them: the
numbers of servers and of entries have to be at most its length, and of the elements that a snapshot
counts only the last may be missing. -/
theorem modest_iff (x : Bytes) :
    Modest x ↔
      (Raft.isConfigEntry x = true → 9 ≤ x.length →
          Raft.uint64 ((x.drop 1).take 8) ≤ x.length) ∧
        (∀ head rest, Raft.readHead x = some (head, rest) → head.2.2 ≤ x.length) ∧
        State.CountsFit x ∧ Machine.CountsFit x := by
  have hconfig : Raft.Checked.decodeConfig x.length x ≠ .error .makeslice ↔
      (Raft.isConfigEntry x = true → 9 ≤ x.length →
        Raft.uint64 ((x.drop 1).take 8) ≤ x.length) := by
    rw [Ne, Raft.Checked.decodeConfig_makeslice_iff, not_and]
    simp only [not_and, Nat.not_lt]
  have hstate : Raft.Checked.decodeState x.length x ≠ .error .makeslice ↔
      ∀ head rest, Raft.readHead x = some (head, rest) → head.2.2 ≤ x.length := by
    rcases Raft.Checked.decodeState_cases x.length x with ⟨he, head, rest, hx, hlt⟩ | ⟨hok, hle⟩
    · exact iff_of_false (fun h => h he) fun h => absurd (h head rest hx) (Nat.not_le.2 hlt)
    · exact iff_of_true (by rw [hok]; exact fun h => by cases h) hle
  have hledger (s : State) := Ledger.Latched.restoreSnapshot_timely s x
  have hshard (m : Machine) := Latched.restoreSnapshot_timely m x
  rw [Modest, hconfig, hstate]
  refine and_congr_right fun _ => and_congr_right fun _ => and_congr ?_ ?_
  · exact ⟨fun h => (hledger {}).1.1 (h {}).1,
      fun h s => ⟨(hledger s).1.2 h, (hledger s).2 ((hledger s).1.2 h)⟩⟩
  · exact ⟨fun h => (hshard {}).1.1 (h {}).1,
      fun h m => ⟨(hshard m).1.2 h, (hshard m).2 ((hshard m).1.2 h)⟩⟩

/-- A configuration of nine bytes that asks for ten servers, a state of nineteen bytes that asks for
twenty entries, and a snapshot of sixteen bytes that keeps the loops of both restores going for
seventeen iterations, of which all but the first are begun after an error. -/
theorem declared_beyond_input :
    Raft.Checked.decodeConfig 9 (Raft.configPrefix :: Wire.putWord 10) = .error .makeslice ∧
      Raft.Checked.decodeState 19 (Wire.putWord 0 ++ [0, 0, 0] ++ Wire.putWord 20)
        = .error .makeslice ∧
      (Ledger.Latched.restoreSnapshot {} (Wire.putWord 0 ++ Wire.putWord 17)).begun.map
        Option.isSome = false :: List.replicate 16 true ∧
      (Latched.restoreSnapshot {} (Wire.putWord 0 ++ Wire.putWord 17)).begun.map
        Option.isSome = false :: List.replicate 16 true := by
  decide +kernel

end CoreBank.Shard
