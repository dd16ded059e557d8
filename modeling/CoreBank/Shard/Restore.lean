import CoreBank.Ledger.Restore
import CoreBank.Shard.Snapshot

/-!
# Restoring a shard

`RestoreSnapshot` of a shard's machine decodes its own records, then has the ledger restored, which
assigns the ledger's fields, and assigns its own maps last.  An error can come from the outer bytes
or from the ledger's, and in both cases nothing has been assigned yet (`restoreInto_refused`).
-/

set_option autoImplicit false

namespace CoreBank.Shard

open Ledger Hlc Wire

theorem stable_readPhase : Stable readPhase := stable_word.map _

theorem stable_readTx : Stable readTx :=
  stable_blob.bind fun _ => stable_readPhase.bind fun _ => stable_bool.bind fun _ =>
    stable_bool.bind fun _ => stable_bool.bind fun _ => stable_blob.bind fun _ =>
      stable_blob.list.bind fun _ => stable_readOp.bind fun _ => stable_blob.bind fun _ =>
        stable_blob.bind fun _ => stable_blob.bind fun _ => stable_money.bind fun _ => .pure _

namespace Machine

theorem stable_readMachine : Stable readMachine :=
  stable_blob.bind fun _ => stable_readTx.list.bind fun _ =>
    (stable_readMap stable_readResult).bind fun _ => .pure _

/-- Replaces the contents of the receiver; the second component is the error, if there is one. -/
def restoreInto (m : Machine) (data : Bytes) : Machine × Option Refusal :=
  match readMachine data with
  | none => (m, some .snapshot)
  | some ((ledgerData, txs, results), _) =>
    -- the ledger is restored in place, before the machine's own maps
    match m.state.restoreInto ledgerData with
    | (st, some _) => ({ m with state := st }, some .ledger)
    | (st, none) =>
      ({ m with state := st, txs := byID txs, results := results, byIndex := ∅ }, none)

theorem restoreInto_refused {m : Machine} {data : Bytes} (h : (m.restoreInto data).2 ≠ none) :
    (m.restoreInto data).1 = m := by
  rw [restoreInto] at h ⊢
  cases hdata : readMachine data with
  | none => rfl
  | some x =>
    obtain ⟨⟨ledgerData, txs, results⟩, rest⟩ := x
    rw [hdata] at h
    dsimp only at h ⊢
    have hledger := @State.restoreInto_refused m.state ledgerData
    rcases hst : m.state.restoreInto ledgerData with ⟨st, _ | e⟩
    · rw [hst] at h
      exact absurd rfl h
    · rw [hst] at hledger
      have hsame : st = m.state := hledger (by simp)
      rw [hsame]

theorem restoreInto_truncated {m : Machine} {b p : Bytes} (hb : m.snapshot = some b) (hp : p <+: b)
    (hne : p ≠ b) (old : Machine) : (old.restoreInto p).2 = some .snapshot := by
  rw [snapshot, Option.bind_eq_bind, Option.bind_eq_some_iff] at hb
  obtain ⟨ledgerData, -, hbuf⟩ := hb
  obtain ⟨rfl, hlen⟩ := length_of_buffer hbuf
  have hread : readMachine (m.bytes ledgerData) =
      some ((ledgerData, m.records.map TxRecord.unstamped, reread m.results), []) :=
    (reads_machine (by omega)).run
  rw [restoreInto, stable_readMachine.refuses hread hp hne]

/-- **A refused snapshot changes nothing, and every truncated snapshot is refused**, for the ledger
and for the machine of a shard around it. -/
theorem refused_or_whole :
    (∀ (s : State) (data : Bytes), (s.restoreInto data).2 ≠ none → (s.restoreInto data).1 = s)
      ∧ (∀ (m : Machine) (data : Bytes), (m.restoreInto data).2 ≠ none →
        (m.restoreInto data).1 = m)
      ∧ (∀ (s old : State) (b p : Bytes), s.snapshot = some b → p <+: b → p ≠ b →
        (old.restoreInto p).2 ≠ none)
      ∧ ∀ (m old : Machine) (b p : Bytes), m.snapshot = some b → p <+: b → p ≠ b →
        (old.restoreInto p).2 ≠ none := by
  refine ⟨fun s data => State.restoreInto_refused, fun m data => restoreInto_refused, ?_, ?_⟩
  · intro s old b p hb hp hne
    rw [State.restoreInto_truncated hb hp hne]
    exact Option.some_ne_none _
  · intro m old b p hb hp hne
    rw [restoreInto_truncated hb hp hne]
    exact Option.some_ne_none _

end Machine
end CoreBank.Shard
