import CoreBank.Raft.Applied
import CoreBank.Shard.Agree

/-!
# The replicated machines

What Raft replicates is the ledger of an unsharded bank, or the machine of a shard.  Both meet the
contract of `Snapshotter` as far as it matters: a machine restored from a snapshot goes on like the
one that was snapshotted (`ledgerMachine_faithful`, `shardMachine_faithful`).  It is not the same
machine.  A snapshot of the ledger leaves out the answers that are kept for lookups, one of a shard
the clock readings of promises and the results by index, and neither keeps the order in which the
bindings of a map happen to stand.
-/

set_option autoImplicit false

namespace CoreBank.Rpc

open Raft Shard

/-- The machine of an unsharded bank, as Raft sees it. -/
def ledgerMachine : StateMachine Ledger.Machine where
  new := {}
  applyAt _ data m := (m.apply data).1
  snapshotter := some ⟨fun m => m.state.snapshot,
    fun data m => (Ledger.State.restoreSnapshot data).map fun s => { m with state := s }⟩

/-- Both ledgers are as a run leaves them, and they are the same. -/
def SameLedger (x y : Ledger.Machine) : Prop := x.state.Sound ∧ x.state.Same y.state

theorem ledgerMachine_faithful : ledgerMachine.Faithful SameLedger where
  new := ⟨Ledger.State.sound_empty, .refl _⟩
  symm h := ⟨h.2.sound h.1, h.2.symm⟩
  trans h h' := ⟨h.1, h.2.trans h'.2⟩
  apply i data x y h := by
    have hfst : ∀ z : Ledger.Machine, (ledgerMachine.applyAt i data z).state =
        (Ledger.Machine.apply z data).1.state := fun _ => rfl
    rw [SameLedger, hfst, hfst, Ledger.Machine.apply, Ledger.Machine.apply]
    cases Ledger.decode data with
    | error e => exact h
    | ok cmd => exact ⟨h.1.apply cmd, (h.2.apply cmd).2⟩
  restore := by
    rintro r ⟨⟩ x data ⟨hsound, -⟩ hdata y
    refine ⟨{ y with state := x.state.restored }, ?_, ?_⟩
    · exact Option.map_eq_some_iff.2
        ⟨_, Ledger.State.restoreSnapshot_snapshot hsound.toAudited hdata, rfl⟩
    · exact ⟨(Ledger.State.same_restored x.state).symm.sound hsound,
        Ledger.State.same_restored x.state⟩

/-- Applies the bytes of the entry at a log index and keeps the result under that index. -/
def applyDataAt (index : Nat) (data : Bytes) (m : Machine) : Machine :=
  let r := m.applyData data
  { r.1 with byIndex := r.1.byIndex.insert index r.2 }

/-- The machine of a shard, as Raft sees it. -/
def shardMachine : StateMachine Machine where
  new := {}
  applyAt := applyDataAt
  snapshotter := some ⟨Machine.snapshot, fun data _ => Machine.restoreSnapshot data⟩

/-- Both shards are as a run leaves them, and they agree. -/
structure AgreeingShards (x y : Machine) : Prop where
  left : x.Ordered
  right : y.Ordered
  agree : x.Agree y

theorem shardMachine_faithful : shardMachine.Faithful AgreeingShards where
  new := ⟨Machine.ordered_empty, Machine.ordered_empty, .refl _⟩
  symm h := ⟨h.right, h.left, h.agree.symm⟩
  trans h h' := ⟨h.left, h'.right, h.agree.trans h'.agree⟩
  apply i data x y h := by
    have hordered {z : Machine} (hz : z.Ordered) : (applyDataAt i data z).Ordered :=
      ⟨Machine.sound_applyData hz.sound data, Machine.keyed_applyData hz.keyed data⟩
    exact ⟨hordered h.left, hordered h.right, { (h.agree.applyData data).2 with }⟩
  restore := by
    rintro r ⟨⟩ x data ⟨hx, -, -⟩ hdata y
    exact ⟨x.restored, Machine.restoreSnapshot_snapshot hx.sound.toAudited hdata, hx.restored, hx,
      Machine.agree_restored hx.keyed⟩

/-- The replicas of a shard. -/
def shardCluster (peers : NodeID → List NodeID) : Cluster Machine := ⟨shardMachine, peers⟩

end CoreBank.Rpc
