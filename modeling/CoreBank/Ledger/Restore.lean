import CoreBank.Ledger.Keys
import CoreBank.Ledger.Same

/-!
# Restoring a ledger

`RestoreSnapshot` of the source as the method it is: it decodes everything, and only then assigns
the six fields of its receiver.  `restoreInto` is that method; `State.restoreSnapshot` is the state
it leaves.

* `after_snapshot_restored` — a snapshot of a reachable ledger is restored without loss, whatever
  was there before;
* `restoreInto_refused`, `restoreInto_truncated` — a refused snapshot changes nothing, and a
  snapshot that is cut off anywhere is refused.
-/

set_option autoImplicit false

namespace CoreBank.Ledger

open Hlc Wire

/-- Why a snapshot is refused: its own bytes end too early, or those of the ledger in it do. -/
inductive Refusal
  | snapshot
  | ledger
deriving DecidableEq

/-! ## What follows a snapshot is not looked at -/

theorem stable_money : Stable money := stable_word.map _

theorem stable_bool : Stable bool := stable_byte.map _

theorem stable_readResult : Stable readResult :=
  stable_bool.bind fun _ => stable_blob.bind fun _ => stable_money.bind fun _ => .pure _

theorem stable_readBinding {V : Type} {r : Reader V} (hr : Stable r) : Stable (readBinding r) :=
  stable_blob.bind fun _ => hr.bind fun _ => .pure _

theorem stable_readMap {V : Type} {r : Reader V} (hr : Stable r) : Stable (readMap r) :=
  (stable_readBinding hr).list.map _

theorem stable_readReserve : Stable readReserve :=
  stable_blob.bind fun _ => stable_blob.bind fun _ => stable_money.bind fun _ => .pure _

theorem stable_readOp : Stable readOp := stable_word.map _

theorem stable_readStamp : Stable readStamp :=
  stable_word.bind fun _ => stable_word.bind fun _ => .pure _

theorem stable_readEntry : Stable readEntry :=
  stable_blob.bind fun _ => stable_money.bind fun _ => .pure _

theorem stable_readTransaction : Stable readTransaction :=
  stable_word.bind fun _ => stable_readOp.bind fun _ => stable_blob.bind fun _ =>
    stable_readStamp.bind fun _ => stable_readEntry.list.bind fun _ => .pure _

namespace State

theorem stable_readState : Stable readState :=
  stable_word.bind fun _ => (stable_readMap stable_money).bind fun _ =>
    (stable_readMap stable_readResult).bind fun _ =>
      (stable_readMap (stable_word.map _)).bind fun _ =>
      (stable_readMap stable_readReserve).bind fun _ => stable_readTransaction.list.bind fun _ =>
        .pure _

/-! ## The method -/

/-- Replaces the contents of the receiver; the second component is the error, if there is one. -/
def restoreInto (s : State) (data : Bytes) : State × Option Refusal :=
  match readState data with
  | none => (s, some .snapshot)
  | some (r, _) =>
    ({ s with
        seq := r.seq
        balances := r.balances
        applied := r.applied
        fingerprints := r.fingerprints
        reserves := r.reserves
        history := r.history }, none)

theorem restoreInto_eq (s : State) (data : Bytes) :
    s.restoreInto data = ((restoreSnapshot data).getD s,
      if (restoreSnapshot data).isSome then none else some .snapshot) := by
  rw [restoreInto, restoreSnapshot]
  cases readState data <;> rfl

theorem restoreInto_refused {s : State} {data : Bytes} (h : (s.restoreInto data).2 ≠ none) :
    (s.restoreInto data).1 = s := by
  rw [restoreInto_eq] at h ⊢
  cases hdata : restoreSnapshot data with
  | none => rfl
  | some r =>
    rw [hdata] at h
    exact absurd rfl h

theorem restoreInto_truncated {s : State} {b p : Bytes} (hb : s.snapshot = some b) (hp : p <+: b)
    (hne : p ≠ b) (old : State) : (old.restoreInto p).2 = some .snapshot := by
  obtain ⟨rfl, hlen⟩ := length_of_buffer hb
  have hread : readState s.bytes = some (s.wrapped, []) := (reads_state (by omega)).run
  rw [restoreInto, stable_readState.refuses hread hp hne]

/-! ## Read back -/

theorem Sound.perform {s : State} (h : Sound s) (o : Operation) : Sound (s.perform o).1 := by
  cases o with
  | apply cmd => exact h.apply cmd
  | prepareDebit txID account amount => exact h.prepareDebit txID account amount
  | prepareCredit => exact h
  | commitDebit txID ts => exact h.commitDebit txID ts
  | commitCredit txID account amount ts => exact h.commitCredit txID account amount ts
  | abortTx txID => exact h.abortTx txID

theorem Sound.after {s : State} (h : Sound s) (os : List Operation) : Sound (s.after os) := by
  induction os generalizing s with
  | nil => exact h
  | cons o os ih => exact ih (h.perform o)

/-- **A snapshot is lossless.**  Whatever operations led to the state, and whatever state the
snapshot is restored into, it is accepted and leaves the same state in every field. -/
theorem after_snapshot_restored (os : List Operation) (b : Bytes)
    (hb : (State.after {} os).snapshot = some b) (old : State) :
    (old.restoreInto b).2 = none ∧ Same (old.restoreInto b).1 (State.after {} os) := by
  have hsound : Sound (State.after {} os) := sound_empty.after os
  rw [restoreInto_eq, restoreSnapshot_snapshot hsound.toAudited hb]
  exact ⟨rfl, same_restored _⟩

/-- A ledger with an account, ten of its coins reserved, restored over one with another account. -/
theorem after_snapshot_restored_reserve :
    ∃ b, (State.after {} [.apply ⟨.openAccount, [1], [], [97], 100, .zero⟩,
        .prepareDebit [116] [97] 10]).snapshot = some b
      ∧ ((State.after {} [.apply ⟨.openAccount, [2], [], [98], 7, .zero⟩]).restoreInto b).2 = none
      ∧ ((State.after {} [.apply ⟨.openAccount, [2], [], [98], 7, .zero⟩]).restoreInto b).1.Same
        (State.after {} [.apply ⟨.openAccount, [1], [], [97], 100, .zero⟩,
          .prepareDebit [116] [97] 10]) := by
  have hsome : ((State.after {} [.apply ⟨.openAccount, [1], [], [97], 100, .zero⟩,
      .prepareDebit [116] [97] 10]).snapshot).isSome := by decide +kernel
  obtain ⟨b, hb⟩ := Option.isSome_iff_exists.1 hsome
  exact ⟨b, hb, after_snapshot_restored _ b hb _⟩

end State
end CoreBank.Ledger
