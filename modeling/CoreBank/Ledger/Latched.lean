import CoreBank.Lib.Latch
import CoreBank.Ledger.Restore

/-!
# The reader of a snapshot

`reader` of the source latches its first error, and `RestoreSnapshot` looks at it only when it has
asked for everything.  `Latched.restoreSnapshot` is that method with its loops: it leaves the ledger
that `State.restoreInto` does (`restoreSnapshot_eq`).  Its loops take their counts from the bytes
and do not look at the error, so they begin iterations after it unless `State.CountsFit`
(`restoreSnapshot_timely`).
-/

set_option autoImplicit false

namespace CoreBank.Ledger

open Hlc Latch
open Wire (Bytes)

/-- What a restore leaves: its receiver, the error, and for each iteration that was begun the error
its reader had latched by then. -/
structure Restoration (σ : Type) where
  receiver : σ
  err : Option Str
  begun : List (Option Str)

namespace Latched

/-- The error of `uint64`. -/
def truncated (s : Cursor Str) : Str :=
  str s!"truncated: want 8 bytes at {s.pos}, have {s.buf.length - s.pos}"

/-- What is missing of a string, or of a blob. -/
def truncatedText (what : String) (n : Nat) (s : Cursor Str) : Str :=
  str s!"truncated {what}: declares {n} bytes, {s.buf.length - s.pos} remain"

/-- The error of `bool`. -/
def truncatedBool (s : Cursor Str) : Str := str s!"truncated bool at {s.pos}"

/-- `uint64` of the snapshot reader. -/
def uint64 : Program Str Nat := word truncated

/-- `str` of the snapshot reader. -/
def str : Program Str Str := blob truncated (truncatedText "string")

/-- `bool` of the snapshot reader. -/
def bool : Program Str Bool := (· == [1]) <$> take 1 truncatedBool

/-- `for n := r.uint64(); n > 0; n--`. -/
def countdown {α : Type} (body : Program Str α) : Program Str (List α) := counted truncated body

/-- An `int64`. -/
def money : Program Str Money := (fun n => (UInt64.ofNat n).toInt64) <$> uint64

/-- `uint8(r.uint64())`. -/
def op : Program Str Op := (fun n => Op.ofCode (UInt8.ofNat n)) <$> uint64

/-- Two words, narrowed. -/
def timestamp : Program Str Timestamp := do
  let wall ← uint64
  let logical ← uint64
  return ⟨UInt64.ofNat wall, UInt32.ofNat logical⟩

/-- One value of `applied`. -/
def result : Program Str Result := do
  let ok ← bool
  let err ← str
  let balance ← money
  return ⟨ok, err, balance⟩

/-- One value of `reserves`. -/
def reserve : Program Str Reserve := do
  let txID ← str
  let account ← str
  let amount ← money
  return ⟨txID, account, amount⟩

/-- One entry of a transaction. -/
def entry : Program Str Entry := do
  let account ← str
  let amount ← money
  return ⟨account, amount⟩

/-- One element of `history`. -/
def transaction : Program Str Transaction := do
  let seq ← uint64
  let op ← op
  let key ← str
  let ts ← timestamp
  let entries ← countdown entry
  return ⟨seq, op, key, entries, ts⟩

/-- A key, then its value. -/
def binding {V : Type} (value : Program Str V) : Program Str (Σ _ : Str, V) := do
  let k ← str
  let v ← value
  return ⟨k, v⟩

/-- A loop that fills a map. -/
def map {V : Type} (value : Program Str V) : Program Str (Map Str V) :=
  Maps.ofBindings <$> countdown (binding value)

/-- `RestoreSnapshot`, before it looks at the error. -/
def state : Program Str State := do
  let seq ← uint64
  let balances ← map money
  let applied ← map result
  let fingerprints ← map (UInt64.ofNat <$> uint64)
  let reserves ← map reserve
  let history ← countdown transaction
  return { balances := balances, applied := applied, fingerprints := fingerprints,
           history := history, reserves := reserves, seq := seq }

/-- The error is looked at when everything has been asked for. -/
def finish (s : State) (p : State × Cursor Str) : Restoration State :=
  match p.2.err with
  | some e => ⟨s, some (CoreBank.str "ledger: restore snapshot: " ++ e), p.2.begun⟩
  | none =>
    ⟨{ s with
        seq := p.1.seq
        balances := p.1.balances
        applied := p.1.applied
        fingerprints := p.1.fingerprints
        reserves := p.1.reserves
        history := p.1.history }, none, p.2.begun⟩

/-- `RestoreSnapshot` of the source, with its reader. -/
def restoreSnapshot (s : State) (data : Bytes) : Restoration State :=
  finish s (state { buf := data })

theorem begun_finish (s : State) (p : State × Cursor Str) : (finish s p).begun = p.2.begun := by
  rw [finish]
  split <;> rfl

/-! ## What is read -/

theorem latches_uint64 : Latches 8 uint64 Wire.word fun _ => True := latches_word truncated

theorem latches_str : Latches 8 str Wire.blob fun _ => True := latches_blob truncated _

theorem latches_bool : Latches 1 bool Ledger.bool fun _ => True := by
  have hbool : Ledger.bool = (· == [1]) <$> Wire.take 1 := by
    funext b
    cases b with
    | nil => rfl
    | cons x b => exact congrArg (fun v => some (v, b)) (by simp)
  rw [hbool]
  exact (latches_take 1 _).map _

theorem latches_countdown {α : Type} {k : Nat} {body : Program Str α} {r : Wire.Reader α}
    {C : Bytes → Prop} (h : Latches (k + 1) body r C) :
    Latches 8 (countdown body) (Wire.list r) (CountFits r C) := latches_counted truncated h

theorem latches_money : Latches 8 money Ledger.money fun _ => True := latches_uint64.map _

theorem latches_op : Latches 8 op readOp fun _ => True := latches_uint64.map _

theorem latches_timestamp : Latches 16 timestamp readStamp fun _ => True :=
  (latches_uint64.bind fun _ => latches_uint64.bind fun _ => .pure _).congr (by simp)

theorem latches_result : Latches 17 result readResult fun _ => True :=
  (latches_bool.bind fun _ => latches_str.bind fun _ => latches_money.bind fun _ => .pure _).congr
    (by simp)

theorem latches_reserve : Latches 24 reserve readReserve fun _ => True :=
  (latches_str.bind fun _ => latches_str.bind fun _ => latches_money.bind fun _ => .pure _).congr
    (by simp)

theorem latches_entry : Latches 16 entry readEntry fun _ => True :=
  (latches_str.bind fun _ => latches_money.bind fun _ => .pure _).congr (by simp)

theorem latches_map {V : Type} {k : Nat} {value : Program Str V} {r : Wire.Reader V}
    (h : Latches k value r fun _ => True) :
    Latches 8 (map value) (readMap r) (CountFits (readBinding r) fun _ => True) := by
  have hbinding : Latches (7 + k + 1) (binding value) (readBinding r) fun _ => True :=
    ((latches_str.bind fun _ => h.bind fun _ => .pure _).weaken (by omega)).congr (by simp)
  exact (latches_countdown hbinding).map _

end Latched

/-! ## Where the loops stop in time -/

/-- The entries that a transaction counts are there, but the last may be missing. -/
def Transaction.CountFits : Bytes → Prop :=
  After Wire.word fun _ => After readOp fun _ => After Wire.blob fun _ => After readStamp fun _ =>
    Latch.CountFits readEntry fun _ => True

theorem Latched.latches_transaction :
    Latches 48 transaction readTransaction Transaction.CountFits :=
  (latches_uint64.bind fun _ => latches_op.bind fun _ => latches_str.bind fun _ =>
    latches_timestamp.bind fun _ => (latches_countdown latches_entry).bind fun _ => .pure _).congr
    (by simp [Transaction.CountFits])

namespace State

/-- The bindings that a map counts are there, but the last may be missing, and what follows the map
satisfies `D`. -/
def MapFits {V : Type} (r : Wire.Reader V) (D : Bytes → Prop) (b : Bytes) : Prop :=
  CountFits (readBinding r) (fun _ => True) b ∧ After (readMap r) (fun _ => D) b

/-- In the first part of a snapshot that is not all there, only the last element is missing. -/
def CountsFit : Bytes → Prop :=
  After Wire.word fun _ => MapFits money (MapFits readResult (MapFits (UInt64.ofNat <$> Wire.word)
    (MapFits readReserve (CountFits readTransaction Transaction.CountFits))))

end State

namespace Latched

theorem latches_state : Latches 48 state State.readState State.CountsFit := by
  refine (latches_uint64.bind fun _ => (latches_map latches_money).bind fun _ =>
    (latches_map latches_result).bind fun _ => (latches_map (latches_uint64.map _)).bind fun _ =>
      (latches_map latches_reserve).bind fun _ =>
        (latches_countdown latches_transaction).bind fun _ => .pure _).congr fun b => ?_
  simp only [true_and, and_true, after_true]
  rfl

/-- The loops do not change what is restored. -/
theorem restoreSnapshot_eq (s : State) (data : Bytes) :
    (restoreSnapshot s data).receiver = (s.restoreInto data).1 ∧
      ((restoreSnapshot s data).err = none ↔ (s.restoreInto data).2 = none) := by
  rw [restoreSnapshot, State.restoreInto]
  cases hx : State.readState data with
  | none =>
    obtain ⟨herr, -⟩ := latches_state.fails { buf := data } rfl hx
    generalize state { buf := data } = p at herr
    obtain ⟨e, he⟩ := Option.ne_none_iff_exists'.1 herr
    rw [finish, he]
    exact ⟨rfl, iff_of_false (Option.some_ne_none _) (Option.some_ne_none _)⟩
  | some p =>
    obtain ⟨-, c, hc, herr, -⟩ := latches_state.reads { buf := data } p.1 p.2 rfl hx
    rw [hc, finish, herr]
    exact ⟨rfl, iff_of_true rfl rfl⟩

/-- The loops begin no iteration after an error exactly if the counts fit, and then no more of them
than there are bytes. -/
theorem restoreSnapshot_timely (s : State) (data : Bytes) :
    (Timely (restoreSnapshot s data).begun ↔ State.CountsFit data) ∧
      (Timely (restoreSnapshot s data).begun →
        (restoreSnapshot s data).begun.length ≤ data.length) := by
  rw [restoreSnapshot, begun_finish]
  exact latches_state.begun data

end Latched

end CoreBank.Ledger
