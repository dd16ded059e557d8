import CoreBank.Ledger.Audit
import CoreBank.Ledger.Codec

/-!
# Snapshots of the ledger

The whole state as bytes, maps in the order of their keys, and back.  `State.Same` is equality of
states whose maps are compared as maps; a snapshot of a state that numbers its transactions is read
back as the same state (`restoreSnapshot_snapshot`).

The bytes are collected in a `bytes.Buffer`, which panics when they no longer fit in a slice;
`snapshot` returns nothing then.  No other bound is needed: in fewer than `2 ^ 63` bytes all counts
and lengths fit in the eight bytes they are written in.
-/

set_option autoImplicit false

namespace CoreBank.Ledger

open Hlc Wire

/-! ## The pieces -/

/-- The amount's 64 bits. -/
def putMoney (m : Money) : Bytes := putWord m.toUInt64.toNat

/-- Reads what `putMoney` writes. -/
def money : Reader Money := (fun n => (UInt64.ofNat n).toInt64) <$> word

theorem reads_money (m : Money) : Reads money (putMoney m) m :=
  (reads_word m.toUInt64.toNat_lt).map (by simp)

/-- One byte. -/
def putBool (v : Bool) : Bytes := if v then [1] else [0]

/-- Any byte but 1 is false. -/
def bool : Reader Bool := (· == 1) <$> byte

theorem reads_bool (v : Bool) : Reads bool (putBool v) v := by
  cases v
  · exact (reads_byte 0).map rfl
  · exact (reads_byte 1).map rfl

/-- The operation's code, as a word. -/
def putOp (op : Op) : Bytes := putWord op.code.toNat

/-- The low byte of a word. -/
def readOp : Reader Op := (fun n => Op.ofCode (UInt8.ofNat n)) <$> word

theorem reads_op (op : Op) : Reads readOp (putOp op) op := by
  have hlt : op.code.toNat < 2 ^ 64 := op.code.toNat_lt.trans (by decide)
  exact (reads_word hlt).map (by simp [Op.ofCode_code])

/-- Both parts as words. -/
def putTimestamp (t : Timestamp) : Bytes := putWord t.wall.toNat ++ putWord t.logical.toNat

/-- Reads what `putTimestamp` writes. -/
def readStamp : Reader Timestamp := do
  let wall ← word
  let logical ← word
  return ⟨UInt64.ofNat wall, UInt32.ofNat logical⟩

theorem reads_timestamp (t : Timestamp) : Reads readStamp (putTimestamp t) t := by
  have hl : t.logical.toNat < 2 ^ 64 := t.logical.toNat_lt.trans (by decide)
  exact (reads_word t.wall.toNat_lt).bind ((reads_word hl).last (by simp))

/-- A result's three fields. -/
def putResult (r : Result) : Bytes := putBool r.ok ++ (putBlob r.err ++ putMoney r.balance)

/-- Reads what `putResult` writes. -/
def readResult : Reader Result := do
  let ok ← bool
  let err ← blob
  let balance ← money
  return ⟨ok, err, balance⟩

theorem reads_result (r : Result) (h : (putResult r).length < 2 ^ 64) :
    Reads readResult (putResult r) r := by
  simp only [putResult, List.length_append] at h
  exact (reads_bool r.ok).bind
    ((reads_blob_of_length (by omega)).bind ((reads_money r.balance).last rfl))

/-- A binding of a map, key first. -/
def putBinding {V : Type} (put : V → Bytes) (b : Σ _ : Str, V) : Bytes := putBlob b.1 ++ put b.2

/-- A key and its value. -/
def readBinding {V : Type} (r : Reader V) : Reader (Σ _ : Str, V) := do
  let k ← blob
  let v ← r
  return ⟨k, v⟩

theorem reads_binding {V : Type} {r : Reader V} {put : V → Bytes} (b : Σ _ : Str, V)
    (h : (putBinding put b).length < 2 ^ 64)
    (hr : (put b.2).length < 2 ^ 64 → Reads r (put b.2) b.2) :
    Reads (readBinding r) (putBinding put b) b := by
  simp only [putBinding, List.length_append] at h
  exact (reads_blob_of_length (by omega)).bind ((hr (by omega)).last rfl)

/-- A map, in the order of its keys. -/
def putMap {V : Type} (put : V → Bytes) (m : Map Str V) : Bytes :=
  putList (putBinding put) (Maps.sorted m)

/-- The later of two bindings of a key counts. -/
def readMap {V : Type} (r : Reader V) : Reader (Map Str V) :=
    Maps.ofBindings <$> list (readBinding r)

/-- What `readMap` makes of a map that was written down. -/
def reread {V : Type} (m : Map Str V) : Map Str V := Maps.ofBindings (Maps.sorted m)

theorem reread_perm {V : Type} (m : Map Str V) : (reread m).entries.Perm m.entries :=
  Maps.ofBindings_sorted m

theorem reads_map {V : Type} {r : Reader V} {put : V → Bytes} (m : Map Str V)
    (h : (putMap put m).length < 2 ^ 64)
    (hr : ∀ v, (put v).length < 2 ^ 64 → Reads r (put v) v) :
    Reads (readMap r) (putMap put m) (reread m) := by
  have hpos (b : Σ _ : Str, V) : 0 < (putBinding put b).length := by
    rw [putBinding, List.length_append, length_putBlob]
    omega
  have hlist : Reads (list (readBinding r)) (putMap put m) (Maps.sorted m) :=
    reads_list_of_length h (fun b _ => hpos b) fun b _ hb => reads_binding b hb (hr b.2)
  exact hlist.map rfl

/-- A reservation's three fields. -/
def putReserve (r : Reserve) : Bytes := putBlob r.txID ++ (putBlob r.account ++ putMoney r.amount)

/-- Reads what `putReserve` writes. -/
def readReserve : Reader Reserve := do
  let txID ← blob
  let account ← blob
  let amount ← money
  return ⟨txID, account, amount⟩

theorem reads_reserve (r : Reserve) (h : (putReserve r).length < 2 ^ 64) :
    Reads readReserve (putReserve r) r := by
  simp only [putReserve, List.length_append] at h
  exact (reads_blob_of_length (by omega)).bind
    ((reads_blob_of_length (by omega)).bind ((reads_money r.amount).last rfl))

/-- An account and its change. -/
def putEntry (e : Entry) : Bytes := putBlob e.account ++ putMoney e.amount

/-- Reads what `putEntry` writes. -/
def readEntry : Reader Entry := do
  let account ← blob
  let amount ← money
  return ⟨account, amount⟩

theorem reads_entry (e : Entry) (h : (putEntry e).length < 2 ^ 64) :
    Reads readEntry (putEntry e) e := by
  simp only [putEntry, List.length_append] at h
  exact (reads_blob_of_length (by omega)).bind ((reads_money e.amount).last rfl)

/-- A transaction of the history. -/
def putTransaction (t : Transaction) : Bytes :=
  putWord t.seq ++ (putOp t.op ++ (putBlob t.idempotencyKey ++ (putTimestamp t.timestamp
    ++ putList putEntry t.entries)))

/-- Reads what `putTransaction` writes. -/
def readTransaction : Reader Transaction := do
  let seq ← word
  let op ← readOp
  let key ← blob
  let ts ← readStamp
  let entries ← list readEntry
  return ⟨seq, op, key, entries, ts⟩

/-- The transaction with a number of 64 bits. -/
def Transaction.wrapped (t : Transaction) : Transaction := { t with seq := t.seq % 2 ^ 64 }

theorem reads_transaction (t : Transaction) (h : (putTransaction t).length < 2 ^ 64) :
    Reads readTransaction (putTransaction t) t.wrapped := by
  simp only [putTransaction, List.length_append] at h
  have hentries : Reads (list readEntry) (putList putEntry t.entries) t.entries :=
    reads_list_of_length (by omega) (fun e _ => by simp [putEntry])
      fun e _ => reads_entry e
  exact (reads_word_mod t.seq).bind ((reads_op t.op).bind ((reads_blob_of_length (by omega)).bind
    ((reads_timestamp t.timestamp).bind (hentries.last rfl))))

/-! ## The whole state -/

namespace State

/-- The bytes of a snapshot. -/
def bytes (s : State) : Bytes :=
  putWord s.seq ++ (putMap putMoney s.balances ++ (putMap putResult s.applied
    ++ (putMap (fun fp : UInt64 => putWord fp.toNat) s.fingerprints
    ++ (putMap putReserve s.reserves ++ putList putTransaction s.history))))

/-- `Snapshot` of the source. -/
def snapshot (s : State) : Option Bytes := buffer s.bytes

/-- Reads what `bytes` writes. -/
def readState : Reader State := do
  let seq ← word
  let balances ← readMap money
  let applied ← readMap readResult
  let fingerprints ← readMap (UInt64.ofNat <$> word)
  let reserves ← readMap readReserve
  let history ← list readTransaction
  return { balances := balances, applied := applied, fingerprints := fingerprints,
           history := history, reserves := reserves, seq := seq }

/-- `RestoreSnapshot` of the source: the state that replaces whatever was there, or nothing if the
bytes end too early. -/
def restoreSnapshot (data : Bytes) : Option State := (readState data).map Prod.fst

/-- What is restored from a snapshot of `s`. -/
def restored (s : State) : State :=
  { s with balances := reread s.balances, applied := reread s.applied,
           fingerprints := reread s.fingerprints, reserves := reread s.reserves }

theorem Audited.seq_le {s : State} (h : Audited s) {t : Transaction} (ht : t ∈ s.history) :
    t.seq ≤ s.history.length := by
  have hmem : t.seq ∈ s.history.map Transaction.seq := List.mem_map_of_mem ht
  rw [h.numbered, List.mem_range'_1] at hmem
  omega

/-- What is restored, with numbers of 64 bits. -/
def wrapped (s : State) : State :=
  { s.restored with seq := s.seq % 2 ^ 64, history := s.history.map Transaction.wrapped }

theorem length_putTransaction_pos (t : Transaction) : 0 < (putTransaction t).length := by
  simp [putTransaction]

theorem reads_state {s : State} (hlen : s.bytes.length < 2 ^ 64) :
    Reads readState s.bytes s.wrapped := by
  simp only [bytes, List.length_append, length_putWord] at hlen
  have hhistory : Reads (list readTransaction) (putList putTransaction s.history)
      (s.history.map Transaction.wrapped) :=
    reads_list_map (by omega) (fun t _ => length_putTransaction_pos t) fun t _ =>
      reads_transaction t
  exact (reads_word_mod s.seq).bind
    ((reads_map s.balances (by omega) fun m _ => reads_money m).bind
    ((reads_map s.applied (by omega) reads_result).bind
    ((reads_map s.fingerprints (by omega) fun fp _ =>
      (reads_word fp.toNat_lt).map (by simp)).bind
    ((reads_map s.reserves (by omega) reads_reserve).bind (hhistory.last rfl)))))

/-- The numbers of a state that counts its transactions are short enough to be written down. -/
theorem wrapped_eq_restored {s : State} (h : Audited s) (hlen : s.bytes.length < 2 ^ 64) :
    s.wrapped = s.restored := by
  have hcount : s.history.length < 2 ^ 64 := by
    have hle : s.history.length ≤ (s.history.flatMap putTransaction).length :=
      count_le_length_flatMap fun t _ => length_putTransaction_pos t
    simp only [bytes, List.length_append, length_putList] at hlen
    omega
  have hseq : s.seq % 2 ^ 64 = s.seq := Nat.mod_eq_of_lt (h.seq_eq ▸ hcount)
  have hhistory : s.history.map Transaction.wrapped = s.history := by
    conv_rhs => rw [← List.map_id s.history]
    refine List.map_congr_left fun t ht => ?_
    have hlt : t.seq < 2 ^ 64 := lt_of_le_of_lt (h.seq_le ht) hcount
    rw [Transaction.wrapped, Nat.mod_eq_of_lt hlt, id]
  rw [wrapped, hseq, hhistory]
  rfl

/-- **A snapshot is read back.** -/
theorem restoreSnapshot_snapshot {s : State} (h : Audited s) {b : Bytes}
    (hb : s.snapshot = some b) : restoreSnapshot b = some s.restored := by
  obtain ⟨rfl, hlen⟩ := length_of_buffer hb
  rw [restoreSnapshot, (reads_state (by omega)).run, wrapped_eq_restored h (by omega)]
  rfl

end State
end CoreBank.Ledger
