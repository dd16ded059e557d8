import CoreBank.Lib.Buffers

/-!
# The files of a node

The storage package of the source: the state file with its framed record, the snapshot file and the
applied marker, each with a CRC-32 over what it holds.  A write replaces a file as a whole, and a
file that cannot be read counts as one that is not there.

What was written is found again (`loadSnapshot_saveSnapshot`, `loadApplied_saveApplied`), with one
exception: the state file is written whatever its length, and read only up to `maxRecordSize`
(`load_save_iff`).
-/

set_option autoImplicit false

namespace CoreBank.Storage

open Wire

/-! ## Checksums -/

/-- One step of the division by the reversed IEEE polynomial. -/
def crcBit (c : UInt32) : UInt32 := if c &&& 1 = 1 then (c >>> 1) ^^^ 0xEDB88320 else c >>> 1

/-- The checksum after one more byte. -/
def crcByte (c : UInt32) (b : UInt8) : UInt32 :=
  (List.range 8).foldl (fun c _ => crcBit c) (c ^^^ b.toUInt32)

/-- `crc32.ChecksumIEEE`. -/
def checksum (b : Bytes) : UInt32 := ~~~ b.foldl crcByte 0xFFFFFFFF

example : checksum [49, 50, 51, 52, 53, 54, 55, 56, 57] = 0xCBF43926 := by decide +kernel

theorem checksum_lt (b : Bytes) : (checksum b).toNat < 256 ^ 4 := (checksum b).toNat_lt

/-! ## The formats -/

/-- A record is preceded by its length and its checksum, of four bytes each. -/
def headerSize : Nat := 8

/-- 64 MiB. -/
def maxRecordSize : Nat := 64 <<< 20

/-- Length, checksum and payload. -/
def frameRecord (payload : Bytes) : Bytes :=
  littleEndian 4 payload.length ++ (littleEndian 4 (checksum payload).toNat ++ payload)

/-- The record in a file, or nothing if the file is missing or damaged. -/
def readFramedFile (file : Option Bytes) : Option Bytes :=
  match file with
  | none => none
  | some data =>
    if data.length < headerSize then none
    else
      let length := ofLittleEndian (data.take 4)
      let want := ofLittleEndian ((data.drop 4).take 4)
      if maxRecordSize < length ∨ length ≠ data.length - headerSize then none
      else
        let payload := data.drop headerSize
        if (checksum payload).toNat ≠ want then none else some payload

/-- A snapshot file. -/
def encodeSnapshotRecord (index term : Nat) (data : Bytes) : Bytes :=
  littleEndian 8 index ++ (littleEndian 8 term ++ (littleEndian 8 data.length
    ++ (littleEndian 4 (checksum data).toNat ++ data)))

/-- Index, term and data of a snapshot, or nothing if the record is damaged. -/
def decodeSnapshotRecord (raw : Bytes) : Option (Nat × Nat × Bytes) :=
  if raw.length < 28 then none
  else
    let index := ofLittleEndian (raw.take 8)
    let term := ofLittleEndian ((raw.drop 8).take 8)
    let n := ofLittleEndian ((raw.drop 16).take 8)
    let sum := ofLittleEndian ((raw.drop 24).take 4)
    if raw.length - 28 ≠ n then none
    else
      let body := raw.drop 28
      if (checksum body).toNat ≠ sum then none else some (index, term, body)

/-- An index and its checksum. -/
def appliedRecordSize : Nat := 12

/-- An applied file. -/
def appliedRecord (index : Nat) : Bytes :=
  littleEndian 8 index ++ littleEndian 4 (checksum (littleEndian 8 index)).toNat

/-- The index in an applied file; a damaged one counts as zero. -/
def readApplied (file : Bytes) : Nat :=
  if file.length < appliedRecordSize then 0
  else
    let idx := file.take 8
    let want := ofLittleEndian ((file.drop 8).take 4)
    if (checksum idx).toNat ≠ want then 0 else ofLittleEndian idx

/-! ## The files -/

/-- What a node has on disk.  The applied file is created when it is opened; the others may be
missing. -/
structure Files where
  state : Option Bytes := none
  snapshot : Option Bytes := none
  applied : Bytes := []

namespace Files

/-- `RaftState.Save`. -/
def save (f : Files) (state : Bytes) : Files := { f with state := some (frameRecord state) }

/-- `RaftState.Load`. -/
def load (f : Files) : Option Bytes := readFramedFile f.state

/-- `SaveSnapshot`: replaces the file. -/
def saveSnapshot (f : Files) (index term : Nat) (data : Bytes) : Files :=
  { f with snapshot := some (encodeSnapshotRecord index term data) }

/-- `LoadSnapshot`. -/
def loadSnapshot (f : Files) : Option (Nat × Nat × Bytes) := f.snapshot.bind decodeSnapshotRecord

/-- The record is written over the beginning of the file. -/
def saveApplied (f : Files) (index : Nat) : Files :=
  { f with applied := appliedRecord index ++ f.applied.drop appliedRecordSize }

/-- `LoadApplied`: zero if the file is no good. -/
def loadApplied (f : Files) : Nat := readApplied f.applied

/-! ## What was written is found again -/

/-- What is read from a record that was just written: its length is that of the payload only as far
as four bytes can say. -/
theorem readFramedFile_frameRecord (payload : Bytes) :
    readFramedFile (some (frameRecord payload)) =
      if payload.length ≤ maxRecordSize then some payload else none := by
  have hlen : (frameRecord payload).length = 8 + payload.length := by
    simp [frameRecord]
    omega
  have hlength : ofLittleEndian ((frameRecord payload).take 4) = payload.length % 256 ^ 4 := by
    rw [frameRecord, List.take_left' (length_littleEndian 4 _), ofLittleEndian_littleEndian]
  have hdrop : (frameRecord payload).drop 4
      = littleEndian 4 (checksum payload).toNat ++ payload := by
    rw [frameRecord, List.drop_left' (length_littleEndian 4 _)]
  have hwant : ofLittleEndian (((frameRecord payload).drop 4).take 4)
    = (checksum payload).toNat := by
    rw [hdrop, List.take_left' (length_littleEndian 4 _),
      ofLittleEndian_littleEndian_of_lt (checksum_lt payload)]
  have hpayload : (frameRecord payload).drop 8 = payload := by
    rw [show 8 = 4 + 4 from rfl, ← List.drop_drop, hdrop,
      List.drop_left' (length_littleEndian 4 _)]
  have hmax : maxRecordSize = 67108864 := rfl
  have hsize : headerSize = 8 := rfl
  rw [readFramedFile]
  dsimp only
  rw [hlength, hwant, hsize, hpayload, hlen, if_neg (by omega), if_neg (not_not.2 rfl)]
  by_cases hle : payload.length ≤ maxRecordSize
  · have hmod : payload.length % 256 ^ 4 = payload.length := Nat.mod_eq_of_lt (by omega)
    rw [hmod, if_neg (by omega), if_pos hle]
  · rw [if_pos (by omega), if_neg hle]

/-- **A saved state is loaded again** exactly if it is not longer than the reader allows. -/
theorem load_save_iff (f : Files) (b : Bytes) :
    (f.save b).load = some b ↔ b.length ≤ maxRecordSize := by
  rw [save, load, readFramedFile_frameRecord]
  split
  next hle => exact iff_of_true rfl hle
  next hgt => exact iff_of_false (fun h => by cases h) hgt

/-- A state one byte too long is saved, and then there is no state. -/
theorem saved_state_lost :
    ∃ b : Bytes, b.length = 2 ^ 26 + 1 ∧ ∀ f : Files, (f.save b).load = none := by
  have hlen : (List.replicate (2 ^ 26 + 1) (0 : UInt8)).length = 2 ^ 26 + 1 := List.length_replicate
  refine ⟨List.replicate (2 ^ 26 + 1) 0, hlen, fun f => ?_⟩
  have hmax : maxRecordSize = 2 ^ 26 := rfl
  rw [save, load, readFramedFile_frameRecord, hlen, hmax, if_neg (by omega)]

theorem decodeSnapshotRecord_encodeSnapshotRecord {index term : Nat} {data : Bytes}
    (hi : index < 2 ^ 64) (ht : term < 2 ^ 64) (hd : data.length < 2 ^ 64) :
    decodeSnapshotRecord (encodeSnapshotRecord index term data) = some (index, term, data) := by
  generalize hraw : encodeSnapshotRecord index term data = raw
  have h8 (n : Nat) : (littleEndian 8 n).length = 8 := length_littleEndian 8 n
  have hlen : raw.length = 28 + data.length := by
    rw [← hraw]
    simp [encodeSnapshotRecord]
    omega
  have hindex : raw.take 8 = littleEndian 8 index := by
    rw [← hraw, encodeSnapshotRecord, List.take_left' (h8 _)]
  have hdrop8 : raw.drop 8 = littleEndian 8 term ++ (littleEndian 8 data.length
      ++ (littleEndian 4 (checksum data).toNat ++ data)) := by
    rw [← hraw, encodeSnapshotRecord, List.drop_left' (h8 _)]
  have hdrop16 : raw.drop 16
      = littleEndian 8 data.length ++ (littleEndian 4 (checksum data).toNat ++ data) := by
    rw [show 16 = 8 + 8 from rfl, ← List.drop_drop, hdrop8, List.drop_left' (h8 _)]
  have hdrop24 : raw.drop 24 = littleEndian 4 (checksum data).toNat ++ data := by
    rw [show 24 = 16 + 8 from rfl, ← List.drop_drop, hdrop16, List.drop_left' (h8 _)]
  have hbody : raw.drop 28 = data := by
    rw [show 28 = 24 + 4 from rfl, ← List.drop_drop, hdrop24,
      List.drop_left' (length_littleEndian 4 _)]
  have hword {n : Nat} (h : n < 2 ^ 64) : ofLittleEndian (littleEndian 8 n) = n :=
    ofLittleEndian_littleEndian_of_lt (by simpa using h)
  rw [decodeSnapshotRecord]
  dsimp only
  rw [hindex, hdrop8, hdrop16, hdrop24, hbody, List.take_left' (h8 _), List.take_left' (h8 _),
    List.take_left' (length_littleEndian 4 _), hword hi, hword ht, hword hd,
    ofLittleEndian_littleEndian_of_lt (checksum_lt data), if_neg (by omega), if_neg (by omega),
    if_neg (not_not.2 rfl)]

theorem loadSnapshot_saveSnapshot (f : Files) {index term : Nat} {data : Bytes}
    (hi : index < 2 ^ 64) (ht : term < 2 ^ 64) (hd : data.length < 2 ^ 64) :
    (f.saveSnapshot index term data).loadSnapshot = some (index, term, data) :=
  decodeSnapshotRecord_encodeSnapshotRecord hi ht hd

theorem loadApplied_saveApplied (f : Files) {index : Nat} (hi : index < 2 ^ 64) :
    (f.saveApplied index).loadApplied = index := by
  generalize hfile : appliedRecord index ++ f.applied.drop appliedRecordSize = file
  have hidx : file.take 8 = littleEndian 8 index := by
    rw [← hfile, appliedRecord, List.append_assoc, List.take_left' (length_littleEndian 8 _)]
  have hdrop : file.drop 8 = littleEndian 4 (checksum (littleEndian 8 index)).toNat
      ++ f.applied.drop appliedRecordSize := by
    rw [← hfile, appliedRecord, List.append_assoc, List.drop_left' (length_littleEndian 8 _)]
  have hlen : appliedRecordSize ≤ file.length := by
    rw [← hfile, List.length_append, appliedRecord, List.length_append, length_littleEndian,
      length_littleEndian]
    exact Nat.le_add_right 12 _
  have hindex : ofLittleEndian (littleEndian 8 index) = index :=
    ofLittleEndian_littleEndian_of_lt (by simpa using hi)
  rw [saveApplied, loadApplied, hfile, readApplied, if_neg (Nat.not_lt.2 hlen)]
  dsimp only
  rw [hidx, hdrop, List.take_left' (length_littleEndian 4 _),
    ofLittleEndian_littleEndian_of_lt (checksum_lt _), if_neg (not_not.2 rfl), hindex]

end Files
end CoreBank.Storage
