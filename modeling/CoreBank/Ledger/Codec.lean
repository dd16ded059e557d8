import CoreBank.Lib.Buffers
import CoreBank.Ledger.State

/-!
# Commands on the wire

`Decode` of the source reads a command from the bytes of a log entry, with a `bytes.Reader` that
does not insist on the bytes it is asked for.  `Machine` is the adapter that decodes an entry before
it applies it and remembers the result under the entry's idempotency key.
-/

set_option autoImplicit false

namespace CoreBank.Ledger

open Hlc Wire

def errBadEncoding : Str := str "ledger: malformed command encoding"

theorem code_of_ne {c : UInt8} (h1 : ¬ c = 1) (h2 : ¬ c = 2) (h3 : ¬ c = 3) (h4 : ¬ c = 4) :
    c = 0 ∨ 4 < c := by
  have hne (k : UInt8) (h : ¬ c = k) : c.toNat ≠ k.toNat := fun e => h (UInt8.toNat_inj.1 e)
  have e1 : c.toNat ≠ 1 := hne 1 h1
  have e2 : c.toNat ≠ 2 := hne 2 h2
  have e3 : c.toNat ≠ 3 := hne 3 h3
  have e4 : c.toNat ≠ 4 := hne 4 h4
  rcases Nat.eq_zero_or_pos c.toNat with h0 | h0
  · exact .inl (UInt8.toNat_inj.1 h0)
  · refine .inr (UInt8.lt_iff_toNat_lt.2 ?_)
    show 4 < c.toNat
    omega

theorem ne_of_code {c : UInt8} (h : c = 0 ∨ 4 < c) : c ≠ 1 ∧ c ≠ 2 ∧ c ≠ 3 ∧ c ≠ 4 := by
  refine ⟨?_, ?_, ?_, ?_⟩ <;> rintro rfl <;> revert h <;> decide

/-- The operation a byte stands for. -/
def Op.ofCode (c : UInt8) : Op :=
  if h1 : c = 1 then .deposit
  else if h2 : c = 2 then .withdraw
  else if h3 : c = 3 then .transfer
  else if h4 : c = 4 then .openAccount
  else .other c (code_of_ne h1 h2 h3 h4)

theorem Op.ofCode_code (op : Op) : Op.ofCode op.code = op := by
  cases op with
  | other c h =>
    obtain ⟨h1, h2, h3, h4⟩ := ne_of_code h
    rw [Op.code, Op.ofCode, dif_neg h1, dif_neg h2, dif_neg h3, dif_neg h4]
  | _ => rfl

/-- A two-byte length and a string. -/
def readStr : Reader Str := do
  let n := ofLittleEndian (← read 2)
  if n = 0 then return [] else read n

/-- The amount of eight bytes; the conversion from `uint64` keeps the bits. -/
def moneyOf (b : Bytes) : Money := (UInt64.ofNat (ofLittleEndian b)).toInt64

/-- The clock reading is missing in old records, but may not be cut off. -/
def readTimestamp : Reader Timestamp := fun b =>
  if b = [] then some (.zero, [])
  else do
    let (w, b) ← take 8 b
    let (l, b) ← take 4 b
    return (⟨UInt64.ofNat (ofLittleEndian w), UInt32.ofNat (ofLittleEndian l)⟩, b)

/-- Reads what `encode` writes. -/
def readCommand : Reader Command := do
  let op ← byte
  let key ← readStr
  let fromAcc ← readStr
  let toAcc ← readStr
  let amount ← read 8
  let ts ← readTimestamp
  return { op := Op.ofCode op, idempotencyKey := key, fromAcc := fromAcc, toAcc := toAcc,
           amount := moneyOf amount, timestamp := ts }

/-- Parses a command; what follows it is not looked at. -/
def decode (data : Bytes) : Except Str Command :=
  match readCommand data with
  | some (cmd, _) => .ok cmd
  | none => .error errBadEncoding

/-! ## Encoding -/

/-- The length has two bytes; of a longer string only its low part is written. -/
def writeStr (s : Str) : Bytes := littleEndian 2 s.length ++ s

/-- The amount's 64 bits. -/
def writeAmount (m : Money) : Bytes := littleEndian 8 m.toUInt64.toNat

/-- Eight bytes and four. -/
def writeTimestamp (t : Timestamp) : Bytes :=
  littleEndian 8 t.wall.toNat ++ littleEndian 4 t.logical.toNat

/-- `Encode`. -/
def Command.encode (c : Command) : Bytes :=
  [c.op.code] ++ (writeStr c.idempotencyKey ++ (writeStr c.fromAcc ++ (writeStr c.toAcc
    ++ (writeAmount c.amount ++ writeTimestamp c.timestamp))))

/-- The strings of the command have lengths that can be written down. -/
def Command.Short (c : Command) : Prop :=
  c.idempotencyKey.length < 2 ^ 16 ∧ c.fromAcc.length < 2 ^ 16 ∧ c.toAcc.length < 2 ^ 16

instance (c : Command) : Decidable c.Short := inferInstanceAs (Decidable (_ ∧ _))

theorem reads_readStr {s : Str} (h : s.length < 2 ^ 16) : Reads readStr (writeStr s) s := by
  have hlen : Reads (read 2) (littleEndian 2 s.length) (littleEndian 2 s.length) :=
    reads_read (length_littleEndian 2 _) (by decide)
  refine hlen.bind ?_
  have hn : ofLittleEndian (littleEndian 2 s.length) = s.length :=
    ofLittleEndian_littleEndian_of_lt (by simpa using h)
  dsimp only
  rw [hn]
  split
  next h0 => rw [List.length_eq_zero_iff.1 h0]; exact Reads.pure []
  next h0 => exact reads_read rfl (Nat.pos_of_ne_zero h0)

theorem moneyOf_writeAmount (m : Money) : moneyOf (writeAmount m) = m := by
  have h : ofLittleEndian (littleEndian 8 m.toUInt64.toNat) = m.toUInt64.toNat :=
    ofLittleEndian_littleEndian_of_lt (by simpa using m.toUInt64.toNat_lt)
  rw [moneyOf, writeAmount, h]
  simp

theorem reads_readTimestamp (t : Timestamp) : Reads readTimestamp (writeTimestamp t) t := by
  intro rest
  have hw : ofLittleEndian (littleEndian 8 t.wall.toNat) = t.wall.toNat :=
    ofLittleEndian_littleEndian_of_lt (by simpa using t.wall.toNat_lt)
  have hl : ofLittleEndian (littleEndian 4 t.logical.toNat) = t.logical.toNat :=
    ofLittleEndian_littleEndian_of_lt (by simpa using t.logical.toNat_lt)
  have hne : writeTimestamp t ++ rest ≠ [] := by
    intro he
    have := congrArg List.length he
    simp [writeTimestamp] at this
  have h8 : take 8 (writeTimestamp t ++ rest) =
      some (littleEndian 8 t.wall.toNat, littleEndian 4 t.logical.toNat ++ rest) := by
    rw [writeTimestamp, List.append_assoc]
    exact reads_take (length_littleEndian 8 _) _
  have h4 : take 4 (littleEndian 4 t.logical.toNat ++ rest) =
      some (littleEndian 4 t.logical.toNat, rest) := reads_take (length_littleEndian 4 _) _
  rw [readTimestamp, if_neg hne, h8]
  simp [h4, hw, hl]

theorem decode_encode_append {c : Command} (h : c.Short) (rest : Bytes) :
    decode (c.encode ++ rest) = .ok c := by
  have hread : Reads readCommand c.encode c :=
    (reads_byte c.op.code).bind ((reads_readStr h.1).bind ((reads_readStr h.2.1).bind
      ((reads_readStr h.2.2).bind ((reads_read (length_littleEndian 8 _) (by decide)).bind
        ((reads_readTimestamp c.timestamp).last
          (by rw [Op.ofCode_code, ← writeAmount, moneyOf_writeAmount]))))))
  rw [decode, hread rest]

/-- **What is written is read back**, as long as its strings are not too long. -/
theorem decode_encode {c : Command} (h : c.Short) : decode c.encode = .ok c := by
  have happ := decode_encode_append h []
  rwa [List.append_nil] at happ

/-! A string that is read was announced by two bytes, so nothing longer ever comes out of
`decode`. -/

theorem yields_readStr : Yields readStr fun s => s.length < 2 ^ 16 := by
  refine (yields_read 2).bind fun b hb => ?_
  have hn := ofLittleEndian_lt b
  rw [hb] at hn
  dsimp only
  split
  · exact Yields.pure (by simp)
  · intro b' x rest hx
    rw [yields_read _ hx]
    simpa using hn

theorem yields_readCommand : Yields readCommand Command.Short := by
  refine (yields_true byte).bind fun op _ => yields_readStr.bind fun key hkey => ?_
  refine yields_readStr.bind fun fromAcc hfrom => yields_readStr.bind fun toAcc hto => ?_
  exact (yields_true _).bind fun _ _ => (yields_true _).bind fun _ _ =>
    Yields.pure ⟨hkey, hfrom, hto⟩

theorem short_of_decode {data : Bytes} {c : Command} (h : decode data = .ok c) : c.Short := by
  rw [decode] at h
  split at h
  next hread =>
    obtain rfl := Except.ok.inj h
    exact yields_readCommand hread
  next => cases h

/-- A command comes back exactly if its strings fit. -/
theorem decode_encode_iff {c : Command} : decode c.encode = .ok c ↔ c.Short :=
  ⟨short_of_decode, decode_encode⟩

/-! ## The replicated machine -/

/-- The ledger, and what was last answered under each key. -/
structure Machine where
  state : State := {}
  results : Map Str Result := ∅
  /-- The fingerprint of the request last applied under a key. -/
  fingerprints : Map Str UInt64 := ∅

namespace Machine

/-- Applies the bytes of a log entry. -/
def apply (m : Machine) (data : Bytes) : Machine × Result :=
  match decode data with
  | .error _ => (m, { err := errBadEncoding })
  | .ok c =>
    let (st, res) := m.state.apply c
    ({ m with state := st, results := m.results.insert c.idempotencyKey res,
              fingerprints := m.fingerprints.insert c.idempotencyKey c.fingerprint }, res)

/-- The result recorded for a key, whatever the request was. -/
def result (m : Machine) (key : Str) : Option Result := m.results.lookup key

/-- The result recorded for the key of a command, if the key was used for the same request. -/
def resultFor (m : Machine) (cmd : Command) : Except Str (Option Result) :=
  match m.results.lookup cmd.idempotencyKey with
  | none => .ok none
  | some r =>
    if (m.fingerprints.lookup cmd.idempotencyKey).getD 0 ≠ cmd.fingerprint then
      .error errIdempotencyConflict
    else .ok (some r)

end Machine
end CoreBank.Ledger
