import CoreBank.Ledger.Codec
import CoreBank.Shard.Machine

/-!
# Log entries of a shard, as bytes

A replica is handed the bytes of an entry.  `decodeCommand` takes them apart, with the error texts
of the source, and `Machine.applyData` is `Machine.apply` on what comes out; bytes that are no
command change nothing.
-/

set_option autoImplicit false

namespace CoreBank.Shard

open Ledger Hlc Wire

/-- The operation of a byte. -/
def Op.ofCode (c : UInt8) : Op :=
  if h1 : c = 1 then .prepare
  else if h2 : c = 2 then .decision
  else if h3 : c = 3 then .outcome
  else if h4 : c = 4 then .single
  else .other c (code_of_ne h1 h2 h3 h4).symm

/-- The byte of an operation. -/
def Op.code : Op → UInt8
  | .prepare => 1
  | .decision => 2
  | .outcome => 3
  | .single => 4
  | .other c _ => c

theorem Op.ofCode_code (op : Op) : Op.ofCode op.code = op := by
  cases op with
  | other c h =>
    obtain ⟨h1, h2, h3, h4⟩ := ne_of_code h.symm
    rw [Op.code, Op.ofCode, dif_neg h1, dif_neg h2, dif_neg h3, dif_neg h4]
  | _ => rfl

/-- A reader that says why it fails. -/
abbrev Decoder := StateT Bytes (Except Str)

/-- The next two bytes, where the input is too short otherwise. -/
def pair (err : Str) : Decoder (UInt8 × UInt8) := fun data =>
  match data with
  | a :: b :: rest => .ok ((a, b), rest)
  | _ => .error err

/-- Lengths and counts have two bytes, the more significant one first. -/
def count (p : UInt8 × UInt8) : Nat := p.1.toNat * 256 + p.2.toNat

/-- A two-byte length and a string. -/
def readStr : Decoder Str := do
  let n := count (← pair (str "shard: truncated string header"))
  fun data =>
    if data.length < n then .error (str "shard: truncated string body")
    else .ok (data.take n, data.drop n)

/-- So many strings. -/
def readStrs : Nat → Decoder (List Str)
  | 0 => return []
  | n + 1 => do
    let p ← readStr
    let ps ← readStrs n
    return p :: ps

/-- What follows the operation byte. -/
def readBody (op : Op) : Decoder Command := do
  let txID ← readStr
  let (commit, debit) ← pair (str "shard: truncated command")
  let nParts := count (← pair (str "shard: truncated participants"))
  let participants ← readStrs nParts
  let coordinator ← readStr
  let ledger ← fun data => (Ledger.decode data).map fun c => (c, [])
  return { op := op, txID := txID, ledger := ledger, commit := commit == 1, debit := debit == 1,
           participants := participants, coordinator := coordinator }

/-- What is left over is ignored. -/
def decodeCommand (data : Bytes) : Except Str Command :=
  match data with
  | [] => .error (str "shard: empty command")
  | op :: rest => (readBody (Op.ofCode op) rest).map Prod.fst

/-! ## Encoding -/

/-- A length or a count; of a larger one only the low part is written. -/
def putCount (n : Nat) : Bytes := [UInt8.ofNat (n / 256), UInt8.ofNat n]

/-- A two-byte length and the string. -/
def appendStr (s : Str) : Bytes := putCount s.length ++ s

/-- A flag's byte. -/
def flagByte (b : Bool) : UInt8 := if b then 1 else 0

/-- `Encode`. -/
def Command.encode (c : Command) : Bytes :=
  [c.op.code] ++ (appendStr c.txID ++ ([flagByte c.commit, flagByte c.debit]
    ++ (putCount c.participants.length ++ (c.participants.flatMap appendStr
    ++ (appendStr c.coordinator ++ c.ledger.encode)))))

/-- The lengths and counts in the command can be written down. -/
structure Command.Short (c : Command) : Prop where
  txID : c.txID.length < 2 ^ 16
  count : c.participants.length < 2 ^ 16
  participants : ∀ p ∈ c.participants, p.length < 2 ^ 16
  coordinator : c.coordinator.length < 2 ^ 16
  ledger : c.ledger.Short

/-- What a decoder returns if it does not fail.  The rules for readers apply to that. -/
def Decoder.reader {α : Type} (d : Decoder α) : Reader α := fun data => (d data).toOption

theorem Decoder.reader_bind {α β : Type} (d : Decoder α) (f : α → Decoder β) :
    (d >>= f).reader = d.reader >>= fun x => (f x).reader := by
  funext data
  show ((d data).bind _).toOption = ((d data).toOption).bind _
  cases d data <;> rfl

theorem Decoder.reader_eq_some {α : Type} {d : Decoder α} {data : Bytes} {p : α × Bytes} :
    d.reader data = some p ↔ d data = .ok p := by
  rw [Decoder.reader]
  cases d data <;> simp [Except.toOption]

theorem Decoder.reader_andThen {α β : Type} {d : Decoder α} {data rest : Bytes} {x : α}
    {f : α → Reader β} (h : d data = .ok (x, rest)) : (d.reader >>= f) data = f x rest := by
  show (d.reader data).bind _ = _
  rw [Decoder.reader_eq_some.2 h]
  rfl

theorem count_putCount {n : Nat} (h : n < 2 ^ 16) :
    count (UInt8.ofNat (n / 256), UInt8.ofNat n) = n := by
  simp only [count, UInt8.toNat_ofNat']
  omega

theorem reads_pair (err : Str) (a b : UInt8) : Reads (pair err).reader [a, b] (a, b) := fun _ => rfl

theorem reads_appendStr {s : Str} (h : s.length < 2 ^ 16) :
    Reads readStr.reader (appendStr s) s := by
  rw [readStr, Decoder.reader_bind]
  refine (reads_pair _ _ _).bind fun rest => ?_
  dsimp only [Decoder.reader]
  rw [count_putCount h, if_neg (by simp)]
  simp [Except.toOption]

theorem reads_readStrs : ∀ {ps : List Str}, (∀ p ∈ ps, p.length < 2 ^ 16) →
    Reads (readStrs ps.length).reader (ps.flatMap appendStr) ps
  | [], _ => fun _ => rfl
  | p :: ps, h => by
    have ih := reads_readStrs fun q hq => h q (List.mem_cons_of_mem p hq)
    rw [List.length_cons, readStrs, Decoder.reader_bind]
    refine (reads_appendStr (h p List.mem_cons_self)).bind ?_
    rw [Decoder.reader_bind]
    exact ih.last rfl

theorem flagByte_eq_one (b : Bool) : (flagByte b == 1) = b := by cases b <;> rfl

/-- **What is written is read back**, as long as its lengths and counts are not too large. -/
theorem decodeCommand_encode {c : Command} (h : c.Short) : decodeCommand c.encode = .ok c := by
  have hbody : (readBody c.op).reader (c.encode.drop 1) = some (c, []) := by
    have hparts := reads_readStrs h.participants
    rw [readBody]
    simp only [Decoder.reader_bind, Command.encode, List.singleton_append, List.drop_succ_cons,
      List.drop_zero]
    rw [(reads_appendStr h.txID).andThen, (reads_pair _ _ _).andThen, putCount,
      (reads_pair _ _ _).andThen, count_putCount h.count, hparts.andThen,
      (reads_appendStr h.coordinator).andThen]
    rw [Decoder.reader_andThen (by rw [decode_encode h.ledger]; rfl), flagByte_eq_one,
      flagByte_eq_one]
    rfl
  rw [Decoder.reader_eq_some, ← Op.ofCode_code c.op] at hbody
  show (readBody (Op.ofCode c.op.code) (c.encode.drop 1)).map Prod.fst = _
  rw [hbody]
  rfl

/-! Everything that is decoded was announced by two bytes. -/

theorem yields_pair (err : Str) : Yields (pair err).reader fun p => count p < 2 ^ 16 := by
  intro data p rest _
  have h1 : p.1.toNat < 256 := p.1.toNat_lt
  have h2 : p.2.toNat < 256 := p.2.toNat_lt
  rw [count]
  omega

theorem yields_shardStr : Yields readStr.reader fun s => s.length < 2 ^ 16 := by
  rw [readStr, Decoder.reader_bind]
  refine (yields_pair _).bind fun p hp => ?_
  intro data s rest hs
  rw [Decoder.reader_eq_some] at hs
  split at hs
  · cases hs
  · obtain ⟨rfl, -⟩ := Prod.mk.inj (Except.ok.inj hs)
    rw [List.length_take]
    omega

theorem yields_readStrs (n : Nat) :
    Yields (readStrs n).reader fun ps => ps.length = n ∧ ∀ p ∈ ps, p.length < 2 ^ 16 := by
  induction n with
  | zero => exact Yields.pure ⟨rfl, by simp⟩
  | succ n ih =>
    rw [readStrs, Decoder.reader_bind]
    refine yields_shardStr.bind fun p hp => ?_
    rw [Decoder.reader_bind]
    refine ih.bind fun ps hps => Yields.pure ⟨by rw [List.length_cons, hps.1], ?_⟩
    exact List.forall_mem_cons.2 ⟨hp, hps.2⟩

theorem yields_readBody (op : Op) : Yields (readBody op).reader Command.Short := by
  rw [readBody]
  simp only [Decoder.reader_bind]
  refine yields_shardStr.bind fun txID htx => (yields_true _).bind fun _ _ => ?_
  refine (yields_pair _).bind fun p hp => (yields_readStrs _).bind fun ps hps => ?_
  refine yields_shardStr.bind fun coord hcoord => ?_
  have hledger : Yields
      (Decoder.reader fun data => (Ledger.decode data).map fun c => (c, ([] : Bytes)))
      Ledger.Command.Short := by
    intro data c rest hc
    rw [Decoder.reader_eq_some] at hc
    cases hd : Ledger.decode data with
    | error e => rw [hd] at hc; cases hc
    | ok c' =>
      rw [hd] at hc
      obtain ⟨rfl, -⟩ := Prod.mk.inj (Except.ok.inj hc)
      exact short_of_decode hd
  exact hledger.bind fun l hl => Yields.pure ⟨htx, hps.1 ▸ hp, hps.2, hcoord, hl⟩

theorem short_of_decodeCommand {data : Bytes} {c : Command} (h : decodeCommand data = .ok c) :
    c.Short := by
  cases data with
  | nil => cases h
  | cons op rest =>
    rw [decodeCommand] at h
    cases hb : readBody (Op.ofCode op) rest with
    | error e => rw [hb] at h; cases h
    | ok p =>
      rw [hb] at h
      obtain rfl := Except.ok.inj h
      exact yields_readBody _ (Decoder.reader_eq_some.2 hb)

/-- A command comes back exactly if its strings fit. -/
theorem decodeCommand_encode_iff {c : Command} : decodeCommand c.encode = .ok c ↔ c.Short :=
  ⟨short_of_decodeCommand, decodeCommand_encode⟩

namespace Machine

/-- Applies the bytes of a log entry. -/
def applyData (m : Machine) (data : Bytes) : Machine × Result :=
  match decodeCommand data with
  | .ok cmd => m.apply cmd
  | .error err => (m, { err := err })

/-- The bytes of several entries, in order. -/
def applyAll (m : Machine) (ds : List Bytes) : Machine := ds.foldl (fun m d => (m.applyData d).1) m

end Machine
end CoreBank.Shard
