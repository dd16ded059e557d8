import CoreBank.Ledger.Codec

/-!
# Commands that are cut off

A record without its last twelve bytes is one from before commands carried a clock reading, and is
accepted as such.  Every other part should be refused, and a cut before the amount is.  A cut
*inside* the amount is not noticed: what is missing is taken as zero, and no clock reading follows
(`decode_part_iff`).
-/

set_option autoImplicit false

namespace CoreBank.Ledger

open Hlc Wire

theorem starves_readStr : Starves readStr := (starves_read 2).bind _

theorem usesUp_readStr {s : Str} (h : s.length < 2 ^ 16) : UsesUp readStr (writeStr s) := by
  have hlen : Reads (read 2) (littleEndian 2 s.length) (littleEndian 2 s.length) :=
    reads_read (length_littleEndian 2 _) (by decide)
  have hn : ofLittleEndian (littleEndian 2 s.length) = s.length :=
    ofLittleEndian_littleEndian_of_lt (by simpa using h)
  refine UsesUp.bind hlen.before (usesUp_read (length_littleEndian 2 _)) ?_ ?_
  · intro b
    dsimp only
    split
    · exact exhausts_pure []
    · exact (starves_read _).exhausts
  · dsimp only
    rw [hn]
    split
    next h0 =>
      rw [List.length_eq_zero_iff.1 h0]
      exact usesUp_nil (exhausts_pure [])
    · exact usesUp_read rfl

/-- What is read after the accounts. -/
def readAmount (op : UInt8) (key fromAcc toAcc : Str) : Reader Command := do
  let amount ← read 8
  let ts ← readTimestamp
  return { op := Op.ofCode op, idempotencyKey := key, fromAcc := fromAcc, toAcc := toAcc,
           amount := moneyOf amount, timestamp := ts }

theorem starves_readAmount (op : UInt8) (key fromAcc toAcc : Str) :
    Starves (readAmount op key fromAcc toAcc) := (starves_read 8).bind _

theorem length_encode (c : Command) :
    c.encode.length = 1 + ((2 + c.idempotencyKey.length)
      + ((2 + c.fromAcc.length) + ((2 + c.toAcc.length) + 20))) := by
  simp [Command.encode, writeStr, writeAmount, writeTimestamp]
  omega

theorem readCommand_take {c : Command} (h : c.Short) (k : Nat) :
    readCommand (c.encode.take k) =
      readAmount c.op.code c.idempotencyKey c.fromAcc c.toAcc
        ((writeAmount c.amount ++ writeTimestamp c.timestamp).take
          (k - (c.encode.length - 20))) := by
  have hstr (s : Str) : (writeStr s).length = 2 + s.length := by simp [writeStr]
  have hshape : readCommand = byte >>= fun op => readStr >>= fun key => readStr >>= fun fromAcc =>
      readStr >>= fun toAcc => readAmount op key fromAcc toAcc := rfl
  rw [length_encode, Command.encode, hshape,
    (reads_byte c.op.code).before.cut (usesUp_byte _) fun _ => starves_readStr.bind _,
    (reads_readStr h.1).before.cut (usesUp_readStr h.1) fun _ => starves_readStr.bind _,
    (reads_readStr h.2.1).before.cut (usesUp_readStr h.2.1) fun _ => starves_readStr.bind _,
    (reads_readStr h.2.2).before.cut (usesUp_readStr h.2.2) fun _ => starves_readAmount _ _ _ _,
    List.length_singleton, hstr, hstr, hstr]
  congr 2
  omega

/-- Of the amount some bytes are there: the others are taken as zero. -/
theorem readAmount_take_of_le {op : UInt8} {key fromAcc toAcc : Str} (m : Money) (t : Timestamp)
    {j : Nat} (h0 : 0 < j) (h8 : j ≤ 8) :
    readAmount op key fromAcc toAcc ((writeAmount m ++ writeTimestamp t).take j) =
      some (⟨Op.ofCode op, key, fromAcc, toAcc,
        moneyOf ((writeAmount m).take j ++ List.replicate (8 - j) 0), .zero⟩, []) := by
  have hlen : (writeAmount m).length = 8 := length_littleEndian 8 _
  have htake : ((writeAmount m).take j).length = j := by rw [List.length_take, hlen]; omega
  have hne : (writeAmount m).take j ≠ [] := by
    intro he
    rw [he] at htake
    exact absurd htake h0.ne
  have hread : read 8 ((writeAmount m).take j)
      = some ((writeAmount m).take j ++ List.replicate (8 - j) 0, []) := by
    rw [Wire.read, if_neg hne, htake, List.take_of_length_le (by omega),
      List.drop_eq_nil_of_le (by omega)]
  rw [List.take_append_of_le_length (by omega)]
  show (read 8 ((writeAmount m).take j)).bind _ = _
  rw [hread]
  rfl

/-- The amount is there: the clock reading has to be there too. -/
theorem readAmount_take_of_lt {op : UInt8} {key fromAcc toAcc : Str} (m : Money) (t : Timestamp)
    {j : Nat} (h8 : 8 < j) (h20 : j < 20) :
    readAmount op key fromAcc toAcc ((writeAmount m ++ writeTimestamp t).take j) = none := by
  have hlen : (writeAmount m).length = 8 := length_littleEndian 8 _
  have hstamp : readTimestamp ((writeTimestamp t).take (j - 8)) = none := by
    have hts : ((writeTimestamp t).take (j - 8)).length = j - 8 := by
      rw [List.length_take]
      simp [writeTimestamp]
      omega
    have hne : (writeTimestamp t).take (j - 8) ≠ [] := by
      intro he
      rw [he] at hts
      exact absurd hts (by simp; omega)
    rw [readTimestamp, if_neg hne]
    rcases Nat.lt_or_ge (j - 8) 8 with hlt | hge
    · rw [take, if_pos (by omega)]
      rfl
    · rw [take, if_neg (by omega)]
      show (take 4 (((writeTimestamp t).take (j - 8)).drop 8)).bind _ = none
      rw [take, if_pos (by rw [List.length_drop]; omega)]
      rfl
  rw [List.take_append, List.take_of_length_le (by omega), hlen]
  have hread : Reads (read 8) (writeAmount m) (writeAmount m) := reads_read hlen (by decide)
  rw [readAmount, hread.andThen]
  show (readTimestamp _).bind _ = none
  rw [hstamp]
  rfl

theorem decode_take {c : Command} (h : c.Short) {k : Nat} (hk : k ≤ c.encode.length) :
    decode (c.encode.take k) =
      if k = c.encode.length then .ok c
      else if k + 12 = c.encode.length then .ok { c with timestamp := .zero }
      else if c.encode.length < k + 20 ∧ k + 12 < c.encode.length then
        .ok { c with
          amount := moneyOf ((writeAmount c.amount).take (k - (c.encode.length - 20))
            ++ List.replicate (8 - (k - (c.encode.length - 20))) 0)
          timestamp := .zero }
      else .error errBadEncoding := by
  have h20 : 20 ≤ c.encode.length := by rw [length_encode]; omega
  by_cases hfull : k = c.encode.length
  · rw [if_pos hfull, hfull, List.take_length, decode_encode h]
  rw [if_neg hfull, decode, readCommand_take h]
  generalize hn : c.encode.length = n at *
  -- the cut is `j` bytes into the amount and the clock reading
  generalize hj : k - (n - 20) = j
  rcases Nat.eq_zero_or_pos j with rfl | hpos
  · rw [List.take_zero, starves_readAmount _ _ _ _, if_neg (by omega), if_neg (by omega)]
  rcases Nat.lt_or_ge 8 j with h8 | h8
  · rw [readAmount_take_of_lt _ _ h8 (by omega), if_neg (by omega), if_neg (by omega)]
  rw [readAmount_take_of_le _ _ hpos h8, Op.ofCode_code]
  rcases Nat.lt_or_eq_of_le h8 with hlt | rfl
  · rw [if_neg (by omega), if_pos (by omega)]
  · have hamount : (writeAmount c.amount).take 8 ++ List.replicate (8 - 8) 0
      = writeAmount c.amount := by
      rw [List.take_of_length_le (by rw [writeAmount, length_littleEndian])]
      exact List.append_nil _
    rw [if_pos (by omega), hamount, moneyOf_writeAmount]

/-- **The whole record and the one without a clock reading are accepted, and no other part of it**,
exactly if the cut is not inside the amount. -/
theorem decode_part_iff (c : Command) (h : c.Short) (p : Bytes) (hp : p <+: c.encode) :
    decode p =
        (if p.length = c.encode.length then .ok c
        else if p.length + 12 = c.encode.length then .ok { c with timestamp := .zero }
        else .error errBadEncoding)
      ↔ ¬ (c.encode.length < p.length + 20 ∧ p.length + 12 < c.encode.length) := by
  have hle : p.length ≤ c.encode.length := hp.length_le
  have hdec := decode_take h hle
  rw [← List.prefix_iff_eq_take.1 hp] at hdec
  rw [hdec]
  by_cases hcut : c.encode.length < p.length + 20 ∧ p.length + 12 < c.encode.length
  · have hfull : ¬ p.length = c.encode.length := by omega
    have hold : ¬ p.length + 12 = c.encode.length := by omega
    refine iff_of_false ?_ (not_not.2 hcut)
    simp only [if_neg hfull, if_neg hold, if_pos hcut]
    exact fun he => by cases he
  · rw [if_neg hcut]
    exact iff_of_true rfl hcut

/-- A record from before the clock readings. -/
theorem decode_part_unstamped :
    decode ((Command.encode ⟨.deposit, [107], [], [97], 300, ⟨7, 1⟩⟩).take 17)
      = .ok ⟨.deposit, [107], [], [97], 300, .zero⟩ := by
  have h := (decode_part_iff ⟨.deposit, [107], [], [97], 300, ⟨7, 1⟩⟩ (by decide)
    ((Command.encode ⟨.deposit, [107], [], [97], 300, ⟨7, 1⟩⟩).take 17)
    (List.take_prefix _ _)).2 (by decide +kernel)
  rw [h]
  decide +kernel

/-- A deposit of 300 whose amount is cut off after one byte is a deposit of 44. -/
theorem decode_cut_amount :
    Command.Short ⟨.deposit, [107], [], [97], 300, ⟨7, 1⟩⟩
      ∧ (Command.encode ⟨.deposit, [107], [], [97], 300, ⟨7, 1⟩⟩).length = 29
      ∧ decode ((Command.encode ⟨.deposit, [107], [], [97], 300, ⟨7, 1⟩⟩).take 10)
        = .ok ⟨.deposit, [107], [], [97], 44, .zero⟩ := by
  decide +kernel

end CoreBank.Ledger
