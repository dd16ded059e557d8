import CoreBank.Raft.ConfigCodec
import CoreBank.Raft.Server

/-!
# The state file's record

`encodeState` and `decodeState` of the source: term, vote and log as one string of bytes.  A record
is read back as it was written, except that a command without bytes comes back as none
(`decodeState_encodeState`); that is what `Log.decoded` stands for in the rest of the development.

The decoder reads with `bytes.Reader.Read`, so it does not notice every cut.  A part of a record is
accepted where the cut falls inside the last thing that is read: in the count, if what is left of it
is zero; in the length of the last command, likewise; and in the last command itself
(`decodeState_part_iff`).
-/

set_option autoImplicit false

namespace CoreBank.Raft

open Wire

def errShortState : Str := str "raft: truncated persisted state"

/-! ## Writing -/

/-- A flag, a length and the vote. -/
def putVote : Option NodeID → Bytes
  | none => [0] ++ littleEndian 2 0
  | some v => [1] ++ (littleEndian 2 v.length ++ v)

/-- A length and the command. -/
def putCommand (e : LogEntry) : Bytes := littleEndian 4 e.bytes.length ++ e.bytes

/-- One entry of the log. -/
def putEntry (e : LogEntry) : Bytes :=
  littleEndian 8 e.term ++ (littleEndian 8 e.index ++ putCommand e)

/-- What `encodeState` writes. -/
def stateBytes (term : Nat) (votedFor : Option NodeID) (log : List LogEntry) : Bytes :=
  littleEndian 8 term ++ (putVote votedFor ++ (littleEndian 8 log.length ++ log.flatMap putEntry))

/-- None if the buffer would be too long for an `int`. -/
def encodeState (term : Nat) (votedFor : Option NodeID) (log : List LogEntry) : Option Bytes :=
  buffer (stateBytes term votedFor log)

/-! ## Reading -/

/-- Without the flag, the length is not used. -/
def readVote : Reader (Option NodeID) := do
  let hasVote ← byte
  let voteLen ← number 2
  if hasVote = 1 then some <$> read voteLen else pure none

/-- A command without bytes is none. -/
def readCommand : Reader (Option Bytes) := do
  let cmdLen ← number 4
  if 0 < cmdLen then some <$> read cmdLen else pure none

/-- Reads what `putEntry` writes. -/
def readEntry : Reader LogEntry := do
  let term ← number 8
  let index ← number 8
  let command ← readCommand
  return ⟨term, index, command⟩

/-- A record as far as the number of its entries. -/
def readHead : Reader (Nat × Option NodeID × Nat) := do
  let term ← number 8
  let votedFor ← readVote
  let count ← number 8
  return (term, votedFor, count)

/-- The entries that a head announces. -/
def readEntries (head : Nat × Option NodeID × Nat) :
    Reader (Nat × Option NodeID × List LogEntry) := do
  let log ← replicate readEntry head.2.2
  return (head.1, head.2.1, log)

/-- The loop and what comes before it. -/
def readState : Reader (Nat × Option NodeID × List LogEntry) := readHead >>= readEntries

/-- What follows a record is not looked at. -/
def decodeState (data : Bytes) : Except Str (Nat × Option NodeID × List LogEntry) :=
  match readState data with
  | some (x, _) => .ok x
  | none => .error errShortState

/-- `decodeState`, where `make` yields slices of at most `maxCap` entries. -/
def Checked.decodeState (maxCap : Nat) (data : Bytes) :
    Except Panic (Except Str (Nat × Option NodeID × List LogEntry)) :=
  match readHead data with
  | none => pure (.error errShortState)
  | some (head, rest) =>
    if maxCap < head.2.2 then throw .makeslice
    else
      match readEntries head rest with
      | none => pure (.error errShortState)
      | some (x, _) => pure (.ok x)

/-- The decoder asks for as many entries as the record declares; if they can be had, it returns what
`decodeState` does. -/
theorem Checked.decodeState_cases (maxCap : Nat) (data : Bytes) :
    (Checked.decodeState maxCap data = .error .makeslice ∧
        ∃ head rest, readHead data = some (head, rest) ∧ maxCap < head.2.2) ∨
      (Checked.decodeState maxCap data = .ok (Raft.decodeState data) ∧
        ∀ head rest, readHead data = some (head, rest) → head.2.2 ≤ maxCap) := by
  have happ : readState data = (readHead data).bind fun p => readEntries p.1 p.2 := rfl
  rw [Checked.decodeState, Raft.decodeState, happ]
  cases hx : readHead data with
  | none => exact .inr ⟨rfl, fun _ _ h => by cases h⟩
  | some p =>
    obtain ⟨head, rest⟩ := p
    dsimp only
    by_cases hcap : maxCap < head.2.2
    · rw [if_pos hcap]
      exact .inl ⟨rfl, _, _, rfl, hcap⟩
    · rw [if_neg hcap, Option.bind_some]
      refine .inr ⟨?_, ?_⟩
      · cases readEntries head rest <;> rfl
      · intro head' rest' h
        cases h
        exact Nat.le_of_not_lt hcap

/-! ## What is written is read back -/

/-- The entry has a term and an index of 64 bits, and a command whose length has 32. -/
structure LogEntry.Fits (e : LogEntry) : Prop where
  term : e.term < 2 ^ 64
  index : e.index < 2 ^ 64
  command : e.bytes.length < 2 ^ 32

variable {vote : Option NodeID}

theorem reads_uint16 {v : Nat} (h : v < 2 ^ 16) : Reads (number 2) (littleEndian 2 v) v :=
  reads_number (by decide) h

theorem reads_uint32 {v : Nat} (h : v < 2 ^ 32) : Reads (number 4) (littleEndian 4 v) v :=
  reads_number (by decide) h

theorem reads_uint64 {v : Nat} (h : v < 2 ^ 64) : Reads (number 8) (littleEndian 8 v) v :=
  reads_number (by decide) h

theorem readsBefore_readVote (h : ∀ v ∈ vote, v.length < 2 ^ 16) :
    ReadsBefore readVote (putVote vote) vote := by
  cases vote with
  | none =>
    have hlen : Reads (number 2) (littleEndian 2 0) 0 := reads_uint16 (by decide)
    exact ReadsBefore.bind (reads_byte 0) (hlen.last rfl).before
  | some v =>
    exact ReadsBefore.bind (reads_byte 1)
      (.bind (reads_uint16 (h v rfl)) ((readsBefore_read rfl).map some))

theorem LogEntry.command_decoded (e : LogEntry) :
    e.decoded.command = if e.bytes = [] then none else some e.bytes := by
  rw [LogEntry.decoded, LogEntry.bytes]
  cases e.command with
  | none => rfl
  | some c => by_cases hc : c = [] <;> simp [hc]

variable {e : LogEntry}

theorem reads_readCommand (h : e.bytes.length < 2 ^ 32) :
    Reads readCommand (putCommand e) e.decoded.command := by
  refine (reads_uint32 h).bind ?_
  rw [e.command_decoded]
  by_cases hnil : e.bytes = []
  · rw [hnil, if_pos rfl]
    exact Reads.pure none
  · have hpos : 0 < e.bytes.length := List.length_pos_iff.2 hnil
    rw [if_neg hnil, if_pos hpos]
    exact (reads_read rfl hpos).map rfl

theorem reads_readEntry (h : e.Fits) : Reads readEntry (putEntry e) e.decoded := by
  exact (reads_uint64 h.term).bind
    ((reads_uint64 h.index).bind ((reads_readCommand h.command).last rfl))

theorem length_putEntry (e : LogEntry) : (putEntry e).length = 20 + e.bytes.length := by
  simp [putEntry, putCommand]
  omega

variable {term : Nat} {log : List LogEntry}

theorem count_lt (h : (stateBytes term vote log).length < 2 ^ 63) : log.length < 2 ^ 64 := by
  have hcount : log.length ≤ (log.flatMap putEntry).length :=
    count_le_length_flatMap fun e _ => by rw [length_putEntry]; omega
  simp only [stateBytes, List.length_append] at h
  omega

/-- What is read after the vote. -/
def readLog (term : Nat) (vote : Option NodeID) : Reader (Nat × Option NodeID × List LogEntry) :=
  number 8 >>= fun count => readEntries (term, vote, count)

theorem readState_eq :
    readState = number 8 >>= fun term => readVote >>= fun vote => readLog term vote := by
  simp [readState, readHead, readLog]

theorem reads_readState (hterm : term < 2 ^ 64) (hvote : ∀ v ∈ vote, v.length < 2 ^ 16)
    (hlog : ∀ e ∈ log, e.Fits) (hcount : log.length < 2 ^ 64) :
    Reads readState (stateBytes term vote log) (term, vote, log.map LogEntry.decoded) := by
  have hentries : Reads (replicate readEntry log.length) (log.flatMap putEntry)
      (log.map LogEntry.decoded) := Reads.replicate fun e he => reads_readEntry (hlog e he)
  have hrest : Reads (readLog term vote) (littleEndian 8 log.length ++ log.flatMap putEntry)
      (term, vote, log.map LogEntry.decoded) :=
    (reads_uint64 hcount).bind (hentries.last rfl)
  have hne : littleEndian 8 log.length ++ log.flatMap putEntry ≠ [] := by
    intro he
    have := congrArg List.length he
    simp at this
  rw [readState_eq]
  exact (reads_uint64 hterm).bind ((readsBefore_readVote hvote).followed hrest hne)

/-- **The state is read back**, with a command without bytes as none. -/
theorem decodeState_encodeState (term : Nat) (vote : Option NodeID) (log : List LogEntry)
    (hterm : term < 2 ^ 64) (hvote : ∀ v ∈ vote, v.length < 2 ^ 16) (hlog : ∀ e ∈ log, e.Fits)
    (b : Bytes) (hb : encodeState term vote log = some b) :
    decodeState b = .ok (term, vote, log.map fun e =>
      { e with command := if e.bytes = [] then none else some e.bytes }) := by
  obtain ⟨rfl, hlen⟩ := length_of_buffer hb
  have hdecoded : (log.map fun e : LogEntry =>
      { e with command := if e.bytes = [] then none else some e.bytes })
      = log.map LogEntry.decoded := by
    refine List.map_congr_left fun e _ => ?_
    rw [← e.command_decoded]
    rfl
  rw [hdecoded, decodeState, (reads_readState hterm hvote hlog (count_lt hlen)).run]

/-- A vote for the empty id, a no-op, a command and one without bytes. -/
theorem decodeState_encodeState_mixed :
    ∃ b, encodeState 3 (some []) [⟨0, 0, none⟩, ⟨2, 1, some [7]⟩, ⟨3, 2, some []⟩] = some b
      ∧ decodeState b = .ok (3, some [], [⟨0, 0, none⟩, ⟨2, 1, some [7]⟩, ⟨3, 2, none⟩]) := by
  have hfits : ∀ e ∈ [⟨0, 0, none⟩, ⟨2, 1, some [7]⟩, (⟨3, 2, some []⟩ : LogEntry)], e.Fits := by
    simp only [List.mem_cons, List.not_mem_nil, or_false, forall_eq_or_imp, forall_eq]
    exact ⟨⟨by decide, by decide, by decide⟩, ⟨by decide, by decide, by decide⟩,
      ⟨by decide, by decide, by decide⟩⟩
  obtain ⟨b, hb⟩ : ∃ b,
      encodeState 3 (some []) [⟨0, 0, none⟩, ⟨2, 1, some [7]⟩, ⟨3, 2, some []⟩] = some b :=
    Option.isSome_iff_exists.1 (by decide +kernel)
  exact ⟨b, hb, decodeState_encodeState _ _ _ (by decide) (by simp) hfits b hb⟩

/-! ## A record that is cut off -/

theorem starves_readVote : Starves readVote := starves_byte.bind _

theorem usesUp_readVote (h : ∀ v ∈ vote, v.length < 2 ^ 16) :
    UsesUp readVote (putVote vote) := by
  have hnil (y : UInt8) : Exhausts (number 2 >>= fun n =>
      if y = 1 then some <$> read n else pure none) [] := ((starves_number 2).bind _).exhausts
  cases vote with
  | none =>
    exact UsesUp.bind (reads_byte 0).before (usesUp_byte 0) hnil ((usesUp_number 2 0).last _)
  | some v =>
    exact UsesUp.bind (reads_byte 1).before (usesUp_byte 1) hnil
      (UsesUp.bind (reads_uint16 (h v rfl)).before (usesUp_number 2 _)
        (fun n => ((starves_read n).map some).exhausts) ((usesUp_read rfl).map some))

theorem exhausts_readCommand_nil (n : Nat) :
    Exhausts (if 0 < n then some <$> read n else pure none : Reader (Option Bytes)) [] := by
  split
  · exact ((starves_read n).map some).exhausts
  · exact exhausts_pure none

theorem usesUp_readCommand (h : e.bytes.length < 2 ^ 32) :
    UsesUp readCommand (putCommand e) := by
  refine UsesUp.bind (reads_uint32 h).before (usesUp_number 4 _) exhausts_readCommand_nil ?_
  split
  · exact (usesUp_read rfl).map some
  next h0 =>
    rw [List.length_eq_zero_iff.1 (Nat.eq_zero_of_not_pos h0)]
    exact usesUp_nil (exhausts_pure none)

theorem starves_readCommand : Starves readCommand := (starves_number 4).bind _

theorem starves_readEntry : Starves readEntry := (starves_number 8).bind _

theorem usesUp_readEntry (h : e.Fits) : UsesUp readEntry (putEntry e) := by
  exact UsesUp.bind (reads_uint64 h.term).before (usesUp_number 8 _)
    (fun _ => ((starves_number 8).bind _).exhausts)
    (UsesUp.bind (reads_uint64 h.index).before (usesUp_number 8 _)
      (fun _ => (starves_readCommand.bind _).exhausts) ((usesUp_readCommand h.command).last _))

/-- Of a command that is cut off, none or some of the length is there, or all of the length and none
of the bytes. -/
theorem readCommand_take (h : e.bytes.length < 2 ^ 32) (u : Nat) :
    readCommand ((putCommand e).take u) = none ↔
      u = 0 ∨ (u < 4 ∧ e.bytes.length % 256 ^ u ≠ 0) ∨ (u = 4 ∧ 0 < e.bytes.length) := by
  have hlen : (littleEndian 4 e.bytes.length).length = 4 := length_littleEndian 4 _
  rcases Nat.eq_zero_or_pos u with rfl | hpos
  · exact iff_of_true rfl (.inl rfl)
  rcases Nat.lt_or_ge u 4 with hlt | hge
  · -- part of the length: the command has the low part of it
    have hnumber := number_cut hpos hlt.le e.bytes.length
    rw [putCommand, List.take_append_of_le_length (by omega)]
    show (number 4 _).bind _ = none ↔ _
    rw [hnumber]
    show (if 0 < e.bytes.length % 256 ^ u then _ else _ : Reader (Option Bytes)) [] = none ↔ _
    split
    next hn => exact iff_of_true ((starves_read _).map some) (.inr (.inl ⟨hlt, by omega⟩))
    next hn => exact iff_of_false (fun he => by cases he) (by omega)
  · -- all of the length: the command has some of its bytes
    rw [putCommand, List.take_append, List.take_of_length_le (by omega), hlen, readCommand,
      (reads_uint32 h).andThen]
    split
    next hn =>
      by_cases hu : u = 4
      · subst hu
        exact iff_of_true ((starves_read _).map some) (.inr (.inr ⟨rfl, hn⟩))
      · have hne : e.bytes.take (u - 4) ≠ [] := by
          rw [Ne, List.take_eq_nil_iff, ← List.length_eq_zero_iff]
          omega
        refine iff_of_false ?_ (by omega)
        show ¬ (read e.bytes.length (e.bytes.take (u - 4))).bind _ = none
        rw [Wire.read, if_neg hne]
        exact fun he => by cases he
    next hn => exact iff_of_false (fun he => by cases he) (by omega)

theorem readEntry_take (h : e.Fits) (t : Nat) :
    readEntry ((putEntry e).take t) = none ↔ readCommand ((putCommand e).take (t - 16)) = none := by
  have hlen (n : Nat) : (littleEndian 8 n).length = 8 := length_littleEndian 8 n
  rw [readEntry, putEntry,
    (reads_uint64 h.term).before.cut (usesUp_number 8 _) fun _ => (starves_number 8).bind _,
    (reads_uint64 h.index).before.cut (usesUp_number 8 _) fun _ => starves_readCommand.bind _,
    bind_pure_eq_none, hlen, hlen, Nat.sub_sub]

theorem starves_readLog (term : Nat) (vote : Option NodeID) : Starves (readLog term vote) :=
  (starves_number 8).bind _

theorem readState_take (hterm : term < 2 ^ 64) (hvote : ∀ v ∈ vote, v.length < 2 ^ 16)
    (log : List LogEntry) (k : Nat) :
    readState ((stateBytes term vote log).take k) =
      readLog term vote ((littleEndian 8 log.length ++ log.flatMap putEntry).take
        (k - (8 + (putVote vote).length))) := by
  rw [readState_eq, stateBytes,
    (reads_uint64 hterm).before.cut (usesUp_number 8 _) fun _ => starves_readVote.bind _,
    (readsBefore_readVote hvote).cut (usesUp_readVote hvote) fun _ => starves_readLog _ _,
    length_littleEndian, Nat.sub_sub]

/-- A count that is cut off is taken as its low part, and nothing follows it. -/
theorem readLog_take_count (log : List LogEntry) {j : Nat} (h0 : 0 < j) (h8 : j < 8) :
    readLog term vote ((littleEndian 8 log.length ++ log.flatMap putEntry).take j) = none ↔
      log.length % 256 ^ j ≠ 0 := by
  rw [List.take_append_of_le_length (by rw [length_littleEndian]; omega)]
  show (number 8 _).bind _ = none ↔ _
  rw [number_cut h0 h8.le]
  show (replicate readEntry (log.length % 256 ^ j) >>= fun es => pure (term, vote, es)) [] = none
    ↔ _
  rw [bind_pure_eq_none]
  cases log.length % 256 ^ j with
  | zero => exact iff_of_false (fun he => by cases he) (fun hne => hne rfl)
  | succ n => exact iff_of_true (starves_replicate starves_readEntry n) (Nat.succ_ne_zero n)

variable {ys : List LogEntry}

/-- A log that is cut off is refused, unless its last command makes up for it. -/
theorem readLog_take_entries {z : LogEntry} (hys : ∀ e ∈ ys, e.Fits) (hz : z.Fits)
    (hcount : (ys ++ [z]).length < 2 ^ 64) {j : Nat} (h8 : 8 ≤ j) :
    readLog term vote
        ((littleEndian 8 (ys ++ [z]).length ++ (ys ++ [z]).flatMap putEntry).take j) = none ↔
      readCommand ((putCommand z).take (j - (24 + (ys.flatMap putEntry).length))) = none := by
  rw [List.take_append, List.take_of_length_le (by rw [length_littleEndian]; exact h8),
    length_littleEndian, readLog, (reads_uint64 hcount).andThen, readEntries, bind_pure_eq_none,
    List.flatMap_append, List.flatMap_singleton, List.length_append, List.length_singleton,
    replicate_cut starves_readEntry (fun e he => reads_readEntry (hys e he))
      (fun e he => usesUp_readEntry (hys e he)), readEntry_take hz]
  have hsub : j - 8 - (ys.flatMap putEntry).length - 16
    = j - (24 + (ys.flatMap putEntry).length) := by
    omega
  rw [hsub]

/-- Where a record of `n` bytes may be cut off without being refused. -/
def CutPasses (n : Nat) (vote : Option NodeID) (log : List LogEntry) (k : Nat) : Prop :=
  -- inside the count, if what is left of it is zero
  (∃ j < 8, 0 < j ∧ k = 8 + (putVote vote).length + j ∧ log.length % 256 ^ j = 0) ∨
    ∃ e ∈ log.getLast?,
      -- inside the length of the last command, if what is left of it is zero
      (∃ j < 4, 0 < j ∧ k + 4 + e.bytes.length = n + j ∧ e.bytes.length % 256 ^ j = 0)
      -- inside the last command
      ∨ n < k + e.bytes.length

instance (n : Nat) (vote : Option NodeID) (log : List LogEntry) (k : Nat) :
    Decidable (CutPasses n vote log k) := inferInstanceAs (Decidable (_ ∨ _))

theorem length_stateBytes (term : Nat) (vote : Option NodeID) (log : List LogEntry) :
    (stateBytes term vote log).length
      = 16 + (putVote vote).length + (log.flatMap putEntry).length := by
  simp [stateBytes]
  omega

theorem CutPasses.of_concat {n : Nat} {z : LogEntry} {k : Nat} : CutPasses n vote (ys ++ [z]) k ↔
      (∃ j < 8, 0 < j ∧ k = 8 + (putVote vote).length + j
        ∧ (ys ++ [z]).length % 256 ^ j = 0)
      ∨ (∃ j < 4, 0 < j ∧ k + 4 + z.bytes.length = n + j ∧ z.bytes.length % 256 ^ j = 0)
      ∨ n < k + z.bytes.length := by
  simp only [CutPasses, List.getLast?_concat, Option.mem_some_iff, exists_eq_left']

theorem readState_head_iff (hterm : term < 2 ^ 64) (hvote : ∀ v ∈ vote, v.length < 2 ^ 16)
    {k : Nat} (hk : k < 16 + (putVote vote).length) :
    readState ((stateBytes term vote log).take k) = none ↔
      ¬ CutPasses (stateBytes term vote log).length vote log k := by
  have hn := length_stateBytes term vote log
  have hlast (e : LogEntry) (he : e ∈ log.getLast?) :
      20 + e.bytes.length ≤ (log.flatMap putEntry).length := by
    rw [← length_putEntry]
    exact length_le_length_flatMap (List.mem_of_getLast? he)
  -- the places behind the count are out of reach
  have hpasses : CutPasses (stateBytes term vote log).length vote log k ↔
      ∃ j < 8, 0 < j ∧ k = 8 + (putVote vote).length + j ∧ log.length % 256 ^ j = 0 := by
    refine or_iff_left ?_
    rintro ⟨e, he, ⟨j, hj⟩ | hlt⟩ <;>
    · have hle := hlast e he
      omega
  rw [readState_take hterm hvote, hpasses]
  generalize hj : k - (8 + (putVote vote).length) = j
  rcases Nat.eq_zero_or_pos j with rfl | hpos
  · refine iff_of_true (starves_readLog term vote) ?_
    rintro ⟨j, -, hj0, hk', -⟩
    omega
  · rw [readLog_take_count log hpos (by omega)]
    refine not_congr ⟨fun hz => ⟨j, by omega, hpos, by omega, hz⟩, ?_⟩
    rintro ⟨j', -, -, hk', hz⟩
    obtain rfl : j' = j := by omega
    exact hz

theorem readState_entries_iff {z : LogEntry} (hterm : term < 2 ^ 64)
    (hvote : ∀ v ∈ vote, v.length < 2 ^ 16) (hys : ∀ e ∈ ys, e.Fits) (hz : z.Fits)
    (hcount : (ys ++ [z]).length < 2 ^ 64) {k : Nat} (hk : 16 + (putVote vote).length ≤ k)
    (hlt : k < (stateBytes term vote (ys ++ [z])).length) :
    readState ((stateBytes term vote (ys ++ [z])).take k) = none ↔
      ¬ CutPasses (stateBytes term vote (ys ++ [z])).length vote (ys ++ [z]) k := by
  have hn : (stateBytes term vote (ys ++ [z])).length
      = 16 + (putVote vote).length + ((ys.flatMap putEntry).length + (20 + z.bytes.length)) := by
    rw [length_stateBytes, List.flatMap_append, List.flatMap_singleton, List.length_append,
      length_putEntry]
  rw [readState_take hterm hvote, readLog_take_entries hys hz hcount (by omega),
    readCommand_take hz.command, CutPasses.of_concat]
  generalize hu : k - (8 + (putVote vote).length) - (24 + (ys.flatMap putEntry).length) = u
  constructor
  · rintro hnone (⟨j, hj⟩ | ⟨j, hj4, hj0, hk', hzero⟩ | hbeyond)
    · omega
    · obtain rfl : j = u := by omega
      omega
    · omega
  · intro hno
    rw [not_or, not_or] at hno
    by_cases hzero : z.bytes.length % 256 ^ u = 0
    · have hplace : ¬ (0 < u ∧ u < 4) := fun hu4 =>
        hno.2.1 ⟨u, hu4.2, hu4.1, by omega, hzero⟩
      omega
    · omega

/-- **A record that is cut off is refused** exactly if the cut is not at one of these places. -/
theorem decodeState_part_iff (term : Nat) (vote : Option NodeID) (log : List LogEntry)
    (hterm : term < 2 ^ 64) (hvote : ∀ v ∈ vote, v.length < 2 ^ 16) (hlog : ∀ e ∈ log, e.Fits)
    (b : Bytes) (hb : encodeState term vote log = some b) (p : Bytes) (hp : p <+: b) (hne : p ≠ b) :
    decodeState p = .error errShortState ↔ ¬ CutPasses b.length vote log p.length := by
  obtain ⟨rfl, hlen⟩ := length_of_buffer hb
  have hdecode : decodeState p = .error errShortState ↔ readState p = none := by
    rw [decodeState]
    cases readState p with
    | none => exact iff_of_true rfl rfl
    | some x => exact iff_of_false (fun he => by cases he) fun he => by cases he
  have hlt : p.length < (stateBytes term vote log).length :=
    lt_of_le_of_ne hp.length_le fun he => hne (hp.eq_of_length he)
  have htake := List.prefix_iff_eq_take.1 hp
  rw [hdecode]
  generalize p.length = k at htake hlt
  rw [htake]
  rcases Nat.lt_or_ge k (16 + (putVote vote).length) with hk | hk
  · exact readState_head_iff hterm hvote hk
  · -- there is an entry, or the record would end here
    rcases List.eq_nil_or_concat' log with rfl | ⟨ys, z, rfl⟩
    · rw [length_stateBytes, List.flatMap_nil, List.length_nil] at hlt
      omega
    · have hys (e : LogEntry) (he : e ∈ ys) : e.Fits := hlog e (List.mem_append_left _ he)
      have hz : z.Fits := hlog z (List.mem_append_right _ List.mem_cons_self)
      have hcount : (ys ++ [z]).length < 2 ^ 64 := count_lt hlen
      exact readState_entries_iff hterm hvote hys hz hcount hk hlt

/-- A record that ends inside the index of its last entry is refused. -/
theorem decodeState_part_index :
    decodeState ((stateBytes 3 none [⟨0, 0, none⟩, ⟨3, 1, some [7, 8]⟩]).take 52)
      = .error errShortState := by
  have hfits : ∀ e ∈ [⟨0, 0, none⟩, (⟨3, 1, some [7, 8]⟩ : LogEntry)], e.Fits := by
    simp only [List.mem_cons, List.not_mem_nil, or_false, forall_eq_or_imp, forall_eq]
    exact ⟨⟨by decide, by decide, by decide⟩, ⟨by decide, by decide, by decide⟩⟩
  exact (decodeState_part_iff 3 none _ (by decide) (by simp) hfits
    (stateBytes 3 none [⟨0, 0, none⟩, ⟨3, 1, some [7, 8]⟩]) (by decide +kernel) _
    (List.take_prefix 52 _) (by decide +kernel)).2 (by decide +kernel)

/-- The last byte of the last command is missing, and is read as zero. -/
theorem decodeState_cut_command :
    encodeState 3 none [⟨0, 0, none⟩, ⟨3, 1, some [7, 8]⟩]
        = some (stateBytes 3 none [⟨0, 0, none⟩, ⟨3, 1, some [7, 8]⟩])
      ∧ (stateBytes 3 none [⟨0, 0, none⟩, ⟨3, 1, some [7, 8]⟩]).length = 61
      ∧ decodeState ((stateBytes 3 none [⟨0, 0, none⟩, ⟨3, 1, some [7, 8]⟩]).take 60)
        = .ok (3, none, [⟨0, 0, none⟩, ⟨3, 1, some [7, 0]⟩]) := by
  decide +kernel

end CoreBank.Raft
