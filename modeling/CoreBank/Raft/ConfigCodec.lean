import CoreBank.Lib.Access
import CoreBank.Lib.Buffers
import CoreBank.Raft.Types

/-!
# Configuration entries

A configuration is written as a marker byte, the number of its servers and each server's name after
its length.  `decodeConfig` is shown to be the reader of a list of blobs (`decodeConfig_cons`), so
it undoes `encodeConfig` and refuses every part of what was written, wherever the cut is.

The decoder of the source walks through the command with positions, and a wrong one would be a
panic.  `Checked.decodeConfig` is that decoder, with the source's conversions and errors.  It agrees
with `decodeConfig` and never cuts outside of its input (`Checked.decodeConfig_cases`).
-/

set_option autoImplicit false

namespace CoreBank.Raft

open Wire

/-! ## Eight-byte numbers -/

theorem uint64_eq (b : Bytes) : uint64 b = Wire.ofLittleEndian b := by
  induction b with
  | nil => rfl
  | cons x b ih => rw [Wire.ofLittleEndian, ← ih, uint64, uint64, List.foldr_cons]

theorem putUint64_eq (n : Nat) : putUint64 n = Wire.littleEndian 8 n :=
  (Wire.littleEndian_eq_map 8 n).symm

theorem word_eq (b : Bytes) :
    word b = if b.length < 8 then none else some (uint64 (b.take 8), b.drop 8) := by
  show (take 8 b).bind _ = _
  rw [take]
  split
  · rfl
  · rw [uint64_eq]
    rfl

/-! ## The reader of a configuration -/

/-- The number of servers and the length of each name fit into eight bytes. -/
def Configuration.Fits (c : Configuration) : Prop :=
  c.servers.length < 2 ^ 64 ∧ ∀ x ∈ c.servers, x.length < 2 ^ 64

instance (c : Configuration) : Decidable c.Fits := inferInstanceAs (Decidable (_ ∧ _))

theorem encodeConfig_eq (c : Configuration) :
    encodeConfig c = configPrefix :: putList putBlob c.servers := by
  rw [encodeConfig, putList, putUint64_eq]
  simp only [putUint64_eq]
  rfl

variable {c : Configuration}

theorem Configuration.fits_of_length (h : (encodeConfig c).length < 2 ^ 64) :
    c.Fits := by
  rw [encodeConfig_eq, List.length_cons, length_putList] at h
  have hpos : ∀ x ∈ c.servers, 0 < (putBlob x).length := fun x _ => by
    rw [length_putBlob]
    omega
  have hcount := count_le_length_flatMap hpos
  refine ⟨by omega, fun x hx => ?_⟩
  have hx' : (putBlob x).length ≤ (c.servers.flatMap putBlob).length := length_le_length_flatMap hx
  rw [length_putBlob] at hx'
  omega

theorem decodeServers_eq (n : Nat) (b : Bytes) :
    decodeServers n b = (replicate blob n b).map Prod.fst := by
  induction n generalizing b with
  | zero => rfl
  | succ n ih =>
    rw [decodeServers]
    show _ = Option.map _ ((blob b).bind fun r => (replicate blob n r.2).bind fun q =>
      some (r.1 :: q.1, q.2))
    have hblob : blob b = (word b).bind fun r => take r.1 r.2 := rfl
    rw [hblob, word_eq]
    split
    · rfl
    · rw [Option.bind_some, take]
      dsimp only
      split
      · rfl
      · rw [ih, Option.bind_some]
        cases replicate blob n ((b.drop 8).drop (uint64 (b.take 8))) <;> rfl

theorem decodeConfig_cons (b : Bytes) :
    decodeConfig (configPrefix :: b) = (list blob b).map fun r => ⟨r.1⟩ := by
  have hlist : list blob b = (word b).bind fun r => replicate blob r.1 r.2 := rfl
  rw [decodeConfig, if_neg (by simp [isConfigEntry]), hlist, word_eq, List.length_cons]
  by_cases hlen : b.length < 8
  · rw [if_pos (by omega), if_pos hlen]
    rfl
  · rw [if_neg (by omega), if_neg hlen, Option.bind_some, decodeServers_eq, Option.map_map]
    rfl

theorem reads_servers (h : c.Fits) :
    Reads (list blob) (putList putBlob c.servers) c.servers := by
  have hmap := reads_list (f := id) h.1 fun x hx => reads_blob (h.2 x hx)
  rwa [List.map_id] at hmap

theorem decodeConfig_encodeConfig (h : c.Fits) :
    decodeConfig (encodeConfig c) = some c := by
  rw [encodeConfig_eq, decodeConfig_cons, (reads_servers h).run]
  rfl

theorem configOf_encodeConfig (h : c.Fits) :
    configOf (encodeConfig c) = some c.servers := by
  rw [configOf, decodeConfig_encodeConfig h]
  rfl

theorem decodeConfig_part (h : c.Fits) {p : Bytes} (hp : p <+: encodeConfig c)
    (hne : p ≠ encodeConfig c) : decodeConfig p = none := by
  rw [encodeConfig_eq] at hp hne
  cases p with
  | nil => rfl
  | cons x q =>
    obtain ⟨rfl, hq⟩ := List.cons_prefix_cons.1 hp
    have hq' : q ≠ putList putBlob c.servers := fun he => hne (by rw [he])
    rw [decodeConfig_cons, stable_blob.list.refuses (reads_servers h).run hq hq']
    rfl

/-! ## The decoder with its positions -/

/-- What makes `decodeConfig` panic. -/
inductive Panic
  /-- An index or a bound is outside of the slice. -/
  | bounds
  /-- `make` is asked for more elements than the runtime can give. -/
  | makeslice
deriving DecidableEq, Repr

/-- A read of a slice that panics when it is `none`. -/
def inBounds {α : Type} (x : Option α) : Except Panic α := x.elim (.error .bounds) .ok

@[simp] theorem inBounds_some_bind {α β : Type} (x : α) (f : α → Except Panic β) :
    (inBounds (some x) >>= f) = f x := rfl

def errNotConfig : Str := str "raft: not a configuration entry"

def errConfigShort : Str := str "raft: configuration entry too short"

def errConfigTruncated : Str := str "raft: truncated configuration entry"

def errConfigID (size : Nat) (remain : Int) : Str :=
  str s!"raft: configuration entry declares a {size}-byte id but {remain} bytes remain"

namespace Checked

open Access

/-- `isConfigEntry`: reads the first byte. -/
def isConfigEntry (cmd : Bytes) : Option Bool :=
  if 0 < cmd.length then (get cmd 0).map (· == configPrefix) else some false

/-- The loop of `decodeConfig`: `n` servers from position `pos` on.  The difference of the length
and the position is converted to 64 unsigned bits, the size to a signed integer. -/
def decodeServers (cmd : Bytes) : Nat → Int → Option (Except Str (List NodeID))
  | 0, _ => some (.ok [])
  | n + 1, pos =>
    if (cmd.length : Int) < pos + 8 then some (.error errConfigTruncated)
    else do
      let field ← between cmd pos (pos + 8)
      let size := uint64 field
      let pos := pos + 8
      if ((cmd.length : Int) - pos) % 2 ^ 64 < size then
        some (.error (errConfigID size ((cmd.length : Int) - pos)))
      else
        let id ← between cmd pos (pos + toInt64 size)
        let servers ← decodeServers cmd n (pos + toInt64 size)
        some (servers.map (id :: ·))

/-- `decodeConfig`, where `make` yields slices of at most `maxCap` names. -/
def decodeConfig (maxCap : Nat) (cmd : Bytes) : Except Panic (Except Str Configuration) := do
  let marked ← inBounds (isConfigEntry cmd)
  if marked = false then pure (.error errNotConfig)
  else if cmd.length < 9 then pure (.error errConfigShort)
  else
    let n := uint64 (← inBounds (between cmd 1 9))
    if maxCap < n then throw .makeslice
    else
      let servers ← inBounds (decodeServers cmd n 9)
      pure (servers.map Configuration.mk)

theorem isConfigEntry_eq (cmd : Bytes) : isConfigEntry cmd = some (Raft.isConfigEntry cmd) := by
  cases cmd with
  | nil => rfl
  | cons x b => exact if_pos (Nat.succ_pos _)

theorem between_eq {cmd : Bytes} {pos n : Nat} (h : pos + n ≤ cmd.length) :
    between cmd (pos : Int) ((pos : Int) + (n : Int)) = some ((cmd.drop pos).take n) := by
  have hcast : (pos : Int) + (n : Int) = ((pos + n : Nat) : Int) := rfl
  rw [hcast, between_natCast (Nat.le_add_right pos n) h, List.drop_take, Nat.add_sub_cancel_left]

/-- In a command that a slice can hold the positions stay within it, and the servers are those that
follow the position. -/
theorem decodeServers_eq {cmd : Bytes} (hlen : cmd.length < 2 ^ 63) (n : Nat) {pos : Nat}
    (hpos : pos ≤ cmd.length) :
    ∃ r, decodeServers cmd n pos = some r ∧
      r.toOption = Raft.decodeServers n (cmd.drop pos) := by
  induction n generalizing pos with
  | zero => exact ⟨.ok [], rfl, rfl⟩
  | succ n ih =>
    have hdrop : (cmd.drop pos).length = cmd.length - pos := List.length_drop
    rw [decodeServers, Raft.decodeServers]
    by_cases h8 : cmd.length < pos + 8
    · rw [if_pos (by omega), if_pos (by omega)]
      exact ⟨_, rfl, rfl⟩
    rw [if_neg (by omega), if_neg (by omega)]
    have hfield : between cmd (pos : Int) ((pos : Int) + 8) = some ((cmd.drop pos).take 8) :=
      @between_eq cmd pos 8 (by omega)
    have hrest : (cmd.drop pos).drop 8 = cmd.drop (pos + 8) := List.drop_drop
    have hnext : (pos : Int) + 8 = ((pos + 8 : Nat) : Int) := rfl
    have hremain : ((cmd.length : Int) - ((pos + 8 : Nat) : Int)) % 2 ^ 64 =
        ((cmd.length - (pos + 8) : Nat) : Int) := by
      omega
    rw [hfield]
    simp only [Option.bind_eq_bind, Option.bind_some, hrest, List.length_drop, hnext, hremain]
    generalize uint64 ((cmd.drop pos).take 8) = size
    by_cases hsize : cmd.length - (pos + 8) < size
    · rw [if_pos (by omega), if_pos hsize]
      exact ⟨_, rfl, rfl⟩
    have hend : toInt64 (size : Int) = size := toInt64_of_lt (by omega) (by omega)
    obtain ⟨r, hr, hservers⟩ := @ih (pos + 8 + size) (by omega)
    have hcast : ((pos + 8 : Nat) : Int) + (size : Int) = ((pos + 8 + size : Nat) : Int) := rfl
    rw [if_neg (by omega), if_neg hsize, hend, between_eq (by omega), Option.bind_some, hcast, hr,
      Option.bind_some, List.drop_drop, ← hservers]
    cases r <;> exact ⟨_, rfl, rfl⟩

/-- The decoder asks for too large a slice, or it returns what `decodeConfig` does; it never panics
on a bound. -/
theorem decodeConfig_cases (maxCap : Nat) {cmd : Bytes} (hlen : cmd.length < 2 ^ 63) :
    (decodeConfig maxCap cmd = .error .makeslice ∧ 9 ≤ cmd.length ∧
        maxCap < uint64 ((cmd.drop 1).take 8)) ∨
      ∃ r, decodeConfig maxCap cmd = .ok r ∧ r.toOption = Raft.decodeConfig cmd := by
  rw [decodeConfig, Raft.decodeConfig, isConfigEntry_eq, inBounds_some_bind]
  by_cases hmark : Raft.isConfigEntry cmd = false
  · rw [if_pos hmark, if_pos hmark]
    exact .inr ⟨_, rfl, rfl⟩
  rw [if_neg hmark, if_neg hmark]
  by_cases hshort : cmd.length < 9
  · rw [if_pos hshort, if_pos hshort]
    exact .inr ⟨_, rfl, rfl⟩
  have hcount : between cmd 1 9 = some ((cmd.drop 1).take 8) := @between_eq cmd 1 8 (by omega)
  obtain ⟨r, hr, hservers⟩ := @decodeServers_eq cmd hlen (uint64 ((cmd.drop 1).take 8)) 9
    (by omega)
  rw [if_neg hshort, if_neg hshort, hcount, inBounds_some_bind]
  by_cases hcap : maxCap < uint64 ((cmd.drop 1).take 8)
  · rw [if_pos hcap]
    exact .inl ⟨rfl, by omega, hcap⟩
  · have hr' : decodeServers cmd (uint64 ((cmd.drop 1).take 8)) 9 = some r := hr
    rw [if_neg hcap, hr', inBounds_some_bind, ← hservers]
    refine .inr ⟨_, rfl, ?_⟩
    cases r <;> rfl

/-- The capacity is the number in the entry, whatever follows it. -/
theorem decodeConfig_makeslice_iff (maxCap : Nat) (cmd : Bytes) :
    decodeConfig maxCap cmd = .error .makeslice ↔
      Raft.isConfigEntry cmd = true ∧ 9 ≤ cmd.length ∧ maxCap < uint64 ((cmd.drop 1).take 8) := by
  rw [decodeConfig, isConfigEntry_eq, inBounds_some_bind]
  cases hmark : Raft.isConfigEntry cmd with
  | false => exact iff_of_false (fun h => by cases h) fun h => by cases h.1
  | true =>
    rw [if_neg Bool.true_eq_false.mp]
    by_cases hshort : cmd.length < 9
    · rw [if_pos hshort]
      exact iff_of_false (fun h => by cases h) fun h => by omega
    have hcount : between cmd 1 9 = some ((cmd.drop 1).take 8) := @between_eq cmd 1 8 (by omega)
    rw [if_neg hshort, hcount, inBounds_some_bind]
    by_cases hcap : maxCap < uint64 ((cmd.drop 1).take 8)
    · rw [if_pos hcap]
      exact iff_of_true rfl ⟨rfl, by omega, hcap⟩
    · rw [if_neg hcap]
      refine iff_of_false ?_ fun h => hcap h.2.2
      cases decodeServers cmd (uint64 ((cmd.drop 1).take 8)) 9 <;> exact fun h => by cases h

theorem count_of_part (h : c.Fits) {p : Bytes} (hp : p <+: encodeConfig c) (hlen : 9 ≤ p.length) :
    uint64 ((p.drop 1).take 8) = c.servers.length := by
  obtain ⟨q, hq⟩ := hp
  have hfield : (p.drop 1).take 8 = ((p ++ q).drop 1).take 8 := by
    rw [List.drop_append_of_le_length (by omega),
      List.take_append_of_le_length (by rw [List.length_drop]; omega)]
  have hword : (putList putBlob c.servers).take 8 = putWord c.servers.length :=
    List.take_left' (length_putWord _)
  rw [hfield, hq, encodeConfig_eq, List.drop_succ_cons, List.drop_zero, hword, uint64_eq]
  exact ofLittleEndian_littleEndian_of_lt h.1

/-- A part of an entry makes the decoder ask for no more servers than were written. -/
theorem decodeConfig_of_part {maxCap : Nat} (hcap : c.servers.length ≤ maxCap)
    (hlen : (encodeConfig c).length < 2 ^ 63) {p : Bytes} (hp : p <+: encodeConfig c) :
    ∃ r, decodeConfig maxCap p = .ok r ∧ r.toOption = Raft.decodeConfig p := by
  have hfits : c.Fits := Configuration.fits_of_length (by omega)
  have hle : p.length ≤ (encodeConfig c).length := hp.length_le
  rcases decodeConfig_cases maxCap (show p.length < 2 ^ 63 by omega) with ⟨-, h9, hlt⟩ | hr
  · rw [count_of_part hfits hp h9] at hlt
    omega
  · exact hr

/-- **Configuration entries decode exactly.**  What `encodeConfig` returns is a configuration entry
and is decoded to the configuration, and every part of it is refused with an error, provided that
`make` can give a slice as long as the one the configuration is held in.  No command at all makes
the decoder cut outside of it. -/
theorem config_exact (maxCap : Nat) :
    (∀ (c : Configuration) (b : Bytes), buffer (encodeConfig c) = some b →
      c.servers.length ≤ maxCap →
        Raft.isConfigEntry b = true ∧ decodeConfig maxCap b = .ok (.ok c) ∧
          ∀ p, p <+: b → p ≠ b → ∃ e, decodeConfig maxCap p = .ok (.error e)) ∧
    ∀ cmd : Bytes, cmd.length < maxSlice → decodeConfig maxCap cmd ≠ .error .bounds := by
  constructor
  · intro c b hb hcap
    obtain ⟨rfl, hlen⟩ := length_of_buffer hb
    have hfits : c.Fits := Configuration.fits_of_length (by omega)
    refine ⟨by simp [Raft.isConfigEntry, encodeConfig], ?_, fun p hp hne => ?_⟩
    · obtain ⟨r, hr, hopt⟩ := decodeConfig_of_part hcap hlen List.prefix_rfl
      rw [decodeConfig_encodeConfig hfits] at hopt
      cases r with
      | ok d =>
        cases hopt
        exact hr
      | error e => cases hopt
    · obtain ⟨r, hr, hopt⟩ := decodeConfig_of_part hcap hlen hp
      rw [decodeConfig_part hfits hp hne] at hopt
      cases r with
      | ok d => cases hopt
      | error e => exact ⟨e, hr⟩
  · intro cmd hlen
    rcases decodeConfig_cases maxCap hlen with ⟨he, -⟩ | ⟨r, hr, -⟩
    · rw [he]
      decide
    · rw [hr]
      exact fun h => by cases h

/-- Two servers, one without a name; an entry cut off between them. -/
theorem config_exact_between :
    decodeConfig 2 (encodeConfig ⟨[[7], []]⟩) = .ok (.ok ⟨[[7], []]⟩) ∧
      ∃ e, decodeConfig 2 ((encodeConfig ⟨[[7], []]⟩).take 18) = .ok (.error e) := by
  have h := (config_exact 2).1 ⟨[[7], []]⟩ _ (if_pos (by decide)) (Nat.le_refl 2)
  exact ⟨h.2.1, h.2.2 _ ⟨_, List.take_append_drop 18 _⟩ (by decide)⟩

end Checked

end CoreBank.Raft
