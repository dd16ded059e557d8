import CoreBank.Rpc.Client
import CoreBank.Shard.Coordinator
import CoreBank.Shard.Snapshot

/-!
# From a request to the log

A client's request becomes a ledger command, and the coordinator wraps it into the entries it
proposes to the shards.  Replicas see nothing of this but the bytes.

`Call.Builds` collects every entry a call of `Transfer` can lead to: those it proposes itself,
whatever the replies, and those a later `RecoverInDoubt` makes from the record of one of its
prepares.
-/

set_option autoImplicit false

namespace CoreBank
namespace Shard

open Ledger Hlc Wire

variable (shardFor : AccountID → ID)

/-- The points a call of `Transfer` can get to, whatever the replies to its proposals. -/
inductive Call.Reaches (c : Call) : TransferPc → Prop
  | start : Reaches c (c.route shardFor)
  | reply {pc : TransferPc} (h : Reaches c pc) (debit : Ledger.State) (rep : Shard.ProposeReply) :
      Reaches c (pc.onReply shardFor c debit rep)

/-- The entries built from a call. -/
inductive Call.Builds (c : Call) : Command → Prop
  | transfer {pc : TransferPc} {g : ID} {e : Command} (h : c.Reaches shardFor pc)
      (hq : pc.request shardFor c = some (g, e)) : Builds c e
  /-- Recovery starts from the record of a YES vote, which a snapshot may have stripped of its clock
  reading. -/
  | recover {p e : Command} {r : TxRecord} {g : ID} {todo : List TxID} {commit : Bool}
      (h : Builds c p) (hop : p.op = .prepare)
      (hr : r = Machine.voteRecord p true ∨ r = (Machine.voteRecord p true).unstamped)
      (hq : RecoverPc.request (.settle g todo p.txID r (coordinatorOf r) commit) = some (g, e)) :
      Builds c e

variable {shardFor} {c : Call}

/-- Outside the protocol a call makes one proposal and returns. -/
theorem Call.Reaches.cases {pc : TransferPc} (h : c.Reaches shardFor pc) :
    c.route shardFor = .prepareDebit ∨ (∃ s, pc = .single s) ∨ ∃ res err,
      pc = .returned res err := by
  induction h with
  | start =>
    rw [Call.route]
    dsimp only
    split
    all_goals repeat' split
    all_goals first
      | exact .inl rfl
      | exact .inr (.inl ⟨_, rfl⟩)
      | exact .inr (.inr ⟨_, _, rfl⟩)
  | reply h debit rep ih =>
    rcases ih with ih | ⟨s, rfl⟩ | ⟨res, err, rfl⟩
    · exact .inl ih
    · refine .inr (.inr ?_)
      rw [TransferPc.onReply]
      split
      · exact ⟨_, _, rfl⟩
      · split <;> exact ⟨_, _, rfl⟩
    · exact .inr (.inr ⟨res, err, rfl⟩)

variable (shardFor) in
/-- A record of the protocol for a call: it carries the call's command, with or without the clock
reading. -/
structure Call.Carries (c : Call) (e : Command) : Prop where
  txID : e.txID = c.txID
  ledger : e.ledger = c.cmd ∨ e.ledger = { c.cmd with timestamp := .zero }
  participants : e.participants = [c.fromShard shardFor, c.toShard shardFor]
  coordinator : e.coordinator = c.fromShard shardFor

/-- The entry of an operation inside one shard. -/
def Call.singleEntry (c : Call) : Command :=
  { op := .single, txID := [], ledger := c.cmd, commit := false, debit := false,
    participants := [], coordinator := [] }

theorem Call.carries_entry (op : Op) (commit debit : Bool) :
    c.Carries shardFor (c.entry shardFor op commit debit) :=
  ⟨rfl, .inl rfl, rfl, rfl⟩

/-- The outcome that recovery proposes for a record of the call is again one of its records. -/
theorem Call.Carries.recover {p : Command} (h : c.Carries shardFor p) {r : TxRecord}
    (hr : r = Machine.voteRecord p true ∨ r = (Machine.voteRecord p true).unstamped)
    (commit : Bool) :
    c.Carries shardFor
      { op := .outcome, txID := p.txID, ledger := r.cmd, commit := commit, debit := r.debit,
        participants := r.participants, coordinator := coordinatorOf r } := by
  have hcoord : coordinatorOf r = c.fromShard shardFor := by
    have hc : r.coordinator = p.coordinator := by rcases hr with rfl | rfl <;> rfl
    have hp : r.participants = p.participants := by rcases hr with rfl | rfl <;> rfl
    rw [coordinatorOf, hc, hp, h.coordinator, h.participants, List.headD_cons, ite_self]
  have hledger : r.cmd = c.cmd ∨ r.cmd = { c.cmd with timestamp := .zero } := by
    rcases hr with rfl | rfl
    · exact h.ledger
    · rcases h.ledger with hl | hl <;> exact .inr
        (by simp [Machine.voteRecord, TxRecord.unstamped, hl])
  refine ⟨h.txID, hledger, ?_, hcoord⟩
  rcases hr with rfl | rfl <;> exact h.participants

theorem Call.Builds.cases {e : Command} (h : c.Builds shardFor e) :
    e = c.singleEntry ∨ (c.route shardFor = .prepareDebit ∧ c.Carries shardFor e) := by
  induction h with
  | @transfer pc g e h hq =>
    rcases h.cases with hroute | ⟨s, rfl⟩ | ⟨res, err, rfl⟩
    · cases pc with
      | single s =>
        obtain ⟨-, rfl⟩ := Prod.mk.inj (Option.some.inj hq)
        exact .inl rfl
      | returned res err => cases hq
      | _ =>
        obtain ⟨-, rfl⟩ := Prod.mk.inj (Option.some.inj hq)
        exact .inr ⟨hroute, Call.carries_entry _ _ _⟩
    · obtain ⟨-, rfl⟩ := Prod.mk.inj (Option.some.inj hq)
      exact .inl rfl
    · cases hq
  | recover h hop hr hq ih =>
    rcases ih with rfl | ⟨hroute, hcarries⟩
    · cases hop
    · obtain ⟨-, rfl⟩ := Prod.mk.inj (Option.some.inj hq)
      exact .inr ⟨hroute, hcarries.recover hr _⟩

/-- The protocol runs exactly for a transfer between two shards that both have a group. -/
theorem Call.route_eq_prepareDebit (shardFor : AccountID → ID)
    (hop : ∀ k h, c.cmd.op ≠ .other k h) :
    c.route shardFor = .prepareDebit ↔
      c.cmd.op = .transfer ∧ c.fromShard shardFor ≠ c.toShard shardFor
        ∧ c.fromShard shardFor ∈ c.groups ∧ c.toShard shardFor ∈ c.groups := by
  have hsingle (s : ID) : (if s ∈ c.groups then TransferPc.single s
      else .returned {} (some (.noGroup s))) ≠ .prepareDebit := by
    split <;> nofun
  rw [Call.route]
  dsimp only
  cases h : c.cmd.op with
  | other k hk => exact absurd h (hop k hk)
  | transfer =>
    by_cases heq : c.fromShard shardFor = c.toShard shardFor
    · simp [heq, hsingle]
    by_cases hf : c.fromShard shardFor ∈ c.groups
    · by_cases ht : c.toShard shardFor ∈ c.groups <;> simp [heq, hf, ht]
    · simp [heq, hf]
  | _ => simp [hsingle]

theorem Call.Carries.short_iff {e : Command} (h : c.Carries shardFor e) :
    e.Short ↔ c.txID.length < 2 ^ 16 ∧ c.cmd.Short ∧ (c.fromShard shardFor).length < 2 ^ 16
      ∧ (c.toShard shardFor).length < 2 ^ 16 := by
  have hledger : e.ledger.Short ↔ c.cmd.Short := by
    rcases h.ledger with hl | hl
    · rw [hl]
    · rw [hl]
      rfl
  constructor
  · intro hs
    have hparts := hs.participants
    rw [h.participants] at hparts
    exact ⟨h.txID ▸ hs.txID, hledger.1 hs.ledger, hparts _ (by simp), hparts _ (by simp)⟩
  · rintro ⟨htx, hcmd, hfrom, hto⟩
    refine ⟨h.txID ▸ htx, ?_, ?_, h.coordinator ▸ hfrom, hledger.2 hcmd⟩
    · rw [h.participants]
      simp
    · rw [h.participants]
      simpa using ⟨hfrom, hto⟩

theorem Call.short_singleEntry (h : c.cmd.Short) : c.singleEntry.Short :=
  ⟨by simp [singleEntry], by simp [singleEntry], by simp [singleEntry], by simp [singleEntry], h⟩

/-- Every entry built from a call is read back exactly if the command's strings, and the names of
the two shards where the protocol runs, are not too long. -/
theorem Call.builds_read_back_iff (htx : c.txID.length < 2 ^ 16) (hcmd : c.cmd.Short) :
    (∀ e, c.Builds shardFor e → decodeCommand e.encode = .ok e) ↔
      (c.route shardFor = .prepareDebit →
        (c.fromShard shardFor).length < 2 ^ 16 ∧ (c.toShard shardFor).length < 2 ^ 16) := by
  constructor
  · intro h hroute
    have hreach : c.Reaches shardFor .prepareDebit := hroute ▸ .start
    have hs := decodeCommand_encode_iff.1 (h _ (.transfer hreach rfl))
    exact ((Call.carries_entry _ _ _).short_iff.1 hs).2.2
  · intro h e he
    rw [decodeCommand_encode_iff]
    rcases he.cases with rfl | ⟨hroute, hcarries⟩
    · exact Call.short_singleEntry hcmd
    · exact hcarries.short_iff.2 ⟨htx, hcmd, h hroute⟩

end Shard

namespace Rpc

open Ledger Hlc Wire

/-- What a request has to keep to for its entries to be read back: lengths are written in two bytes.
The names of the shards matter where they are written down. -/
structure TxArgs.Writable (shardFor : AccountID → Shard.ID) (groups : List Shard.ID)
    (args : TxArgs) : Prop where
  key : args.idempotencyKey.length < 2 ^ 16
  fromAcc : args.fromAcc.length < 2 ^ 16
  toAcc : args.toAcc.length < 2 ^ 16
  shards : args.op = str "transfer" → shardFor args.fromAcc ≠ shardFor args.toAcc →
    shardFor args.fromAcc ∈ groups → shardFor args.toAcc ∈ groups →
    (shardFor args.fromAcc).length < 2 ^ 16 ∧ (shardFor args.toAcc).length < 2 ^ 16

theorem toCommand_eq_ok {svc : Service} {args : TxArgs} {cmd : Command}
    (h : toCommand svc args = .ok cmd) :
    (cmd.idempotencyKey = args.idempotencyKey ∧ cmd.fromAcc = args.fromAcc ∧ cmd.toAcc = args.toAcc)
      ∧ (cmd.op = .transfer ↔ args.op = str "transfer") ∧ ∀ k hk, cmd.op ≠ .other k hk := by
  have hd : str "transfer" ≠ str "deposit" := by decide +kernel
  have hw : str "transfer" ≠ str "withdraw" := by decide +kernel
  rw [toCommand] at h
  dsimp only at h
  split at h
  next ho =>
    obtain rfl := Except.ok.inj h
    exact ⟨⟨rfl, rfl, rfl⟩, by simp [ho, hd.symm], nofun⟩
  split at h
  next ho =>
    obtain rfl := Except.ok.inj h
    exact ⟨⟨rfl, rfl, rfl⟩, by simp [ho, hw.symm], nofun⟩
  split at h
  next ho =>
    obtain rfl := Except.ok.inj h
    exact ⟨⟨rfl, rfl, rfl⟩, by simp [ho], nofun⟩
  next ht =>
    split at h
    · obtain rfl := Except.ok.inj h
      exact ⟨⟨rfl, rfl, rfl⟩, by simp [ht], nofun⟩
    · cases h

/-- **What the log carries is what the client asked for**, exactly if nothing in the request is too
long for the two bytes its length is written in. -/
theorem request_read_back_iff (svc : Service) (shardFor : AccountID → Shard.ID)
    (groups : List Shard.ID) (now : Timestamp) (args : TxArgs) (cmd : Command)
    (hcmd : toCommand svc args = .ok cmd) :
    (Ledger.decode cmd.encode = .ok cmd
      ∧ ∀ e, Shard.Call.Builds shardFor ⟨cmd.idempotencyKey, Shard.stamp cmd now, groups⟩ e →
          Shard.decodeCommand e.encode = .ok e)
    ↔ args.Writable shardFor groups := by
  obtain ⟨⟨hkey, hfrom, hto⟩, hop, hother⟩ := toCommand_eq_ok hcmd
  have hstamp : (Shard.stamp cmd now).op = cmd.op ∧ (Shard.stamp cmd now).fromAcc = cmd.fromAcc
      ∧ (Shard.stamp cmd now).toAcc = cmd.toAcc ∧ ((Shard.stamp cmd now).Short ↔ cmd.Short) := by
    rw [Shard.stamp]
    split <;> exact ⟨rfl, rfl, rfl, Iff.rfl⟩
  obtain ⟨hsop, hsfrom, hsto, hsshort⟩ := hstamp
  have hroute := Shard.Call.route_eq_prepareDebit shardFor
    (c := ⟨cmd.idempotencyKey, Shard.stamp cmd now, groups⟩) (by simpa [hsop] using hother)
  simp only [Shard.Call.fromShard, Shard.Call.toShard, hsop, hsfrom, hsto, hop, hfrom,
    hto] at hroute
  rw [decode_encode_iff]
  constructor
  · rintro ⟨hshort, hbuilds⟩
    have hall := (Shard.Call.builds_read_back_iff (hshort.1) (hsshort.2 hshort)).1 hbuilds
    refine ⟨hkey ▸ hshort.1, hfrom ▸ hshort.2.1, hto ▸ hshort.2.2, fun ht hne hf ht' => ?_⟩
    have := hall (hroute.2 ⟨ht, hne, hf, ht'⟩)
    simpa [Shard.Call.fromShard, Shard.Call.toShard, hsfrom, hsto, hfrom, hto] using this
  · intro h
    have hshort : cmd.Short := ⟨hkey ▸ h.key, hfrom ▸ h.fromAcc, hto ▸ h.toAcc⟩
    refine ⟨hshort, (Shard.Call.builds_read_back_iff hshort.1 (hsshort.2 hshort)).2 fun hr => ?_⟩
    obtain ⟨ht, hne, hf, ht'⟩ := hroute.1 hr
    have := h.shards ht hne hf ht'
    simpa [Shard.Call.fromShard, Shard.Call.toShard, hsfrom, hsto, hfrom, hto] using this

/-- A transfer of 5 from `A` to `B`. -/
def plainTransfer : TxArgs :=
  { op := str "transfer", idempotencyKey := [107], fromAcc := [65], toAcc := [66], amount := 5 }

/-- A small transfer. -/
def plainCommand : Command :=
  { op := .transfer, idempotencyKey := [107], fromAcc := [65], toAcc := [66], amount := 5,
    timestamp := .zero }

/-- The two accounts live on shards of their own, and the clock reads 7. -/
theorem plainTransfer_read_back :
    toCommand { quote := id } plainTransfer = .ok plainCommand ∧
      plainTransfer.Writable id [[65], [66]] ∧
      Ledger.decode plainCommand.encode = .ok plainCommand ∧
      ∀ e, Shard.Call.Builds id ⟨[107], Shard.stamp plainCommand ⟨7, 0⟩, [[65], [66]]⟩ e →
        Shard.decodeCommand e.encode = .ok e := by
  have hw : plainTransfer.Writable id [[65], [66]] :=
    ⟨by decide, by decide, by decide, fun _ _ _ _ => ⟨by decide, by decide⟩⟩
  have hcmd : toCommand { quote := id } plainTransfer = .ok plainCommand := by decide +kernel
  exact ⟨hcmd, hw, (request_read_back_iff _ id _ ⟨7, 0⟩ plainTransfer plainCommand hcmd).2 hw⟩

/-- A deposit of 5 to `A` under a key of 65536 zero bytes. -/
def longDeposit : TxArgs :=
  { op := str "deposit", idempotencyKey := List.replicate 65536 0, fromAcc := [], toAcc := [65],
    amount := 5 }

/-- A deposit of nothing to nobody. -/
def emptyDeposit : Command :=
  { op := .deposit, idempotencyKey := [], fromAcc := [], toAcc := [], amount := 0,
    timestamp := .zero }

/-- The length of the long key is written as zero, and its bytes are read as the rest of a
command. -/
theorem longDeposit_read_as_emptyDeposit :
    ∃ cmd, toCommand { quote := id } longDeposit = .ok cmd ∧
      Ledger.decode cmd.encode = .ok emptyDeposit ∧ cmd ≠ emptyDeposit := by
  refine ⟨{ op := .deposit, idempotencyKey := List.replicate 65536 0, fromAcc := [], toAcc := [65],
            amount := 5, timestamp := .zero }, ?_, ?_, fun h => ?_⟩
  · rw [toCommand]
    exact if_pos rfl
  · have hempty : emptyDeposit.encode = 1 :: List.replicate 26 0 := by decide +kernel
    have hkey : writeStr (List.replicate 65536 0)
      = List.replicate 26 0 ++ List.replicate 65512 0 := by
      rw [writeStr, List.length_replicate]
      have hlen : littleEndian 2 65536 = List.replicate 2 0 := by decide +kernel
      rw [hlen, List.replicate_append_replicate, List.replicate_append_replicate]
    have hsplit (rest : Bytes) :
        [(1 : UInt8)] ++ (writeStr (List.replicate 65536 0) ++ rest) =
          emptyDeposit.encode ++ (List.replicate 65512 0 ++ rest) := by
      rw [hkey, hempty, List.singleton_append, List.cons_append, List.append_assoc]
    rw [Command.encode]
    dsimp only [Op.code]
    rw [hsplit]
    exact decode_encode_append (by decide) _
  · have hamount := congrArg Command.amount h
    exact absurd hamount (by decide)

end Rpc
end CoreBank
