import CoreBank.Rpc.Client
import CoreBank.Shard.Replay

/-!
# The client API of the sharded bank

`ShardClientService.Submit`: the checks at the door, one call of `Coordinator.Transfer` under the
client's key, and the translation of what it returns into a reply.  The calls run over the system of
groups and coordinators of `CoreBank.Shard.Coordinator`; nothing else begins a transfer.
-/

set_option autoImplicit false

namespace CoreBank.Rpc

open Ledger Hlc Shard

/-- What the sharded service is configured with. -/
structure ShardService extends Service where
  /-- `Error` of a coordinator error, which is only passed on. -/
  errorText : Shard.Error → Str

/-- What `Submit` makes of the return values of `Transfer`.  The address of the leader, if one is
known, is looked up when the reply is written. -/
def ShardService.reply (svc : ShardService) (leaderAddr : Str) (res : Result) :
    Option Shard.Error → TxReply
  | none => .ofResult res
  | some (.notLeader s) =>
    { notLeader := true, err := svc.errorText (.notLeader s), leaderAddr := leaderAddr }
  | some .txAborted => { err := if res.err = [] then svc.errorText .txAborted else res.err }
  | some e => { indeterminate := true, err := svc.errorText e }

/-- The checks before `Transfer` is called: the reply that turns the request away, or the
command. -/
def ShardService.check (svc : ShardService) (args : TxArgs) (rej : Option Rejection) :
    Except TxReply Ledger.Command :=
  if svc.permits args.token then
    match rej with
    | some r => .error { busy := true, err := r.reason, retryAfter := r.retryAfter }
    | none =>
      match toCommand svc.toService args with
      | .error e => .error { err := e }
      | .ok cmd =>
        if cmd.idempotencyKey = [] then .error { err := str "an idempotency key is required" }
        else .ok cmd
  else .error { unauthenticated := true, err := errUnauthenticated }

/-- A call of `Submit`. -/
structure Submission where
  args : TxArgs
  /-- The call of `Transfer` it made, if it was let in, and the command it made it with. -/
  transfer : Option (Nat × Ledger.Command) := none
  reply : Option TxReply := none

/-- The groups, and the calls of `Submit`. -/
structure ShardWorld where
  shards : Shard.World := {}
  submissions : List Submission := []

/-- What may happen. -/
inductive ShardAction
  /-- A request arrives, at a node with these groups, when its clock reads `now`. -/
  | submit (args : TxArgs) (rej : Option Rejection) (groups : List ID) (now : Timestamp)
  /-- `Transfer` has returned, and so does `Submit`. -/
  | answer (k : Nat) (leaderAddr : Str)
  /-- The groups and the coordinators go on. -/
  | shard (a : Shard.Action)

/-- One step of the system. -/
def shardExec (svc : ShardService) (shardFor : AccountID → ID) (w : ShardWorld) :
    ShardAction → Option ShardWorld
  | .submit args rej groups now =>
    match svc.check args rej with
    | .error reply =>
      some { w with submissions := w.submissions ++ [{ args := args, reply := some reply }] }
    | .ok cmd =>
      (Shard.exec shardFor w.shards (.transfer cmd.idempotencyKey cmd groups now)).map fun shards =>
        { shards := shards
          submissions := w.submissions ++
            [{ args := args, transfer := some (w.shards.procs.length, cmd) }] }
  | .answer k leaderAddr =>
    match w.submissions[k]? with
    | none => none
    | some s =>
      match s.transfer, s.reply with
      | some (pid, _), none =>
        match w.shards.procs[pid]? with
        | some ⟨.transfer _ (.returned res err), _, true⟩ =>
          some { w with submissions :=
            w.submissions.set k { s with reply := some (svc.reply leaderAddr res err) } }
        | _ => none
      | _, _ => none
  | .shard (.transfer _ _ _ _) => none
  | .shard a => (Shard.exec shardFor w.shards a).map fun shards => { w with shards := shards }

end CoreBank.Rpc
