import CoreBank.Lib.Run
import CoreBank.Ledger.Codec

/-!
# The client API of a single group

`ClientService.Submit` as a process next to the replica it serves: it checks the caller, asks the
machine for an earlier result, hands the command to Raft, waits until its index is applied and then
reads the result *of its key*.  Between any two of these steps other calls go on and entries are
applied; an entry that is not applied yet may be replaced by another leader's.

Two lists that no code keeps record what has happened: `logged`, the commands that were ever in the
log, be it for this node's calls or another's, and `executed`, the commands the ledger carried out
(as opposed to answering from its memory), with their results.
-/

set_option autoImplicit false

namespace CoreBank.Rpc

open Ledger Wire

/-- A client's write request. -/
structure TxArgs where
  op : Str
  idempotencyKey : Str
  fromAcc : Str
  toAcc : Str
  amount : Money
  token : Str := []
deriving DecidableEq

/-- The outcome of a write. -/
structure TxReply where
  ok : Bool := false
  err : Str := []
  balance : Money := 0
  notLeader : Bool := false
  leaderAddr : Str := []
  conflict : Bool := false
  indeterminate : Bool := false
  unauthenticated : Bool := false
  busy : Bool := false
  retryAfter : Nat := 0
deriving DecidableEq

/-- What a reply takes over from a recorded result. -/
def TxReply.ofResult (r : Result) : TxReply := { ok := r.ok, err := r.err, balance := r.balance }

/-- Why a request was shed. -/
structure Rejection where
  reason : Str
  retryAfter : Nat
deriving DecidableEq

/-- Why admission control sheds a request.  How long a client over its rate should wait is a
setting. -/
inductive Shed
  | draining
  | rate (retryAfter : Nat)
  | inFlight
deriving DecidableEq

/-- The times are in nanoseconds. -/
def Shed.rejection : Shed → Rejection
  | .draining =>
    { reason := str "this node is shutting down; nothing was proposed, retry elsewhere"
      retryAfter := 0 }
  | .rate retryAfter =>
    { reason := str "rate limit exceeded for this client", retryAfter := retryAfter }
  | .inFlight =>
    { reason := str "the leader has too many proposals in flight; "
        ++ str "nothing was proposed, so retrying is safe"
      retryAfter := 50000000 }

theorem Shed.reason_ne_nil (r : Shed) : r.rejection.reason ≠ [] := by
  cases r with
  | draining | inFlight => decide +kernel
  | rate d =>
    have htext : str "rate limit exceeded for this client" ≠ [] := by decide +kernel
    exact htext

/-- What the service is configured with. -/
structure Service where
  /-- The bearer token; empty if clients are not authenticated. -/
  token : Str := []
  /-- `%q` of package `fmt`, which is not modelled. -/
  quote : Str → Str

/-- Whether the token is the configured one, if one is configured. -/
def Service.permits (svc : Service) (presented : Str) : Bool :=
  svc.token = [] ∨ svc.token = presented

/-- No token, or an unknown one. -/
def errUnauthenticated : Str := str "rpc: unauthenticated: a valid client token is required"

/-- The error of a follower. -/
def errNotLeader : Str := str "raft: not leader"

/-- Converts a wire request into a ledger command.  It carries no clock reading. -/
def toCommand (svc : Service) (args : TxArgs) : Except Str Command :=
  let cmd (op : Op) : Except Str Command :=
    .ok { op := op, idempotencyKey := args.idempotencyKey, fromAcc := args.fromAcc,
          toAcc := args.toAcc, amount := args.amount, timestamp := .zero }
  if args.op = str "deposit" then cmd .deposit
  else if args.op = str "withdraw" then cmd .withdraw
  else if args.op = str "transfer" then cmd .transfer
  else if args.op = str "open" then cmd .openAccount
  else .error (str "unknown op " ++ svc.quote args.op)

/-- Where a call of `Submit` stands. -/
inductive Stage
  /-- About to look for an earlier result. -/
  | lookup (cmd : Command)
  /-- About to hand the command to Raft. -/
  | propose (cmd : Command)
  /-- Waiting for the index of its entry. -/
  | waiting (cmd : Command) (index : Nat)
  | returned (reply : TxReply)

/-- The checks at the beginning of `Submit`. -/
def admission (svc : Service) (args : TxArgs) (rej : Option Rejection) : Stage :=
  if svc.permits args.token then
    match rej with
    | some r => .returned { busy := true, err := r.reason, retryAfter := r.retryAfter }
    | none =>
      match toCommand svc args with
      | .error e => .returned { err := e }
      | .ok cmd => .lookup cmd
  else .returned { unauthenticated := true, err := errUnauthenticated }

/-- A call of `Submit`. -/
structure Call where
  args : TxArgs
  stage : Stage
  /-- The index of the entry the call appended. -/
  index : Option Nat := none

/-- A node: its log, how far it is applied, the machine, and the calls it serves. -/
structure World where
  log : List (Option Bytes) := []
  applied : Nat := 0
  machine : Machine := {}
  calls : List Call := []
  logged : List Command := []
  executed : List (Command × Result) := []

/-- What may happen at one node. -/
inductive Action
  /-- A call arrives; admission control sheds it or not. -/
  | submit (args : TxArgs) (rej : Option Rejection)
  | lookup (pid : Nat)
  /-- Raft takes the command, if this node leads. -/
  | propose (pid : Nat) (isLeader : Bool) (leaderAddr : Str)
  /-- The index has been applied, and the call reads its result. -/
  | wake (pid : Nat)
  /-- The slow tick finds that leadership was lost. -/
  | tick (pid : Nat) (leaderAddr : Str)
  | deadline (pid : Nat)
  /-- The next entry is applied. -/
  | apply
  /-- Another leader's entries replace those after position `keep`; a no-op carries no command. -/
  | overwrite (keep : Nat) (entries : List (Option Command))

/-- The ledger carries the command out: its key is valid and was not used before. -/
def carriesOut (s : State) (cmd : Command) : Prop :=
  cmd.idempotencyKey ≠ [] ∧ ¬ internalKeyPrefix.isPrefixOf cmd.idempotencyKey
    ∧ s.applied.lookup cmd.idempotencyKey = none

instance (s : State) (cmd : Command) : Decidable (carriesOut s cmd) :=
  inferInstanceAs (Decidable (_ ∧ _))

/-- What the ledger executes when it is handed an entry. -/
def executes (m : Machine) (data : Bytes) : List (Command × Result) :=
  match decode data with
  | .error _ => []
  | .ok c => if carriesOut m.state c then [(c, (m.state.applyLocked c).2)] else []

/-- The world with another state of call `pid`. -/
def World.setCall (w : World) (pid : Nat) (c : Call) : World :=
  { w with calls := w.calls.set pid c }

/-- Raft applies an entry that carries a command. -/
def World.applyNext (w : World) : Option World :=
  match w.log[w.applied]? with
  | none => none
  | some none => some { w with applied := w.applied + 1 }
  | some (some data) =>
    some { w with applied := w.applied + 1, machine := (w.machine.apply data).1,
                  executed := w.executed ++ executes w.machine data }

/-- One step of a call. -/
def callStep (w : World) (pid : Nat) (c : Call) : Action → Option World
  | .lookup _ =>
    match c.stage with
    | .lookup cmd =>
      some (w.setCall pid { c with
        stage := match w.machine.resultFor cmd with
          | .error e => .returned { err := e, conflict := true }
          | .ok (some r) => .returned (.ofResult r)
          | .ok none => .propose cmd })
    | _ => none
  | .propose _ isLeader leaderAddr =>
    match c.stage with
    | .propose cmd =>
      if isLeader then
        some ({ w with log := w.log ++ [some cmd.encode], logged := w.logged ++ [cmd] }.setCall pid
          { c with stage := .waiting cmd (w.log.length + 1), index := some (w.log.length + 1) })
      else
        some (w.setCall pid { c with
          stage := .returned { notLeader := true, leaderAddr := leaderAddr, err := errNotLeader } })
    | _ => none
  | .wake _ =>
    match c.stage with
    | .waiting cmd index =>
      if index ≤ w.applied then
        some (w.setCall pid { c with
          stage := match w.machine.result cmd.idempotencyKey with
            | some r => .returned (.ofResult r)
            | none => .returned
              { indeterminate := true
                err := str "entry was superseded before it committed; "
                  ++ str "retry with the same idempotency key" } })
      else none
    | _ => none
  | .tick _ leaderAddr =>
    match c.stage with
    | .waiting _ _ =>
      some (w.setCall pid { c with
        stage := .returned
          { notLeader := true, leaderAddr := leaderAddr, indeterminate := true
            err := str "leadership lost before commit; retry with the same idempotency key" } })
    | _ => none
  | .deadline _ =>
    match c.stage with
    | .waiting _ _ =>
      some (w.setCall pid { c with
        stage := .returned
          { indeterminate := true
            err := str "timed out waiting for commit; retry with the same idempotency key" } })
    | _ => none
  | _ => none

/-- The call an action is about. -/
def Action.pid? : Action → Option Nat
  | .lookup pid | .propose pid _ _ | .wake pid | .tick pid _ | .deadline pid => some pid
  | .submit _ _ | .apply | .overwrite _ _ => none

/-- One step of the system. -/
def exec (svc : Service) (w : World) (a : Action) : Option World :=
  match a.pid? with
  | some pid =>
    match w.calls[pid]? with
    | some c => callStep w pid c a
    | none => none
  | none =>
    match a with
    | .submit args rej =>
      some { w with calls := w.calls ++ [{ args := args, stage := admission svc args rej }] }
    | .apply => w.applyNext
    | .overwrite keep entries =>
      -- what is applied is committed, and stays
      if w.applied ≤ keep then
        some { w with log := w.log.take keep ++ entries.map (Option.map Command.encode),
                      logged := w.logged ++ entries.filterMap id }
      else none
    | _ => none

end CoreBank.Rpc
