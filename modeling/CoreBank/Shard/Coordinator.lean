import CoreBank.Shard.Machine

/-!
# The two-phase commit coordinator

`Coordinator.Transfer` and `Coordinator.RecoverInDoubt` of the repository, as processes that run
against the shard groups.  A group is its log, the number of entries its machine has applied, and
the machine.  `Propose` is the only thing a process does to a group: it fails before anything is
appended, or it appends an entry and then waits, until the entry is applied and its result is
reported, or until it gives up.  An entry whose proposer gave up, or died, is applied all the same.

A process is a `Task` between two proposals, and three functions describe it:

* `Task.request` — what it is about to propose, and to which group;
* `Task.onReply` — where it goes with the reply;
* the local steps of `exec` — where `RecoverInDoubt` reads a machine or asks who leads a group.

What the state does not decide is a parameter of the action: which groups this node leads, how a
proposal ends, the order of Go's maps, the clock.
-/

set_option autoImplicit false

namespace CoreBank.Shard

open Ledger Hlc

/-- One shard's Raft group: a log and how far its machine has applied it. -/
structure Group where
  log : List Command := []
  applied : Nat := 0
  machine : Machine := {}

/-- What `Propose` returns. -/
structure ProposeReply where
  res : Result := {}
  isLeader : Bool
  err : Option Str := none

/-- The errors of `Transfer`. -/
inductive Error
  | noGroup (s : ID)
  /-- Wraps `ErrNotLeader`. -/
  | notLeader (s : ID)
  | prepareFailed (s : ID) (e : Str)
  /-- `ErrTxAborted` itself. -/
  | txAborted
  /-- Wraps `ErrTxAborted`: the credit side's vote could not be had. -/
  | txAbortedAt (s : ID) (e : Str)
  | inDoubt
  | commitUnknown (e : Str)
  /-- The error of `Propose`, passed on. -/
  | propose (e : Str)
deriving DecidableEq

/-- `errors.Is(err, ErrTxAborted)`. -/
def Error.isTxAborted : Error → Bool
  | .txAborted => true
  | .txAbortedAt _ _ => true
  | _ => false

/-- A call of `Transfer`, after the command was stamped. -/
structure Call where
  txID : TxID
  cmd : Ledger.Command
  /-- The keys of `c.groups`. -/
  groups : List ID
deriving DecidableEq

/-- What `decide` was called for, and for an abort what `Transfer` returns afterwards. -/
inductive Decide
  | commit
  | abort (res : Result) (err : Error)
deriving DecidableEq

/-- The decision is to commit. -/
def Decide.flag : Decide → Bool
  | .commit => true
  | .abort _ _ => false

/-- Where a call of `Transfer` stands. -/
inductive TransferPc
  | single (s : ID)
  | prepareDebit
  | prepareCredit
  | decision (d : Decide)
  | outcomeDebit (d : Decide)
  | outcomeCredit (d : Decide) (firstErr : Option Str)
  | returned (res : Result) (err : Option Error)
deriving DecidableEq

/-- The errors of `RecoverInDoubt`. -/
inductive RecoverError
  | notCaughtUp (g : ID) (e : Str)
  | recovering (id : TxID) (g : ID) (e : Str)
  /-- Wraps `ErrInDoubt`, with the number of blocked transactions. -/
  | inDoubt (blocked : Nat)
deriving DecidableEq

/-- The local variables of `RecoverInDoubt`. -/
structure Recovery where
  /-- The keys of `c.groups`. -/
  groups : List ID
  /-- The groups the outer loop has not visited yet. -/
  remaining : List ID
  resolved : Nat := 0
  blocked : Nat := 0
  firstErr : Option RecoverError := none
deriving DecidableEq

/-- Where a call of `RecoverInDoubt` stands. -/
inductive RecoverPc
  /-- At the head of the loop over the groups. -/
  | groupLoop
  | catchUp (g : ID)
  /-- Caught up, about to read the in-doubt transactions. -/
  | scan (g : ID)
  /-- At the head of the loop over the in-doubt transactions. -/
  | txLoop (g : ID) (todo : List TxID)
  /-- Read the record, about to ask the coordinator group. -/
  | ask (g : ID) (todo : List TxID) (id : TxID) (r : TxRecord)
  /-- About to propose the outcome. -/
  | settle (g : ID) (todo : List TxID) (id : TxID) (r : TxRecord) (coord : ID) (commit : Bool)
  | returned (resolved : Nat) (err : Option RecoverError)
deriving DecidableEq

/-- A running call. -/
inductive Task
  | transfer (c : Call) (pc : TransferPc)
  | recover (r : Recovery) (pc : RecoverPc)
deriving DecidableEq

/-- A call together with the entry it waits for, if it is inside `Propose`. -/
structure Proc where
  task : Task
  wait : Option (ID × Nat) := none
  /-- The process that runs the call has not crashed. -/
  alive : Bool := true

/-- The groups, and the calls in flight. -/
structure World where
  groups : Map ID Group := ∅
  procs : List Proc := []

/-- The group of a shard; one that nothing was proposed to is empty. -/
def World.group (w : World) (g : ID) : Group := (w.groups.lookup g).getD {}

/-! ## Transfer -/

section Transfer

-- The ring: which shard owns an account.
variable (shardFor : AccountID → ID)

/-- The shard that is debited. -/
def Call.fromShard (c : Call) : ID := shardFor c.cmd.fromAcc

/-- The shard that is credited. -/
def Call.toShard (c : Call) : ID := shardFor c.cmd.toAcc

/-- A record of the protocol.  The debit shard is the coordinator. -/
def Call.entry (c : Call) (op : Op) (commit debit : Bool) : Command :=
  { op := op, txID := c.txID, ledger := c.cmd, commit := commit, debit := debit,
    participants := [c.fromShard shardFor, c.toShard shardFor],
    coordinator := c.fromShard shardFor }

/-- Stamps a command that carries no timestamp yet. -/
def stamp (cmd : Ledger.Command) (now : Timestamp) : Ledger.Command :=
  if cmd.timestamp.isZero then { cmd with timestamp := now } else cmd

/-- Routes a call by the account its command touches; only a transfer between two shards needs the
protocol. -/
def Call.route (c : Call) : TransferPc :=
  let single (s : ID) : TransferPc :=
    if s ∈ c.groups then .single s else .returned {} (some (.noGroup s))
  match c.cmd.op with
  | .openAccount => single (c.toShard shardFor)
  | .deposit => single (c.toShard shardFor)
  | .withdraw => single (c.fromShard shardFor)
  | _ =>
    if c.fromShard shardFor = c.toShard shardFor then single (c.fromShard shardFor)
    else if c.fromShard shardFor ∉ c.groups then
      .returned {} (some (.noGroup (c.fromShard shardFor)))
    else if c.toShard shardFor ∉ c.groups then
      .returned {} (some (.noGroup (c.toShard shardFor)))
    else .prepareDebit

/-- What a call of `Transfer` proposes next. -/
def TransferPc.request (c : Call) : TransferPc → Option (ID × Command)
  | .single s =>
    some (s, { op := .single, txID := [], ledger := c.cmd, commit := false, debit := false,
               participants := [], coordinator := [] })
  | .prepareDebit => some (c.fromShard shardFor, c.entry shardFor .prepare false true)
  | .prepareCredit => some (c.toShard shardFor, c.entry shardFor .prepare false false)
  | .decision d => some (c.fromShard shardFor, c.entry shardFor .decision d.flag true)
  | .outcomeDebit d => some (c.fromShard shardFor, c.entry shardFor .outcome d.flag true)
  | .outcomeCredit d _ => some (c.toShard shardFor, c.entry shardFor .outcome d.flag false)
  | .returned _ _ => none

/-- What `Transfer` returns when the credit side did not vote YES. -/
def creditRefusal (toShard : ID) (rep : ProposeReply) : Result × Error :=
  if ¬ rep.res.ok ∧ rep.res.err ≠ [] then (rep.res, .txAborted)
  else if ¬ rep.isLeader then
    ({ err := str "credit shard " ++ toShard ++ str " is not led by this node" },
      .notLeader toShard)
  else match rep.err with
    | some e => ({ err := e }, .txAbortedAt toShard e)
    | none =>
      ({ err := str "credit shard " ++ toShard ++ str " voted no without a reason" }, .txAborted)

/-- `Transfer` after `decide` returned; `debit` is the ledger of the debit shard at that moment. -/
def afterDecide (c : Call) (debit : Ledger.State) (d : Decide) (err : Option Str) : TransferPc :=
  match d with
  | .abort res e => .returned res (some e)
  | .commit =>
    match err with
    | some _ => .returned {} (some .inDoubt)
    | none => .returned { ok := true, balance := (debit.available c.cmd.fromAcc).getD 0 } none

/-- Where a call of `Transfer` goes with the reply to its proposal. -/
def TransferPc.onReply (c : Call) (debit : Ledger.State) (pc : TransferPc) (rep : ProposeReply) :
    TransferPc :=
  match pc with
  | .single s =>
    match rep.err with
    | some e => .returned {} (some (if rep.isLeader then .commitUnknown e else .propose e))
    | none =>
      if rep.isLeader then .returned rep.res none else .returned {} (some (.notLeader s))
  | .prepareDebit =>
    if ¬ rep.isLeader then .returned {} (some (.notLeader (c.fromShard shardFor)))
    else match rep.err with
      | some e => .returned {} (some (.prepareFailed (c.fromShard shardFor) e))
      | none => if rep.res.ok then .prepareCredit else .decision (.abort rep.res .txAborted)
  | .prepareCredit =>
    if rep.err.isSome ∨ ¬ rep.isLeader ∨ ¬ rep.res.ok then
      let (res, e) := creditRefusal (c.toShard shardFor) rep
      .decision (.abort res e)
    else .decision .commit
  | .decision d =>
    if rep.err.isSome ∨ ¬ rep.isLeader then
      -- the decision could not be logged, which `decide` reports as an error of its own
      afterDecide c debit d (some (str "shard: could not log decision for " ++ c.txID))
    else .outcomeDebit d
  | .outcomeDebit d => .outcomeCredit d rep.err
  | .outcomeCredit d firstErr => afterDecide c debit d (firstErr.or rep.err)
  | .returned res err => .returned res err

end Transfer

/-! ## Recovery -/

/-- The empty ledger command. -/
def noCommand : Ledger.Command :=
  { op := .other 0 (.inl rfl), idempotencyKey := [], fromAcc := [], toAcc := [], amount := 0,
    timestamp := .zero }

/-- What a call of `RecoverInDoubt` proposes next: the no-op of `catchUp`, or an outcome built from
the record. -/
def RecoverPc.request : RecoverPc → Option (ID × Command)
  | .catchUp g =>
    some (g, { op := .single, txID := [], ledger := noCommand, commit := false, debit := false,
               participants := [], coordinator := [] })
  | .settle g _ id r coord commit =>
    some (g, { op := .outcome, txID := id, ledger := r.cmd, commit := commit, debit := r.debit,
               participants := r.participants, coordinator := coord })
  | _ => none

/-- Where a call of `RecoverInDoubt` goes with the reply to its proposal. -/
def RecoverPc.onReply (r : Recovery) (pc : RecoverPc) (rep : ProposeReply) :
    Recovery × RecoverPc :=
  match pc with
  | .catchUp g =>
    let fail (e : Str) : Recovery × RecoverPc :=
      ({ r with firstErr := r.firstErr.or (some (.notCaughtUp g e)), blocked := r.blocked + 1 },
        .groupLoop)
    match rep.err with
    | some e => fail e
    | none =>
      if rep.isLeader then (r, .scan g)
      else fail (str "shard: this node does not lead the shard owning that account")
  | .settle g todo id _ _ _ =>
    match rep.err with
    | some e =>
      ({ r with firstErr := some (.recovering id g e), blocked := r.blocked + 1 }, .txLoop g todo)
    | none => ({ r with resolved := r.resolved + 1 }, .txLoop g todo)
  | pc => (r, pc)

/-- The group to ask for the decision: the one the record names, or the first participant. -/
def coordinatorOf (r : TxRecord) : ID :=
  if r.coordinator = [] then r.participants.headD [] else r.coordinator

/-- What `RecoverInDoubt` returns at the end of its loop. -/
def Recovery.finish (r : Recovery) : RecoverPc :=
  .returned r.resolved <| match r.firstErr with
    | some e => some e
    | none => if 0 < r.blocked then some (.inDoubt r.blocked) else none

/-! ## Steps -/

/-- How a proposal begins. -/
inductive Start
  /-- Nothing is appended. -/
  | fail (isLeader : Bool) (err : Option Str)
  /-- The entry is appended and the process waits for it. -/
  | append

/-- What may happen. -/
inductive Action
  /-- A call of `Transfer` begins; `now` is what the clock reads. -/
  | transfer (txID : TxID) (cmd : Ledger.Command) (groups : List ID) (now : Timestamp)
  /-- A call of `RecoverInDoubt` begins. -/
  | recover (groups : List ID)
  /-- A process proposes. -/
  | propose (pid : Nat) (start : Start)
  /-- The entry a process waits for has been applied, and `Propose` returns its result. -/
  | report (pid : Nat)
  /-- `Propose` gives up waiting. -/
  | timeout (pid : Nat) (isLeader : Bool) (err : Str)
  /-- Recovery turns to a group, which this node leads or not. -/
  | visit (pid : Nat) (g : ID) (isLeader : Bool)
  /-- Recovery reads the in-doubt transactions, in some order. -/
  | scan (pid : Nat) (order : List TxID)
  /-- Recovery turns to the next transaction. -/
  | next (pid : Nat)
  /-- Recovery asks the coordinator group, which this node leads or not. -/
  | ask (pid : Nat) (isLeader : Bool)
  /-- A group applies its next entry. -/
  | apply (g : ID)
  /-- The process that runs a call dies. -/
  | crash (pid : Nat)

section Steps

variable (shardFor : AccountID → ID)

/-- What the call proposes next, and to which group. -/
def Task.request : Task → Option (ID × Command)
  | .transfer c pc => pc.request shardFor c
  | .recover _ pc => pc.request

/-- How the call goes on after a reply. -/
def Task.onReply (groups : ID → Group) (rep : ProposeReply) : Task → Task
  | .transfer c pc =>
    .transfer c (pc.onReply shardFor c (groups (c.fromShard shardFor)).machine.state rep)
  | .recover r pc =>
    let (r', pc') := pc.onReply r rep
    .recover r' pc'

/-- The local steps of `RecoverInDoubt`. -/
def Recovery.visit (r : Recovery) (g : ID) (isLeader : Bool) : Option Task :=
  if g ∈ r.remaining then
    some (.recover { r with remaining := r.remaining.erase g }
      (if isLeader then .catchUp g else .groupLoop))
  else if r.remaining = [] then some (.recover r r.finish)
  else none

/-- The next transaction of the inner loop. -/
def Recovery.next (r : Recovery) (groups : ID → Group) (g : ID) : List TxID → Task
  | [] => .recover r .groupLoop
  | id :: todo =>
    match (groups g).machine.tx id with
    | none => .recover r (.txLoop g todo)
    | some rec_ => .recover r (.ask g todo id rec_)

/-- The question to the coordinator group.  Without a decision on record the answer is abort. -/
def Recovery.ask (r : Recovery) (groups : ID → Group) (g : ID) (todo : List TxID) (id : TxID)
    (rec_ : TxRecord) (isLeader : Bool) : Task :=
  let coord := coordinatorOf rec_
  if coord = [] ∨ coord ∉ r.groups ∨ ¬ isLeader then
    .recover { r with blocked := r.blocked + 1 } (.txLoop g todo)
  else .recover r (.settle g todo id rec_ coord (((groups coord).machine.decision id).getD false))

/-- The task a local step of recovery leads to. -/
def localStep (w : World) : Action → Task → Option Task
  | .visit _ g isLeader, .recover r .groupLoop => r.visit g isLeader
  | .scan _ order, .recover r (.scan g) =>
    if order.isPerm (w.group g).machine.inDoubt then some (.recover r (.txLoop g order)) else none
  | .next _, .recover r (.txLoop g todo) => some (r.next w.group g todo)
  | .ask _ isLeader, .recover r (.ask g todo id rec_) =>
    some (r.ask w.group g todo id rec_ isLeader)
  | _, _ => none

/-- The process an action is about. -/
def Action.pid? : Action → Option Nat
  | .propose pid _ | .report pid | .timeout pid _ _ | .visit pid _ _ | .scan pid _ | .next pid
  | .ask pid _ | .crash pid => some pid
  | .transfer _ _ _ _ | .recover _ | .apply _ => none

/-- The world with another state of call `pid`. -/
def World.setProc (w : World) (pid : Nat) (p : Proc) : World :=
  { w with procs := w.procs.set pid p }

/-- The world with another group at `g`. -/
def World.setGroup (w : World) (g : ID) (gr : Group) : World :=
  { w with groups := w.groups.insert g gr }

/-- The next entry of a group is applied by its machine. -/
def Group.applyNext (gr : Group) : Option Group :=
  match gr.log[gr.applied]? with
  | some c =>
    some { gr with applied := gr.applied + 1, machine := gr.machine.applyAt (gr.applied + 1) c }
  | none => none

/-- One step of a live process. -/
def procStep (w : World) (pid : Nat) (p : Proc) : Action → Option World
  | .propose _ start =>
    match p.wait, p.task.request shardFor with
    | none, some (g, c) =>
      match start with
      | .fail isLeader err =>
        -- a leader that appends nothing reports an error
        if isLeader ∧ err.isNone then none
        else some (w.setProc pid
          { p with task := p.task.onReply shardFor w.group { isLeader := isLeader, err := err } })
      | .append =>
        let gr := w.group g
        some ((w.setGroup g { gr with log := gr.log ++ [c] }).setProc pid
          { p with wait := some (g, gr.log.length + 1) })
    | _, _ => none
  | .report _ =>
    match p.wait with
    | some (g, index) =>
      if index ≤ (w.group g).applied then
        some (w.setProc pid
          { p with
            task := p.task.onReply shardFor w.group
              { res := (w.group g).machine.appliedResult index, isLeader := true }
            wait := none })
      else none
    | none => none
  | .timeout _ isLeader err =>
    match p.wait with
    | some _ =>
      some (w.setProc pid
        { p with
          task := p.task.onReply shardFor w.group { isLeader := isLeader, err := some err }
          wait := none })
    | none => none
  | .crash _ => some (w.setProc pid { p with alive := false })
  | a =>
    if p.wait.isNone then (localStep w a p.task).map fun t => w.setProc pid { p with task := t }
    else none

/-- One step of the system. -/
def exec (w : World) (a : Action) : Option World :=
  match a.pid? with
  | some pid =>
    match w.procs[pid]? with
    | some p => if p.alive then procStep shardFor w pid p a else none
    | none => none
  | none =>
    match a with
    | .transfer txID cmd groups now =>
      let c : Call := ⟨txID, stamp cmd now, groups⟩
      some { w with procs := w.procs ++ [{ task := .transfer c (c.route shardFor) }] }
    | .recover groups =>
      -- the keys of a map are distinct
      if groups.Nodup then
        let r : Recovery := { groups := groups, remaining := groups }
        some { w with procs := w.procs ++ [{ task := .recover r .groupLoop }] }
      else none
    | .apply g => (w.group g).applyNext.map (w.setGroup g)
    | _ => none

end Steps

end CoreBank.Shard
