import CoreBank.Raft.Fresh
import CoreBank.Rpc.Client
import CoreBank.Rpc.Machines

/-!
# Reading from a replica of a shard

A replica of a shard is a Raft server whose machine is the shard's.  `ShardClientService.Balance`
reads an account from the replica on its own node: it asks whether the server leads, reads the
balance, and asks again.  That is all it asks.  A server that leads without knowing of a later
leader passes both checks, and what it answers may be older than what that leader has committed and
acknowledged (`partitioned_leader_answers`).

`ReadIndex` would have established what makes the answer right: that no later term has committed
anything, and that the leader knows what the earlier ones have.
-/

set_option autoImplicit false

namespace CoreBank.Rpc

open ActionSystem Consensus Raft Shard

/-! ## Balance -/

/-- A client's request for a balance. -/
structure BalanceArgs where
  account : Str
  token : Str := []
  linearizable : Bool
deriving DecidableEq

/-- What `Balance` returns. -/
structure BalanceReply where
  balance : Ledger.Money := 0
  found : Bool := false
  err : Str := []
  notLeader : Bool := false
  leaderAddr : Str := []
  stale : Bool := false
  unauthenticated : Bool := false
  busy : Bool := false
  retryAfter : Nat := 0
deriving DecidableEq

/-- The replica at the moments at which a call looks at it, in this order.  Other sections of the
server may run in between. -/
structure Glimpses where
  /-- The first look at the role. -/
  first : Server Machine
  /-- The look at the leader's name, for a redirection. -/
  leader : Server Machine
  /-- The look at the balances. -/
  read : Server Machine
  /-- The second look at the role. -/
  last : Server Machine

/-- The address of the leader the replica knows of, if it is another server. -/
def leaderAddrFor (addrs : Map NodeID Str) (s : Server Machine) : Option Str :=
  if s.role = .leader ∨ s.leaderID = [] then none else addrs.lookup s.leaderID

/-- `ShardClientService.Balance`, on a node that hosts the owning shard's replica or does not. -/
def balance (svc : Service) (shardFor : Str → ID) (addrs : Map NodeID Str)
    (args : BalanceArgs) (shed : Option Shed) (hosted : Option Glimpses) : BalanceReply :=
  if svc.permits args.token then
    match shed with
    | some r =>
      { busy := true, err := r.rejection.reason, retryAfter := r.rejection.retryAfter }
    | none =>
      match hosted with
      | none =>
        { err := str "rpc: this node holds no replica of shard " ++ shardFor args.account
            ++ str ", which owns account " ++ args.account }
      | some g =>
        if args.linearizable = true ∧ g.first.role ≠ .leader then
          { notLeader := true, err := errNotLeader
            leaderAddr := (leaderAddrFor addrs g.leader).getD [] }
        else
          let b := g.read.sm.state.balances.lookup args.account
          { balance := b.getD 0, found := b.isSome
            stale := !args.linearizable || decide (g.last.role ≠ .leader) }
  else { unauthenticated := true, err := errUnauthenticated }

/-- The reply carries a balance and does not say that it may be old. -/
structure BalanceReply.Authoritative (r : BalanceReply) : Prop where
  err : r.err = []
  notLeader : r.notLeader = false
  stale : r.stale = false

instance (r : BalanceReply) : Decidable r.Authoritative :=
  decidable_of_iff (r.err = [] ∧ r.notLeader = false ∧ r.stale = false)
    ⟨fun ⟨h₁, h₂, h₃⟩ => ⟨h₁, h₂, h₃⟩, fun h => ⟨h.err, h.notLeader, h.stale⟩⟩

/-- What the reply says of the account is what the machine holds. -/
structure BalanceReply.Of (r : BalanceReply) (account : Str) (x : Machine) : Prop where
  balance : r.balance = (x.state.balances.lookup account).getD 0
  found : r.found = (x.state.balances.lookup account).isSome

theorem BalanceReply.Of.agree {r : BalanceReply} {account : Str} {x y : Machine}
    (h : r.Of account x) (hxy : x.Agree y) : r.Of account y := by
  have hlookup : x.state.balances.lookup account = y.state.balances.lookup account :=
    hxy.state.lookup_balances account
  exact ⟨hlookup ▸ h.balance, hlookup ▸ h.found⟩

/-- A request for the latest balance gets one without reservations only from a server that leads at
the first look. -/
theorem balance_of_authoritative {svc : Service} {shardFor : Str → ID} {addrs : Map NodeID Str}
    {args : BalanceArgs} {shed : Option Shed} {g : Glimpses} (hlin : args.linearizable = true)
    (h : (balance svc shardFor addrs args shed (some g)).Authoritative) :
    g.first.role = .leader ∧
      (balance svc shardFor addrs args shed (some g)).Of args.account g.read.sm := by
  have hunauth : errUnauthenticated ≠ [] := by decide +kernel
  rw [balance.eq_def] at h ⊢
  split at h
  next hp =>
    rw [if_pos hp]
    cases shed with
    | some r => exact absurd h.err r.reason_ne_nil
    | none =>
      dsimp only at h ⊢
      split at h
      next => cases h.notLeader
      next hlead =>
        rw [if_neg hlead]
        exact ⟨not_not.1 fun hrole => hlead ⟨hlin, hrole⟩, rfl, rfl⟩
  next => exact absurd h.err hunauth

/-- **A balance that is not marked stale is not stale**, if at the first look no server of the group
has a later term than the one that answers, and this one has committed an entry of its own term: it
is the balance that the applied entries lead to, and these begin with everything that any replica
had committed by then. -/
theorem balance_fresh {peers : NodeID → List NodeID} {C₀ : List NodeID} {svc : Service}
    {shardFor : Str → ID} {addrs : Map NodeID Str} {args : BalanceArgs} {shed : Option Shed}
    {g : Glimpses} {id : NodeID} {as bs : List Raft.Action} {w w' : Raft.World Machine}
    (hrun : Run (CoherentStep (shardCluster peers) C₀) {} as w)
    (hfirst : w.server id = some g.first)
    (hlater : Run (fun w a w' => CoherentStep (shardCluster peers) C₀ w a w' ∧ ¬ a.restarts id)
      w bs w') (hread : w'.server id = some g.read)
    (hown : g.first.log.termAt g.first.commitIndex = some g.first.currentTerm)
    (hlast : ∀ q, (w.node q).term ≤ g.first.currentTerm) (hlin : args.linearizable = true)
    (hauth : (balance svc shardFor addrs args shed (some g)).Authoritative) :
    (balance svc shardFor addrs args shed (some g)).Of args.account
        (shardMachine.fold (g.read.log.abs.take g.read.lastApplied)) ∧
      ∀ Y, CommittedIn (CoherentStep (shardCluster peers) C₀) as Y →
        Y <+: g.read.log.abs.take g.read.lastApplied := by
  obtain ⟨hlead, hof⟩ := balance_of_authoritative hlin hauth
  obtain ⟨h, hC⟩ := coherent_of_run (hrun.append (hlater.mono fun _ _ _ hs => hs.1))
  obtain ⟨p, hp, hserver⟩ := server_eq_some.1 hread
  have happlied := ((hC.refines.node id).proc p hp).server.applied
  have hmachine := (hC.mirrored.machine id p hp).fold shardMachine_faithful
  rw [hserver] at happlied hmachine
  refine ⟨hof.agree hmachine.agree, fun Y hY => ?_⟩
  rw [happlied]
  exact holds_committed hrun hfirst hlead hown hlast hlater hread hY

/-- The command that opens account `A`, and the one that pays 10 into it. -/
def openA : Bytes :=
  Command.encode
    { op := .single, txID := [], commit := false, debit := false, participants := []
      coordinator := []
      ledger := { op := .openAccount, idempotencyKey := [1], fromAcc := [], toAcc := [65]
                  amount := 0, timestamp := .zero } }

/-- Pays 10 into account A. -/
def payA : Bytes :=
  Command.encode
    { op := .single, txID := [], commit := false, debit := false, participants := []
      coordinator := []
      ledger := { op := .deposit, idempotencyKey := [2], fromAcc := [], toAcc := [65], amount := 10
                  timestamp := .zero } }

/-- Server 1 leads term 1 and commits `openA` with server 2. -/
def opened : List Raft.Action :=
  leaderOfThree ++ [.act [1] (.submit openA), .run [1] 1, .deliver [2] 2, .receive [1] 3 1]

/-- Server 1 is cut off.  Server 2 leads term 2 with the vote of server 3, and commits `payA` with
it. -/
def paid : List Raft.Action :=
  [.timeout [2], .run [2] 0, .deliver [3] 4, .receive [2] 1 2, .run [2] 1, .run [2] 1, .run [2] 1,
    .act [2] (.submit payA), .run [2] 2, .deliver [3] 5, .receive [2] 3 3, .heartbeat [2],
    .run [2] 2, .run [2] 4, .deliver [3] 6, .receive [2] 4 4, .heartbeat [2], .run [2] 2,
    .run [2] 5, .deliver [3] 7, .receive [2] 5 5]

/-- A request for the latest balance of `A`. -/
def askA : BalanceArgs := { account := [65], linearizable := true }

/-- A call that sees one state of the server throughout. -/
def Glimpses.still (s : Server Machine) : Glimpses := ⟨s, s, s, s⟩

/-- After `opened` server 1 answers with the balance of a new account. -/
theorem balance_fresh_opened :
    ∃ w s, Run (CoherentStep (shardCluster fun _ => [[1], [2], [3]]) [[1], [2], [3]]) {} opened w ∧
      w.server [1] = some s ∧
      (balance { quote := id } id ∅ askA none (some (.still s))).found = true ∧
      (balance { quote := id } id ∅ askA none (some (.still s))).Of [65]
        (shardMachine.fold (s.log.abs.take s.lastApplied)) ∧
      ∀ Y, CommittedIn
        (CoherentStep (shardCluster fun _ => [[1], [2], [3]]) [[1], [2], [3]]) opened Y →
        Y <+: s.log.abs.take s.lastApplied := by
  refine exists_run_guarded_imp (R := fun w s => s.log.termAt s.commitIndex = some s.currentTerm ∧
    (∀ q, (w.node q).term ≤ s.currentTerm) ∧
    (balance { quote := id } id ∅ askA none (some (.still s))).Authoritative ∧
    (balance { quote := id } id ∅ askA none (some (.still s))).found = true) (by decide +kernel) ?_
  rintro w s hrun hs ⟨hown, hlast, hauth, hfound⟩
  exact ⟨hfound, balance_fresh hrun hs (.nil w) hs hown hlast rfl hauth⟩

/-- After `paid` it still does: the reply is not marked stale, and the balance is not the one that
server 2 has committed. -/
theorem partitioned_leader_answers :
    ∃ w s s',
      Run (CoherentStep (shardCluster fun _ => [[1], [2], [3]]) [[1], [2], [3]]) {}
        (opened ++ paid) w ∧
      w.server [1] = some s ∧ w.server [2] = some s' ∧
      (balance { quote := id } id ∅ askA none (some (.still s))).Authoritative ∧
      (balance { quote := id } id ∅ askA none (some (.still s))).balance = 0 ∧
      s'.sm.state.balances.lookup [65] = some 10 ∧ s'.lastApplied = s'.commitIndex ∧
      ¬ s'.log.abs.take s'.commitIndex <+: s.log.abs.take s.lastApplied := by
  simp only [exists_and_left]
  exact exists_run_guarded (by decide +kernel)

end CoreBank.Rpc
