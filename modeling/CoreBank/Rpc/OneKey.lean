import CoreBank.Rpc.ShardClient

/-!
# One idempotency key, one request

Can two different requests under one key both move money?  They can: the binding of a key to its
request is kept by each shard's ledger for itself, and the two-phase commit does not look at it at
all, so two deposits to accounts on different shards never meet.

`KeyBound` says when the binding holds: the other requests under the key are the same one, or they
concern one shard, the same one, and their fingerprints differ.  Then `one_key_one_request`: of two
different requests at most one moves money.  The other is not told so in the field made for it:
`Submit` passes the refusal of the ledger on as a text and never sets `Conflict`.
-/

set_option autoImplicit false

namespace CoreBank.Rpc

open Ledger Hlc Shard ActionSystem

/-! ## What a request concerns -/

variable {cmd : Ledger.Command} {c : Shard.Call} {pc : TransferPc}

section Home

variable (shardFor : AccountID → ID)

/-- The shard that carries a request out by itself; a transfer between two shards has none. -/
def home (cmd : Ledger.Command) : Option ID :=
  match cmd.op with
  | .openAccount => some (shardFor cmd.toAcc)
  | .deposit => some (shardFor cmd.toAcc)
  | .withdraw => some (shardFor cmd.fromAcc)
  | _ =>
    if shardFor cmd.fromAcc = shardFor cmd.toAcc then some (shardFor cmd.fromAcc) else none

/-- Where a call of `Transfer` stands fits its request. -/
def Stands (cmd : Ledger.Command) : TransferPc → Prop
  | .single s => home shardFor cmd = some s
  | .returned _ _ => True
  | _ => home shardFor cmd = none

/-- The log an entry is in fits its request.  The no-op of a recovery carries no key. -/
def AtHome (g : ID) (e : Shard.Command) : Prop :=
  (e.op = .single → e.ledger.idempotencyKey = [] ∨ home shardFor e.ledger = some g) ∧
    (e.Introduces → home shardFor e.ledger = none)

variable {shardFor}

theorem home_congr {cmd' : Ledger.Command} (h : cmd.SameRequest cmd') :
    home shardFor cmd = home shardFor cmd' := by
  rw [home, home, h.1, h.2.2.1, h.2.2.2.1]

theorem stands_route (c : Shard.Call) : Stands shardFor c.cmd (c.route shardFor) := by
  have hsingle {s : ID} (hs : home shardFor c.cmd = some s) : Stands shardFor c.cmd
      (if s ∈ c.groups then .single s else .returned {} (some (.noGroup s))) := by
    split
    · exact hs
    · trivial
  rw [Call.route]
  split
  next hop => exact hsingle (by rw [home, hop]; rfl)
  next hop => exact hsingle (by rw [home, hop]; rfl)
  next hop => exact hsingle (by rw [home, hop]; rfl)
  next hopen hdep hwd =>
    have hhome : home shardFor c.cmd = if shardFor c.cmd.fromAcc = shardFor c.cmd.toAcc
        then some (shardFor c.cmd.fromAcc) else none := by
      rw [home]
      split
      next h => exact absurd h hopen
      next h => exact absurd h hdep
      next h => exact absurd h hwd
      next => rfl
    split
    next heq => exact hsingle (hhome.trans (if_pos heq))
    next hne =>
      split
      · trivial
      split
      · trivial
      · exact hhome.trans (if_neg hne)

theorem stands_onReply (h : Stands shardFor c.cmd pc) (debit : Ledger.State)
    (rep : Shard.ProposeReply) : Stands shardFor c.cmd (pc.onReply shardFor c debit rep) := by
  have hdecide (d : Decide) (err : Option Str) :
      Stands shardFor c.cmd (afterDecide c debit d err) := by
    cases d with
    | commit => cases err <;> trivial
    | abort => trivial
  cases pc with
  | single | prepareDebit =>
    rw [TransferPc.onReply]
    repeat' split
    all_goals trivial
  | prepareCredit =>
    rw [TransferPc.onReply]
    split <;> exact h
  | decision d =>
    rw [TransferPc.onReply]
    split
    · exact hdecide _ _
    · exact h
  | outcomeDebit d => exact h
  | outcomeCredit d firstErr => exact hdecide _ _
  | returned res err => trivial

/-- What a process proposes fits the group it proposes it to. -/
theorem atHome_of_request {t : Task}
    (h : ∀ c pc, t = .transfer c pc → Stands shardFor c.cmd pc) {g : ID} {e : Shard.Command}
    (hreq : t.request shardFor = some (g, e)) : AtHome shardFor g e := by
  cases t with
  | recover r pc =>
    cases pc with
    | catchUp =>
      cases hreq; exact ⟨fun _ => .inl rfl, fun hi => by rcases hi with hi | hi <;> cases hi⟩
    | settle => cases hreq; exact ⟨nofun, fun hi => by rcases hi with hi | hi <;> cases hi⟩
    | groupLoop | scan | txLoop | ask | returned => cases hreq
  | transfer c pc =>
    have hst := h c pc rfl
    cases pc with
    | single s =>
      cases hreq
      exact ⟨fun _ => .inr hst, fun hi => by rcases hi with hi | hi <;> cases hi⟩
    | prepareDebit | prepareCredit | decision | outcomeDebit | outcomeCredit =>
      cases hreq
      exact ⟨nofun, fun _ => hst⟩
    | returned => cases hreq

end Home

/-! ## Requests that moved money -/

/-- The request an entry acts for: its own, or for an outcome the one that is on record. -/
def actsFor (m : Shard.Machine) (e : Shard.Command) : Option Ledger.Command :=
  match e.op with
  | .single => some e.ledger
  | .outcome => (m.tx e.txID).map TxRecord.cmd
  | _ => none

/-- The entry at position `i` of the log of `g` was applied for the request, and left a trace in the
history. -/
def MovedBy (w : Shard.World) (cmd : Ledger.Command) (g : ID) (i : Nat) : Prop :=
  i < (w.group g).applied ∧
    (∃ e ∈ (w.group g).log[i]?, ∃ d ∈ actsFor ((w.group g).before i) e, d.SameRequest cmd) ∧
    ((w.group g).before (i + 1)).state.history ≠ ((w.group g).before i).state.history

instance (w : Shard.World) (cmd : Ledger.Command) (g : ID) (i : Nat) :
    Decidable (MovedBy w cmd g i) := inferInstanceAs (Decidable (_ ∧ _))

/-- Some shard has moved money for the request. -/
def Moved (w : Shard.World) (cmd : Ledger.Command) : Prop := ∃ g i, MovedBy w cmd g i

/-- The reply settles the request, one way or the other. -/
def TxReply.Conclusive (r : TxReply) : Prop :=
  r.indeterminate = false ∧ r.notLeader = false ∧ r.busy = false ∧ r.unauthenticated = false

/-- The shards keep two requests under one key apart: they are the same request, or one shard sees
both and can tell them apart. -/
def Separable (shardFor : AccountID → ID) (cmd cmd' : Ledger.Command) : Prop :=
  cmd.SameRequest cmd' ∨ ((home shardFor cmd).isSome ∧ home shardFor cmd = home shardFor cmd' ∧
    cmd.fingerprint ≠ cmd'.fingerprint)

instance (shardFor : AccountID → ID) (cmd cmd' : Ledger.Command) :
    Decidable (Separable shardFor cmd cmd') := inferInstanceAs (Decidable (_ ∨ _))

/-- A request that is let in is separable from all earlier ones under its key. -/
def KeyBound (svc : ShardService) (shardFor : AccountID → ID) (w : ShardWorld) : ShardAction → Prop
  | .submit args rej _ _ =>
    ∀ cmd ∈ (svc.check args rej).toOption, ∀ s ∈ w.submissions, ∀ t ∈ s.transfer,
      t.2.idempotencyKey = cmd.idempotencyKey → Separable shardFor t.2 cmd
  | _ => True

instance (svc : ShardService) (shardFor : AccountID → ID) (w : ShardWorld) (a : ShardAction) :
    Decidable (KeyBound svc shardFor w a) := by
  unfold KeyBound
  split <;> infer_instance

theorem Separable.symm {shardFor : AccountID → ID} {cmd' : Ledger.Command}
    (h : Separable shardFor cmd cmd') : Separable shardFor cmd' cmd := by
  rcases h with h | ⟨hs, he, hf⟩
  · exact .inl h.symm
  · exact .inr ⟨he ▸ hs, he.symm, hf.symm⟩

/-! ## The invariant -/

/-- The group has an entry that carries out the request by itself, with this result. -/
def Answers (gr : Group) (cmd : Ledger.Command) (res : Result) : Prop :=
  ∃ i e, gr.log[i]? = some e ∧ e.op = .single ∧ e.ledger.SameRequest cmd ∧
    res = ((gr.before i).apply e).2

theorem Answers.mono {gr gr' : Group} (hp : gr.log <+: gr'.log) {res : Result}
    (h : Answers gr cmd res) : Answers gr' cmd res := by
  obtain ⟨i, e, he, hop, hsame, hres⟩ := h
  have hlt := (List.getElem?_eq_some_iff.1 he).1
  refine ⟨i, e, ?_, hop, hsame, ?_⟩
  · obtain ⟨t, ht⟩ := hp
    rw [← ht, List.getElem?_append_left hlt]
    exact he
  · rw [before_of_isPrefix hp hlt.le]
    exact hres

variable {w w' : Shard.World} {svc : ShardService}

section Invariant

variable (shardFor : AccountID → ID)

/-- What is known of a call of `Transfer`: a result it returned is the one of its entry. -/
structure TransferInv (w : Shard.World) (c : Shard.Call) (pc : TransferPc) : Prop where
  stands : Stands shardFor c.cmd pc
  told : ∀ res s, pc = .returned res none → home shardFor c.cmd = some s →
    Answers (w.group s) c.cmd res
  /-- Only the two-phase commit aborts. -/
  aborted : ∀ res, pc = .returned res (some .txAborted) → home shardFor c.cmd = none

/-- The part of the invariant that is about the shards. -/
structure ShardsInv (w : Shard.World) : Prop where
  groups : ∀ g, GroupInv (w.group g)
  replayed : ∀ g, Replayed (w.group g)
  procs : ∀ p ∈ w.procs, ProcInv shardFor w p
  entries : ∀ g, ∀ e ∈ (w.group g).log, AtHome shardFor g e
  transfers : ∀ p ∈ w.procs, ∀ c pc, p.task = .transfer c pc → TransferInv shardFor w c pc

/-- What is known of a request that was let in. -/
structure SubmissionInv (w : Shard.World) (s : Submission) (pid : Nat) (cmd : Ledger.Command) :
    Prop where
  called : ∃ p c pc, w.procs[pid]? = some p ∧ p.task = .transfer c pc ∧ cmd.SameRequest c.cmd
  told : ∀ reply g, s.reply = some reply → reply.Conclusive → home shardFor cmd = some g →
    ∃ res, Answers (w.group g) cmd res ∧ reply.err = res.err
  unmarked : ∀ reply, s.reply = some reply → reply.conflict = false

/-- What holds in every reachable world. -/
structure OneKeyInv (w : ShardWorld) : Prop where
  shards : ShardsInv shardFor w.shards
  submissions : ∀ s ∈ w.submissions, ∀ pid cmd, s.transfer = some (pid, cmd) →
    SubmissionInv shardFor w.shards s pid cmd
  separable : ∀ s ∈ w.submissions, ∀ t ∈ w.submissions, ∀ x ∈ s.transfer, ∀ y ∈ t.transfer,
    x.2.idempotencyKey = y.2.idempotencyKey → Separable shardFor x.2 y.2

variable {shardFor}

theorem TransferInv.extends (h : Extends w w') (ht : TransferInv shardFor w c pc) :
    TransferInv shardFor w' c pc where
  stands := ht.stands
  told res s hpc hs := (ht.told res s hpc hs).mono (h.log s)
  aborted := ht.aborted

theorem transferInv_route (w : Shard.World) (c : Shard.Call) :
    TransferInv shardFor w c (c.route shardFor) where
  stands := stands_route c
  told res s hpc := by
    rw [Call.route] at hpc
    dsimp only at hpc
    repeat' split at hpc
    all_goals cases hpc
  aborted res hpc := by
    rw [Call.route] at hpc
    dsimp only at hpc
    repeat' split at hpc
    all_goals cases hpc

/-- A reply leads a call to a result only if it is the result of the call's own entry. -/
theorem transferInv_onReply (hw : ShardsInv shardFor w) {p : Proc} (hp : p ∈ w.procs)
    (htask : p.task = .transfer c pc) {rep : Shard.ProposeReply} (hrep : Replied w p rep)
    (debit : Ledger.State) : TransferInv shardFor w c (pc.onReply shardFor c debit rep) := by
  have hst := (hw.transfers p hp c pc htask).stands
  refine ⟨stands_onReply hst debit rep, fun res s hpc hs => ?_, fun res hpc => ?_⟩
  case refine_2 =>
    cases pc with
    | single s =>
      rw [TransferPc.onReply] at hpc
      repeat' split at hpc
      all_goals cases hpc
    | returned res' err => exact (hw.transfers p hp c _ htask).aborted res hpc
    | prepareDebit | prepareCredit | decision | outcomeDebit | outcomeCredit => exact hst
  cases pc with
  | single s' =>
    obtain rfl : s' = s := Option.some.inj (Eq.trans (Eq.symm hst) hs)
    rw [TransferPc.onReply] at hpc
    split at hpc
    · cases hpc
    next herr =>
      split at hpc
      next hlead =>
        cases hpc
        obtain ⟨g, e, i, hreq, he, hi, hres⟩ := (hw.procs p hp).reported hrep herr hlead
        rw [htask] at hreq
        cases hreq
        refine ⟨i, _, he, rfl, .refl _, ?_⟩
        rw [hres, (hw.replayed s').results i _ hi he]
      · cases hpc
  | returned res' err =>
    exact (hw.transfers p hp c _ htask).told res s hpc hs
  | prepareDebit | prepareCredit | decision | outcomeDebit | outcomeCredit =>
    rw [show home shardFor c.cmd = none from hst] at hs
    cases hs

theorem task_of_onReply {groups : ID → Group} {rep : Shard.ProposeReply} {t : Task}
    (h : t.onReply shardFor groups rep = .transfer c pc) :
    ∃ pc', t = .transfer c pc' ∧
      pc = pc'.onReply shardFor c (groups (c.fromShard shardFor)).machine.state rep := by
  cases t with
  | recover r pc' => cases h
  | transfer c' pc' => cases h; exact ⟨pc', rfl, rfl⟩

theorem shardsInv_init : ShardsInv shardFor {} where
  groups _ := groupInv_empty
  replayed _ := replayed_empty
  procs _ h := by cases h
  entries _ _ h := by cases h
  transfers _ h := by cases h

/-- **Every step of the shards keeps their part of the invariant.** -/
theorem ShardsInv.step {a : Shard.Action} (h : ShardsInv shardFor w) (hs : Step shardFor w a w') :
    ShardsInv shardFor w' := by
  have hext := hs.extends
  have hold (p : Proc) (hp : p ∈ w.procs) (c : Shard.Call) (pc : TransferPc)
      (ht : p.task = .transfer c pc) : TransferInv shardFor w' c pc :=
    (h.transfers p hp c pc ht).extends hext
  constructor
  case groups => exact fun g => (hs.groups (fun g => (h.replayed g).applied_le) h.groups g).2
  case replayed => exact Replayed.step hs h.replayed
  case procs => exact hs.procs h.groups h.procs
  case entries =>
    intro g e he
    rcases hs.mem_log he with he | ⟨pid, p, -, hp, hreq⟩
    · exact h.entries g e he
    · exact atHome_of_request
        (fun c pc ht => (h.transfers p (List.mem_of_getElem? hp) c pc ht).stands) hreq
  case transfers =>
    cases hs with
    | transfer txID cmd groups now =>
      refine forall_addProc hold fun c pc hqt => ?_
      cases hqt
      exact transferInv_route _ _
    | recover groups r => exact forall_addProc hold fun c pc hqt => by cases hqt
    | @reply a pid p rep hp hreq hrep =>
      refine forall_setProc hold fun c pc hqt => ?_
      obtain ⟨pc', htask, rfl⟩ := task_of_onReply hqt
      exact (transferInv_onReply h (List.mem_of_getElem? hp) htask hrep _).extends hext
    | @move _ pid p t hp hwait ht =>
      refine forall_setProc hold fun c pc hqt => ?_
      have hnone := (call?_localStep ht).2
      rw [show t = .transfer c pc from hqt] at hnone
      cases hnone
    | @append pid p g c hp =>
      exact forall_setProc (w := World.setGroup _ g _) hold (hold p (List.mem_of_getElem? hp))
    | @crash pid p hp => exact forall_setProc hold (hold p (List.mem_of_getElem? hp))
    | apply => exact hold

theorem call?_step {a : Shard.Action} (hs : Step shardFor w a w') {pid : Nat} {p : Proc}
    (hp : w.procs[pid]? = some p) :
    ∃ p', w'.procs[pid]? = some p' ∧ p'.task.call? = p.task.call? := by
  have hset {i : Nat} {q q' : Proc} (hq : w.procs[i]? = some q)
      (hc : q'.task.call? = q.task.call?) :
      ∃ p', (w.procs.set i q')[pid]? = some p' ∧ p'.task.call? = p.task.call? := by
    by_cases hi : i = pid
    · subst hi
      obtain rfl : q = p := Option.some.inj (hq.symm.trans hp)
      exact ⟨q', List.getElem?_set_self (List.getElem?_eq_some_iff.1 hp).1, hc⟩
    · exact ⟨p, (List.getElem?_set_ne hi).trans hp, rfl⟩
  cases hs with
  | transfer | recover =>
    exact ⟨p, (List.getElem?_append_left (List.getElem?_eq_some_iff.1 hp).1).trans hp, rfl⟩
  | reply hq => exact hset hq (call?_onReply shardFor _ _ _)
  | move hq _ ht => exact hset hq ((call?_localStep ht).2.trans (call?_localStep ht).1.symm)
  | append hq | crash hq => exact hset hq rfl
  | apply => exact ⟨p, hp, rfl⟩

theorem SubmissionInv.step {a : Shard.Action} (hs : Step shardFor w a w') {s : Submission}
    {pid : Nat} (h : SubmissionInv shardFor w s pid cmd) : SubmissionInv shardFor w' s pid cmd where
  called := by
    obtain ⟨p, c, pc, hp, ht, hsame⟩ := h.called
    obtain ⟨p', hp', hcall⟩ := call?_step hs hp
    rw [ht] at hcall
    cases ht' : p'.task with
    | recover r pc' => rw [ht'] at hcall; cases hcall
    | transfer c' pc' =>
      rw [ht'] at hcall
      cases hcall
      exact ⟨p', c, pc', hp', ht', hsame⟩
  told reply g hr hcon hg := by
    obtain ⟨res, hans, herr⟩ := h.told reply g hr hcon hg
    exact ⟨res, hans.mono (hs.extends.log g), herr⟩
  unmarked := h.unmarked

/-- `Submit` has no case for a conflict. -/
theorem conflict_reply (leaderAddr : Str) (res : Result) (err : Option Shard.Error) :
    (svc.reply leaderAddr res err).conflict = false := by
  cases err with
  | none => rfl
  | some e => cases e <;> rfl

/-- A conclusive reply passes a result on, or reports an abort. -/
theorem err_of_conclusive {leaderAddr : Str} {res : Result} {err : Option Shard.Error}
    (hcon : (svc.reply leaderAddr res err).Conclusive) :
    err = none ∧ (svc.reply leaderAddr res err).err = res.err ∨ err = some .txAborted := by
  cases err with
  | none => exact .inl ⟨rfl, rfl⟩
  | some e =>
    cases e with
    | txAborted => exact .inr rfl
    | notLeader => cases hcon.2.1
    | noGroup | prepareFailed | txAbortedAt | inDoubt | commitUnknown | propose => cases hcon.1

theorem oneKeyInv_init : OneKeyInv shardFor {} where
  shards := shardsInv_init
  submissions _ h := by cases h
  separable _ h := by cases h

theorem answer_eq_some {w w' : ShardWorld} {k : Nat} {leaderAddr : Str}
    (h : shardExec svc shardFor w (.answer k leaderAddr) = some w') :
    ∃ s pid cmd p c res err, w.submissions[k]? = some s ∧ s.transfer = some (pid, cmd) ∧
      w.shards.procs[pid]? = some p ∧ p.task = .transfer c (.returned res err) ∧
      w' = { w with submissions :=
        w.submissions.set k { s with reply := some (svc.reply leaderAddr res err) } } := by
  rw [shardExec] at h
  split at h
  · cases h
  next s hs =>
    split at h
    next pid cmd ht hr =>
      split at h
      next c res err wait hp =>
        cases h
        exact ⟨s, pid, cmd, _, c, res, err, hs, ht, hp, rfl, rfl⟩
      next => cases h
    next => cases h

theorem OneKeyInv.answer {w w' : ShardWorld} {k : Nat} {leaderAddr : Str}
    (h : OneKeyInv shardFor w) (hs : shardExec svc shardFor w (.answer k leaderAddr) = some w') :
    OneKeyInv shardFor w' := by
  obtain ⟨s, pid, cmd, p, c, res, err, hk, ht, hp, htask, rfl⟩ := answer_eq_some hs
  have hmem : s ∈ w.submissions := List.mem_of_getElem? hk
  have hold := h.submissions s hmem pid cmd ht
  refine ⟨h.shards, fun t htm pid' cmd' ht' => ?_, fun x hx y hy => ?_⟩
  · rcases List.mem_or_eq_of_mem_set htm with htm | rfl
    · exact h.submissions t htm pid' cmd' ht'
    cases ht.symm.trans ht'
    refine ⟨hold.called, fun reply g hr hcon hg => ?_, fun reply hr => ?_⟩
    case refine_2 => cases hr; exact conflict_reply leaderAddr res err
    cases hr
    obtain ⟨p', c', pc', hp', htask', hsame⟩ := hold.called
    obtain rfl : p' = p := Option.some.inj (hp'.symm.trans hp)
    cases htask'.symm.trans htask
    have htr := h.shards.transfers p' (List.mem_of_getElem? hp) c _ htask
    have hhome := (home_congr hsame).symm.trans hg
    rcases err_of_conclusive hcon with ⟨rfl, herr⟩ | rfl
    · obtain ⟨i, e, he, hop, hsame', hres⟩ := htr.told res g rfl hhome
      exact ⟨res, ⟨i, e, he, hop, hsame'.trans hsame.symm, hres⟩, herr⟩
    · rw [htr.aborted res rfl] at hhome
      cases hhome
  · -- the answered submission keeps its transfer
    have hback {t : Submission} (htm : t ∈ w.submissions.set k
        { s with reply := some (svc.reply leaderAddr res err) }) :
        ∃ t' ∈ w.submissions, t'.transfer = t.transfer := by
      rcases List.mem_or_eq_of_mem_set htm with htm | rfl
      · exact ⟨t, htm, rfl⟩
      · exact ⟨s, hmem, rfl⟩
    obtain ⟨x', hx', hxt⟩ := hback hx
    obtain ⟨y', hy', hyt⟩ := hback hy
    rw [← hxt, ← hyt]
    exact h.separable x' hx' y' hy'

/-- A new submission is turned away, or begins a transfer. -/
theorem OneKeyInv.submit {w w' : ShardWorld} {args : TxArgs} {rej : Option Rejection}
    {groups : List ID} {now : Timestamp} (h : OneKeyInv shardFor w)
    (hs : shardExec svc shardFor w (.submit args rej groups now) = some w')
    (hbound : KeyBound svc shardFor w (.submit args rej groups now)) : OneKeyInv shardFor w' := by
  rw [shardExec] at hs
  cases hcheck : svc.check args rej with
  | error reply =>
    rw [hcheck] at hs
    cases hs
    have hold {t : Submission} (ht : t ∈ w.submissions ++ [{ args := args, reply := some reply }])
        {x : Nat × Ledger.Command} (hx : t.transfer = some x) : t ∈ w.submissions := by
      rcases List.mem_append.1 ht with ht | ht
      · exact ht
      · rw [List.mem_singleton.1 ht] at hx
        cases hx
    exact ⟨h.shards, fun s hs pid cmd ht => h.submissions s (hold hs ht) pid cmd ht,
      fun s hs t ht x hx y hy => h.separable s (hold hs hx) t (hold ht hy) x hx y hy⟩
  | ok cmd =>
    rw [hcheck] at hs
    obtain ⟨shards, hb, rfl⟩ := Option.map_eq_some_iff.1 hs
    have hstep := step_of_exec hb
    have hnew {s : Submission} (hs : s ∈ w.submissions) {x : Nat × Ledger.Command}
        (hx : x ∈ s.transfer) (hkey : x.2.idempotencyKey = cmd.idempotencyKey) :
        Separable shardFor x.2 cmd :=
      hbound cmd (by rw [hcheck]; rfl) s hs x hx hkey
    refine ⟨h.shards.step hstep, fun s hs pid cmd' ht => ?_, fun s hs t ht x hx y hy hkey => ?_⟩
    · rcases List.mem_append.1 hs with hs | hs
      · exact (h.submissions s hs pid cmd' ht).step hstep
      · rw [List.mem_singleton.1 hs] at ht ⊢
        cases ht
        cases hb
        exact ⟨⟨_, _, _, List.getElem?_concat_length, rfl, sameRequest_stamp cmd now⟩, nofun, nofun⟩
    · rcases List.mem_append.1 hs with hs | hs <;> rcases List.mem_append.1 ht with ht | ht
      · exact h.separable s hs t ht x hx y hy hkey
      · rw [List.mem_singleton.1 ht] at hy
        cases hy
        exact hnew hs hx hkey
      · rw [List.mem_singleton.1 hs] at hx
        cases hx
        exact (hnew ht hy hkey.symm).symm
      · rw [List.mem_singleton.1 hs] at hx
        rw [List.mem_singleton.1 ht] at hy
        cases hx
        cases hy
        exact .inl (.refl _)

/-- **Every step keeps the invariant.** -/
theorem OneKeyInv.step {w w' : ShardWorld} {a : ShardAction} (h : OneKeyInv shardFor w)
    (hs : shardExec svc shardFor w a = some w') (hbound : KeyBound svc shardFor w a) :
    OneKeyInv shardFor w' := by
  cases a with
  | submit => exact h.submit hs hbound
  | answer => exact h.answer hs
  | shard b =>
    cases b with
    | transfer => cases hs
    | _ =>
      obtain ⟨shards, hb, rfl⟩ := Option.map_eq_some_iff.1 hs
      have hstep := step_of_exec hb
      exact ⟨h.shards.step hstep,
        fun s hs pid cmd ht => (h.submissions s hs pid cmd ht).step hstep, h.separable⟩

/-! ## The theorem -/

/-- A request with a home moves money only by a single-shard entry, there. -/
theorem Moved.single (h : ShardsInv shardFor w) {s : ID} (hhome : home shardFor cmd = some s)
    (hm : Moved w cmd) :
    ∃ i e, (w.group s).log[i]? = some e ∧ e.op = .single ∧ e.ledger.SameRequest cmd ∧
      ((w.group s).before (i + 1)).state.history ≠ ((w.group s).before i).state.history := by
  obtain ⟨g, i, -, ⟨e, he, d, hacts, hsame⟩, hne⟩ := hm
  rw [← home_congr hsame] at hhome
  rw [actsFor] at hacts
  split at hacts
  next hop =>
    cases hacts
    rcases (h.entries g e (List.mem_of_getElem? he)).1 hop with hkey | hg
    · -- without a key nothing is moved
      rw [before_succ he, Machine.state_applyAt, (Machine.state_apply_single hop).1] at hne
      exact absurd hkey (new_of_history_ne hne).1.1
    · obtain rfl : g = s := Option.some.inj (hg.symm.trans hhome)
      exact ⟨i, e, he, hop, hsame, hne⟩
  next =>
    obtain ⟨r, hr, rfl⟩ := Option.map_eq_some_iff.1 hacts
    have hlt := (List.getElem?_eq_some_iff.1 he).1
    obtain ⟨e', he', hintro, hcmd⟩ := introduced_before hlt.le hr
    have hnone := (h.entries g e' he').2 hintro
    rw [hcmd, hhome] at hnone
    cases hnone
  next => cases hacts

/-- Once a request has moved money, every other entry under its key comes later, and if it is for a
request with another fingerprint its result is the conflict. -/
theorem conflict_after_move {gr : Group} {i j : Nat} {e d : Shard.Command}
    (he : gr.log[i]? = some e) (hd : gr.log[j]? = some d) (hope : e.op = .single)
    (hopd : d.op = .single) (hkeys : d.ledger.idempotencyKey = e.ledger.idempotencyKey)
    (hfp : e.ledger.fingerprint ≠ d.ledger.fingerprint)
    (hmoved : (gr.before (i + 1)).state.history ≠ (gr.before i).state.history) :
    (gr.before (j + 1)).state.history = (gr.before j).state.history ∧
      ((gr.before j).apply d).2.err = errIdempotencyConflict := by
  have hij : i ≠ j := by
    rintro rfl
    cases he.symm.trans hd
    exact hfp rfl
  obtain ⟨hlt, hkey, hmem⟩ := first_use he hd hope hopd hkeys hij hmoved
  have hknown := known_after_use he hope hkey
  have hstill := memory_before hkey (show i + 1 ≤ j from hlt)
    (Nat.le_of_lt (List.getElem?_eq_some_iff.1 hd).1) hknown
  obtain ⟨prev, hprev⟩ := Option.isSome_iff_exists.1 hknown
  have hold : (gr.before j).state.applied.lookup d.ledger.idempotencyKey = some prev := by
    rw [hkeys]
    exact (congrArg Prod.fst hstill).trans hprev
  have happ := apply_of_known (hkeys ▸ hkey) hold
  rw [hkeys, hmem, Option.getD_some, if_pos hfp] at happ
  rw [before_succ hd, Machine.state_applyAt, (Machine.state_apply_single hopd).1,
    (Machine.state_apply_single hopd).2, happ]
  exact ⟨rfl, rfl⟩

end Invariant

/-- **One key, one request.**  In every run in which requests under one key are the same or can be
told apart by one shard, at most one of two different requests under a key ever moves money, and
when one has, the text of a definite answer to the other says that the key is taken.  The `Conflict`
field is never set, so the promised answer is given exactly if the two requests are the same, or no
definite answer is given at all. -/
theorem one_key_one_request (svc : ShardService) (shardFor : AccountID → ID)
    {as : List ShardAction} {w : ShardWorld}
    (hrun : Run (fun w a w' => shardExec svc shardFor w a = some w' ∧ KeyBound svc shardFor w a)
      {} as w) {s t : Submission} (hs : s ∈ w.submissions) (ht : t ∈ w.submissions)
    {pid pid' : Nat} {cmd cmd' : Ledger.Command} (hcmd : s.transfer = some (pid, cmd))
    (hcmd' : t.transfer = some (pid', cmd')) (hkey : cmd.idempotencyKey = cmd'.idempotencyKey) :
    (¬ cmd.SameRequest cmd' → ¬ (Moved w.shards cmd ∧ Moved w.shards cmd') ∧
      (Moved w.shards cmd → ∀ reply, t.reply = some reply → reply.Conclusive →
        reply.err = errIdempotencyConflict)) ∧
    ((¬ cmd.SameRequest cmd' → ∀ reply, t.reply = some reply → reply.Conclusive →
        reply.conflict = true) ↔
      cmd.SameRequest cmd' ∨ ¬ ∃ reply, t.reply = some reply ∧ reply.Conclusive) := by
  have hinv : OneKeyInv shardFor w :=
    hrun.invariant (fun _ _ _ hs hi => hi.step hs.1 hs.2) oneKeyInv_init
  have hunmarked := (hinv.submissions t ht pid' cmd' hcmd').unmarked
  refine ⟨fun hdiff => ?_, fun h => ?_, fun h hdiff reply hr hcon => ?_⟩
  case refine_2 =>
    refine or_iff_not_imp_left.2 fun hdiff ⟨reply, hr, hcon⟩ => ?_
    exact Bool.false_ne_true ((hunmarked reply hr).symm.trans (h hdiff reply hr hcon))
  case refine_3 => exact absurd ⟨reply, hr, hcon⟩ (h.resolve_left hdiff)
  rcases hinv.separable s hs t ht _ hcmd _ hcmd' hkey with hsame | ⟨hhome, heq, hfp⟩
  · exact absurd hsame hdiff
  obtain ⟨g, hg⟩ := Option.isSome_iff_exists.1 hhome
  have hg' : home shardFor cmd' = some g := heq.symm.trans hg
  -- an entry for the other request, if there is one
  have hother {e d : Shard.Command} (hsame : e.ledger.SameRequest cmd)
      (hsame' : d.ledger.SameRequest cmd') :
      d.ledger.idempotencyKey = e.ledger.idempotencyKey ∧
        e.ledger.fingerprint ≠ d.ledger.fingerprint := by
    rw [hsame.2.1, hsame'.2.1, fingerprint_congr hsame, fingerprint_congr hsame']
    exact ⟨hkey.symm, hfp⟩
  refine ⟨fun ⟨hm, hm'⟩ => ?_, fun hm reply hr hcon => ?_⟩
  · obtain ⟨i, e, he, hope, hsame, hne⟩ := hm.single hinv.shards hg
    obtain ⟨j, d, hd, hopd, hsame', hne'⟩ := hm'.single hinv.shards hg'
    obtain ⟨hkeys, hfps⟩ := hother hsame hsame'
    exact hne' (conflict_after_move he hd hope hopd hkeys hfps hne).1
  · obtain ⟨i, e, he, hope, hsame, hne⟩ := hm.single hinv.shards hg
    obtain ⟨res, ⟨j, d, hd, hopd, hsame', hres⟩, herr⟩ :=
      (hinv.submissions t ht pid' cmd' hcmd').told reply g hr hcon hg'
    obtain ⟨hkeys, hfps⟩ := hother hsame hsame'
    have hconf := (conflict_after_move he hd hope hopd hkeys hfps hne).2
    exact herr.trans (hres ▸ hconf)

/-! ## A schedule

The two accounts of `Shard.Schedule`, each on a shard of its own, and two deposits under one key. -/

namespace Schedule

open Shard.Schedule

/-- Any texts will do. -/
def service : ShardService := { quote := id, errorText := fun _ => [] }

/-- A request to one account. -/
def request (op : String) (key toAcc : Str) (amount : Money) : TxArgs :=
  { op := str op, idempotencyKey := key, fromAcc := [], toAcc := toAcc, amount := amount }

/-- Submission `k`, which one shard carries out. -/
def submitted (k : Nat) (g : ID) (args : TxArgs) : List ShardAction :=
  .submit args none groups now :: (round k g).map .shard ++ [.answer k []]

/-- Alice and bob open accounts. -/
def accounts : List ShardAction :=
  submitted 0 debitShard (request "open" (str "open-alice") (str "alice") 100)
    ++ submitted 1 creditShard (request "open" (str "open-bob") (str "bob") 0)

/-- The key is used for alice and then for bob. -/
def acrossShards : List ShardAction :=
  accounts ++ submitted 2 debitShard (request "deposit" (str "k") (str "alice") 10)
    ++ submitted 3 creditShard (request "deposit" (str "k") (str "bob") 10)

/-- The key is used for alice twice, with different amounts. -/
def withinShard : List ShardAction :=
  accounts ++ submitted 2 debitShard (request "deposit" (str "k") (str "alice") 10)
    ++ submitted 3 debitShard (request "deposit" (str "k") (str "alice") 20)

/-- A deposit under the key `k`. -/
def deposit (toAcc : AccountID) (amount : Money) : Ledger.Command :=
  { op := .deposit, idempotencyKey := str "k", fromAcc := [], toAcc := toAcc, amount := amount,
    timestamp := .zero }

/-- The transfer of submission `k` and the answer to it. -/
def outcome (w : ShardWorld) (k : Nat) : Option (Option (Nat × Ledger.Command) × Option TxReply) :=
  w.submissions[k]?.map fun s => (s.transfer, s.reply)

theorem submission_of_outcome {w : ShardWorld} {k : Nat} {x : Option (Nat × Ledger.Command)}
    {reply : Option TxReply} (h : outcome w k = some (x, reply)) :
    ∃ s ∈ w.submissions, s.transfer = x ∧ s.reply = reply := by
  obtain ⟨s, hs, he⟩ := Option.map_eq_some_iff.1 h
  rw [Prod.mk.injEq] at he
  exact ⟨s, List.mem_of_getElem? hs, he⟩

end Schedule

open Schedule Shard.Schedule in
/-- Two deposits under one key, to accounts on different shards, both succeed; the second client is
told of no conflict. -/
theorem key_reused_across_shards : ∃ as w,
    Run (fun w a w' => shardExec service ring w a = some w') {} as w ∧
      ∃ s ∈ w.submissions, ∃ t ∈ w.submissions, ∃ pid pid' cmd cmd' reply,
        s.transfer = some (pid, cmd) ∧ t.transfer = some (pid', cmd') ∧
        cmd.idempotencyKey = cmd'.idempotencyKey ∧ ¬ cmd.SameRequest cmd' ∧
        Moved w.shards cmd ∧ Moved w.shards cmd' ∧ t.reply = some reply ∧ reply.ok = true ∧
        reply.Conclusive ∧ reply.conflict = false := by
  obtain ⟨w, hrun, h2, h3, halice, hbob⟩ : ∃ w,
      Run (fun w a w' => shardExec service ring w a = some w') {} acrossShards w ∧
      outcome w 2 = some (some (2, deposit (str "alice") 10),
        some { ok := true, balance := 110 }) ∧
      outcome w 3 = some (some (3, deposit (str "bob") 10), some { ok := true, balance := 10 }) ∧
      MovedBy w.shards (deposit (str "alice") 10) debitShard 1 ∧
      MovedBy w.shards (deposit (str "bob") 10) creditShard 1 := exists_run (by decide +kernel)
  obtain ⟨s, hs, hst, -⟩ := submission_of_outcome h2
  obtain ⟨t, ht, htt, htr⟩ := submission_of_outcome h3
  exact ⟨_, w, hrun, s, hs, t, ht, 2, 3, _, _, _, hst, htt, rfl, by decide,
    ⟨_, _, halice⟩, ⟨_, _, hbob⟩, htr, rfl, ⟨rfl, rfl, rfl, rfl⟩, rfl⟩

open Schedule Shard.Schedule in
/-- On one shard the second request under the key is refused, without the mark of a conflict. -/
theorem one_key_one_request_within : ∃ w,
    Run (fun w a w' => shardExec service ring w a = some w' ∧ KeyBound service ring w a) {}
      withinShard w ∧ Moved w.shards (deposit (str "alice") 10) ∧
      ¬ Moved w.shards (deposit (str "alice") 20) ∧
      ∃ t ∈ w.submissions, ∃ reply, t.transfer = some (3, deposit (str "alice") 20) ∧
        t.reply = some reply ∧ reply.Conclusive ∧ reply.err = errIdempotencyConflict ∧
        reply.conflict ≠ true := by
  obtain ⟨w, hrun, h2, h3, hmoved⟩ : ∃ w,
      Run (fun w a w' => shardExec service ring w a = some w' ∧ KeyBound service ring w a) {}
        withinShard w ∧
      outcome w 2 = some (some (2, deposit (str "alice") 10),
        some { ok := true, balance := 110 }) ∧
      outcome w 3 = some (some (3, deposit (str "alice") 20),
        some { err := errIdempotencyConflict }) ∧
      MovedBy w.shards (deposit (str "alice") 10) debitShard 1 :=
    exists_run_guarded (by decide +kernel)
  obtain ⟨s, hs, hst, -⟩ := submission_of_outcome h2
  obtain ⟨t, ht, htt, htr⟩ := submission_of_outcome h3
  have hdiff : ¬ (deposit (str "alice") 10).SameRequest (deposit (str "alice") 20) := by decide
  obtain ⟨hmoney, hanswer⟩ := one_key_one_request service ring hrun hs ht hst htt rfl
  obtain ⟨hone, herr⟩ := hmoney hdiff
  have hcon : TxReply.Conclusive { err := errIdempotencyConflict } := ⟨rfl, rfl, rfl, rfl⟩
  have hm : Moved w.shards (deposit (str "alice") 10) := ⟨_, _, hmoved⟩
  refine ⟨w, hrun, hm, fun hm' => hone ⟨hm, hm'⟩, t, ht, _, htt, htr, hcon, herr hm _ htr hcon,
    fun hmark => ?_⟩
  -- were the only answer marked, there would be no definite answer
  refine (hanswer.1 fun _ reply hr _ => ?_).elim hdiff fun hnone => hnone ⟨_, htr, hcon⟩
  rwa [Option.some.inj (hr.symm.trans htr)]

end CoreBank.Rpc
