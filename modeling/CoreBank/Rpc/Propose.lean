import CoreBank.Raft.Leadership
import CoreBank.Raft.Proposals
import CoreBank.Rpc.Admin
import CoreBank.Rpc.Replica
import CoreBank.Shard.Steps

/-!
# A success and the entry it is about

`NetworkGroup.Propose` and `AdminService.change` append an entry through the replica on their own
node, wait until its index has been applied, and report success.  `Propose` also returns what the
machine recorded for the index.  Both know the entry by its index alone.  If another leader's entry
took its place, the wait ends all the same; and `AppliedResult` calls an index that nothing is
recorded for a success (`overwritten_proposal_succeeds`).

The replicas run in an arbitrary cluster, and any number of calls are under way.  To say what a
result is the result of, the machine keeps a list of what it has applied (`Traced`); nothing reads
the list.
-/

set_option autoImplicit false

namespace CoreBank.Rpc

open ActionSystem Raft Shard

/-! ## The calls -/

/-- What `Propose` returns. -/
structure ProposeReply where
  res : Ledger.Result := {}
  isLeader : Bool := false
  err : Option Str := none
deriving DecidableEq

/-- How the wait for an entry ends: with the machine that is there once the channel is closed, or
with the role the server has when the time is up. -/
inductive Wait
  | applied (x : Machine)
  | timedOut (role : Role)

/-- `NetworkGroup.Propose` on a node that hosts a replica of the shard or does not: `Submit` has
returned an index, or this server does not lead. -/
def propose (id : ID) (hosted : Option (Option Nat)) (wait : Wait) : ProposeReply :=
  match hosted with
  | none => { err := some (str "rpc: no replica of shard " ++ id ++ str " on this node") }
  | some none => {}
  | some (some idx) =>
    match wait with
    | .applied x => { res := x.appliedResult idx, isLeader := true }
    | .timedOut role =>
      -- a timeout says nothing about the entry: it may still commit
      if role ≠ .leader then
        { err := some (str "rpc: shard " ++ id ++ str " lost leadership mid-propose") }
      else
        { isLeader := true
          err := some (str "rpc: shard " ++ id ++ str
            (" timed out applying entry " ++ toString idx)) }

/-- What a node asks of its replica. -/
inductive Ask
  | propose (cmd : Shard.Command)
  | change (c : Change) (x : NodeID)
deriving DecidableEq

/-- The section of the server that the call runs. -/
def Ask.runs : Ask → Local
  | .propose cmd => .submit cmd.encode
  | .change .addServer x => .addServer x
  | .change .removeServer x => .removeServer x

/-- The entry that this section appends, if it does. -/
def Ask.proposal {σ : Type} (s : Server σ) : Ask → Proposal
  | .propose cmd => ⟨s.log.lastIndex + 1, s.currentTerm, cmd.encode⟩
  | .change .addServer x =>
    ⟨s.log.lastIndex + 1, s.currentTerm, encodeConfig (Configuration.withServer ⟨s.peers⟩ x)⟩
  | .change .removeServer x =>
    ⟨s.log.lastIndex + 1, s.currentTerm, encodeConfig (Configuration.withoutServer ⟨s.peers⟩ x)⟩

/-- What either kind of call returns. -/
inductive Reply
  | proposed (r : ProposeReply)
  | changed (r : AdminReply)
deriving DecidableEq

/-- The call reports that its entry was applied. -/
def Reply.Success : Reply → Prop
  | .proposed r => r.isLeader = true ∧ r.err = none
  | .changed r => r.ok = true

instance (r : Reply) : Decidable r.Success := by
  unfold Reply.Success
  split <;> infer_instance

/-- The reply of a call whose entry was not appended; `leader` is what `LeaderID` returns then. -/
def Ask.refused {σ : Type} (shard : ID) (s : Server σ) (d : Disk) (leader : NodeID × Bool) :
    Ask → Reply
  | .propose _ => .proposed (Rpc.propose shard (some none) (.timedOut s.role))
  | .change c x =>
    .changed (AdminService.change x s d (c.run s d ⟨true, none, fun _ => rfl⟩) leader none).2.2

/-- The reply of a call that found its channel closed. -/
def Ask.answered (shard : ID) (idx : Nat) (peers : List NodeID) (x : Machine) : Ask → Reply
  | .propose _ => .proposed (Rpc.propose shard (some (some idx)) (.applied x))
  | .change _ _ => .changed (.ofWait idx (some ⟨peers⟩))

/-- The reply of a call whose time was up. -/
def Ask.expired (shard : ID) (idx : Nat) (role : Role) : Ask → Reply
  | .propose _ => .proposed (Rpc.propose shard (some (some idx)) (.timedOut role))
  | .change _ _ => .changed (.ofWait idx none)

/-! ## What was applied -/

/-- The machine of a replica, and what its process has applied: at which index, which bytes, with
which result. -/
structure Traced where
  machine : Machine := {}
  trace : List (Nat × Bytes × Ledger.Result) := []

/-- `shardMachine`, with the list kept beside it. -/
def tracedMachine : StateMachine Traced where
  new := {}
  applyAt index data x :=
    { machine := shardMachine.applyAt index data x.machine
      trace := x.trace ++ [(index, data, (x.machine.applyData data).2)] }
  snapshotter := some ⟨fun x => x.machine.snapshot,
    fun data x => (Machine.restoreSnapshot data).map fun y => { x with machine := y }⟩

/-- A cluster that runs the traced machine. -/
def tracedCluster (peers : NodeID → List NodeID) : Cluster Traced := ⟨tracedMachine, peers⟩

/-- The bytes were applied at the index, and the machine still knows the result. -/
def Noted (index : Nat) (data : Bytes) (x : Traced) : Prop :=
  ∃ r, x.machine.byIndex.lookup index = some r ∧ (index, data, r) ∈ x.trace

theorem byIndex_applyData (m : Machine) (data : Bytes) :
    (m.applyData data).1.byIndex = m.byIndex := by
  rw [Machine.applyData]
  split
  · exact Machine.byIndex_apply _ _
  · rfl

theorem records_noted : Records tracedMachine Noted where
  self index data x :=
    ⟨(x.machine.applyData data).2, AList.lookup_insert _, List.mem_append_right _ (by simp)⟩
  other index data x j data' hj hx := by
    obtain ⟨r, hr, hmem⟩ := hx
    refine ⟨r, ?_, List.mem_append_left _ hmem⟩
    show ((x.machine.applyData data').1.byIndex.insert j
      (x.machine.applyData data').2).lookup index = some r
    rw [AList.lookup_insert_ne (Ne.symm hj), byIndex_applyData]
    exact hr

/-! ## Calls under way -/

/-- How far a call has come. -/
inductive AskStage
  /-- The entry was appended. -/
  | appended (q : Proposal)
  /-- `WaitApplied` has returned a channel. -/
  | waiting (q : Proposal) (ch : Nat)
  /-- The call has returned; `q` is its entry, if it had one. -/
  | returned (q : Option Proposal) (r : Reply)
  /-- The process is gone, and the call with it. -/
  | gone
deriving DecidableEq

/-- The entry of a call that has not returned. -/
def AskStage.pending : AskStage → Option Proposal
  | .appended q | .waiting q _ => some q
  | _ => none

/-- A call and the node it was made at. -/
structure Asked where
  node : NodeID
  ask : Ask
  stage : AskStage
deriving DecidableEq

/-- The replicas of a shard, the channels of their processes, and the calls. -/
structure Desk where
  awaited : Awaited Traced := {}
  asked : List Asked := []

/-- What may happen at the desk. -/
inductive DeskAction
  /-- A call arrives at server `id`, and goes as far as the append. -/
  | ask (id : NodeID) (a : Ask) (leader : NodeID × Bool)
  /-- The call goes on to `WaitApplied`. -/
  | wait (k : Nat)
  /-- The call finds its channel closed. -/
  | finish (k : Nat)
  /-- Its time is up. -/
  | expire (k : Nat)
  | step (a : Raft.Action)

/-- The process of the server ends. -/
def ends (id : NodeID) : Raft.Action → Bool
  | .boot x | .crash x | .cut x _ _ => x == id
  | .act _ _ => false

/-- A call after a step of the cluster. -/
def Asked.after (c : Asked) (a : Raft.Action) : Asked :=
  if ends c.node a ∧ c.stage.pending.isSome then { c with stage := .gone } else c

/-- A call that is refused before anything is appended. -/
def Ask.named : Ask → Bool
  | .propose _ => true
  | .change _ x => !x.isEmpty

/-- Call `k` goes on to `stage`. -/
def Desk.setStage (w : Desk) (k : Nat) (c : Asked) (stage : AskStage) : Desk :=
  { w with asked := w.asked.set k { c with stage := stage } }

/-- One step. -/
def deskExec (shard : ID) (cl : Cluster Traced) (w : Desk) : DeskAction → Option Desk
  | .ask id a leader => (w.awaited.world.node id).proc.map fun p =>
    match if a.named then waitExec cl w.awaited (.step (.act id a.runs)) else none with
    | some aw => ⟨aw, w.asked ++ [⟨id, a, .appended (a.proposal p.server)⟩]⟩
    | none => ⟨w.awaited, w.asked ++ [⟨id, a, .returned none
        (a.refused shard p.server (w.awaited.world.node id).disk leader)⟩]⟩
  | .wait k => w.asked[k]?.bind fun c =>
    match c.stage with
    | .appended q => (waitExec cl w.awaited (.wait c.node q.index)).map fun aw =>
      Desk.setStage ⟨aw, w.asked⟩ k c (.waiting q (w.awaited.waiters c.node).made.length)
    | _ => none
  | .finish k => w.asked[k]?.bind fun c =>
    match c.stage with
    | .waiting q ch =>
      if ch ∈ (w.awaited.waiters c.node).closed then
        (w.awaited.world.node c.node).proc.map fun p =>
          w.setStage k c (.returned (some q)
            (c.ask.answered shard q.index p.server.peers p.server.sm.machine))
      else none
    | _ => none
  | .expire k => w.asked[k]?.bind fun c =>
    match c.stage with
    | .waiting q _ => (w.awaited.world.node c.node).proc.map fun p =>
      w.setStage k c (.returned (some q) (c.ask.expired shard q.index p.server.role))
    | _ => none
  | .step a => (waitExec cl w.awaited (.step a)).map fun aw =>
    ⟨aw, w.asked.map fun c => c.after a⟩

/-! ## The entry of a call -/

variable {id : NodeID}

theorem Ask.log_of_act {σ : Type} {m : StateMachine σ} {w : Raft.World σ} {p : Process σ}
    {e : Effect σ} {a : Ask} (h : p.act m w id a.runs = some e) :
    e.proc.server.log = p.server.log.push (a.proposal p.server).entry := by
  have happend {ts : List Raft.Task} {r : Option (Server σ × List Write)}
      (h : p.ofAppend ts r = some e) : ∃ s ws, r = some (s, ws) ∧ e.proc.server = s := by
    rcases r with _ | ⟨s, ws⟩
    · cases h
    · cases h
      exact ⟨s, ws, rfl, rfl⟩
  rcases a with cmd | ⟨_ | _, x⟩
  · obtain ⟨s, ws, hs, rfl⟩ := happend h
    rw [Server.submit] at hs
    split at hs
    · cases hs
    · obtain ⟨hs, -⟩ := Prod.mk.inj (Option.some.inj hs)
      rw [← hs]
      exact Server.log_advance m _
  · obtain ⟨s, ws, hs, rfl⟩ := happend h
    obtain ⟨-, -, -, next, ni, mi, hnext, -, hs', -⟩ := Server.changeConfiguration_cases hs
    rw [hs']
    split at hnext
    · cases hnext
    · cases hnext
      rfl
  · obtain ⟨s, ws, hs, rfl⟩ := happend h
    obtain ⟨-, -, -, next, ni, mi, hnext, -, hs', -⟩ := Server.changeConfiguration_cases hs
    rw [hs']
    split at hnext
    · cases hnext
    split at hnext
    · cases hnext
    · cases hnext
      rfl

/-- It has not been applied before, unless the log ends before what was applied. -/
theorem Ask.kept_of_act {σ : Type} {m : StateMachine σ} {R : Nat → Bytes → σ → Prop}
    (hR : Records m R) {w : Raft.World σ} {p : Process σ} {e : Effect σ} {a : Ask}
    (h : p.act m w id a.runs = some e) (hw : p.server.log.WF) (hw' : e.proc.server.log.WF)
    (hbase : p.server.log.baseIndex ≤ p.server.lastApplied)
    (happ : p.server.lastApplied ≤ p.server.log.lastIndex) :
    (a.proposal p.server).Kept R e.proc.server := by
  have hidx : (a.proposal p.server).index = p.server.log.logical.length + 1 := by
    rw [← hw.lastIndex]
    rcases a with cmd | ⟨_ | _, x⟩ <;> rfl
  have hentry : e.proc.server.log.logical[(a.proposal p.server).index - 1]? =
      some (a.proposal p.server).entry := by
    rw [Ask.log_of_act h, Log.logical_push, hidx]
    exact List.getElem?_concat_length
  rw [hw.lastIndex] at happ
  have hpos : 0 < (a.proposal p.server).index := by omega
  refine ⟨hpos, hentry, fun hle => ?_⟩
  rcases (move_of_act h).applied hw hbase with happlied | ⟨src, args, call, recent, x, ha, -⟩
  · exact happlied.records hR hw' (fun hno => absurd hno (by omega)) hpos hentry hle
  · rcases a with cmd | ⟨_ | _, x⟩ <;> cases ha

/-- No request that a server receives touches the entry of a call under way there, and no call
appends to a log that ends before what was applied. -/
def Undisturbed (m : StateMachine Traced) (w : Desk) : DeskAction → Prop
  | .ask id _ _ => ∀ p ∈ (w.awaited.world.node id).proc,
      p.server.lastApplied ≤ p.server.log.lastIndex
  | .step (.act id (.deliver call _)) => ∀ p ∈ (w.awaited.world.node id).proc,
      ∀ c ∈ w.awaited.world.calls[call]?, ∀ d ∈ w.asked, d.node = id →
        ∀ q ∈ d.stage.pending, p.server.Spares m q.index c.request
  | _ => True

instance (m : StateMachine Traced) (w : Desk) (a : DeskAction) : Decidable (Undisturbed m w a) := by
  unfold Undisturbed
  split <;> infer_instance

/-- The entry of a call that is under way is kept, and its channel is one for the entry's index. -/
structure Asked.Followed (aw : Awaited Traced) (c : Asked) : Prop where
  kept : ∀ q, c.stage.pending = some q →
    ∃ p, (aw.world.node c.node).proc = some p ∧ q.Kept Noted p.server
  channel : ∀ q ch, c.stage = .waiting q ch → (aw.waiters c.node).made[ch]? = some q.index
  bytes : ∀ q, c.stage.pending = some q → ∀ cmd, c.ask = .propose cmd → q.cmd = cmd.encode

variable {c : Asked}

theorem Asked.Followed.of_pending_none {aw : Awaited Traced} (h : c.stage.pending = none) :
    c.Followed aw where
  kept q hq := by rw [h] at hq; cases hq
  channel q ch hstage := by rw [hstage] at h; cases h
  bytes q hq := by rw [h] at hq; cases hq

/-- Every call follows its entry. -/
structure Attentive (w : Desk) : Prop where
  attended : Attended w.awaited
  followed : ∀ c ∈ w.asked, c.Followed w.awaited

theorem attentive_empty : Attentive {} := ⟨attended_empty, fun _ hc => by (cases hc)⟩

section Step

variable {cl : Cluster Traced} {w : Desk} {a : Raft.Action} {world : Raft.World Traced}

/-- A process that a step does not end has its channels afterwards. -/
theorem channelStep_of_not_ends (hs : Raft.exec cl w.awaited.world a = some world)
    (hends : ends id a = false) {p : Process Traced}
    (hp : (w.awaited.world.node id).proc = some p) :
    ∃ p', (world.node id).proc = some p' ∧
      ChannelStep cl w.awaited id a p' (w.awaited.after cl.machine a id) := by
  have hproc : ∃ p', (world.node id).proc = some p' := by
    have hn := (stepped_of_exec hs).nodeStep id
    generalize world.node id = n' at hn ⊢
    cases hn with
    | other hid => exact ⟨p, hp⟩
    | boot | crash | cut => simp [ends] at hends
    | act => exact ⟨_, rfl⟩
  obtain ⟨p', hp'⟩ := hproc
  exact ⟨p', hp', Awaited.channelStep hs hp'⟩

theorem Attentive.call_step (h : Attentive w) (hm : cl.machine = tracedMachine)
    (hs : Raft.exec cl w.awaited.world a = some world)
    (ha : Undisturbed tracedMachine w (.step a)) (hc : c ∈ w.asked)
    (hends : ends c.node a = false) : c.Followed ⟨world, w.awaited.after cl.machine a⟩ := by
  have hf := h.followed c hc
  have hstep {q : Proposal} (hq : c.stage.pending = some q) :
      (∃ p, (world.node c.node).proc = some p ∧ q.Kept Noted p.server) ∧
        (w.awaited.after cl.machine a c.node).made = (w.awaited.waiters c.node).made := by
    obtain ⟨p, hp, hkept⟩ := hf.kept q hq
    obtain ⟨p', hp', hst⟩ := channelStep_of_not_ends hs hends hp
    have hwf' := (h.attended.wf.step (stepped_of_exec hs)).proc c.node p' hp'
    rw [hp']
    generalize w.awaited.after cl.machine a c.node = wt' at hst ⊢
    cases hst with
    | other hid hsame =>
      rw [hp] at hsame
      cases hsame
      exact ⟨⟨p, rfl, hkept⟩, rfl⟩
    | boot => simp [ends] at hends
    | act p₁ b e hp₁ hact =>
      rw [hp] at hp₁
      cases hp₁
      refine ⟨⟨_, rfl, ?_⟩, Waiters.made_written _ _⟩
      rw [hm] at hact
      refine (move_of_act hact).kept records_noted (h.attended.wf.proc _ _ hp) ?_
        (h.attended.caught _ _ hp).base hkept fun call recent hb x hx => ?_
      · exact ⟨hwf'.server, fun snap ht =>
          hwf'.task snap (ht.imp (List.mem_append_left _) (List.mem_append_left _))⟩
      · subst hb
        exact ha p hp x hx c hc rfl q hq
  refine ⟨fun q hq => (hstep hq).1, fun q ch hstage => ?_, hf.bytes⟩
  dsimp only
  rw [(hstep (by rw [hstage]; rfl)).2]
  exact hf.channel q ch hstage

theorem Attentive.step (h : Attentive w) (hm : cl.machine = tracedMachine)
    (hs : Raft.exec cl w.awaited.world a = some world)
    (ha : Undisturbed tracedMachine w (.step a)) :
    Attentive ⟨⟨world, w.awaited.after cl.machine a⟩, w.asked.map fun c => c.after a⟩ := by
  refine ⟨h.attended.step hs, fun d hd => ?_⟩
  obtain ⟨c, hc, rfl⟩ := List.mem_map.1 hd
  rw [Asked.after]
  split
  · exact .of_pending_none rfl
  next hno =>
    rcases hq : c.stage.pending with _ | q
    · exact .of_pending_none hq
    · refine h.call_step hm hs ha hc ?_
      by_contra hends
      exact hno ⟨Bool.eq_true_of_not_eq_false hends, by rw [hq]; rfl⟩

end Step

section Exec

variable {shard : ID} {cl : Cluster Traced} {w w' : Desk}

theorem Attentive.setStage (h : Attentive w) {k : Nat} {stage : AskStage}
    (hstage : ({ c with stage := stage } : Asked).Followed w.awaited) :
    Attentive (w.setStage k c stage) := by
  refine ⟨h.attended, fun d hd => ?_⟩
  rcases List.mem_or_eq_of_mem_set hd with hd | rfl
  · exact h.followed d hd
  · exact hstage

theorem Attentive.add (h : Attentive w) (hc : c.Followed w.awaited) :
    Attentive ⟨w.awaited, w.asked ++ [c]⟩ := by
  refine ⟨h.attended, fun d hd => ?_⟩
  rcases List.mem_append.1 hd with hd | hd
  · exact h.followed d hd
  · rw [List.mem_singleton.1 hd]
    exact hc

theorem Attentive.ask (h : Attentive w) (hm : cl.machine = tracedMachine) {a : Ask}
    {p : Process Traced} (hp : (w.awaited.world.node id).proc = some p)
    {world : Raft.World Traced} (hs : Raft.exec cl w.awaited.world (.act id a.runs) = some world)
    (happ : p.server.lastApplied ≤ p.server.log.lastIndex) :
    Attentive ⟨⟨world, w.awaited.after cl.machine (.act id a.runs)⟩,
      w.asked ++ [⟨id, a, .appended (a.proposal p.server)⟩]⟩ := by
  have hquiet : Undisturbed tracedMachine w (.step (.act id a.runs)) := by
    rcases a with cmd | ⟨_ | _, x⟩ <;> exact trivial
  have hold : Attentive ⟨⟨world, w.awaited.after cl.machine (.act id a.runs)⟩, w.asked⟩ := by
    have hmap := h.step hm hs hquiet
    have hsame : (w.asked.map fun c => c.after (.act id a.runs)) = w.asked := by
      refine (List.map_congr_left fun c _ => ?_).trans (List.map_id _)
      rw [Asked.after, if_neg fun hno => Bool.noConfusion hno.1]
      rfl
    rwa [hsame] at hmap
  refine hold.add ⟨fun q hq => ?_, fun q ch hstage => by (cases hstage), fun q hq cmd hcmd => ?_⟩
  · cases hq
    obtain ⟨p', hp', hst⟩ := channelStep_of_not_ends hs rfl hp
    have hwf' := hold.attended.wf.proc id p' hp'
    refine ⟨p', hp', ?_⟩
    generalize w.awaited.after cl.machine (.act id a.runs) id = wt' at hst
    generalize hb : Raft.Action.act id a.runs = b at hst
    cases hst with
    | other hid =>
      rw [← hb] at hid
      exact absurd rfl hid
    | boot => cases hb
    | act p₁ b e hp₁ hact =>
      cases hb
      rw [hp] at hp₁
      cases hp₁
      rw [hm] at hact
      exact Ask.kept_of_act records_noted hact (h.attended.wf.proc _ _ hp).server.log
        hwf'.server.log (h.attended.caught _ _ hp).base happ
  · cases hq
    dsimp only at hcmd
    rw [hcmd]
    rfl

theorem Attentive.exec (h : Attentive w) (hm : cl.machine = tracedMachine) {a : DeskAction}
    (hs : deskExec shard cl w a = some w') (ha : Undisturbed tracedMachine w a) : Attentive w' := by
  cases a with
  | ask id a leader =>
    obtain ⟨p, hp, rfl⟩ := Option.map_eq_some_iff.1 hs
    split
    next aw haw =>
      split at haw
      · obtain ⟨world, hworld, rfl⟩ := Option.map_eq_some_iff.1 haw
        exact h.ask hm hp hworld (ha p hp)
      · cases haw
    next => exact h.add (.of_pending_none rfl)
  | wait k =>
    obtain ⟨c, hc, hs⟩ := Option.bind_eq_some_iff.1 hs
    have hf := h.followed c (List.mem_of_getElem? hc)
    split at hs
    next q hstage =>
      obtain ⟨aw, haw, rfl⟩ := Option.map_eq_some_iff.1 hs
      obtain ⟨p, hp, rfl⟩ := Option.map_eq_some_iff.1 haw
      have hmade {id : NodeID} {ch i : Nat} (hch : (w.awaited.waiters id).made[ch]? = some i) :
          ((w.awaited.wait c.node p.server.lastApplied q.index).waiters id).made[ch]? = some i := by
        rw [Awaited.wait]
        dsimp only
        by_cases hid : id = c.node
        · subst hid
          rw [Function.update_self]
          exact Waiters.getElem?_waitApplied hch _ _
        · rw [Function.update_of_ne hid]
          exact hch
      have hold : Attentive ⟨w.awaited.wait c.node p.server.lastApplied q.index, w.asked⟩ :=
        ⟨h.attended.wait hp _, fun d hd => ⟨(h.followed d hd).kept, fun q' ch hd' =>
          hmade ((h.followed d hd).channel q' ch hd'), (h.followed d hd).bytes⟩⟩
      have hpend : c.stage.pending = some q := by rw [hstage]; rfl
      refine hold.setStage ⟨fun q' hq' => ?_, fun q' ch hd' => ?_, fun q' hq' => ?_⟩
      · cases hq'
        exact hf.kept q hpend
      · cases hd'
        rw [Awaited.wait]
        dsimp only
        rw [Function.update_self]
        exact Waiters.getElem?_waitApplied_self _ _ _
      · cases hq'
        exact hf.bytes q hpend
    next => cases hs
  | finish k =>
    obtain ⟨c, hc, hs⟩ := Option.bind_eq_some_iff.1 hs
    split at hs
    · split at hs
      · obtain ⟨p, hp, rfl⟩ := Option.map_eq_some_iff.1 hs
        exact h.setStage (.of_pending_none rfl)
      · cases hs
    · cases hs
  | expire k =>
    obtain ⟨c, hc, hs⟩ := Option.bind_eq_some_iff.1 hs
    split at hs
    · obtain ⟨p, hp, rfl⟩ := Option.map_eq_some_iff.1 hs
      exact h.setStage (.of_pending_none rfl)
    · cases hs
  | step a =>
    obtain ⟨aw, haw, rfl⟩ := Option.map_eq_some_iff.1 hs
    obtain ⟨world, hworld, rfl⟩ := Option.map_eq_some_iff.1 haw
    exact h.step hm hworld ha

end Exec

/-! ## Successes -/

theorem not_success_refused {σ : Type} (shard : ID) (s : Server σ) (d : Disk)
    (leader : NodeID × Bool) (a : Ask) : ¬ (a.refused shard s d leader).Success := by
  cases a with
  | propose cmd => exact fun h => Bool.noConfusion h.1
  | change c x =>
    rw [Ask.refused, Reply.Success, AdminService.change]
    split
    · exact Bool.noConfusion
    split
    next e heq =>
      cases e <;> exact Bool.noConfusion
    next => exact Bool.noConfusion

theorem not_success_expired (shard : ID) (idx : Nat) (role : Role) (a : Ask) :
    ¬ (a.expired shard idx role).Success := by
  cases a with
  | propose cmd =>
    rw [Ask.expired, Reply.Success, propose]
    split
    · exact fun h => Bool.noConfusion h.1
    · exact fun h => nomatch h.2
  | change c x => exact Bool.noConfusion

theorem eq_of_getElem?_set {α : Type} {l : List α} {i k : Nat} {x y : α}
    (h : (l.set i x)[k]? = some y) (hne : l[k]? ≠ some y) : i = k ∧ y = x := by
  by_cases hik : i = k
  · subst hik
    rw [List.getElem?_set_self'] at h
    obtain ⟨_, _, hxy⟩ := Option.map_eq_some_iff.1 h
    exact ⟨rfl, hxy.symm⟩
  · rw [List.getElem?_set_ne hik] at h
    exact absurd h hne

/-- A call returns a success when it finds its channel closed, and only then. -/
theorem finish_of_success {shard : ID} {cl : Cluster Traced} {w w' : Desk} {a : DeskAction}
    (hs : deskExec shard cl w a = some w') {k : Nat} {o : Option Proposal} {r : Reply}
    (hk : w'.asked[k]? = some c) (hc : c.stage = .returned o r) (hnew : w.asked[k]? ≠ some c)
    (hsucc : r.Success) :
    ∃ d q ch p, d ∈ w.asked ∧ d.stage = .waiting q ch ∧
      ch ∈ (w.awaited.waiters d.node).closed ∧ (w.awaited.world.node d.node).proc = some p ∧
      w'.awaited = w.awaited ∧ c.node = d.node ∧ c.ask = d.ask ∧ o = some q ∧
      r = d.ask.answered shard q.index p.server.peers p.server.sm.machine := by
  cases a with
  | ask id a leader =>
    obtain ⟨p, hp, rfl⟩ := Option.map_eq_some_iff.1 hs
    have hlast {x : Asked} (hk : (w.asked ++ [x])[k]? = some c) : c = x := by
      rcases Nat.lt_or_ge k w.asked.length with hlt | hge
      · rw [List.getElem?_append_left hlt] at hk
        exact absurd hk hnew
      · rw [List.getElem?_append_right hge] at hk
        exact List.mem_singleton.1 (List.mem_of_getElem? hk)
    split at hk
    · rw [hlast hk] at hc
      cases hc
    · rw [hlast hk] at hc
      cases hc
      exact absurd hsucc (not_success_refused shard _ _ leader a)
  | wait k' =>
    obtain ⟨d, hd, hs⟩ := Option.bind_eq_some_iff.1 hs
    split at hs
    · obtain ⟨aw, haw, rfl⟩ := Option.map_eq_some_iff.1 hs
      rw [(eq_of_getElem?_set hk hnew).2] at hc
      cases hc
    · cases hs
  | finish k' =>
    obtain ⟨d, hd, hs⟩ := Option.bind_eq_some_iff.1 hs
    split at hs
    next q ch hstage =>
      split at hs
      next hclosed =>
        obtain ⟨p, hp, rfl⟩ := Option.map_eq_some_iff.1 hs
        obtain ⟨-, rfl⟩ := eq_of_getElem?_set hk hnew
        cases hc
        exact ⟨d, q, ch, p, List.mem_of_getElem? hd, hstage, hclosed, hp, rfl, rfl, rfl, rfl, rfl⟩
      · cases hs
    · cases hs
  | expire k' =>
    obtain ⟨d, hd, hs⟩ := Option.bind_eq_some_iff.1 hs
    split at hs
    · obtain ⟨p, hp, rfl⟩ := Option.map_eq_some_iff.1 hs
      rw [(eq_of_getElem?_set hk hnew).2] at hc
      cases hc
      exact absurd hsucc (not_success_expired shard _ _ d.ask)
    · cases hs
  | step a =>
    obtain ⟨aw, haw, rfl⟩ := Option.map_eq_some_iff.1 hs
    dsimp only at hk
    rw [List.getElem?_map] at hk
    obtain ⟨d, hd, rfl⟩ := Option.map_eq_some_iff.1 hk
    rw [Asked.after] at hc hnew
    split at hc
    · cases hc
    next hno =>
      rw [if_neg hno] at hnew
      exact absurd hd hnew

/-- **A success is about the entry that the call appended**, in every run in which no request that a
server receives touches the entry of a call under way there: when the call returns, the entry stands
at its index and has been applied, and what `Propose` returns is the result of applying it. -/
theorem success_of_entry {shard : ID} {peers : NodeID → List NodeID} {as : List DeskAction}
    {w w' : Desk} (hrun : Run (fun w a w' => deskExec shard (tracedCluster peers) w a = some w' ∧
      Undisturbed tracedMachine w a) {} as w)
    {a : DeskAction} (hs : deskExec shard (tracedCluster peers) w a = some w') {k : Nat} {c : Asked}
    {o : Option Proposal} {r : Reply} (hk : w'.asked[k]? = some c) (hc : c.stage = .returned o r)
    (hnew : w.asked[k]? ≠ some c) (hsucc : r.Success) :
    ∃ q p res, o = some q ∧ (w'.awaited.world.node c.node).proc = some p ∧
      q.index ≤ p.server.lastApplied ∧ p.server.log.logical[q.index - 1]? = some q.entry ∧
      (q.index, q.cmd, res) ∈ p.server.sm.trace ∧
      ∀ cmd, c.ask = .propose cmd →
        q.cmd = cmd.encode ∧ r = .proposed { res := res, isLeader := true } := by
  have h : Attentive w :=
    hrun.invariant (fun w a w' hs h => h.exec rfl hs.1 hs.2) attentive_empty
  obtain ⟨d, q, ch, p, hd, hstage, hclosed, hp, haw, hnode, hask, rfl, rfl⟩ :=
    finish_of_success hs hk hc hnew hsucc
  have hf := h.followed d hd
  have hpend : d.stage.pending = some q := by rw [hstage]; rfl
  obtain ⟨p', hp', hkept⟩ := hf.kept q hpend
  rw [hp] at hp'
  cases hp'
  have hle := (h.attended.heard d.node p hp).le hclosed (hf.channel q ch hstage)
  obtain ⟨res, hres, hmem⟩ := hkept.result hle
  refine ⟨q, p, res, rfl, ?_, hle, hkept.entry, hmem, fun cmd hcmd => ?_⟩
  · rw [haw, hnode]
    exact hp
  · rw [hask] at hcmd
    refine ⟨hf.bytes q hpend cmd hcmd, ?_⟩
    rw [hcmd, Ask.answered, propose, Machine.appliedResult, hres]
    rfl

/-- Server 1 is elected by server 2, and its first entry is there on both. -/
def firstLeader : List Raft.Action :=
  leaderOfThree ++ [.run [1] 1, .deliver [2] 2, .receive [1] 2 1]

/-- Opens account `A` with 100. -/
def opening : Shard.Command :=
  { op := .single, txID := [], debit := false, commit := false, coordinator := []
    participants := []
    ledger := ⟨.openAccount, [107], [], [65], 100, .zero⟩ }

/-- The two of them commit the command. -/
def undisturbedProposal : List DeskAction :=
  firstLeader.map .step ++ [.ask [1] (.propose opening) ([], false), .wait 0] ++
    List.map .step [.run [1] 2, .run [1] 2, .deliver [2] 3, .receive [1] 3 2]

/-- The call returns what opening the account has brought. -/
theorem success_of_entry_opening :
    ∃ w w' c r, Run
      (fun w a w' => deskExec [] (tracedCluster fun _ => [[1], [2], [3]]) w a = some w' ∧
        Undisturbed tracedMachine w a) {} undisturbedProposal w ∧
      deskExec [] (tracedCluster fun _ => [[1], [2], [3]]) w (.finish 0) = some w' ∧
      w'.asked[0]? = some c ∧ c.stage = .returned (some ⟨2, 1, opening.encode⟩) (.proposed r) ∧
      r = { res := { ok := true, balance := 100 }, isLeader := true } ∧
      ∃ p, (w'.awaited.world.node [1]).proc = some p ∧ 2 ≤ p.server.lastApplied ∧
        p.server.log.logical[1]? = some ⟨1, 2, some opening.encode⟩ ∧
        (2, opening.encode, r.res) ∈ p.server.sm.trace := by
  obtain ⟨w, hrun, hold, w', hs, hnew⟩ : ∃ w, Run
      (fun w a w' => deskExec [] (tracedCluster fun _ => [[1], [2], [3]]) w a = some w' ∧
        Undisturbed tracedMachine w a) {} undisturbedProposal w ∧
      w.asked[0]? = some ⟨[1], .propose opening, .waiting ⟨2, 1, opening.encode⟩ 0⟩ ∧
      ∃ w' ∈ deskExec [] (tracedCluster fun _ => [[1], [2], [3]]) w (.finish 0),
        w'.asked[0]? = some ⟨[1], .propose opening, .returned (some ⟨2, 1, opening.encode⟩)
          (.proposed { res := { ok := true, balance := 100 }, isLeader := true })⟩ :=
    exists_run_guarded (by decide +kernel)
  obtain ⟨q, p, res, hq, hp, hle, hentry, hmem, hcmd⟩ := success_of_entry hrun hs hnew rfl
    (by rw [hold]; exact fun h => by cases h) ⟨rfl, rfl⟩
  cases hq
  obtain ⟨-, hr⟩ := hcmd opening rfl
  cases hr
  exact ⟨w, w', _, _, hrun, hs, hnew, rfl, rfl, p, hp, hle, hentry, hmem⟩

/-- Server 2 is elected by server 3 and puts its own first entry in the place of the command. -/
def overwrittenProposal : List DeskAction :=
  List.map .step (firstLeader ++ [.run [1] 1, .deliver [3] 3, .receive [1] 1 2]) ++
    [.ask [1] (.propose opening) ([], false), .wait 0] ++
    List.map .step [.timeout [2], .run [2] 0, .deliver [3] 5, .receive [2] 1 3, .run [2] 1,
      .run [2] 1, .run [2] 1, .run [2] 2, .deliver [3] 6, .receive [2] 2 4, .run [2] 1,
      .deliver [1] 7]

/-- The call returns a success; what stands at its index carries no command, and nothing was ever
applied. -/
theorem overwritten_proposal_succeeds :
    ∃ w w' p, Run (fun w a w' => deskExec [] (tracedCluster fun _ => [[1], [2], [3]]) w a = some w')
        {} overwrittenProposal w ∧
      deskExec [] (tracedCluster fun _ => [[1], [2], [3]]) w (.finish 0) = some w' ∧
      w'.asked[0]? = some ⟨[1], .propose opening, .returned (some ⟨2, 1, opening.encode⟩)
        (.proposed { res := { ok := true }, isLeader := true })⟩ ∧
      (w'.awaited.world.node [1]).proc = some p ∧ 2 ≤ p.server.lastApplied ∧
      p.server.log.logical[1]? = some ⟨2, 2, none⟩ ∧ p.server.sm.trace = [] := by
  simp only [exists_and_left]
  exact exists_run (by decide +kernel)

end CoreBank.Rpc
