import CoreBank.Rpc.OneKey

/-!
# What a redirect means

A reply with `NotLeader` sends the client to another node, and is meant to say that nothing was
proposed.  `ShardTrail` is the system together with who appended which entry, so that this can be
said.  It holds unless a two-phase commit learns only after its first entry that it does not lead a
shard: it gives up on its own prepare while another node has taken over, or it turns to the credit
shard, which another node leads.
-/

set_option autoImplicit false

namespace CoreBank

open Ledger Hlc ActionSystem

namespace Shard

/-- The shard a call of `Transfer` is preparing: the debit shard, or the credit shard. -/
def Task.preparing : Task → Option Bool
  | .transfer _ .prepareDebit => some true
  | .transfer _ .prepareCredit => some false
  | _ => none

/-- The error that `Submit` turns into a redirect. -/
def Error.isNotLeader : Error → Bool
  | .notLeader _ => true
  | _ => false

/-- What is known of a call by where it stands, `untouched` being that it has appended nothing:
until it appends, and when it redirects. -/
def TransferPc.Redirects (untouched : Prop) (wait : Option (ID × Nat)) : TransferPc → Prop
  | .single _ | .prepareDebit => wait = none → untouched
  | .decision (.abort _ e) | .outcomeDebit (.abort _ e) | .outcomeCredit (.abort _ e) _ =>
    e.isNotLeader = false
  | .returned _ (some e) => e.isNotLeader = true → untouched
  | _ => True

variable {shardFor : AccountID → ID} {untouched : Prop} {c : Call} {pc : TransferPc}
  {wait : Option (ID × Nat)}

theorem TransferPc.Redirects.mono {P : Prop} (h : pc.Redirects untouched wait)
    (himp : untouched → P) : pc.Redirects P wait := by
  cases pc with
  | single | prepareDebit => exact fun hw => himp (h hw)
  | prepareCredit => trivial
  | decision d | outcomeDebit d | outcomeCredit d =>
    cases d with
    | commit => trivial
    | abort => exact h
  | returned res err =>
    cases err with
    | none => trivial
    | some e => exact fun he => himp (h he)

theorem redirects_route (h : untouched) : (c.route shardFor).Redirects untouched none := by
  have hsingle (s : ID) : TransferPc.Redirects untouched none
      (if s ∈ c.groups then .single s else .returned {} (some (.noGroup s))) := by
    split
    · exact fun _ => h
    · exact fun _ => h
  rw [Call.route]
  split
  · exact hsingle _
  · exact hsingle _
  · exact hsingle _
  · split
    · exact hsingle _
    · repeat' split
      all_goals exact fun _ => h

theorem redirects_afterDecide {debit : Ledger.State} {d : Decide} {err : Option Str}
    (h : ∀ res e, d = .abort res e → e.isNotLeader = false) :
    (afterDecide c debit d err).Redirects untouched wait := by
  cases d with
  | abort res e =>
    intro he
    rw [h res e rfl] at he
    cases he
  | commit =>
    cases err with
    | none => trivial
    | some e => exact fun he => nomatch he

/-- A credit side that is led by this node is no reason for a redirect. -/
theorem isNotLeader_creditRefusal {s : ID} {rep : Shard.ProposeReply} (h : rep.isLeader = true) :
    (creditRefusal s rep).2.isNotLeader = false := by
  rw [creditRefusal, h]
  split
  · rfl
  · cases rep.err <;> rfl

/-- The reply to a proposal: one that is turned away before anything was appended may redirect. -/
theorem redirects_onReply {debit : Ledger.State} {rep : Shard.ProposeReply}
    (h : pc.Redirects untouched wait) (hcredit : pc = .prepareCredit → rep.isLeader = true)
    (hfirst : wait ≠ none → rep.err = none → rep.isLeader = true)
    (hdebit : pc = .prepareDebit → wait ≠ none → rep.isLeader = true) :
    (pc.onReply shardFor c debit rep).Redirects untouched none := by
  -- what the first proposal of a call learns before it has appended anything
  have hnone (hpc : wait = none → untouched) (hw : wait ≠ none → rep.isLeader = true)
      (hl : ¬ rep.isLeader = true) : untouched :=
    hpc (Classical.byContradiction fun hne => hl (hw hne))
  cases pc with
  | single s =>
    rw [TransferPc.onReply]
    cases he : rep.err with
    | some e => cases rep.isLeader <;> exact fun h => by cases h
    | none =>
      dsimp only
      split
      · trivial
      next hl => exact fun _ => hnone h (fun hw => hfirst hw he) hl
  | prepareDebit =>
    rw [TransferPc.onReply]
    split
    next hl => exact fun _ => hnone h (hdebit rfl) hl
    next =>
      cases rep.err with
      | some e => exact fun h => by cases h
      | none =>
        dsimp only
        split
        · trivial
        · exact rfl
  | prepareCredit =>
    rw [TransferPc.onReply]
    split
    · exact isNotLeader_creditRefusal (hcredit rfl)
    · trivial
  | decision d =>
    have hd : ∀ res e, d = .abort res e → e.isNotLeader = false := by
      rintro res e rfl
      exact h
    rw [TransferPc.onReply]
    split
    · exact redirects_afterDecide hd
    · cases d with
      | commit => trivial
      | abort res e => exact h
  | outcomeDebit d =>
    cases d with
    | commit => trivial
    | abort res e => exact h
  | outcomeCredit d firstErr =>
    refine redirects_afterDecide ?_
    rintro res e rfl
    exact h
  | returned res err =>
    cases err with
    | none => trivial
    | some e => exact h

/-- A call that has appended something stays as it is, if it does not redirect. -/
theorem redirects_append {g : ID} {e : Command} {x : ID × Nat}
    (h : pc.Redirects untouched wait) (hreq : pc.request shardFor c = some (g, e)) (P : Prop) :
    pc.Redirects P (some x) := by
  cases pc with
  | single | prepareDebit => exact fun hw => nomatch hw
  | prepareCredit => trivial
  | decision d | outcomeDebit d | outcomeCredit d =>
    cases d with
    | commit => trivial
    | abort => exact h
  | returned => cases hreq

end Shard

namespace Rpc

open Shard

/-! ## Who appended what -/

/-- The system, with the entries each call of `Transfer` has appended. -/
structure ShardTrail extends ShardWorld where
  /-- Process, group and index. -/
  wrote : List (Nat × ID × Nat) := []

/-- What the action appends: caller, group and index. -/
def ShardAction.writes (shardFor : AccountID → ID) (w : Shard.World) :
    ShardAction → List (Nat × ID × Nat)
  | .shard a => w.writes shardFor a
  | _ => []

/-- A step, with what it appends. -/
def shardTrailExec (svc : ShardService) (shardFor : AccountID → ID) (t : ShardTrail)
    (a : ShardAction) : Option ShardTrail :=
  (shardExec svc shardFor t.toShardWorld a).map fun w =>
    { w with wrote := t.wrote ++ a.writes shardFor t.shards }

/-- The call has appended nothing. -/
def ShardTrail.Untouched (t : ShardTrail) (pid : Nat) : Prop := ∀ g i, (pid, g, i) ∉ t.wrote

/-- The steps after which a redirect still means that nothing was proposed. -/
def KeepsLead (t : ShardTrail) : ShardAction → Prop
  -- a prepare of the credit shard is not turned away for want of the lead
  | .shard (.propose pid (.fail isLeader _)) =>
    ∀ p ∈ t.shards.procs[pid]?, p.task.preparing = some false → isLeader = true
  -- whoever gives up on a prepare it has appended still leads
  | .shard (.timeout pid isLeader _) =>
    ∀ p ∈ t.shards.procs[pid]?, p.task.preparing ≠ none → isLeader = true
  | _ => True

instance (t : ShardTrail) (a : ShardAction) : Decidable (KeepsLead t a) := by
  unfold KeepsLead
  split <;> infer_instance

/-! ## The invariant -/

/-- The books of the calls, and what they say about the replies. -/
structure Redirected (t : ShardTrail) : Prop where
  wrote : ∀ pid g i, (pid, g, i) ∈ t.wrote → pid < t.shards.procs.length
  calls : ∀ (pid : Nat) (p : Proc), t.shards.procs[pid]? = some p → ∀ c pc,
    p.task = .transfer c pc →
    pc.Redirects (t.Untouched pid) p.wait
  replies : ∀ s ∈ t.submissions, ∀ reply, s.reply = some reply → reply.notLeader = true →
    ∀ x, s.transfer = some x → ∃ p c res e, t.shards.procs[x.1]? = some p
      ∧ p.task = .transfer c (.returned res (some e)) ∧ e.isNotLeader = true

theorem err_of_notLeader {svc : ShardService} {leaderAddr : Str} {res : Result}
    {err : Option Shard.Error} (h : (svc.reply leaderAddr res err).notLeader = true) :
    ∃ e, err = some e ∧ e.isNotLeader = true := by
  unfold ShardService.reply at h
  split at h
  next => cases h
  next s => exact ⟨_, rfl, rfl⟩
  next => cases h
  next => cases h

theorem redirected_init : Redirected {} where
  wrote _ _ _ h := nomatch h
  calls _ _ h := nomatch h
  replies _ h := nomatch h

section Steps

variable {shardFor : AccountID → ID} {w w' : Shard.World} {a : Shard.Action}

/-- The processes after a step: those that were there, and perhaps one that begins a call. -/
theorem procs_of_exec (h : Shard.exec shardFor w a = some w') {pid : Nat} {p' : Proc}
    (hp' : w'.procs[pid]? = some p') (hnew : w.procs[pid]? = none) :
    p'.wait = none ∧ ∀ c pc, p'.task = .transfer c pc → pc = c.route shardFor := by
  have hadd {l : List Proc} {x : Proc} (hl : w.procs = l) (hx : (l ++ [x])[pid]? = some p') :
      x = p' := by
    have hle := List.getElem?_eq_none_iff.1 (hl ▸ hnew)
    rw [List.getElem?_append_right hle] at hx
    exact List.mem_singleton.1 (List.mem_of_getElem? hx) ▸ rfl
  have hset {l : List Proc} {q : Nat} {x : Proc} (hl : w.procs = l)
      (hx : (l.set q x)[pid]? = some p') : False := by
    have hle := List.getElem?_eq_none_iff.1 (hl ▸ hnew)
    have hlt := (List.getElem?_eq_some_iff.1 hx).1
    rw [List.length_set] at hlt
    omega
  cases step_of_exec h with
  | transfer =>
    obtain rfl := hadd rfl hp'
    refine ⟨rfl, ?_⟩
    rintro c pc ⟨⟩
    rfl
  | recover =>
    obtain rfl := hadd rfl hp'
    exact ⟨rfl, fun c pc ht => nomatch ht⟩
  | apply => exact absurd (hnew.symm.trans hp') (Option.some_ne_none _).symm
  | reply | move | crash | append => exact (hset rfl hp').elim

theorem proc_of_exec (h : Shard.exec shardFor w a = some w') {pid : Nat} (ha : a.pid? = some pid) :
    ∃ p, w.procs[pid]? = some p := by
  unfold Shard.exec at h
  rw [ha] at h
  dsimp only at h
  split at h
  next p hp => exact ⟨p, hp⟩
  next => cases h

theorem returned_of_turn {pid : Nat} {p p' : Proc} {c : Shard.Call} {res : Result}
    {err : Option Shard.Error} (h : Turn shardFor w pid p a p')
    (ht : p.task = .transfer c (.returned res err)) :
    p'.task = .transfer c (.returned res err) := by
  cases h with
  | other | crash => exact ht
  | refused _ hreq | append _ hreq =>
    rw [ht] at hreq
    cases hreq
  | reported | timedOut =>
    dsimp only
    rw [ht]
    rfl
  | move _ _ hl =>
    have hcall := (call?_localStep hl).1
    rw [ht] at hcall
    cases hcall

variable {t t' : ShardTrail}

/-- What a process has not appended before a step, it has not appended after it. -/
theorem ShardTrail.Untouched.of_ne {pid : Nat} (h : t.Untouched pid)
    (hwrote : t'.wrote = t.wrote ++ t.shards.writes shardFor a)
    (ha : a ≠ .propose pid .append) : t'.Untouched pid := by
  intro g i hmem
  rw [hwrote] at hmem
  rcases List.mem_append.1 hmem with hmem | hmem
  · exact h g i hmem
  · exact writes_of_ne ha hmem

theorem Redirected.turn {pid : Nat} {p p' : Proc} {c : Shard.Call} {pc : TransferPc}
    (h : Redirected t) (hp : t.shards.procs[pid]? = some p)
    (hturn : Turn shardFor t.shards pid p a p')
    (hwrote : t'.wrote = t.wrote ++ t.shards.writes shardFor a) (hlead : KeepsLead t (.shard a))
    (ht : p'.task = .transfer c pc) : pc.Redirects (t'.Untouched pid) p'.wait := by
  have hmono (ha : a ≠ .propose pid .append) : t.Untouched pid → t'.Untouched pid :=
    fun hu => hu.of_ne hwrote ha
  cases hturn with
  | other hne =>
    refine (h.calls pid p hp c pc ht).mono (hmono ?_)
    rintro rfl
    exact hne rfl
  | crash => exact (h.calls pid p hp c pc ht).mono (hmono fun h => nomatch h)
  | move _ _ hl =>
    have hcall := (call?_localStep hl).2
    dsimp only at ht
    rw [ht] at hcall
    cases hcall
  | @refused isLeader err g e hwait hreq hrep =>
    obtain ⟨pc₀, ht₀, rfl⟩ := task_of_onReply ht
    have h₀ := h.calls pid p hp c pc₀ ht₀
    rw [hwait] at h₀ ⊢
    refine (redirects_onReply h₀ ?_ (fun hw => absurd rfl hw) fun _ hw => absurd rfl hw).mono
      (hmono (by rintro ⟨⟩))
    rintro rfl
    exact hlead p hp (by rw [ht₀]; rfl)
  | @reported g i hwait happ =>
    obtain ⟨pc₀, ht₀, rfl⟩ := task_of_onReply ht
    have h₀ := h.calls pid p hp c pc₀ ht₀
    exact (redirects_onReply h₀ (fun _ => rfl) (fun _ _ => rfl) fun _ _ => rfl).mono
      (hmono fun h => nomatch h)
  | @timedOut g i isLeader err hwait =>
    obtain ⟨pc₀, ht₀, rfl⟩ := task_of_onReply ht
    have h₀ := h.calls pid p hp c pc₀ ht₀
    refine (redirects_onReply h₀ ?_ ?_ ?_).mono (hmono fun h => nomatch h)
    · rintro rfl
      exact hlead p hp (by rw [ht₀]; exact Option.some_ne_none _)
    · intro _ he
      cases he
    · rintro rfl _
      exact hlead p hp (by rw [ht₀]; exact Option.some_ne_none _)
  | append hwait hreq =>
    dsimp only at ht
    rw [ht] at hreq
    exact redirects_append (h.calls pid p hp c pc ht) hreq _

/-- **A step of the shards.** -/
theorem Redirected.exec (h : Redirected t)
    (hexec : Shard.exec shardFor t.shards a = some t'.shards)
    (hwrote : t'.wrote = t.wrote ++ t.shards.writes shardFor a) (hlead : KeepsLead t (.shard a))
    (hsubs : ∀ s ∈ t'.submissions, s.reply ≠ none → s ∈ t.submissions) : Redirected t' := by
  have hwriter {pid : Nat} {g : ID} {i : Nat} (hmem : (pid, g, i) ∈ t'.wrote) :
      ∃ p, t.shards.procs[pid]? = some p := by
    rw [hwrote] at hmem
    rcases List.mem_append.1 hmem with hmem | hmem
    · exact ⟨_, List.getElem?_eq_getElem (h.wrote pid g i hmem)⟩
    · refine proc_of_exec hexec ?_
      have ha : a = .propose pid .append :=
        Classical.byContradiction fun hne => writes_of_ne hne hmem
      rw [ha]
      rfl
  constructor
  case wrote =>
    intro pid g i hmem
    obtain ⟨p, hp⟩ := hwriter hmem
    obtain ⟨p', hp', -⟩ := turn_of_exec hexec hp
    exact (List.getElem?_eq_some_iff.1 hp').1
  case calls =>
    intro pid p' hp' c pc ht
    cases hp : t.shards.procs[pid]? with
    | some p =>
      obtain ⟨p'', hp'', hturn⟩ := turn_of_exec hexec hp
      cases hp'.symm.trans hp''
      exact h.turn hp hturn hwrote hlead ht
    | none =>
      obtain ⟨hwait, hroute⟩ := procs_of_exec hexec hp' hp
      rw [hroute c pc ht, hwait]
      refine redirects_route fun g i hmem => ?_
      obtain ⟨p, hp₁⟩ := hwriter hmem
      cases hp.symm.trans hp₁
  case replies =>
    intro s hs reply hreply hnot x hx
    have hold := hsubs s hs (by rw [hreply]; exact Option.some_ne_none _)
    obtain ⟨p, c, res, e, hp, ht, he⟩ := h.replies s hold reply hreply hnot x hx
    obtain ⟨p', hp', hturn⟩ := turn_of_exec hexec hp
    exact ⟨p', c, res, e, hp', returned_of_turn hturn ht, he⟩

/-- A step of `Submit` itself: the shards stay as they are. -/
theorem Redirected.replied (h : Redirected t) (hshards : t'.shards = t.shards)
    (hwrote : t'.wrote = t.wrote)
    (hreplies : ∀ s ∈ t'.submissions, ∀ reply, s.reply = some reply → reply.notLeader = true →
      ∀ x, s.transfer = some x → ∃ p c res e, t.shards.procs[x.1]? = some p
        ∧ p.task = .transfer c (.returned res (some e)) ∧ e.isNotLeader = true) :
    Redirected t' where
  wrote := by rw [hshards, hwrote]; exact h.wrote
  calls := by
    unfold ShardTrail.Untouched
    rw [hshards, hwrote]
    exact h.calls
  replies := by rw [hshards]; exact hreplies

/-- **Every step keeps the invariant.** -/
theorem Redirected.step {svc : ShardService} {a : ShardAction} (h : Redirected t)
    (hs : shardTrailExec svc shardFor t a = some t') (hlead : KeepsLead t a) : Redirected t' := by
  obtain ⟨w', hw', rfl⟩ := Option.map_eq_some_iff.1 hs
  cases a with
  | shard a =>
    cases a with
    | transfer => cases hw'
    | _ =>
      obtain ⟨shards, hexec, rfl⟩ := Option.map_eq_some_iff.1 hw'
      exact h.exec hexec rfl hlead fun s hs _ => hs
  | submit args rej groups now =>
    rw [shardExec] at hw'
    split at hw'
    next reply hcheck =>
      cases hw'
      refine h.replied rfl (List.append_nil _) fun s hs r hr hnot x hx => ?_
      rcases List.mem_append.1 hs with hs | hs
      · exact h.replies s hs r hr hnot x hx
      · obtain rfl := List.mem_singleton.1 hs
        cases hx
    next cmd hcheck =>
      obtain ⟨shards, hexec, rfl⟩ := Option.map_eq_some_iff.1 hw'
      refine h.exec hexec rfl trivial fun s hs hr => ?_
      rcases List.mem_append.1 hs with hs | hs
      · exact hs
      · obtain rfl := List.mem_singleton.1 hs
        exact absurd rfl hr
  | answer k leaderAddr =>
    obtain ⟨s, pid, cmd, p, c, res, err, hk, htr, hp, ht, rfl⟩ := answer_eq_some hw'
    refine h.replied rfl (List.append_nil _) fun s' hs' r hr hnot x hx => ?_
    rcases List.mem_or_eq_of_mem_set hs' with hs' | rfl
    · exact h.replies s' hs' r hr hnot x hx
    · cases htr.symm.trans hx
      cases hr
      obtain ⟨e, rfl, he⟩ := err_of_notLeader hnot
      exact ⟨p, c, res, e, hp, ht, he⟩

end Steps

/-- **A redirect means that nothing was proposed.**  In every run of `KeepsLead` steps, if a request
was answered with `NotLeader`, no log holds an entry that its call appended. -/
theorem redirect_proposes_nothing (svc : ShardService) (shardFor : AccountID → ID)
    {as : List ShardAction} {t : ShardTrail}
    (hrun : Run (fun t a t' => shardTrailExec svc shardFor t a = some t' ∧ KeepsLead t a) {} as t)
    {s : Submission} (hs : s ∈ t.submissions) {reply : TxReply} (hreply : s.reply = some reply)
    (hnot : reply.notLeader = true) {pid : Nat} {cmd : Ledger.Command}
    (htr : s.transfer = some (pid, cmd)) : t.Untouched pid := by
  have h : Redirected t :=
    hrun.invariant (P := Redirected) (fun t a t' hst h => h.step hst.1 hst.2) redirected_init
  obtain ⟨p, c, res, e, hp, ht, he⟩ := h.replies s hs reply hreply hnot (pid, cmd) htr
  exact h.calls pid p hp c _ ht he

namespace Schedule

open Shard.Schedule

/-- The transfer of 30 from alice to bob. -/
def transferArgs : TxArgs :=
  { op := str "transfer", idempotencyKey := str "k", fromAcc := str "alice", toAcc := str "bob",
    amount := 30 }

/-- A proposal of process 2 is answered with a redirect. -/
def turnedAway : List Shard.Action := [.propose 2 (.fail false none)]

/-- The node leads the debit shard but not the credit shard. -/
def creditElsewhere : List ShardAction :=
  accounts ++ .submit transferArgs none groups now ::
    (round 2 debitShard ++ turnedAway ++ round 2 debitShard ++ round 2 debitShard
      ++ turnedAway).map .shard ++ [.answer 2 []]

/-- The node leads neither. -/
def debitElsewhere : List ShardAction :=
  accounts ++ .submit transferArgs none groups now :: turnedAway.map .shard ++ [.answer 2 []]

/-- The call of submission `k`, if it was answered with a redirect. -/
def redirectedCall (w : ShardWorld) (k : Nat) : Option Nat :=
  (w.submissions[k]?).bind fun s =>
    if s.reply.any TxReply.notLeader then s.transfer.map Prod.fst else none

theorem submission_of_redirectedCall {w : ShardWorld} {k pid : Nat}
    (h : redirectedCall w k = some pid) : ∃ s ∈ w.submissions, ∃ reply cmd, s.reply = some reply ∧
      reply.notLeader = true ∧ s.transfer = some (pid, cmd) := by
  obtain ⟨s, hs, h⟩ := Option.bind_eq_some_iff.1 h
  split at h
  next hany =>
    obtain ⟨reply, hreply, hnot⟩ := (Option.any_eq_true _ _).1 hany
    obtain ⟨⟨pid', cmd⟩, htr, rfl⟩ := Option.map_eq_some_iff.1 h
    exact ⟨s, List.mem_of_getElem? hs, reply, cmd, hreply, hnot, htr⟩
  next => cases h

end Schedule

open Schedule Shard.Schedule in
/-- A transfer whose credit shard is led elsewhere is answered with a redirect after its prepare,
its decision and its outcome were appended to the debit shard. -/
theorem redirect_after_prepare : ∃ as t,
    Run (fun t a t' => shardTrailExec service ring t a = some t') {} as t ∧
    ∃ s ∈ t.submissions, ∃ reply pid cmd, s.reply = some reply ∧ reply.notLeader = true ∧
      s.transfer = some (pid, cmd) ∧ (pid, debitShard, 2) ∈ t.wrote
        ∧ (pid, debitShard, 3) ∈ t.wrote ∧
      (pid, debitShard, 4) ∈ t.wrote ∧ (t.shards.group debitShard).log.length = 4 := by
  obtain ⟨t, hrun, hcall, hwrote⟩ : ∃ t,
      Run (fun t a t' => shardTrailExec service ring t a = some t') {} creditElsewhere t ∧
      redirectedCall t.toShardWorld 2 = some 2 ∧ (2, debitShard, 2) ∈ t.wrote ∧
      (2, debitShard, 3) ∈ t.wrote ∧ (2, debitShard, 4) ∈ t.wrote ∧
      (t.shards.group debitShard).log.length = 4 := exists_run (by decide +kernel)
  obtain ⟨s, hs, reply, cmd, hreply, hnot, htr⟩ := submission_of_redirectedCall hcall
  exact ⟨_, t, hrun, s, hs, reply, 2, cmd, hreply, hnot, htr, hwrote⟩

open Schedule Shard.Schedule in
/-- A node that does not lead the debit shard redirects before it proposes anything. -/
theorem redirect_proposes_nothing_elsewhere : ∃ t,
    Run (fun t a t' => shardTrailExec service ring t a = some t' ∧ KeepsLead t a) {}
      debitElsewhere t ∧ ∃ s ∈ t.submissions, ∃ reply cmd, s.reply = some reply ∧
      reply.notLeader = true ∧ s.transfer = some (2, cmd) ∧ t.Untouched 2 := by
  obtain ⟨t, hrun, hcall⟩ : ∃ t,
      Run (fun t a t' => shardTrailExec service ring t a = some t' ∧ KeepsLead t a) {}
        debitElsewhere t ∧ redirectedCall t.toShardWorld 2 = some 2 :=
    exists_run_guarded (by decide +kernel)
  obtain ⟨s, hs, reply, cmd, hreply, hnot, htr⟩ := submission_of_redirectedCall hcall
  exact ⟨t, hrun, s, hs, reply, cmd, hreply, hnot, htr,
    redirect_proposes_nothing service ring hrun hs hreply hnot htr⟩

end Rpc

end CoreBank
