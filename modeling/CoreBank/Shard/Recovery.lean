import CoreBank.Shard.Replay

/-!
# Does recovery depend on the order of the shards?

`RecoverInDoubt` visits the groups in the order in which Go iterates over a map.  Visiting a group
makes its machine apply everything its log holds, and then settles what is in doubt there; the other
groups stay as they are.

## What is here

* `World.told`, `World.phaseAfter` — what each group answers, and in which phase its transactions
  are, after the groups of a list were visited one after the other: recovery without its steps;
* `Stage` — where a run of `RecoverInDoubt` with nothing else going on stands, and that it computes
  those two functions;
* `Steady` — what a coordinator group answers now is what it answers after it was visited — and
  `recovery_order_iff`: the order does not matter exactly if the groups are steady.
-/

set_option autoImplicit false

namespace CoreBank.Shard

open Ledger Hlc ActionSystem

/-! ## A group that has applied its log -/

/-- The machine once it has applied everything in the log. -/
def Group.drained (gr : Group) : Machine := replay gr.machine gr.applied (gr.log.drop gr.applied)

variable {gr : Group}

theorem Group.drained_of_applied (h : gr.log.length ≤ gr.applied) :
    gr.drained = gr.machine := by
  rw [Group.drained, List.drop_eq_nil_of_le h]
  rfl

theorem Group.drained_applyNext {gr' : Group} (h : gr.applyNext = some gr') :
    gr'.drained = gr.drained := by
  obtain ⟨c, hc, rfl⟩ := applyNext_eq_some h
  obtain ⟨hlt, hget⟩ := List.getElem?_eq_some_iff.1 hc
  rw [Group.drained, Group.drained, List.drop_eq_getElem_cons hlt, hget, replay]

theorem Group.drained_append (h : gr.applied ≤ gr.log.length) (c : Command) :
    Group.drained { gr with log := gr.log ++ [c] } = gr.drained.applyAt (gr.log.length + 1) c := by
  rw [Group.drained, Group.drained]
  dsimp only
  rw [List.drop_append_of_le_length h, replay_append, List.length_drop]
  congr 1
  omega

/-! ## Recovery without its steps -/

/-- Whom a group asks about a transaction, if the transaction is in doubt there and names a
coordinator among the groups. -/
def Group.asks (gr : Group) (groups : List ID) (id : TxID) : Option ID :=
  match gr.drained.tx id with
  | some r =>
    if r.phase = .prepared ∧ coordinatorOf r ≠ [] ∧ coordinatorOf r ∈ groups then
      some (coordinatorOf r)
    else none
  | none => none

section

variable (w : World) (groups : List ID)

/-- The decision a group knows after visits to some groups, the last one first. -/
def World.told : List ID → ID → TxID → Option Bool
  | [], k, id => (w.group k).machine.decision id
  | g :: rev, k, id =>
    if k = g then
      match (w.group g).asks groups id with
      | some x =>
        some ((if x = g then (w.group g).drained.decision id else told rev x id).getD false)
      | none => (w.group g).drained.decision id
    else told rev k id

/-- What a group that asks `x` about a transaction is told, when it is visited after some others. -/
def World.answer (rev : List ID) (g : ID) (id : TxID) (x : ID) : Bool :=
  (if x = g then (w.group g).drained.decision id else w.told groups rev x id).getD false

/-- The phase of a transaction at a group after the visits. -/
def World.phaseAfter : List ID → ID → TxID → Phase
  | [], k, id => (w.group k).machine.phase id
  | g :: rev, k, id =>
    if k = g then
      match (w.group g).asks groups id with
      | some x => if w.answer groups rev g id x then .committed else .aborted
      | none => (w.group g).drained.phase id
    else phaseAfter rev k id

/-- The decision a group knows when it was the first to be visited. -/
def World.settledDecision (k : ID) (id : TxID) : Option Bool :=
  match (w.group k).asks groups id with
  | some x =>
    some (((if x = k then (w.group k).drained else (w.group x).machine).decision id).getD false)
  | none => (w.group k).drained.decision id

/-- Every group that another one asks about a transaction answers now what it will answer once it
has been visited.  No decision means abort. -/
def World.Steady : Prop :=
  ∀ g k id, g ∈ groups → (w.group g).asks groups id = some k → k ≠ g →
    ((w.group k).machine.decision id).getD false = (w.settledDecision groups k id).getD false

end

variable {rev : List ID} {k : ID} {i : Nat} {m : Machine} {x : TxRecord} {todo : List TxID}
  {id : TxID}

section Order

variable {w : World} {groups : List ID}

/-- Only what a group has a record of, and only the groups, have to be looked at. -/
theorem World.steady_iff : w.Steady groups ↔
    ∀ g ∈ groups, ∀ id ∈ (w.group g).drained.txs.keys, ∀ k ∈ groups,
      (w.group g).asks groups id = some k → k ≠ g →
        ((w.group k).machine.decision id).getD false
          = (w.settledDecision groups k id).getD false := by
  constructor
  · exact fun h g hg id _ k _ hk hne => h g k id hg hk hne
  · intro h g k id hg hk hne
    have hask := hk
    rw [Group.asks, Machine.tx] at hask
    cases hl : (w.group g).drained.txs.lookup id with
    | none => rw [hl] at hask; cases hask
    | some x =>
      rw [hl] at hask
      dsimp only at hask
      split at hask
      next hc =>
        have hmem : id ∈ (w.group g).drained.txs.keys := AList.lookup_isSome.1 (hl ▸ rfl)
        exact h g hg id hmem k (Option.some.inj hask ▸ hc.2.2) hk hne
      next => cases hask

instance (w : World) (groups : List ID) : Decidable (w.Steady groups) :=
  decidable_of_iff _ World.steady_iff.symm

theorem World.told_of_notMem (h : k ∉ rev) (id : TxID) :
    w.told groups rev k id = (w.group k).machine.decision id := by
  induction rev with
  | nil => rfl
  | cons g rev ih =>
    rw [List.mem_cons, not_or] at h
    rw [World.told, if_neg h.1, ih h.2]

theorem World.phaseAfter_of_notMem (h : k ∉ rev) (id : TxID) :
    w.phaseAfter groups rev k id = (w.group k).machine.phase id := by
  induction rev with
  | nil => rfl
  | cons g rev ih =>
    rw [List.mem_cons, not_or] at h
    rw [World.phaseAfter, if_neg h.1, ih h.2]

theorem World.told_singleton (k : ID) (id : TxID) :
    w.told groups [k] k id = w.settledDecision groups k id := by
  rw [World.told, if_pos rfl, World.settledDecision]
  cases (w.group k).asks groups id with
  | none => rfl
  | some x =>
    dsimp only
    split <;> rfl

/-- Later visits to other groups do not change the phases of a group. -/
theorem World.phaseAfter_append {rev' : List ID} (h : k ∉ rev) (id : TxID) :
    w.phaseAfter groups (rev ++ rev') k id = w.phaseAfter groups rev' k id := by
  induction rev with
  | nil => rfl
  | cons g rev ih =>
    rw [List.mem_cons, not_or] at h
    rw [List.cons_append, World.phaseAfter, if_neg h.1, ih h.2]

/-- In a steady world a group that is asked always gives the answer it gives now. -/
theorem World.Steady.told (hs : w.Steady groups) (hrev : ∀ g ∈ rev, g ∈ groups) {g : ID}
    (hg : g ∈ groups) (hk : (w.group g).asks groups id = some k) (hne : k ≠ g) :
    (w.told groups rev k id).getD false = ((w.group k).machine.decision id).getD false := by
  induction rev generalizing g k with
  | nil => rfl
  | cons v rev ih =>
    rw [List.forall_mem_cons] at hrev
    rw [World.told]
    split
    next heq =>
      subst heq
      rw [hs g k id hg hk hne, World.settledDecision]
      cases hx : (w.group k).asks groups id with
      | none => rfl
      | some x =>
        dsimp only
        rw [Option.getD_some, Option.getD_some]
        split
        · rfl
        next hxk => exact ih hrev.2 hrev.1 hx hxk
    next => exact ih hrev.2 hg hk hne

/-- The phase a transaction ends up in at a group that is visited, in a steady world. -/
def World.finalPhase (w : World) (groups : List ID) (k : ID) (id : TxID) : Phase :=
  match (w.group k).asks groups id with
  | some x =>
    if ((if x = k then (w.group k).drained else (w.group x).machine).decision id).getD false then
      .committed
    else .aborted
  | none => (w.group k).drained.phase id

theorem World.Steady.phaseAfter (hs : w.Steady groups) (hrev : ∀ g ∈ rev, g ∈ groups)
    (hk : k ∈ rev) (id : TxID) : w.phaseAfter groups rev k id = w.finalPhase groups k id := by
  induction rev with
  | nil => cases hk
  | cons v rev ih =>
    rw [List.forall_mem_cons] at hrev
    rw [World.phaseAfter]
    split
    next heq =>
      subst heq
      rw [World.finalPhase]
      cases hx : (w.group k).asks groups id with
      | none => rfl
      | some x =>
        dsimp only
        rw [World.answer]
        split
        · rfl
        next hxk => rw [hs.told hrev.2 hrev.1 hx hxk]
    next hne => exact ih hrev.2 ((List.mem_cons.1 hk).resolve_left hne)

theorem ite_committed_inj {a b : Bool}
    (h : (if a then Phase.committed else .aborted) = if b then .committed else .aborted) :
    a = b := by
  cases a <;> cases b <;> first | rfl | cases h

/-- The order of the visits does not matter exactly in a steady world. -/
theorem World.phaseAfter_order_iff (hnodup : groups.Nodup) :
    (∀ rev rev', rev.Perm groups → rev'.Perm groups → ∀ k id,
        w.phaseAfter groups rev k id = w.phaseAfter groups rev' k id) ↔ w.Steady groups := by
  constructor
  · intro h g k id hg hk hne
    have hkg : k ∈ groups := by
      rw [Group.asks] at hk
      split at hk
      · split at hk
        next hc => exact Option.some.inj hk ▸ hc.2.2
        next => cases hk
      · cases hk
    have hkerase : k ∈ groups.erase g := (List.mem_erase_of_ne hne).2 hkg
    -- visit `g` first, or `k` and then `g`; the others come later
    have hfirst : (groups.erase g ++ [g]).Perm groups :=
      List.perm_append_comm.trans (List.perm_cons_erase hg).symm
    have hsecond : ((groups.erase g).erase k ++ [g, k]).Perm groups := by
      refine List.perm_append_comm.trans ?_
      have hk' : (k :: (groups.erase g).erase k).Perm (groups.erase g) :=
        (List.perm_cons_erase hkerase).symm
      exact (hk'.cons g).trans (List.perm_cons_erase hg).symm
    have hgnot : g ∉ groups.erase g := hnodup.not_mem_erase
    have hgnot' : g ∉ (groups.erase g).erase k := fun hm => hgnot (List.mem_of_mem_erase hm)
    have heq := h _ _ hfirst hsecond g id
    rw [World.phaseAfter_append hgnot, World.phaseAfter_append hgnot', World.phaseAfter,
      if_pos rfl, World.phaseAfter, if_pos rfl, hk] at heq
    dsimp only at heq
    have hbool := ite_committed_inj heq
    rw [World.answer, World.answer, if_neg hne, if_neg hne, World.told_singleton] at hbool
    exact hbool
  · intro hs rev rev' hp hp' k id
    by_cases hk : k ∈ groups
    · rw [hs.phaseAfter (fun g hg => hp.subset hg) (hp.mem_iff.2 hk),
        hs.phaseAfter (fun g hg => hp'.subset hg) (hp'.mem_iff.2 hk)]
    · rw [World.phaseAfter_of_notMem (fun hm => hk (hp.subset hm)),
        World.phaseAfter_of_notMem fun hm => hk (hp'.subset hm)]

/-! ## Runs of recovery alone -/

/-- The world in which recovery begins, with nothing else going on. -/
def World.recovering (w : World) (groups : List ID) : World :=
  { w with procs := [{ task := .recover { groups := groups, remaining := groups } .groupLoop }] }

/-- All groups are led by this node, no proposal fails, and a group applies entries only while
recovery waits for one of them. -/
def Quiet (w : World) : Action → Prop
  | .propose _ .append | .report _ | .scan _ _ | .next _ => True
  | .visit _ _ isLeader | .ask _ isLeader => isLeader = true
  | .apply g => ∃ p ∈ w.procs, p.wait.map Prod.fst = some g
  | .propose _ (.fail _ _) | .transfer _ _ _ _ | .recover _ | .timeout _ _ _ | .crash _ => False

instance (w : World) : DecidablePred (Quiet w)
  | .propose _ .append | .report _ | .scan _ _ | .next _ => inferInstanceAs (Decidable True)
  | .visit _ _ isLeader | .ask _ isLeader => inferInstanceAs (Decidable (isLeader = true))
  | .apply g => inferInstanceAs (Decidable (∃ p ∈ w.procs, p.wait.map Prod.fst = some g))
  | .propose _ (.fail _ _) | .transfer _ _ _ _ | .recover _ | .timeout _ _ _ | .crash _ =>
    inferInstanceAs (Decidable False)

/-- `RecoverInDoubt`, started in `w₀`, has returned in `w`. -/
def Completes (shardFor : AccountID → ID) (w₀ : World) (groups : List ID) (w : World) : Prop :=
  ∃ as r n err, Run (fun w a w' => exec shardFor w a = some w' ∧ Quiet w a)
    (w₀.recovering groups) as w
    ∧ w.procs = [{ task := .recover r (.returned n err) }]

section Stages

variable (w₀ : World) (groups : List ID)

/-- Groups that were visited are as foretold, and the others as they were, but for the current
one. -/
structure Frame (rev : List ID) (cur : Option ID) (w : World) : Prop where
  nodup : groups.Nodup
  applied_le : ∀ g, (w₀.group g).applied ≤ (w₀.group g).log.length
  visited : ∀ k ∈ rev, ∀ id, (w.group k).machine.decision id = w₀.told groups rev k id
    ∧ (w.group k).machine.phase id = w₀.phaseAfter groups rev k id
  others : ∀ k, k ∉ rev → cur ≠ some k → w.group k = w₀.group k

/-- The machine of the current group, some of whose transactions are still to be settled. -/
structure Partway (rev : List ID) (g : ID) (todo : List TxID) (m : Machine) : Prop where
  nodup : todo.Nodup
  ahead : ∀ id ∈ todo, m.txs.lookup id = (w₀.group g).drained.txs.lookup id ∧ m.phase id = .prepared
  done : ∀ id ∉ todo, m.decision id = w₀.told groups (g :: rev) g id
    ∧ m.phase id = w₀.phaseAfter groups (g :: rev) g id

/-- Between two groups. -/
structure Idle (rev : List ID) (r : Recovery) (w : World) : Prop where
  among : r.groups = groups
  perm : (rev ++ r.remaining).Perm groups
  frame : Frame w₀ groups rev none w

/-- At the group `g`. -/
structure Busy (rev : List ID) (r : Recovery) (g : ID) (w : World) : Prop where
  among : r.groups = groups
  perm : (g :: (rev ++ r.remaining)).Perm groups
  frame : Frame w₀ groups rev (some g) w
  applied_le : (w.group g).applied ≤ (w.group g).log.length

/-- Where recovery stands after the visits `rev`. -/
inductive Stage (w : World) (rev : List ID) (r : Recovery) : RecoverPc → Option (ID × Nat) → Prop
  | groupLoop (h : Idle w₀ groups rev r w) : Stage w rev r .groupLoop none
  | catchUp {g : ID} (h : Busy w₀ groups rev r g w) (hg : w.group g = w₀.group g) :
      Stage w rev r (.catchUp g) none
  | catchingUp {g : ID} {i : Nat} (h : Busy w₀ groups rev r g w) (hi : i = (w.group g).log.length)
      (hd : (w.group g).drained.txs = (w₀.group g).drained.txs) :
      Stage w rev r (.catchUp g) (some (g, i))
  | scan {g : ID} (h : Busy w₀ groups rev r g w)
      (happ : (w.group g).log.length ≤ (w.group g).applied)
      (hd : (w.group g).machine.txs = (w₀.group g).drained.txs) : Stage w rev r (.scan g) none
  | txLoop {g : ID} {todo : List TxID} (h : Busy w₀ groups rev r g w)
      (happ : (w.group g).log.length ≤ (w.group g).applied)
      (hp : Partway w₀ groups rev g todo (w.group g).machine) : Stage w rev r (.txLoop g todo) none
  | ask {g : ID} {todo : List TxID} {id : TxID} {x : TxRecord} (h : Busy w₀ groups rev r g w)
      (happ : (w.group g).log.length ≤ (w.group g).applied)
      (hp : Partway w₀ groups rev g (id :: todo) (w.group g).machine)
      (hx : (w.group g).machine.txs.lookup id = some x) : Stage w rev r (.ask g todo id x) none
  | settle {g : ID} {todo : List TxID} {id : TxID} {x : TxRecord} {k : ID} {commit : Bool}
      (h : Busy w₀ groups rev r g w) (happ : (w.group g).log.length ≤ (w.group g).applied)
      (hp : Partway w₀ groups rev g (id :: todo) (w.group g).machine)
      (hx : (w.group g).machine.txs.lookup id = some x) (hk : (w₀.group g).asks groups id = some k)
      (hc : commit = w₀.answer groups rev g id k) :
      Stage w rev r (.settle g todo id x k commit) none
  | settling {g : ID} {todo : List TxID} {id : TxID} {x : TxRecord} {k : ID}
      {commit : Bool} {i : Nat}
      (h : Busy w₀ groups rev r g w) (hi : i = (w.group g).log.length)
      (hp : Partway w₀ groups rev g todo (w.group g).drained) :
      Stage w rev r (.settle g todo id x k commit) (some (g, i))
  | returned {n : Nat} {err : Option RecoverError} (h : Idle w₀ groups rev r w)
      (hrem : r.remaining = []) : Stage w rev r (.returned n err) none

/-- Recovery runs alone, and stands there. -/
structure At (w : World) (rev : List ID) (r : Recovery) (pc : RecoverPc)
    (wait : Option (ID × Nat)) : Prop where
  procs : w.procs = [{ task := .recover r pc, wait := wait }]
  stage : Stage w₀ groups w rev r pc wait

end Stages

/-! ## One step after the other

Each lemma says what an action does where it is expected, and where recovery stands afterwards. -/

section Forward

variable (shardFor : AccountID → ID) {w₀ w : World} {groups rev : List ID} {r : Recovery} {g : ID}

theorem Busy.notMem (h : Busy w₀ groups rev r g w) : g ∉ rev := by
  have hn : (g :: (rev ++ r.remaining)).Nodup := h.perm.nodup_iff.2 h.frame.nodup
  exact fun hm => (List.nodup_cons.1 hn).1 (List.mem_append_left _ hm)

theorem Frame.setProc {cur : Option ID} (h : Frame w₀ groups rev cur w) (p : Proc) :
    Frame w₀ groups rev cur (w.setProc 0 p) := { h with }

theorem Frame.setGroup (h : Frame w₀ groups rev (some g) w) (hg : g ∉ rev) (gr : Group) :
    Frame w₀ groups rev (some g) (w.setGroup g gr) where
  nodup := h.nodup
  applied_le := h.applied_le
  visited k hk id := by
    have hkg : k ≠ g := fun e => hg (e ▸ hk)
    rw [group_setGroup_ne w gr hkg]
    exact h.visited k hk id
  others k hk hne := by
    have hkg : k ≠ g := fun e => hne (congrArg some e.symm)
    rw [group_setGroup_ne w gr hkg]
    exact h.others k hk hne

theorem Busy.setProc (h : Busy w₀ groups rev r g w) (p : Proc) :
    Busy w₀ groups rev r g (w.setProc 0 p) :=
  { h with frame := h.frame.setProc p }

theorem Busy.setGroup (h : Busy w₀ groups rev r g w)
    (happ : gr.applied ≤ gr.log.length) : Busy w₀ groups rev r g (w.setGroup g gr) where
  among := h.among
  perm := h.perm
  frame := h.frame.setGroup h.notMem gr
  applied_le := by rwa [group_setGroup_self]

theorem procs_set {p p' : Proc} (h : w.procs = [p]) : (w.setProc 0 p').procs = [p'] := by
  rw [World.setProc, h]
  rfl

theorem Idle.phase (h : Idle w₀ groups rev r w) (g : ID) (id : TxID) :
    (w.group g).machine.phase id = w₀.phaseAfter groups rev g id := by
  by_cases hg : g ∈ rev
  · exact (h.frame.visited g hg id).2
  · rw [h.frame.others g hg fun h => by (cases h), World.phaseAfter_of_notMem hg]

theorem Idle.notMem (h : Idle w₀ groups rev r w) (hg : g ∈ r.remaining) : g ∉ rev := by
  have hn : (rev ++ r.remaining).Nodup := h.perm.nodup_iff.2 h.frame.nodup
  exact fun hm => (List.nodup_append.1 hn).2.2 g hm g hg rfl

theorem At.visit (h : At w₀ groups w rev r .groupLoop none) (hg : g ∈ r.remaining) :
    ∃ w', exec shardFor w (.visit 0 g true) = some w'
      ∧ At w₀ groups w' rev { r with remaining := r.remaining.erase g } (.catchUp g) none := by
  refine ⟨w.setProc 0
    ⟨.recover { r with remaining := r.remaining.erase g } (.catchUp g), none, true⟩,
    ?_, procs_set h.procs, ?_⟩
  · simp [exec, Action.pid?, h.procs, procStep, localStep, Recovery.visit, hg]
  cases h.stage with
  | groupLoop hi =>
    have hsame : w.group g = w₀.group g :=
      hi.frame.others g (hi.notMem hg) fun h => by cases h
    have hperm : (g :: (rev ++ r.remaining.erase g)).Perm (rev ++ r.remaining) :=
      List.perm_middle.symm.trans ((List.perm_cons_erase hg).symm.append_left rev)
    refine .catchUp ⟨hi.among, hperm.trans hi.perm, { hi.frame with
      others := fun k hk _ => hi.frame.others k hk fun h => by (cases h) }, ?_⟩ hsame
    rw [group_setProc, hsame]
    exact hi.frame.applied_le g

theorem txs_apply_noop (m : Machine) (i : Nat) {c : Command} (hop : c.op = .single) :
    (m.applyAt i c).txs = m.txs := by
  rw [Machine.applyAt, Machine.apply, hop]
  exact Machine.txs_recordResult _ _ _

/-- The world after the lone process proposed `c` to `g`. -/
def World.proposed (w : World) (t : Task) (g : ID) (c : Command) : World :=
  (w.setGroup g { w.group g with log := (w.group g).log ++ [c] }).setProc 0
    { task := t, wait := some (g, (w.group g).log.length + 1) }

theorem exec_propose {t : Task} {c : Command} (hp : w.procs = [{ task := t }])
    (hreq : t.request shardFor = some (g, c)) :
    exec shardFor w (.propose 0 .append) = some (w.proposed t g c) := by
  simp [exec, Action.pid?, hp, procStep, hreq, World.proposed]

theorem exec_report {t : Task} (hp : w.procs = [{ task := t, wait := some (g, i) }])
    (hi : i ≤ (w.group g).applied) :
    exec shardFor w (.report 0) = some (w.setProc 0
      { task := t.onReply shardFor w.group
          { res := (w.group g).machine.appliedResult i, isLeader := true } }) := by
  simp [exec, Action.pid?, hp, procStep, hi]

theorem group_proposed_self (t : Task) (c : Command) :
    (w.proposed t g c).group g = { w.group g with log := (w.group g).log ++ [c] } :=
  group_setGroup_self _ _ _

theorem Busy.proposed (h : Busy w₀ groups rev r g w) (t : Task) (c : Command) :
    Busy w₀ groups rev r g (w.proposed t g c)
      ∧ (w.group g).log.length + 1 = ((w.proposed t g c).group g).log.length
      ∧ ((w.proposed t g c).group g).drained =
          (w.group g).drained.applyAt ((w.group g).log.length + 1) c := by
  have happ := h.applied_le
  refine ⟨(h.setGroup ?_).setProc _, ?_, ?_⟩
  · dsimp only
    rw [List.length_append]
    omega
  · rw [group_proposed_self, List.length_append]
    rfl
  · rw [group_proposed_self, Group.drained_append happ]

theorem At.proposeCatchUp (h : At w₀ groups w rev r (.catchUp g) none) :
    ∃ w' i, exec shardFor w (.propose 0 .append) = some w'
      ∧ At w₀ groups w' rev r (.catchUp g) (some (g, i)) := by
  refine ⟨_, _, exec_propose shardFor h.procs rfl, procs_set h.procs, ?_⟩
  cases h.stage with
  | catchUp hb hg =>
    obtain ⟨hb', hlen, hd⟩ := hb.proposed (.recover r (.catchUp g))
      { op := .single, txID := [], ledger := noCommand, commit := false, debit := false,
        participants := [], coordinator := [] }
    exact .catchingUp hb' hlen (by rw [hd, txs_apply_noop _ _ rfl, hg])

/-- While recovery waits, the group it waits for applies its log. -/
theorem At.apply {pc : RecoverPc} (h : At w₀ groups w rev r pc (some (g, i)))
    (happ : (w.group g).applyNext = some gr) :
    exec shardFor w (.apply g) = some (w.setGroup g gr)
      ∧ At w₀ groups (w.setGroup g gr) rev r pc (some (g, i)) := by
  have hdr := Group.drained_applyNext happ
  have hlog : gr.log = (w.group g).log ∧ gr.applied ≤ gr.log.length := by
    obtain ⟨c, hc, rfl⟩ := applyNext_eq_some happ
    exact ⟨rfl, (List.getElem?_eq_some_iff.1 hc).1⟩
  refine ⟨by simp [exec, Action.pid?, happ], h.procs, ?_⟩
  cases h.stage with
  | catchingUp hb hi hd =>
    refine .catchingUp (hb.setGroup hlog.2) ?_ ?_ <;> rw [group_setGroup_self]
    · rw [hlog.1, hi]
    · rw [hdr, hd]
  | settling hb hi hp =>
    refine .settling (hb.setGroup hlog.2) ?_ ?_ <;> rw [group_setGroup_self]
    · rw [hlog.1, hi]
    · rw [hdr]
      exact hp

theorem At.reportCatchUp (h : At w₀ groups w rev r (.catchUp g) (some (g, i)))
    (hi : i ≤ (w.group g).applied) :
    ∃ w', exec shardFor w (.report 0) = some w' ∧ At w₀ groups w' rev r (.scan g) none := by
  refine ⟨_, exec_report shardFor h.procs hi, procs_set h.procs, ?_⟩
  cases h.stage with
  | catchingUp hb hlen hd =>
    have happ : (w.group g).log.length ≤ (w.group g).applied := hlen ▸ hi
    rw [Group.drained_of_applied happ] at hd
    exact .scan (hb.setProc _) happ hd

theorem lookup_of_prepared (h : m.phase id = .prepared) :
    ∃ x, m.txs.lookup id = some x ∧ x.phase = .prepared := by
  rw [Machine.phase] at h
  cases hl : m.txs.lookup id with
  | none => rw [hl] at h; cases h
  | some x => rw [hl] at h; exact ⟨x, rfl, h⟩

theorem Machine.mem_inDoubt :
    id ∈ m.inDoubt ↔ m.phase id = .prepared := by
  rw [Machine.inDoubt, List.mem_map]
  constructor
  · rintro ⟨⟨k, x⟩, hx, rfl⟩
    obtain ⟨hmem, hp⟩ := List.mem_filter.1 hx
    have hl : m.txs.lookup k = some x := AList.mem_lookup_iff.2 hmem
    rw [Machine.phase, hl]
    exact of_decide_eq_true hp
  · intro hp
    obtain ⟨x, hl, hp⟩ := lookup_of_prepared hp
    exact ⟨⟨id, x⟩, List.mem_filter.2 ⟨AList.mem_lookup_iff.1 hl, decide_eq_true hp⟩, rfl⟩

theorem Machine.nodup_inDoubt (m : Machine) : m.inDoubt.Nodup :=
  m.txs.keys_nodup.sublist (List.filter_sublist.map Sigma.fst)

theorem Group.asks_of_settled (h : gr.drained.phase id ≠ .prepared) :
    gr.asks groups id = none := by
  rw [Group.asks, Machine.tx]
  rw [Machine.phase] at h
  cases hl : gr.drained.txs.lookup id with
  | none => rfl
  | some x =>
    rw [hl] at h
    exact if_neg fun hc => h hc.1

theorem Group.asks_of_prepared (hl : gr.drained.txs.lookup id = some x) (hp : x.phase = .prepared) :
    gr.asks groups id =
      if coordinatorOf x ≠ [] ∧ coordinatorOf x ∈ groups then some (coordinatorOf x) else none := by
  rw [Group.asks, Machine.tx, hl]
  simp only [hp, true_and]

/-- A transaction about which nobody is asked stays as the log of its group has it. -/
theorem World.told_unasked (h : (w₀.group g).asks groups id = none) :
    w₀.told groups (g :: rev) g id = (w₀.group g).drained.decision id
      ∧ w₀.phaseAfter groups (g :: rev) g id = (w₀.group g).drained.phase id := by
  rw [World.told, World.phaseAfter, if_pos rfl, if_pos rfl, h]
  exact ⟨rfl, rfl⟩

theorem World.told_asked (h : (w₀.group g).asks groups id = some k) :
    w₀.told groups (g :: rev) g id = some (w₀.answer groups rev g id k)
      ∧ w₀.phaseAfter groups (g :: rev) g id =
          if w₀.answer groups rev g id k then .committed else .aborted := by
  rw [World.told, World.phaseAfter, if_pos rfl, if_pos rfl, h]
  exact ⟨rfl, rfl⟩

theorem decision_of_txs {m' : Machine} (h : m.txs = m'.txs) (id : TxID) :
    m.decision id = m'.decision id ∧ m.phase id = m'.phase id := by
  rw [Machine.decision, Machine.decision, Machine.phase, Machine.phase, h]
  exact ⟨rfl, rfl⟩

theorem partway_start {order : List TxID} (hd : m.txs = (w₀.group g).drained.txs)
    (ho : order.Perm m.inDoubt) : Partway w₀ groups rev g order m where
  nodup := ho.nodup_iff.2 m.nodup_inDoubt
  ahead id hid := ⟨by rw [hd], Machine.mem_inDoubt.1 (ho.subset hid)⟩
  done id hid := by
    obtain ⟨hdec, hph⟩ := decision_of_txs hd id
    have hnot : (w₀.group g).drained.phase id ≠ .prepared := by
      rw [← hph]
      exact fun hp => hid (ho.mem_iff.2 (Machine.mem_inDoubt.2 hp))
    have hasks : (w₀.group g).asks groups id = none := Group.asks_of_settled hnot
    exact ⟨hdec.trans (World.told_unasked hasks).1.symm,
      hph.trans (World.told_unasked hasks).2.symm⟩

theorem At.scan {order : List TxID} (h : At w₀ groups w rev r (.scan g) none)
    (ho : order.isPerm (w.group g).machine.inDoubt = true) :
    ∃ w', exec shardFor w (.scan 0 order) = some w' ∧ At w₀ groups w' rev r
      (.txLoop g order) none := by
  refine ⟨w.setProc 0 { task := .recover r (.txLoop g order) }, ?_, procs_set h.procs, ?_⟩
  · simp [exec, Action.pid?, h.procs, procStep, localStep, ho]
  cases h.stage with
  | scan hb happ hd =>
    exact .txLoop (hb.setProc _) happ (partway_start hd (List.isPerm_iff.1 ho))

/-- The last transaction of a group is settled, and so the group is. -/
theorem Busy.finish (hb : Busy w₀ groups rev r g w)
    (hp : Partway w₀ groups rev g [] (w.group g).machine) : Idle w₀ groups (g :: rev) r w where
  among := hb.among
  perm := hb.perm
  frame := by
    refine ⟨hb.frame.nodup, hb.frame.applied_le, fun k hk id => ?_, fun k hk _ => ?_⟩
    · by_cases hkg : k = g
      · subst hkg
        exact hp.done id (List.not_mem_nil)
      · rw [World.told, World.phaseAfter, if_neg hkg, if_neg hkg]
        exact hb.frame.visited k ((List.mem_cons.1 hk).resolve_left hkg) id
    · rw [List.mem_cons, not_or] at hk
      exact hb.frame.others k hk.2 fun e => hk.1 (Option.some.inj e).symm

theorem At.nextGroup (h : At w₀ groups w rev r (.txLoop g []) none) :
    ∃ w', exec shardFor w (.next 0) = some w' ∧ At w₀ groups w' (g :: rev) r .groupLoop none := by
  refine ⟨w.setProc 0 { task := .recover r .groupLoop }, ?_, procs_set h.procs, ?_⟩
  · simp [exec, Action.pid?, h.procs, procStep, localStep, Recovery.next]
  cases h.stage with
  | txLoop hb happ hp => exact .groupLoop ((hb.setProc _).finish hp)

theorem At.nextTx (h : At w₀ groups w rev r (.txLoop g (id :: todo)) none) :
    ∃ w' x, exec shardFor w (.next 0) = some w' ∧ At w₀ groups w' rev r
      (.ask g todo id x) none := by
  cases h.stage with
  | txLoop hb happ hp =>
    obtain ⟨x, hx, -⟩ := lookup_of_prepared (hp.ahead id List.mem_cons_self).2
    refine ⟨w.setProc 0 { task := .recover r (.ask g todo id x) }, x, ?_, procs_set h.procs,
      .ask (hb.setProc _) happ hp hx⟩
    simp [exec, Action.pid?, h.procs, procStep, localStep, Recovery.next, Machine.tx, hx]

theorem Partway.tail {m' : Machine} (h : Partway w₀ groups rev g (id :: todo) m)
    (hothers : ∀ id', id' ≠ id → m'.txs.lookup id' = m.txs.lookup id')
    (hd : m'.decision id = w₀.told groups (g :: rev) g id)
    (hp : m'.phase id = w₀.phaseAfter groups (g :: rev) g id) :
    Partway w₀ groups rev g todo m' where
  nodup := (List.nodup_cons.1 h.nodup).2
  ahead id' hid := by
    have hne : id' ≠ id := fun e => (List.nodup_cons.1 h.nodup).1 (e ▸ hid)
    have hahead := h.ahead id' (List.mem_cons_of_mem id hid)
    rw [Machine.phase, hothers id' hne]
    exact hahead
  done id' hid := by
    by_cases hne : id' = id
    · subst hne
      exact ⟨hd, hp⟩
    · rw [Machine.decision, Machine.phase, hothers id' hne]
      exact h.done id' fun hm => hid ((List.mem_cons.1 hm).resolve_left hne)

/-- What the coordinator group answers is what was foretold. -/
theorem Busy.decision_eq (hb : Busy w₀ groups rev r g w)
    (hown : (w.group g).machine.txs.lookup id = (w₀.group g).drained.txs.lookup id) :
    ((w.group k).machine.decision id).getD false = w₀.answer groups rev g id k := by
  rw [World.answer]
  split
  next hkg =>
    subst hkg
    rw [Machine.decision, Machine.decision, hown]
  next hkg =>
    by_cases hk : k ∈ rev
    · rw [(hb.frame.visited k hk id).1]
    · rw [hb.frame.others k hk fun e => hkg (Option.some.inj e).symm, World.told_of_notMem hk]

theorem At.ask (h : At w₀ groups w rev r (.ask g todo id x) none) :
    ∃ w', exec shardFor w (.ask 0 true) = some w'
      ∧ ((∃ n, At w₀ groups w' rev { r with blocked := n } (.txLoop g todo) none)
        ∨ ∃ k commit, At w₀ groups w' rev r (.settle g todo id x k commit) none) := by
  cases h.stage with
  | ask hb happ hp hx =>
    obtain ⟨hown, hph⟩ := hp.ahead id List.mem_cons_self
    have hxp : x.phase = .prepared := by rwa [Machine.phase, hx] at hph
    have hasks : (w₀.group g).asks groups id = _ := Group.asks_of_prepared (hown ▸ hx) hxp
    have hex : exec shardFor w (.ask 0 true) =
        some (w.setProc 0 { task := r.ask w.group g todo id x true }) := by
      simp [exec, Action.pid?, h.procs, procStep, localStep]
    refine ⟨_, hex, ?_⟩
    by_cases hc : coordinatorOf x ≠ [] ∧ coordinatorOf x ∈ groups
    · rw [if_pos hc] at hasks
      have hask : r.ask w.group g todo id x true = .recover r (.settle g todo id x (coordinatorOf x)
          (((w.group (coordinatorOf x)).machine.decision id).getD false)) := by
        simp [Recovery.ask, hc.1, hb.among, hc.2]
      rw [hask]
      exact .inr ⟨_, _, procs_set h.procs,
        .settle (hb.setProc _) happ hp hx hasks (hb.decision_eq hown)⟩
    · rw [if_neg hc] at hasks
      have hask : r.ask w.group g todo id x true =
          .recover { r with blocked := r.blocked + 1 } (.txLoop g todo) := by
        rw [Recovery.ask, if_pos]
        rw [hb.among]
        by_cases hnil : coordinatorOf x = []
        · exact .inl hnil
        · exact .inr (.inl fun hm => hc ⟨hnil, hm⟩)
      rw [hask]
      have htold : w₀.told groups (g :: rev) g id = _ := (World.told_unasked hasks).1
      have hafter : w₀.phaseAfter groups (g :: rev) g id = _ := (World.told_unasked hasks).2
      have hsame : (w.group g).machine.decision id = (w₀.group g).drained.decision id
          ∧ (w.group g).machine.phase id = (w₀.group g).drained.phase id := by
        rw [Machine.decision, Machine.phase, hown]
        exact ⟨rfl, rfl⟩
      refine .inl ⟨_, procs_set h.procs,
        .txLoop ⟨hb.among, hb.perm, hb.frame.setProc _, hb.applied_le⟩
        happ (hp.tail (fun _ _ => rfl) (hsame.1.trans htold.symm) (hsame.2.trans hafter.symm))⟩

theorem settled_by_outcome {c : Command} (i : Nat) (hop : c.op = .outcome)
    (hx : m.txs.lookup c.txID = some x) (hp : x.phase = .prepared) :
    (m.applyAt i c).decision c.txID = some c.commit
      ∧ (m.applyAt i c).phase c.txID = if c.commit then .committed else .aborted := by
  have hnt : ¬ x.phase.terminal := by rw [hp]; decide
  rw [Machine.decision, Machine.phase, Machine.lookup_applyAt, Machine.apply, hop]
  dsimp only
  rw [Machine.applyOutcome, hx]
  dsimp only
  rw [if_neg hnt, AList.lookup_insert]
  exact ⟨rfl, rfl⟩

theorem At.proposeSettle {commit : Bool}
    (h : At w₀ groups w rev r (.settle g todo id x k commit) none) :
    ∃ w' i, exec shardFor w (.propose 0 .append) = some w'
      ∧ At w₀ groups w' rev r (.settle g todo id x k commit) (some (g, i)) := by
  refine ⟨_, _, exec_propose shardFor h.procs rfl, procs_set h.procs, ?_⟩
  cases h.stage with
  | settle hb happ hp hx hk hc =>
    obtain ⟨hb', hlen, hd⟩ := hb.proposed (.recover r (.settle g todo id x k commit))
      { op := .outcome, txID := id, ledger := x.cmd, commit := commit, debit := x.debit,
        participants := x.participants, coordinator := k }
    have hph := (hp.ahead id List.mem_cons_self).2
    have hxp : x.phase = .prepared := by rwa [Machine.phase, hx] at hph
    refine .settling hb' hlen ?_
    rw [hd, Group.drained_of_applied happ]
    obtain ⟨hdec, hphase⟩ := settled_by_outcome (m := (w.group g).machine)
      (c := { op := .outcome, txID := id, ledger := x.cmd, commit := commit, debit := x.debit,
              participants := x.participants, coordinator := k })
      ((w.group g).log.length + 1) rfl hx hxp
    refine hp.tail (fun id' hne => ?_) ?_ ?_
    · rw [Machine.lookup_applyAt]
      exact (w.group g).machine.lookup_apply_ne hne
    · rw [hdec, (World.told_asked hk).1, hc]
    · rw [hphase, (World.told_asked hk).2, hc]

theorem At.reportSettle {commit : Bool}
    (h : At w₀ groups w rev r (.settle g todo id x k commit) (some (g, i)))
    (hi : i ≤ (w.group g).applied) :
    ∃ w' n, exec shardFor w (.report 0) = some w'
      ∧ At w₀ groups w' rev { r with resolved := n } (.txLoop g todo) none := by
  refine ⟨_, _, exec_report shardFor h.procs hi, procs_set h.procs, ?_⟩
  cases h.stage with
  | settling hb hlen hp =>
    have happ : (w.group g).log.length ≤ (w.group g).applied := hlen ▸ hi
    rw [Group.drained_of_applied happ] at hp
    exact .txLoop ⟨hb.among, hb.perm, hb.frame.setProc _, hb.applied_le⟩ happ hp

theorem At.finish (g : ID) (h : At w₀ groups w rev r .groupLoop none) (hr : r.remaining = []) :
    ∃ w' n err, exec shardFor w (.visit 0 g true) = some w'
      ∧ At w₀ groups w' rev r (.returned n err) none := by
  refine ⟨w.setProc 0 { task := .recover r r.finish }, _, _, ?_, procs_set h.procs, ?_⟩
  · simp [exec, Action.pid?, h.procs, procStep, localStep, Recovery.visit, hr]
  cases h.stage with
  | groupLoop hi => exact .returned ⟨hi.among, hi.perm, hi.frame.setProc _⟩ hr

/-! ## Whole runs -/

theorem pid_eq_zero {a : Action} {w' : World} {p : Proc} {pid : Nat} (hp : w.procs = [p])
    (ha : a.pid? = some pid) (hs : exec shardFor w a = some w') : pid = 0 := by
  obtain ⟨q, hq, -⟩ := exec_proc ha hs
  rw [hp] at hq
  cases pid with
  | zero => rfl
  | succ n => cases hq

/-- Every step of a quiet run leads from one stage to another. -/
theorem At.step {pc : RecoverPc} {wait : Option (ID × Nat)} {a : Action} {w' : World}
    (h : At w₀ groups w rev r pc wait) (hs : exec shardFor w a = some w') (hq : Quiet w a) :
    ∃ rev' r' pc' wait', At w₀ groups w' rev' r' pc' wait' := by
  have hdone {rev' : List ID} {r' : Recovery} {pc' : RecoverPc} {wait' : Option (ID × Nat)}
      (hw : ∃ w'', exec shardFor w a = some w'' ∧ At w₀ groups w'' rev' r' pc' wait') :
      ∃ rev' r' pc' wait', At w₀ groups w' rev' r' pc' wait' := by
    obtain ⟨w'', hs', hat⟩ := hw
    obtain rfl := Option.some.inj (hs.symm.trans hs')
    exact ⟨_, _, _, _, hat⟩
  cases a with
  | visit pid g' lead =>
    obtain rfl := pid_eq_zero shardFor h.procs rfl hs
    obtain rfl : lead = true := hq
    cases hst : h.stage with
    | groupLoop hi =>
      by_cases hg : g' ∈ r.remaining
      · exact hdone (h.visit shardFor hg)
      · by_cases hr : r.remaining = []
        · obtain ⟨w'', n, err, hs', hat⟩ := h.finish shardFor g' hr
          exact hdone ⟨w'', hs', hat⟩
        · simp [exec, Action.pid?, h.procs, procStep, localStep, Recovery.visit, hg, hr] at hs
    | _ => simp [exec, Action.pid?, h.procs, procStep, localStep] at hs
  | propose pid start =>
    obtain rfl := pid_eq_zero shardFor h.procs rfl hs
    cases start with
    | fail => exact hq.elim
    | append =>
      cases hst : h.stage with
      | catchUp =>
        obtain ⟨w'', i, hs', hat⟩ := h.proposeCatchUp shardFor
        exact hdone ⟨w'', hs', hat⟩
      | settle =>
        obtain ⟨w'', i, hs', hat⟩ := h.proposeSettle shardFor
        exact hdone ⟨w'', hs', hat⟩
      | _ => simp [exec, Action.pid?, h.procs, procStep, Task.request, RecoverPc.request] at hs
  | report pid =>
    obtain rfl := pid_eq_zero shardFor h.procs rfl hs
    have hreached {g : ID} {i : Nat} (hw : wait = some (g, i)) : i ≤ (w.group g).applied := by
      by_contra hlt
      simp [exec, Action.pid?, h.procs, procStep, hw, hlt] at hs
    cases hst : h.stage with
    | catchingUp => exact hdone (h.reportCatchUp shardFor (hreached rfl))
    | settling =>
      obtain ⟨w'', n, hs', hat⟩ := h.reportSettle shardFor (hreached rfl)
      exact hdone ⟨w'', hs', hat⟩
    | _ => simp [exec, Action.pid?, h.procs, procStep] at hs
  | scan pid order =>
    obtain rfl := pid_eq_zero shardFor h.procs rfl hs
    cases hst : h.stage with
    | @scan g =>
      by_cases ho : order.isPerm (w.group g).machine.inDoubt = true
      · exact hdone (h.scan shardFor ho)
      · simp [exec, Action.pid?, h.procs, procStep, localStep, ho] at hs
    | _ => simp [exec, Action.pid?, h.procs, procStep, localStep] at hs
  | next pid =>
    obtain rfl := pid_eq_zero shardFor h.procs rfl hs
    cases hst : h.stage with
    | @txLoop g todo =>
      cases todo with
      | nil => exact hdone (h.nextGroup shardFor)
      | cons id todo =>
        obtain ⟨w'', x, hs', hat⟩ := h.nextTx shardFor
        exact hdone ⟨w'', hs', hat⟩
    | _ => simp [exec, Action.pid?, h.procs, procStep, localStep] at hs
  | ask pid lead =>
    obtain rfl := pid_eq_zero shardFor h.procs rfl hs
    obtain rfl : lead = true := hq
    cases hst : h.stage with
    | ask =>
      obtain ⟨w'', hs', hat | hat⟩ := h.ask shardFor
      · obtain ⟨n, hat⟩ := hat
        exact hdone ⟨w'', hs', hat⟩
      · obtain ⟨k, commit, hat⟩ := hat
        exact hdone ⟨w'', hs', hat⟩
    | _ => simp [exec, Action.pid?, h.procs, procStep, localStep] at hs
  | apply g' =>
    obtain ⟨p, hp, hw⟩ := hq
    rw [h.procs, List.mem_singleton] at hp
    subst hp
    cases happ : (w.group g').applyNext with
    | none => simp [exec, Action.pid?, happ] at hs
    | some gr =>
      cases hst : h.stage with
      | catchingUp | settling =>
        obtain rfl := Option.some.inj hw
        obtain ⟨hs', hat⟩ := h.apply shardFor happ
        exact hdone ⟨_, hs', hat⟩
      | _ => cases hw
  | transfer | recover | timeout | crash => exact hq.elim

/-- A quiet run leads from one world to the other. -/
def Leads (w w' : World) : Prop :=
  ∃ as, Run (fun w a w' => exec shardFor w a = some w' ∧ Quiet w a) w as w'

section Leads

variable {shardFor} {w' w'' : World}

theorem Leads.refl (w : World) : Leads shardFor w w := ⟨[], .nil w⟩

theorem Leads.trans (h : Leads shardFor w w') (h' : Leads shardFor w' w'') :
    Leads shardFor w w'' := by
  obtain ⟨as, h⟩ := h
  obtain ⟨bs, h'⟩ := h'
  exact ⟨as ++ bs, h.append h'⟩

theorem Leads.step {a : Action} (h : exec shardFor w a = some w') (hq : Quiet w a)
    (h' : Leads shardFor w' w'') : Leads shardFor w w'' := by
  obtain ⟨as, h'⟩ := h'
  exact ⟨a :: as, .cons ⟨h, hq⟩ h'⟩

end Leads

theorem Group.applyNext_of_lt (h : gr.applied < gr.log.length) :
    ∃ gr', gr.applyNext = some gr' ∧ gr'.log = gr.log ∧ gr'.applied = gr.applied + 1 := by
  rw [Group.applyNext, List.getElem?_eq_getElem h]
  exact ⟨_, rfl, rfl, rfl⟩

theorem At.drain {pc : RecoverPc}
    (h : At w₀ groups w rev r pc (some (g, i))) :
    ∃ w', Leads shardFor w w' ∧ At w₀ groups w' rev r pc (some (g, i)) ∧
      i ≤ (w'.group g).applied := by
  have hlen : i = (w.group g).log.length := by
    cases h.stage with
    | catchingUp _ hi _ => exact hi
    | settling _ hi _ => exact hi
  generalize hn : i - (w.group g).applied = n
  induction n generalizing w with
  | zero => exact ⟨w, .refl w, h, by omega⟩
  | succ n ih =>
    have hlt : (w.group g).applied < (w.group g).log.length := by omega
    obtain ⟨gr, happ, hlog, hnext⟩ := Group.applyNext_of_lt hlt
    obtain ⟨hs, hat⟩ := h.apply shardFor happ
    obtain ⟨w', hl, hat', hi⟩ := ih hat (by rw [group_setGroup_self, hlog, hlen])
      (by rw [group_setGroup_self, hnext]; omega)
    refine ⟨w', .step hs ?_ hl, hat', hi⟩
    exact ⟨_, h.procs ▸ List.mem_singleton_self _, rfl⟩

/-- The transactions of a group are settled one after the other. -/
theorem At.settleAll (h : At w₀ groups w rev r (.txLoop g todo) none) :
    ∃ w' r', Leads shardFor w w' ∧ At w₀ groups w' (g :: rev) r' .groupLoop none
      ∧ r'.remaining = r.remaining := by
  induction todo generalizing w r with
  | nil =>
    obtain ⟨w', hs, hat⟩ := h.nextGroup shardFor
    exact ⟨w', r, .step hs trivial (.refl w'), hat, rfl⟩
  | cons id todo ih =>
    obtain ⟨w₁, x, hs₁, h₁⟩ := h.nextTx shardFor
    obtain ⟨w₂, hs₂, h₂ | h₂⟩ := h₁.ask shardFor
    · obtain ⟨n, h₂⟩ := h₂
      obtain ⟨w', r', hl, hat, hrem⟩ := ih h₂
      exact ⟨w', r', .step hs₁ trivial (.step hs₂ rfl hl), hat, hrem⟩
    · obtain ⟨k, commit, h₂⟩ := h₂
      obtain ⟨w₃, i, hs₃, h₃⟩ := h₂.proposeSettle shardFor
      obtain ⟨w₄, hl₄, h₄, hi⟩ := h₃.drain shardFor
      obtain ⟨w₅, n, hs₅, h₅⟩ := h₄.reportSettle shardFor hi
      obtain ⟨w', r', hl, hat, hrem⟩ := ih h₅
      refine ⟨w', r', ?_, hat, hrem⟩
      exact .step hs₁ trivial (.step hs₂ rfl (.step hs₃ trivial (hl₄.trans (.step hs₅ trivial hl))))

theorem At.visitGroup (h : At w₀ groups w rev r .groupLoop none) (hg : g ∈ r.remaining) :
    ∃ w' r', Leads shardFor w w' ∧ At w₀ groups w' (g :: rev) r' .groupLoop none
      ∧ r'.remaining = r.remaining.erase g := by
  obtain ⟨w₁, hs₁, h₁⟩ := h.visit shardFor hg
  obtain ⟨w₂, i, hs₂, h₂⟩ := h₁.proposeCatchUp shardFor
  obtain ⟨w₃, hl₃, h₃, hi⟩ := h₂.drain shardFor
  obtain ⟨w₄, hs₄, h₄⟩ := h₃.reportCatchUp shardFor hi
  obtain ⟨w₅, hs₅, h₅⟩ := h₄.scan shardFor (List.isPerm_iff.2 (List.Perm.refl _))
  obtain ⟨w', r', hl, hat, hrem⟩ := h₅.settleAll shardFor
  refine ⟨w', r', ?_, hat, hrem⟩
  exact .step hs₁ rfl (.step hs₂ trivial (hl₃.trans (.step hs₄ trivial (.step hs₅ trivial hl))))

/-- The groups that are left can be visited in any order. -/
theorem At.visitAll {order : List ID} (h : At w₀ groups w rev r .groupLoop none)
    (ho : order.Perm r.remaining) :
    ∃ w' r', Leads shardFor w w' ∧ At w₀ groups w' (order.reverse ++ rev) r' .groupLoop none
      ∧ r'.remaining = [] := by
  induction order generalizing w rev r with
  | nil => exact ⟨w, r, .refl w, h, ho.nil_eq.symm⟩
  | cons g order ih =>
    have hg : g ∈ r.remaining := ho.subset List.mem_cons_self
    obtain ⟨w₁, r₁, hl₁, h₁, hrem₁⟩ := h.visitGroup shardFor hg
    have ho₁ : order.Perm r₁.remaining := by
      rw [hrem₁]
      exact (ho.trans (List.perm_cons_erase hg)).cons_inv
    obtain ⟨w', r', hl, hat, hrem⟩ := ih h₁ ho₁
    refine ⟨w', r', hl₁.trans hl, ?_, hrem⟩
    rwa [List.reverse_cons, List.append_assoc]

end Forward

/-! ## The theorem -/

variable {w₀ : World}

section Ends

variable (hnodup : groups.Nodup) (hwf : ∀ g, (w₀.group g).applied ≤ (w₀.group g).log.length)

include hnodup hwf

theorem at_start : At w₀ groups (w₀.recovering groups) []
    { groups := groups, remaining := groups } .groupLoop none :=
  ⟨rfl, .groupLoop ⟨rfl, .refl _, hnodup, hwf, fun _ h => absurd h (List.not_mem_nil),
    fun _ _ _ => rfl⟩⟩

/-- A completed recovery has visited all groups in some order, and computes what that order says. -/
theorem phase_of_completes {shardFor : AccountID → ID} {w : World}
    (h : Completes shardFor w₀ groups w) :
    ∃ rev, rev.Perm groups ∧
      ∀ g id, (w.group g).machine.phase id = w₀.phaseAfter groups rev g id := by
  obtain ⟨as, r, n, err, hrun, hprocs⟩ := h
  have hat : ∃ rev r pc wait, At w₀ groups w rev r pc wait := by
    refine hrun.invariant (P := fun w => ∃ rev r pc wait, At w₀ groups w rev r pc wait)
      (fun w a w' hs hx => ?_) ⟨_, _, _, _, at_start hnodup hwf⟩
    obtain ⟨rev, r, pc, wait, hx⟩ := hx
    exact hx.step shardFor hs.1 hs.2
  obtain ⟨rev, r', pc, wait, hat⟩ := hat
  have heq := hat.procs.symm.trans hprocs
  simp only [List.cons.injEq, Proc.mk.injEq, Task.recover.injEq, and_true] at heq
  obtain ⟨⟨rfl, rfl⟩, rfl⟩ := heq
  cases hat.stage with
  | returned hi hrem =>
    exact ⟨rev, by simpa [hrem] using hi.perm, hi.phase⟩

theorem completes_of_order (shardFor : AccountID → ID) (h : rev.Perm groups) :
    ∃ w, Completes shardFor w₀ groups w
      ∧ ∀ g id, (w.group g).machine.phase id = w₀.phaseAfter groups rev g id := by
  obtain ⟨w₁, r, ⟨as, hrun⟩, hat₁, hrem⟩ :=
    (at_start hnodup hwf).visitAll shardFor (rev.reverse_perm.trans h)
  obtain ⟨w, n, err, hs, hat⟩ := hat₁.finish shardFor [] hrem
  refine ⟨w, ⟨as ++ [.visit 0 [] true], r, n, err, ?_, hat.procs⟩, fun g id => ?_⟩
  · have hquiet : Quiet w₁ (.visit 0 [] true) := rfl
    exact hrun.concat ⟨hs, hquiet⟩
  rw [List.reverse_reverse, List.append_nil] at hat
  cases hat.stage with
  | returned hi _ => exact hi.phase g id

end Ends

/-- **Recovery does not depend on the order of the shards** exactly if the groups are steady:
whoever is asked about a transaction answers before its own log is applied what it answers
afterwards. -/
theorem recovery_order_iff (shardFor : AccountID → ID) (w₀ : World) (groups : List ID)
    (hnodup : groups.Nodup) (hwf : ∀ g, (w₀.group g).applied ≤ (w₀.group g).log.length) :
    (∀ w w', Completes shardFor w₀ groups w → Completes shardFor w₀ groups w' → ∀ g id,
        (w.group g).machine.phase id = (w'.group g).machine.phase id) ↔ w₀.Steady groups := by
  rw [← World.phaseAfter_order_iff hnodup]
  constructor
  · intro h rev rev' hrev hrev' g id
    obtain ⟨w, hw, hphase⟩ := completes_of_order hnodup hwf shardFor hrev
    obtain ⟨w', hw', hphase'⟩ := completes_of_order hnodup hwf shardFor hrev'
    rw [← hphase, ← hphase']
    exact h w w' hw hw' g id
  · intro h w w' hw hw' g id
    obtain ⟨rev, hrev, hphase⟩ := phase_of_completes hnodup hwf hw
    obtain ⟨rev', hrev', hphase'⟩ := phase_of_completes hnodup hwf hw'
    rw [hphase, hphase']
    exact h rev rev' hrev hrev' g id

end Order

namespace Schedule

/-- Both shards have voted; the decision to commit is in the log of the debit shard, and process 2
dies before it is applied. -/
def undelivered : List Action :=
  opening ++ .transfer tx payment groups now :: round 2 debitShard ++ round 2 creditShard
    ++ [.propose 2 .append, .crash 2]

/-- The groups as a run has left them, and no process. -/
def groupsAfter (as : List Action) : World :=
  { groups := ((execAll (exec ring) {} as).getD {}).groups, procs := [] }

/-- Recovery visits a group that applies `n` entries and settles the one transaction that is in
doubt there. -/
def visiting (g : ID) (n : Nat) : List Action :=
  [.visit 0 g true, .propose 0 .append] ++ List.replicate n (.apply g)
    ++ [.report 0, .scan 0 [tx], .next 0, .ask 0 true, .propose 0 .append, .apply g,
      .report 0, .next 0]

/-- The groups in one order. -/
def recoverDebitFirst : List Action :=
    visiting debitShard 2 ++ visiting creditShard 1 ++ [.visit 0 [] true]

/-- The groups in the other. -/
def recoverCreditFirst : List Action :=
    visiting creditShard 1 ++ visiting debitShard 2 ++ [.visit 0 [] true]

/-- The phases of the transaction at the two shards, if recovery has returned. -/
def recovered (w : World) : Option (Phase × Phase) :=
  match w.procs with
  | [⟨.recover _ (.returned _ _), none, true⟩] => some (phases w)
  | _ => none

theorem completes_of_recovered (w₀ : World) (gs : List ID) (as : List Action) {p : Phase × Phase}
    (h : (execAll (guarded Quiet (exec ring)) (w₀.recovering gs) as).bind recovered = some p) :
    ∃ w, Completes ring w₀ gs w ∧ phases w = p := by
  obtain ⟨w, hw, hp⟩ := Option.bind_eq_some_iff.1 h
  have hrun := run_of_execAll_guarded hw
  rw [recovered] at hp
  split at hp
  next r n err hprocs => exact ⟨w, ⟨as, r, n, err, hrun, hprocs⟩, Option.some.inj hp⟩
  next => cases hp

end Schedule

open Schedule in
/-- If the debit shard is visited first, both legs are committed; if the credit shard is, it aborts
a transaction that the debit shard then commits. -/
theorem recovery_order_matters :
    ∃ w w', Completes ring (groupsAfter undelivered) groups w
      ∧ Completes ring (groupsAfter undelivered) groups w'
      ∧ phases w = (.committed, .committed) ∧ phases w' = (.committed, .aborted) := by
  have hdebit : (execAll (guarded Quiet (exec ring)) ((groupsAfter undelivered).recovering groups)
      recoverDebitFirst).bind recovered = some (.committed, .committed) := by decide +kernel
  have hcredit : (execAll (guarded Quiet (exec ring)) ((groupsAfter undelivered).recovering groups)
      recoverCreditFirst).bind recovered = some (.committed, .aborted) := by decide +kernel
  obtain ⟨w, hw, hp⟩ := completes_of_recovered _ _ _ hdebit
  obtain ⟨w', hw', hp'⟩ := completes_of_recovered _ _ _ hcredit
  exact ⟨w, w', hw, hw', hp, hp'⟩

open Schedule in
/-- Once the decision is applied at the debit shard, the order does not matter any more. -/
theorem recovery_order_applied :
    ∃ w, Completes ring (groupsAfter (undelivered ++ [.apply debitShard])) groups w ∧
      ∀ w', Completes ring (groupsAfter (undelivered ++ [.apply debitShard])) groups w' →
        ∀ g id, (w.group g).machine.phase id = (w'.group g).machine.phase id := by
  have hrun : (execAll (guarded Quiet (exec ring))
      ((groupsAfter (undelivered ++ [.apply debitShard])).recovering groups)
      (visiting creditShard 1 ++ visiting debitShard 1 ++ [.visit 0 [] true])).bind recovered
      = some (.committed, .committed) := by decide +kernel
  have hsteady : (groupsAfter (undelivered ++ [.apply debitShard])).Steady
    groups := by decide +kernel
  have hwf : ∀ g, ((groupsAfter (undelivered ++ [.apply debitShard])).group g).applied ≤
      ((groupsAfter (undelivered ++ [.apply debitShard])).group g).log.length := by
    have hall : ∀ b ∈ (groupsAfter (undelivered ++ [.apply debitShard])).groups.entries,
        b.2.applied ≤ b.2.log.length := by decide +kernel
    intro g
    rw [World.group]
    cases hl : (groupsAfter (undelivered ++ [.apply debitShard])).groups.lookup g with
    | none => exact Nat.le_refl 0
    | some gr => exact hall ⟨g, gr⟩ (AList.mem_lookup_iff.1 hl)
  obtain ⟨w, hw, -⟩ := completes_of_recovered _ _ _ hrun
  exact ⟨w, hw, fun w' hw' =>
    (recovery_order_iff ring _ groups (by decide +kernel) hwf).2 hsteady w w' hw hw'⟩

end CoreBank.Shard
