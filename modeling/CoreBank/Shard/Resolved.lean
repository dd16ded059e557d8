import CoreBank.Shard.Recovery

/-!
# What recovery reports

`RecoverInDoubt` returns how many transactions it has settled, and an error when it had to leave one
behind.  `Audit` keeps the books it does not keep: which transactions it found in doubt, and which
of them its own entries moved to a terminal phase.

## What is here

* `auditExec` — the system with the books of one call;
* `Told` — a proposal that is turned away says so with an error; the call then never forgets one;
* `Straight` — the steps after which the count and the books cannot drift apart either: an outcome
  that is given up was not applied, and an outcome is applied to a transaction in doubt exactly
  while the call waits for it;
* `Honest` — what the local variables of the call say about the books;
* `recovery_reports_honestly`, and the schedule on which a redirect is counted as a success.
-/

set_option autoImplicit false

namespace CoreBank.Shard

open Ledger Hlc ActionSystem

/-! ## Phases only go forward -/

/-- How far a transaction has come. -/
def Phase.stage : Phase → Nat
  | .none => 0
  | .prepared => 1
  | .committed | .aborted => 2

theorem Phase.stage_eq_one {p : Phase} : p.stage = 1 ↔ p = .prepared := by
  cases p <;> simp [Phase.stage]

theorem Phase.two_le_stage {p : Phase} : 2 ≤ p.stage ↔ p.terminal := by
  cases p <;> simp [Phase.stage, Phase.terminal]

theorem Machine.stage_apply (m : Machine) (c : Command) (id : TxID) :
    (m.phase id).stage ≤ ((m.apply c).1.phase id).stage := by
  have hlast (p : Phase) : p.stage ≤ 2 := by cases p <;> decide
  rcases m.phase_apply c id with h | ⟨-, -, h, -⟩ | ⟨-, h⟩ | ⟨-, h⟩
  · rw [h]
  · rw [h]
    exact Nat.zero_le _
  · rw [h]
    exact hlast _
  · rw [h]
    exact hlast _

variable {c : Command}

theorem Machine.prepared_apply {m : Machine} {id : TxID} (hop : c.op ≠ .outcome)
    (h : m.phase id = .prepared) : (m.apply c).1.phase id = .prepared := by
  by_cases hid : id = c.txID
  · subst hid
    have hs := m.txStep_apply c
    generalize hr : m.txs.lookup c.txID = r at hs
    generalize hr' : (m.apply c).1.txs.lookup c.txID = r' at hs
    rw [Machine.phase_of_lookup hr] at h
    rw [Machine.phase_of_lookup hr']
    -- a vote needs a transaction without a phase
    have hno (hnone : ∀ x, r = some x → x.phase = .none ∧ x.decided = false) : False := by
      cases r with
      | none => cases h
      | some x => cases (hnone x rfl).1.symm.trans h
    cases hs with
    | same => exact h
    | yes _ hnone | no _ hnone => exact (hno hnone).elim
    | decision hop hp => exact hp.trans h
    | outcome hop' => exact absurd hop' hop
  · rw [m.phase_apply_ne hid, h]

/-- The phase of a transaction at a shard. -/
def World.phaseAt (w : World) (x : ID × TxID) : Phase := (w.group x.1).machine.phase x.2

variable {w : World}

theorem Step.stage_le {shardFor : AccountID → ID} {w' : World} {a : Action}
    (h : Step shardFor w a w') (x : ID × TxID) : (w.phaseAt x).stage ≤ (w'.phaseAt x).stage := by
  rw [World.phaseAt, World.phaseAt]
  generalize hg : w'.group x.1 = gr'
  cases hg ▸ h.groupStep x.1 with
  | same | append => exact le_rfl
  | apply c hc => exact Machine.stage_apply _ c x.2

/-! ## The books of a call -/

/-- The call has not returned yet. -/
def Task.running : Task → Bool
  | .transfer _ (.returned _ _) => false
  | .recover _ (.returned _ _) => false
  | _ => true

/-- The call is about to propose the outcome of a transaction, or waits for it. -/
def Task.settling : Task → Bool
  | .recover _ (.settle _ _ _ _ _ _) => true
  | _ => false

/-- The system, with the books of one call of `RecoverInDoubt`. -/
structure Audit extends Trail where
  /-- What it found in doubt. -/
  found : List (ID × TxID) := []
  /-- What its entries moved from prepared to a terminal phase before it returned. -/
  moved : List (ID × TxID) := []

/-- What process `pid` finds in doubt in a step. -/
def World.finds (w : World) (pid : Nat) : Action → List (ID × TxID)
  | .scan pid' order =>
    match (w.procs[pid]?).map Proc.task with
    | some (.recover _ (.scan g)) => if pid' = pid then order.map fun id => (g, id) else []
    | _ => []
  | _ => []

/-- What an entry of process `pid` settles in a step, while its call is running. -/
def Trail.moves (t : Trail) (pid : Nat) : Action → List (ID × TxID)
  | .apply g =>
    let gr := t.world.group g
    match gr.log[gr.applied]?, t.world.procs[pid]? with
    | some c, some p =>
      if p.task.running = true ∧ (pid, g, gr.applied + 1) ∈ t.wrote
          ∧ gr.machine.phase c.txID = .prepared
          ∧ ((gr.machine.applyAt (gr.applied + 1) c).phase c.txID).terminal then [(g, c.txID)]
      else []
    | _, _ => []
  | _ => []

/-- A step, with what process `pid` finds and moves. -/
def auditExec (shardFor : AccountID → ID) (pid : Nat) (s : Audit) (a : Action) : Option Audit :=
  (trailExec shardFor s.toTrail a).map fun t =>
    { t with found := s.found ++ s.world.finds pid a, moved := s.moved ++ s.moves pid a }

/-- A proposal of an outcome that appends nothing ends with an error. -/
def Told (pid : Nat) (s : Audit) : Action → Prop
  | .propose pid' (.fail _ err) =>
    pid' = pid → ∀ p ∈ s.world.procs[pid]?, p.task.settling = true → err ≠ none
  | _ => True

/-- The steps that leave a call of `RecoverInDoubt` able to tell what it did. -/
def Straight (pid : Nat) (s : Audit) : Action → Prop
  -- as for `Told`
  | .propose pid' (.fail _ err) =>
    pid' = pid → ∀ p ∈ s.world.procs[pid]?, p.task.settling = true → err ≠ none
  -- an outcome that the call gives up on has not been applied
  | .timeout pid' _ _ =>
    pid' = pid → ∀ p ∈ s.world.procs[pid]?, p.task.settling = true →
      ∀ e ∈ p.wait, (s.world.group e.1).applied < e.2
  -- an outcome of the call meets a transaction in doubt exactly if the call still waits for it
  | .apply g => ∀ p ∈ s.world.procs[pid]?, p.task.running = true →
      (pid, g, (s.world.group g).applied + 1) ∈ s.wrote →
      ∀ c ∈ (s.world.group g).log[(s.world.group g).applied]?, c.op = .outcome →
        ((s.world.group g).machine.phase c.txID = .prepared
          ↔ p.wait = some (g, (s.world.group g).applied + 1))
  | _ => True

instance (pid : Nat) (s : Audit) (a : Action) : Decidable (Straight pid s a) := by
  induction a using Action.casesOn
  case propose pid' start =>
    induction start using Start.casesOn <;> unfold Straight <;> infer_instance
  case apply g =>
    unfold Straight
    exact @Option.decidableForallMem _ _
      (fun _ => @instDecidableForall _ _ _ (@instDecidableForall _ _ _ inferInstance)) _
  all_goals
    unfold Straight
    infer_instance

theorem Straight.told {pid : Nat} {s : Audit} {a : Action} (h : Straight pid s a) :
    Told pid s a := by
  unfold Told
  split
  · exact h
  · trivial

/-! ## What the local variables say about the books -/

/-- The transactions the call still has to look at. -/
def RecoverPc.pending : RecoverPc → List (ID × TxID)
  | .txLoop g todo => todo.map fun id => (g, id)
  | .ask g todo id _ => (g, id) :: todo.map fun id => (g, id)
  | .settle g todo id _ _ _ => (g, id) :: todo.map fun id => (g, id)
  | _ => []

/-- The outcome the call waits for has been applied: it is in the books, and not yet counted. -/
def RecoverPc.uncounted (w : World) (pc : RecoverPc) (wait : Option (ID × Nat)) : Nat :=
  match pc, wait with
  | .settle _ _ _ _ _ _, some (g, i) => if i ≤ (w.group g).applied then 1 else 0
  | _, _ => 0

theorem RecoverPc.uncounted_none (w : World) (pc : RecoverPc) : pc.uncounted w none = 0 := by
  cases pc <;> rfl

/-- The call has left something behind, and will say so. -/
def Recovery.leaves (r : Recovery) : Prop := 0 < r.blocked ∨ r.firstErr ≠ none

/-- **The invariant of a call of `RecoverInDoubt`.**  Only the count needs all of `Straight`;
`exact` says whether that is known. -/
structure Honest (exact : Prop) (pid : Nat) (s : Audit) (wait : Option (ID × Nat)) (r : Recovery)
    (pc : RecoverPc) : Prop where
  found : ∀ x ∈ s.found, 1 ≤ (s.world.phaseAt x).stage
  moved : ∀ x ∈ s.moved, 2 ≤ (s.world.phaseAt x).stage
  nodup : s.moved.Nodup
  /-- What is still in doubt lies ahead, or was left behind. -/
  left : ∀ x ∈ s.found, (s.world.phaseAt x).stage = 1 → x ∈ pc.pending ∨ r.leaves
  waits : ∀ g i, wait = some (g, i) → (pid, g, i) ∈ s.wrote ∧ ∃ k c, i = k + 1 ∧
    (s.world.group g).log[k]? = some c ∧ pc.request = some (g, c)
  count : exact → s.moved.length = r.resolved + pc.uncounted s.world wait
  settled : ∀ g todo id x coord commit, pc = .settle g todo id x coord commit → ∀ i,
    wait = some (g, i) → i ≤ (s.world.group g).applied → (g, id) ∈ s.found →
    2 ≤ (s.world.phaseAt (g, id)).stage
  returned : ∀ n err, pc = .returned n err →
    n = r.resolved ∧ wait = none ∧ (err = none → ¬ r.leaves)

variable {g : ID}

namespace Honest

variable {exact : Prop} {pid : Nat} {s s' : Audit} {wait : Option (ID × Nat)} {r r' : Recovery}
  {pc pc' : RecoverPc}

theorem goto (h : Honest exact pid s wait r pc) (hcount : exact → s.moved.length = r'.resolved)
    (hleft : ∀ x ∈ s.found, (s.world.phaseAt x).stage = 1 → x ∈ pc'.pending ∨ r'.leaves)
    (hret : ∀ n err, pc' = .returned n err → n = r'.resolved ∧ (err = none → ¬ r'.leaves)) :
    Honest exact pid s none r' pc' where
  found := h.found
  moved := h.moved
  nodup := h.nodup
  left := hleft
  waits _ _ hw := nomatch hw
  count hx := by rw [RecoverPc.uncounted_none]; exact hcount hx
  settled _ _ _ _ _ _ _ _ hw := nomatch hw
  returned n err hpc := ⟨(hret n err hpc).1, rfl, (hret n err hpc).2⟩

/-- A transaction or a group that cannot be dealt with is counted as blocked. -/
theorem block (h : Honest exact pid s wait r pc) (hz : exact → pc.uncounted s.world wait = 0)
    (hres : r'.resolved = r.resolved) (hb : 0 < r'.blocked)
    (hret : ∀ n err, pc' ≠ .returned n err) : Honest exact pid s none r' pc' := by
  refine h.goto (fun hx => ?_) (fun _ _ _ => .inr (.inl hb))
    fun n err hpc => absurd hpc (hret n err)
  rw [h.count hx, hz hx, hres]
  exact Nat.add_zero _

theorem frame (h : Honest exact pid s wait r pc)
    (hsame : ∀ g, (s'.world.group g).machine = (s.world.group g).machine
      ∧ (s'.world.group g).applied = (s.world.group g).applied)
    (hlog : ∀ g, (s.world.group g).log <+: (s'.world.group g).log) (hwrote : s.wrote ⊆ s'.wrote)
    (hfound : s'.found = s.found) (hmoved : s'.moved = s.moved) :
    Honest exact pid s' wait r pc := by
  have hphase (x : ID × TxID) : s'.world.phaseAt x = s.world.phaseAt x := by
    rw [World.phaseAt, World.phaseAt, (hsame x.1).1]
  have hunc : pc.uncounted s'.world wait = pc.uncounted s.world wait := by
    unfold RecoverPc.uncounted
    split
    · rw [(hsame _).2]
    · rfl
  constructor
  case found => intro x hx; rw [hphase]; exact h.found x (hfound ▸ hx)
  case moved => intro x hx; rw [hphase]; exact h.moved x (hmoved ▸ hx)
  case nodup => exact hmoved ▸ h.nodup
  case left => intro x hx; rw [hphase]; exact h.left x (hfound ▸ hx)
  case waits =>
    intro g i hw
    obtain ⟨hmem, k, c, hi, hk, hreq⟩ := h.waits g i hw
    obtain ⟨hlt, hget⟩ := List.getElem?_eq_some_iff.1 hk
    have hk' := List.prefix_iff_getElem?.1 (hlog g) k hlt
    exact ⟨hwrote hmem, k, c, hi, hget ▸ hk', hreq⟩
  case count => rw [hmoved, hunc]; exact h.count
  case settled =>
    intro g todo id x coord commit hpc i hw hi hx
    rw [hphase]
    exact h.settled g todo id x coord commit hpc i hw ((hsame g).2 ▸ hi) (hfound ▸ hx)
  case returned => exact h.returned

theorem refused (h : Honest exact pid s none r pc) (rep : ProposeReply)
    (hreq : pc.request = some (g, c)) (hrep : rep.isLeader = true → rep.err ≠ none)
    (htold : (Task.recover r pc).settling = true → rep.err ≠ none) :
    Honest exact pid s none (pc.onReply r rep).1 (pc.onReply r rep).2 := by
  have hz : exact → pc.uncounted s.world none = 0 := fun _ => pc.uncounted_none _
  cases pc with
  | catchUp g =>
    unfold RecoverPc.onReply
    cases he : rep.err with
    | some e => exact h.block hz rfl (Nat.succ_pos _) fun n err => RecoverPc.noConfusion
    | none =>
      cases hl : rep.isLeader with
      | true => exact absurd he (hrep hl)
      | false => exact h.block hz rfl (Nat.succ_pos _) fun n err => RecoverPc.noConfusion
  | settle g todo id x coord commit =>
    unfold RecoverPc.onReply
    cases he : rep.err with
    | some e => exact h.block hz rfl (Nat.succ_pos _) fun n err => RecoverPc.noConfusion
    | none => exact absurd he (htold rfl)
  | groupLoop | scan | txLoop | ask | returned => cases hreq

theorem timedOut {i : Nat} {e : Str} (h : Honest exact pid s wait r pc)
    (hwait : wait = some (g, i)) (rep : ProposeReply) (hrep : rep.err = some e)
    (hstraight : exact → (Task.recover r pc).settling = true → (s.world.group g).applied < i) :
    Honest exact pid s none (pc.onReply r rep).1 (pc.onReply r rep).2 := by
  obtain ⟨-, k, c, -, -, hreq⟩ := h.waits g i hwait
  cases pc with
  | catchUp g =>
    unfold RecoverPc.onReply
    rw [hrep]
    exact h.block (fun _ => rfl) rfl (Nat.succ_pos _) fun n err => RecoverPc.noConfusion
  | settle g' todo id x coord commit =>
    have hz (hx : exact) :
        (RecoverPc.settle g' todo id x coord commit).uncounted s.world wait = 0 := by
      rw [hwait, RecoverPc.uncounted, if_neg (Nat.not_le.2 (hstraight hx rfl))]
    unfold RecoverPc.onReply
    rw [hrep]
    exact h.block hz rfl (Nat.succ_pos _) fun n err => RecoverPc.noConfusion
  | groupLoop | scan | txLoop | ask | returned => cases hreq

theorem reported (h : Honest exact pid s wait r pc) {i : Nat} (hwait : wait = some (g, i))
    (happ : i ≤ (s.world.group g).applied) (res : Result) :
    Honest exact pid s none (pc.onReply r { res := res, isLeader := true }).1
      (pc.onReply r { res := res, isLeader := true }).2 := by
  obtain ⟨-, k, c, -, -, hreq⟩ := h.waits g i hwait
  cases pc with
  | catchUp g => exact h.goto h.count h.left fun n err hpc => nomatch hpc
  | settle g' todo id x coord commit =>
    obtain rfl : g' = g := by cases hreq; rfl
    refine h.goto (fun hx => ?_) (fun y hy hst => ?_) fun n err hpc => nomatch hpc
    · rw [h.count hx, hwait, RecoverPc.uncounted, if_pos happ]
      rfl
    · rcases h.left y hy hst with hmem | hleft
      · rcases List.mem_cons.1 hmem with rfl | hmem
        · -- the transaction itself is settled
          have := h.settled g' todo id x coord commit rfl i hwait happ hy
          omega
        · exact .inl hmem
      · exact .inr hleft
  | groupLoop | scan | txLoop | ask | returned => cases hreq

theorem append (h : Honest exact pid s none r pc) {k : Nat} (hreq : pc.request = some (g, c))
    (hk : (s.world.group g).log[k]? = some c) (happ : (s.world.group g).applied ≤ k)
    (hwrote : (pid, g, k + 1) ∈ s.wrote) :
    Honest exact pid s (some (g, k + 1)) r pc where
  found := h.found
  moved := h.moved
  nodup := h.nodup
  left := h.left
  waits g' i hw := by
    cases hw
    exact ⟨hwrote, k, c, rfl, hk, hreq⟩
  count hx := by
    have hz : pc.uncounted s.world (some (g, k + 1)) = 0 := by
      unfold RecoverPc.uncounted
      split
      next hw =>
        cases hw
        exact if_neg (by omega)
      next => rfl
    rw [hz, h.count hx, RecoverPc.uncounted_none]
  settled g' todo id x coord commit hpc i hw hi _ := by
    cases hw
    omega
  returned n err hpc := by
    subst hpc
    cases hreq

/-- A visit ends the outer loop, or goes on with a group. -/
theorem visit (h : Honest exact pid s none r .groupLoop) {isLeader : Bool} {t : Task}
    (ht : r.visit g isLeader = some t) : ∃ r' pc',
    t = .recover r' pc' ∧ Honest exact pid s none r' pc' := by
  rw [Recovery.visit] at ht
  split at ht
  · cases ht
    refine ⟨_, _, rfl, h.goto h.count (fun x hx hst => ?_) fun n err hpc => ?_⟩
    · exact .inr ((h.left x hx hst).resolve_left List.not_mem_nil)
    · cases isLeader <;> cases hpc
  · split at ht
    · cases ht
      refine ⟨_, _, rfl, h.goto h.count (fun x hx hst => ?_) fun n err hpc => ?_⟩
      · exact .inr ((h.left x hx hst).resolve_left List.not_mem_nil)
      · cases hpc
        refine ⟨rfl, fun he hl => ?_⟩
        cases hf : r.firstErr with
        | some e => rw [hf] at he; cases he
        | none =>
          rcases hl with hl | hl
          · rw [hf] at he
            dsimp only at he
            rw [if_pos hl] at he
            cases he
          · exact hl hf
    · cases ht

/-- The next transaction; one without a record is not in doubt. -/
theorem next {todo : List TxID} (h : Honest exact pid s none r (.txLoop g todo)) :
    ∃ r' pc', r.next s.world.group g todo = .recover r' pc' ∧ Honest exact pid s none r' pc' := by
  cases todo with
  | nil => exact ⟨_, _, rfl, h.goto h.count h.left fun n err hpc => by cases hpc⟩
  | cons id todo =>
    rw [Recovery.next]
    cases hx : (s.world.group g).machine.tx id with
    | some x => exact ⟨_, _, rfl, h.goto h.count h.left fun n err hpc => by cases hpc⟩
    | none =>
      refine ⟨_, _, rfl, h.goto h.count (fun y hy hst => ?_) fun n err hpc => by cases hpc⟩
      rcases h.left y hy hst with hmem | hleft
      · rcases List.mem_cons.1 hmem with rfl | hmem
        · rw [World.phaseAt, Machine.phase_of_lookup hx] at hst
          cases hst
        · exact .inl hmem
      · exact .inr hleft

theorem ask {todo : List TxID} {id : TxID} {x : TxRecord} {isLeader : Bool}
    (h : Honest exact pid s none r (.ask g todo id x)) :
    ∃ r' pc', r.ask s.world.group g todo id x isLeader = .recover r' pc'
      ∧ Honest exact pid s none r' pc' := by
  rw [Recovery.ask]
  split
  · exact ⟨_, _, rfl,
      h.block (fun _ => rfl) rfl (Nat.succ_pos _) fun n err => RecoverPc.noConfusion⟩
  · exact ⟨_, _, rfl, h.goto h.count h.left fun n err hpc => by cases hpc⟩

variable (pid) in
/-- What is moved was in doubt, and is not any more. -/
theorem moves_apply_cases (hc : (s.world.group g).log[(s.world.group g).applied]? = some c) :
    s.moves pid (.apply g) = [] ∨ s.moves pid (.apply g) = [(g, c.txID)]
      ∧ (s.world.phaseAt (g, c.txID)).stage = 1
      ∧ (((s.world.group g).machine.applyAt ((s.world.group g).applied + 1) c).phase
          c.txID).terminal := by
  rw [Trail.moves]
  simp only [hc]
  cases s.world.procs[pid]? with
  | none => exact .inl rfl
  | some p =>
    dsimp only
    split
    next h => exact .inr ⟨rfl, Phase.stage_eq_one.2 h.2.2.1, h.2.2.2⟩
    · exact .inl rfl

/-- The one entry that counts is the outcome the call waits for. -/
theorem moves_apply (h : Honest exact pid s wait r pc) {alive : Bool}
    (hp : s.world.procs[pid]? = some ⟨.recover r pc, wait, alive⟩)
    (hc : (s.world.group g).log[(s.world.group g).applied]? = some c)
    (hstraight : Straight pid s (.apply g)) :
    (∃ todo id x coord commit, pc = .settle g todo id x coord commit
        ∧ wait = some (g, (s.world.group g).applied + 1) ∧ s.moves pid (.apply g) = [(g, id)])
      ∨ ((pc.request.map fun x => x.2.op) = some .outcome →
          wait ≠ some (g, (s.world.group g).applied + 1)) ∧ s.moves pid (.apply g) = [] := by
  by_cases hown : wait = some (g, (s.world.group g).applied + 1)
      ∧ (pc.request.map fun x => x.2.op) = some .outcome
  · obtain ⟨hw, hop⟩ := hown
    obtain ⟨hwrote, k, c', hk, hc', hreq⟩ := h.waits _ _ hw
    cases hk
    cases hc.symm.trans hc'
    cases pc with
    | settle g' todo id x coord commit =>
      cases hreq
      refine .inl ⟨todo, id, x, coord, commit, rfl, hw, ?_⟩
      have hprep := (hstraight _ hp rfl hwrote _ hc rfl).2 hw
      obtain ⟨y, hy, hyp⟩ := lookup_of_prepared hprep
      have hterm := (settled_by_outcome ((s.world.group g).applied + 1) rfl hy hyp).2
      have hend : (if commit then Phase.committed else Phase.aborted).terminal := by
        cases commit <;> decide
      rw [Trail.moves]
      simp only [hc, hp]
      exact if_pos ⟨rfl, hwrote, hprep, hterm ▸ hend⟩
    | catchUp => cases hop
    | groupLoop | scan | txLoop | ask | returned => cases hreq
  · refine .inr ⟨fun hop hw => hown ⟨hw, hop⟩, ?_⟩
    rw [Trail.moves]
    simp only [hc, hp]
    refine if_neg ?_
    rintro ⟨hrun, hwrote, hprep, hterm⟩
    have hop : c.op = .outcome := by
      by_contra hne
      rw [Machine.phase_applyAt, Machine.prepared_apply hne hprep] at hterm
      rcases hterm with hterm | hterm <;> cases hterm
    have hw := (hstraight _ hp hrun hwrote c hc hop).1 hprep
    obtain ⟨-, k, c', hk, hc', hreq⟩ := h.waits _ _ hw
    cases hk
    cases hc.symm.trans hc'
    refine hown ⟨hw, ?_⟩
    rw [hreq, Option.map_some, hop]

theorem apply (h : Honest exact pid s wait r pc) {alive : Bool}
    (hp : s.world.procs[pid]? = some ⟨.recover r pc, wait, alive⟩)
    (hc : (s.world.group g).log[(s.world.group g).applied]? = some c)
    (hself : s'.world.group g = { s.world.group g with
      applied := (s.world.group g).applied + 1,
      machine := (s.world.group g).machine.applyAt ((s.world.group g).applied + 1) c })
    (hother : ∀ g', g' ≠ g → s'.world.group g' = s.world.group g')
    (hstage : ∀ x, (s.world.phaseAt x).stage ≤ (s'.world.phaseAt x).stage)
    (hwrote : s'.wrote = s.wrote) (hfound : s'.found = s.found)
    (hmoved : s'.moved = s.moved ++ s.moves pid (.apply g))
    (hstraight : exact → Straight pid s (.apply g)) : Honest exact pid s' wait r pc := by
  have hlog (g' : ID) : (s'.world.group g').log = (s.world.group g').log := by
    by_cases hg : g' = g
    · rw [hg, hself]
    · rw [hother g' hg]
  have happ : (s'.world.group g).applied = (s.world.group g).applied + 1 := by rw [hself]
  have hmoves := moves_apply_cases pid hc
  -- an outcome that is applied just now is the entry
  have hnew {g' : ID} {i : Nat} (hi : i ≤ (s'.world.group g').applied) :
      i ≤ (s.world.group g').applied ∨ (g' = g ∧ i = (s.world.group g).applied + 1) := by
    by_cases hg : g' = g
    · subst hg
      rw [happ] at hi
      exact (Nat.le_or_eq_of_le_succ hi).imp_right fun he => ⟨rfl, he⟩
    · rw [hother g' hg] at hi
      exact .inl hi
  constructor
  case found =>
    intro x hx
    exact Nat.le_trans (h.found x (hfound ▸ hx)) (hstage x)
  case left =>
    intro x hx hst
    have hge := h.found x (hfound ▸ hx)
    have hle := hstage x
    exact h.left x (hfound ▸ hx) (by omega)
  case waits =>
    intro g' i hw
    rw [hlog, hwrote]
    exact h.waits g' i hw
  case returned => exact h.returned
  case moved =>
    intro x hx
    rw [hmoved] at hx
    rcases List.mem_append.1 hx with hx | hx
    · exact Nat.le_trans (h.moved x hx) (hstage x)
    · rcases hmoves with hm | ⟨hm, -, hend⟩
      · rw [hm] at hx
        cases hx
      · rw [hm, List.mem_singleton] at hx
        rw [hx, Phase.two_le_stage, World.phaseAt, hself]
        exact hend
  case nodup =>
    rw [hmoved]
    rcases hmoves with hm | ⟨hm, hst, -⟩
    · rw [hm, List.append_nil]
      exact h.nodup
    · rw [hm, ← List.concat_eq_append]
      refine h.nodup.concat fun hmem => ?_
      have := h.moved _ hmem
      omega
  case count =>
    intro hx
    rw [hmoved, List.length_append, h.count hx]
    rcases h.moves_apply hp hc (hstraight hx) with
      ⟨todo, id, y, coord, commit, rfl, rfl, hm⟩ | ⟨hne, hm⟩
    · rw [hm, RecoverPc.uncounted, RecoverPc.uncounted, if_neg (Nat.not_succ_le_self _), happ,
        if_pos (le_rfl)]
      rfl
    · rw [hm, List.length_nil, Nat.add_zero]
      congr 1
      unfold RecoverPc.uncounted
      split
      next g' todo id y coord commit g'' i =>
        have hreq := h.waits g'' i rfl
        obtain rfl : g' = g'' := by
          obtain ⟨-, k, c', -, -, hreq⟩ := hreq
          cases hreq
          rfl
        have hiff : i ≤ (s.world.group g').applied ↔ i ≤ (s'.world.group g').applied := by
          refine ⟨fun hi => ?_, fun hi => ?_⟩
          · by_cases hg : g' = g
            · subst hg
              omega
            · rwa [hother g' hg]
          · rcases hnew hi with hi | ⟨rfl, rfl⟩
            · exact hi
            · exact absurd rfl (hne rfl)
        simp only [hiff]
      next => rfl
  case settled =>
    intro g' todo id x coord commit hpc i hw hi hx
    rw [hfound] at hx
    rcases hnew hi with hi | ⟨rfl, rfl⟩
    · exact Nat.le_trans (h.settled g' todo id x coord commit hpc i hw hi hx) (hstage _)
    · -- the outcome finds the transaction in doubt, or over already
      obtain ⟨-, k, c', hk, hc', hreq⟩ := h.waits _ _ hw
      cases hk
      cases hc.symm.trans hc'
      subst hpc
      obtain ⟨hop, rfl⟩ : c.op = .outcome ∧ c.txID = id := by cases hreq; exact ⟨rfl, rfl⟩
      by_cases hst : (s.world.phaseAt (g', c.txID)).stage = 1
      · obtain ⟨y, hy, hyp⟩ := lookup_of_prepared (Phase.stage_eq_one.1 hst)
        have hterm := (settled_by_outcome ((s.world.group g').applied + 1) hop hy hyp).2
        rw [Phase.two_le_stage, World.phaseAt, hself, hterm]
        cases c.commit <;> decide
      · have hge := h.found _ hx
        have hle := hstage (g', c.txID)
        omega

end Honest

/-! ## Whole runs -/

section Run

variable {shardFor : AccountID → ID} {exact : Prop} {pid : Nat} {s s' : Audit} {a : Action}

/-- The call is there, and its books are right. -/
structure Audited (exact : Prop) (pid : Nat) (s : Audit) : Prop where
  applied_le : ∀ g, (s.world.group g).applied ≤ (s.world.group g).log.length
  call : ∃ wait r pc alive, s.world.procs[pid]? = some ⟨.recover r pc, wait, alive⟩
    ∧ Honest exact pid s wait r pc

theorem auditExec_eq_some (h : auditExec shardFor pid s a = some s') :
    exec shardFor s.world a = some s'.world ∧ s'.wrote = s.wrote ++ s.world.writes shardFor a
      ∧ s'.found = s.found ++ s.world.finds pid a ∧ s'.moved = s.moved ++ s.moves pid a := by
  obtain ⟨t, ht, rfl⟩ := Option.map_eq_some_iff.1 h
  obtain ⟨hexec, hwrote⟩ := trailExec_eq_some.1 ht
  exact ⟨hexec, hwrote, rfl, rfl⟩

/-- A step that applies nothing leaves the books alone, unless it is a scan. -/
theorem Honest.other {wait : Option (ID × Nat)} {r : Recovery} {pc : RecoverPc}
    (h : Honest exact pid s wait r pc) (hs : auditExec shardFor pid s a = some s')
    (ha : ∀ g, a ≠ .apply g) (hfinds : s.world.finds pid a = []) :
    Honest exact pid s' wait r pc := by
  obtain ⟨hexec, hwrote, hfound, hmoved⟩ := auditExec_eq_some hs
  have hgroup := (step_of_exec hexec).groupStep
  refine h.frame (fun g => ?_) (fun g => (hgroup g).isPrefix_log) ?_ ?_ ?_
  · have := hgroup g
    generalize s'.world.group g = gr' at this ⊢
    cases this with
    | same | append => exact ⟨rfl, rfl⟩
    | apply => exact absurd rfl (ha g)
  · rw [hwrote]
    exact List.subset_append_left _ _
  · rw [hfound, hfinds, List.append_nil]
  · rw [hmoved]
    cases a with
    | apply g => exact absurd rfl (ha g)
    | _ => exact List.append_nil _

theorem Honest.scan {r : Recovery} {order : List TxID} (h : Honest exact pid s none r (.scan g))
    (hperm : order.isPerm (s.world.group g).machine.inDoubt = true)
    (hgroup : ∀ g, s'.world.group g = s.world.group g)
    (hfound : s'.found = s.found ++ order.map fun id => (g, id)) (hmoved : s'.moved = s.moved) :
    Honest exact pid s' none r (.txLoop g order) := by
  have hphase (x : ID × TxID) : s'.world.phaseAt x = s.world.phaseAt x := by
    rw [World.phaseAt, World.phaseAt, hgroup]
  have hprep {x : ID × TxID} (hx : x ∈ order.map fun id => (g, id)) :
      (s.world.phaseAt x).stage = 1 := by
    obtain ⟨id, hid, rfl⟩ := List.mem_map.1 hx
    exact Phase.stage_eq_one.2 (Machine.mem_inDoubt.1 ((List.isPerm_iff.1 hperm).subset hid))
  constructor
  case found =>
    intro x hx
    rw [hphase]
    rw [hfound] at hx
    rcases List.mem_append.1 hx with hx | hx
    · exact h.found x hx
    · exact Nat.le_of_eq (hprep hx).symm
  case moved => intro x hx; rw [hphase]; exact h.moved x (hmoved ▸ hx)
  case nodup => exact hmoved ▸ h.nodup
  case left =>
    intro x hx hst
    rw [hphase] at hst
    rw [hfound] at hx
    rcases List.mem_append.1 hx with hx | hx
    · exact .inr ((h.left x hx hst).resolve_left List.not_mem_nil)
    · exact .inl hx
  case waits => exact fun _ _ hw => nomatch hw
  case count => rw [hmoved]; exact h.count
  case settled => exact fun _ _ _ _ _ _ _ _ hw => nomatch hw
  case returned => exact fun _ _ hpc => nomatch hpc

theorem finds_of_ne (h : a.pid? ≠ some pid) : w.finds pid a = [] := by
  unfold World.finds
  split
  next pid' order =>
    split
    next => exact if_neg fun e => h (congrArg some e)
    next => rfl
  next => rfl

theorem Honest.move {r : Recovery} {pc : RecoverPc} {t : Task} (h : Honest exact pid s none r pc)
    {alive : Bool} (hp : s.world.procs[pid]? = some ⟨.recover r pc, none, alive⟩)
    (ha : a.pid? = some pid) (ht : localStep s.world a (.recover r pc) = some t)
    (hs : auditExec shardFor pid s a = some s') :
    ∃ r' pc', t = .recover r' pc' ∧ Honest exact pid s' none r' pc' := by
  unfold localStep at ht
  split at ht
  next heq =>
    cases heq
    obtain ⟨r', pc', rfl, h'⟩ := h.visit ht
    exact ⟨r', pc', rfl, h'.other hs (fun _ => Action.noConfusion) rfl⟩
  next pid' order r' g heq =>
    cases heq
    cases ha
    split at ht
    next hperm =>
      cases ht
      obtain ⟨hexec, -, hfound, hmoved⟩ := auditExec_eq_some hs
      refine ⟨_, _, rfl, h.scan hperm (fun g => ?_) ?_ ?_⟩
      · have hstep := step_of_exec hexec
        generalize s'.world = w' at hstep ⊢
        cases hstep with
        | reply | move => rfl
      · rw [hfound, World.finds, hp]
        simp only [Option.map_some, if_pos]
      · rw [hmoved]
        exact List.append_nil _
    next => cases ht
  next heq =>
    cases heq
    cases ht
    obtain ⟨r', pc', he, h'⟩ := h.next
    exact ⟨r', pc', he, h'.other hs (fun _ => Action.noConfusion) rfl⟩
  next heq =>
    cases heq
    cases ht
    obtain ⟨r', pc', he, h'⟩ := h.ask
    exact ⟨r', pc', he, h'.other hs (fun _ => Action.noConfusion) rfl⟩
  next => cases ht

/-- **The step.** -/
theorem Audited.step (h : Audited exact pid s) (hs : auditExec shardFor pid s a = some s')
    (htold : Told pid s a) (hst : exact → Straight pid s a) : Audited exact pid s' := by
  obtain ⟨hexec, hwrote, hfound, hmoved⟩ := auditExec_eq_some hs
  obtain ⟨wait, r, pc, alive, hp, hh⟩ := h.call
  obtain ⟨p', hp', hturn⟩ := turn_of_exec hexec hp
  have hgroup := (step_of_exec hexec).groupStep
  refine ⟨fun g => (hgroup g).applied_le (h.applied_le g), ?_⟩
  cases hturn with
  | other hne =>
    refine ⟨wait, r, pc, alive, hp', ?_⟩
    by_cases happ : ∃ g, a = .apply g
    · obtain ⟨g, rfl⟩ := happ
      obtain ⟨gr, hgr, hw'⟩ := Option.map_eq_some_iff.1 hexec
      obtain ⟨c, hc, rfl⟩ := applyNext_eq_some hgr
      refine hh.apply hp hc (by rw [← hw', group_setGroup_self]) (fun g' hg => ?_)
        (step_of_exec hexec).stage_le ?_ ?_ hmoved hst
      · rw [← hw', group_setGroup_ne _ _ hg]
      · rw [hwrote]
        exact List.append_nil _
      · rw [hfound]
        exact List.append_nil _
    · exact hh.other hs (fun g e => happ ⟨g, e⟩) (finds_of_ne hne)
  | refused hwait hreq hrep =>
    subst hwait
    have hh' := hh.refused { isLeader := _, err := _ } hreq hrep fun hset => htold rfl _ hp hset
    exact ⟨_, _, _, _, hp', hh'.other hs (fun _ => Action.noConfusion) rfl⟩
  | @reported g i hwait happ =>
    have hh' := hh.reported hwait happ ((s.world.group g).machine.appliedResult i)
    exact ⟨_, _, _, _, hp', hh'.other hs (fun _ => Action.noConfusion) rfl⟩
  | @timedOut g i isLeader err hwait =>
    subst hwait
    have hh' := hh.timedOut rfl { isLeader := isLeader, err := some err } rfl fun hx hset =>
      hst hx rfl _ hp hset _ rfl
    exact ⟨_, _, _, _, hp', hh'.other hs (fun _ => Action.noConfusion) rfl⟩
  | move ha hwait ht =>
    subst hwait
    obtain ⟨r', pc', rfl, hh'⟩ := hh.move hp ha ht hs
    exact ⟨_, _, _, _, hp', hh'⟩
  | crash => exact ⟨_, _, _, _, hp', hh.other hs (fun _ => Action.noConfusion) rfl⟩
  | @append g c hwait hreq =>
    subst hwait
    have hgr := group_of_append hexec hp rfl hreq
    have hh' := hh.other hs (fun _ => Action.noConfusion) rfl
    refine ⟨_, _, _, _, hp', hh'.append hreq ?_ ?_ ?_⟩
    · rw [hgr, List.getElem?_concat_length]
    · rw [hgr]
      exact h.applied_le g
    · rw [hwrote, writes_append hp hreq]
      exact List.mem_append_right _ List.mem_cons_self

theorem audited_recover {w' : World} {groups : List ID}
    (hle : ∀ g, (w.group g).applied ≤ (w.group g).log.length)
    (h : exec shardFor w (.recover groups) = some w') :
    Audited exact w.procs.length { world := w' } := by
  unfold exec at h
  simp only [Action.pid?] at h
  split at h
  · cases h
    refine ⟨hle, none, { groups := groups, remaining := groups }, .groupLoop, true,
      List.getElem?_concat_length, ?_⟩
    exact {
      found := fun _ hx => by cases hx
      moved := fun _ hx => by cases hx
      nodup := List.nodup_nil
      left := fun _ hx => by cases hx
      waits := fun _ _ hw => by cases hw
      count := fun _ => rfl
      settled := fun _ _ _ _ _ _ _ _ hw => by cases hw
      returned := fun _ _ hpc => by cases hpc }
  · cases h

theorem audited_of_run {as₀ as : List Action} {w' : World} {groups : List ID}
    (hinit : Run (fun w a w' => exec shardFor w a = some w') {} as₀ w)
    (hcall : exec shardFor w (.recover groups) = some w')
    (hrun : Run (fun s a s' => auditExec shardFor w.procs.length s a = some s'
      ∧ Told w.procs.length s a ∧ (exact → Straight w.procs.length s a)) { world := w' } as s) :
    Audited exact w.procs.length s :=
  hrun.invariant (P := Audited exact w.procs.length)
    (fun _ _ _ hs h => h.step hs.1 hs.2.1 hs.2.2) (audited_recover (applied_le_of_run hinit) hcall)

/-- **Recovery reports honestly.**  Take a call of `RecoverInDoubt` that begins in any reachable
state and is told of every outcome it could not propose.  If it returns no error, nothing that it
found in doubt still is.  If it meets only `Straight` steps, it returns the number of transactions
it settled. -/
theorem recovery_reports_honestly {as₀ as : List Action} {w w' : World} {groups : List ID}
    (hinit : Run (fun w a w' => exec shardFor w a = some w') {} as₀ w)
    (hcall : exec shardFor w (.recover groups) = some w')
    (hrun : Run (fun s a s' => auditExec shardFor w.procs.length s a = some s'
      ∧ Told w.procs.length s a) { world := w' } as s)
    {p : Proc} {r : Recovery} {n : Nat} {err : Option RecoverError}
    (hp : s.world.procs[w.procs.length]? = some p) (ht : p.task = .recover r (.returned n err)) :
    (Run (fun s a s' => auditExec shardFor w.procs.length s a = some s'
        ∧ Straight w.procs.length s a) { world := w' } as s → n = s.moved.length)
      ∧ s.moved.Nodup ∧ (∀ x ∈ s.moved, (s.world.phaseAt x).terminal)
      ∧ (err = none → ∀ x ∈ s.found, s.world.phaseAt x ≠ .prepared) := by
  have haudit : Audited False w.procs.length s :=
    audited_of_run hinit hcall (hrun.mono fun _ _ _ hs => ⟨hs.1, hs.2, False.elim⟩)
  obtain ⟨wait, r', pc, alive, hp', hh⟩ := haudit.call
  cases hp.symm.trans hp'
  cases ht
  obtain ⟨-, -, herr⟩ := hh.returned n err rfl
  refine ⟨fun hstraight => ?_, hh.nodup, fun x hx => Phase.two_le_stage.1 (hh.moved x hx),
    fun he x hx hprep =>
      herr he ((hh.left x hx (Phase.stage_eq_one.2 hprep)).resolve_left List.not_mem_nil)⟩
  have hcount : Audited True w.procs.length s :=
    audited_of_run hinit hcall (hstraight.mono fun _ _ _ hs => ⟨hs.1, hs.2.told, fun _ => hs.2⟩)
  obtain ⟨wait, r', pc, alive, hp', hh⟩ := hcount.call
  cases hp.symm.trans hp'
  obtain ⟨rfl, rfl, -⟩ := hh.returned n err rfl
  rw [hh.count trivial]
  rfl

end Run

/-! ## Schedules -/

namespace Schedule

/-- A transfer that both shards have voted for, and whose coordinator has died. -/
def unfinished : List Action :=
  opening ++ .transfer tx payment groups now :: round 2 debitShard ++ round 2
    creditShard ++ [.crash 2]

/-- Process 3 turns to a group it leads, catches up and reads what is in doubt there. -/
def visited (g : ID) : List Action :=
  .visit 3 g true :: round 3 g ++ [.scan 3 [tx], .next 3, .ask 3 true]

/-- Recovery settles both shards. -/
def settledBoth : List Action :=
  visited debitShard ++ round 3 debitShard ++ [.next 3]
    ++ visited creditShard ++ round 3 creditShard ++ [.next 3, .visit 3 [] true]

/-- Between the scan and the proposal the node has lost the lead of the credit shard, and `Propose`
answers with a redirect. -/
def redirected : List Action :=
  visited debitShard ++ round 3 debitShard ++ [.next 3]
    ++ visited creditShard ++ [.propose 3 (.fail false none), .next 3, .visit 3 [] true]

/-- What the call of process 3 returned. -/
def report (w : World) : Option (Nat × Option RecoverError) :=
  match (w.procs[3]?).map Proc.task with
  | some (.recover _ (.returned n err)) => some (n, err)
  | _ => none

/-- A call of recovery over an abandoned transfer, with the worlds before and after it begins. -/
def audit (P : Audit → Action → Prop) [∀ s a, Decidable (P s a)] (as : List Action) :
    Option (World × World × Audit) :=
  (execAll (exec ring) {} unfinished).bind fun w =>
    (exec ring w (.recover groups)).bind fun w' =>
      (execAll (guarded P (auditExec ring 3)) { world := w' } as).map fun s => (w, w', s)

theorem audit_eq_some {P : Audit → Action → Prop} [∀ s a, Decidable (P s a)] {as : List Action}
    {w' : World} {s : Audit} (h : audit P as = some (w, w', s)) :
    execAll (exec ring) {} unfinished = some w ∧ exec ring w (.recover groups) = some w'
      ∧ execAll (guarded P (auditExec ring 3)) { world := w' } as = some s := by
  obtain ⟨w₁, hw, h⟩ := Option.bind_eq_some_iff.1 h
  obtain ⟨w₂, hw', h⟩ := Option.bind_eq_some_iff.1 h
  obtain ⟨s', hs, he⟩ := Option.map_eq_some_iff.1 h
  cases he
  exact ⟨hw, hw', hs⟩

theorem report_eq_some {n : Nat} {err : Option RecoverError} (h : report w = some (n, err)) :
    ∃ p r, w.procs[3]? = some p ∧ p.task = .recover r (.returned n err) := by
  unfold report at h
  split at h
  next r n' err' ht =>
    cases h
    obtain ⟨p, hp, ht⟩ := Option.map_eq_some_iff.1 ht
    exact ⟨p, r, hp, ht⟩
  next => cases h

end Schedule

open Schedule in
/-- A redirect is counted as a success: recovery reports two transactions settled and no error, but
it settled one, and the other one is still in doubt. -/
theorem redirect_counted_as_settled : ∃ as₀ as w w' s,
    Run (fun w a w' => exec ring w a = some w') {} as₀ w ∧
    exec ring w (.recover groups) = some w' ∧
    Run (fun s a s' => auditExec ring w.procs.length s a = some s') { world := w' } as s ∧
    ∃ p r, s.world.procs[w.procs.length]? = some p ∧ p.task = .recover r (.returned 2 none)
      ∧ s.moved.length = 1 ∧ ∃ x ∈ s.found, s.world.phaseAt x = .prepared := by
  have h : (audit (fun _ _ => True) redirected).any (fun x => decide (x.1.procs.length = 3
      ∧ report x.2.2.world = some (2, none) ∧ x.2.2.moved.length = 1
      ∧ ∃ y ∈ x.2.2.found, x.2.2.world.phaseAt y = .prepared)) = true := by decide +kernel
  obtain ⟨⟨w, w', s⟩, hx, hp⟩ := (Option.any_eq_true _ _).1 h
  obtain ⟨hlen, hrep, hmoved, hfound⟩ := of_decide_eq_true hp
  obtain ⟨hw, hw', hs⟩ := audit_eq_some hx
  obtain ⟨p, r, hproc, ht⟩ := report_eq_some hrep
  have hrun : Run (fun s a s' => auditExec ring 3 s a = some s') { world := w' } redirected s :=
    (run_of_execAll_guarded hs).mono fun _ _ _ hst => hst.1
  rw [← hlen] at hrun hproc
  exact ⟨_, _, w, w', s, run_of_execAll hw, hw', hrun, p, r, hproc, ht, hmoved, hfound⟩

open Schedule in
/-- The recovery that is not disturbed settles both shards and says so. -/
theorem recovery_reports_honestly_undisturbed : ∃ w w' s p r,
    Run (fun w a w' => exec ring w a = some w') {} unfinished w ∧
    exec ring w (.recover groups) = some w' ∧
    Run (fun s a s' => auditExec ring w.procs.length s a = some s' ∧ Straight w.procs.length s a)
      { world := w' } settledBoth s ∧
    s.world.procs[w.procs.length]? = some p ∧ p.task = .recover r (.returned 2 none) ∧
    2 = s.moved.length ∧ s.found ≠ [] ∧ ∀ x ∈ s.found, s.world.phaseAt x ≠ .prepared := by
  have h : (audit (Straight 3) settledBoth).any (fun x => decide (x.1.procs.length = 3
      ∧ report x.2.2.world = some (2, none) ∧ x.2.2.found ≠ [])) = true := by decide +kernel
  obtain ⟨⟨w, w', s⟩, hx, hp⟩ := (Option.any_eq_true _ _).1 h
  obtain ⟨hlen, hrep, hfound⟩ := of_decide_eq_true hp
  obtain ⟨hw, hw', hs⟩ := audit_eq_some hx
  obtain ⟨p, r, hproc, ht⟩ := report_eq_some hrep
  have hrun := run_of_execAll_guarded hs
  rw [← hlen] at hrun hproc
  obtain ⟨hn, -, -, herr⟩ := recovery_reports_honestly (run_of_execAll hw) hw'
    (hrun.mono fun _ _ _ hs => ⟨hs.1, hs.2.told⟩) hproc ht
  exact ⟨w, w', s, p, r, run_of_execAll hw, hw', hrun, hproc, ht, hn hrun, hfound, herr rfl⟩

end CoreBank.Shard
