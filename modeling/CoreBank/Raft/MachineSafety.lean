import CoreBank.Raft.Applied
import CoreBank.Raft.LogSafety

/-!
# State machine safety

There is one sequence of entries such that the machine of every server, at every moment of a run, is
what that sequence up to `lastApplied` makes of a new machine.  So no two servers apply different
commands at an index, and no process applies an index twice.

A compaction is one section here (`Action.whole`): the two halves of `MaybeCompact` may be torn
apart by an `InstallSnapshot`, and then the stored snapshot may be older than the log
(`Unregressed`).

## What is here

* `Whole` — what a run of whole actions keeps, `Whole.step`;
* `state_machine_safety`, and the torn installation that breaks it.
-/

set_option autoImplicit false

namespace CoreBank.Raft

open ActionSystem Consensus

variable {σ : Type} {m : StateMachine σ} {members : List NodeID} {w w' : World σ} {id : NodeID}
  {s s' : Server σ}

/-! ## Whole actions -/

/-- `MaybeCompact` runs in one piece. -/
def Local.whole : Local → Prop
  | .takeSnapshot _ => False
  | _ => True

/-- The action's section is `whole`. -/
def Action.whole : Action → Prop
  | .act _ a | .cut _ a _ => a.whole
  | _ => True

instance (a : Local) : Decidable a.whole := by
  induction a using Local.casesOn <;> unfold Local.whole <;> infer_instance

instance (a : Action) : Decidable a.whole := by
  induction a using Action.casesOn <;> unfold Action.whole <;> infer_instance

/-- The safe steps of a fixed membership that are whole and submit no empty command. -/
def WholeStep (m : StateMachine σ) (members : List NodeID) (w : World σ) (a : Action)
    (w' : World σ) : Prop :=
  SafeStep m members w a w' ∧ a.whole ∧ a.nonEmpty

/-- No compaction is under way. -/
def Uncompacting (w : World σ) : Prop :=
  ∀ id p, (w.node id).proc = some p → ∀ t ∈ p.tasks, t.compacts = false

theorem uncompacting_empty : Uncompacting ({} : World σ) := fun _ _ hp => by cases hp

theorem Uncompacting.step {cl : Cluster σ} {a : Action} (hU : Uncompacting w)
    (hs : Stepped cl w a w') (ha : a.whole) : Uncompacting w' := by
  intro id p' hp'
  cases hs.procStep hp' with
  | other _ hp' => exact hU id p' hp'
  | boot p hdown hp =>
    rw [(start_id hp).2.2.1]
    exact nofun
  | act p b e hp he =>
    intro t ht
    rcases mem_spawn_awaiting ht with ht | ⟨call, k, rfl⟩
    · rw [← Bool.not_eq_true]
      intro hc
      rcases (move_of_act he).compacts ht hc with hold | ⟨snap, -, hold, -⟩ |
        ⟨threshold, snap, rfl, -⟩
      · rw [hU id p hp t hold] at hc
        cases hc
      · cases hU id p hp _ hold
      · exact ha
    · rfl

theorem Uncompacting.unregressed (hU : Uncompacting w) (a : Action) (id : NodeID) :
    Unregressed id (w.node id) a := by
  have hlocal (b : Local) (p : Process σ) (hp : (w.node id).proc = some p) : p.saving?
    b = none := by
    cases b with
    | run i =>
      rw [Process.saving?]
      split
      next snap ht => cases hU id p hp _ (List.mem_of_getElem? ht)
      next => rfl
    | _ => rfl
  cases a with
  | act x b | cut x b k =>
    rintro rfl p hp snap hsnap
    rw [hlocal b p hp] at hsnap
    cases hsnap
  | boot | crash => trivial

/-! ## The invariant -/

variable (m members) in
/-- The cluster of a fixed membership refines a history, and its machines fit the logs. -/
structure Steady (w : World σ) (h : History NodeID Bytes) : Prop where
  frozen : Frozen members w
  addressed : Addressed members w
  coherent : Coherent m noConf members w h

theorem steady_empty : Steady m members ({} : World σ) History.init where
  frozen := frozen_empty members
  addressed := addressed_empty members
  coherent := coherent_empty

variable {h : History NodeID Bytes}

theorem Steady.settled (hS : Steady m members w h) :
    Settled members w h :=
  ⟨hS.frozen, hS.addressed, hS.coherent.refines⟩

theorem Steady.step {a : Action} (hnd : members.Nodup) (hS : Steady m members w h)
    (hs : SafeStep m members w a w') (hreg : ∀ id, Unregressed id (w.node id) a)
    (hbytes : a.nonEmpty) :
    ∃ h', Extends h h' ∧ Steady m members w' h' := by
  obtain ⟨hexec, hfixed, hsafe⟩ := hs
  obtain ⟨h', hx, hC⟩ := hS.coherent.step rfl hexec hsafe (hS.settled.ordered hnd hfixed) hreg
    (Action.brings_of_nonEmpty hbytes)
  exact ⟨h', hx, hS.frozen.step hexec hfixed,
    hS.addressed.step hS.frozen hS.coherent.refines.wired hexec hfixed, hC⟩

variable (m members) in
/-- What a run of whole actions keeps. -/
structure Whole (w : World σ) (h : History NodeID Bytes) : Prop where
  steady : Steady m members w h
  uncompacting : Uncompacting w

theorem whole_empty : Whole m members ({} : World σ) History.init where
  steady := steady_empty
  uncompacting := uncompacting_empty

theorem Whole.step {a : Action} (hnd : members.Nodup) (hW : Whole m members w h)
    (hs : WholeStep m members w a w') :
    ∃ h', Extends h h' ∧ Whole m members w' h' := by
  obtain ⟨hsafe, hwhole, hbytes⟩ := hs
  obtain ⟨h', hx, hS⟩ := hW.steady.step hnd hsafe (hW.uncompacting.unregressed a) hbytes
  exact ⟨h', hx, hS, hW.uncompacting.step (stepped_of_exec hsafe.1) hwhole⟩

/-! ## One sequence -/

variable {R : σ → σ → Prop}

/-- The machine is, up to `R`, what the first `lastApplied` entries of `G` make of a new one, and
these are the entries in the log. -/
structure Server.Folds (m : StateMachine σ) (R : σ → σ → Prop) (G : List (Entry Bytes))
    (s : Server σ) : Prop where
  le : s.lastApplied ≤ G.length
  log : s.log.abs.take s.lastApplied = G.take s.lastApplied
  sm : R s.sm (m.fold (G.take s.lastApplied))

/-- From `s` to `s'` the entries of `G` that follow have been applied, each of them once. -/
structure Server.Continues (m : StateMachine σ) (R : σ → σ → Prop) (G : List (Entry Bytes))
    (s s' : Server σ) : Prop where
  le : s.lastApplied ≤ s'.lastApplied
  sm : R s'.sm (m.after s.lastApplied ((G.take s'.lastApplied).drop s.lastApplied) s.sm)

theorem Server.Folds.mono {G G' : List (Entry Bytes)} (hf : s.Folds m R G) (hG : G <+: G') :
    s.Folds m R G' where
  le := hf.le.trans hG.length_le
  log := by rw [hf.log, take_eq_of_isPrefix hG hf.le]
  sm := by rw [take_eq_of_isPrefix hG hf.le]; exact hf.sm

theorem Server.Folds.continues {G : List (Entry Bytes)} (hm : m.Faithful R) (hf : s.Folds m R G)
    (hf' : s'.Folds m R G) (hle : s.lastApplied ≤ s'.lastApplied) : s.Continues m R G s' := by
  refine ⟨hle, hm.trans hf'.sm ?_⟩
  have htake : (G.take s'.lastApplied).take s.lastApplied = G.take s.lastApplied := by
    rw [List.take_take, Nat.min_eq_left hle]
  have hlen : (G.take s.lastApplied).length = s.lastApplied := by
    rw [List.length_take, Nat.min_eq_left hf.le]
  have hsplit : m.fold (G.take s'.lastApplied) = m.after s.lastApplied
      ((G.take s'.lastApplied).drop s.lastApplied) (m.fold (G.take s.lastApplied)) := by
    conv_lhs => rw [← List.take_append_drop s.lastApplied (G.take s'.lastApplied), htake]
    rw [StateMachine.fold, StateMachine.after_append, hlen, Nat.zero_add, StateMachine.fold]
  rw [hsplit]
  exact hm.after (hm.symm hf.sm) _ _

/-- What a server has applied was decided. -/
theorem Whole.applied (hm : m.Faithful R) (hW : Whole m members w h) (hs : w.server id = some s) :
    Sealed h (s.log.abs.take s.lastApplied) ∧ s.Folds m R (s.log.abs.take s.lastApplied) := by
  obtain ⟨hR, -⟩ := hW.steady.settled.refines.server hs
  obtain ⟨p, hp, rfl⟩ := server_eq_some.1 hs
  have hlen := hR.length
  have happ := hR.applied
  refine ⟨by rw [happ]; exact hR.commit, ?_, ?_, ?_⟩
  · rw [List.length_take]
    omega
  · rw [List.take_take, Nat.min_self]
  · rw [List.take_take, Nat.min_self]
    exact (hW.steady.coherent.mirrored.machine id p hp).fold hm

theorem Stepped.actor {cl : Cluster σ} {a : Action} (hs : Stepped cl w a w') :
    ∃ id, ∀ x, x ≠ id → w'.node x = w.node x := by
  cases hs with
  | boot id | crash id | cut id => exact ⟨id, fun x hx => node_setNode_ne w _ hx⟩
  | act id p a e => exact ⟨id, fun x hx => node_commit_ne w a e hx⟩

/-- The sequence that has been decided after a run holds what every server has applied in it. -/
theorem exists_sequence (hm : m.Faithful R) (hnd : members.Nodup) {as : List Action}
    (hrun : Run (WholeStep m members) {} as w) :
    ∃ h G, Whole m members w h ∧ Sealed h G ∧ ∀ bs w₁ x s, bs <+: as →
      Run (WholeStep m members) {} bs w₁ → w₁.server x = some s → s.Folds m R G := by
  have hdet : ∀ (w : World σ) a x y, WholeStep m members w a x →
    WholeStep m members w a y → x = y := by
    intro w a x y hx hy
    have hxy := hx.1.1.symm.trans hy.1.1
    exact Option.some.inj hxy
  induction as using List.reverseRecOn generalizing w with
  | nil =>
    refine ⟨History.init, [], ?_, sealed_nil _, fun bs w₁ x s hbs hr hs => ?_⟩
    · cases hrun
      exact whole_empty
    · cases List.prefix_nil.1 hbs
      cases hr
      cases hs
  | append_singleton as a ih =>
    obtain ⟨v, hrun₁, hrun₂⟩ := hrun.split
    obtain ⟨h, G, hW, hG, hall⟩ := ih hrun₁
    cases hrun₂ with
    | cons hstep hnil =>
      cases hnil
      obtain ⟨h', hx, hW'⟩ := hW.step hnd hstep
      have hG' := hG.mono hW.steady.coherent.refines.inv hx
      obtain ⟨id, hframe⟩ := (stepped_of_exec hstep.1.1).actor
      -- the sequence grows by what the server that moved has applied
      have hnew : ∃ G', Sealed h' G' ∧ G <+: G' ∧ ∀ s, w.server id = some s → s.Folds m R G' := by
        cases hs : w.server id with
        | none => exact ⟨G, hG', List.prefix_refl G, nofun⟩
        | some s =>
          obtain ⟨hL, hfolds⟩ := hW'.applied hm hs
          rcases hG'.total hW'.steady.coherent.refines.inv hL with hpre | hpre
          · exact ⟨_, hL, hpre, fun _ hs' => by cases hs'; exact hfolds⟩
          · exact ⟨G, hG', List.prefix_refl G, fun _ hs' => by cases hs'; exact hfolds.mono hpre⟩
      obtain ⟨G', hsealed, hpre, hmoved⟩ := hnew
      refine ⟨h', G', hW', hsealed, fun bs w₁ x s hbs hr hs => ?_⟩
      rcases List.prefix_concat_iff.1 hbs with rfl | hbs
      · have hend : w₁ = w := by
          have hlast := hrun₁.suffix hdet hr
          cases hlast with
          | cons hstep' hnil' =>
            cases hnil'
            exact hdet _ _ _ _ hstep' hstep
        subst hend
        by_cases hid : x = id
        · subst hid
          exact hmoved s hs
        · rw [World.server, hframe x hid] at hs
          exact (hall as v x s (List.prefix_refl as) hrun₁ hs).mono hpre
      · exact (hall bs w₁ x s hbs hr hs).mono hpre

/-- **State machine safety.**  There is one sequence of entries such that, in every state of a run,
the machine of every server is what the sequence up to `lastApplied` makes of a new one, up to what
a snapshot does not carry; and a process goes on in it. -/
theorem state_machine_safety (hm : m.Faithful R) (hnd : members.Nodup) {as : List Action}
    (hrun : Run (WholeStep m members) {} as w) :
    ∃ G, (∀ bs w₁ x s, bs <+: as → Run (WholeStep m members) {} bs w₁ → w₁.server x = some s →
        s.Folds m R G) ∧
      ∀ bs b w₁ w₂ x s s', bs ++ [b] <+: as → Run (WholeStep m members) {} bs w₁ →
        WholeStep m members w₁ b w₂ → w₁.server x = some s → w₂.server x = some s' →
        s.Continues m R G s' := by
  obtain ⟨h, G, -, -, hall⟩ := exists_sequence hm hnd hrun
  refine ⟨G, hall, fun bs b w₁ w₂ x s s' hbs hr hstep hs hs' => ?_⟩
  have hf := hall bs w₁ x s ((List.prefix_append bs [b]).trans hbs) hr hs
  have hf' := hall (bs ++ [b]) w₂ x s' hbs (hr.concat hstep) hs'
  obtain ⟨h₁, -, hS⟩ := settled_of_run hnd (hr.mono fun _ _ _ hstep => hstep.1)
    (settled_empty members)
  exact hf.continues hm hf' (hS.advances hnd hstep.1 hs hs').applied

theorem journal_faithful : journal.Faithful Eq where
  new := rfl
  symm := Eq.symm
  trans := Eq.trans
  apply _ _ _ _ h := by rw [h]
  restore := by
    rintro r ⟨⟩ x data - ⟨⟩ y
    exact ⟨_, rfl, rfl⟩

/-- Server 1 commits a command with server 2 and discards its log; server 3 installs the snapshot
and starts anew from it. -/
def caughtUp : List Action :=
  leaderOfThree ++ [.act [1] (.submit [7]), .run [1] 1, .deliver [2] 2, .receive [1] 3 1,
    .act [1] (.maybeCompact 0), .run [1] 1, .run [1] 2, .deliver [3] 3, .crash [3], .boot [3]]

/-- The machine that server 3 was given is the one that server 1 had come to. -/
theorem state_machine_safety_caughtUp :
    ∃ w s G, Run (WholeStep journal [[1], [2], [3]]) {} caughtUp w ∧ w.server [3] = some s ∧
      s.lastApplied = 2 ∧ s.sm = [7] ∧ s.Folds journal Eq G := by
  obtain ⟨w, s, hrun, hs, happ, hsm⟩ : ∃ w s,
      Run (fun w a w' => exec (journalCluster [[1], [2], [3]]) w a = some w' ∧
        (Fixed [[1], [2], [3]] a ∧ Safe journal w a) ∧ a.whole ∧ a.nonEmpty) {} caughtUp w ∧
      w.server [3] = some s ∧ s.lastApplied = 2 ∧ s.sm = [7] :=
    exists_run_guarded_some (by decide +kernel)
  have hrun' : Run (WholeStep journal [[1], [2], [3]]) {} caughtUp w :=
    hrun.mono fun _ _ _ hstep => ⟨⟨hstep.1, hstep.2.1⟩, hstep.2.2⟩
  obtain ⟨G, hG, -⟩ := state_machine_safety journal_faithful (by decide) hrun'
  exact ⟨w, s, G, hrun', hs, happ, hsm, hG _ w [3] s (List.prefix_refl _) hrun' hs⟩

/-- Server 2, the leader of term 4, has a command at the third index; it replaces the log of server
3, which then starts anew. -/
def tornReplay : List Action :=
  [.act [2] (.submit [9]), .run [2] 17, .run [2] 19, .deliver [3] 69, .receive [2] 23 29,
    .heartbeat [2], .run [2] 17, .run [2] 24, .deliver [3] 70, .crash [3], .boot [3]]

/-- Server 3 has applied the commands 2 and 3 through the third index, and later the command 9
instead: there is no one sequence. -/
theorem torn_install_breaks_machines :
    ∃ w w' s s',
      Run (fun w a w' => exec (journalCluster [[1], [2], [3], [4], [5], [6], [7]]) w a = some w' ∧
        Fixed [[1], [2], [3], [4], [5], [6], [7]] a ∧ a.whole ∧ a.nonEmpty) {} tornInstall w ∧
      Run (fun w a w' => exec (journalCluster [[1], [2], [3], [4], [5], [6], [7]]) w a = some w' ∧
        Fixed [[1], [2], [3], [4], [5], [6], [7]] a ∧ a.whole
          ∧ a.nonEmpty) w (tornVote ++ tornReplay) w' ∧
      w.server [3] = some s ∧ w'.server [3] = some s' ∧
      s.lastApplied = 3 ∧ s.sm = [2, 3] ∧ s'.lastApplied = 3 ∧ s'.sm = [9] ∧
      ∀ G, ¬ (s.Folds journal Eq G ∧ s'.Folds journal Eq G) := by
  obtain ⟨w, s, hrun, hs, ⟨happ, hsm⟩, w', hw', s', hs', happ', hsm'⟩ : ∃ w s,
      Run (fun w a w' => exec (journalCluster [[1], [2], [3], [4], [5], [6], [7]]) w a = some w' ∧
        Fixed [[1], [2], [3], [4], [5], [6], [7]] a ∧ a.whole ∧ a.nonEmpty) {} tornInstall w ∧
      w.server [3] = some s ∧ (s.lastApplied = 3 ∧ s.sm = [2, 3]) ∧
      ∃ w' ∈ execAll (guarded
        (fun _ a => Fixed [[1], [2], [3], [4], [5], [6], [7]] a ∧ a.whole ∧ a.nonEmpty)
        (exec (journalCluster [[1], [2], [3], [4], [5], [6], [7]]))) w (tornVote ++ tornReplay),
        ∃ s' ∈ w'.server [3], s'.lastApplied = 3 ∧ s'.sm = [9] :=
    exists_run_guarded_some (by decide +kernel)
  refine ⟨w, w', s, s', hrun, run_of_execAll_guarded hw', hs, hs', happ, hsm, happ', hsm', ?_⟩
  rintro G ⟨hf, hf'⟩
  have heq : s.sm = s'.sm := by rw [hf.sm, hf'.sm, happ, happ']
  rw [hsm, hsm'] at heq
  cases heq

end CoreBank.Raft
