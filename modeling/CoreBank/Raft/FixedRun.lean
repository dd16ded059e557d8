import CoreBank.Raft.Fixed
import CoreBank.Raft.Refinement

/-!
# Runs of a fixed membership

In a run of a fixed membership the configuration of every log, and the peers of every server, are
the list the servers were started with.  What is left of `Ordered` is that a leader keeps no indices
of servers that are no members.

So the refinement needs nothing but `Safe`: `settled_of_run`.

## What is here

* `Tracked`, `Addressed` — a leader keeps indices of members, and every message goes to one;
* `Settled`, `settled_of_run` — the refinement for a fixed membership.
-/

set_option autoImplicit false

namespace CoreBank.Raft

open ActionSystem Consensus Majority

variable {σ : Type} {h h' : History NodeID Bytes} {id : NodeID} {s s' : Server σ}

/-! ## What a leader keeps of the others -/

/-- Nothing is on record about a server that is no member. -/
def Tracked (members : List NodeID) (s : Server σ) : Prop :=
  ∀ q, q ∉ members → s.nextIndex.at q = 0 ∧ s.matchIndex.at q = 0

theorem books_takeEntries (prev : Nat) {es : List LogEntry} (hfree : FreeEntries s.log.entries)
    (hes : FreeEntries es) :
    (s.takeEntries prev es).1.nextIndex = s.nextIndex ∧
      (s.takeEntries prev es).1.matchIndex = s.matchIndex := by
  rw [Server.takeEntries, Server.adoptConfigFromLog,
    latestConfig_of_free (hfree.appendFrom hes)]
  dsimp only
  split <;> exact ⟨rfl, rfl⟩

theorem at_insert_member {members : List NodeID} {q : NodeID} (hq : q ∈ members) {x : Progress}
    (v : Nat) {y : NodeID} (hx : y ∉ members → x.at y = 0) (hy : y ∉ members) :
    Progress.at (x.insert q v) y = 0 := by
  rw [Progress.at_insert_ne x v (by rintro rfl; exact hy hq)]
  exact hx hy

variable {m : StateMachine σ} {w : World σ} {members : List NodeID}

section Sections

variable {p : Process σ} {a : Local} {e : Effect σ}

/-- **No section keeps an index of a server that is no member.** -/
theorem Move.tracked (hm : Move m w id p a e)
    (hU : Unchanged members p.server) (ht : Tracked members p.server)
    (hid : p.server.id ∈ members) (hcalls : ∀ c ∈ w.calls, FreeEntries c.request.entries)
    (ha : a.keepsMembers)
    (hawait : ∀ call q T k, .await call (.append q T k) ∈ p.tasks ∨
      .await call (.snapshot q T k) ∈ p.tasks → q ∈ members) : Tracked members e.proc.server := by
  obtain ⟨turn, work, -, finish, -⟩ := hm.phases
  obtain ⟨c, k, x, role, removed, -, hs', -⟩ := finish.frame
  obtain ⟨hnext, hmatch⟩ := turn.progress
  rw [hs']
  cases work with
  | none | install =>
    rw [Tracked, ← hnext, ← hmatch] at ht
    exact ht
  | store => exact ht
  | lead =>
    intro q hq
    have hnot : q ∉ p.server.peers := fun hmem => hq (hU.peers ▸ hmem)
    constructor
    · refine at_insert_member hid _ (fun _ => ?_) hq
      rw [Progress.at_foldl_insert, if_neg hnot]
      exact (ht q hq).1
    · refine at_insert_member hid _ (fun _ => ?_) hq
      rw [Progress.at_foldl_insert, if_neg hnot]
      exact (ht q hq).2
  | own => exact fun q hq => ⟨(ht q hq).1, at_insert_member hid _ (fun _ => (ht q hq).2) hq⟩
  | config x C ni mi ws hs => rcases hs with ⟨rfl, -⟩ | ⟨rfl, -⟩ <;> exact ha.elim
  | tracked i j call peer t k ni mi _ htask hbooks =>
    intro q hq
    obtain ⟨hn, hm⟩ := hbooks q fun h => hq (h ▸ hawait call peer t k htask)
    exact ⟨hn.trans (ht q hq).1, hm.trans (ht q hq).2⟩
  | entries call c recent args peers ni mi ci _ hc hreq _ _ _ htake =>
    have hargs : FreeEntries args.entries := by
      have hentries := hcalls c (List.mem_of_getElem? hc)
      rw [hreq] at hentries
      exact hentries
    have hfree := hU.free
    rw [← turn.log] at hfree
    obtain ⟨hni, hmi⟩ := books_takeEntries args.prevLogIndex hfree hargs
    rw [← htake, Tracked]
    dsimp only
    rw [hni, hmi, hnext, hmatch]
    exact ht
  | compact snap =>
    rw [Server.compact]
    split <;> exact ht

theorem books_handle {call : Nat} {c : Call} (hc : w.calls[call]? = some c) (hdst : c.dst = id)
    (recent : Bool) (hfree : FreeEntries p.server.log.entries)
    (hargs : FreeEntries c.request.entries) :
    (p.handle m recent c.request).proc.server.nextIndex = p.server.nextIndex ∧
      (p.handle m recent c.request).proc.server.matchIndex = p.server.matchIndex := by
  have hm : Move m w id p _ _ := .handle call c recent hc hdst
  obtain ⟨turn, work, -, finish, -⟩ := hm.phases
  obtain ⟨_, _, _, _, _, -, hs', -⟩ := finish.frame
  rw [hs']
  cases work with
  | none | install => exact turn.progress
  | store _ _ ha | lead _ ha | own _ ha | tracked _ _ _ _ _ _ _ _ ha => cases ha
  | config x C ni mi ws hs => rcases hs with ⟨ha, -⟩ | ⟨ha, -⟩ <;> cases ha
  | entries call' c' recent' args peers ni mi ci ha hc' hreq _ _ _ htake =>
    cases ha
    rw [hc] at hc'
    cases hc'
    rw [hreq] at hargs
    rw [← turn.log] at hfree
    obtain ⟨hni, hmi⟩ := books_takeEntries args.prevLogIndex hfree hargs
    rw [← htake]
    exact ⟨hni.trans turn.progress.1, hmi.trans turn.progress.2⟩
  | compact snap =>
    rw [Server.compact]
    split <;> exact ⟨rfl, rfl⟩

end Sections

theorem tracked_start {d : Disk} {p : Process σ} (hd : FreeEntries d.saved.log.entries)
    (hp : Cluster.start ⟨m, fun _ => members⟩ id d = some p) : Tracked members p.server := by
  cases started_of_start hp with
  | fresh => exact fun q _ => ⟨rfl, rfl⟩
  | restored st x y hstate =>
    rw [Disk.saved, hstate] at hd
    have hfree : FreeEntries st.log.decoded.entries := hd.decoded rfl
    show Tracked members ((Server.new m id members).loadState st)
    rw [Server.loadState, Server.adoptConfigFromLog]
    dsimp only
    rw [latestConfig_of_free hfree]
    exact fun q _ => ⟨rfl, rfl⟩

/-! ## Who is spoken to -/

/-- Every message goes to a member, and is going to. -/
structure Addressed (members : List NodeID) (w : World σ) : Prop where
  tracked : ∀ id p, (w.node id).proc = some p → Tracked members p.server
  targets : ∀ id p, (w.node id).proc = some p → ∀ t ∈ p.tasks, ∀ q, t.target = some q → q ∈ members
  calls : ∀ c ∈ w.calls, c.dst ∈ members

theorem addressed_empty (members : List NodeID) : Addressed members ({} : World σ) where
  tracked _ _ hp := by cases hp
  targets _ _ hp := by cases hp
  calls _ hc := by cases hc

theorem Move.calls_target {p : Process σ} {a : Local} {e : Effect σ} (hm : Move m w id p a e)
    {c : NodeID × Request × Pending} (hc : c ∈ e.calls) :
    (∃ t ∈ p.tasks, t.target = some c.1) ∨ c.1 ∈ Process.others p.server := by
  cases hm.made hc with
  | vote q hq => exact .inr hq
  | entries peer t args ht | snapshot peer t args ht | beat rid peer r ht => exact .inl ⟨_, ht, rfl⟩

variable {w' : World σ}

theorem Addressed.step {a : Action} (hA : Addressed members w) (hF : Frozen members w)
    (hW : Wired w) (hs : exec ⟨m, fun _ => members⟩ w a = some w') (ha : Fixed members a) :
    Addressed members w' := by
  have hstep := stepped_of_exec hs
  have hothers {id : NodeID} {p : Process σ} (hp : (w.node id).proc = some p) (q : NodeID)
      (hq : q ∈ Process.others p.server) : q ∈ members := by
    rw [← (hF.proc id p hp).peers]
    exact (List.mem_filter.1 hq).1
  have hnode (id : NodeID) (p' : Process σ) (hp' : (w'.node id).proc = some p') :
      Tracked members p'.server ∧ ∀ t ∈ p'.tasks, ∀ q, t.target = some q → q ∈ members := by
    cases hstep.procStep hp' with
    | other _ hp' => exact ⟨hA.tracked id p' hp', hA.targets id p' hp'⟩
    | boot p hdown hp =>
      refine ⟨tracked_start (hF.carried.disk id) hp, fun t ht => ?_⟩
      rw [(start_id hp).2.2.1] at ht
      cases ht
    | act p a e hp he =>
      have hm := move_of_act he
      have hdst {call : Nat} {dst : NodeID} {req : Request}
          (hcall : w.calls[call]? = some ⟨id, dst, req⟩) : dst ∈ members :=
        hA.calls _ (List.mem_of_getElem? hcall)
      refine ⟨hm.tracked (hF.proc id p hp) (hA.tracked id p hp) ?_ hF.carried.calls ha.2 ?_, ?_⟩
      · rw [(hW id p hp).1]
        exact ha.1
      · rintro call q T k (ht | ht)
        · obtain ⟨dst, req, hcall, rfl, -⟩ := (hW id p hp).2 call _ ht
          exact hdst hcall
        · obtain ⟨dst, req, hcall, rfl, -⟩ := (hW id p hp).2 call _ ht
          exact hdst hcall
      · intro t ht q hq
        rcases mem_spawn_awaiting ht with ht | ⟨call, k, rfl⟩
        · rcases hm.targetsFrom.mem ht hq with ⟨t₀, ht₀, hq₀⟩ | hother
          · exact hA.targets id p hp t₀ ht₀ q hq₀
          · exact hothers hp q hother
        · cases hq
  refine ⟨fun id p hp => (hnode id p hp).1, fun id p hp => (hnode id p hp).2, ?_⟩
  cases hstep with
  | boot | crash | cut => exact hA.calls
  | act id p a e hp he =>
    intro c hc
    rcases List.mem_append.1 hc with hc | hc
    · exact hA.calls c hc
    · obtain ⟨c₀, hc₀, rfl⟩ := List.mem_map.1 hc
      rcases (move_of_act he).calls_target hc₀ with ⟨t, ht, hq⟩ | hother
      · exact hA.targets id p hp t ht _ hq
      · exact hothers hp _ hother

/-! ## The refinement -/

/-- No command carries a configuration. -/
abbrev noConf : Bytes → Option (List NodeID) := fun _ => none

/-- What a run with fixed members keeps. -/
structure Settled (members : List NodeID) (w : World σ) (h : History NodeID Bytes) : Prop where
  frozen : Frozen members w
  addressed : Addressed members w
  refines : Refines noConf members w h

theorem settled_empty (members : List NodeID) : Settled members ({} : World σ) History.init where
  frozen := frozen_empty members
  addressed := addressed_empty members
  refines := refines_empty

theorem current_of_unchanged (hnd : members.Nodup) (hU : Unchanged members s) :
    Current noConf members s where
  peers := hU.peers.trans (conf_of_free fun e _ => (rfl : noConf e.payload = none)).symm
  nodup := by rw [hU.peers]; exact hnd

/-- Whatever a fixed membership does is ordered. -/
theorem Settled.ordered {a : Action} (hS : Settled members w h) (hnd : members.Nodup)
    (ha : Fixed members a) : Ordered noConf members w a := by
  have hlocal {id : NodeID} {a : Local} (hmem : id ∈ members) (ha : a.keepsMembers) (p : Process σ)
      (hp : (w.node id).proc = some p) : p.Ordered noConf members a := by
    have hU := hS.frozen.proc id p hp
    have hc := current_of_unchanged hnd hU
    have hid := (hS.refines.wired id p hp).1
    cases a with
    | run i =>
      refine ⟨fun _ => ⟨hc, ?_⟩, fun t _ => ⟨hc, ?_⟩⟩
      · rw [hid, hU.peers]
        exact hmem
      · rw [hU.peers]
        exact hS.addressed.tracked id p hp
    | receive => exact hc
    | submit cmd => exact ⟨hc, rfl⟩
    | addServer | removeServer => exact ha.elim
    | _ => trivial
  cases a with
  | act id a | cut id a => exact hlocal ha.1 ha.2
  | _ => trivial

theorem Settled.step_only {a : Action} (hnd : members.Nodup) (hS : Settled members w h)
    (hs : exec ⟨m, fun _ => members⟩ w a = some w') (ha : Fixed members a) (hsafe : Safe m w a) :
    ∃ h', Only noConf members a.id h h' ∧ Settled members w' h' := by
  obtain ⟨h', ho, hR⟩ := hS.refines.step_only rfl hs hsafe (hS.ordered hnd ha)
  exact ⟨h', ho, hS.frozen.step hs ha, hS.addressed.step hS.frozen hS.refines.wired hs ha, hR⟩

theorem Settled.step {a : Action} (hnd : members.Nodup) (hS : Settled members w h)
    (hs : exec ⟨m, fun _ => members⟩ w a = some w') (ha : Fixed members a) (hsafe : Safe m w a) :
    ∃ h', Extends h h' ∧ Settled members w' h' := by
  obtain ⟨h', ho, hS'⟩ := hS.step_only hnd hs ha hsafe
  exact ⟨h', ho.extends_, hS'⟩

/-- The steps of a cluster whose members do not change, apart from those that are not safe. -/
def SafeStep (m : StateMachine σ) (members : List NodeID) (w : World σ) (a : Action)
    (w' : World σ) : Prop :=
  exec ⟨m, fun _ => members⟩ w a = some w' ∧ Fixed members a ∧ Safe m w a

/-- **A safe run of a fixed membership has a history.** -/
theorem settled_of_run (hnd : members.Nodup) {as : List Action}
    (hrun : Run (SafeStep m members) w as w') (hS : Settled members w h) :
    ∃ h', Extends h h' ∧ Settled members w' h' :=
  hrun.simulate (R := fun w h => Settled members w h) .refl (fun h₁ h₂ => h₁.trans h₂)
    (fun _ _ _ _ hs hS => hS.step hnd hs.1 hs.2.1 hs.2.2) hS

end CoreBank.Raft
