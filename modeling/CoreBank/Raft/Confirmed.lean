import CoreBank.Raft.Leadership
import CoreBank.Raft.LogSafety

/-!
# What a match index stands for

A leader raises the match index of a peer from what it sent, when the reply comes.  A reply to
entries says whether they were taken over; a reply to a snapshot says nothing but a term.  The
leader counts it even if the follower's machine could not restore it.

## What is here

* `ServerRef.confirmed_appendEntries`, `ServerRef.confirmed_installSnapshot` — what a follower holds
  when it answers;
* `Restores` — no snapshot is refused by the machine;
* `Supported` — every match index, and every reply on its way to raise one, is
  `Consensus.Confirmed`;
* `match_index_confirmed`, and a follower that is credited with entries it never had.
-/

set_option autoImplicit false

namespace CoreBank.Raft

open Consensus ActionSystem

variable {σ : Type} {confOf : Bytes → Option (List NodeID)} {C₀ : List NodeID}
  {h h' : History NodeID Bytes} {id src : NodeID} {s s' : Server σ} {m : StateMachine σ}

/-! ## What a follower holds when it answers -/

theorem ServerRef.confirmed_of_isPrefix (hs' : ServerRef h' id s') {T k : Nat}
    (hx : Extends h h') (hk : k ≤ (h.leaderLog T).length) (hterm : s'.currentTerm = T)
    (hpre : (h.leaderLog T).take k <+: s'.log.abs) : Confirmed h' id T k := by
  refine ⟨hk.trans (hx.leaderLog T).length_le,
    Nat.le_of_eq (hs'.term.trans hterm).symm, fun _ => ?_⟩
  rw [hx.take_leaderLog hk, hs'.log]
  exact hpre

theorem ServerRef.confirmed_own (hs : ServerRef h id s) (hw : s.log.WF) (hlead : s.role = .leader) :
    Confirmed h id s.currentTerm s.log.lastIndex := by
  obtain ⟨A, hl⟩ := hs.leader hlead
  have hlen : s.log.lastIndex = (h.leaderLog s.currentTerm).length := by
    rw [hl.log, Log.length_abs, hw.lastIndex]
  refine hs.confirmed_of_isPrefix (.refl h) hlen.le rfl ?_
  rw [hl.log]
  exact List.take_prefix _ _

theorem ServerRef.confirmed_appendEntries {args : AppendEntriesArgs} (hs : ServerRef h id s)
    (hs' : ServerRef h' id (s.appendEntries m args).1) (hI : Inv confOf C₀ h) (hx : Extends h h')
    (hw : s.log.WF) (hr : RequestRef h src (.appendEntries args))
    (hsucc : (s.appendEntries m args).2.2.success = true) :
    Confirmed h' id args.term (args.prevLogIndex + args.entries.length) := by
  obtain ⟨⟨A, he⟩, hlen, hprev, hes, -⟩ := hr
  obtain ⟨role, -, hf⟩ := s.followLeader_frame args.term args.leaderID
  rcases s.appendEntries_cases m args with ⟨-, hcase⟩ | ⟨-, -, hcase⟩ | ⟨hle, hm, s₂, hs₂, hcase⟩
  · rw [hcase] at hsucc
    cases hsucc
  · rw [hcase] at hsucc
    cases hsucc
  obtain ⟨peers, ni, mi, ci, htake, -⟩ :=
    (s.followLeader args.term args.leaderID).takeEntries_frame args.prevLogIndex args.entries
  obtain ⟨c, k, x, hl, -⟩ := Server.learnCommit_frame m s₂ args.leaderCommit
    (args.prevLogIndex + args.entries.length)
  rw [hcase, hl, hs₂, htake, hf] at hs'
  rw [hprev] at hm
  refine hs'.confirmed_of_isPrefix hx hlen (Nat.max_eq_right hle) ?_
  obtain ⟨-, ⟨habs, hpre⟩ | ⟨habs, -⟩⟩ := hs.appendFrom hI hw hle he hlen hes hm
  · exact habs ▸ hpre
  · exact habs ▸ List.prefix_refl _

/-- The machine refuses a snapshot that the server would install. -/
def Server.refuses (m : StateMachine σ) (s : Server σ) (args : InstallSnapshotArgs) : Bool :=
  decide (s.currentTerm ≤ args.term) &&
    decide (s.log.baseIndex < args.snapshot.lastIncludedIndex) &&
    decide (s.lastApplied < args.snapshot.lastIncludedIndex) &&
    (m.snapshotter.bind fun r => r.restoreSnapshot args.snapshot.data s.sm).isNone

/-- A snapshot of what was decided starts every log that has decided as much. -/
theorem ServerRef.prefix_of_covered (hs : ServerRef h id s) (hI : Inv confOf C₀ h) {snap : Snapshot}
    (hsw : snap.WF) (hsealed : Sealed h snap.abs) (hle : snap.lastIncludedIndex ≤ s.commitIndex) :
    snap.abs <+: s.log.abs := by
  have hlen := hs.length
  rcases hsealed.total hI hs.commit with hpre | hpre
  · exact hpre.trans (List.take_prefix _ _)
  · have heq := hpre.eq_of_length_le (by rw [hsw.length_abs, List.length_take]; omega)
    exact heq ▸ List.take_prefix _ _

/-- A follower that answers a snapshot in its term holds what the snapshot stands for, unless its
machine refused it. -/
theorem ServerRef.confirmed_installSnapshot {args : InstallSnapshotArgs} (hs : ServerRef h id s)
    (hs' : ServerRef h' id (s.installSnapshot m args).1) (hI : Inv confOf C₀ h) (hx : Extends h h')
    (hw : s.log.WF) (hsw : args.snapshot.WF) (hr : RequestRef h src (.installSnapshot args))
    (hreply : (s.installSnapshot m args).2.2.term ≤ args.term) (hno : s.refuses m args = false) :
    Confirmed h' id args.term args.snapshot.lastIncludedIndex := by
  obtain ⟨⟨A, he⟩, hdec, hsealed⟩ := hr
  have hpre := hdec.prefix_leaderLog hI he
  obtain ⟨hlen, htake⟩ := take_of_isPrefix hpre hsw.length_abs
  rcases s.installSnapshot_cases m args with
    ⟨hlt, hcase⟩ | ⟨hle, hwhy, hcase⟩ | ⟨hle, hlt, happ, x, hres, s₂, hs₂, hcase⟩
  · rw [hcase] at hreply
    exact absurd hlt (Nat.not_lt.2 hreply)
  · rw [hcase, s.heedSnapshot_frame] at hs'
    refine hs'.confirmed_of_isPrefix hx hlen (Nat.max_eq_right hle) ?_
    rw [htake]
    refine hs.prefix_of_covered hI hsw hsealed ?_
    have hbase := hs.base
    have happ := hs.applied
    rcases hwhy with hb | ha | hres
    · omega
    · omega
    · -- the machine does not refuse, so one of the other two reasons holds
      by_contra hgt
      have hb : s.log.baseIndex < args.snapshot.lastIncludedIndex := by omega
      have ha : s.lastApplied < args.snapshot.lastIncludedIndex := by omega
      simp [Server.refuses, hle, hb, ha, hres] at hno
  · rw [hcase, hs₂, Server.adoptSnapshot, s.heedSnapshot_frame] at hs'
    refine hs'.confirmed_of_isPrefix hx hlen (Nat.max_eq_right hle) ?_
    have hgrown : Grown h s.log.abs := hs.log ▸ hI.log_grown id
    obtain ⟨-, -, ⟨habs, hheld⟩ | ⟨habs, -⟩⟩ := Server.abs_rebase_cases hI hw hgrown he hsw hdec hlt
    · rw [htake]
      exact habs ▸ hheld
    · rw [htake]
      exact habs ▸ List.prefix_refl _

/-! ## The invariant -/

/-- No snapshot that a section would install is refused by the machine. -/
def Process.Restores (m : StateMachine σ) (w : World σ) (p : Process σ) : Local → Prop
  | .deliver call _ => ∀ c ∈ w.calls[call]?, match c.request with
    | .installSnapshot args => p.server.refuses m args = false
    | _ => True
  | _ => True

instance (m : StateMachine σ) (w : World σ) (p : Process σ) (a : Local) :
    Decidable (p.Restores m w a) := by
  induction a using Local.casesOn
  case deliver call recent =>
    refine @Option.decidableForallMem _ _ (fun c => ?_) _
    generalize c.request = req
    induction req using Request.casesOn <;> infer_instance
  all_goals exact instDecidableTrue

/-- The action is one of a server whose section restores what it would install. -/
abbrev Restores (m : StateMachine σ) (w : World σ) : Action → Prop :=
  w.Takes fun _ p => p.Restores m w

/-- Every match index stands for something, and so does every reply that may raise one. -/
structure Supported (w : World σ) (h : History NodeID Bytes) : Prop where
  matched : ∀ id p, (w.node id).proc = some p → p.server.role = .leader → ∀ q,
    p.server.matchIndex.at q = 0 ∨ Confirmed h q p.server.currentTerm (p.server.matchIndex.at q)
  answered : ∀ id p, (w.node id).proc = some p → ∀ call q T k r,
    .await call (.append q T k) ∈ p.tasks → (call, .appendEntries r) ∈ w.replies →
      r.success = true → Confirmed h q T k
  installed : ∀ id p, (w.node id).proc = some p → ∀ call q T i r,
    .await call (.snapshot q T i) ∈ p.tasks → (call, .installSnapshot r) ∈ w.replies →
      r.term ≤ T → Confirmed h q T i

theorem supported_empty : Supported ({} : World σ) History.init where
  matched _ _ hp := nomatch hp
  answered _ _ hp := nomatch hp
  installed _ _ hp := nomatch hp

section Steps

variable {members : List NodeID} {w w' : World σ} {p : Process σ} {a : Local} {e : Effect σ}

/-- **The match indices of a server that leads after a section.** -/
theorem Supported.led (hU : Supported w h) (hS : Settled members w h)
    (hp : (w.node id).proc = some p) (hl : Led m w id p a s') (ho : Only noConf members id h h')
    (hs' : ServerRef h' id s') (hw' : s'.log.WF) (hlead : s'.role = .leader) (ha : a.keepsMembers)
    (q : NodeID) : s'.matchIndex.at q = 0 ∨ Confirmed h' q s'.currentTerm (s'.matchIndex.at q) := by
  have hid := (hS.refines.wired id p hp).1
  have hold (hrole : p.server.role = .leader) : p.server.matchIndex.at q = 0 ∨
      Confirmed h' q p.server.currentTerm (p.server.matchIndex.at q) :=
    (hU.matched id p hp hrole q).imp_right fun hc => hc.only ho
  have hown := hs'.confirmed_own hw' hlead
  cases hl with
  | same _ hrole hs =>
    rw [hs.matchIndex, hs.term]
    exact hold hrole
  | promoted i term ht hrole hterm =>
    rw [Server.currentTerm_advance, Server.log_advance] at hown
    rw [Server.matchIndex_advance, Server.currentTerm_advance]
    by_cases hq : q = p.server.id
    · right
      rw [Server.lead, Log.lastIndex_push] at hown
      rw [hq, hid, Server.lead]
      dsimp only
      rw [hid, Progress.at_insert_self]
      exact hown
    · left
      rw [Server.lead]
      dsimp only
      rw [Progress.at_insert_ne _ _ hq, Progress.at_foldl_insert]
      split
      · rfl
      next hno =>
        -- the books hold nothing about servers that are no members
        rw [(hS.frozen.proc id p hp).peers] at hno
        exact (hS.addressed.tracked id p hp q hno).2
  | matched i j call peer term k r ht hr hle hrole hterm hsuccess =>
    rw [Server.matchIndex_advance, Server.currentTerm_advance, Server.recordMatch]
    split
    next hlt =>
      dsimp only
      by_cases hq : q = peer
      · right
        rw [hq, Progress.at_insert_self, hterm]
        exact (hU.answered id p hp call peer term k r (List.mem_of_getElem? ht)
          (List.mem_of_getElem? hr) hsuccess).only ho
      · rw [Progress.at_insert_ne _ _ hq]
        exact hold hrole
    next => exact hold hrole
  | backedUp i j call peer term k r ht hr hle hrole =>
    obtain ⟨ni, heq, -⟩ := p.server.backUp_frame peer
    rw [heq]
    exact hold hrole
  | shipped i j call peer term idx r ht hr hle hrole hterm =>
    rw [Server.matchIndex_advance, Server.currentTerm_advance, Server.recordSnapshot]
    dsimp only
    split
    next hlt =>
      by_cases hq : q = peer
      · right
        rw [hq, Progress.at_insert_self, hterm]
        exact (hU.installed id p hp call peer term idx r (List.mem_of_getElem? ht)
          (List.mem_of_getElem? hr) (hterm ▸ hle)).only ho
      · rw [Progress.at_insert_ne _ _ hq]
        exact hold hrole
    next => exact hold hrole
  | submitted cmd hrole =>
    rw [Server.currentTerm_advance, Server.log_advance] at hown
    rw [Server.matchIndex_advance, Server.currentTerm_advance]
    by_cases hq : q = p.server.id
    · right
      rw [Server.appendOwn, Log.lastIndex_push] at hown
      rw [hq, hid, Server.appendOwn]
      dsimp only
      rw [hid, Progress.at_insert_self]
      exact hown
    · rw [Server.appendOwn]
      dsimp only
      rw [Progress.at_insert_ne _ _ hq]
      exact hold hrole
  | added | removed => exact ha.elim
  | overruled call recent c hc hdst hrole hterm =>
    obtain ⟨-, hct⟩ := (Remains.handle hc hdst recent).leader hlead
    obtain ⟨-, hmatch⟩ := books_handle (m := m) hc hdst recent (hS.frozen.proc id p hp).free
      (hS.frozen.carried.calls c (List.mem_of_getElem? hc))
    rw [hct, hmatch]
    exact hold hrole

/-- A goroutine that waits for a call that was answered was waiting before the section. -/
theorem await_of_commit {call : Nat} {k : Pending} {r : Reply} {beats : Nat → Prop} {id' : NodeID}
    {p' : Process σ} (hm : Move m w id p a e) (hp : (w.node id).proc = some p)
    (hM : Messages h w beats) (hp' : ((w.commit id a e).node id').proc = some p')
    (ht : .await call k ∈ p'.tasks) (hr : (call, r) ∈ (w.commit id a e).replies) :
    ∃ p₀, (w.node id').proc = some p₀ ∧ .await call k ∈ p₀.tasks := by
  by_cases hid : id' = id
  · subst hid
    rw [node_commit_self] at hp'
    cases hp'
    rcases mem_spawn ht with ht | ht
    · exact ⟨p, hp, hm.await_mem ht⟩
    · -- the new calls have no replies
      obtain ⟨i, c, -, rfl, -⟩ := mem_awaiting ht
      have hlt : w.calls.length + i < w.calls.length := by
        rcases List.mem_append.1 hr with hr | hr
        · exact hM.answered _ _ hr
        · exact hm.replied hr
      omega
  · rw [node_commit_ne _ _ _ hid] at hp'
    exact ⟨p', hp', ht⟩

/-- **A section.** -/
theorem Supported.commit (hU : Supported w h) (hS : Settled members w h)
    (hS' : Settled members (w.commit id a e) h') (ho : Only noConf members id h h')
    (hp : (w.node id).proc = some p) (hm : Move m w id p a e) (ha : a.keepsMembers)
    (hres : p.Restores m w a) : Supported (w.commit id a e) h' := by
  obtain ⟨beats, hM⟩ := hS.refines.messages
  have hI := hS.refines.inv
  have hs := ((hS.refines.node id).proc p hp).server
  have hw := (hS.refines.wf.proc id p hp).server
  have hself : ((w.commit id a e).node id).proc =
      some (e.proc.spawn (awaiting w.calls.length e.calls)) := by rw [node_commit_self]
  have hs' : ServerRef h' id e.proc.server := ((hS'.refines.node id).proc _ hself).server
  constructor
  case matched =>
    intro id' p' hp' hlead q
    by_cases hid : id' = id
    · subst hid
      cases hself.symm.trans hp'
      exact hU.led hS hp (hm.led hw.log hlead) ho hs' (hS'.refines.wf.proc _ _ hself).server.log
        hlead ha q
    · rw [node_commit_ne _ _ _ hid] at hp'
      exact (hU.matched id' p' hp' hlead q).imp_right fun hc => hc.only ho
  case answered =>
    intro id' p' hp' call q T k r ht hr hsucc
    obtain ⟨p₀, hp₀, ht₀⟩ := await_of_commit hm hp hM hp' ht hr
    rcases List.mem_append.1 hr with hold | hnew
    · exact (hU.answered id' p₀ hp₀ call q T k r ht₀ hold hsucc).only ho
    · obtain ⟨recent, c, rfl, hc, hdst, rfl⟩ := hm.handled hnew
      obtain ⟨dst, req, hc', rfl, args, rfl, rfl, rfl⟩ := (hS.refines.wired id' p₀ hp₀).2 call _ ht₀
      cases hc.symm.trans hc'
      subst hdst
      have hreq := (hM.calls _ _ hc).request (hM.awaited id' p₀ hp₀ call _ ht₀ nofun)
      cases List.mem_singleton.1 hnew
      exact hs.confirmed_appendEntries hs' hI ho.extends_ hw.log hreq hsucc
  case installed =>
    intro id' p' hp' call q T i r ht hr hle
    obtain ⟨p₀, hp₀, ht₀⟩ := await_of_commit hm hp hM hp' ht hr
    rcases List.mem_append.1 hr with hold | hnew
    · exact (hU.installed id' p₀ hp₀ call q T i r ht₀ hold hle).only ho
    · obtain ⟨recent, c, rfl, hc, hdst, rfl⟩ := hm.handled hnew
      obtain ⟨dst, req, hc', rfl, args, rfl, rfl, rfl⟩ := (hS.refines.wired id' p₀ hp₀).2 call _ ht₀
      cases hc.symm.trans hc'
      subst hdst
      have hreq := (hM.calls _ _ hc).request (hM.awaited id' p₀ hp₀ call _ ht₀ nofun)
      cases List.mem_singleton.1 hnew
      exact hs.confirmed_installSnapshot hs' hI ho.extends_ hw.log
        (hS.refines.wf.calls _ (List.mem_of_getElem? hc)) hreq hle (hres _ hc)

/-- A server that starts leads nobody and waits for nothing. -/
theorem Supported.setNode {n : Node σ} (hU : Supported w h) (ho : Only noConf members id h h')
    (hn : ∀ p, n.proc = some p → p.server.role = .follower ∧ p.tasks = []) :
    Supported (w.setNode id n) h' := by
  have hnone {p : Process σ} (hp : n.proc = some p) {t : Task} (ht : t ∈ p.tasks) : False := by
    rw [(hn p hp).2] at ht
    cases ht
  constructor
  case matched =>
    refine forall_setNode (P := fun _ n => ∀ p, n.proc = some p → p.server.role = .leader → ∀ q,
      p.server.matchIndex.at q = 0 ∨ Confirmed h' q p.server.currentTerm (p.server.matchIndex.at q))
      (fun p hp hlead => ?_) fun id' _ p hp hlead q => ?_
    · rw [(hn p hp).1] at hlead
      cases hlead
    · exact (hU.matched id' p hp hlead q).imp_right fun hc => hc.only ho
  case answered =>
    refine forall_setNode (P := fun _ n => ∀ p, n.proc = some p → ∀ call q T k r,
      .await call (.append q T k) ∈ p.tasks → (call, .appendEntries r) ∈ w.replies →
        r.success = true → Confirmed h' q T k)
      (fun p hp _ _ _ _ _ ht => (hnone hp ht).elim) fun id' _ p hp call q T k r ht hr hsucc => ?_
    exact (hU.answered id' p hp call q T k r ht hr hsucc).only ho
  case installed =>
    refine forall_setNode (P := fun _ n => ∀ p, n.proc = some p → ∀ call q T i r,
      .await call (.snapshot q T i) ∈ p.tasks → (call, .installSnapshot r) ∈ w.replies →
        r.term ≤ T → Confirmed h' q T i)
      (fun p hp _ _ _ _ _ ht => (hnone hp ht).elim) fun id' _ p hp call q T i r ht hr hle => ?_
    exact (hU.installed id' p hp call q T i r ht hr hle).only ho

/-- A match index is raised for a reason. -/
theorem Supported.step {a : Action} (hU : Supported w h) (hS : Settled members w h)
    (hS' : Settled members w' h') (ho : Only noConf members a.id h h')
    (hs : exec ⟨m, fun _ => members⟩ w a = some w') (ha : Fixed members a) (hres : Restores m w a) :
    Supported w' h' := by
  cases stepped_of_exec hs with
  | boot id p hdown hp =>
    obtain ⟨-, hrole, htasks, -⟩ := start_id hp
    exact hU.setNode ho fun q hq => by cases hq; exact ⟨hrole, htasks⟩
  | crash | cut => exact hU.setNode ho nofun
  | act id p a e hp hact => exact hU.commit hS hS' ho hp (move_of_act hact) ha.2 (hres p hp)

end Steps

/-! ## The books of a leader -/

/-- Every run in which no machine refuses a snapshot has a history that supports the leaders'
books. -/
theorem supported_of_run {members : List NodeID} (hnd : members.Nodup) {w : World σ}
    {as : List Action}
    (hrun : Run (fun w a w' => SafeStep m members w a w' ∧ Restores m w a) {} as w) :
    ∃ h, Settled members w h ∧ Supported w h := by
  refine hrun.invariant (P := fun w => ∃ h, Settled members w h ∧ Supported w h) ?_
    ⟨_, settled_empty members, supported_empty⟩
  rintro w a w' ⟨⟨hs, hfixed, hsafe⟩, hres⟩ ⟨h, hS, hU⟩
  obtain ⟨h', ho, hS'⟩ := hS.step_only hnd hs hfixed hsafe
  exact ⟨h', hS', hU.step hS hS' ho hs hfixed hres⟩

/-- **The match index of a peer in the leader's term is covered by the peer's files**: what they
hold agrees with the leader's log on every index up to it. -/
theorem match_index_confirmed {members : List NodeID} (hnd : members.Nodup) {w : World σ}
    {as : List Action}
    (hrun : Run (fun w a w' => SafeStep m members w a w' ∧ Restores m w a) {} as w)
    (hs : w.server id = some s) (hlead : s.role = .leader) (q : NodeID)
    (hterm : (w.node q).term = s.currentTerm) :
    s.matchIndex.at q ≤ s.log.abs.length ∧
      s.log.abs.take (s.matchIndex.at q) <+: (w.node q).disk.log.abs := by
  obtain ⟨h, hS, hU⟩ := supported_of_run hnd hrun
  obtain ⟨p, hp, rfl⟩ := Option.map_eq_some_iff.1 hs
  obtain ⟨A, hA⟩ := ((hS.refines.node id).proc p hp).server.leader hlead
  rcases hU.matched id p hp hlead q with hzero | ⟨hk, -, hpre⟩
  · rw [hzero]
    exact ⟨Nat.zero_le _, List.nil_prefix⟩
  · rw [hA.log] at hk hpre
    rw [← (hS.refines.node q).disk.log]
    exact ⟨hk, hpre ((hS.refines.term q).trans hterm)⟩

/-- Server 1 leads three servers and commits two commands.  Server 3 lacks the second, which the
leader has compacted; it gets a snapshot and answers. -/
def shipment : List Action :=
  laggingInstall ++ [.deliver [3] 5, .receive [1] 2 4]

/-- A machine that restores the snapshot is counted for what it has. -/
theorem match_index_confirmed_shipment :
    ∃ w s, Run (fun w a w' => SafeStep journal [[1], [2], [3]] w a w' ∧ Restores journal w a) {}
        shipment w ∧
      w.server [1] = some s ∧ s.role = .leader ∧ (w.node [3]).term = s.currentTerm ∧
      s.matchIndex.at [3] = 3 ∧
      s.matchIndex.at [3] ≤ s.log.abs.length ∧
      s.log.abs.take (s.matchIndex.at [3]) <+: (w.node [3]).disk.log.abs := by
  obtain ⟨w, s, hrun, hs, hlead, hterm, hthree⟩ : ∃ w s,
      Run (fun w a w' => exec (journalCluster [[1], [2], [3]]) w a = some w' ∧
        (Fixed [[1], [2], [3]] a ∧ Safe journal w a) ∧ Restores journal w a) {} shipment w ∧
      w.server [1] = some s ∧ s.role = .leader ∧ (w.node [3]).term = s.currentTerm ∧
      s.matchIndex.at [3] = 3 := exists_run_guarded_some (by decide +kernel)
  have hrun' : Run (fun w a w' => SafeStep journal [[1], [2], [3]] w a w' ∧ Restores journal w a)
      {} shipment w := hrun.mono fun _ _ _ hstep => ⟨⟨hstep.1, hstep.2.1⟩, hstep.2.2⟩
  exact ⟨w, s, hrun', hs, hlead, hterm, hthree,
    match_index_confirmed (by decide) hrun' hs hlead [3] hterm⟩

/-- A journal that can write snapshots and not read them. -/
def unreadable : StateMachine Bytes := { journal with snapshotter := some ⟨some, fun _ _ => none⟩ }

/-- The same run with a machine that refuses the snapshot: server 3 is counted for three entries and
has two. -/
theorem refused_snapshot_is_counted :
    ∃ w s, Run (SafeStep unreadable [[1], [2], [3]]) {} shipment w ∧
      w.server [1] = some s ∧ s.role = .leader ∧ (w.node [3]).term = s.currentTerm ∧
      s.matchIndex.at [3] = 3 ∧ s.log.abs.length = 3 ∧ (w.node [3]).disk.snapshot = none ∧
      (w.node [3]).disk.log.abs.length = 2 :=
  exists_run_guarded_some (by decide +kernel)

end CoreBank.Raft
