import CoreBank.Raft.Sections

/-!
# Every section extends the history

`Refines.simulate`: if the cluster refines a history, then a section of one of its processes refines
an extension of it.  Here the messages and the goroutines come in; disk and crashes follow in
`CoreBank.Raft.Refinement`.

Two things a process may do leave nothing that a later step could rely on, and `Safe` rules them
out:

* an `InstallSnapshot` of a higher term that returns early: the term is not saved;
* a crash between the two writes of an `InstallSnapshot` of a higher term: the disk is left with the
  leader's snapshot and an earlier term.

A heartbeat of `ReadIndex` may be sent after the leadership ended, in the term of the read and with
the log of a follower.  That does no harm: see `BeatRef`.

What counts votes or acknowledgements counts the peers in memory; `Ordered` says that these are the
members of the newest configuration of the log whenever it matters.
-/

set_option autoImplicit false

namespace CoreBank.Raft

open Consensus Majority

variable {σ : Type} {confOf : Bytes → Option (List NodeID)} {C₀ : List NodeID}
  {h h' : History NodeID Bytes} {id : NodeID} {s s' : Server σ}

/-! ## What a leader sends -/

theorem Log.WF.drop_slice {l : Log} (hw : l.WF) {n : Nat} (hn : l.baseIndex < n) :
    l.slice.drop (l.slot n) = l.logical.drop (n - 1) := by
  have hslot : l.slot n = n - 1 - l.baseIndex + 1 := by rw [Log.slot]; omega
  have hsum : n - 1 = l.covered.length + (n - 1 - l.baseIndex) := by rw [hw.covered_length]; omega
  rw [hslot, Log.slice, List.drop_succ_cons, hsum, Log.logical, List.drop_length_add_append,
    hw.covered_length, Nat.add_sub_cancel_left]

namespace ServerRef

variable (hs : ServerRef h id s)

include hs

theorem congr (hterm : s'.currentTerm = s.currentTerm) (hvote : s'.votedFor = s.votedFor)
    (hlog : s'.log = s.log) (hcommit : s'.commitIndex = s.commitIndex)
    (happ : s'.lastApplied = s.lastApplied) (hsnap : s'.snapshot = s.snapshot)
    (hrole : s'.role = s.role) (hnext : s'.nextIndex = s.nextIndex)
    (hmatch : s'.matchIndex = s.matchIndex) :
    ServerRef h id s' := by
  cases s
  cases s'
  dsimp only at *
  subst hterm hvote hlog hcommit happ hsnap hrole hnext hmatch
  exact { hs with
    leader := fun hr => (hs.leader hr).imp fun A hl => { hl with }
    candidate := fun hr => (hs.candidate hr).imp fun A hc => { hc with } }

/-- The entries from a peer's next index on, with what precedes them. -/
theorem replicateTo (hw : s.log.WF) {peer : NodeID} {t : Nat} {args : AppendEntriesArgs}
    (ha : s.replicateTo peer t = .entries args) :
    RequestRef h id (.appendEntries args) := by
  rw [Server.replicateTo] at ha
  split at ha
  · cases ha
  next hlead =>
    rw [not_or, not_not, not_not] at hlead
    obtain ⟨hrole, rfl⟩ := hlead
    dsimp only at ha
    split at ha
    · cases ha
    next hnext =>
      cases ha
      obtain ⟨A, hl⟩ := hs.leader hrole
      have hle := hl.next peer
      have hlen := hs.length
      rw [Log.length_abs] at hle hlen
      generalize hn : max (s.nextIndex.at peer) 1 = n at *
      have hprev : n - 1 ≤ s.log.logical.length := by omega
      have hes : (if n ≤ s.log.lastIndex then s.log.slice.drop (s.log.slot n) else []) =
          s.log.logical.drop (n - 1) := by
        rw [hw.lastIndex]
        split
        · exact hw.drop_slice (Nat.lt_of_not_le hnext)
        · exact (List.drop_eq_nil_of_le (by omega)).symm
      have hsum : n - 1 + (s.log.logical.drop (n - 1)).length = s.log.logical.length := by
        rw [List.length_drop]
        omega
      rw [hes, hw.termAt (by omega) hprev]
      refine ⟨⟨A, hl.elected⟩, ?_⟩
      dsimp only
      rw [hl.log, hsum, Log.length_abs]
      refine ⟨le_rfl, rfl, ?_, hlen, hs.commit⟩
      rw [← Log.length_abs, List.take_length, Log.abs, List.map_drop]

/-- The heartbeat of a read, whether the server still leads or not. -/
theorem sendBeat (hI : Inv confOf C₀ h) (hw : s.log.WF) (t : Nat) :
    BeatRef h (.appendEntries ⟨t, s.id, s.log.lastIndex, s.log.lastTerm, [], s.commitIndex⟩) :=
  ⟨rfl, s.log.abs, hs.log ▸ hI.log_grown id,
    hw.lastIndex.trans (Log.length_abs _).symm, hw.lastTerm,
    hs.length, hs.commit⟩

theorem sendSnapshotTo (hI : Inv confOf C₀ h) {t : Nat} {args : InstallSnapshotArgs}
    (ha : s.sendSnapshotTo t = some args) :
    RequestRef h id (.installSnapshot args) ∧
      args.snapshot.abs <+: s.log.abs.take s.commitIndex := by
  obtain ⟨hrole, rfl, hsnap, hterm, -⟩ := sendSnapshotTo_cases ha
  obtain ⟨A, hl⟩ := hs.leader hrole
  obtain ⟨hpre, hsealed⟩ := hs.snapshot _ hsnap
  refine ⟨⟨⟨A, ?_⟩, ?_, hsealed⟩, hpre⟩
  · rw [hterm]
    exact hl.elected
  · rw [hterm]
    exact (hs.decided hI).of_isPrefix hpre

/-- The snapshot of a compaction is one of what was decided. -/
theorem takeSnapshot (hw : s.WF) {m : StateMachine σ} {threshold : Nat} {snap : Snapshot}
    (hsnap : s.takeSnapshot m threshold = some snap) :
    snap.WF ∧ snap.abs = s.log.abs.take s.commitIndex ∧ s.log.baseIndex < s.commitIndex := by
  obtain ⟨hwf, -, hbase, -, hcov⟩ := hw.takeSnapshot hsnap
  rw [hs.applied] at hbase hcov
  refine ⟨hwf, ?_, hbase⟩
  rw [Snapshot.abs, hcov, List.map_take]
  rfl

theorem positive (hI : Inv confOf C₀ h) (hpos : ∀ c T A, h.campaigned c T A → 0 < T)
    (hrole : s.role = .leader) :
    0 < s.currentTerm := by
  obtain ⟨A, hl⟩ := hs.leader hrole
  exact hpos _ _ _ (hI.elected_backs _ _ _ hl.elected).1

end ServerRef

/-! ## Which steps are covered -/

/-- The section installs a snapshot of a later term than the saved one. -/
def tears (w : World σ) (d : Disk) : Local → Bool
  | .deliver call _ =>
    match w.calls[call]? with
    | some ⟨_, _, .installSnapshot args⟩ => decide (d.saved.term < args.term)
    | _ => false
  | _ => false

/-- No section adopts a term without saving it, and none is cut short so that a snapshot is stored
without the term in which it was sent. -/
def Safe (m : StateMachine σ) (w : World σ) : Action → Prop
  | .act id a => ∀ p ∈ (w.node id).proc, p.adoptsUnsaved m w a = false
  | .cut id a k => k = 1 → tears w (w.node id).disk a = false
  | _ => True

instance (m : StateMachine σ) (w : World σ) (a : Action) : Decidable (Safe m w a) := by
  induction a using Action.casesOn <;> unfold Safe <;> infer_instance

variable (confOf C₀) in
/-- The sections that count peers, or start from scratch with them, find those of the log. -/
def Process.Ordered (p : Process σ) : Local → Prop
  | .run i =>
    (p.tasks[i]? = some .startElection →
      Current confOf C₀ p.server ∧ p.server.id ∈ p.server.peers) ∧
    ∀ t, p.tasks[i]? = some (.becomeLeader t) → Current confOf C₀ p.server ∧
      ∀ q, q ∉ p.server.peers → p.server.nextIndex.at q = 0 ∧ p.server.matchIndex.at q = 0
  | .receive _ _ => Current confOf C₀ p.server
  | .submit cmd => Current confOf C₀ p.server ∧ confOf cmd = none
  | .addServer x => Current confOf C₀ p.server ∧
      MayChange confOf p.server (Configuration.withServer ⟨p.server.peers⟩ x)
  | .removeServer x => Current confOf C₀ p.server ∧
      MayChange confOf p.server (Configuration.withoutServer ⟨p.server.peers⟩ x)
  | _ => True

variable (confOf C₀) in
/-- So does the process that takes the step. -/
def Ordered (w : World σ) : Action → Prop
  | .act id a | .cut id a _ => ∀ p ∈ (w.node id).proc, p.Ordered confOf C₀ a
  | _ => True

instance (s : Server σ) :
    Decidable (∀ q, q ∉ s.peers → s.nextIndex.at q = 0 ∧ s.matchIndex.at q = 0) :=
  decidable_of_iff ((∀ x ∈ s.nextIndex.entries, x.1 ∉ s.peers → x.2 = 0) ∧
      ∀ x ∈ s.matchIndex.entries, x.1 ∉ s.peers → x.2 = 0) (by
    rw [← Progress.forall_at_eq_zero (P := (· ∉ s.peers)),
      ← Progress.forall_at_eq_zero (P := (· ∉ s.peers)), ← forall_and]
    exact forall_congr' fun q => forall_and.symm)

instance (x : Option Task) (Q : Prop) [Decidable Q] :
    Decidable (∀ t, x = some (.becomeLeader t) → Q) :=
  match x with
  | some (.becomeLeader t) => decidable_of_iff Q ⟨fun h _ _ => h, fun h => h t rfl⟩
  | none | some .startElection | some .broadcast | some (.replicateTo ..)
  | some (.sendSnapshotTo ..) | some (.countVote ..) | some (.beat ..) | some (.countAck _)
  | some (.saveSnapshot _) | some (.compact _) | some (.await ..) => .isTrue nofun

instance (p : Process σ) (a : Local) : Decidable (p.Ordered confOf C₀ a) := by
  induction a using Local.casesOn <;> unfold Process.Ordered <;> infer_instance

instance (w : World σ) (a : Action) : Decidable (Ordered confOf C₀ w a) := by
  induction a using Action.casesOn <;> unfold Ordered <;> infer_instance

/-! ## One section -/

variable (confOf C₀) in
/-- The section of server `id` extends the history to `h'`. -/
structure Simulated (h : History NodeID Bytes) (w : World σ) (beats : Nat → Prop) (id : NodeID)
    (p : Process σ) (a : Local) (e : Effect σ) (h' : History NodeID Bytes) : Prop where
  only : Only confOf C₀ id h h'
  server : ServerRef h' id e.proc.server
  commit : p.server.commitIndex ≤ e.proc.server.commitIndex
  positive : ∀ c T A, h'.campaigned c T A → h.campaigned c T A ∨ 0 < T
  calls : ∀ c ∈ e.calls, CallRef h' (∃ rid, c.2.2 = .beat rid) ⟨id, c.1, c.2.1⟩
  replies : ∀ k r, (k, r) ∈ a.replies e.reply → ¬ beats k → ReplyRef h' w.calls k r
  /-- A snapshot that is sent was applied. -/
  sent : ∀ c ∈ e.calls, ∀ args, c.2.1 = .installSnapshot args →
    args.snapshot.lastIncludedIndex ≤ p.server.commitIndex
  /-- A server that campaigns votes for itself. -/
  stands : ∀ i, a = .run i → p.tasks[i]? = some .startElection →
    h'.voted id (p.server.currentTerm + 1) id ∧
      ∃ A, h'.campaigned id (p.server.currentTerm + 1) A ∧ conf confOf C₀ A = p.server.peers

variable {w : World σ} {beats : Nat → Prop} {p : Process σ}

theorem Simulated.of_server {a : Local} {e : Effect σ} (ho : Only confOf C₀ id h h')
    (hs : ServerRef h' id e.proc.server)
    (hcommit : p.server.commitIndex ≤ e.proc.server.commitIndex)
    (hcamp : h'.campaigned = h.campaigned) (hcalls : e.calls = []) (hreply : e.reply = none)
    (ha : ∀ i, a = .run i → p.tasks[i]? ≠ some .startElection) :
    Simulated confOf C₀ h w beats id p a e h' where
  only := ho
  server := hs
  commit := hcommit
  positive c T A hc := .inl (hcamp ▸ hc)
  calls c hc := by rw [hcalls] at hc; cases hc
  replies k r hr := by
    rw [hreply] at hr
    cases a <;> cases hr
  sent c hc := by rw [hcalls] at hc; cases hc
  stands i hi ht := absurd ht (ha i hi)

theorem Process.server_startElection (p : Process σ) :
    p.startElection.proc.server = p.server.startElection.1 := by
  rw [Process.startElection]
  dsimp only
  split <;> rfl

theorem Process.mem_calls_startElection {c : NodeID × Request × Pending}
    (hc : c ∈ p.startElection.calls) :
    c.1 ≠ p.server.id ∧ c.2.1 = .requestVote p.server.startElection.2.2 ∧ ∀ rid,
      c.2.2 ≠ .beat rid := by
  rw [Process.startElection] at hc
  dsimp only at hc
  split at hc
  · cases hc
  · obtain ⟨q, hq, rfl⟩ := List.mem_map.1 hc
    exact ⟨of_decide_eq_true (List.mem_filter.1 hq).2, rfl, fun _ h => by (cases h)⟩

theorem simulate_startElection {i : Nat} (hs : ServerRef h id p.server) (hI : Inv confOf C₀ h)
    (hw : p.server.log.WF) (hid : p.server.id = id) (hc : Current confOf C₀ p.server) :
    ∃ h', Simulated confOf C₀ h w beats id p (.run i) (p.drop i).startElection h' := by
  obtain ⟨h', ho, hs', hcamp, hvoted, hpos⟩ := hs.startElection hI hid
  refine ⟨h', ?_⟩
  refine
    { only := ho
      server := by rw [Process.server_startElection]; exact hs'
      commit := by rw [Process.server_startElection]; exact le_rfl
      positive := hpos
      calls := fun c hcall => ?_
      replies := fun k r hr => by cases hr
      sent := fun c hcall args hreq => ?_
      stands := fun _ _ _ => ⟨hvoted, _, hcamp, hc.peers.symm⟩ }
  · obtain ⟨hne, hreq, hbeat⟩ := Process.mem_calls_startElection hcall
    refine ⟨by rw [← hid]; exact hne, fun _ => ?_, fun ⟨rid, hrid⟩ => absurd hrid (hbeat rid)⟩
    rw [hreq]
    exact ⟨hid, _, hcamp, hw.lastIndex.trans (Log.length_abs _).symm, hw.lastTerm⟩
  · rw [(Process.mem_calls_startElection hcall).2.1] at hreq
    cases hreq

theorem simulate_handle {m : StateMachine σ} {call : Nat} {c : Call} (recent : Bool)
    (hs : ServerRef h id p.server) (hI : Inv confOf C₀ h) (hw : p.server.WF)
    (hc : w.calls[call]? = some c) (hdst : c.dst = id) (hcall : CallRef h (beats call) c)
    (hwf : c.request.WF) :
    ∃ h', Simulated confOf C₀ h w beats id p (.deliver call recent)
      (p.handle m recent c.request) h' := by
  obtain ⟨src, dst, req⟩ := c
  subst hdst
  have hne : src ≠ dst := hcall.dst.symm
  have hsim {e : Effect σ} {h' : History NodeID Bytes} {r : Reply}
      (ho : Only confOf C₀ dst h h') (hs' : ServerRef h' dst e.proc.server)
      (hle : p.server.commitIndex ≤ e.proc.server.commitIndex)
      (hcamp : h'.campaigned = h.campaigned) (hcalls : e.calls = []) (hr : e.reply = some r)
      (hreply : ¬ beats call → ReplyRef h' w.calls call r) :
      Simulated confOf C₀ h w beats dst p (.deliver call recent) e h' :=
    { only := ho
      server := hs'
      commit := hle
      positive := fun _ _ _ hA => .inl (hcamp ▸ hA)
      calls := fun c hmem => by rw [hcalls] at hmem; cases hmem
      replies := fun k r' hmem => by
        rw [hr] at hmem
        cases List.mem_singleton.1 hmem
        exact hreply
      sent := fun c hmem => by rw [hcalls] at hmem; cases hmem
      stands := fun _ hi => by cases hi }
  by_cases hbeat : beats call
  · -- the heartbeat of a read
    have hr := hcall.beat hbeat
    cases req with
    | appendEntries args =>
      obtain ⟨h', ho, hs', hle, hcamp⟩ := hs.beat hI hw.log hr m
      exact ⟨h', hsim ho hs' hle hcamp rfl rfl fun hno => absurd hbeat hno⟩
    | requestVote | installSnapshot => exact hr.elim
  have hr := hcall.request hbeat
  cases req with
  | appendEntries args =>
    obtain ⟨h', ho, hs', hle, hcamp, hack⟩ := hs.appendEntries hI hw.log hne hr m
    refine ⟨h', hsim ho hs' hle hcamp rfl rfl fun _ hsucc => ?_⟩
    obtain ⟨A, he, hA⟩ := hack hsucc
    exact ⟨src, dst, args, A, hc, he, hA⟩
  | requestVote args =>
    obtain ⟨h', ho, hs', hle, hcamp, hvote⟩ := hs.requestVote hI hw.log hr recent
    exact ⟨h', hsim ho hs' hle hcamp rfl rfl fun _ hgrant => ⟨src, dst, args, hc, hvote hgrant⟩⟩
  | installSnapshot args =>
    obtain ⟨h', ho, hs', hle, hcamp⟩ := hs.installSnapshot hI hw.log hne hwf hr m
    exact ⟨h', hsim ho hs' hle hcamp rfl rfl fun _ => trivial⟩

theorem Simulated.of_call {p' : Process σ} {i : Nat} {peer : NodeID} {req : Request} {k : Pending}
    (hI : Inv confOf C₀ h) (hs : ServerRef h id p.server) (hp : p'.server = p.server)
    (hpeer : peer ≠ id) (hreq : ¬ (∃ rid, k = .beat rid) → RequestRef h id req)
    (hbeat : (∃ rid, k = .beat rid) → BeatRef h req)
    (hsent : ∀ args, req = .installSnapshot args →
      args.snapshot.lastIncludedIndex ≤ p.server.commitIndex)
    (hno : p.tasks[i]? ≠ some .startElection) :
    Simulated confOf C₀ h w beats id p (.run i) { proc := p', calls := [(peer, req, k)] } h where
  only := .refl hI
  server := by rw [hp]; exact hs
  commit := by rw [hp]
  positive _ _ _ hA := .inl hA
  calls c hc := by
    cases List.mem_singleton.1 hc
    exact ⟨hpeer, hreq, hbeat⟩
  replies _ _ hr := by cases hr
  sent c hc := by
    cases List.mem_singleton.1 hc
    exact hsent
  stands j hj ht := by
    cases hj
    exact absurd ht hno

section Section

variable {m : StateMachine σ} {w : World σ} {p : Process σ} {a : Local} {e : Effect σ}

/-- What a successful reply to an AppendEntries stands for. -/
theorem Refines.acked (hR : Refines confOf C₀ w h) (hM : Messages h w beats)
    (hp : (w.node id).proc = some p) {call k t : Nat} {peer : NodeID} {r : AppendEntriesReply}
    (ht : .await call (.append peer t k) ∈ p.tasks) (hr : (call, .appendEntries r) ∈ w.replies)
    (hsucc : r.success = true) :
    ∃ A, h.elected t id A ∧ k ≤ (h.leaderLog t).length ∧ (k ≤ A.length ∨ h.acked peer t k) := by
  have hno := hM.awaited id p hp call _ ht nofun
  obtain ⟨dst, req, hcall, rfl, args, rfl, rfl, rfl⟩ := (hR.wired id p hp).2 call _ ht
  obtain ⟨src', dst', args', A, hcall', he, hA⟩ := hM.replies _ _ hr hno hsucc
  rw [hcall] at hcall'
  cases hcall'
  have hreq := (hM.calls _ _ hcall).request hno
  exact ⟨A, he, hreq.2.1, hA⟩

/-- **Every section extends the history.** -/
theorem Refines.simulate (hR : Refines confOf C₀ w h) (hM : Messages h w beats)
    (hp : (w.node id).proc = some p) (hnil : confOf [] = none) (ha : p.act m w id a = some e)
    (hord : p.Ordered confOf C₀ a) : ∃ h', Simulated confOf C₀ h w beats id p a e h' := by
  have hP := (hR.node id).proc p hp
  have hs := hP.server
  have hI := hR.inv
  have hw := hR.wf.proc id p hp
  have hid := (hR.wired id p hp).1
  by_cases hstart : ∃ i, a = .run i ∧ p.tasks[i]? = some .startElection
  · obtain ⟨i, rfl, ht⟩ := hstart
    have he : e = (p.drop i).startElection := by
      simp only [Process.act, ht, Process.run, Option.some.injEq] at ha
      exact ha.symm
    rw [he]
    exact simulate_startElection hs hI hw.server.log hid (hord.1 ht).1
  have hno (i : Nat) (hi : a = .run i) : p.tasks[i]? ≠ some .startElection :=
    fun ht => hstart ⟨i, hi, ht⟩
  -- what the history already knows
  have hsame {p' : Process σ} {ws : List Write} (hs' : ServerRef h id p'.server)
      (hle : p.server.commitIndex ≤ p'.server.commitIndex) :
      ∃ h', Simulated confOf C₀ h w beats id p a { proc := p', writes := ws } h' :=
    ⟨h, .of_server (.refl hI) hs' hle rfl rfl rfl hno⟩
  have hthen {p' : Process σ} {ws : List Write} {s' : Server σ} (hp' : p'.server = s')
      (hex : Proceeds confOf C₀ h id p.server s') :
      ∃ h', Simulated confOf C₀ h w beats id p a { proc := p', writes := ws } h' := by
    obtain ⟨h', ho, hs', hle, hcamp⟩ := hex
    subst hp'
    exact ⟨h', .of_server ho hs' hle hcamp rfl rfl hno⟩
  cases move_of_act ha with
  | idle p' hserver => exact hsame (by rw [hserver]; exact hs) (by rw [hserver])
  | stop => exact hsame (hs.congr rfl rfl rfl rfl rfl rfl rfl rfl rfl) (le_rfl)
  | startElection i ht => exact absurd ht (hno i rfl)
  | becomeLeader i t s' ws ht hb =>
    obtain ⟨hc, hkeys⟩ := hord.2 t ht
    exact hthen rfl (hs.becomeLeader hI hw.server.log hid hnil hc hkeys hb
      (hP.tally.won t (List.mem_of_getElem? ht)))
  | countVote i t peer ht =>
    have hserver : ((p.drop i).countVote t).server = p.server := by
      rw [Process.countVote]
      split <;> rfl
    exact hsame (by rw [hserver]; exact hs) (by rw [hserver])
  | sendEntries i peer t args ht hargs =>
    exact ⟨h, .of_call hI hs rfl (hP.targets _ (List.mem_of_getElem? ht) peer rfl)
      (fun _ => hs.replicateTo hw.server.log hargs) (by rintro ⟨_, ⟨⟩⟩) (by rintro _ ⟨⟩)
      (hno i rfl)⟩
  | sendSnapshot i peer t args ht hargs =>
    obtain ⟨hreq, hpre⟩ := hs.sendSnapshotTo hI hargs
    refine ⟨h, .of_call hI hs rfl (hP.targets _ (List.mem_of_getElem? ht) peer rfl) (fun _ => hreq)
      (by rintro ⟨_, ⟨⟩⟩) ?_ (hno i rfl)⟩
    rintro _ ⟨⟩
    have hwf := hw.server.snapshot _ (sendSnapshotTo_cases hargs).2.2.1
    have hlen := hpre.length_le
    rw [hwf.length_abs, List.length_take] at hlen
    omega
  | sendBeat i rid peer r ht hr =>
    exact ⟨h, .of_call hI hs rfl (hP.targets _ (List.mem_of_getElem? ht) peer rfl)
      (fun hbeat => absurd ⟨rid, rfl⟩ hbeat) (fun _ => hs.sendBeat hI hw.server.log r.term)
      (by rintro _ ⟨⟩) (hno i rfl)⟩
  | saveSnapshot | voteReply | takeSnapshot => exact hsame hs (le_rfl)
  | compact i snap ht =>
    have hmem := List.mem_of_getElem? ht
    obtain ⟨hpre, hsealed⟩ := hP.compacts snap (.inr hmem)
    obtain ⟨hs', -, hcommit⟩ := hs.compact hw.server.log (hw.task snap (.inr hmem)) hpre hsealed
    exact hsame hs' hcommit.symm.le
  | stepDown i r t => exact hthen rfl (hs.stepDown hI t)
  | appendReply i j call peer t k r ht hr =>
    exact hthen rfl (hs.onAppendReply hI hw.server.log hord m peer t k r
      (hR.acked hM hp (List.mem_of_getElem? ht) (List.mem_of_getElem? hr)))
  | snapshotReply i j call peer t idx r ht hr =>
    exact hthen rfl (hs.onSnapshotReply hI hw.server.log hord m peer t idx r
      (hP.sent call peer t idx (List.mem_of_getElem? ht)))
  | handle call c recent hc hdst =>
    have hmem := List.mem_of_getElem? hc
    exact simulate_handle recent hs hI hw.server hc hdst (hM.calls call c hc) (hR.wf.calls c hmem)
  | submit cmd s' ws hb => exact hthen rfl (hs.submit hI hw.server.log hid hord.1 hord.2 hb)
  | addServer x s' ws hb =>
    have hpos := hs.positive hI hR.positive (Server.changeConfiguration_eq hb).1
    refine hthen rfl
      (hs.changeConfiguration hI hw.server.log hid hpos hord.1 (fun next hnext => ?_) hb)
    rw [Option.ite_none_left_eq_some, Option.some.injEq] at hnext
    exact hnext.2 ▸ hord.2
  | removeServer x s' ws hb =>
    have hpos := hs.positive hI hR.positive (Server.changeConfiguration_eq hb).1
    refine hthen rfl
      (hs.changeConfiguration hI hw.server.log hid hpos hord.1 (fun next hnext => ?_) hb)
    rw [Option.ite_none_left_eq_some, Option.ite_none_left_eq_some, Option.some.injEq] at hnext
    exact hnext.2.2 ▸ hord.2
  | maybeCompact threshold snap hsnap =>
    obtain ⟨hwf, hsame', -⟩ := hs.takeSnapshot hw.server hsnap
    obtain ⟨hs', -, hcommit⟩ :=
      hs.compact hw.server.log hwf (by rw [hsame'])
      (by rw [hsame']; exact hs.commit)
    exact hsame hs' hcommit.symm.le

end Section

end CoreBank.Raft
