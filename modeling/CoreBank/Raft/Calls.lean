import CoreBank.Raft.Durable

/-!
# Calls and the goroutines that wait for them

A goroutine that waits for a reply knows what it asked: the request of its call is the one its
continuation is about, and its server sent it.  This holds in every run; and a process keeps the
name of its server, and becomes leader in one way only.
-/

set_option autoImplicit false

namespace CoreBank.Raft

variable {σ : Type}

/-! ## Names and roles -/

/-- The server keeps its name, and if it leads then it led before, in the same term. -/
structure Remains (s s' : Server σ) : Prop where
  id : s'.id = s.id
  leader : s'.role = .leader → s.role = .leader ∧ s'.currentTerm = s.currentTerm

variable {m : StateMachine σ}

theorem becomeLeader_cases {s s' : Server σ} {t : Nat} {ws : List Write}
    (h : s.becomeLeader m t = some (s', ws)) :
    s.role = .candidate ∧ s.currentTerm = t ∧ s' = (s.lead.advanceCommitIndex m).1 ∧
      ws = s.lead.persist :: (s.lead.advanceCommitIndex m).2 := by
  rw [Server.becomeLeader] at h
  split at h
  · cases h
  next hno =>
    cases h
    rw [not_or, not_not, not_not] at hno
    exact ⟨hno.1, hno.2, rfl, rfl⟩

variable {w : World σ} {p : Process σ} {a : Local} {e : Effect σ} {id : NodeID}

/-- **A server becomes leader only at the end of an election**, in the term of that election. -/
theorem Move.remains (hm : Move m w id p a e) :
    Remains p.server e.proc.server ∨
      (e.proc.server.id = p.server.id ∧ p.server.role = .candidate ∧
        e.proc.server.currentTerm = p.server.currentTerm ∧
        .becomeLeader p.server.currentTerm ∈ p.tasks ∧ ∃ i, a = .run i) := by
  obtain ⟨turn, work, -, finish, -⟩ := hm.phases
  obtain ⟨hid, hterm, -, hrole⟩ := work.kept
  obtain ⟨c, k, x, role, removed, hrole', hs', -⟩ := finish.frame
  rw [hs']
  rcases hrole with hrole | ⟨rfl, -, hcand, hwon⟩
  · refine .inl ⟨hid.trans turn.id, fun hlead => ?_⟩
    dsimp only at hlead ⊢
    -- the last phase can only end a leadership
    rcases hrole' with rfl | rfl
    · rw [hrole] at hlead
      rcases turn.role with ⟨hsame, ht⟩ | hfollow | ⟨hcand, -⟩
      · exact ⟨hsame ▸ hlead, hterm.trans ht⟩
      · rw [hfollow] at hlead
        cases hlead
      · rw [hcand] at hlead
        cases hlead
    · cases hlead
  · exact .inr ⟨hid, hcand, hterm, hwon⟩

theorem Remains.handle {call : Nat} {c : Call} (hc : w.calls[call]? = some c) (hdst : c.dst = id)
    (recent : Bool) :
    Remains p.server (p.handle m recent c.request).proc.server := by
  have hm : Move m w id p _ _ := .handle call c recent hc hdst
  rcases hm.remains with hrem | ⟨-, -, -, -, i, ha⟩
  · exact hrem
  · cases ha

/-! ## What a goroutine waits for -/

/-- The request that a continuation is about. -/
def Pending.Matches (id dst : NodeID) (req : Request) : Pending → Prop
  | .vote T q => dst = q ∧ ∃ args, req = .requestVote args ∧ args.term = T ∧ args.candidateID = id
  | .append q T k => dst = q ∧
      ∃ args, req = .appendEntries args ∧ args.term = T
        ∧ args.prevLogIndex + args.entries.length = k
  | .snapshot q T i => dst = q ∧
      ∃ args, req = .installSnapshot args ∧ args.term = T ∧ args.snapshot.lastIncludedIndex = i
  | .beat _ => ∃ args, req = .appendEntries args

theorem replicateTo_term {s : Server σ} {peer : NodeID} {t : Nat} {args : AppendEntriesArgs}
    (h : s.replicateTo peer t = .entries args) :
    s.role = .leader ∧ s.currentTerm = t ∧ args.term = t := by
  rw [Server.replicateTo] at h
  split at h
  · cases h
  next hno =>
    rw [not_or, not_not, not_not] at hno
    dsimp only at h
    split at h
    · cases h
    · cases h
      exact ⟨hno.1, hno.2, rfl⟩

theorem sendSnapshotTo_cases {s : Server σ} {t : Nat} {args : InstallSnapshotArgs}
    (h : s.sendSnapshotTo t = some args) :
    s.role = .leader ∧ s.currentTerm = t ∧ s.snapshot = some args.snapshot ∧ args.term = t ∧
      args.leaderID = s.id := by
  rw [Server.sendSnapshotTo] at h
  split at h
  · cases h
  next hno =>
    rw [not_or, not_not, not_not] at hno
    obtain ⟨snap, hsnap, rfl⟩ := Option.map_eq_some_iff.1 h
    exact ⟨hno.1, hno.2, hsnap, hno.2, rfl⟩

theorem Move.calls_match (hm : Move m w id p a e) {c : NodeID × Request × Pending}
    (hc : c ∈ e.calls) : c.2.2.Matches p.server.id c.1 c.2.1 := by
  cases hm.made hc with
  | vote => exact ⟨rfl, _, rfl, rfl, rfl⟩
  | entries peer term args ht ha => exact ⟨rfl, args, rfl, (replicateTo_term ha).2.2, rfl⟩
  | snapshot peer term args ht ha =>
    exact ⟨rfl, args, rfl, (sendSnapshotTo_cases ha).2.2.2.1, rfl⟩
  | beat => exact ⟨_, rfl⟩

theorem Move.handled (hm : Move m w id p a e) {k : Nat} {r : Reply}
    (hr : (k, r) ∈ a.replies e.reply) :
    ∃ recent c, a = .deliver k recent ∧ w.calls[k]? = some c ∧ c.dst = id ∧
      e = p.handle m recent c.request := by
  cases hm with
  | handle call c recent hc hdst =>
    cases hreply : (p.handle m recent c.request).reply with
    | none => rw [hreply] at hr; cases hr
    | some r' =>
      rw [hreply] at hr
      cases List.mem_singleton.1 hr
      exact ⟨recent, c, rfl, hc, hdst, rfl⟩
  | idle => cases a <;> cases hr
  | _ => cases hr

theorem Move.replied (hm : Move m w id p a e) {k : Nat} {r : Reply}
    (hr : (k, r) ∈ a.replies e.reply) : k < w.calls.length := by
  obtain ⟨recent, c, -, hc, -⟩ := hm.handled hr
  exact (List.getElem?_eq_some_iff.1 hc).1

theorem mem_awaiting {n call : Nat} {calls : List (NodeID × Request × Pending)} {k : Pending}
    (h : .await call k ∈ awaiting n calls) :
    ∃ (i : Nat) (c : NodeID × Request × Pending), calls[i]? = some c ∧ call = n + i
      ∧ k = c.2.2 := by
  obtain ⟨⟨c, i⟩, hc, hk⟩ := List.mem_map.1 h
  cases hk
  exact ⟨i, c, List.mem_zipIdx_iff_getElem?.1 hc, rfl, rfl⟩

/-- A goroutine that was just started waits for a call that was just made. -/
theorem await_of_awaiting {call : Nat} {k : Pending}
    (h : .await call k ∈ awaiting w.calls.length e.calls) :
    ∃ c ∈ e.calls, k = c.2.2 ∧ (w.commit id a e).calls[call]? = some ⟨id, c.1, c.2.1⟩ := by
  obtain ⟨i, c, hci, rfl, rfl⟩ := mem_awaiting h
  refine ⟨c, List.mem_of_getElem? hci, rfl, ?_⟩
  show (w.calls ++ e.calls.map _)[w.calls.length + i]? = _
  rw [List.getElem?_append_right (Nat.le_add_right _ _), Nat.add_sub_cancel_left, List.getElem?_map,
    hci]
  rfl

theorem calls_commit {call : Nat} {c : Call} (h : w.calls[call]? = some c) :
    (w.commit id a e).calls[call]? = some c := by
  obtain ⟨hlt, -⟩ := List.getElem?_eq_some_iff.1 h
  show (w.calls ++ e.calls.map _)[call]? = _
  rw [List.getElem?_append_left hlt]
  exact h

/-- The process has the name of its server, and waits for calls that its server made. -/
def WiredNode (calls : List Call) (id : NodeID) (n : Node σ) : Prop :=
  ∀ p, n.proc = some p → p.server.id = id ∧
    ∀ call k, .await call k ∈ p.tasks →
      ∃ dst req, calls[call]? = some ⟨id, dst, req⟩ ∧ k.Matches id dst req

/-- Every node waits for replies to its own calls. -/
def Wired (w : World σ) : Prop := ∀ id, WiredNode w.calls id (w.node id)

theorem wired_empty : Wired ({} : World σ) := fun _ _ hp => by cases hp

/-- Replies are awaited only for calls that were made. -/
theorem Wired.step {cl : Cluster σ} {w' : World σ} {a : Action} (h : Wired w)
    (hs : Stepped cl w a w') : Wired w' := by
  cases hs with
  | boot x p hdown hp =>
    obtain ⟨hid, -, htasks, -⟩ := start_id hp
    refine forall_setNode (fun q hq => ?_) fun id _ => h id
    cases hq
    refine ⟨hid, fun call k hk => ?_⟩
    rw [htasks] at hk
    cases hk
  | crash | cut => exact forall_setNode nofun fun id _ => h id
  | act x p b e hp hb =>
    have hm := move_of_act hb
    obtain ⟨hid, hawaits⟩ := h x p hp
    have hcommit {id : NodeID} {k : Pending} {call : Nat}
        (hk : ∃ dst req, w.calls[call]? = some ⟨id, dst, req⟩ ∧ k.Matches id dst req) :
        ∃ dst req, (w.commit x b e).calls[call]? = some ⟨id, dst, req⟩ ∧ k.Matches id dst req := by
      obtain ⟨dst, req, hcall, hmatch⟩ := hk
      exact ⟨dst, req, calls_commit hcall, hmatch⟩
    refine forall_commit (fun q hq => ?_) fun id _ q hq => ?_
    · cases hq
      refine ⟨?_, fun call k hk => ?_⟩
      · rcases hm.remains with hr | ⟨hr, -⟩
        · exact hr.id.trans hid
        · exact hr.trans hid
      · rcases mem_spawn hk with hk | hk
        · exact hcommit (hawaits call k (hm.await_mem hk))
        · obtain ⟨c, hc, rfl, hcall⟩ := await_of_awaiting hk
          have hmatch := hm.calls_match hc
          rw [hid] at hmatch
          exact ⟨c.1, c.2.1, hcall, hmatch⟩
    · obtain ⟨hid', hawaits'⟩ := h id q hq
      exact ⟨hid', fun call k hk => hcommit (hawaits' call k hk)⟩

end CoreBank.Raft
