import CoreBank.Raft.Calls
import CoreBank.Raft.Fixed
import CoreBank.Raft.Tally

/-!
# One leader in a term

A vote counts only once it is on disk, and what is on disk is never taken back within a term.  So in
the record of all votes that were ever on some disk a server votes for one candidate in a term.  A
leader has a majority of that record behind it, and two majorities of one list share a member.

The record is not part of any server: `Recorded members w g` relates it to the world, and a step
extends it by the vote that the step put on disk, if any.
-/

set_option autoImplicit false

namespace CoreBank.Raft

open ActionSystem Majority

variable {σ : Type}

/-- `g p T c`: server `p` has voted for `c` in term `T`. -/
abbrev Votes := NodeID → Nat → NodeID → Prop

/-- Everything on the first record is on the second. -/
def Votes.Le (g g' : Votes) : Prop := ∀ p T c, g p T c → g' p T c

/-! ## The state file along a section -/

/-- The second state file may follow the first: a vote is kept within its term. -/
def Saved.Before (st st' : Saved) : Prop :=
  st.term < st'.term ∨
    (st.term = st'.term ∧ (st.votedFor = none ∨ st'.votedFor = st.votedFor))

theorem Saved.Before.refl (st : Saved) : st.Before st := .inr ⟨rfl, .inr rfl⟩

/-- The term on disk is that in memory, with the vote of that term, or an earlier one. -/
def Disk.Backs (d : Disk) (s : Server σ) : Prop :=
  d.saved.term ≤ s.currentTerm ∧ (d.saved.term = s.currentTerm → d.saved.votedFor = s.votedFor)

variable {d : Disk}

theorem Saves.before {early : Prop} {s s' : Server σ} {ws : List Write} (h : Saves early s s' ws)
    (hd : d.Backs s) (k : Nat) : d.saved.Before (d.writeAll (ws.take k)).saved := by
  rcases h.disk_cut d k with hk | hk
  · rw [hk]
    exact .refl _
  · rw [hk]
    cases h with
    | kept hws h =>
      rw [h]
      rcases Nat.lt_or_eq_of_le hd.1 with hlt | heq
      · exact .inl hlt
      · exact .inr ⟨heq, .inr (hd.2 heq).symm⟩
    | saved hmem hws hterm hvote =>
      rcases Nat.lt_or_eq_of_le (hd.1.trans hterm) with hlt | heq
      · exact .inl hlt
      · have hs : d.saved.term = s.currentTerm := Nat.le_antisymm hd.1 (hterm.trans_eq heq.symm)
        refine .inr ⟨heq, ?_⟩
        rw [hd.2 hs]
        exact hvote (heq.symm.trans hs)
    | unsaved hearly hws hterm => exact .inl (hd.1.trans_lt hterm)

theorem Saves.backs {early : Prop} {s s' : Server σ} {ws : List Write} (h : Saves early s s' ws)
    (hd : d.Backs s) : (d.writeAll ws).Backs s' := by
  cases h with
  | kept hws h =>
    have hstate := state_writeAll (d := d) (x := s.toSaved) fun st hst => absurd hst (hws st)
    rw [if_neg (hws _)] at hstate
    have hsaved : (d.writeAll ws).saved = d.saved := by rw [Disk.saved, hstate]; rfl
    have hterm : s'.currentTerm = s.currentTerm := congrArg Saved.term h
    have hvote : s'.votedFor = s.votedFor := congrArg Saved.votedFor h
    rw [Disk.Backs, hsaved, hterm, hvote]
    exact hd
  | saved hmem hws =>
    have hstate := state_writeAll (d := d) hws
    rw [if_pos hmem] at hstate
    rw [Disk.Backs, Disk.saved, hstate]
    exact ⟨le_rfl, fun _ => rfl⟩
  | unsaved hearly hws hterm =>
    subst hws
    have hlt := hd.1.trans_lt hterm
    exact ⟨hlt.le, fun heq => absurd heq (Nat.ne_of_lt hlt)⟩

/-! ## The record and a node -/

/-- The record with the vote that the disk of `id` holds. -/
def Votes.record (g : Votes) (id : NodeID) (d : Disk) : Votes :=
  fun p T c => g p T c ∨ (p = id ∧ T = d.saved.term ∧ d.saved.votedFor = some c)

/-- The votes on record: one in a term, and on disk as long as the disk is in that term. -/
structure DiskVotes (g : Votes) (id : NodeID) (d : Disk) : Prop where
  bound : ∀ T c, g id T c → T ≤ d.saved.term ∧ (T = d.saved.term → d.saved.votedFor = some c)
  held : ∀ c, d.saved.votedFor = some c → g id d.saved.term c
  unique : ∀ T c c', g id T c → g id T c' → c = c'

variable {g : Votes}

theorem DiskVotes.record {id : NodeID} {d' : Disk} (h : DiskVotes g id d)
    (hd : d.saved.Before d'.saved) : DiskVotes (g.record id d') id d' := by
  -- an old vote of the new term is still the one on disk
  have hold {T : Nat} {c : NodeID} (hg : g id T c) :
      T ≤ d'.saved.term ∧ (T = d'.saved.term → d'.saved.votedFor = some c) := by
    obtain ⟨hle, hvote⟩ := h.bound T c hg
    rcases hd with hlt | ⟨heq, hsame⟩
    · exact ⟨hle.trans hlt.le, fun hT => by omega⟩
    · refine ⟨hle.trans_eq heq, fun hT => ?_⟩
      have hc := hvote (hT.trans heq.symm)
      rcases hsame with hnone | hsame
      · rw [hnone] at hc
        cases hc
      · rw [hsame]
        exact hc
  refine ⟨?_, fun c hc => .inr ⟨rfl, rfl, hc⟩, ?_⟩
  · rintro T c (hg | ⟨-, rfl, hc⟩)
    · exact hold hg
    · exact ⟨le_rfl, fun _ => hc⟩
  · rintro T c c' (hg | ⟨-, rfl, hc⟩) (hg' | ⟨-, hT, hc'⟩)
    · exact h.unique T c c' hg hg'
    · exact Option.some.inj (((hold hg).2 hT).symm.trans hc')
    · exact Option.some.inj (hc.symm.trans ((hold hg').2 rfl))
    · exact Option.some.inj (hc.symm.trans hc')

theorem DiskVotes.other {id x : NodeID} {d' : Disk} (h : DiskVotes g id d) (hne : id ≠ x) :
    DiskVotes (g.record x d') id d := by
  have hold {T : Nat} {c : NodeID} (hg : g.record x d' id T c) : g id T c :=
    hg.resolve_right fun hx => hne hx.1
  exact ⟨fun T c hg => h.bound T c (hold hg), fun c hc => .inl (h.held c hc),
    fun T c c' hg hg' => h.unique T c c' (hold hg) (hold hg')⟩

/-- The process counts votes that are on record. -/
structure ProcVotes (members : List NodeID) (g : Votes) (id : NodeID) (d : Disk) (p : Process σ) :
    Prop where
  backs : d.Backs p.server
  tally : Tally (fun T q => g q T id) (fun _ C => C = members) p
  leads : p.server.role = .leader → IsMajority members {q | g q p.server.currentTerm id}

variable {members : List NodeID} {p : Process σ}

theorem ProcVotes.mono {g' : Votes} {id : NodeID} (h : ProcVotes members g id d p) (hg : g.Le g') :
    ProcVotes members g' id d p where
  backs := h.backs
  tally := h.tally.mono (fun T q => hg q T id) fun _ _ hC => hC
  leads hrole := (h.leads hrole).mono fun q => hg q _ id

/-- What the votes say of a node. -/
structure NodeVotes (members : List NodeID) (g : Votes) (id : NodeID) (n : Node σ) : Prop where
  disk : DiskVotes g id n.disk
  proc : ∀ p, n.proc = some p → ProcVotes members g id n.disk p

/-- A granted vote is on record. -/
def Granted (g : Votes) (calls : List Call) (replies : List (Nat × Reply)) : Prop :=
  ∀ k r, (k, .requestVote r) ∈ replies → r.voteGranted = true →
    ∃ src dst args, calls[k]? = some ⟨src, dst, .requestVote args⟩
      ∧ g dst args.term args.candidateID

/-- The record `g` of the votes given in a run that led to `w`. -/
structure Recorded (members : List NodeID) (w : World σ) (g : Votes) : Prop where
  frozen : Frozen members w
  wired : Wired w
  node : ∀ id, NodeVotes members g id (w.node id)
  granted : Granted g w.calls w.replies

theorem recorded_empty (members : List NodeID) :
    Recorded members ({} : World σ) fun _ _ _ => False where
  frozen := frozen_empty members
  wired := wired_empty
  node _ :=
    { disk := { bound := fun _ _ h => h.elim
                held := fun _ h => by cases h
                unique := fun _ _ _ h => h.elim }
      proc := fun _ h => by cases h }
  granted _ _ h := by cases h

/-! ## Every step -/

/-- A vote is granted only once it is on disk. -/
theorem requestVote_granted {s : Server σ} {args : RequestVoteArgs} {recent : Bool}
    (h : (s.requestVote args recent).2.2.voteGranted = true) (d : Disk) :
    (d.writeAll (s.requestVote args recent).2.1).saved.term = args.term ∧
      (d.writeAll (s.requestVote args recent).2.1).saved.votedFor = some args.candidateID := by
  rcases s.requestVote_cases args recent with he | ⟨-, he⟩ | ⟨hle, -, -, s₂, hs₂, he⟩
  · rw [he] at h
    cases h
  · rw [he] at h
    cases h
  · rw [he, hs₂, s.observeTerm_frame]
    exact ⟨Nat.max_eq_right hle, rfl⟩

variable {m : StateMachine σ} {w : World σ}

theorem granted_of_act {id : NodeID} {a : Local} {e : Effect σ} (hm : Move m w id p a e) {k : Nat}
    {r : RequestVoteReply} (hr : (k, .requestVote r) ∈ a.replies e.reply)
    (hgrant : r.voteGranted = true) (d : Disk) :
    ∃ src args, w.calls[k]? = some ⟨src, id, .requestVote args⟩ ∧
      (d.writeAll e.writes).saved.term = args.term ∧
      (d.writeAll e.writes).saved.votedFor = some args.candidateID := by
  obtain ⟨recent, ⟨src, dst, req⟩, rfl, hc, rfl, rfl⟩ := hm.handled hr
  cases req with
  | appendEntries | installSnapshot => cases List.mem_singleton.1 hr
  | requestVote args =>
    cases List.mem_singleton.1 hr
    exact ⟨src, args, hc, requestVote_granted hgrant d⟩

/-- The section that starts an election leaves the server's own vote on disk. -/
theorem startElection_saved {id : NodeID} {i : Nat} {e : Effect σ}
    (ha : p.act m w id (.run i) = some e) (ht : p.tasks[i]? = some .startElection) (d : Disk) :
    (d.writeAll e.writes).saved.term = p.server.currentTerm + 1 ∧
      (d.writeAll e.writes).saved.votedFor = some p.server.id := by
  simp only [Process.act, ht] at ha
  cases ha
  rw [Process.startElection]
  dsimp only
  split <;> exact ⟨rfl, rfl⟩

theorem ProcVotes.act {id : NodeID} {a : Local} {e : Effect σ} (hnd : members.Nodup)
    (hid : id ∈ members) (hR : Recorded members w g) (hp : (w.node id).proc = some p)
    (ha : p.act m w id a = some e) :
    ProcVotes members (g.record id ((w.node id).disk.writeAll e.writes)) id
      ((w.node id).disk.writeAll e.writes) (e.proc.spawn (awaiting w.calls.length e.calls)) := by
  have hm := move_of_act ha
  have h := (hR.node id).proc p hp
  obtain ⟨hname, hawaits⟩ := hR.wired id p hp
  have hpeers := (hR.frozen.proc id p hp).peers
  have hgrows : g.Le (g.record id ((w.node id).disk.writeAll e.writes)) := fun _ _ _ => .inl
  have hmono := h.mono hgrows
  refine ⟨hm.saves.backs h.backs, hmono.tally.step _ hm ?_ ?_, fun hrole => ?_⟩
  · intro i call T q r ht hr hgrant
    obtain ⟨dst, req, hcall, hmatch⟩ := hawaits call _ (List.mem_of_getElem? ht)
    obtain ⟨rfl, args, rfl, rfl, hcand⟩ := hmatch
    obtain ⟨src, dst', args', hcall', hg⟩ := hR.granted call r hr hgrant
    rw [hcall] at hcall'
    cases hcall'
    rw [hcand] at hg
    exact .inl hg
  · intro i hi ht
    subst hi
    obtain ⟨hterm, hvote⟩ := startElection_saved ha ht (w.node id).disk
    rw [hpeers, hname] at *
    exact ⟨hid, hnd, .inr ⟨rfl, hterm.symm, hvote⟩, rfl⟩
  · rcases hm.remains with hr | ⟨-, -, hterm, hwon, -⟩
    · obtain ⟨hlead, hterm⟩ := hr.leader hrole
      have hmaj := hmono.leads hlead
      rw [← hterm] at hmaj
      exact hmaj
    · obtain ⟨C, rfl, hmaj⟩ := hmono.tally.won _ hwon
      rw [← hterm] at hmaj
      exact hmaj

theorem Granted.mono {g' : Votes} {calls calls' : List Call} {replies : List (Nat × Reply)}
    (h : Granted g calls replies) (hg : g.Le g')
    (hcalls : ∀ (k : Nat) c, calls[k]? = some c → calls'[k]? = some c) :
    Granted g' calls' replies := by
  intro k r hr hgrant
  obtain ⟨src, dst, args, hcall, hvote⟩ := h k r hr hgrant
  exact ⟨src, dst, args, hcalls k _ hcall, hg _ _ _ hvote⟩

/-- **A step extends the record** by the vote it puts on disk. -/
theorem Recorded.step {w' : World σ} {a : Action} (hnd : members.Nodup) (h : Recorded members w g)
    (hs : exec ⟨m, fun _ => members⟩ w a = some w') (ha : Fixed members a) :
    ∃ g', g.Le g' ∧ Recorded members w' g' := by
  have hfrozen := h.frozen.step hs ha
  have hstep := stepped_of_exec hs
  have hwired := h.wired.step hstep
  cases hstep with
  | boot x p hdown hp =>
    refine ⟨g, fun _ _ _ => id, hfrozen, hwired, forall_setNode ?_ fun id _ => h.node id, h.granted⟩
    refine ⟨(h.node x).disk, fun q hq => ?_⟩
    cases hq
    obtain ⟨hterm, hvote⟩ := start_saved hp
    obtain ⟨-, hrole, -⟩ := start_id hp
    obtain ⟨s, -, rfl⟩ := Option.map_eq_some_iff.1 hp
    refine ⟨⟨hterm.symm.le, fun _ => hvote.symm⟩, .of_new _, fun hlead => ?_⟩
    rw [hrole] at hlead
    cases hlead
  | crash x p hp =>
    exact ⟨g, fun _ _ _ => id, hfrozen, hwired,
      forall_setNode ⟨(h.node x).disk, nofun⟩ fun id _ => h.node id, h.granted⟩
  | cut x p b k e hp hb =>
    have hbefore := (move_of_act hb).saves.before ((h.node x).proc p hp).backs k
    refine ⟨g.record x _, fun _ _ _ => .inl, hfrozen, hwired,
      forall_setNode ⟨(h.node x).disk.record hbefore, nofun⟩ fun id hid => ?_,
      h.granted.mono (fun _ _ _ => .inl) fun _ _ => id⟩
    exact ⟨(h.node id).disk.other hid, fun q hq => ((h.node id).proc q hq).mono fun _ _ _ => .inl⟩
  | act x p b e hp hb =>
    have hbefore := (move_of_act hb).saves.before ((h.node x).proc p hp).backs e.writes.length
    rw [List.take_length] at hbefore
    refine ⟨g.record x _, fun _ _ _ => .inl, hfrozen, hwired,
      forall_commit ⟨(h.node x).disk.record hbefore, fun q hq => ?_⟩ fun id hid => ?_, ?_⟩
    · cases hq
      exact .act hnd ha.1 h hp hb
    · exact ⟨(h.node id).disk.other hid, fun q hq => ((h.node id).proc q hq).mono fun _ _ _ => .inl⟩
    · intro k r hr hgrant
      rcases List.mem_append.1 hr with hr | hr
      · exact h.granted.mono (fun _ _ _ => .inl) (fun _ _ => calls_commit) k r hr hgrant
      · obtain ⟨src, args, hcall, hterm, hvote⟩ := granted_of_act (move_of_act hb) hr hgrant _
        exact ⟨src, x, args, calls_commit hcall, .inr ⟨rfl, hterm.symm, hvote⟩⟩

/-! ## Election safety -/

/-- **Election safety.**  Over a run of a fixed membership, with crashes at any point, a term has at
most one leader: whoever leads it at two moments of the run is one server. -/
theorem election_safety (m : StateMachine σ) {members : List NodeID} (hnd : members.Nodup)
    {as₁ as₂ : List Action} {w₁ w₂ : World σ}
    (h₁ : Run (fun w a w' => exec ⟨m, fun _ => members⟩ w a = some w' ∧ Fixed members a) {} as₁ w₁)
    (h₂ : Run (fun w a w' => exec ⟨m, fun _ => members⟩ w a = some w' ∧ Fixed members a) w₁ as₂ w₂)
    {i j : NodeID} {s₁ s₂ : Server σ} (hi : w₁.server i = some s₁) (hj : w₂.server j = some s₂)
    (hlead₁ : s₁.role = .leader) (hlead₂ : s₂.role = .leader)
    (hterm : s₁.currentTerm = s₂.currentTerm) : i = j := by
  have hsim {as : List Action} {w w' : World σ} {g : Votes} (hrun : Run (fun w a w' =>
      exec ⟨m, fun _ => members⟩ w a = some w' ∧ Fixed members a) w as w')
      (hR : Recorded members w g) : ∃ g', g.Le g' ∧ Recorded members w' g' :=
    hrun.simulate (fun _ _ _ _ => id) (fun h h' p T c hg => h' p T c (h p T c hg))
      (fun w a w' g hs hR => hR.step hnd hs.1 hs.2) hR
  obtain ⟨g₁, -, hR₁⟩ := hsim h₁ (recorded_empty members)
  obtain ⟨g₂, hle, hR₂⟩ := hsim h₂ hR₁
  obtain ⟨p₁, hp₁, rfl⟩ := Option.map_eq_some_iff.1 hi
  obtain ⟨p₂, hp₂, rfl⟩ := Option.map_eq_some_iff.1 hj
  have hmaj₁ := (((hR₁.node i).proc p₁ hp₁).mono hle).leads hlead₁
  have hmaj₂ := ((hR₂.node j).proc p₂ hp₂).leads hlead₂
  rw [hterm] at hmaj₁
  obtain ⟨q, hq₁, hq₂⟩ := meets_self members _ _ hmaj₁ hmaj₂
  exact (hR₂.node q).disk.unique _ _ _ hq₁ hq₂

/-- Server 1 of three is elected with the vote of server 2. -/
def firstElection : List Action :=
  [.boot [1], .boot [2], .boot [3], .timeout [1], .run [1] 0, .deliver [2] 0, .receive [1] 0 0,
    .run [1] 1, .run [1] 1]

/-- No other server leads term 1 in any continuation. -/
theorem election_safety_first :
    ∃ (w : World Bytes) (s : Server Bytes),
      Run (fun w a w' => exec (journalCluster [[1], [2], [3]]) w a = some w' ∧
        Fixed [[1], [2], [3]] a) {} firstElection w ∧
      w.server [1] = some s ∧ s.role = .leader ∧ s.currentTerm = 1 ∧
      ∀ as w' j s', Run (fun w a w' => exec (journalCluster [[1], [2], [3]]) w a = some w' ∧
        Fixed [[1], [2], [3]] a) w as w' → w'.server j = some s' → s'.role = .leader →
        s'.currentTerm = 1 → [1] = j := by
  refine exists_run_guarded_imp (R := fun _ s => s.role = .leader ∧ s.currentTerm = 1)
    (by decide +kernel) ?_
  rintro w s hrun hserver ⟨hrole, hterm⟩
  refine ⟨hrole, hterm, fun as w' j s' hrun' hj hrole' hterm' => ?_⟩
  exact election_safety journal (by decide) hrun hrun' hserver hj hrole hrole'
    (hterm.trans hterm'.symm)

end CoreBank.Raft
