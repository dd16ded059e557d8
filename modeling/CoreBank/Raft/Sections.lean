import CoreBank.Raft.Quorums
import CoreBank.Raft.Relation

/-!
# Every section is a number of steps of its node

For each locked section of a server: if the server refines a node of the history before, then it
does so after the section, in the history that the section's own steps lead to.  Nothing here is
about goroutines, the disk or the network, apart from what a request says about the history.

A section that counts (votes, match indices) counts the peers in memory.  `Current` says that these
are the configuration of the log, each of them once; it is needed there, and only there.
-/

set_option autoImplicit false

namespace CoreBank.Raft

open Consensus Majority

variable {σ : Type} {confOf : Bytes → Option (List NodeID)} {C₀ : List NodeID}
  {h : History NodeID Bytes} {id src : NodeID} {s s' : Server σ} {A : List (Entry Bytes)}

variable (confOf C₀) in
/-- The peers of the server are the members of the newest configuration of its log. -/
structure Current (s : Server σ) : Prop where
  peers : s.peers = conf confOf C₀ s.log.abs
  nodup : s.peers.Nodup

instance (s : Server σ) : Decidable (Current confOf C₀ s) :=
  decidable_of_iff (s.peers = conf confOf C₀ s.log.abs ∧ s.peers.Nodup)
    ⟨fun hc => ⟨hc.1, hc.2⟩, fun hc => ⟨hc.peers, hc.nodup⟩⟩

theorem Current.of_eq (hc : Current confOf C₀ s) (hpeers : s'.peers = s.peers)
    (hlog : s'.log = s.log) : Current confOf C₀ s' :=
  ⟨by rw [hpeers, hlog]; exact hc.peers, by rw [hpeers]; exact hc.nodup⟩

/-- The peers are still those of the log after an entry without a configuration. -/
theorem Current.push (hc : Current confOf C₀ s) {t i : Nat} {cmd : Option Bytes}
    (hlog : s'.log = s.log.push ⟨t, i, cmd⟩) (hpeers : s'.peers = s.peers)
    (hcmd : confOf (cmd.getD []) = none) : Current confOf C₀ s' := by
  refine ⟨?_, by rw [hpeers]; exact hc.nodup⟩
  have habs : s'.log.abs = s.log.abs ++ [⟨t, cmd.getD []⟩] := by
    rw [hlog, Log.abs_push]
    rfl
  rw [hpeers, habs, conf_append_free]
  · exact hc.peers
  · intro e he
    rw [List.mem_singleton.1 he]
    exact hcmd

variable (confOf C₀) in
/-- The server comes to `s'` by steps of its own node, and its commit index does not go back. -/
def Proceeds (h : History NodeID Bytes) (id : NodeID) (s s' : Server σ) : Prop :=
  ∃ h', Only confOf C₀ id h h' ∧ ServerRef h' id s' ∧ s.commitIndex ≤ s'.commitIndex ∧
    h'.campaigned = h.campaigned

namespace ServerRef

/-! ## Terms -/

theorem raise (hs : ServerRef h id s) (hI : Inv confOf C₀ h) (t : Nat) {r : Role} {l : NodeID}
    (hr : r = .follower ∨ (r = s.role ∧ ¬ s.currentTerm < t)) :
    ∃ h', Only confOf C₀ id h h' ∧
      ServerRef h' id { s with
        role := r
        currentTerm := max s.currentTerm t
        votedFor := if s.currentTerm < t then none else s.votedFor
        leaderID := l } ∧
      h' = { h with term := h'.term, vote := h'.vote } := by
  obtain ⟨h', ho, hterm, hvote, heq⟩ := Only.raiseTo hI (p := id) t
  rw [hs.term] at hterm hvote
  refine ⟨h', ho, ?_, heq⟩
  refine { hs.mono hI ho.extends_ with
    term := hterm
    vote := hvote.trans (by rw [hs.vote])
    log := by rw [heq]; exact hs.log
    leader := fun hrole => ?_
    candidate := fun hrole => ?_ }
  · rcases hr with rfl | ⟨rfl, hlt⟩
    · cases hrole
    · obtain ⟨A, hl⟩ := hs.leader hrole
      have hmax := Nat.max_eq_left (Nat.le_of_not_lt hlt)
      rw [heq, hmax]
      exact ⟨A, { hl with }⟩
  · rcases hr with rfl | ⟨rfl, hlt⟩
    · cases hrole
    · obtain ⟨A, hc⟩ := hs.candidate hrole
      have hmax := Nat.max_eq_left (Nat.le_of_not_lt hlt)
      rw [heq, hmax]
      exact ⟨A, { hc with }⟩

/-- A later term makes the server a follower; one that is not later leaves its role. -/
theorem observe (hs : ServerRef h id s) (hI : Inv confOf C₀ h) (t : Nat) (l : NodeID) :
    ∃ h', Only confOf C₀ id h h' ∧
      ServerRef h' id { s with
        role := if s.currentTerm < t then .follower else s.role
        currentTerm := max s.currentTerm t
        votedFor := if s.currentTerm < t then none else s.votedFor
        leaderID := l } ∧
      h' = { h with term := h'.term, vote := h'.vote } := by
  refine hs.raise hI t ?_
  split
  · exact .inl rfl
  next hlt => exact .inr ⟨rfl, hlt⟩

theorem stepDown (hs : ServerRef h id s) (hI : Inv confOf C₀ h) (t : Nat) :
    Proceeds confOf C₀ h id s (s.stepDown t).1 := by
  have hf : (s.stepDown t).1 = _ := s.becomeFollower_frame t
  rw [hf]
  obtain ⟨h', ho, hs', heq⟩ := hs.raise hI t (.inl rfl)
  exact ⟨h', ho, hs', le_rfl, by rw [heq]⟩

/-! ## Committing -/

end ServerRef

theorem Server.applyCommitted_eq (m : StateMachine σ) (hw : s.log.WF)
    (hbase : s.log.baseIndex ≤ s.lastApplied) (happ : s.lastApplied ≤ s.commitIndex)
    (hlen : s.commitIndex ≤ s.log.logical.length) :
    (s.applyCommitted m).1 = { s with
      lastApplied := s.commitIndex
      sm := applyAll m ((s.log.logical.drop s.lastApplied).take (s.commitIndex - s.lastApplied))
        s.sm } := by
  rw [applyCommitted]
  dsimp only
  rw [applyLoop_eq m hw hbase (by omega), Nat.add_sub_cancel' happ]

/-- Those that match an index of the leader's term have acknowledged it. -/
theorem Leading.majority (hl : Leading h id s A) (hc : Current confOf C₀ s) {i : Nat}
    (hcommit : s.commitIndex < i) (hA : A.length < i)
    (hq : s.majority ≤ s.peers.countP fun p => decide (i ≤ s.matchIndex.at p)) :
    IsMajority (conf confOf C₀ (h.leaderLog s.currentTerm))
      {q | ∃ j, i ≤ j ∧ h.acked q s.currentTerm j} := by
  refine ⟨s.peers.filter fun p => decide (i ≤ s.matchIndex.at p), hc.nodup.filter _,
    fun q hq => ?_, ?_⟩
  · obtain ⟨hmem, hle⟩ := List.mem_filter.1 hq
    rw [decide_eq_true_eq] at hle
    refine ⟨by rw [hl.log, ← hc.peers]; exact hmem, ?_⟩
    rcases hl.matched q with hle' | hle' | ⟨j, hj, ha⟩
    · omega
    · omega
    · exact ⟨j, hle.trans hj, ha⟩
  · rw [hl.log, ← hc.peers, ← List.countP_eq_length_filter]
    exact hq

theorem Leading.commit (hl : Leading h id s A) {i : Nat} (hi : s.commitIndex ≤ i) :
    Leading (h.commit s.currentTerm i) id { s with commitIndex := i } A := by
  refine { hl with
    matched := fun q => (hl.matched q).mono le_rfl rfl hi fun ha => ha
    committed := ?_ }
  rintro i' m' (hc | ⟨-, rfl, -⟩)
  · exact (hl.committed i' m' hc).trans hi
  · exact le_rfl

namespace ServerRef

variable (hs : ServerRef h id s) (hI : Inv confOf C₀ h)

include hs hI

theorem advance (hw : s.log.WF) (hc : Current confOf C₀ s) (m : StateMachine σ) :
    ∃ h', Only confOf C₀ id h h' ∧ ServerRef h' id (s.advanceCommitIndex m).1 ∧
      s.commitIndex ≤ (s.advanceCommitIndex m).1.commitIndex ∧
      h' = { h with committed := h'.committed } := by
  rcases s.advanceCommitIndex_cases m with heq | ⟨i, hrole, hlt, hle, hcan, heq⟩
  · rw [heq]
    exact ⟨h, .refl hI, hs, le_rfl, rfl⟩
  obtain ⟨A, hl⟩ := hs.leader hrole
  have hlen := hs.length
  have hbase := hs.base
  rw [hw.lastIndex] at hle
  rw [Log.length_abs] at hlen
  -- the entry at the new commit index is the leader's own
  simp only [Server.canCommit, Bool.and_eq_true, beq_iff_eq, decide_eq_true_eq] at hcan
  obtain ⟨hterm, hcount⟩ := hcan
  rw [hw.termAt (by omega) hle, Option.some.injEq, ← hl.log] at hterm
  have hin : i ≤ (h.leaderLog s.currentTerm).length := by rw [hl.log, Log.length_abs]; exact hle
  have hA := hI.lt_of_lastTerm hl.elected (by omega) hin hterm
  have ho := Only.commit hI hl.elected hA hin (hl.majority hc hlt hA hcount)
  have happly := Server.applyCommitted_eq (s := { s with commitIndex := i }) m hw
    (by rw [hs.applied]; exact hbase) (by rw [hs.applied]; exact hlt.le) hle
  rw [heq, happly]
  have hmid : ServerRef (h.commit s.currentTerm i) id
      ({ s with
        commitIndex := i
        lastApplied := i
        sm := Server.applyAll m
          ((s.log.logical.drop s.lastApplied).take (i - s.lastApplied)) s.sm } : Server σ) :=
    { term := hs.term
      vote := hs.vote
      log := hs.log
      applied := rfl
      base := hbase.trans hlt.le
      length := by rw [Log.length_abs]; exact hle
      commit := .inr ⟨s.currentTerm, i, _, by rw [← hl.log, hterm], .inr ⟨rfl, rfl, rfl⟩, by
        dsimp only
        rw [hl.log]⟩
      cut := hs.cut.mono hI ho.extends_
      snapshot := fun snap hsnap => (hs.snapshot snap hsnap).imp
        (fun hpre => hpre.trans (List.take_prefix_take_left hlt.le))
        (.mono hI ho.extends_)
      leader := fun _ => ⟨A, { hl.commit hlt.le with }⟩
      candidate := fun hr => by
        rw [show s.role = .candidate from hr] at hrole
        cases hrole }
  rcases Server.checkSelfRemoval_frame ({ s with
      commitIndex := i
      lastApplied := i
      sm := Server.applyAll m ((s.log.logical.drop s.lastApplied).take (i - s.lastApplied)) s.sm } :
      Server σ) with hrem | hrem
  · rw [hrem]
    exact ⟨_, ho, hmid, hlt.le, rfl⟩
  · rw [hrem]
    exact ⟨_, ho, { hmid with leader := nofun, candidate := nofun }, hlt.le, rfl⟩

/-! ## Appending -/

theorem append (hl : Leading h id s A) (s' : Server σ) (cmd : Option Bytes)
    (hx : ∀ C, confOf (cmd.getD []) = some C → MayFollow confOf C₀ h s.currentTerm s.log.abs C)
    (hlog : s'.log = s.log.push ⟨s.currentTerm, s.log.lastIndex + 1, cmd⟩)
    (hterm : s'.currentTerm = s.currentTerm) (hvote : s'.votedFor = s.votedFor)
    (happ : s'.lastApplied = s.lastApplied) (hcommit : s'.commitIndex = s.commitIndex)
    (hsnap : s'.snapshot = s.snapshot) (hrole : s'.role = .leader)
    (hnext : ∀ q, s'.nextIndex.at q ≤ s.log.abs.length + 2)
    (hmatch : ∀ q, s'.matchIndex.at q ≤ s.matchIndex.at q ∨
      (q = id ∧ s'.matchIndex.at q ≤ s.log.abs.length + 1)) :
    ∃ h', Only confOf C₀ id h h' ∧ ServerRef h' id s' ∧ h'.campaigned = h.campaigned := by
  have hel : h.elected (h.term id) id A := by rw [hs.term]; exact hl.elected
  obtain ⟨h', ho, hterm', hvote', hel', hcm', hcamp', hlog', hlead', hack'⟩ :=
    Only.extend hI hel (x := cmd.getD []) (by rw [hs.term, hl.log, hs.log])
      (by rw [hs.term, hs.log]; exact hx)
  rw [hs.term, hs.log] at hlog' hlead' hack'
  have habs : s'.log.abs = s.log.abs ++ [⟨s.currentTerm, cmd.getD []⟩] := by
    rw [hlog, Log.abs_push]
    rfl
  have hlen : s'.log.abs.length = s.log.abs.length + 1 := by rw [habs, List.length_append]; rfl
  have htake : s'.log.abs.take s'.commitIndex = s.log.abs.take s.commitIndex := by
    rw [hcommit, habs, List.take_append_of_le_length hs.length]
  refine ⟨h', ho, ?_, hcamp'⟩
  refine
    { term := by rw [hterm', hs.term, hterm]
      vote := by rw [hvote', hs.vote, hvote]
      log := by rw [hlog', habs]
      applied := by rw [happ, hcommit, hs.applied]
      base := by rw [hlog, hcommit]; exact hs.base
      length := by
        rw [hlen, hcommit]
        exact Nat.le_succ_of_le hs.length
      commit := by
        rw [htake]
        exact hs.commit.mono hI ho.extends_
      cut := by
        have hbase : s'.log.baseIndex = s.log.baseIndex := by rw [hlog]; rfl
        rw [hbase, habs, List.take_append_of_le_length (hs.base.trans hs.length)]
        exact hs.cut.mono hI ho.extends_
      snapshot := fun snap hsome => by
        rw [htake]
        exact (hs.snapshot snap (hsnap ▸ hsome)).imp_right (.mono hI ho.extends_)
      leader := fun _ => ⟨A, ?_⟩
      candidate := fun hr => by rw [hrole] at hr; cases hr }
  refine
    { elected := by rw [hel', hterm]; exact hl.elected
      log := by rw [hterm, hlead', habs]
      next := fun q => by rw [hlen]; exact hnext q
      matched := fun q => ?_
      committed := fun i m hc => by
        rw [hcm', hterm] at hc
        rw [hcommit]
        exact hl.committed i m hc }
  rw [Matched, hcommit, hterm]
  rcases hmatch q with hle | ⟨rfl, hle⟩
  · exact (hl.matched q).mono hle rfl le_rfl ho.extends_.acked
  · exact .inr (.inr ⟨_, hle, hack'⟩)

/-- A candidate with a majority behind it takes over the term. -/
theorem elect (hrole : s.role = .candidate)
    (hwin : ∃ C, (∃ A, h.campaigned id s.currentTerm A ∧ conf confOf C₀ A = C) ∧
      IsMajority C {q | h.voted q s.currentTerm id}) :
    ∃ h' A, Only confOf C₀ id h h' ∧ h'.campaigned = h.campaigned ∧
      ServerRef h' id { s with role := .leader, nextIndex := ∅, matchIndex := ∅ } ∧
      Leading h' id { s with role := .leader, nextIndex := ∅, matchIndex := ∅ } A := by
  obtain ⟨A, hc⟩ := hs.candidate hrole
  obtain ⟨C, ⟨A', hA', rfl⟩, hmaj⟩ := hwin
  obtain rfl := hI.campaign_unique id _ A A' hc.campaigned hA'
  have hcan : CanWin confOf C₀ h id s.currentTerm A := ⟨hA', hmaj⟩
  have hlog : s.log.abs = A := by
    refine hc.log.resolve_right fun ⟨c, B, hne, he⟩ => hne ?_
    exact (hI.canWin_unique (hI.canWin_of_elected he) hcan).1
  have ho := Only.elect hI hcan hc.fresh
  have hl : Leading (h.elect s.currentTerm id A) id
      { s with role := .leader, nextIndex := ∅, matchIndex := ∅ } A :=
    { elected := .inr ⟨rfl, rfl, rfl⟩
      log := (Function.update_self ..).trans hlog.symm
      next := fun _ => Nat.zero_le _
      matched := fun _ => .inl (Nat.zero_le _)
      committed := fun i m hcm => by
        obtain ⟨-, -, ⟨c, B, he, -⟩, -⟩ := hI.commit_ok _ i m hcm
        exact absurd he (hI.not_elected hcan hc.fresh c B) }
  exact ⟨_, A, ho, rfl,
    { hs.mono hI ho.extends_, hs with leader := fun _ => ⟨A, hl⟩, candidate := nofun }, hl⟩

theorem becomeLeader (hw : s.log.WF)
    (hid : s.id = id) (hnil : confOf [] = none) (hc : Current confOf C₀ s)
    (hkeys : ∀ q, q ∉ s.peers → s.nextIndex.at q = 0 ∧ s.matchIndex.at q = 0) {m : StateMachine σ}
    {t : Nat} {ws : List Write} (hb : s.becomeLeader m t = some (s', ws))
    (hwin : ∃ C, (∃ A, h.campaigned id t A ∧ conf confOf C₀ A = C) ∧
      IsMajority C {q | h.voted q t id}) : Proceeds confOf C₀ h id s s' := by
  obtain ⟨hrole, rfl, rfl, -⟩ := becomeLeader_cases hb
  obtain ⟨h₁, A, ho₁, hcamp₁, hs₁, hl₁⟩ := hs.elect hI hrole hwin
  have hlast : s.log.lastIndex = s.log.abs.length := by rw [hw.lastIndex, Log.length_abs]
  obtain ⟨h₂, ho₂, hs₂, hcamp₂⟩ := hs₁.append ho₁.inv hl₁ s.lead none
    (fun C hC => by rw [Option.getD_none, hnil] at hC; cases hC) rfl rfl rfl rfl rfl rfl rfl
    (fun q => by
      dsimp only [Server.lead]
      by_cases hq : q = s.id
      · rw [hq, Progress.at_insert_self]
        omega
      · rw [Progress.at_insert_ne _ _ hq, Progress.at_foldl_insert]
        split
        · omega
        next hno => rw [(hkeys q hno).1]; exact Nat.zero_le _)
    (fun q => by
      dsimp only [Server.lead]
      by_cases hq : q = s.id
      · right
        rw [hq, Progress.at_insert_self]
        exact ⟨hid, by omega⟩
      · left
        rw [Progress.at_insert_ne _ _ hq, Progress.at_foldl_insert]
        split
        · exact Nat.zero_le _
        next hno => rw [(hkeys q hno).2]; exact Nat.zero_le _)
  have hwl : s.lead.log.WF := by
    show (s.log.push _).WF
    rw [hw.lastIndex]
    exact hw.push
  obtain ⟨h₃, ho₃, hs₃, hle, heq⟩ := hs₂.advance ho₂.inv hwl (hc.push rfl rfl hnil) m
  exact ⟨h₃, (ho₁.trans ho₂).trans ho₃, hs₃, hle, by rw [heq]; exact hcamp₂.trans hcamp₁⟩

theorem submit (hw : s.log.WF) (hid : s.id = id)
    (hc : Current confOf C₀ s) {m : StateMachine σ} {cmd : Bytes} {ws : List Write}
    (hcmd : confOf cmd = none) (hb : s.submit m cmd = some (s', ws)) :
    Proceeds confOf C₀ h id s s' := by
  rw [Server.submit] at hb
  split at hb
  · cases hb
  next hno =>
    cases hb
    rw [not_or, not_not] at hno
    obtain ⟨A, hl⟩ := hs.leader hno.1
    have hlast : s.log.lastIndex = s.log.abs.length := by rw [hw.lastIndex, Log.length_abs]
    obtain ⟨h₁, ho₁, hs₁, hcamp₁⟩ := hs.append hI hl (s.appendOwn cmd) (some cmd)
      (fun C hC => by rw [Option.getD_some, hcmd] at hC; cases hC) rfl rfl rfl rfl rfl rfl hno.1
      (fun q => (hl.next q).trans (Nat.le_succ _))
      (fun q => by
        dsimp only [Server.appendOwn]
        by_cases hq : q = s.id
        · right
          rw [hq, Progress.at_insert_self]
          exact ⟨hid, by omega⟩
        · left
          rw [Progress.at_insert_ne _ _ hq])
    have hwl : (s.appendOwn cmd).log.WF := by
      show (s.log.push _).WF
      rw [hw.lastIndex]
      exact hw.push
    obtain ⟨h₂, ho₂, hs₂, hle, heq⟩ := hs₁.advance ho₁.inv hwl (hc.push rfl rfl hcmd) m
    exact ⟨h₂, ho₁.trans ho₂, hs₂, hle, by rw [heq]; exact hcamp₁⟩

end ServerRef

/-! ## Configurations -/

variable (confOf) in
/-- The leader may change to the configuration `next`: it has committed in its term, everything
above its commit index is free of configurations, and `next` can be encoded. -/
structure MayChange (s : Server σ) (next : Configuration) : Prop where
  own : lastTerm (s.log.abs.take s.commitIndex) = s.currentTerm
  settled : ∀ f ∈ s.log.abs.drop s.commitIndex, Free confOf f
  encodes : confOf (encodeConfig next) = some next.servers

instance (e : Entry Bytes) : Decidable (Free confOf e) :=
  inferInstanceAs (Decidable (confOf e.payload = none))

instance (s : Server σ) (next : Configuration) : Decidable (MayChange confOf s next) :=
  decidable_of_iff (lastTerm (s.log.abs.take s.commitIndex) = s.currentTerm ∧
      (∀ f ∈ s.log.abs.drop s.commitIndex, Free confOf f) ∧
      confOf (encodeConfig next) = some next.servers)
    ⟨fun hc => ⟨hc.1, hc.2.1, hc.2.2⟩, fun hc => ⟨hc.own, hc.settled, hc.encodes⟩⟩

/-- What guards a configuration change: the leader has committed in its own term, and above that no
configuration is in flight. -/
theorem ServerRef.mayFollow (hs : ServerRef h id s) (hI : Inv confOf C₀ h)
    (hc : Current confOf C₀ s) (hl : Leading h id s A) {next : Configuration}
    (hpos : 0 < s.currentTerm) (hd : Configuration.differsByOne ⟨s.peers⟩ next = true)
    (hnext : MayChange confOf s next) :
    MayFollow confOf C₀ h s.currentTerm s.log.abs next.servers := by
  refine ⟨by rw [← hc.peers]; exact (Configuration.meets_of_differsByOne hd).symm, ?_⟩
  rcases hs.decided hI with hnil | ⟨t, i, m, ht, hcm, hpre⟩
  · have hown := hnext.own
    rw [hnil, lastTerm_nil] at hown
    omega
  · obtain ⟨hm, him, -⟩ := hI.commit_ok t i m hcm
    -- the decision is of the leader's own term, because it ends in an entry of that term
    have hterm : t = s.currentTerm := by
      refine Nat.le_antisymm ht ?_
      rcases eq_nil_or_concat (s.log.abs.take s.commitIndex) with hnil | ⟨X, e, hX⟩
      · have hown := hnext.own
        rw [hnil, lastTerm_nil] at hown
        omega
      · have hown := hnext.own
        rw [hX, lastTerm_concat] at hown
        rw [← hown]
        refine hI.leader_term_le ((hpre.trans (List.take_prefix _ _)).subset ?_)
        rw [hX]
        exact List.mem_append_right _ List.mem_cons_self
    subst hterm
    have hlen := hpre.length_le
    rw [List.length_take, List.length_take, Nat.min_eq_left hs.length] at hlen
    refine ⟨i, m, hcm, by rw [← hl.log]; exact hm, fun f hf => hnext.settled f ?_⟩
    exact (List.drop_sublist_drop_left _ (hlen.trans (Nat.min_le_left _ _))).subset hf

namespace ServerRef

variable (hs : ServerRef h id s) (hI : Inv confOf C₀ h)

include hs hI

theorem changeConfiguration (hw : s.log.WF)
    (hid : s.id = id) (hpos : 0 < s.currentTerm) (hc : Current confOf C₀ s)
    {mutate : Configuration → Option Configuration} {ws : List Write}
    (hnext : ∀ next, mutate ⟨s.peers⟩ = some next → MayChange confOf s next)
    (hb : s.changeConfiguration mutate = some (s', ws)) : Proceeds confOf C₀ h id s s' := by
  obtain ⟨hrole, -, -, next, hsome, hd, hs', -⟩ := Server.changeConfiguration_eq hb
  obtain ⟨ni, mi, hu⟩ := (s.appendConfig next).useConfiguration_frame next.servers
  have hprog := (s.appendConfig next).useConfiguration_progress next.servers
  rw [← hs'] at hu hprog
  have hmay := hnext next hsome
  obtain ⟨A, hl⟩ := hs.leader hrole
  have hlast : s.log.lastIndex = s.log.abs.length := by rw [hw.lastIndex, Log.length_abs]
  have hlast' : (s.appendConfig next).log.lastIndex = s.log.lastIndex + 1 := Log.lastIndex_push _ _
  obtain ⟨h', ho, hs'', hcamp⟩ := hs.append hI hl s' (some (encodeConfig next))
    (fun C hC => by
      rw [Option.getD_some, hmay.encodes] at hC
      cases hC
      exact hs.mayFollow hI hc hl hpos hd hmay)
    (by rw [hu]; rfl) (by rw [hu]; rfl) (by rw [hu]; rfl) (by rw [hu]; rfl) (by rw [hu]; rfl)
    (by rw [hu]; rfl) (by rw [hu]; exact hrole)
    (fun q => by
      refine (hprog q).1.trans ?_
      rw [hlast', hlast]
      exact max_le ((hl.next q).trans (Nat.le_succ _)) (le_rfl))
    (fun q => by
      rcases (hprog q).2 with hle | ⟨rfl, hle⟩
      · dsimp only [Server.appendConfig, Server.appendOwn] at hle
        by_cases hq : q = s.id
        · rw [hq, Progress.at_insert_self] at hle
          exact .inr ⟨hq.trans hid, by rw [hq]; omega⟩
        · rw [Progress.at_insert_ne _ _ hq] at hle
          exact .inl hle
      · rw [hlast', hlast] at hle
        exact .inr ⟨hid, hle⟩)
  exact ⟨h', ho, hs'', by rw [hu]; exact le_rfl, hcamp⟩

/-! ## Replies -/

omit hI in
theorem track (hrole : s.role = .leader) (hl : Leading h id s A)
    {ni mi : Progress} (hnext : ∀ q, ni.at q ≤ s.log.abs.length + 1)
    (hmatch : ∀ q, Matched h s A q (mi.at q)) :
    ServerRef h id { s with nextIndex := ni, matchIndex := mi } :=
  { hs with
    leader := fun _ => ⟨A, { hl with next := hnext, matched := hmatch }⟩
    candidate := fun hr => by
      rw [show s.role = .candidate from hr] at hrole
      cases hrole }

theorem recordMatch (hrole : s.role = .leader) {peer : NodeID} {k : Nat}
    (hack : ∃ A, h.elected s.currentTerm id A ∧ k ≤ (h.leaderLog s.currentTerm).length ∧
      (k ≤ A.length ∨ h.acked peer s.currentTerm k)) : ServerRef h id (s.recordMatch peer k) := by
  obtain ⟨A, he, hlen, hk⟩ := hack
  obtain ⟨A', hl⟩ := hs.leader hrole
  obtain ⟨-, rfl⟩ := hI.elected_unique _ _ _ _ _ he hl.elected
  rw [hl.log] at hlen
  rw [Server.recordMatch]
  split
  · exact hs.track hrole hl
      (Progress.forall_insert (P := fun _ k => k ≤ s.log.abs.length + 1) hl.next
        (Nat.succ_le_succ hlen))
      (Progress.forall_insert (P := Matched h s A) hl.matched
        (hk.imp_right fun ha => .inr ⟨k, le_rfl, ha⟩))
  · exact hs

omit hI in
theorem backUp (hrole : s.role = .leader) (peer : NodeID) : ServerRef h id (s.backUp peer) := by
  obtain ⟨A, hl⟩ := hs.leader hrole
  rw [Server.backUp]
  split
  · exact hs.track hrole hl
      (Progress.forall_insert (P := fun _ k => k ≤ s.log.abs.length + 1) hl.next
        ((Nat.sub_le _ _).trans (hl.next peer))) hl.matched
  · exact hs

omit hI in
theorem recordSnapshot (hrole : s.role = .leader)
    (peer : NodeID) {idx : Nat} (hidx : idx ≤ s.commitIndex) :
    ServerRef h id (s.recordSnapshot peer idx) := by
  obtain ⟨A, hl⟩ := hs.leader hrole
  refine hs.track hrole hl ?_ ?_
  · split
    · exact Progress.forall_insert (P := fun _ k => k ≤ s.log.abs.length + 1) hl.next
        (Nat.succ_le_succ (hidx.trans hs.length))
    · exact hl.next
  · split
    · exact Progress.forall_insert (P := Matched h s A) hl.matched (.inr (.inl hidx))
    · exact hl.matched

theorem onAppendReply (hw : s.log.WF)
    (hc : Current confOf C₀ s) (m : StateMachine σ) (peer : NodeID) (t k : Nat)
    (r : AppendEntriesReply)
    (hack : r.success = true → ∃ A, h.elected t id A ∧ k ≤ (h.leaderLog t).length ∧
      (k ≤ A.length ∨ h.acked peer t k)) :
    Proceeds confOf C₀ h id s (s.onAppendReply m peer t k r).1 := by
  rw [Server.onAppendReply]
  split
  · exact hs.stepDown hI r.term
  split
  · exact ⟨h, .refl hI, hs, le_rfl, rfl⟩
  next hno =>
    rw [not_or, not_not, not_not] at hno
    obtain ⟨hrole, rfl⟩ := hno
    split
    next hsucc =>
      have hrest : (s.recordMatch peer k).log = s.log ∧ (s.recordMatch peer k).peers = s.peers ∧
          (s.recordMatch peer k).commitIndex = s.commitIndex := by
        rw [Server.recordMatch]
        split <;> exact ⟨rfl, rfl, rfl⟩
      obtain ⟨hlog, hpeers, hcommit⟩ := hrest
      obtain ⟨h', ho, hs', hle, heq⟩ := (hs.recordMatch hI hrole (hack hsucc)).advance hI
        (by rw [hlog]; exact hw) (hc.of_eq hpeers hlog) m
      exact ⟨h', ho, hs', hcommit ▸ hle, by rw [heq]⟩
    next =>
      refine ⟨h, .refl hI, hs.backUp hrole peer, ?_, rfl⟩
      rw [Server.backUp]
      split <;> exact le_rfl

theorem onSnapshotReply (hw : s.log.WF)
    (hc : Current confOf C₀ s) (m : StateMachine σ) (peer : NodeID) (t idx : Nat)
    (r : InstallSnapshotReply) (hidx : idx ≤ s.commitIndex) :
    Proceeds confOf C₀ h id s (s.onSnapshotReply m peer t idx r).1 := by
  rw [Server.onSnapshotReply]
  split
  · exact hs.stepDown hI r.term
  split
  · exact ⟨h, .refl hI, hs, le_rfl, rfl⟩
  next hno =>
    rw [not_or, not_not, not_not] at hno
    obtain ⟨h', ho, hs', hle, heq⟩ :=
      (hs.recordSnapshot hno.1 peer hidx).advance hI hw (hc.of_eq rfl rfl) m
    exact ⟨h', ho, hs', hle, by rw [heq]⟩

/-! ## Compaction -/

omit hI in
theorem compact (hw : s.log.WF) {snap : Snapshot} (hsw : snap.WF)
    (hheld : snap.abs <+: s.log.abs.take s.commitIndex) (hsealed : Sealed h snap.abs) :
    ServerRef h id (s.compact snap).1 ∧ (s.compact snap).1.log.abs = s.log.abs ∧
      (s.compact snap).1.commitIndex = s.commitIndex := by
  rw [Server.compact]
  split
  · exact ⟨hs, rfl, rfl⟩
  · have habs : (s.log.discardThrough snap.lastIncludedIndex snap.lastIncludedTerm).abs
      = s.log.abs := by
      rw [Log.abs, hw.logical_discardThrough, Log.abs]
    refine ⟨?_, habs, rfl⟩
    have hidx := hheld.length_le
    rw [hsw.length_abs, List.length_take] at hidx
    refine
      { term := hs.term
        vote := hs.vote
        log := hs.log.trans habs.symm
        applied := hs.applied
        base := hidx.trans (Nat.min_le_left _ _)
        length := habs ▸ hs.length
        commit := habs ▸ hs.commit
        cut := ?_
        snapshot := fun snap' hsome => ?_
        leader := fun hr => ?_
        candidate := fun hr => ?_ }
    · have heq := (take_of_isPrefix (hheld.trans (List.take_prefix _ _)) hsw.length_abs).2
      exact habs ▸ heq.symm ▸ hsealed
    · cases hsome
      exact ⟨habs ▸ hheld, hsealed⟩
    · obtain ⟨A, hl⟩ := hs.leader hr
      exact ⟨A, { hl with log := hl.log.trans habs.symm, next := habs ▸ hl.next }⟩
    · obtain ⟨A, hcand⟩ := hs.candidate hr
      exact ⟨A, { hcand with log := habs ▸ hcand.log }⟩

/-! ## Elections -/

theorem startElection (hid : s.id = id) :
    ∃ h', Only confOf C₀ id h h' ∧ ServerRef h' id s.startElection.1 ∧
      h'.campaigned id (s.currentTerm + 1) s.log.abs ∧ h'.voted id (s.currentTerm + 1) id ∧
      ∀ c T A, h'.campaigned c T A → h.campaigned c T A ∨ 0 < T := by
  obtain ⟨h', ho, hterm, hvote, hlog, hel, hcamp, hvoted, hnew⟩ := Only.stand hI (p := id)
  rw [hs.term] at hterm hcamp hvoted
  rw [hs.log] at hcamp
  refine ⟨h', ho, ?_, hcamp, hvoted, fun c T A hc => ?_⟩
  · refine { hs.mono hI ho.extends_ with
      term := hterm
      vote := hvote.trans (congrArg some hid.symm)
      log := by rw [hlog]; exact hs.log
      leader := nofun
      candidate := fun _ => ⟨s.log.abs, hcamp, fun B he => ?_, .inl rfl⟩ }
    rw [hel] at he
    have hle := (hI.campaign_ok id _ B (hI.elected_backs _ _ _ he).1).2.2
    rw [hs.term] at hle
    exact absurd hle (Nat.not_succ_le_self _)
  · rcases hnew c T A hc with hc | hT
    · exact .inl hc
    · exact .inr (by omega)

theorem requestVote (hw : s.log.WF)
    {args : RequestVoteArgs} (hr : RequestRef h src (.requestVote args)) (recent : Bool) :
    ∃ h', Only confOf C₀ id h h' ∧ ServerRef h' id (s.requestVote args recent).1 ∧
      s.commitIndex ≤ (s.requestVote args recent).1.commitIndex ∧ h'.campaigned = h.campaigned ∧
      ((s.requestVote args recent).2.2.voteGranted = true →
        h'.voted id args.term args.candidateID) := by
  obtain ⟨hcand, A, hA, hidx, hlast⟩ := hr
  obtain ⟨h₁, ho₁, hs₁, heq⟩ := hs.observe hI args.term s.leaderID
  rw [← s.observeTerm_frame] at hs₁
  have hcommit : (s.observeTerm args.term).commitIndex
    = s.commitIndex := by rw [s.observeTerm_frame]
  rcases s.requestVote_cases args recent with he | ⟨-, he⟩ | ⟨hle, hfree, hup, s₂, hs₂, he⟩
  · rw [he]
    exact ⟨h, .refl hI, hs, le_rfl, rfl, nofun⟩
  · rw [he]
    exact ⟨h₁, ho₁, hs₁, hcommit.symm.le, by rw [heq], nofun⟩
  · rw [he, hs₂]
    have hterm : (s.observeTerm args.term).currentTerm = args.term := by
      rw [s.observeTerm_frame]
      exact Nat.max_eq_right hle
    have hlog : (s.observeTerm args.term).log = s.log := by rw [s.observeTerm_frame]
    rw [hidx, hlast, hw.isUpToDate] at hup
    have hpre := hs₁.term.trans hterm
    have ho₂ := Only.cast ho₁.inv (p := id) (c := args.candidateID) (A := A)
      (by rw [hpre, hcand, heq]; exact hA) (by rw [hs₁.vote]; exact hfree)
      (by rw [hs₁.log, hlog]; exact hup)
    refine ⟨_, ho₁.trans ho₂, { hs₁.mono ho₁.inv ho₂.extends_, hs₁ with
      vote := Function.update_self ..
      leader := fun hrole => ?_
      candidate := fun hrole => ?_ }, hcommit.symm.le, by dsimp only; rw [heq],
      fun _ => .inr ⟨rfl, hpre.symm, rfl⟩⟩
    · obtain ⟨A', hl⟩ := hs₁.leader hrole
      exact ⟨A', { hl with }⟩
    · obtain ⟨A', hc⟩ := hs₁.candidate hrole
      exact ⟨A', { hc with }⟩

/-! ## Following a leader -/

/-- A server takes over its leader's log through index `j`, and perhaps learns that more is
committed. -/
theorem follow (s' : Server σ) (he : h.elected s.currentTerm src A) (hne : src ≠ id) {j : Nat}
    (hj : j ≤ (h.leaderLog s.currentTerm).length)
    (hlog : (s'.log.abs = s.log.abs ∧ (h.leaderLog s.currentTerm).take j <+: s.log.abs) ∨
      (s'.log.abs = (h.leaderLog s.currentTerm).take j ∧
        ¬ (h.leaderLog s.currentTerm).take j <+: s.log.abs))
    (hterm : s'.currentTerm = s.currentTerm) (hvote : s'.votedFor = s.votedFor)
    (hrole : s'.role = .follower ∨ s'.role = .candidate ∧ s.role = .candidate)
    (happ : s'.lastApplied = s'.commitIndex) (hbase : s'.log.baseIndex ≤ s'.commitIndex)
    (hcommit : s'.commitIndex = s.commitIndex ∨
      (s.commitIndex ≤ s'.commitIndex ∧ s'.commitIndex ≤ j ∧
        Sealed h ((h.leaderLog s.currentTerm).take s'.commitIndex)))
    (hcut : s'.log.baseIndex = s.log.baseIndex ∨ s'.log.baseIndex = s'.commitIndex)
    (hsnap : ∀ snap, s'.snapshot = some snap →
      s.snapshot = some snap ∨ snap.abs = s'.log.abs.take s'.commitIndex) :
    ∃ h', Only confOf C₀ id h h' ∧ ServerRef h' id s' ∧ h'.campaigned = h.campaigned ∧
      h'.elected = h.elected ∧ (j ≤ A.length ∨ h'.acked id s.currentTerm j) := by
  obtain ⟨h', ho, hterm', hvote', hel', hcamp', hlead', hlog', hack'⟩ :=
    Only.follow hI (p := id) (L := s'.log.abs) (j := j) (by rw [hs.term]; exact he)
      (by rw [hs.term]; exact hj)
      (by rw [hs.term, hs.log]; exact hlog)
  rw [hs.term] at hack'
  -- what was decided before is still there, and what the leader's prefix holds is there now
  have hold : s.log.abs.take s.commitIndex <+: s'.log.abs := by
    rcases hlog with ⟨heq, -⟩ | ⟨heq, hno⟩
    · rw [heq]
      exact List.take_prefix _ _
    · rw [heq]
      exact (hs.decided hI).prefix_accept hI he (List.take_prefix _ _) hno
  have hnew : (h.leaderLog s.currentTerm).take j <+: s'.log.abs := by
    rcases hlog with ⟨heq, hpre⟩ | ⟨heq, -⟩
    · rw [heq]
      exact hpre
    · rw [heq]
  have htake : s'.commitIndex ≤ s'.log.abs.length ∧
      Sealed h (s'.log.abs.take s'.commitIndex) := by
    rcases hcommit with heq | ⟨-, hle, hdec⟩
    · obtain ⟨hlen, htake⟩ := take_of_isPrefix hold (List.length_take_of_le hs.length)
      rw [heq, htake]
      exact ⟨hlen, hs.commit⟩
    · obtain ⟨hlen, htake⟩ := take_of_isPrefix ((List.take_prefix_take_left hle).trans hnew)
        (List.length_take_of_le (hle.trans hj))
      rw [htake]
      exact ⟨hlen, hdec⟩
  refine ⟨h', ho, ?_, hcamp', hel', hack'⟩
  refine
    { term := by rw [hterm', hs.term, hterm]
      vote := by rw [hvote', hs.vote, hvote]
      log := hlog'
      applied := happ
      base := hbase
      length := htake.1
      commit := htake.2.mono hI ho.extends_
      cut := ?_
      snapshot := fun snap hsome => ?_
      leader := fun hr => ?_
      candidate := fun hr => ?_ }
  · rcases hcut with heq | heq
    · rw [heq, (take_of_isPrefix ((List.take_prefix_take_left hs.base).trans hold)
        (List.length_take_of_le (hs.base.trans hs.length))).2]
      exact hs.cut.mono hI ho.extends_
    · rw [heq]
      exact htake.2.mono hI ho.extends_
  · rcases hsnap snap hsome with hsome | hsame
    · have hle : s.commitIndex ≤ s'.commitIndex := by
        rcases hcommit with heq | ⟨hle, -⟩
        · exact heq.symm.le
        · exact hle
      obtain ⟨hpre, hsealed⟩ := hs.snapshot snap hsome
      refine ⟨?_, hsealed.mono hI ho.extends_⟩
      have hlen := hpre.length_le
      rw [List.length_take_of_le hs.length] at hlen
      rw [List.prefix_iff_eq_take.1 (hpre.trans hold)]
      exact List.take_prefix_take_left (hlen.trans hle)
    · rw [hsame]
      exact ⟨List.prefix_refl _, htake.2.mono hI ho.extends_⟩
  · rcases hrole with hf | ⟨hc, -⟩
    · rw [hf] at hr
      cases hr
    · rw [hc] at hr
      cases hr
  · rcases hrole with hf | ⟨-, hc⟩
    · rw [hf] at hr
      cases hr
    · obtain ⟨B, hcand⟩ := hs.candidate hc
      refine ⟨B, ?_, fun B' he' => ?_, .inr ⟨src, A, hne, ?_⟩⟩
      · rw [hcamp', hterm]
        exact hcand.campaigned
      · rw [hel', hterm] at he'
        exact hcand.fresh B' he'
      · rw [hel', hterm]
        exact he

/-- The log after the entries of a request, when they come from the leader of the server's term. -/
theorem appendFrom (hw : s.log.WF) {T : Nat}
    (hT : s.currentTerm ≤ T) (he : h.elected T src A) {prev : Nat} {es : List LogEntry}
    (hlen : prev + es.length ≤ (h.leaderLog T).length)
    (hes : es.map LogEntry.abs = ((h.leaderLog T).take (prev + es.length)).drop prev)
    (hm : s.log.matchesPrevLog prev (lastTerm ((h.leaderLog T).take prev)) = true) :
    (s.log.appendFrom prev es).1.baseIndex = s.log.baseIndex ∧
      (((s.log.appendFrom prev es).1.abs = s.log.abs ∧
          (h.leaderLog T).take (prev + es.length) <+: s.log.abs) ∨
        ((s.log.appendFrom prev es).1.abs = (h.leaderLog T).take (prev + es.length) ∧
          ¬ (h.leaderLog T).take (prev + es.length) <+: s.log.abs)) := by
  have hgrown : Grown h s.log.abs := hs.log ▸ hI.log_grown id
  have hprev := Server.WF.prev_le hw hm
  -- the compacted prefix is decided, so the leader holds it too
  have hbase : s.log.abs.take s.log.baseIndex = (h.leaderLog T).take s.log.baseIndex := by
    have hpre : s.log.abs.take s.commitIndex <+: h.leaderLog T :=
      ((hs.decided hI).mono hI (.refl h) hT).prefix_leaderLog hI he
    exact (take_of_isPrefix ((List.take_prefix_take_left hs.base).trans hpre)
      (List.length_take_of_le (hs.base.trans hs.length))).2.symm
  have hagree : s.log.abs.take (max prev s.log.baseIndex) =
      (h.leaderLog T).take (max prev s.log.baseIndex) := by
    rcases Nat.le_total prev s.log.baseIndex with hle | hge
    · rw [Nat.max_eq_right hle]
      exact hbase
    · rw [Nat.max_eq_left hge]
      have hmatch := (hw.matchesPrevLog hge).1 hm
      exact hgrown.take_eq_of_lastTerm (hI.leader_grown T) (by rw [Log.length_abs]; exact hmatch.1)
        (by omega) hmatch.2
  refine ⟨congrArg LogEntry.index (hw.appendFrom hprev es).2.1, ?_⟩
  rcases hw.appendFrom_of_matches (fun i e f he hf => hgrown.take_eq (hI.leader_grown T) he hf)
    (by rw [hes, List.drop_take, Nat.add_sub_cancel_left]) hlen hprev hagree with
    ⟨-, habs, hno⟩ | ⟨-, hsame, hpre⟩
  · exact .inr ⟨habs, hno⟩
  · exact .inl ⟨by rw [hsame], hpre⟩

/-- The leader of a term is not the receiver of its requests. -/
theorem not_leader (he : h.elected s.currentTerm src A) (hne : src ≠ id) :
    s.role ≠ .leader := by
  intro hrole
  obtain ⟨B, hl⟩ := hs.leader hrole
  exact hne (hI.elected_unique _ _ _ _ _ he hl.elected).1

/-- What the server has done when it has heeded the term and the leader of a request. -/
theorem followLeader (t : Nat) (l : NodeID) :
    ∃ h₁, Only confOf C₀ id h h₁ ∧ ServerRef h₁ id (s.followLeader t l) ∧
      h₁ = { h with term := h₁.term, vote := h₁.vote } ∧ (s.followLeader t l).log = s.log ∧
      (s.followLeader t l).commitIndex = s.commitIndex := by
  obtain ⟨role, hrole, hf⟩ := s.followLeader_frame t l
  obtain ⟨h₁, ho₁, hs₁, heq⟩ := hs.raise (r := role) (l := l) hI t
    (by
      rcases hrole with ⟨hr, hlt, -⟩ | hr
      · exact .inr ⟨hr, hlt⟩
      · exact .inl hr)
  rw [hf]
  exact ⟨h₁, ho₁, hs₁, heq, rfl, rfl⟩

theorem appendEntries (hw : s.log.WF)
    (hne : src ≠ id) {args : AppendEntriesArgs} (hr : RequestRef h src (.appendEntries args))
    (m : StateMachine σ) :
    ∃ h', Only confOf C₀ id h h' ∧ ServerRef h' id (s.appendEntries m args).1 ∧
      s.commitIndex ≤ (s.appendEntries m args).1.commitIndex ∧ h'.campaigned = h.campaigned ∧
      ((s.appendEntries m args).2.2.success = true → ∃ A, h'.elected args.term src A ∧
        (args.prevLogIndex + args.entries.length ≤ A.length ∨
          h'.acked id args.term (args.prevLogIndex + args.entries.length))) := by
  obtain ⟨⟨A, he⟩, hlen, hprev, hes, hlc, hdec⟩ := hr
  obtain ⟨role, hrole, hf⟩ := s.followLeader_frame args.term args.leaderID
  obtain ⟨h₁, ho₁, hs₁, heq, hlog, hcommit⟩ := hs.followLeader hI args.term args.leaderID
  rcases s.appendEntries_cases m args with ⟨-, hcase⟩ | ⟨-, -, hcase⟩ | ⟨hle, hm, s₂, hs₂, hcase⟩
  · rw [hcase]
    exact ⟨h, .refl hI, hs, le_rfl, rfl, fun hf => absurd hf Bool.false_ne_true⟩
  · rw [hcase]
    exact ⟨h₁, ho₁, hs₁, hcommit.symm.le, by rw [heq], fun hf => absurd hf Bool.false_ne_true⟩
  rw [hcase]
  have hterm : (s.followLeader args.term args.leaderID).currentTerm = args.term := by
    rw [hf]
    exact Nat.max_eq_right hle
  have he₁ : h₁.elected (s.followLeader args.term args.leaderID).currentTerm src A := by
    rw [hterm, heq]
    exact he
  have hfollower : (s.followLeader args.term args.leaderID).role = .follower := by
    have hno := hs₁.not_leader ho₁.inv he₁ hne
    rw [hf] at hno ⊢
    rcases hrole with ⟨hr, hlt, hcand⟩ | hr
    · have hsame : args.term = s.currentTerm := by omega
      cases hrr : role with
      | follower => rfl
      | candidate => exact absurd hsame (hcand hrr)
      | leader => exact absurd hrr hno
    · exact hr
  obtain ⟨peers, ni, mi, ci, htake, -⟩ :=
    (s.followLeader args.term args.leaderID).takeEntries_frame args.prevLogIndex args.entries
  rw [Server.received, hlog] at htake
  rw [hprev] at hm
  obtain ⟨hb, hL⟩ := hs.appendFrom hI hw hle he hlen hes hm
  have hlead : h₁.leaderLog (s.followLeader args.term args.leaderID).currentTerm =
      h.leaderLog args.term := by rw [hterm, heq]
  have hw₂ : (s.log.appendFrom args.prevLogIndex args.entries).1.WF :=
    (hw.appendFrom (Server.WF.prev_le hw hm) _).1
  -- the server after the entries, whatever it then learns about the commit index
  have hgo {c : Nat} {x : σ}
      (hc : c = s.commitIndex ∨ (s.commitIndex ≤ c ∧ c ≤ args.prevLogIndex + args.entries.length ∧
        Sealed h ((h.leaderLog args.term).take c))) :
      ∃ h', Only confOf C₀ id h h' ∧
        ServerRef h' id { s₂ with commitIndex := c, lastApplied := c, sm := x } ∧
        h'.campaigned = h.campaigned ∧ h'.elected = h.elected ∧
        (args.prevLogIndex + args.entries.length ≤ A.length ∨
          h'.acked id args.term (args.prevLogIndex + args.entries.length)) := by
    obtain ⟨h₂, ho₂, hs₂', hcamp₂, hel₂, hack₂⟩ := hs₁.follow ho₁.inv
      { s₂ with commitIndex := c, lastApplied := c, sm := x } he₁ hne
      (j := args.prevLogIndex + args.entries.length) (by rw [hlead]; exact hlen)
      (by rw [hs₂, htake, hlead, hlog]; exact hL) (by rw [hs₂, htake]) (by rw [hs₂, htake])
      (.inl (by rw [hs₂, htake]; exact hfollower)) rfl
      (by
        rw [hs₂, htake]
        dsimp only
        rw [hb]
        have := hs.base
        rcases hc with hc | ⟨hc, -⟩ <;> omega)
      (by
        rw [hcommit, hlead]
        exact hc.imp_right (And.imp_right (And.imp_right (Sealed.mono hI ho₁.extends_))))
      (.inl (by rw [hs₂, htake]; dsimp only; rw [hb, hlog]))
      (fun snap hsome => .inl (by rw [hs₂, htake] at hsome; exact hsome))
    rw [hterm] at hack₂
    exact ⟨h₂, ho₁.trans ho₂, hs₂', by rw [hcamp₂, heq], by rw [hel₂, heq], hack₂⟩
  have hcommit₂ : s₂.commitIndex = s.commitIndex := by rw [hs₂, htake]; exact hcommit
  have happ₂ : s₂.lastApplied = s.commitIndex := by
    rw [hs₂, htake]
    exact hs₁.applied.trans hcommit
  rw [Server.learnCommit]
  split
  next hlt =>
    rw [hcommit₂] at hlt
    rw [Nat.min_eq_left hlc]
    have hlog₂ : s₂.log = (s.log.appendFrom args.prevLogIndex args.entries).1 := by rw [hs₂, htake]
    have hin : args.leaderCommit ≤ s₂.log.logical.length := by
      have hpre : (h.leaderLog args.term).take (args.prevLogIndex + args.entries.length) <+:
          s₂.log.abs := by
        rw [hlog₂]
        rcases hL with ⟨habs, hpre⟩ | ⟨habs, -⟩
        · rw [habs]
          exact hpre
        · rw [habs]
      have := hpre.length_le
      rw [List.length_take, Nat.min_eq_left hlen, Log.length_abs] at this
      omega
    rw [Server.applyCommitted_eq (s := { s₂ with commitIndex := args.leaderCommit }) m
      (by dsimp only; rw [hlog₂]; exact hw₂)
      (by
        dsimp only
        rw [happ₂, hlog₂, hb]
        exact hs.base)
      (by
        dsimp only
        omega) hin]
    obtain ⟨h', ho, hs', hcamp, hel, hack⟩ := hgo (c := args.leaderCommit)
      (.inr ⟨hlt.le, hlc, hdec⟩)
    exact ⟨h', ho, hs', hlt.le, hcamp, fun _ => ⟨A, by rw [hel]; exact he, hack⟩⟩
  next =>
    obtain ⟨h', ho, hs', hcamp, hel, hack⟩ := hgo (c := s.commitIndex) (x := s₂.sm) (.inl rfl)
    have hsame : ({ s₂ with
        commitIndex := s.commitIndex, lastApplied := s.commitIndex, sm := s₂.sm } : Server σ)
        = s₂ := by
      rw [← happ₂]
      nth_rewrite 1 [happ₂]
      rw [← hcommit₂]
    rw [hsame] at hs'
    exact ⟨h', ho, hs', hcommit₂.symm.le, hcamp,
      fun _ => ⟨A, by rw [hel]; exact he, hack⟩⟩

omit hI in
theorem learn {c : Nat} (hle : s.commitIndex ≤ c) (hlen : c ≤ s.log.abs.length)
    (hsealed : Sealed h (s.log.abs.take c)) (x : σ) :
    ServerRef h id { s with commitIndex := c, lastApplied := c, sm := x } := by
  refine { hs with
    applied := rfl
    base := hs.base.trans hle
    length := hlen
    commit := hsealed
    snapshot := fun snap hsome =>
      (hs.snapshot snap hsome).imp_left fun hpre => hpre.trans (List.take_prefix_take_left hle)
    leader := fun hr => ?_
    candidate := fun hr => (hs.candidate hr).imp fun A hc => { hc with } }
  obtain ⟨A, hl⟩ := hs.leader hr
  exact ⟨A, { hl with
    matched := fun q => (hl.matched q).mono le_rfl rfl hle fun ha => ha
    committed := fun i m hc => (hl.committed i m hc).trans hle }⟩

/-- The heartbeat of a read: it carries no entries, and what it says about the commit index holds of
every log that passes the check. -/
theorem beat (hw : s.log.WF)
    {args : AppendEntriesArgs} (hr : BeatRef h (.appendEntries args)) (m : StateMachine σ) :
    Proceeds confOf C₀ h id s (s.appendEntries m args).1 := by
  obtain ⟨hnil, L, hL, hprev, hterm, hlc, hsealed⟩ := hr
  obtain ⟨h₁, ho₁, hs₁, heq, hlog, hcommit⟩ := hs.followLeader hI args.term args.leaderID
  rcases s.appendEntries_cases m args with ⟨-, hcase⟩ | ⟨-, -, hcase⟩ | ⟨-, hm, s₂, hs₂, hcase⟩
  · rw [hcase]
    exact ⟨h, .refl hI, hs, le_rfl, rfl⟩
  · rw [hcase]
    exact ⟨h₁, ho₁, hs₁, hcommit.symm.le, by rw [heq]⟩
  rw [hcase]
  rw [hnil] at hs₂
  have hsame : s₂ = s.followLeader args.term args.leaderID := hs₂
  rw [hsame, hnil, List.length_nil, Nat.add_zero, Server.learnCommit]
  split
  next hlt =>
    rw [hprev, Nat.min_eq_left hlc]
    -- below the boundary every check passes, but there is nothing to learn
    have hbase : s.log.baseIndex ≤ args.prevLogIndex := by
      have := hs.base
      omega
    obtain ⟨hin, hlast⟩ := (hw.matchesPrevLog hbase).1 hm
    have hgrown : Grown h s.log.abs := hs.log ▸ hI.log_grown id
    have hagree : s.log.abs.take args.prevLogIndex = L := by
      have htake := hgrown.take_eq_of_lastTerm hL (by rw [Log.length_abs]; exact hin)
        hprev.le (by rw [hlast, hterm, hprev, List.take_length])
      rwa [hprev, List.take_length, ← hprev] at htake
    have htake : s.log.abs.take args.leaderCommit = L.take args.leaderCommit := by
      rw [← hagree, List.take_take, Nat.min_eq_left (by omega)]
    rw [Server.applyCommitted_eq (s := { s.followLeader args.term args.leaderID with
        commitIndex := args.leaderCommit }) m (by dsimp only; rw [hlog]; exact hw)
      (by dsimp only; rw [hlog, hs₁.applied, hcommit]; exact hs.base)
      (by dsimp only; rw [hs₁.applied]; exact hlt.le)
      (by dsimp only; rw [hlog]; omega)]
    refine ⟨h₁, ho₁, ?_, by rw [← hcommit]; exact hlt.le, by rw [heq]⟩
    refine hs₁.learn hlt.le ?_ ?_ _
    · rw [hlog, Log.length_abs]
      omega
    · rw [hlog, htake]
      exact hsealed.mono hI ho₁.extends_
  next => exact ⟨h₁, ho₁, hs₁, hcommit.symm.le, by rw [heq]⟩

end ServerRef

/-- The log that an installed snapshot leaves, when the snapshot comes from the leader of the
server's term. -/
theorem Server.abs_rebase_cases (hI : Inv confOf C₀ h) {l : Log} (hw : l.WF)
    (hgrown : Grown h l.abs) {T : Nat} (he : h.elected T src A) {snap : Snapshot} (hsw : snap.WF)
    (hdec : Decided h T snap.abs) (hlt : l.baseIndex < snap.lastIncludedIndex) :
    (h.leaderLog T).take snap.lastIncludedIndex = snap.abs ∧
      (Server.rebase l snap).baseIndex = snap.lastIncludedIndex ∧
      (((Server.rebase l snap).abs = l.abs ∧ snap.abs <+: l.abs) ∨
        ((Server.rebase l snap).abs = snap.abs ∧ ¬ snap.abs <+: l.abs)) := by
  obtain ⟨hlen, htake⟩ := take_of_isPrefix (hdec.prefix_leaderLog hI he) hsw.length_abs
  obtain ⟨-, hbase, ⟨hin, hterm, hkeep⟩ | ⟨hno, hnew⟩⟩ := Server.rebase_cases hw hsw hlt
  · refine ⟨htake, hbase, .inl ⟨by rw [Log.abs, hkeep, Log.abs], ?_⟩⟩
    have heq := hgrown.take_eq_of_lastTerm (hI.leader_grown T)
      (by rw [Log.length_abs]; exact hin) hlen
      (by rw [hterm, htake, hsw.lastTerm])
    rw [← htake, ← heq]
    exact List.take_prefix _ _
  · refine ⟨htake, hbase, .inr ⟨by rw [Log.abs, hnew, Snapshot.abs], fun hpre' => hno ?_⟩⟩
    obtain ⟨hin, heq⟩ := take_of_isPrefix hpre' hsw.length_abs
    rw [Log.length_abs] at hin
    exact ⟨hin, by rw [heq, hsw.lastTerm]⟩

namespace ServerRef

theorem installSnapshot (hs : ServerRef h id s) (hI : Inv confOf C₀ h) (hw : s.log.WF)
    (hne : src ≠ id) {args : InstallSnapshotArgs} (hsw : args.snapshot.WF)
    (hr : RequestRef h src (.installSnapshot args)) (m : StateMachine σ) :
    Proceeds confOf C₀ h id s (s.installSnapshot m args).1 := by
  obtain ⟨⟨A, he⟩, hdec, hsealed⟩ := hr
  obtain ⟨h₁, ho₁, hs₁, heq⟩ := hs.observe hI args.term args.leaderID
  rw [← s.heedSnapshot_frame] at hs₁
  have hcommit : (s.heedSnapshot args.term args.leaderID).commitIndex = s.commitIndex := by
    rw [s.heedSnapshot_frame]
  have hlog : (s.heedSnapshot args.term args.leaderID).log = s.log := by rw [s.heedSnapshot_frame]
  rcases s.installSnapshot_cases m args with
    ⟨-, hcase⟩ | ⟨-, -, hcase⟩ | ⟨hle, hlt, happ, x, -, s₂, hs₂, hcase⟩
  · rw [hcase]
    exact ⟨h, .refl hI, hs, le_rfl, rfl⟩
  · rw [hcase]
    exact ⟨h₁, ho₁, hs₁, hcommit.symm.le, by rw [heq]⟩
  rw [hcase, hs₂, Server.adoptSnapshot]
  have hterm : (s.heedSnapshot args.term args.leaderID).currentTerm = args.term := by
    rw [s.heedSnapshot_frame]
    exact Nat.max_eq_right hle
  have he₁ : h₁.elected args.term src A := by
    rw [heq]
    exact he
  have hdec₁ := hdec.mono hI ho₁.extends_ (le_rfl)
  have hgrown : Grown h₁ s.log.abs := by
    rw [← hlog, ← hs₁.log]
    exact ho₁.inv.log_grown id
  obtain ⟨htake, hbase, hL⟩ := Server.abs_rebase_cases ho₁.inv hw hgrown he₁ hsw hdec₁ hlt
  have hmax : max s.commitIndex args.snapshot.lastIncludedIndex
    = args.snapshot.lastIncludedIndex := by
    rw [← hs.applied]
    exact Nat.max_eq_right happ.le
  rw [hcommit, hmax, hlog]
  have hpre : args.snapshot.abs <+: (Server.rebase s.log args.snapshot).abs := by
    rcases hL with ⟨habs, hpre⟩ | ⟨habs, -⟩
    · rw [habs]
      exact hpre
    · rw [habs]
  obtain ⟨h₂, ho₂, hs₂', hcamp₂, -, -⟩ := hs₁.follow ho₁.inv
    { s.heedSnapshot args.term args.leaderID with
      sm := x
      log := Server.rebase s.log args.snapshot
      lastApplied := args.snapshot.lastIncludedIndex
      commitIndex := args.snapshot.lastIncludedIndex
      snapshot := some args.snapshot }
    (hterm.symm ▸ he₁) hne (j := args.snapshot.lastIncludedIndex)
    (by
      rw [hterm, ← hsw.length_abs]
      exact (hdec₁.prefix_leaderLog ho₁.inv he₁).length_le)
    (by rw [hterm, htake, hlog]; exact hL) rfl rfl
    (by
      have hno := hs₁.not_leader ho₁.inv (hterm.symm ▸ he₁) hne
      dsimp only
      cases hr : (s.heedSnapshot args.term args.leaderID).role with
      | follower => exact .inl rfl
      | candidate => exact .inr ⟨rfl, rfl⟩
      | leader => exact absurd hr hno)
    rfl hbase.le
    (.inr ⟨by
      rw [hcommit, ← hs.applied]
      exact happ.le, le_rfl, by
      rw [hterm, htake]
      exact hsealed.mono hI ho₁.extends_⟩)
    (.inr hbase)
    (fun snap hsome => by
      cases hsome
      exact .inr (take_of_isPrefix hpre hsw.length_abs).2.symm)
  refine ⟨h₂, ho₁.trans ho₂, hs₂', ?_, by rw [hcamp₂, heq]⟩
  rw [← hs.applied]
  exact happ.le

end ServerRef

end CoreBank.Raft
