import CoreBank.Raft.Applied
import CoreBank.Raft.Bookkeeping

/-!
# The cursors of replication

For each peer, everything up to `matchIndex` is known to be there, and the next entries go out from
`nextIndex` on.  A `CursorRule` is a relation between the two and the end of the log that every
section of a leader keeps, if refusals and replies to snapshots come only when the rule allows for
them.

* `Within` is kept always: no cursor points beyond the log.
* `Meeting` says that the match lies below the next index, right below it once something was
  acknowledged.  It is lost when a refusal is processed after a later acknowledgement.

`cursors_ordered` is the result for whole runs.
-/

set_option autoImplicit false

namespace CoreBank.Raft

open ActionSystem

variable {σ : Type}

/-! ## Rules for a pair of cursors -/

/-- A relation between the match, the next index and the last index that replication keeps, provided
that the next index is moved back only where `back` holds, and a snapshot is acknowledged only where
`ship` does. -/
structure CursorRule (R : Nat → Nat → Nat → Prop) (back : Nat → Nat → Prop)
    (ship : Nat → Nat → Nat → Prop) : Prop where
  mono : ∀ {m n l l'}, R m n l → l ≤ l' → R m n l'
  fresh : ∀ l, R 0 (l + 1) l
  acked : ∀ {m n l k}, R m n l → m < k → k ≤ l → R k (k + 1) l
  backed : ∀ {m n l}, R m n l → 1 < n → back m n → R m (n - 1) l
  shipped : ∀ {m n l i}, R m n l → i ≤ l → ship m n i →
    R (if m < i then i else m) (if n < i + 1 then i + 1 else n) l

/-- Neither cursor points beyond the log. -/
def Within (m n l : Nat) : Prop := m ≤ l ∧ n ≤ l + 1

theorem cursorRule_within : CursorRule Within (fun _ _ => True) (fun _ _ _ => True) where
  mono h hl := ⟨h.1.trans hl, h.2.trans (Nat.succ_le_succ hl)⟩
  fresh l := ⟨Nat.zero_le l, le_rfl⟩
  acked _ _ hk := ⟨hk, Nat.succ_le_succ hk⟩
  backed h _ _ := ⟨h.1, (Nat.sub_le _ _).trans h.2⟩
  shipped h hi _ := by
    constructor
    · split
      · exact hi
      · exact h.1
    · split
      · exact Nat.succ_le_succ hi
      · exact h.2

/-- The match is below the next index, and right below it once it is positive. -/
def Meeting (m n l : Nat) : Prop := m < n ∧ n ≤ l + 1 ∧ (m = 0 ∨ n = m + 1)

theorem cursorRule_meeting :
    CursorRule Meeting (fun m n => m + 1 < n) (fun m n i => m < i → n ≤ i + 1) where
  mono h hl := ⟨h.1, h.2.1.trans (Nat.succ_le_succ hl), h.2.2⟩
  fresh l := ⟨Nat.succ_pos l, le_rfl, .inl rfl⟩
  acked _ _ hk := ⟨Nat.lt_succ_self _, Nat.succ_le_succ hk, .inr rfl⟩
  backed h _ hback := by
    obtain ⟨hlt, hle, hmet⟩ := h
    exact ⟨by omega, by omega, by omega⟩
  shipped h hi hship := by
    obtain ⟨hlt, hle, hmet⟩ := h
    split
    next hnew =>
      have hn := hship hnew
      split
      · exact ⟨Nat.lt_succ_self _, Nat.succ_le_succ hi, .inr rfl⟩
      · exact ⟨by omega, hle, by omega⟩
    next hold =>
      rw [if_neg (by omega)]
      exact ⟨hlt, hle, hmet⟩

variable {q : NodeID}

theorem Progress.at_foldl_erase_of_notMem (m : Progress) {ps : List NodeID} (hq : q ∉ ps) :
    Progress.at (ps.foldl (fun m p => m.erase p) m) q = m.at q := by
  induction ps generalizing m with
  | nil => rfl
  | cons p ps ih =>
    rw [List.mem_cons, not_or] at hq
    rw [List.foldl_cons, ih _ hq.2, Progress.at, AList.lookup_erase_ne hq.1, Progress.at]

namespace Server

variable {R : Nat → Nat → Nat → Prop} {back : Nat → Nat → Prop} {ship : Nat → Nat → Nat → Prop}
  {s s' : Server σ} {peer : NodeID}

/-- The cursors of the peer obey the relation. -/
def CursorsIn (R : Nat → Nat → Nat → Prop) (s : Server σ) (q : NodeID) : Prop :=
  R (s.matchIndex.at q) (s.nextIndex.at q) s.log.lastIndex

section Rule

variable (hR : CursorRule R back ship)

section Books

variable (h : s.CursorsIn R q)

include h

theorem CursorsIn.advance (m : StateMachine σ) : (s.advanceCommitIndex m).1.CursorsIn R q := by
  rw [CursorsIn, matchIndex_advance, nextIndex_advance, log_advance]
  exact h

include hR

theorem CursorsIn.of_eq (hnext : s'.nextIndex.at q = s.nextIndex.at q)
    (hmatch : s'.matchIndex.at q = s.matchIndex.at q) (hlast : s.log.lastIndex ≤ s'.log.lastIndex) :
    s'.CursorsIn R q := by
  rw [CursorsIn, hnext, hmatch]
  exact hR.mono h hlast

theorem CursorsIn.recordMatch {k : Nat} (hk : k ≤ s.log.lastIndex) :
    (s.recordMatch peer k).CursorsIn R q := by
  rw [Server.recordMatch]
  split
  next hlt =>
    by_cases hq : q = peer
    · subst hq
      rw [CursorsIn]
      dsimp only
      rw [Progress.at_insert_self, Progress.at_insert_self]
      exact hR.acked h hlt hk
    · exact h.of_eq hR (Progress.at_insert_ne _ _ hq) (Progress.at_insert_ne _ _ hq) (le_rfl)
  next => exact h

theorem CursorsIn.recordSnapshot {i : Nat} (hi : i ≤ s.log.lastIndex)
    (hship : q = peer → ship (s.matchIndex.at peer) (s.nextIndex.at peer) i) :
    (s.recordSnapshot peer i).CursorsIn R q := by
  have hat (m : Progress) (v : Nat) (c : Prop) [Decidable c] :
      Progress.at (if c then m.insert peer v else m) q = if c ∧ q = peer then v else m.at q := by
    by_cases hc : c
    · by_cases hq : q = peer
      · rw [if_pos hc, if_pos ⟨hc, hq⟩, hq, Progress.at_insert_self]
      · rw [if_pos hc, if_neg fun h => hq h.2, Progress.at_insert_ne _ _ hq]
    · rw [if_neg hc, if_neg fun h => hc h.1]
  rw [CursorsIn, Server.recordSnapshot]
  dsimp only
  rw [hat, hat]
  by_cases hq : q = peer
  · subst hq
    simp only [and_true]
    exact hR.shipped h hi (hship rfl)
  · rw [if_neg fun h => hq h.2, if_neg fun h => hq h.2]
    exact h

theorem CursorsIn.backUp
    (hback : q = peer → 1 < s.nextIndex.at peer →
      back (s.matchIndex.at peer) (s.nextIndex.at peer)) : (s.backUp peer).CursorsIn R q := by
  rw [Server.backUp]
  split
  next hpos =>
    by_cases hq : q = peer
    · subst hq
      rw [CursorsIn]
      dsimp only
      rw [Progress.at_insert_self]
      exact hR.backed h hpos (hback rfl hpos)
    · exact h.of_eq hR (Progress.at_insert_ne _ _ hq) rfl (le_rfl)
  next => exact h

theorem CursorsIn.appendOwn (hq : q ≠ s.id) (cmd : Bytes) :
    (s.appendOwn cmd).CursorsIn R q := by
  refine h.of_eq hR rfl (Progress.at_insert_ne _ _ hq) ?_
  rw [Server.appendOwn, Log.lastIndex_push]
  exact Nat.le_succ _

end Books

/-- A member that was known keeps its cursors, one that was not starts at the end of the log. -/
theorem at_trackMembers {servers : List NodeID} (next : Nat) (ni mi : Progress)
    (hq : q ∈ servers) :
    (trackMembers servers next ni mi).1.at q = (if q ∈ ni then ni.at q else next) ∧
      (trackMembers servers next ni mi).2.at q = if q ∈ ni then mi.at q else 0 := by
  have hgone : q ∉ ni.keys.filter fun p => !servers.contains p := by
    rw [List.mem_filter, List.contains_iff_mem.2 hq]
    exact fun h => Bool.noConfusion h.2
  have hadded : (q ∈ servers.filter fun p => (ni.lookup p).isNone) ↔ q ∉ ni := by
    rw [List.mem_filter, Option.isNone_iff_eq_none, AList.lookup_eq_none]
    exact and_iff_right hq
  rw [trackMembers]
  dsimp only
  rw [Progress.at_foldl_erase_of_notMem _ hgone, Progress.at_foldl_erase_of_notMem _ hgone,
    Progress.at_foldl_insert, Progress.at_foldl_insert]
  by_cases hmem : q ∈ ni
  · rw [if_neg fun h => hadded.1 h hmem, if_neg fun h => hadded.1 h hmem, if_pos hmem, if_pos hmem]
    exact ⟨rfl, rfl⟩
  · rw [if_pos (hadded.2 hmem), if_pos (hadded.2 hmem), if_neg hmem, if_neg hmem]
    exact ⟨rfl, rfl⟩

include hR

/-- A new leader sends every peer what follows the log it was elected with. -/
theorem CursorsIn.lead (hpeer : q ∈ s.peers) (hq : q ≠ s.id) :
    s.lead.CursorsIn R q := by
  have hlast : s.lead.log.lastIndex = s.log.lastIndex + 1 := Log.lastIndex_push _ _
  rw [CursorsIn, hlast, Server.lead]
  dsimp only
  rw [Progress.at_insert_ne _ _ hq, Progress.at_foldl_insert, if_pos hpeer,
    Progress.at_insert_ne _ _ hq, Progress.at_foldl_insert, if_pos hpeer]
  exact hR.mono (hR.fresh _) (Nat.le_succ _)

/-- Members keep their cursors when the configuration changes, and new ones start at the end. -/
theorem CursorsIn.useConfiguration {servers : List NodeID} (hrole : s.role = .leader)
    (hmem : q ∈ servers) (hq : q ≠ s.id) (h : q ∈ s.nextIndex → s.CursorsIn R q) :
    (s.useConfiguration servers).CursorsIn R q := by
  obtain ⟨hnext, hmatch⟩ := at_trackMembers (s.log.lastIndex + 1) s.nextIndex s.matchIndex hmem
  rw [Server.useConfiguration, if_neg (not_not.2 hrole), CursorsIn]
  dsimp only
  rw [Progress.at_insert_ne _ _ hq, hnext, hmatch]
  by_cases hkey : q ∈ s.nextIndex
  · rw [if_pos hkey, if_pos hkey]
    exact h hkey
  · rw [if_neg hkey, if_neg hkey]
    exact hR.fresh _

theorem CursorsIn.changeConfiguration {mutate : Configuration → Option Configuration}
    {ws : List Write} (hs : s.changeConfiguration mutate = some (s', ws)) (hmem : q ∈ s'.peers)
    (hq : q ≠ s.id) (h : q ∈ s.nextIndex → s.CursorsIn R q) : s'.CursorsIn R q := by
  obtain ⟨hrole, -, -, next, -, -, rfl, -⟩ := changeConfiguration_eq hs
  obtain ⟨ni, mi, huse⟩ := (s.appendConfig next).useConfiguration_frame next.servers
  rw [huse] at hmem
  refine CursorsIn.useConfiguration hR hrole hmem hq fun hkey => ?_
  exact ((h hkey).appendOwn hR hq (encodeConfig next)).of_eq hR rfl rfl (le_rfl)

end Rule

/-- The reply comes when the rule allows for it. -/
def Heeds (back : Nat → Nat → Prop) (ship : Nat → Nat → Nat → Prop) (s : Server σ) :
    Task → Reply → Prop
  | .await _ (.append peer term _), .appendEntries r =>
    s.role = .leader → s.currentTerm = term → r.term ≤ s.currentTerm → r.success = false →
      peer ∈ s.peers → 1 < s.nextIndex.at peer → back (s.matchIndex.at peer) (s.nextIndex.at peer)
  | .await _ (.snapshot peer term idx), .installSnapshot r =>
    s.role = .leader → s.currentTerm = term → r.term ≤ s.currentTerm →
      peer ∈ s.peers → ship (s.matchIndex.at peer) (s.nextIndex.at peer) idx
  | _, _ => True

theorem heeds_true (s : Server σ) (t : Task) (r : Reply) :
    s.Heeds (fun _ _ => True) (fun _ _ _ => True) t r := by
  rw [Heeds.eq_def]
  split <;> simp

end Server

/-- No old page is taken for that of a new server, and no leader is told of another of its own
term. -/
def Process.Unmixed (w : World σ) (id : NodeID) (p : Process σ) : Local → Prop
  | .addServer x => x ∉ p.server.nextIndex.keys
  | .deliver call recent => p.Undisputed w id (.deliver call recent)
  | _ => True

instance (w : World σ) (id : NodeID) (p : Process σ) (a : Local) :
    Decidable (p.Unmixed w id a) := by
  induction a using Local.casesOn <;> unfold Process.Unmixed <;> infer_instance

variable {w : World σ} {p : Process σ}

theorem Process.Unmixed.undisputed {id : NodeID} {a : Local} (h : p.Unmixed w id a) :
    p.Undisputed w id a := by
  cases a with
  | deliver call recent => exact h
  | _ => trivial

/-! ## What is on its way -/

/-- `P` was established by the leader of `T`, and holds as long as `s` is that leader. -/
def Server.Since (s : Server σ) (T : Nat) (P : Prop) : Prop :=
  T ≤ s.currentTerm ∧
    (T = s.currentTerm → s.role ≠ .candidate ∧ (s.role = .leader → P))

theorem Server.since_of_leader {s : Server σ} {T : Nat} {P : Prop} (hrole : s.role = .leader)
    (hterm : s.currentTerm = T) (h : P) : s.Since T P :=
  ⟨hterm.symm.le, fun _ => ⟨by rw [hrole]; exact nofun, fun _ => h⟩⟩

theorem Server.Since.get {s : Server σ} {T : Nat} {P : Prop} (h : s.Since T P)
    (hrole : s.role = .leader) (hterm : s.currentTerm = T) : P :=
  (h.2 hterm.symm).2 hrole

/-- A server that leads after a section and was no candidate before led before. -/
theorem Move.since {m : StateMachine σ} {id : NodeID} {a : Local} {e : Effect σ}
    (hm : Move m w id p a e) {T : Nat} {P Q : Prop} (h : p.server.Since T P)
    (hPQ : p.server.role = .leader → e.proc.server.role = .leader → P → Q) :
    e.proc.server.Since T Q := by
  have hterm := hm.saves.term_le
  refine ⟨h.1.trans hterm, fun heq => ?_⟩
  have hT : T = p.server.currentTerm := by
    have := h.1
    omega
  obtain ⟨hcand, hlead⟩ := h.2 hT
  refine ⟨fun hc => ?_, fun hl => ?_⟩
  · rcases hm.campaigns hc with hc | hlt
    · exact hcand hc
    · omega
  · rcases hm.remains with hrem | ⟨-, hc, -⟩
    · have hrole := (hrem.leader hl).1
      exact hPQ hrole hl (hlead hrole)
    · exact absurd hc hcand

/-- What an acknowledgement that is waited for would say, and where replication is aimed. -/
structure Process.Aimed (p : Process σ) : Prop where
  append : ∀ call q T k, .await call (.append q T k) ∈ p.tasks →
    p.server.Since T (0 < k ∧ k ≤ p.server.log.lastIndex)
  snapshot : ∀ call q T k, .await call (.snapshot q T k) ∈ p.tasks →
    p.server.Since T (0 < k ∧ k ≤ p.server.log.lastIndex)
  target : ∀ q T, .replicateTo q T ∈ p.tasks →
    p.server.Since T (p.server.nextIndex.at q ≤ p.server.log.lastIndex + 1)

section Sections

variable {m : StateMachine σ} {w : World σ} {id : NodeID} {p : Process σ} {a : Local} {e : Effect σ}
  {s' : Server σ}

/-- **A rule for the cursors is kept by every section of a leader.** -/
theorem Led.cursors {R : Nat → Nat → Nat → Prop} {back : Nat → Nat → Prop}
    {ship : Nat → Nat → Nat → Prop} (hR : CursorRule R back ship) (hl : Led m w id p a s')
    (ha : p.Unmixed w id a)
    (hheeds : ∀ i j, a = .receive i j → ∀ t, p.tasks[i]? = some t → ∀ r, w.replies[j]? = some r →
      p.server.Heeds back ship t r.2) (haim : p.Aimed)
    (h : p.server.role = .leader → ∀ q ∈ p.server.peers, q ≠ p.server.id → p.server.CursorsIn R q)
    (hmem : q ∈ s'.peers) (hq : q ≠ s'.id) : s'.CursorsIn R q := by
  -- a member of the new configuration was one before, or its page is new
  have hchange {mutate : Configuration → Option Configuration} {s' : Server σ} {ws : List Write}
      (hs : p.server.changeConfiguration mutate = some (s', ws)) (hmem : q ∈ s'.peers)
      (hq : q ≠ s'.id) (hold : ∀ C, mutate ⟨p.server.peers⟩ = some C → q ∈ C.servers →
        q ∈ p.server.nextIndex → q ∈ p.server.peers) : s'.CursorsIn R q := by
    obtain ⟨hrole, -, -, C, ni, mi, hC, -, hs', -⟩ := Server.changeConfiguration_cases hs
    have hin : q ∈ C.servers := by rwa [hs'] at hmem
    have hid : s'.id = p.server.id := by rw [hs']; rfl
    rw [hid] at hq
    exact .changeConfiguration hR hs hmem hq fun hkey => h hrole q (hold C hC hin hkey) hq
  cases hl with
  | same _ hrole hs =>
    rw [hs.peers] at hmem
    rw [hs.id] at hq
    refine (h hrole q hmem hq).of_eq hR ?_ ?_ hs.lastIndex.symm.le
    · rw [hs.nextIndex]
    · rw [hs.matchIndex]
  | promoted i term ht hrole hterm =>
    rw [Server.peers_advance] at hmem
    rw [Server.id_advance] at hq
    exact (Server.CursorsIn.lead (s := p.server) hR hmem hq).advance m
  | matched i j call peer term k r ht hr hle hrole hterm =>
    have hk := (haim.append call peer term k (List.mem_of_getElem? ht)).get hrole hterm
    obtain ⟨ni, mi, heq, -⟩ := p.server.recordMatch_frame peer k
    rw [Server.peers_advance, heq] at hmem
    rw [Server.id_advance, heq] at hq
    exact ((h hrole q hmem hq).recordMatch hR hk.2).advance m
  | backedUp i j call peer term k r ht hr hle hrole hterm hfailed =>
    obtain ⟨ni, heq, -⟩ := p.server.backUp_frame peer
    rw [heq] at hmem hq
    refine (h hrole q hmem hq).backUp hR fun hpeer => ?_
    exact hheeds i j rfl _ ht _ hr hrole hterm hle hfailed (hpeer ▸ hmem)
  | shipped i j call peer term idx r ht hr hle hrole hterm =>
    have hk := (haim.snapshot call peer term idx (List.mem_of_getElem? ht)).get hrole hterm
    rw [Server.peers_advance] at hmem
    rw [Server.id_advance] at hq
    refine ((h hrole q hmem hq).recordSnapshot hR hk.2 fun hpeer => ?_).advance m
    have hin : q ∈ p.server.peers := hmem
    exact hheeds i j rfl _ ht _ hr hrole hterm hle (hpeer ▸ hin)
  | submitted cmd hrole =>
    rw [Server.peers_advance] at hmem
    rw [Server.id_advance] at hq
    exact ((h hrole q hmem hq).appendOwn hR hq cmd).advance m
  | added x _ ws hs =>
    refine hchange hs hmem hq fun C hC hin hkey => ?_
    rw [Option.ite_none_left_eq_some] at hC
    obtain ⟨-, ⟨⟩⟩ := hC
    rcases Configuration.mem_withServer.1 hin with hold | rfl
    · exact hold
    · exact absurd hkey ha
  | removed x _ ws hs =>
    refine hchange hs hmem hq fun C hC hin _ => ?_
    rw [Option.ite_none_left_eq_some, Option.ite_none_left_eq_some] at hC
    obtain ⟨-, -, ⟨⟩⟩ := hC
    exact List.mem_of_mem_filter hin
  | overruled call recent c hc hdst hrole hterm =>
    exact absurd hterm (ha.undisputed hrole c hc hdst)

/-- Nothing is aimed beyond the end of an undisputed leader's log. -/
theorem Led.nextIndex_le (hl : Led m w id p a s') (hrole : p.server.role = .leader)
    (ha : p.Undisputed w id a) (haim : p.Aimed)
    (h : p.server.nextIndex.at q ≤ p.server.log.lastIndex + 1) :
    s'.nextIndex.at q ≤ s'.log.lastIndex + 1 := by
  have hinsert {v : Nat} (peer : NodeID) (hv : q = peer → v ≤ p.server.log.lastIndex + 1) :
      Progress.at (p.server.nextIndex.insert peer v) q ≤ p.server.log.lastIndex + 1 := by
    by_cases hq : q = peer
    · rw [← hq, Progress.at_insert_self]
      exact hv hq
    · rw [Progress.at_insert_ne _ _ hq]
      exact h
  have hchange {mutate : Configuration → Option Configuration} {s' : Server σ} {ws : List Write}
      (hs : p.server.changeConfiguration mutate = some (s', ws)) :
      s'.nextIndex.at q ≤ s'.log.lastIndex + 1 := by
    obtain ⟨-, -, -, next, -, -, rfl, -⟩ := Server.changeConfiguration_eq hs
    have hprog := ((p.server.appendConfig next).useConfiguration_progress next.servers q).1
    obtain ⟨ni, mi, huse⟩ := (p.server.appendConfig next).useConfiguration_frame next.servers
    have hlast : (p.server.appendConfig next).log.lastIndex = p.server.log.lastIndex + 1 :=
      Log.lastIndex_push _ _
    rw [huse] at hprog ⊢
    refine hprog.trans (Nat.max_le.2 ⟨?_, le_rfl⟩)
    exact h.trans (Nat.succ_le_succ (by dsimp only; omega))
  cases hl with
  | same _ _ hs =>
    rw [hs.nextIndex, hs.lastIndex]
    exact h
  | promoted i term ht hcand =>
    rw [hrole] at hcand
    cases hcand
  | matched i j call peer term k r ht hr hle _ hterm =>
    have hk := (haim.append call peer term k (List.mem_of_getElem? ht)).get hrole hterm
    rw [Server.nextIndex_advance, Server.log_advance, Server.recordMatch]
    split
    · exact hinsert peer fun _ => Nat.succ_le_succ hk.2
    · exact h
  | backedUp i j call peer =>
    rw [Server.backUp]
    split
    · refine hinsert peer fun hq => ?_
      rw [← hq]
      omega
    · exact h
  | shipped i j call peer term idx r ht hr hle _ hterm =>
    have hk := (haim.snapshot call peer term idx (List.mem_of_getElem? ht)).get hrole hterm
    rw [Server.nextIndex_advance, Server.log_advance, Server.recordSnapshot]
    dsimp only
    split
    · exact hinsert peer fun _ => Nat.succ_le_succ hk.2
    · exact h
  | submitted cmd =>
    rw [Server.nextIndex_advance, Server.log_advance, Server.appendOwn, Log.lastIndex_push]
    exact h.trans (Nat.le_succ _)
  | added _ _ _ hs | removed _ _ _ hs => exact hchange hs
  | overruled call recent c hc hdst _ hterm => exact absurd hterm (ha hrole c hc hdst)

end Sections

/-! ## Snapshots lie within the log -/

/-- Snapshots are not empty, and the one a server holds lies within its log. -/
structure Anchored (w : World σ) : Prop where
  wf : WellFormed w
  positive : Snapshots (fun snap => 0 < snap.lastIncludedIndex) w
  held : ∀ id p, (w.node id).proc = some p → ∀ snap, p.server.snapshot = some snap →
    snap.lastIncludedIndex ≤ p.server.log.baseIndex

theorem anchored_empty : Anchored ({} : World σ) :=
  ⟨wellFormed_empty, snapshots_empty _, fun _ _ hp => by cases hp⟩

variable {cl : Cluster σ}

theorem held_start {id : NodeID} {d : Disk} {snap : Snapshot} (hp : cl.start id d = some p)
    (hsnap : p.server.snapshot = some snap) : snap.lastIncludedIndex ≤ p.server.log.baseIndex := by
  cases started_of_start hp with
  | fresh => cases hsnap
  | restored =>
    show _ ≤ d.log.baseIndex
    rcases d.log_cases with ⟨hlog, hle⟩ | ⟨snap', hsnap', -, hlog⟩
    · rw [hlog]
      exact hle snap hsnap
    · cases hsnap.symm.trans hsnap'
      rw [hlog, baseIndex_rebase]

theorem Anchored.step {w' : World σ} {a : Action} (h : Anchored w) (hs : Stepped cl w a w') :
    Anchored w' := by
  refine ⟨h.wf.step hs, h.positive.step (fun _ id p hp threshold snap htake => ?_) hs, ?_⟩
  · obtain ⟨-, hidx, hbase, -⟩ := (h.wf.proc id p hp).server.takeSnapshot htake
    omega
  · intro id p' hp' snap hsnap
    cases hs.procStep hp' with
    | other _ hp' => exact h.held id p' hp' snap hsnap
    | boot p hdown hp =>
      exact held_start hp hsnap
    | act p a e hp hact =>
      have hm := move_of_act hact
      rcases hm.held hsnap with hold | ⟨hbase, -⟩
      · exact (h.held id p hp snap hold).trans (hm.logStep.base_le)
      · exact hbase.symm.le

/-! ## Whole runs -/

theorem reach_of_replicateTo {s : Server σ} {peer : NodeID} {t : Nat} {args : AppendEntriesArgs}
    (hw : s.log.WF) (hpos : 0 < s.log.lastIndex) (hnext : s.nextIndex.at peer ≤ s.log.lastIndex + 1)
    (ha : s.replicateTo peer t = .entries args) :
    args.prevLogIndex + args.entries.length = s.log.lastIndex := by
  have hlen : s.log.lastIndex = s.log.baseIndex + s.log.entries.length := by
    rw [hw.lastIndex, Log.length_logical, hw.covered_length]
  rw [Server.replicateTo] at ha
  split at ha
  · cases ha
  · dsimp only at ha
    split at ha
    · cases ha
    next hbase =>
      cases ha
      dsimp only
      split
      · rw [List.length_drop, Log.slice, List.length_cons, Log.slot]
        omega
      · rw [List.length_nil]
        omega

/-- What is on its way to move the cursors of a process, and that they stay within the log. -/
structure Process.Bounded (p : Process σ) : Prop where
  aimed : p.Aimed
  log_pos : p.server.role = .leader → 0 < p.server.log.lastIndex
  within : p.server.role = .leader → ∀ q ∈ p.server.peers, q ≠ p.server.id →
    p.server.CursorsIn Within q

section Steps

variable {m : StateMachine σ} {w : World σ} {id : NodeID} {p : Process σ} {a : Local} {e : Effect σ}
  {s' : Server σ}

theorem Led.log_pos (hl : Led m w id p a s') (ha : p.Undisputed w id a)
    (h : p.server.role = .leader → 0 < p.server.log.lastIndex) : 0 < s'.log.lastIndex := by
  have hle := hl.lastIndex_le ha
  by_cases hrole : p.server.role = .leader
  · have := h hrole
    omega
  · cases hl with
    | promoted =>
      rw [Server.log_advance, Server.lead, Log.lastIndex_push]
      exact Nat.succ_pos _
    | same _ hlead | matched _ _ _ _ _ _ _ _ _ _ hlead | backedUp _ _ _ _ _ _ _ _ _ _ hlead
    | shipped _ _ _ _ _ _ _ _ _ _ hlead | submitted _ hlead
    | overruled _ _ _ _ _ hlead => exact absurd hlead hrole
    | added _ _ _ hs | removed _ _ _ hs => exact absurd (Server.changeConfiguration_eq hs).1 hrole

/-- A replication request carries entries up to the end of the log, and a snapshot lies within. -/
theorem Process.Bounded.sent (h : p.Bounded) (hw : p.server.log.WF)
    (hsnap : ∀ snap, p.server.snapshot = some snap →
      0 < snap.lastIncludedIndex ∧ snap.lastIncludedIndex ≤ p.server.log.baseIndex)
    (hm : Move m w id p a e) {c : NodeID × Request × Pending} (hc : c ∈ e.calls) {T k : Nat}
    (hk : c.2.2 = .append q T k ∨ c.2.2 = .snapshot q T k) :
    p.server.Since T (0 < k ∧ k ≤ p.server.log.lastIndex) := by
  cases hm.made hc with
  | vote | beat => rcases hk with hk | hk <;> cases hk
  | entries peer t args ht hargs =>
    rcases hk with ⟨⟨⟩⟩ | ⟨⟨⟩⟩
    obtain ⟨hrole, hterm, -⟩ := replicateTo_term hargs
    have hnext := (h.aimed.target q T ht).get hrole hterm
    have hpos := h.log_pos hrole
    have hreach := reach_of_replicateTo hw hpos hnext hargs
    exact Server.since_of_leader hrole hterm ⟨by omega, by omega⟩
  | snapshot peer t args ht hargs =>
    rcases hk with ⟨⟨⟩⟩ | ⟨⟨⟩⟩
    obtain ⟨hrole, hterm, hheld, -⟩ := sendSnapshotTo_cases hargs
    obtain ⟨hpos, hle⟩ := hsnap _ hheld
    have hbase := hw.base_le
    rw [← hw.lastIndex] at hbase
    exact Server.since_of_leader hrole hterm ⟨hpos, hle.trans hbase⟩

theorem Process.Bounded.move (h : p.Bounded) (hw : p.server.log.WF)
    (hsnap : ∀ snap, p.server.snapshot = some snap →
      0 < snap.lastIncludedIndex ∧ snap.lastIncludedIndex ≤ p.server.log.baseIndex)
    (hm : Move m w id p a e) (ha : p.Unmixed w id a) (n : Nat) :
    (e.proc.spawn (awaiting n e.calls)).Bounded := by
  have hund := ha.undisputed
  -- a bound on an index within the log goes on to hold, whoever leads
  have hgrow {T k : Nat} (hk : p.server.Since T (0 < k ∧ k ≤ p.server.log.lastIndex)) :
      e.proc.server.Since T (0 < k ∧ k ≤ e.proc.server.log.lastIndex) :=
    hm.since hk fun _ hlead hle => ⟨hle.1, hle.2.trans ((hm.led hw hlead).lastIndex_le hund)⟩
  have hawait {call : Nat} {k : Pending} {T i : Nat} {q : NodeID}
      (hk : k = .append q T i ∨ k = .snapshot q T i)
      (hold : .await call k ∈ p.tasks → p.server.Since T (0 < i ∧ i ≤ p.server.log.lastIndex))
      (ht : .await call k ∈ (e.proc.spawn (awaiting n e.calls)).tasks) :
      e.proc.server.Since T (0 < i ∧ i ≤ e.proc.server.log.lastIndex) := by
    rcases mem_spawn ht with ht | ht
    · exact hgrow (hold (hm.await_mem ht))
    · obtain ⟨j, c, hc, -, rfl⟩ := mem_awaiting ht
      exact hgrow (h.sent hw hsnap hm (List.mem_of_getElem? hc) hk)
  refine ⟨⟨fun call q T k ht => ?_, fun call q T k ht => ?_, fun q T ht => ?_⟩, fun hlead => ?_,
    fun hlead q hmem hq => ?_⟩
  · exact hawait (.inl rfl) (h.aimed.append call q T k) ht
  · exact hawait (.inr rfl) (h.aimed.snapshot call q T k) ht
  · have ht : .replicateTo q T ∈ e.proc.tasks := by
      rcases mem_spawn ht with ht | ht
      · exact ht
      · obtain ⟨c, -, hc⟩ := List.mem_map.1 ht
        cases hc
    have hbefore : p.server.Since T (p.server.nextIndex.at q ≤ p.server.log.lastIndex + 1) := by
      rcases hm.targetsFrom _ ht q rfl with ht | ⟨_, ⟨⟩, -⟩ | ⟨hother, hlead⟩
      · exact h.aimed.target q T ht
      · obtain ⟨hrole, hterm⟩ := hlead T rfl
        obtain ⟨hmem, hne⟩ := List.mem_filter.1 hother
        exact Server.since_of_leader hrole hterm.symm
          (h.within hrole q hmem (of_decide_eq_true hne)).2
    exact hm.since hbefore fun hrole hlead hle => (hm.led hw hlead).nextIndex_le hrole
      hund h.aimed hle
  · exact (hm.led hw hlead).log_pos hund h.log_pos
  · exact (hm.led hw hlead).cursors cursorRule_within ha
      (fun _ _ _ _ _ _ _ => Server.heeds_true _ _ _) h.aimed h.within hmem hq

end Steps

/-- The cursors of every server stay within its log. -/
structure Bounded (w : World σ) : Prop where
  anchored : Anchored w
  proc : ∀ id p, (w.node id).proc = some p → p.Bounded

theorem bounded_empty : Bounded ({} : World σ) := ⟨anchored_empty, fun _ _ hp => by cases hp⟩

theorem Bounded.snapshot {id : NodeID} (h : Bounded w) (hp : (w.node id).proc = some p)
    {snap : Snapshot} (hsnap : p.server.snapshot = some snap) :
    0 < snap.lastIncludedIndex ∧ snap.lastIncludedIndex ≤ p.server.log.baseIndex :=
  ⟨h.anchored.positive.held id p hp snap hsnap, h.anchored.held id p hp snap hsnap⟩

/-- The action is one of a server whose section is unmixed. -/
abbrev Unmixed (w : World σ) : Action → Prop := w.Takes fun id p => p.Unmixed w id

theorem Bounded.step {w' : World σ} {a : Action} (h : Bounded w) (hs : exec cl w a = some w')
    (ha : Unmixed w a) : Bounded w' := by
  have hst := stepped_of_exec hs
  refine ⟨h.anchored.step hst, fun id p' hp' => ?_⟩
  cases hst.procStep hp' with
  | other _ hp' => exact h.proc id p' hp'
  | boot p hdown hp =>
    obtain ⟨-, hrole, htasks, -⟩ := start_id hp
    refine ⟨⟨?_, ?_, ?_⟩, fun hlead => ?_, fun hlead => ?_⟩
    · rw [htasks]; exact nofun
    · rw [htasks]; exact nofun
    · rw [htasks]; exact nofun
    · rw [hrole] at hlead; cases hlead
    · rw [hrole] at hlead; cases hlead
  | act p a e hp hact =>
    exact (h.proc id p hp).move (h.anchored.wf.proc id p hp).server.log (fun _ => h.snapshot hp)
      (move_of_act hact) (ha p hp) _

/-! ## Cursors in order -/

/-- The next entries for a peer go out after the match, and not beyond the end of the log. -/
structure Server.CursorsAt (s : Server σ) (q : NodeID) : Prop where
  lt : s.matchIndex.at q < s.nextIndex.at q
  le : s.nextIndex.at q ≤ s.log.lastIndex + 1

/-- A reply is not outdated: a refusal undoes no acknowledgement, and a snapshot that was news to
the peer ends where the next entries would begin, at least. -/
def Server.Timely (s : Server σ) (t : Task) (r : Reply) : Prop :=
  s.Heeds (fun m n => m + 1 < n) (fun m n i => m < i → n ≤ i + 1) t r

instance (s : Server σ) (t : Task) (r : Reply) : Decidable (s.Timely t r) := by
  unfold Server.Timely Server.Heeds
  split <;> infer_instance

/-- No reply is outdated, no server is added of which the books still have a page, and no leader is
told of another of its own term. -/
def Process.Timely (w : World σ) (id : NodeID) (p : Process σ) : Local → Prop
  | .receive i j => ∀ t ∈ p.tasks[i]?, ∀ r ∈ w.replies[j]?, p.server.Timely t r.2
  | a => p.Unmixed w id a

instance (w : World σ) (id : NodeID) (p : Process σ) (a : Local) : Decidable (p.Timely w id a) := by
  induction a using Local.casesOn <;> unfold Process.Timely <;> infer_instance

/-- The action is one of a server whose section is timely. -/
abbrev Timely (w : World σ) : Action → Prop := w.Takes fun id p => p.Timely w id

theorem Process.Timely.unmixed {id : NodeID} {a : Local} (h : p.Timely w id a) :
    p.Unmixed w id a := by
  cases a with
  | addServer x => exact h
  | deliver call recent => exact h
  | _ => trivial

/-- The cursors of every leader meet, or its peer has acknowledged nothing yet. -/
structure Aligned (w : World σ) : Prop where
  bounded : Bounded w
  meeting : ∀ id p, (w.node id).proc = some p → p.server.role = .leader → ∀ q ∈ p.server.peers,
    q ≠ p.server.id → p.server.CursorsIn Meeting q

theorem aligned_empty : Aligned ({} : World σ) := ⟨bounded_empty, fun _ _ hp => by cases hp⟩

theorem Aligned.step {w' : World σ} {a : Action} (h : Aligned w) (hs : exec cl w a = some w')
    (ha : Timely w a) : Aligned w' := by
  have hunmixed : Unmixed w a := by
    cases a with
    | act id a => exact fun p hp => (ha p hp).unmixed
    | _ => trivial
  refine ⟨h.bounded.step hs hunmixed, fun id p' hp' hlead => ?_⟩
  rcases h.bounded.anchored.wf.leader_step hs hp' hlead with hold | ⟨p, b, rfl, hp, hled⟩
  · exact h.meeting id p' hold hlead
  · intro q hmem hq
    refine hled.cursors cursorRule_meeting (hunmixed p hp) ?_ (h.bounded.proc id p hp).aimed
      (h.meeting id p hp) hmem hq
    rintro i j rfl t ht r hr
    exact ha p hp t ht r hr

/-- The peer that has just acknowledged: by a successful reply to entries, or by any reply to a
snapshot, in the term that the server leads. -/
def Server.acknowledgedBy (s : Server σ) : Task → Reply → Option NodeID
  | .await _ (.append peer term _), .appendEntries r =>
    if s.role = .leader ∧ s.currentTerm = term ∧ r.term ≤ s.currentTerm ∧ r.success = true then
      some peer else none
  | .await _ (.snapshot peer term _), .installSnapshot r =>
    if s.role = .leader ∧ s.currentTerm = term ∧ r.term ≤ s.currentTerm then some peer else none
  | _, _ => none

section Acknowledged

variable {m : StateMachine σ} {w : World σ} {id : NodeID} {p : Process σ} {e : Effect σ}

theorem le_at_recordMatch (s : Server σ) (peer : NodeID) (k : Nat) :
    k ≤ (s.recordMatch peer k).matchIndex.at peer := by
  rw [Server.recordMatch]
  split
  · rw [Progress.at_insert_self]
  next h => exact Nat.not_lt.1 h

theorem le_at_recordSnapshot (s : Server σ) (peer : NodeID) (idx : Nat) :
    idx ≤ (s.recordSnapshot peer idx).matchIndex.at peer := by
  rw [Server.recordSnapshot]
  dsimp only
  split
  · rw [Progress.at_insert_self]
  next h => exact Nat.not_lt.1 h

/-- **An acknowledgement brings the cursors together.** -/
theorem Process.Bounded.acknowledged (h : p.Bounded)
    (hpairs : p.server.role = .leader → ∀ q ∈ p.server.peers, q ≠ p.server.id →
      p.server.CursorsIn Meeting q) {i j call : Nat} {t : Task} {r : Reply}
    (ht : p.tasks[i]? = some t) (hr : w.replies[j]? = some (call, r))
    (hack : p.server.acknowledgedBy t r = some q) (hmem : q ∈ p.server.peers)
    (hq : q ≠ p.server.id) (ha : p.Timely w id (.receive i j))
    (hact : p.act m w id (.receive i j) = some e) :
    e.proc.server.nextIndex.at q = e.proc.server.matchIndex.at q + 1 := by
  have htimely := ha t ht _ hr
  -- a positive match meets the next index
  have hmeets {s : Server σ} {k : Nat} (hs : s.CursorsIn Meeting q) (hk : 0 < k)
      (hle : k ≤ s.matchIndex.at q) (he : e.proc.server = (s.advanceCommitIndex m).1) :
      e.proc.server.nextIndex.at q = e.proc.server.matchIndex.at q + 1 := by
    rw [he, Server.nextIndex_advance, Server.matchIndex_advance]
    exact hs.2.2.resolve_left (by omega)
  unfold Server.acknowledgedBy at hack
  split at hack
  next c peer term k r =>
    rw [Option.ite_none_right_eq_some] at hack
    obtain ⟨⟨hrole, hterm, hle, hok⟩, ⟨⟩⟩ := hack
    obtain ⟨hpos, hk⟩ := (h.aimed.append c q term k (List.mem_of_getElem? ht)).get hrole hterm
    simp only [Process.act, ht, hr, Option.ite_none_right_eq_some] at hact
    obtain ⟨-, ⟨⟩⟩ := hact
    have heq : p.server.onAppendReply m q term k r =
        (p.server.recordMatch q k).advanceCommitIndex m := by
      rw [Server.onAppendReply, if_neg (Nat.not_lt.2 hle),
        if_neg (by simp [hrole, hterm]), if_pos hok]
    exact hmeets ((hpairs hrole q hmem hq).recordMatch cursorRule_meeting hk) hpos
      (le_at_recordMatch _ _ _)
      (congrArg Prod.fst heq)
  next c peer term idx r =>
    rw [Option.ite_none_right_eq_some] at hack
    obtain ⟨⟨hrole, hterm, hle⟩, ⟨⟩⟩ := hack
    obtain ⟨hpos, hk⟩ := (h.aimed.snapshot c q term idx (List.mem_of_getElem? ht)).get hrole hterm
    simp only [Process.act, ht, hr, Option.ite_none_right_eq_some] at hact
    obtain ⟨-, ⟨⟩⟩ := hact
    have heq : p.server.onSnapshotReply m q term idx r =
        (p.server.recordSnapshot q idx).advanceCommitIndex m := by
      rw [Server.onSnapshotReply, if_neg (Nat.not_lt.2 hle), if_neg (by simp [hrole, hterm])]
    have hmeet := (hpairs hrole q hmem hq).recordSnapshot cursorRule_meeting hk
      fun _ => htimely hrole hterm hle hmem
    exact hmeets hmeet hpos (le_at_recordSnapshot _ _ _) (congrArg Prod.fst heq)
  next => cases hack

end Acknowledged

/-- **The cursors of a leader stay in order**, in every run in which no reply is outdated, no server
is added of which the books still have a page, and no leader is told of another of its own term;
and then an acknowledgement leaves the next index right after the match. -/
theorem cursors_ordered {cl : Cluster σ} {as : List Action} {w : World σ}
    (hrun : Run (fun w a w' => exec cl w a = some w' ∧ Timely w a) {} as w) {id : NodeID}
    {p : Process σ} (hp : (w.node id).proc = some p) (hlead : p.server.role = .leader) :
    (∀ q ∈ p.server.peers, q ≠ p.server.id → p.server.CursorsAt q) ∧
      ∀ i j call t r q e, p.tasks[i]? = some t → w.replies[j]? = some (call, r) →
        p.server.acknowledgedBy t r = some q → q ∈ p.server.peers → q ≠ p.server.id →
        Timely w (.act id (.receive i j)) → p.act cl.machine w id (.receive i j) = some e →
        e.proc.server.nextIndex.at q = e.proc.server.matchIndex.at q + 1 := by
  have halign := hrun.invariant (P := Aligned) (fun _ _ _ hs h => h.step hs.1 hs.2) aligned_empty
  refine ⟨fun q hmem hq => ?_, fun i j call t r q e ht hr hack hmem hq ha hact => ?_⟩
  · obtain ⟨hlt, hle, -⟩ := halign.meeting id p hp hlead q hmem hq
    exact ⟨hlt, hle⟩
  · exact (halign.bounded.proc id p hp).acknowledged (halign.meeting id p hp) ht hr hack hmem hq
      (ha p hp) hact

/-- Server 1 leads in term 2 with a log that server 2 does not have.  Two requests are refused;
server 1 hears the first refusal, sends everything, is acknowledged, and hears the second
refusal. -/
def refusals : List Action :=
  leaderOfTwo ++ [.crash [1], .boot [1], .timeout [1], .run [1] 0, .deliver [2] 1, .receive [1] 0 1,
    .run [1] 0, .run [1] 0, .run [1] 0, .run [1] 0, .heartbeat [1], .run [1] 1, .run [1] 1,
    .deliver [2] 2, .deliver [2] 3, .receive [1] 1 3, .heartbeat [1], .run [1] 1, .run [1] 1,
    .deliver [2] 4, .receive [1] 1 4, .receive [1] 0 2, .heartbeat [1], .run [1] 0, .run [1] 0,
    .deliver [2] 5]

/-- Up to the acknowledgement everything is timely. -/
theorem cursors_ordered_refusals :
    ∃ w p e, Run (fun w a w' => exec (journalCluster [[1], [2]]) w a = some w' ∧ Timely w a) {}
        (refusals.take 29) w ∧
      (w.node [1]).proc = some p ∧ p.server.role = .leader ∧ p.server.CursorsAt [2] ∧
      p.act journal w [1] (.receive 1 4) = some e ∧ e.proc.server.matchIndex.at [2] = 2 ∧
      e.proc.server.nextIndex.at [2] = e.proc.server.matchIndex.at [2] + 1 := by
  obtain ⟨w, p, hrun, hp, hlead, htimely, hmem, hne, ⟨t, ht, ⟨call, r⟩, hr, hack⟩, e, hact, htwo⟩ :
      ∃ w p, Run (fun w a w' => exec (journalCluster [[1], [2]]) w a = some w' ∧ Timely w a) {}
        (refusals.take 29) w ∧
      (w.node [1]).proc = some p ∧ p.server.role = .leader ∧ Timely w (.receive [1] 1 4) ∧
      [2] ∈ p.server.peers ∧ [2] ≠ p.server.id ∧
      (∃ t ∈ p.tasks[1]?, ∃ r ∈ w.replies[4]?, p.server.acknowledgedBy t r.2 = some [2]) ∧
      ∃ e ∈ p.act journal w [1] (.receive 1 4), e.proc.server.matchIndex.at [2] = 2 :=
    exists_run_guarded_some (by decide +kernel)
  obtain ⟨hcursors, hmeet⟩ := cursors_ordered hrun hp hlead
  exact ⟨w, p, e, hrun, hp, hlead, hcursors [2] hmem hne, hact, htwo,
    hmeet 1 4 call t r [2] e ht hr hack hmem hne htimely hact⟩

/-- The late refusal undoes the acknowledgement, and the next acknowledgement does not mend it. -/
theorem late_refusal_crosses_cursors :
    ∃ w p e, Run (fun w a w' => exec (journalCluster [[1], [2]]) w a = some w') {} refusals w ∧
      (w.node [1]).proc = some p ∧ p.server.role = .leader ∧ [2] ∈ p.server.peers ∧
      p.server.matchIndex.at [2] = 2 ∧ p.server.nextIndex.at [2] = 2 ∧
      (∃ t r, p.tasks[0]? = some t ∧ w.replies[5]? = some r ∧
        p.server.acknowledgedBy t r.2 = some [2]) ∧
      p.act journal w [1] (.receive 0 5) = some e ∧ e.proc.server.role = .leader ∧
      e.proc.server.matchIndex.at [2] = 2 ∧ e.proc.server.nextIndex.at [2] = 2 := by
  simp only [exists_and_left]
  exact exists_run (by decide +kernel)

end CoreBank.Raft
