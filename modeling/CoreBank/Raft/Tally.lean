import CoreBank.Raft.Durable

/-!
# Counting votes

The tally of an election lives in a closure: a counter that the goroutines of the election share,
and each goroutine asks one peer, waits, and counts at most once.  A late goroutine of an old
election counts into its own closure, and a promotion re-checks the term.

`Tally V K p` says what the counters of a process stand for, where `V T q` is that `q` has voted for
this server in term `T`, and `K T C` that the server campaigned in `T` among the members `C`.  The
votes that are counted and those still under way come from different members, so a counter that
reaches a majority stands for a majority of voters.  Any record of votes that only grows will do.
-/

set_option autoImplicit false

namespace CoreBank.Raft

open Majority

variable {σ : Type}

/-! ## Votes under way -/

/-- Whose vote of `term` the goroutine waits for, or has got and not counted. -/
def Task.voter (term : Nat) : Task → Option NodeID
  | .await _ (.vote t q) | .countVote t q => if t = term then some q else none
  | _ => none

/-- The goroutine belongs to an election. -/
def Task.votes : Task → Bool
  | .await _ (.vote _ _) | .countVote _ _ | .becomeLeader _ => true
  | _ => false

/-- The granted votes of `term` that are not counted. -/
def Process.pending (p : Process σ) (term : Nat) : List NodeID :=
  p.tasks.filterMap (Task.voter term)

/-- The goroutines that carry votes. -/
def Process.voting (p : Process σ) : List Task := p.tasks.filter Task.votes

theorem mem_voting {p : Process σ} {t : Task} (h : t.votes = true) :
    t ∈ p.voting ↔ t ∈ p.tasks := by
  rw [Process.voting, List.mem_filter, and_iff_left h]

theorem Task.voter_eq_none {t : Task} (h : t.votes = false) (term : Nat) : t.voter term = none := by
  cases t with
  | await call k =>
    cases k with
    | vote => cases h
    | append | snapshot | beat => rfl
  | countVote => cases h
  | _ => rfl

theorem Task.votes_quiet {t : Task} (h : t.quiet = true) : t.votes = false := by
  cases t <;> first | rfl | cases h

theorem pending_eq_voting (p : Process σ) (term : Nat) :
    p.pending term = p.voting.filterMap (Task.voter term) := by
  rw [Process.pending, Process.voting, List.filterMap_filter]
  refine List.filterMap_congr fun t _ => ?_
  split
  · rfl
  next ht => exact Task.voter_eq_none (Bool.eq_false_of_not_eq_true ht) term

theorem voting_of_loud {p p' : Process σ} (h : p'.loud.Sublist p.loud) :
    p'.voting.Sublist p.voting := by
  have hfilter (q : Process σ) : q.voting = q.loud.filter Task.votes := by
    rw [Process.voting, Process.loud, List.filter_filter]
    refine List.filter_congr fun t _ => ?_
    cases hq : t.quiet with
    | true => rw [Task.votes_quiet hq, Bool.false_and]
    | false => exact (Bool.and_true _).symm
  rw [hfilter, hfilter]
  exact h.filter _

theorem voting_drop (p : Process σ) (i : Nat) : (p.drop i).voting.Sublist p.voting :=
  (List.eraseIdx_sublist _ _).filter _

theorem voting_spawn {p : Process σ} {ts : List Task} (h : ∀ t ∈ ts, t.votes = false) :
    (p.spawn ts).voting = p.voting := by
  have hnil : ts.filter Task.votes = [] := List.filter_eq_nil_iff.2 fun t ht => by simp [h t ht]
  rw [Process.voting, Process.spawn, List.filter_append, hnil, List.append_nil, Process.voting]

theorem voting_await {p : Process σ} {n : Nat} {calls : List (NodeID × Request × Pending)}
    (h : ∀ c ∈ calls, ∀ T q, c.2.2 ≠ .vote T q) :
    (p.spawn (awaiting n calls)).voting = p.voting := by
  refine voting_spawn fun t ht => ?_
  obtain ⟨⟨c, i⟩, hc, rfl⟩ := List.mem_map.1 ht
  have hmem : c ∈ calls := List.mem_of_getElem? (List.mem_zipIdx_iff_getElem?.1 hc)
  obtain ⟨q, req, k⟩ := c
  cases k with
  | vote T q => exact absurd rfl (h _ hmem T q)
  | append | snapshot | beat => rfl

theorem pending_spawn (p : Process σ) (ts : List Task) (term : Nat) :
    (p.spawn ts).pending term = p.pending term ++ ts.filterMap (Task.voter term) :=
  List.filterMap_append

theorem pending_drop {p : Process σ} {i term : Nat} {t : Task} {q : NodeID}
    (ht : p.tasks[i]? = some t) (hq : t.voter term = some q) :
    (p.pending term).Perm (q :: (p.drop i).pending term) := by
  obtain ⟨hi, rfl⟩ := List.getElem?_eq_some_iff.1 ht
  have hperm := (List.getElem_cons_eraseIdx_perm hi).symm.filterMap (Task.voter term)
  rw [List.filterMap_cons, hq] at hperm
  exact hperm

theorem pending_drop_sublist (p : Process σ) (i term : Nat) :
    ((p.drop i).pending term).Sublist (p.pending term) :=
  (List.eraseIdx_sublist _ _).filterMap _

theorem voters_awaiting (n term term' : Nat) (qs : List NodeID) (req : Request) :
    (awaiting n (qs.map fun q => (q, req, .vote term' q))).filterMap (Task.voter term) =
      if term' = term then qs else [] := by
  have hfst : (awaiting n (qs.map fun q => (q, req, Pending.vote term' q))).filterMap
      (Task.voter term) = qs.filterMap fun q => if term' = term then some q else none := by
    rw [awaiting, List.filterMap_map, List.zipIdx_map, List.filterMap_map]
    have hsplit : (fun c : NodeID × Nat => if term' = term then some c.1 else none) =
        (fun q => if term' = term then some q else none) ∘ Prod.fst := rfl
    have hzip := List.filterMap_map (f := Prod.fst) (l := qs.zipIdx)
      (g := fun q : NodeID => if term' = term then some q else none)
    rw [List.zipIdx_map_fst, ← hsplit] at hzip
    rw [hzip]
    rfl
  rw [hfst]
  split
  · exact List.filterMap_some
  · exact List.filterMap_eq_nil_iff.2 fun _ _ => rfl

/-! ## The tally -/

/-- What the counters of the process stand for. -/
structure Tally (V : Nat → NodeID → Prop) (K : Nat → List NodeID → Prop)
    (p : Process σ) : Prop where
  /-- The members `vs` were counted; their votes and those under way come from different members. -/
  counted : ∀ e ∈ p.elections, ∃ C vs, K e.term C ∧ e.needed = C.length / 2 + 1 ∧
    e.votes ≤ vs.length ∧ (vs ++ p.pending e.term).Nodup ∧
    (∀ v ∈ vs ++ p.pending e.term, v ∈ C) ∧ ∀ v ∈ vs, V e.term v
  current : ∀ e ∈ p.elections, e.term ≤ p.server.currentTerm
  pending_nil : ∀ T, p.server.currentTerm < T → p.pending T = []
  granted : ∀ T q, .countVote T q ∈ p.tasks → V T q
  won : ∀ T, .becomeLeader T ∈ p.tasks → ∃ C, K T C ∧ IsMajority C {q | V T q}

namespace Tally

variable {V V' : Nat → NodeID → Prop} {K K' : Nat → List NodeID → Prop} {p p' : Process σ}

theorem of_new (s : Server σ) : Tally V K ({ server := s } : Process σ) :=
  ⟨nofun, nofun, fun _ _ => rfl, nofun, nofun⟩

variable (h : Tally V K p)

include h

theorem mono (hV : ∀ T q, V T q → V' T q) (hK : ∀ T C, K T C → K' T C) :
    Tally V' K' p where
  counted e he := by
    obtain ⟨C, vs, hC, hneeded, hlen, hnd, hmem, hvs⟩ := h.counted e he
    exact ⟨C, vs, hK _ _ hC, hneeded, hlen, hnd, hmem, fun v hv => hV _ _ (hvs v hv)⟩
  current := h.current
  pending_nil := h.pending_nil
  granted T q ht := hV _ _ (h.granted T q ht)
  won T ht := by
    obtain ⟨C, hC, hmaj⟩ := h.won T ht
    exact ⟨C, hK _ _ hC, hmaj.mono fun q hq => hV _ _ hq⟩

theorem of_pending (helections : p'.elections = p.elections)
    (hterm : p.server.currentTerm ≤ p'.server.currentTerm)
    (hpend : ∀ T, List.Subperm (p'.pending T) (p.pending T))
    (hgranted : ∀ T q, .countVote T q ∈ p'.tasks → V T q)
    (hwon : ∀ T, .becomeLeader T ∈ p'.tasks → .becomeLeader T ∈ p.tasks) : Tally V K p' where
  counted e he := by
    rw [helections] at he
    obtain ⟨C, vs, hC, hneeded, hlen, hnd, hmem, hvs⟩ := h.counted e he
    have hsub : List.Subperm (vs ++ p'.pending e.term) (vs ++ p.pending e.term) :=
      (List.subperm_append_left vs).2 (hpend e.term)
    obtain ⟨l, hperm, hl⟩ := hsub
    exact ⟨C, vs, hC, hneeded, hlen, hperm.nodup_iff.1 (hnd.sublist hl),
      fun v hv => hmem v (hl.subset (hperm.mem_iff.2 hv)), hvs⟩
  current e he := by
    rw [helections] at he
    exact (h.current e he).trans hterm
  pending_nil T hT := by
    have hnil := hpend T
    rw [h.pending_nil T (hterm.trans_lt hT)] at hnil
    exact List.subperm_nil.1 hnil
  granted := hgranted
  won T ht := h.won T (hwon T ht)

theorem of_voting (helections : p'.elections = p.elections)
    (hterm : p.server.currentTerm ≤ p'.server.currentTerm) (hvoting : p'.voting.Sublist p.voting) :
    Tally V K p' := by
  have hmem {t : Task} (hv : t.votes = true) (ht : t ∈ p'.tasks) : t ∈ p.tasks :=
    (mem_voting hv).1 (hvoting.subset ((mem_voting hv).2 ht))
  refine h.of_pending helections hterm (fun T => ?_) (fun T q ht => h.granted T q (hmem rfl ht))
    fun T ht => hmem rfl ht
  rw [pending_eq_voting, pending_eq_voting]
  exact (hvoting.filterMap _).subperm

theorem promote {T : Nat} (hwon : ∃ C, K T C ∧ IsMajority C {q | V T q}) :
    Tally V K (p.spawn [.becomeLeader T]) := by
  have hpend (T' : Nat) : (p.spawn [.becomeLeader T]).pending T' = p.pending T' := by
    rw [pending_spawn]
    exact List.append_nil _
  refine ⟨fun e he => ?_, h.current, fun T' hT' => ?_, fun T' q ht => ?_, fun T' ht => ?_⟩
  · rw [hpend]
    exact h.counted e he
  · rw [hpend]
    exact h.pending_nil T' hT'
  · rcases mem_spawn ht with ht | ht
    · exact h.granted T' q ht
    · cases List.mem_singleton.1 ht
  · rcases mem_spawn ht with ht | ht
    · exact h.won T' ht
    · cases List.mem_singleton.1 ht
      exact hwon

theorem of_reply {i call T : Nat} {q : NodeID} (ht : p.tasks[i]? = some (.await call (.vote T q)))
    (hq : V T q) :
    Tally V K ((p.drop i).spawn [.countVote T q]) := by
  refine h.of_pending rfl (le_rfl) (fun T' => ?_) (fun T' q' ht' => ?_) fun T' ht' => ?_
  · rw [pending_spawn, List.filterMap_cons]
    by_cases hT : T = T'
    · subst hT
      have hv : Task.voter T (.countVote T q) = some q := if_pos rfl
      rw [hv]
      exact ((pending_drop ht (if_pos rfl)).trans
        (List.perm_append_singleton q _).symm).symm.subperm
    · have hv : Task.voter T' (.countVote T q) = none := if_neg hT
      rw [hv]
      simpa using (pending_drop_sublist p i T').subperm
  · rcases mem_spawn ht' with ht' | ht'
    · exact h.granted T' q' (mem_drop ht')
    · cases List.mem_singleton.1 ht'
      exact hq
  · rcases mem_spawn ht' with ht' | ht'
    · exact mem_drop ht'
    · cases List.mem_singleton.1 ht'

/-- One more voter of an election, taken from those under way. -/
theorem count_voter {i T : Nat} {q : NodeID} (ht : p.tasks[i]? = some (.countVote T q))
    {e : Election} (he : e ∈ p.elections) (heT : e.term = T) :
    ∃ C vs, K T C ∧ e.needed = C.length / 2 + 1 ∧ e.votes + 1 ≤ vs.length ∧
      (vs ++ (p.drop i).pending T).Nodup ∧ (∀ v ∈ vs ++ (p.drop i).pending T, v ∈ C) ∧
      ∀ v ∈ vs, V T v := by
  obtain ⟨C, vs, hC, hneeded, hlen, hnd, hmem, hvs⟩ := h.counted e he
  rw [heT] at hC hnd hmem hvs
  have hperm : (vs ++ p.pending T).Perm (vs ++ [q] ++ (p.drop i).pending T) := by
    rw [List.append_assoc]
    exact (pending_drop ht (if_pos rfl)).append_left vs
  refine ⟨C, vs ++ [q], hC, hneeded, by simpa using hlen, hperm.nodup_iff.1 hnd,
    fun v hv => hmem v (hperm.mem_iff.2 hv), fun v hv => ?_⟩
  rcases List.mem_append.1 hv with hv | hv
  · exact hvs v hv
  · rw [List.mem_singleton.1 hv]
    exact h.granted T q (List.mem_of_getElem? ht)

theorem countVote {i T : Nat} {q : NodeID} (ht : p.tasks[i]? = some (.countVote T q)) :
    Tally V K ((p.drop i).countVote T) := by
  rw [Process.countVote]
  -- the counters of this term go up by one, and the vote is no longer under way
  have hbase : Tally V K ({ p.drop i with elections := (p.drop i).elections.map fun e =>
      if e.term = T then
        { e with votes := e.votes + 1, resolved := e.resolved || decide (e.needed ≤ e.votes + 1) }
      else e } : Process σ) := by
    refine ⟨fun e' he' => ?_, fun e' he' => ?_, fun T' hT' => ?_, fun T' q' ht' => ?_,
      fun T' ht' => ?_⟩
    · obtain ⟨e, he, rfl⟩ := List.mem_map.1 he'
      split
      next heT =>
        obtain ⟨C, vs, hrest⟩ := h.count_voter ht he heT
        rw [← heT] at hrest
        exact ⟨C, vs, hrest⟩
      next =>
        obtain ⟨C, vs, hC, hneeded, hlen, hnd, hmem, hvs⟩ := h.counted e he
        have hsub := (pending_drop_sublist p i e.term).append_left vs
        exact ⟨C, vs, hC, hneeded, hlen, hnd.sublist hsub, fun v hv => hmem v (hsub.subset hv), hvs⟩
    · obtain ⟨e, he, rfl⟩ := List.mem_map.1 he'
      split <;> exact h.current e he
    · have hsub := pending_drop_sublist p i T'
      rw [h.pending_nil T' hT'] at hsub
      exact List.sublist_nil.1 hsub
    · exact h.granted T' q' (mem_drop ht')
    · exact h.won T' (mem_drop ht')
  split
  next hwon =>
    obtain ⟨e, he, hcond⟩ := List.any_eq_true.1 hwon
    simp only [Bool.and_eq_true, beq_iff_eq, decide_eq_true_eq] at hcond
    obtain ⟨C, vs, hC, hneeded, hlen, hnd, hmem, hvs⟩ := h.count_voter ht he hcond.1.1
    refine hbase.promote ⟨C, hC, vs, (List.nodup_append.1 hnd).1, fun v hv => ⟨?_, hvs v hv⟩, ?_⟩
    · exact hmem v (List.mem_append_left _ hv)
    · omega
  next => exact hbase

/-- A new election: the server has voted for itself, and asks the others. -/
theorem ask (n : Nat) {req : Request} {id : NodeID} {C qs : List NodeID}
    (hold : ∀ e ∈ p.elections, e.term < p.server.currentTerm)
    (hnone : p.pending p.server.currentTerm = []) (hnd : (id :: qs).Nodup)
    (hmem : ∀ v ∈ id :: qs, v ∈ C) (hV : V p.server.currentTerm id)
    (hK : K p.server.currentTerm C) : Tally V K (({ p with elections :=
        p.elections ++ [⟨p.server.currentTerm, C.length / 2 + 1, 1, false⟩] } : Process σ).spawn
      (awaiting n (qs.map fun q => (q, req, .vote p.server.currentTerm q)))) := by
  have hpend (T : Nat) : (Process.spawn ({ p with elections :=
        p.elections ++ [⟨p.server.currentTerm, C.length / 2 + 1, 1, false⟩] } : Process σ)
      (awaiting n (qs.map fun q => (q, req, .vote p.server.currentTerm q)))).pending T =
      p.pending T ++ if p.server.currentTerm = T then qs else [] := by
    rw [pending_spawn, voters_awaiting]
    rfl
  have htask {t : Task}
      (ht : t ∈ awaiting n (qs.map fun q => (q, req, .vote p.server.currentTerm q))) :
      ∃ k c, t = .await k c := by
    obtain ⟨c, -, rfl⟩ := List.mem_map.1 ht
    exact ⟨_, _, rfl⟩
  refine ⟨fun e he => ?_, fun e he => ?_, fun T hT => ?_, fun T q ht => ?_, fun T ht => ?_⟩
  · rw [hpend]
    rcases List.mem_append.1 he with he | he
    · rw [if_neg (Nat.ne_of_gt (hold e he)), List.append_nil]
      exact h.counted e he
    · cases List.mem_singleton.1 he
      rw [if_pos rfl, hnone, List.nil_append]
      refine ⟨C, [id], hK, rfl, le_rfl, hnd, hmem, fun v hv => ?_⟩
      rw [List.mem_singleton.1 hv]
      exact hV
  · rcases List.mem_append.1 he with he | he
    · exact h.current e he
    · cases List.mem_singleton.1 he
      exact le_rfl
  · have hne : p.server.currentTerm ≠ T := Nat.ne_of_lt hT
    rw [hpend, h.pending_nil T hT, if_neg hne]
    rfl
  · rcases mem_spawn ht with ht | ht
    · exact h.granted T q ht
    · obtain ⟨k, c, hc⟩ := htask ht
      cases hc
  · rcases mem_spawn ht with ht | ht
    · exact h.won T ht
    · obtain ⟨k, c, hc⟩ := htask ht
      cases hc

theorem startElection (i n : Nat) (hid : p.server.id ∈ p.server.peers)
    (hnd : p.server.peers.Nodup) (hV : V (p.server.currentTerm + 1) p.server.id)
    (hK : K (p.server.currentTerm + 1) p.server.peers) :
    Tally V K ((p.drop i).startElection.proc.spawn
      (awaiting n (p.drop i).startElection.calls)) := by
  have hdrop : Tally V K (p.drop i) := h.of_voting rfl (le_rfl) (voting_drop p i)
  have hserver : Tally V K ((p.drop i).withServer p.server.startElection.1) :=
    hdrop.of_voting rfl (Nat.le_succ _) (List.Sublist.refl _)
  rw [Process.startElection]
  dsimp only
  split
  next hone =>
    -- the vote of the server itself is a majority
    have hmaj : p.server.peers.length / 2 + 1 ≤ 1 := hone
    refine (hserver.promote ⟨_, hK, [p.server.id], List.nodup_singleton _, fun v hv => ?_, hmaj⟩)
      |>.of_voting rfl (le_rfl) ?_
    · rw [List.mem_singleton.1 hv]
      exact ⟨hid, hV⟩
    · rw [voting_await (by simp)]
      exact List.Sublist.refl _
  next =>
    have hself : p.server.id ∉ Process.others p.server := fun hmem =>
      of_decide_eq_true (List.mem_filter.1 hmem).2 rfl
    refine hserver.ask n (fun e he => Nat.lt_succ_of_le (h.current e he))
      (hdrop.pending_nil _ (Nat.lt_succ_self _)) (List.nodup_cons.2 ⟨hself, hnd.filter _⟩)
      (fun v hv => ?_) hV hK
    rcases List.mem_cons.1 hv with rfl | hv
    · exact hid
    · exact (List.mem_filter.1 hv).1

/-- **The tally is kept by every section**, if a server that campaigns records its own vote and the
members it asks, and a vote that arrives was given. -/
theorem step {m : StateMachine σ} {w : World σ} {id : NodeID} {a : Local} {e : Effect σ} (n : Nat)
    (hm : Move m w id p a e)
    (hvote : ∀ (i : Nat) call T q r, p.tasks[i]? = some (Task.await call (.vote T q)) →
      (call, .requestVote r) ∈ w.replies → r.voteGranted = true → V T q)
    (hstart : ∀ (i : Nat), a = .run i → p.tasks[i]? = some Task.startElection →
      p.server.id ∈ p.server.peers ∧ p.server.peers.Nodup ∧
        V (p.server.currentTerm + 1) p.server.id ∧ K (p.server.currentTerm + 1) p.server.peers) :
    Tally V K (e.proc.spawn (awaiting n e.calls)) := by
  have hterm := hm.saves.term_le
  -- what all sections but three have in common
  have hplain {p' : Process σ} {calls : List (NodeID × Request × Pending)}
      (hcalls : ∀ c ∈ calls, ∀ T q, c.2.2 ≠ .vote T q) (helections : p'.elections = p.elections)
      (hterm : p.server.currentTerm ≤ p'.server.currentTerm)
        (hvoting : p'.voting.Sublist p.voting) : Tally V K (p'.spawn (awaiting n calls)) := by
    refine h.of_voting helections hterm ?_
    rw [voting_await hcalls]
    exact hvoting
  have hspawn {p' : Process σ} {t : Task} (ht : t.votes = false)
      (hvoting : p'.voting.Sublist p.voting) : (p'.spawn [t]).voting.Sublist p.voting := by
    rw [voting_spawn (by simpa using ht)]
    exact hvoting
  have hrefl := List.Sublist.refl p.voting
  cases hm with
  | idle p' hserver helections htasks =>
    exact hplain (by simp) helections hterm (voting_of_loud htasks)
  | stop => exact hplain (by simp) rfl hterm hrefl
  | startElection i ht =>
    obtain ⟨hid, hnd, hV, hK⟩ := hstart i rfl ht
    exact h.startElection i n hid hnd hV hK
  | becomeLeader i term s ws ht hs =>
    exact hplain (by simp) rfl hterm (hspawn rfl (voting_drop p i))
  | countVote i term peer ht =>
    refine (h.countVote ht).of_voting rfl (le_rfl) ?_
    rw [voting_await (by simp)]
  | sendEntries i | sendSnapshot i | sendBeat i =>
    exact hplain (by simp) rfl hterm (voting_drop p i)
  | saveSnapshot i snap ht => exact hplain (by simp) rfl hterm (hspawn rfl (voting_drop p i))
  | compact i | stepDown i | appendReply i | snapshotReply i =>
    exact hplain (by simp) rfl hterm (voting_drop p i)
  | voteReply i j call term peer r ht hr hgrant =>
    have hin := hvote i call term peer r ht (List.mem_of_getElem? hr) hgrant
    refine (h.of_reply ht hin).of_voting rfl (le_rfl) ?_
    rw [voting_await (by simp)]
  | handle call c recent hc hdst =>
    obtain ⟨src, dst, req⟩ := c
    cases req with
    | appendEntries | requestVote | installSnapshot =>
      exact hplain (by simp [Process.handle]) rfl hterm hrefl
  | submit cmd s ws hs => exact hplain (by simp) rfl hterm (hspawn rfl hrefl)
  | addServer | removeServer | maybeCompact => exact hplain (by simp) rfl hterm hrefl
  | takeSnapshot threshold snap hs => exact hplain (by simp) rfl hterm (hspawn rfl hrefl)

end Tally

end CoreBank.Raft
