import CoreBank.Raft.Fresh

/-!
# Linearizable reads

`ReadIndex` notes the commit index, sends a heartbeat to every peer and waits until a majority has
answered; `LinearizableRead` then waits for the state machine and calls `fn`.  Every answer counts,
a refusal too: what it proves is that the peer had no later term than the leader when the read
began. If a majority had not, no later leader had been elected by then, and nothing is committed
that the leader does not have.

That is not yet enough.  The leader has what earlier leaders have committed, but its commit index
need not reach that far before it commits an entry of its own term, and `ReadIndex` does not wait
for that: right after its election a leader answers a read from an old state
(`new_leader_reads_old_state`).
-/

set_option autoImplicit false

namespace CoreBank.Raft

open ActionSystem Consensus Majority

variable {σ : Type} {m : StateMachine σ} {members : List NodeID} {w w' : World σ} {id : NodeID}

/-! ## What a section does to a read -/

/-- The goroutine belongs to the read `rid`. -/
def Task.ofRead (rid : Nat) : Task → Bool
  | .beat k _ | .countAck k | .await _ (.beat k) => k == rid
  | _ => false

/-- The goroutines of a read. -/
def Process.readers (p : Process σ) (rid : Nat) : List Task := p.tasks.filter (Task.ofRead rid)

/-- What a section of the process does to the read `rid`. -/
inductive ReadMove (w : World σ) (p : Process σ) (rid : Nat) : Effect σ → Prop
  /-- Nothing; some of its goroutines may end. -/
  | other (e : Effect σ) (hread : e.proc.reads[rid]? = p.reads[rid]?)
      (htasks : (e.proc.readers rid).Sublist (p.readers rid))
      (hcalls : ∀ c ∈ e.calls, c.2.2 ≠ .beat rid) : ReadMove w p rid e
  /-- It begins. -/
  | start (p' : Process σ) (hrid : rid = p.reads.length) (hread : p.read = some p') :
      ReadMove w p rid { proc := p' }
  | send (i : Nat) (peer : NodeID) (req : Request) (r : Read σ) (hr : p.reads[rid]? = some r)
      (ht : p.tasks[i]? = some (.beat rid peer)) :
      ReadMove w p rid { proc := p.drop i, calls := [(peer, req, .beat rid)] }
  /-- A peer has answered that does not have a later term. -/
  | ack (i call : Nat) (rep : AppendEntriesReply) (r : Read σ) (hr : p.reads[rid]? = some r)
      (ht : p.tasks[i]? = some (.await call (.beat rid)))
      (hrep : (call, .appendEntries rep) ∈ w.replies) (hterm : rep.term ≤ r.term) :
      ReadMove w p rid { proc := (p.drop i).spawn [.countAck rid] }
  | count (i : Nat) (r : Read σ) (hr : p.reads[rid]? = some r)
      (ht : p.tasks[i]? = some (.countAck rid)) :
      ReadMove w p rid { proc := (p.drop i).setRead rid { r with
        acks := r.acks + 1, confirmed := r.confirmed || decide (r.needed ≤ r.acks + 1) } }
  | turn (r : Read σ) (st : Stage σ) (hr : p.reads[rid]? = some r) (hst : r.Turns p.server st) :
      ReadMove w p rid { proc := p.setRead rid { r with stage := st } }

variable {calls : List (NodeID × Request × Pending)} {r : Read σ} {p' : Process σ}

variable {p₁ : Process σ} {rep : Option Reply}

section Inversion

variable {p : Process σ} {rid : Nat} {a : Local} {e : Effect σ}

theorem readers_drop (p : Process σ) (i rid : Nat) :
    ((p.drop i).readers rid).Sublist (p.readers rid) :=
  (List.eraseIdx_sublist _ _).filter _

theorem readers_spawn {ts : List Task} (h : ∀ t ∈ ts, t.ofRead rid = false) :
    (p.spawn ts).readers rid = p.readers rid := by
  have hnil : ts.filter (Task.ofRead rid) = [] := List.filter_eq_nil_iff.2 fun t ht => by
    rw [h t ht]
    exact Bool.false_ne_true
  rw [Process.readers, Process.spawn, List.filter_append, hnil, List.append_nil, Process.readers]

section Others

variable {ts : List Task} {ws : List Write} {k : Nat} (hreads : p₁.reads = p.reads)
  (htasks : (p₁.readers rid).Sublist (p.readers rid))

include hreads htasks

theorem ReadMove.of_spawn (hts : ∀ t ∈ ts, t.ofRead rid = false) :
    ReadMove w p rid ⟨p₁.spawn ts, ws, [], rep⟩ := by
  refine .other _ (congrArg (·[rid]?) hreads) ?_ (List.forall_mem_nil _)
  rw [readers_spawn hts]
  exact htasks

theorem ReadMove.of_eq (hcalls : ∀ c ∈ calls, c.2.2 ≠ .beat rid) :
    ReadMove w p rid ⟨p₁, ws, calls, rep⟩ :=
  .other _ (congrArg (·[rid]?) hreads) htasks hcalls

theorem ReadMove.of_quiet : ReadMove w p rid ⟨p₁, ws, [], rep⟩ :=
  .of_eq hreads htasks (List.forall_mem_nil _)

theorem ReadMove.of_set (hk : k ≠ rid) : ReadMove w p rid { proc := p₁.setRead k r } := by
  refine .other _ ?_ htasks nofun
  rw [← hreads]
  exact List.getElem?_set_ne hk

end Others

theorem readMove_of_run {i : Nat} {t : Task} (ht : p.tasks[i]? = some t)
    (h : Process.run m (p.drop i) t = some e) : ReadMove w p rid e := by
  have hdrop := readers_drop p i rid
  cases t with
  | startElection =>
    cases h
    rw [Process.startElection]
    dsimp only
    split
    · exact .of_spawn rfl hdrop (by simp [Task.ofRead])
    · exact .of_eq rfl hdrop (by simp)
  | becomeLeader term =>
    cases h
    rw [Process.becomeLeader]
    split
    · exact .of_quiet rfl hdrop
    · exact .of_spawn rfl hdrop (by simp [Task.ofRead])
  | broadcast =>
    cases h
    rw [Process.broadcast]
    split
    · exact .of_quiet rfl hdrop
    · exact .of_spawn rfl hdrop (by simp [Task.ofRead])
  | replicateTo peer term =>
    cases h
    rw [Process.replicateTo]
    split
    · exact .of_quiet rfl hdrop
    · exact .of_spawn rfl hdrop (by simp [Task.ofRead])
    · exact .of_eq rfl hdrop (by simp)
  | sendSnapshotTo peer term =>
    cases h
    rw [Process.sendSnapshotTo]
    split
    · exact .of_quiet rfl hdrop
    · exact .of_eq rfl hdrop (by simp)
  | countVote term peer =>
    cases h
    rw [Process.countVote]
    split
    · exact .of_spawn rfl hdrop (by simp [Task.ofRead])
    · exact .of_quiet rfl hdrop
  | beat k peer =>
    cases h
    rw [Process.beat]
    split
    · exact .of_quiet rfl hdrop
    next r hr =>
      by_cases hk : k = rid
      · subst hk
        exact .send i peer _ r hr ht
      · exact .of_eq rfl hdrop (by simpa using hk)
  | countAck k =>
    cases h
    rw [Process.countAck]
    split
    · exact .of_quiet rfl hdrop
    next r hr =>
      by_cases hk : k = rid
      · subst hk
        exact .count i r hr ht
      · exact .of_set rfl hdrop hk
  | saveSnapshot snap =>
    cases h
    exact .of_spawn rfl hdrop (by simp [Task.ofRead])
  | compact snap => cases h; exact .of_quiet rfl hdrop
  | await call k => cases h

theorem readMove_of_receive {i call j : Nat} {k : Pending} {reply : Reply}
    (ht : p.tasks[i]? = some (.await call k)) (hj : w.replies[j]? = some (call, reply))
    (h : Process.receive m (p.drop i) k reply = some e) : ReadMove w p rid e := by
  have hdrop := readers_drop p i rid
  cases k with
  | vote term peer =>
    cases reply with
    | requestVote rep =>
      rw [Process.receive] at h
      split at h
      · cases h; exact .of_quiet rfl hdrop
      · split at h
        · cases h; exact .of_quiet rfl hdrop
        · cases h; exact .of_spawn rfl hdrop (by simp [Task.ofRead])
    | appendEntries | installSnapshot => cases h
  | append peer term k =>
    cases reply with
    | appendEntries rep => cases h; exact .of_quiet rfl hdrop
    | requestVote | installSnapshot => cases h
  | snapshot peer term idx =>
    cases reply with
    | installSnapshot rep => cases h; exact .of_quiet rfl hdrop
    | requestVote | appendEntries => cases h
  | beat k =>
    cases reply with
    | appendEntries rep =>
      rw [Process.receive] at h
      split at h
      · cases h; exact .of_quiet rfl hdrop
      next hterm =>
        split at h
        · cases h; exact .of_quiet rfl hdrop
        next r hr =>
          split at h
          · cases h; exact .of_quiet rfl hdrop
          next hlead =>
            cases h
            by_cases hk : k = rid
            · subst hk
              rw [not_or, not_not, not_not] at hlead
              exact .ack i call rep r hr ht (List.mem_of_getElem? hj)
                (hlead.2 ▸ Nat.le_of_not_lt hterm)
            · exact .of_spawn rfl hdrop (by simpa [Task.ofRead] using hk)
    | requestVote | installSnapshot => cases h

theorem readMove_of_read (h : p.read = some p') :
    ReadMove w p rid { proc := p' } := by
  by_cases hrid : rid = p.reads.length
  · exact .start p' hrid h
  · have hreads (r : Read σ) : (p.reads ++ [r])[rid]? = p.reads[rid]? := by
      rcases Nat.lt_or_gt_of_ne hrid with hlt | hgt
      · exact List.getElem?_append_left hlt
      · rw [List.getElem?_eq_none hgt.le, List.getElem?_eq_none]
        rw [List.length_append]
        exact hgt
    obtain ⟨-, st, qs, -, -, rfl⟩ := read_cases h
    refine .other _ (hreads _) ?_ (List.forall_mem_nil _)
    rw [readers_spawn]
    · exact List.Sublist.refl _
    · intro t ht
      obtain ⟨q, -, rfl⟩ := List.mem_map.1 ht
      exact beq_false_of_ne (Ne.symm hrid)

/-- The four sections of the goroutine that called `LinearizableRead`. -/
theorem readMove_of_turn {k : Nat} {st : Stage σ} (hr : p.reads[k]? = some r)
    (hst : r.Turns p.server st) :
    ReadMove w p rid { proc := p.setRead k { r with stage := st } } := by
  by_cases h : k = rid
  · subst h
    exact .turn r st hr hst
  · exact .of_set rfl (List.Sublist.refl _) h

/-- **What a section does to a read.** -/
theorem readMove_of_act (rid : Nat) (h : p.act m w id a = some e) : ReadMove w p rid e := by
  have hrefl := List.Sublist.refl (p.readers rid)
  have hown (ts : List Task) {x : Option (Server σ × List Write)}
      (hts : ∀ t ∈ ts, t.ofRead rid = false) (h : p.ofAppend ts x = some e) :
      ReadMove w p rid e := by
    rw [Process.ofAppend.eq_def] at h
    split at h
    · cases h
    · cases h
      exact .of_spawn rfl hrefl hts
  cases a with
  | tick timedOut heartbeatDue =>
    simp only [Process.act, Option.ite_none_right_eq_some] at h
    obtain ⟨-, h⟩ := h
    cases h
    rw [Process.tick]
    split <;> split
    · exact .of_spawn rfl hrefl (by simp [Task.ofRead])
    · exact .of_quiet rfl hrefl
    · exact .of_spawn rfl hrefl (by simp [Task.ofRead])
    · exact .of_quiet rfl hrefl
  | stop =>
    simp only [Process.act, Option.ite_none_right_eq_some] at h
    obtain ⟨-, h⟩ := h
    cases h
    exact .of_quiet rfl hrefl
  | run i =>
    rw [Process.act] at h
    split at h
    · cases h
    next t ht => exact readMove_of_run ht h
  | receive i j =>
    rw [Process.act] at h
    split at h
    next call k call' reply ht hj =>
      split at h
      next hcall =>
        subst hcall
        exact readMove_of_receive ht hj h
      next => cases h
    next => cases h
  | deliver call recent =>
    rw [Process.act] at h
    split at h
    · cases h
    next c hc =>
      split at h
      · cases h
        cases c.request with
        | appendEntries | requestVote | installSnapshot =>
          exact .of_quiet rfl hrefl
      · cases h
  | submit cmd => exact hown [.broadcast] (by simp [Task.ofRead]) h
  | addServer x | removeServer x => exact hown [] (List.forall_mem_nil _) h
  | maybeCompact threshold =>
    obtain ⟨snap, -, rfl⟩ := Option.map_eq_some_iff.1 h
    exact .of_quiet rfl hrefl
  | takeSnapshot threshold =>
    obtain ⟨snap, -, rfl⟩ := Option.map_eq_some_iff.1 h
    exact .of_spawn rfl hrefl (by simp [Task.ofRead])
  | read =>
    obtain ⟨p', hp', rfl⟩ := Option.map_eq_some_iff.1 h
    exact readMove_of_read hp'
  | confirm k | ready k | answer k | expire k =>
    obtain ⟨r, st, hr, hst, rfl⟩ := turns_of_act rfl h
    exact readMove_of_turn hr hst

end Inversion

/-! ## Who has answered -/

/-- The peer whose answer a goroutine is going to ask for, or waits for. -/
def Task.asked (calls : List Call) : Task → Option NodeID
  | .beat _ q => some q
  | .await call _ => calls[call]?.map Call.dst
  | _ => none

/-- The goroutines `ts` of the read `rid` and its counter: different members were counted, are about
to be counted, and are asked, and of those that have answered `B` holds. -/
def Counted (B : NodeID → Prop) (members : List NodeID) (calls : List Call) (rid acks : Nat)
    (ts : List Task) : Prop :=
  ∃ vs, acks + ts.count (.countAck rid) ≤ vs.length
    ∧ (vs ++ ts.filterMap (Task.asked calls)).Nodup ∧
    (∀ v ∈ vs ++ ts.filterMap (Task.asked calls), v ∈ members) ∧ ∀ v ∈ vs, B v

namespace Counted

variable {B : NodeID → Prop} {calls : List Call} {rid acks : Nat} {ts ts' : List Task}

/-- Of itself the leader knows, and the others it asks. -/
theorem ask {x : NodeID} {qs : List NodeID} (hnd : (x :: qs).Nodup)
    (hmem : ∀ v ∈ x :: qs, v ∈ members)
    (hx : B x) : Counted B members calls rid 1 (qs.map fun q => .beat rid q) := by
  have hasked : (qs.map fun q => Task.beat rid q).filterMap (Task.asked calls) = qs := by
    rw [List.filterMap_map]
    exact List.filterMap_some
  refine ⟨[x], ?_, by rw [hasked]; exact hnd, by rw [hasked]; exact hmem, fun v hv => ?_⟩
  · rw [List.count_eq_zero_of_not_mem (by simp)]
    exact le_rfl
  · rw [List.mem_singleton.1 hv]
    exact hx

theorem perm (hc : Counted B members calls rid acks ts) (hp : ts.Perm ts') :
    Counted B members calls rid acks ts' := by
  obtain ⟨vs, hlen, hnd, hmem, hB⟩ := hc
  have hasked := (hp.filterMap (Task.asked calls)).append_left vs
  exact ⟨vs, hp.count_eq _ ▸ hlen, hasked.nodup_iff.1 hnd,
    fun v hv => hmem v (hasked.mem_iff.2 hv), hB⟩

theorem sublist (hc : Counted B members calls rid acks ts) (hs : ts'.Sublist ts) :
    Counted B members calls rid acks ts' := by
  obtain ⟨vs, hlen, hnd, hmem, hB⟩ := hc
  have hasked := (hs.filterMap (Task.asked calls)).append_left vs
  have hcount := hs.count_le (.countAck rid)
  exact ⟨vs, by omega, hnd.sublist hasked, fun v hv => hmem v (hasked.subset hv), hB⟩

theorem append_calls (hc : Counted B members calls rid acks ts)
    (hts : ∀ call k, .await call k ∈ ts → call < calls.length) (cs : List Call) :
    Counted B members (calls ++ cs) rid acks ts := by
  have hasked : ts.filterMap (Task.asked (calls ++ cs)) = ts.filterMap (Task.asked calls) := by
    refine List.filterMap_congr fun t ht => ?_
    cases t with
    | await call k =>
      show (calls ++ cs)[call]?.map Call.dst = calls[call]?.map Call.dst
      rw [List.getElem?_append_left (hts call k ht)]
    | _ => rfl
  rw [Counted, hasked]
  exact hc

theorem send {q : NodeID} {call : Nat} {k : Pending}
    (hc : Counted B members calls rid acks (.beat rid q :: ts))
    (hcall : Task.asked calls (.await call k) = some q) :
    Counted B members calls rid acks (.await call k :: ts) := by
  have hasked : (Task.await call k :: ts).filterMap (Task.asked calls) =
      (Task.beat rid q :: ts).filterMap (Task.asked calls) := by
    rw [List.filterMap_cons_some hcall,
      List.filterMap_cons_some (rfl : Task.asked calls (.beat rid q) = some q)]
  obtain ⟨vs, hlen, hrest⟩ := hc
  rw [List.count_cons_of_ne (by nofun)] at hlen
  refine ⟨vs, ?_, ?_⟩
  · rw [List.count_cons_of_ne (by nofun)]
    exact hlen
  · rw [hasked]
    exact hrest

theorem answer {q : NodeID} {call : Nat} {k : Pending}
    (hc : Counted B members calls rid acks (.await call k :: ts))
    (hcall : Task.asked calls (.await call k) = some q) (hq : B q) :
    Counted B members calls rid acks (.countAck rid :: ts) := by
  obtain ⟨vs, hlen, hrest⟩ := hc
  rw [List.count_cons_of_ne (by nofun)] at hlen
  rw [List.filterMap_cons_some hcall] at hrest
  refine ⟨vs ++ [q], ?_, ?_⟩
  · rw [List.count_cons_self, List.length_append, List.length_singleton]
    omega
  · rw [List.filterMap_cons_none (rfl : Task.asked calls (.countAck rid) = none), List.append_assoc]
    refine ⟨hrest.1, hrest.2.1, fun v hv => ?_⟩
    rcases List.mem_append.1 hv with hv | hv
    · exact hrest.2.2 v hv
    · rw [List.mem_singleton.1 hv]
      exact hq

theorem count (hc : Counted B members calls rid acks (.countAck rid :: ts)) :
    Counted B members calls rid (acks + 1) ts := by
  obtain ⟨vs, hlen, hrest⟩ := hc
  rw [List.count_cons_self] at hlen
  exact ⟨vs, by omega, hrest⟩

theorem isMajority (hc : Counted B members calls rid acks ts)
    (hacks : members.length / 2 + 1 ≤ acks) : IsMajority members {q | B q} := by
  obtain ⟨vs, hlen, hnd, hmem, hB⟩ := hc
  refine ⟨vs, (List.nodup_append.1 hnd).1, fun v hv => ⟨?_, hB v hv⟩, ?_⟩
  · exact hmem v (List.mem_append_left _ hv)
  · omega

end Counted

/-- The read `rid` of a process, which stands at `r`; it waits for calls from `n₀` on only. -/
structure Polled (B : NodeID → Prop) (members : List NodeID) (calls : List Call) (n₀ rid : Nat)
    (p : Process σ) (r : Read σ) : Prop where
  read : p.reads[rid]? = some r
  counted : Counted B members calls rid r.acks (p.readers rid)
  later : ∀ call k, .await call k ∈ p.readers rid → n₀ ≤ call
  needed : r.needed = members.length / 2 + 1
  confirmed : r.confirmed = true → r.needed ≤ r.acks
  past : r.stage ≠ .waiting → r.stage ≠ .failed → r.needed ≤ r.acks

section Step

variable {p : Process σ} {rid n₀ : Nat} {r : Read σ} {e : Effect σ} {B : NodeID → Prop}

theorem readers_drop_perm {i : Nat} {t : Task} (ht : p.tasks[i]? = some t)
    (hr : t.ofRead rid = true) : (p.readers rid).Perm (t :: (p.drop i).readers rid) := by
  obtain ⟨hi, rfl⟩ := List.getElem?_eq_some_iff.1 ht
  have hperm := (List.getElem_cons_eraseIdx_perm hi).symm.filter (Task.ofRead rid)
  rw [List.filter_cons_of_pos hr] at hperm
  exact hperm

theorem readers_spawn_perm (p : Process σ) {t : Task} (hr : t.ofRead rid = true) :
    ((p.spawn [t]).readers rid).Perm (t :: p.readers rid) := by
  have heq : (p.spawn [t]).readers rid = p.readers rid ++ [t] := by
    rw [Process.readers, Process.spawn, List.filter_append, List.filter_cons_of_pos hr,
      List.filter_nil,
      Process.readers]
  rw [heq]
  exact List.perm_append_singleton t _

/-- The goroutines that wait for replies to other calls. -/
theorem readers_awaiting (n : Nat) (h : ∀ c ∈ calls, c.2.2 ≠ .beat rid) :
    (p.spawn (awaiting n calls)).readers rid = p.readers rid := by
  refine readers_spawn fun t ht => ?_
  obtain ⟨⟨c, i⟩, hc, rfl⟩ := List.mem_map.1 ht
  have hne := h c (List.fst_mem_of_mem_zipIdx hc)
  cases hk : c.2.2 with
  | beat k =>
    rw [hk] at hne
    exact beq_false_of_ne fun he => hne (congrArg Pending.beat he)
  | _ => rfl

/-- The calls made by the read are the ones its goroutines wait for. -/
theorem Polled.of_readers {calls : List Call} (hP : Polled B members calls n₀ rid p r)
    (hread : p'.reads[rid]? = some r) (hsub : (p'.readers rid).Sublist (p.readers rid)) :
    Polled B members calls n₀ rid p' r where
  read := hread
  counted := hP.counted.sublist hsub
  later call k ht := hP.later call k (hsub.subset ht)
  needed := hP.needed
  confirmed := hP.confirmed
  past := hP.past

theorem Polled.append_calls {calls : List Call} (hP : Polled B members calls n₀ rid p r)
    (hp : ∀ call k, .await call k ∈ p.readers rid → call < calls.length) (cs : List Call) :
    Polled B members (calls ++ cs) n₀ rid p r :=
  { hP with counted := hP.counted.append_calls hp cs }

theorem getElem?_setRead {r' : Read σ} (hr : p.reads[rid]? = some r) :
    (p.setRead rid r').reads[rid]? = some r' :=
  List.getElem?_set_self (List.getElem?_eq_some_iff.1 hr).1

/-- **A section keeps the count of a read right**, if `B` holds of whoever answers without a later
term. -/
theorem Polled.step (id : NodeID) (hP : Polled B members w.calls n₀ rid p r)
    (hm : ReadMove w p rid e)
    (hn : n₀ ≤ w.calls.length)
    (hwired : ∀ call k, .await call k ∈ p.readers rid → call < w.calls.length)
    (hanswer : ∀ call c rep, n₀ ≤ call → w.calls[call]? = some c →
      (call, .appendEntries rep) ∈ w.replies → rep.term ≤ r.term → B c.dst) :
    ∃ r', Polled B members (w.calls ++ e.calls.map fun c => ⟨id, c.1, c.2.1⟩) n₀ rid
        (e.proc.spawn (awaiting w.calls.length e.calls)) r' ∧
      r'.term = r.term ∧ (r'.stage = r.stage ∨ r.Turns p.server r'.stage) := by
  have hcs := hP.append_calls hwired (e.calls.map fun c => ⟨id, c.1, c.2.1⟩)
  cases hm with
  | other e hread htasks hcalls =>
    refine ⟨r, hcs.of_readers (hread.trans hP.read) ?_, rfl, .inl rfl⟩
    rw [readers_awaiting _ hcalls]
    exact htasks
  | start p' hrid =>
    obtain ⟨hlt, -⟩ := List.getElem?_eq_some_iff.1 hP.read
    omega
  | send i peer req _ _ ht =>
    have hdrop := readers_drop_perm ht (beq_self_eq_true rid)
    have hspawn := readers_spawn_perm (p.drop i) (t := .await w.calls.length (.beat rid))
      (beq_self_eq_true rid)
    refine ⟨r, { hcs with counted := ?_, later := fun call k hk => ?_ }, rfl, .inl rfl⟩
    · refine Counted.perm (Counted.send (hcs.counted.perm hdrop) ?_) hspawn.symm
      show (w.calls ++ [_])[w.calls.length]?.map Call.dst = some peer
      rw [List.getElem?_concat_length]
      rfl
    · rcases List.mem_cons.1 (hspawn.mem_iff.1 hk) with heq | hk
      · cases heq
        exact hn
      · exact hP.later call k ((readers_drop p i rid).subset hk)
  | ack i call rep r' hr' ht hrep hterm =>
    obtain rfl : r = r' := Option.some.inj (hP.read.symm.trans hr')
    have hdrop := readers_drop_perm ht (beq_self_eq_true rid)
    have hspawn := readers_spawn_perm (p.drop i) (t := .countAck rid) (beq_self_eq_true rid)
    have hmem : .await call (.beat rid) ∈ p.readers rid := hdrop.mem_iff.2 List.mem_cons_self
    obtain ⟨c, hc⟩ : ∃ c, w.calls[call]? = some c :=
      ⟨_, List.getElem?_eq_getElem (hwired call _ hmem)⟩
    have hB := hanswer call c rep (hP.later call _ hmem) hc hrep hterm
    rw [List.map_nil, List.append_nil] at hcs ⊢
    refine ⟨r, ?_, rfl, .inl rfl⟩
    rw [spawn_awaiting_nil]
    refine { hcs with counted := ?_, later := fun call' k hk => ?_ }
    · refine Counted.perm (Counted.answer (hcs.counted.perm hdrop) ?_ hB) hspawn.symm
      rw [Task.asked, hc, Option.map_some]
    · rcases List.mem_cons.1 (hspawn.mem_iff.1 hk) with heq | hk
      · cases heq
      · exact hP.later call' k ((readers_drop p i rid).subset hk)
  | count i r' hr' ht =>
    obtain rfl : r = r' := Option.some.inj (hP.read.symm.trans hr')
    have hdrop := readers_drop_perm ht (beq_self_eq_true rid)
    rw [List.map_nil, List.append_nil] at hcs ⊢
    refine ⟨{ r with
      acks := r.acks + 1
      confirmed := r.confirmed || decide (r.needed ≤ r.acks + 1) }, ?_, rfl, .inl rfl⟩
    rw [spawn_awaiting_nil]
    refine ⟨getElem?_setRead (p := p.drop i) hP.read, (hcs.counted.perm hdrop).count,
      fun call k hk => hP.later call k ((readers_drop p i rid).subset hk), hP.needed, fun hc => ?_,
      fun h₁ h₂ => Nat.le_succ_of_le (hP.past h₁ h₂)⟩
    rcases Bool.or_eq_true_iff.1 hc with hc | hc
    · exact Nat.le_succ_of_le (hP.confirmed hc)
    · exact of_decide_eq_true hc
  | turn r' st hr' hst =>
    obtain rfl : r = r' := Option.some.inj (hP.read.symm.trans hr')
    rw [List.map_nil, List.append_nil] at hcs ⊢
    refine ⟨{ r with stage := st }, ?_, rfl, .inr hst⟩
    rw [spawn_awaiting_nil]
    refine ⟨getElem?_setRead hP.read, hcs.counted, hP.later, hP.needed, hP.confirmed,
      fun _ hfailed => ?_⟩
    cases hst with
    | index _ hc => exact hP.confirmed hc
    | ready hst | done hst =>
      exact hP.past (by rw [hst]; intro h; cases h) (by rw [hst]; intro h; cases h)
    | failed => exact absurd rfl hfailed

/-- No goroutine belongs to a read that has not begun. -/
def Unbegun (p : Process σ) : Prop := ∀ k, p.reads.length ≤ k → p.readers k = []

theorem length_read (h : p.read = some p') :
    p'.reads.length = p.reads.length + 1 := by
  obtain ⟨-, st, qs, -, -, rfl⟩ := read_cases h
  exact List.length_append

theorem Unbegun.step {a : Local} (hU : Unbegun p) (h : p.act m w id a = some e) (n : Nat) :
    Unbegun (e.proc.spawn (awaiting n e.calls)) := by
  intro k hk
  have hnone {r : Read σ} {l : List (Read σ)} (hr : p.reads[k]? = some r) (hl : l.length ≤ k)
      (hlen : l.length = p.reads.length) : False := by
    obtain ⟨hlt, -⟩ := List.getElem?_eq_some_iff.1 hr
    omega
  cases readMove_of_act k h with
  | other e hread htasks hcalls =>
    have hk : e.proc.reads.length ≤ k := hk
    rw [List.getElem?_eq_none hk] at hread
    rw [hU k (List.getElem?_eq_none_iff.1 hread.symm)] at htasks
    rw [readers_awaiting n hcalls]
    exact List.sublist_nil.1 htasks
  | start p' hrid hread =>
    have hlen := length_read hread
    have hk : p'.reads.length ≤ k := hk
    omega
  | send _ _ _ _ hr | ack _ _ _ _ hr => exact (hnone hr hk rfl).elim
  | count _ _ hr | turn _ _ hr => exact (hnone hr hk List.length_set).elim

/-- The read that begins: the leader itself counts, and its peers are asked. -/
theorem Polled.start (h : p.read = some p') (hU : Unbegun p) (hpeers : p.server.peers = members)
    (hnd : members.Nodup) (hid : p.server.id ∈ members) (hB : B p.server.id) (calls : List Call)
    (n₀ : Nat) :
    p.server.role = .leader ∧ ∃ r, Polled B members calls n₀ p.reads.length p' r ∧
      r.term = p.server.currentTerm ∧ ∀ k x, r.stage ≠ .done k x := by
  have hnone := hU p.reads.length (le_rfl)
  have hself : p.server.id ∉ Process.others p.server := fun hmem =>
    of_decide_eq_true (List.mem_filter.1 hmem).2 rfl
  have hneeded : p.server.majority = members.length / 2 + 1 := by rw [Server.majority, hpeers]
  obtain ⟨hlead, st, qs, hqs, hst, rfl⟩ := read_cases h
  have hreaders (rs : List (Read σ)) : (Process.spawn { p with reads := rs }
      (qs.map (.beat p.reads.length))).readers p.reads.length = qs.map (.beat p.reads.length) := by
    show (p.tasks ++ _).filter _ = _
    rw [List.filter_append]
    show p.readers p.reads.length ++ _ = _
    rw [hnone, List.nil_append, List.filter_eq_self]
    intro t ht
    obtain ⟨q, -, rfl⟩ := List.mem_map.1 ht
    exact beq_self_eq_true p.reads.length
  refine ⟨hlead, _, ⟨List.getElem?_concat_length, ?_, ?_, hneeded, fun h => by (cases h), ?_⟩, rfl,
    ?_⟩
  · rw [hreaders]
    refine Counted.ask (List.nodup_cons.2 ⟨fun h => hself (hqs.subset h), ?_⟩) (fun v hv => ?_) hB
    · rw [Process.others, hpeers] at hqs
      exact (hnd.filter _).sublist hqs
    · rcases List.mem_cons.1 hv with rfl | hv
      · exact hid
      · rw [← hpeers]
        exact (List.mem_filter.1 (hqs.subset hv)).1
  · rw [hreaders]
    intro call k hk
    obtain ⟨q, -, hq⟩ := List.mem_map.1 hk
    cases hq
  · rcases hst with rfl | ⟨rfl, hone⟩
    · exact fun h => absurd rfl h
    · exact fun _ _ => hone
  · rintro k x rfl
    rcases hst with h | ⟨h, -⟩ <;> cases h

end Step

/-! ## The cluster around a read -/

variable {p : Process σ}

/-- A server that answers an `AppendEntries` tells a term that is not below its own. -/
theorem Move.reply_term {a : Local} {e : Effect σ} (hm : Move m w id p a e) {k : Nat}
    {rep : AppendEntriesReply} (hr : (k, .appendEntries rep) ∈ a.replies e.reply) :
    ∃ c, w.calls[k]? = some c ∧ c.dst = id ∧ p.server.currentTerm ≤ rep.term := by
  have hterm := hm.saves.term_le
  obtain ⟨recent, ⟨src, dst, req⟩, rfl, hc, hdst, rfl⟩ := hm.handled hr
  cases req with
  | appendEntries args =>
    cases List.mem_singleton.1 hr
    have heq : (p.server.appendEntries m args).2.2.term =
        (p.server.appendEntries m args).1.currentTerm := by
      rw [Server.appendEntries]
      split
      · rfl
      · dsimp only
        split <;> rfl
    exact ⟨_, hc, hdst, hterm.trans heq.ge⟩
  | requestVote | installSnapshot => cases List.mem_singleton.1 hr

variable {as : List Action}

theorem unbegun_of_run {cl : Cluster σ} (hrun : Run (fun w a w' => exec cl w a = some w') {} as w)
    (hp : (w.node id).proc = some p) : Unbegun p := by
  refine hrun.invariant (P := fun w => ∀ id p, (w.node id).proc = some p → Unbegun p) ?_
    (fun _ _ hp => by cases hp) id p hp
  intro w a w' hexec hU id p' hp'
  cases (stepped_of_exec hexec).procStep hp' with
  | other _ hp' => exact hU id p' hp'
  | boot p hdown hp =>
    intro k _
    rw [Process.readers, (start_id hp).2.2.1, List.filter_nil]
  | act p a e hp ha =>
    exact (hU id p hp).step ha _

/-- The read `rid` of server `id` in term `T`, which stands at `r`.  It began when `n₀` calls had
been made and the servers had the terms `T₀`. -/
structure Reading (T₀ : NodeID → Nat) (members : List NodeID) (n₀ : Nat) (id : NodeID) (rid T : Nat)
    (w : World σ) (p : Process σ) (r : Read σ) : Prop where
  proc : (w.node id).proc = some p
  calls : n₀ ≤ w.calls.length
  replies : ∀ call c rep, n₀ ≤ call → w.calls[call]? = some c →
    (call, .appendEntries rep) ∈ w.replies → T₀ c.dst ≤ rep.term
  polled : Polled (fun q => T₀ q ≤ T) members w.calls n₀ rid p r
  term : r.term = T

section Reading

variable {T₀ : NodeID → Nat} {n₀ rid T : Nat} {p : Process σ} {r : Read σ}
  {confOf : Bytes → Option (List NodeID)} {C₀ : List NodeID} {h : History NodeID Bytes}

theorem Reading.setNode {x : NodeID} {n : Node σ}
    (hr : Reading T₀ members n₀ id rid T w p r) (hx : x ≠ id) :
    Reading T₀ members n₀ id rid T (w.setNode x n) p r :=
  { hr with proc := by rw [node_setNode_ne w n (Ne.symm hx)]; exact hr.proc }

/-- **A read goes on.** -/
theorem Reading.step {cl : Cluster σ} {a : Action} (hr : Reading T₀ members n₀ id rid T w p r)
    (hR : Refines confOf C₀ w h) (hT : ∀ q, T₀ q ≤ h.term q) (hexec : exec cl w a = some w')
    (hno : ¬ a.restarts id) : ∃ p' r', Reading T₀ members n₀ id rid T w' p' r' ∧
      (r'.stage = r.stage ∨ r.Turns p.server r'.stage) := by
  have hs := stepped_of_exec hexec
  cases hs with
  | boot x | crash x | cut x => exact ⟨p, r, hr.setNode hno, .inl rfl⟩
  | act x p₁ a e hp₁ ha =>
    obtain ⟨beats, hM⟩ := hR.messages
    have hwired : ∀ call k, .await call k ∈ p.readers rid → call < w.calls.length := by
      intro call k hk
      obtain ⟨dst, req, hcall, -⟩ := (hR.wired id p hr.proc).2 call k (List.mem_filter.1 hk).1
      exact (List.getElem?_eq_some_iff.1 hcall).1
    have hreplies : ∀ call c rep, n₀ ≤ call → (w.commit x a e).calls[call]? = some c →
        (call, .appendEntries rep) ∈ (w.commit x a e).replies → T₀ c.dst ≤ rep.term := by
      intro call c rep hn hc hrep
      rcases List.mem_append.1 hrep with hrep | hrep
      · obtain ⟨c', hc'⟩ : ∃ c', w.calls[call]? = some c' :=
          ⟨_, List.getElem?_eq_getElem (hM.answered call _ hrep)⟩
        obtain rfl : c' = c := Option.some.inj ((calls_commit hc').symm.trans hc)
        exact hr.replies call c' rep hn hc' hrep
      · obtain ⟨c', hc', hdst, hterm⟩ := (move_of_act ha).reply_term hrep
        obtain rfl : c' = c := Option.some.inj ((calls_commit hc').symm.trans hc)
        rw [hdst]
        exact (hT x).trans (((hR.node x).proc p₁ hp₁).server.term.trans_le hterm)
    have hcalls : n₀ ≤ (w.commit x a e).calls.length :=
      hr.calls.trans (by rw [World.commit, List.length_append]; exact Nat.le_add_right _ _)
    by_cases hx : id = x
    · subst hx
      obtain rfl : p = p₁ := Option.some.inj (hr.proc.symm.trans hp₁)
      obtain ⟨r', hP', hterm, hstage⟩ := hr.polled.step id (readMove_of_act rid ha) hr.calls hwired
        fun call c rep hn hc hrep hle =>
          (hr.replies call c rep hn hc hrep).trans (hr.term ▸ hle)
      refine ⟨_, r', ⟨?_, hcalls, hreplies, hP', hterm.trans hr.term⟩, hstage⟩
      rw [node_commit_self]
    · refine ⟨p, r, ⟨?_, hcalls, hreplies, hr.polled.append_calls hwired _, hr.term⟩, .inl rfl⟩
      rw [node_commit_ne w _ _ hx]
      exact hr.proc

end Reading

/-! ## Linearizable reads -/

/-- The conditions on the steps of a fixed membership that keep the machines in line with the
logs. -/
def Steadily (m : StateMachine σ) (members : List NodeID) (w : World σ) (a : Action) : Prop :=
  Fixed members a ∧ Safe m w a ∧ Unregressed a.id (w.node a.id) a ∧ a.nonEmpty

instance (m : StateMachine σ) (members : List NodeID) (w : World σ) (a : Action) :
    Decidable (Steadily m members w a) :=
  inferInstanceAs (Decidable (_ ∧ _))

/-- The steps of a fixed membership that are safe, without a return to an older snapshot and without
empty commands. -/
def SteadyStep (m : StateMachine σ) (members : List NodeID) (w : World σ) (a : Action)
    (w' : World σ) : Prop :=
  exec ⟨m, fun _ => members⟩ w a = some w' ∧ Steadily m members w a

section Run

variable {h : History NodeID Bytes} {s s' : Server σ}

theorem SteadyStep.steady {a : Action} (hnd : members.Nodup) (hs : SteadyStep m members w a w')
    (hS : Steady m members w h) : ∃ h', Extends h h' ∧ Steady m members w' h' :=
  hS.step hnd ⟨hs.1, hs.2.1, hs.2.2.1⟩ hs.2.2.2.1.all hs.2.2.2.2

theorem SteadyStep.det {a : Action} {w₁ w₂ : World σ} (h₁ : SteadyStep m members w a w₁)
    (h₂ : SteadyStep m members w a w₂) : w₁ = w₂ :=
  Option.some.inj (h₁.1.symm.trans h₂.1)

section Incarnation

variable (hnd : members.Nodup)
  (hrun : Run (fun w a w' => SteadyStep m members w a w' ∧ ¬ a.restarts id) w as w')
  (hS : Steady m members w h)

include hnd hrun hS

theorem Steady.prefix_of_incarnation (hs : w.server id = some s) (hs' : w'.server id = some s') :
    s.log.abs.take s.commitIndex <+: s'.log.abs.take s'.commitIndex :=
  Raft.prefix_of_incarnation (R := Steady m members) rfl (fun _ _ hS => hS.coherent.refines)
    (fun _ _ _ _ hs hS => ⟨hs.1, hS.settled.ordered hnd hs.2.1⟩)
    (fun _ _ _ _ hs hS => hs.steady hnd hS) hrun hS hs hs'

/-- A read keeps its books through a run. -/
theorem reading_of_run {T₀ : NodeID → Nat} {n₀ rid T : Nat} (hT : ∀ q, T₀ q ≤ h.term q)
    (hr : Reading T₀ members n₀ id rid T w p r) :
    ∃ h' p' r', Steady m members w' h' ∧ (∀ q, T₀ q ≤ h'.term q) ∧
      Reading T₀ members n₀ id rid T w' p' r' := by
  induction hrun generalizing h p r with
  | nil => exact ⟨h, p, r, hS, hT, hr⟩
  | cons hs hrest ih =>
    obtain ⟨hs, hno⟩ := hs
    obtain ⟨h₁, hx, hS₁⟩ := hs.steady hnd hS
    obtain ⟨p₁, r₁, hr₁, -⟩ := hr.step hS.coherent.refines hT hs.1 hno
    exact ih hS₁ (fun q => (hT q).trans (hx.term q)) hr₁

theorem exists_answer {T₀ : NodeID → Nat} {n₀ rid T : Nat} {r' : Read σ}
    (hT : ∀ q, T₀ q ≤ h.term q) (hr : Reading T₀ members n₀ id rid T w p r)
    (hnot : ∀ k x, r.stage ≠ .done k x) (hp' : (w'.node id).proc = some p')
    (hr' : p'.reads[rid]? = some r') {k : Nat} {x : σ} (hdone : r'.stage = .done k x) :
    ∃ bs v q y, bs <+: as ∧
      Run (fun w a w' => SteadyStep m members w a w' ∧ ¬ a.restarts id) w bs v ∧
      Reading T₀ members n₀ id rid T v q y ∧ y.stage = .ready ∧ q.server.lastApplied = k ∧
      q.server.sm = x := by
  induction as using List.reverseRecOn generalizing w' p' r' with
  | nil =>
    cases hrun
    obtain rfl : p = p' := Option.some.inj (hr.proc.symm.trans hp')
    obtain rfl : r = r' := Option.some.inj (hr.polled.read.symm.trans hr')
    exact absurd hdone (hnot k x)
  | append_singleton as a ih =>
    obtain ⟨v, hrun₁, hrun₂⟩ := hrun.split
    obtain ⟨h₁, q, y, hS₁, hT₁, hy⟩ := reading_of_run hnd hrun₁ hS hT hr
    cases hrun₂ with
    | cons hs hnil =>
      cases hnil
      obtain ⟨p₁, r₁, hr₁, hstage⟩ := hy.step hS₁.coherent.refines hT₁ hs.1.1 hs.2
      obtain rfl : p₁ = p' := Option.some.inj (hr₁.proc.symm.trans hp')
      obtain rfl : r₁ = r' := Option.some.inj (hr₁.polled.read.symm.trans hr')
      rw [hdone] at hstage
      rcases hstage with hsame | hturn
      · obtain ⟨bs, u, q', y', hpre, hrest⟩ := ih hrun₁ hy.proc hy.polled.read hsame.symm
        exact ⟨bs, u, q', y', hpre.trans (List.prefix_append _ _), hrest⟩
      · cases hturn with
        | done hready =>
          exact ⟨as, v, q, y, List.prefix_append _ _, hrun₁, hy, hready, rfl, rfl⟩

end Incarnation

theorem Steady.begin (hnd : members.Nodup) (hS : Steady m members w h)
    (hrun : Run (SteadyStep m members) {} as w) (hp : (w.node id).proc = some p)
    (hs : SteadyStep m members w (.act id .read) w') :
    p.server.role = .leader ∧ ∃ p' r, (∀ k x, r.stage ≠ .done k x) ∧
      Reading (fun q => (w.node q).term) members w.calls.length id p.reads.length
        p.server.currentTerm w' p' r := by
  obtain ⟨hexec, ⟨hid, -⟩, -⟩ := hs
  have hself := (hS.coherent.refines.wired id p hp).1
  have hterm : (w.node p.server.id).term ≤ p.server.currentTerm := by
    rw [hself, Node.term, hp]
  have hU := unbegun_of_run (hrun.mono fun _ _ _ hs => hs.1) hp
  simp only [exec, hp, Option.map_eq_some_iff, Process.act] at hexec
  obtain ⟨e, ⟨p', hread, rfl⟩, rfl⟩ := hexec
  obtain ⟨hlead, r, hP, hrterm, hnot⟩ :=
    Polled.start (B := fun q => (w.node q).term ≤ p.server.currentTerm) hread hU
      (hS.frozen.proc id p hp).peers hnd (hself.symm ▸ hid) hterm w.calls w.calls.length
  obtain ⟨beats, hM⟩ := hS.coherent.refines.messages
  have hcommit : (w.commit id .read { proc := p' }).calls = w.calls := List.append_nil _
  refine ⟨hlead, p', r, hnot,
    ⟨?_, hcommit ▸ le_rfl, fun call c rep hn _ hrep => ?_, ?_, hrterm⟩⟩
  · rw [node_commit_self, spawn_awaiting_nil]
  · -- no call made since then is answered yet
    rcases List.mem_append.1 hrep with hrep | hrep
    · exact absurd (hM.answered call _ hrep) (Nat.not_lt.2 hn)
    · cases hrep
  · rw [hcommit]
    exact hP

/-- **Linearizable reads.**  A read that begins at a leader that has committed an entry of its own
term, and that returns, calls `fn` with a machine that has gone through everything that any server
had committed before the read began. -/
theorem linearizable_read (hnd : members.Nodup) {as bs : List Action} {w₀ w₁ w₂ : World σ}
    {p₀ p₂ : Process σ} {r : Read σ} {k : Nat} {x : σ}
    (hrun : Run (SteadyStep m members) {} as w₀) (hp₀ : (w₀.node id).proc = some p₀)
    (hown : p₀.server.log.termAt p₀.server.commitIndex = some p₀.server.currentTerm)
    (hread : SteadyStep m members w₀ (.act id .read) w₁)
    (hlater : Run (fun w a w' => SteadyStep m members w a w' ∧ ¬ a.restarts id) w₁ bs w₂)
    (hp₂ : (w₂.node id).proc = some p₂) (hr : p₂.reads[p₀.reads.length]? = some r)
    (hdone : r.stage = .done k x) :
    ∃ cs w s, cs <+: bs ∧ Run (SteadyStep m members) w₁ cs w ∧ w.server id = some s ∧
      s.lastApplied = k ∧ s.sm = x ∧ m.Reflects (s.log.abs.take s.lastApplied) s.sm ∧
      ∀ Y, CommittedIn (SteadyStep m members) as Y → Y <+: s.log.abs.take s.lastApplied := by
  have hsteps : ∀ w a w' h, SteadyStep m members w a w' → Steady m members w h →
      ∃ h', Extends h h' ∧ Steady m members w' h' := fun _ _ _ _ hs hS => hs.steady hnd hS
  obtain ⟨h₀, -, hS₀⟩ := hrun.simulate .refl (fun h₁ h₂ => h₁.trans h₂) hsteps steady_empty
  obtain ⟨hlead, p₁, r₁, hnot, hr₁⟩ := hS₀.begin hnd hrun hp₀ hread
  obtain ⟨h₁, hx, hS₁⟩ := hread.steady hnd hS₀
  have hterms : ∀ q, (w₀.node q).term ≤ h₁.term q := fun q =>
    (hS₀.coherent.refines.term q).symm.trans_le (hx.term q)
  obtain ⟨cs, v, p, y, hpre, hcs, hy, hready, rfl, rfl⟩ :=
    exists_answer hnd hlater hS₁ hterms hr₁ hnot hp₂ hr hdone
  have hplain := hcs.mono fun _ _ _ hs => hs.1
  obtain ⟨h, hxh, hS⟩ := hplain.simulate .refl (fun h₁ h₂ => h₁.trans h₂) hsteps hS₁
  have happlied := ((hS.coherent.refines.node id).proc p hy.proc).server.applied
  refine ⟨cs, v, p.server, hpre, hplain, server_eq_some.2 ⟨p, hy.proc, rfl⟩, rfl, rfl,
    hS.coherent.mirrored.machine id p hy.proc, fun Y hY => ?_⟩
  -- a majority had no later term when the read began
  have hmaj : IsMajority members {q | (w₀.node q).term ≤ p₀.server.currentTerm} := by
    refine hy.polled.counted.isMajority (hy.polled.needed.symm.trans_le (hy.polled.past ?_ ?_)) <;>
    · rw [hready]
      exact nofun
  obtain ⟨g, X, hSg, hX, hYX⟩ := hY.exists_sealed (R := Steady m members)
    (fun _ _ _ _ h₁ h₂ => h₁.det h₂) (fun _ _ hS => hS.coherent.refines) hsteps steady_empty hrun
  have hRg := hSg.coherent.refines
  have hheld := hRg.leader_holds (server_eq_some.2 ⟨p₀, hp₀, rfl⟩) hlead hown
    (fun _ _ _ hc => committed_le_of_majority hRg.inv
      (hmaj.mono fun q hq => (hRg.term q).trans_le hq) hc) hX
  have hkept := hSg.prefix_of_incarnation hnd (.cons ⟨hread, nofun⟩ hcs)
    (server_eq_some.2 ⟨p₀, hp₀, rfl⟩) (server_eq_some.2 ⟨p, hy.proc, rfl⟩)
  rw [happlied]
  exact (hYX.trans hheld).trans hkept

end Run

/-- Server 1 leads term 1 and commits the command 7 with server 2. -/
def committedSeven : List Action :=
  leaderOfTwo ++ [.act [1] (.submit [7]), .run [1] 0, .deliver [2] 1, .receive [1] 1 1]

/-- Server 1 reads, and server 2 answers its heartbeat. -/
def readSeven : List Action :=
  [.run [1] 1, .deliver [2] 2, .receive [1] 1 2, .run [1] 1, .act [1] (.confirm 0),
    .act [1] (.ready 0), .act [1] (.answer 0)]

theorem linearizable_read_readSeven :
    ∃ w₀ w₁ w₂, ∃ s : Server Bytes, Run (SteadyStep journal [[1], [2]]) {} committedSeven w₀ ∧
      SteadyStep journal [[1], [2]] w₀ (.act [1] .read) w₁ ∧
      Run (fun w a w' => SteadyStep journal [[1], [2]] w a w' ∧ ¬ a.restarts [1]) w₁ readSeven w₂ ∧
      s.sm = [7] ∧ s.lastApplied = 2 ∧
      ∀ Y, CommittedIn (SteadyStep journal [[1], [2]]) committedSeven Y →
        Y <+: s.log.abs.take s.lastApplied := by
  obtain ⟨w₀, p₀, hrun, hp₀, hlen, hown, w₁, hw₁, w₂, hw₂, p₂, hp₂, hany⟩ : ∃ w₀ p₀,
      Run (SteadyStep journal [[1], [2]]) {} committedSeven w₀ ∧ (w₀.node [1]).proc = some p₀ ∧
      p₀.reads.length = 0 ∧
      p₀.server.log.termAt p₀.server.commitIndex = some p₀.server.currentTerm ∧
      ∃ w₁ ∈ execAll (guarded (Steadily journal [[1], [2]]) (exec (journalCluster [[1], [2]]))) w₀
          [.act [1] .read],
        ∃ w₂ ∈ execAll (guarded (fun w a => Steadily journal [[1], [2]] w a ∧ ¬ a.restarts [1])
          (exec (journalCluster [[1], [2]]))) w₁ readSeven,
        ∃ p₂ ∈ (w₂.node [1]).proc, p₂.reads[0]?.any (·.stage = .done 2 [7]) :=
    exists_run_guarded_some (by decide +kernel)
  have hread : SteadyStep journal [[1], [2]] w₀ (.act [1] .read) w₁ := by
    cases run_of_execAll_guarded hw₁ with
    | cons hs hnil =>
      cases hnil
      exact hs
  have hlater : Run (fun w a w' => SteadyStep journal [[1], [2]] w a w' ∧ ¬ a.restarts [1]) w₁
      readSeven w₂ := (run_of_execAll_guarded hw₂).mono fun _ _ _ hs => ⟨⟨hs.1, hs.2.1⟩, hs.2.2⟩
  obtain ⟨r, hr, hdone⟩ := (Option.any_eq_true _ _).1 hany
  rw [← hlen] at hr
  obtain ⟨-, -, s, -, -, -, hk, hx, -, hall⟩ :=
    linearizable_read (by decide) hrun hp₀ hown hread hlater hp₂ hr (of_decide_eq_true hdone)
  exact ⟨w₀, w₁, w₂, s, hrun, hread, hlater, hx, hk, hall⟩

/-- Server 2 leads term 2 and reads at once; server 1 answers its heartbeat. -/
def readAtOnce : List Action :=
  [.timeout [2], .run [2] 0, .deliver [1] 2, .receive [2] 0 2, .run [2] 0, .run [2] 0, .run [2] 0,
    .act [2] .read, .run [2] 1, .deliver [1] 3, .receive [2] 1 3, .run [2] 1, .act [2] (.confirm 0),
    .act [2] (.ready 0), .act [2] (.answer 0)]

/-- Server 1 has committed the command 7, and the read at server 2 returns the empty record. -/
theorem new_leader_reads_old_state :
    ∃ w₀ w s p r, Run (SteadyStep journal [[1], [2]]) {} committedSeven w₀ ∧
      w₀.server [1] = some s ∧ s.commitIndex = 2 ∧ s.sm = [7] ∧
      Run (SteadyStep journal [[1], [2]]) w₀ readAtOnce w ∧ (w.node [2]).proc = some p ∧
      p.reads = [r] ∧ r.stage = .done 0 [] := by
  obtain ⟨w₀, s, hrun, hs, hcommit, hsm, w, hw, p, hp, hlen, r, hr, hdone⟩ : ∃ w₀ s,
      Run (SteadyStep journal [[1], [2]]) {} committedSeven w₀ ∧ w₀.server [1] = some s ∧
      s.commitIndex = 2 ∧ s.sm = [7] ∧
      ∃ w ∈ execAll (guarded (Steadily journal [[1], [2]]) (exec (journalCluster [[1], [2]]))) w₀
          readAtOnce,
        ∃ p ∈ (w.node [2]).proc, p.reads.length = 1 ∧ ∃ r ∈ p.reads[0]?, r.stage = .done 0 [] :=
    exists_run_guarded_some (by decide +kernel)
  obtain ⟨r', hreads⟩ := List.length_eq_one_iff.1 hlen
  rw [hreads] at hr
  obtain rfl : r' = r := Option.some.inj hr
  exact ⟨w₀, w, s, p, r', hrun, hs, hcommit, hsm, run_of_execAll_guarded hw, hp, hreads, hdone⟩

end CoreBank.Raft
