import CoreBank.Raft.Cluster

/-!
# What a process can do

`Move` lists what a section of a process does to its server, its goroutines and the network, and
under which circumstances: one constructor for each kind of section, with the goroutine or the
message that it continues.  `move_of_act` is the only place where `Process.act` is taken apart;
every invariant of the cluster is an analysis of `Move`.

Goroutines are *quiet* if what they do next depends only on the server they find then.
-/

set_option autoImplicit false

namespace CoreBank.Raft

open ActionSystem

variable {σ : Type}

/-- The goroutine carries no evidence. -/
def Task.quiet : Task → Bool
  | .startElection | .broadcast | .replicateTo _ _ | .sendSnapshotTo _ _ | .beat _ _
  | .countAck _ => true
  | _ => false

/-- The goroutines that carry evidence. -/
def Process.loud (p : Process σ) : List Task := p.tasks.filter fun t => !t.quiet

/-- The process without the goroutine at a position. -/
def Process.drop (p : Process σ) (i : Nat) : Process σ := { p with tasks := p.tasks.eraseIdx i }

/-- The server an action is about. -/
def Action.id : Action → NodeID
  | .boot id | .crash id | .act id _ | .cut id _ _ => id

/-- A read of `p'` is one of `p`, or starts in the term that `p` leads. -/
def ReadsFrom (p p' : Process σ) : Prop :=
  ∀ r ∈ p'.reads, (∃ r₀ ∈ p.reads, r₀.term = r.term) ∨
    (p.server.role = .leader ∧ r.term = p.server.currentTerm)

variable {p p' : Process σ}

theorem readsFrom_of_eq (h : p'.reads = p.reads) : ReadsFrom p p' :=
  fun r hr => .inl ⟨r, h ▸ hr, rfl⟩

/-- The server that a goroutine is going to send to. -/
def Task.target : Task → Option NodeID
  | .replicateTo peer _ | .sendSnapshotTo peer _ | .beat _ peer => some peer
  | _ => none

/-- The goroutine `t`, which is going to send to `q`, goes on with a snapshot where one of `p` would
have sent entries, or was started for a peer; to replicate in the term that `p` leads. -/
def Process.Aims (p : Process σ) (t : Task) (q : NodeID) : Prop :=
  (∃ T, t = .sendSnapshotTo q T ∧ .replicateTo q T ∈ p.tasks) ∨
    (q ∈ Process.others p.server ∧ ∀ T, t = .replicateTo q T →
      p.server.role = .leader ∧ T = p.server.currentTerm)

/-- A goroutine of `p'` that is going to send was there, or was aimed by `p`. -/
def TargetsFrom (p p' : Process σ) : Prop :=
  ∀ t ∈ p'.tasks, ∀ q, t.target = some q → t ∈ p.tasks ∨ p.Aims t q

variable {t : Task}

/-- The goroutines of `p'` send to those that `p` was going to send to, and to its peers. -/
theorem TargetsFrom.mem (h : TargetsFrom p p') (ht : t ∈ p'.tasks) {q : NodeID}
    (hq : t.target = some q) :
    (∃ t₀ ∈ p.tasks, t₀.target = some q) ∨ q ∈ Process.others p.server := by
  rcases h t ht q hq with ht | ⟨T, -, ht⟩ | ⟨hother, -⟩
  · exact .inl ⟨t, ht, hq⟩
  · exact .inl ⟨_, ht, rfl⟩
  · exact .inr hother

/-- What a section of the process of server `id` does. -/
inductive Move (m : StateMachine σ) (w : World σ) (id : NodeID) (p : Process σ) :
    Local → Effect σ → Prop
  /-- Nothing but goroutines and reads. -/
  | idle {a : Local} (p' : Process σ) (hserver : p'.server = p.server)
      (helections : p'.elections = p.elections) (htasks : p'.loud.Sublist p.loud)
      (hreads : ReadsFrom p p') (htargets : TargetsFrom p p') : Move m w id p a { proc := p' }
  | stop : Move m w id p .stop
      { proc := p.withServer { p.server with running := false, stopped := true } }
  | startElection (i : Nat) (ht : p.tasks[i]? = some .startElection) :
      Move m w id p (.run i) (p.drop i).startElection
  | becomeLeader (i : Nat) (term : Nat) (s : Server σ) (ws : List Write)
      (ht : p.tasks[i]? = some (.becomeLeader term))
      (hs : p.server.becomeLeader m term = some (s, ws)) :
      Move m w id p (.run i)
        { proc := ((p.drop i).withServer s).spawn [.broadcast], writes := ws }
  | countVote (i : Nat) (term : Nat) (peer : NodeID)
      (ht : p.tasks[i]? = some (.countVote term peer)) :
      Move m w id p (.run i) { proc := (p.drop i).countVote term }
  | sendEntries (i : Nat) (peer : NodeID) (term : Nat) (args : AppendEntriesArgs)
      (ht : p.tasks[i]? = some (.replicateTo peer term))
      (ha : p.server.replicateTo peer term = .entries args) :
      Move m w id p (.run i) { proc := p.drop i, calls := [(peer, .appendEntries args,
        .append peer term (args.prevLogIndex + args.entries.length))] }
  | sendSnapshot (i : Nat) (peer : NodeID) (term : Nat) (args : InstallSnapshotArgs)
      (ht : p.tasks[i]? = some (.sendSnapshotTo peer term))
      (ha : p.server.sendSnapshotTo term = some args) :
      Move m w id p (.run i) { proc := p.drop i, calls := [(peer, .installSnapshot args,
        .snapshot peer term args.snapshot.lastIncludedIndex)] }
  | sendBeat (i rid : Nat) (peer : NodeID) (r : Read σ) (ht : p.tasks[i]? = some (.beat rid peer))
      (hr : p.reads[rid]? = some r) :
      Move m w id p (.run i) { proc := p.drop i, calls := [(peer, .appendEntries
        ⟨r.term, p.server.id, p.server.log.lastIndex, p.server.log.lastTerm, [],
          p.server.commitIndex⟩, .beat rid)] }
  | saveSnapshot (i : Nat) (snap : Snapshot) (ht : p.tasks[i]? = some (.saveSnapshot snap)) :
      Move m w id p (.run i)
        { proc := (p.drop i).spawn [.compact snap], writes := [.saveSnapshot snap] }
  | compact (i : Nat) (snap : Snapshot) (ht : p.tasks[i]? = some (.compact snap)) :
      Move m w id p (.run i) { proc := (p.drop i).withServer (p.server.compact snap).1,
                               writes := (p.server.compact snap).2 }
  /-- A reply with a higher term. -/
  | stepDown (i r : Nat) (term : Nat) (hterm : p.server.currentTerm < term) :
      Move m w id p (.receive i r) { proc := (p.drop i).withServer (p.server.stepDown term).1,
                                     writes := (p.server.stepDown term).2 }
  /-- A vote is granted. -/
  | voteReply (i j call : Nat) (term : Nat) (peer : NodeID) (r : RequestVoteReply)
      (ht : p.tasks[i]? = some (.await call (.vote term peer)))
      (hr : w.replies[j]? = some (call, .requestVote r)) (hgrant : r.voteGranted = true)
      (hterm : p.server.currentTerm = term) (hrole : p.server.role = .candidate) :
      Move m w id p (.receive i j) { proc := (p.drop i).spawn [.countVote term peer] }
  | appendReply (i j call : Nat) (peer : NodeID) (term k : Nat) (r : AppendEntriesReply)
      (ht : p.tasks[i]? = some (.await call (.append peer term k)))
      (hr : w.replies[j]? = some (call, .appendEntries r)) :
      Move m w id p (.receive i j)
        { proc := (p.drop i).withServer (p.server.onAppendReply m peer term k r).1,
          writes := (p.server.onAppendReply m peer term k r).2 }
  | snapshotReply (i j call : Nat) (peer : NodeID) (term idx : Nat) (r : InstallSnapshotReply)
      (ht : p.tasks[i]? = some (.await call (.snapshot peer term idx)))
      (hr : w.replies[j]? = some (call, .installSnapshot r)) :
      Move m w id p (.receive i j)
        { proc := (p.drop i).withServer (p.server.onSnapshotReply m peer term idx r).1,
          writes := (p.server.onSnapshotReply m peer term idx r).2 }
  /-- A request arrives. -/
  | handle (call : Nat) (c : Call) (recent : Bool) (hc : w.calls[call]? = some c)
      (hdst : c.dst = id) : Move m w id p (.deliver call recent) (p.handle m recent c.request)
  | submit (cmd : Bytes) (s : Server σ) (ws : List Write)
      (hs : p.server.submit m cmd = some (s, ws)) :
      Move m w id p (.submit cmd) { proc := (p.withServer s).spawn [.broadcast], writes := ws }
  | addServer (x : NodeID) (s : Server σ) (ws : List Write)
      (hs : p.server.addServer x = some (s, ws)) :
      Move m w id p (.addServer x) { proc := p.withServer s, writes := ws }
  | removeServer (x : NodeID) (s : Server σ) (ws : List Write)
      (hs : p.server.removeServer x = some (s, ws)) :
      Move m w id p (.removeServer x) { proc := p.withServer s, writes := ws }
  | maybeCompact (threshold : Nat) (snap : Snapshot)
      (hs : p.server.takeSnapshot m threshold = some snap) : Move m w id p (.maybeCompact threshold)
        { proc := p.withServer (p.server.compact snap).1,
          writes := .saveSnapshot snap :: (p.server.compact snap).2 }
  | takeSnapshot (threshold : Nat) (snap : Snapshot)
      (hs : p.server.takeSnapshot m threshold = some snap) :
      Move m w id p (.takeSnapshot threshold) { proc := p.spawn [.saveSnapshot snap] }

/-! ## The inversion -/

variable {ts : List Task}

section Inversion

variable {m : StateMachine σ} {w : World σ} {id : NodeID} {p : Process σ} {a : Local} {e : Effect σ}

theorem spawn_nil (p : Process σ) : p.spawn [] = p := by
  rw [Process.spawn, List.append_nil]

theorem spawn_awaiting_nil (n : Nat) : p.spawn (awaiting n []) = p := spawn_nil p

theorem loud_spawn (p : Process σ) (ts : List Task) :
    (p.spawn ts).loud = p.loud ++ ts.filter fun t => !t.quiet :=
  List.filter_append _ _

theorem loud_spawn_quiet (p : Process σ) (h : ∀ t ∈ ts, t.quiet = true) :
    (p.spawn ts).loud = p.loud := by
  rw [loud_spawn, List.filter_eq_nil_iff.2, List.append_nil]
  intro t ht
  rw [h t ht]
  exact Bool.false_ne_true

theorem loud_drop (p : Process σ) (i : Nat) : (p.drop i).loud.Sublist p.loud :=
  (List.eraseIdx_sublist _ _).filter _

theorem mem_drop {i : Nat} (h : t ∈ (p.drop i).tasks) : t ∈ p.tasks :=
  (List.eraseIdx_sublist _ _).subset h

theorem mem_spawn (h : t ∈ (p.spawn ts).tasks) : t ∈ p.tasks ∨ t ∈ ts :=
  List.mem_append.1 h

theorem targetsFrom_of_spawn {p₁ : Process σ} (hp : ∀ t ∈ p₁.tasks, t ∈ p.tasks)
    (hts : ∀ t ∈ ts, ∀ q, t.target = some q → p.Aims t q) :
    TargetsFrom p (p₁.spawn ts) := by
  intro t ht q hq
  rcases mem_spawn ht with ht | ht
  · exact .inl (hp t ht)
  · exact .inr (hts t ht q hq)

theorem targetsFrom_of_subset {p₁ : Process σ} (hp : ∀ t ∈ p₁.tasks, t ∈ p.tasks) :
    TargetsFrom p p₁ :=
  fun t ht _ _ => .inl (hp t ht)

theorem Move.quiet_of_spawn (i : Nat) (h : ∀ t ∈ ts, t.quiet = true)
    (hts : ∀ t ∈ ts, ∀ q, t.target = some q → p.Aims t q) :
    Move m w id p a { proc := (p.drop i).spawn ts } :=
  .idle _ rfl rfl (by rw [loud_spawn_quiet _ h]; exact loud_drop p i) (readsFrom_of_eq rfl)
    (targetsFrom_of_spawn (fun _ => mem_drop) hts)

theorem Move.of_drop (i : Nat) : Move m w id p a { proc := p.drop i } :=
  .idle _ rfl rfl (loud_drop p i) (readsFrom_of_eq rfl) (targetsFrom_of_subset fun _ => mem_drop)

theorem readsFrom_setRead {rid : Nat} {r r' : Read σ} (hr : p.reads[rid]? = some r)
    (ht : r'.term = r.term) : ReadsFrom p (p.setRead rid r') := by
  intro x hx
  rcases List.mem_or_eq_of_mem_set hx with hx | rfl
  · exact .inl ⟨x, hx, rfl⟩
  · exact .inl ⟨r, List.mem_of_getElem? hr, ht.symm⟩

theorem Move.of_setRead {rid : Nat} {r r' : Read σ} (hr : p.reads[rid]? = some r)
    (ht : r'.term = r.term) : Move m w id p a { proc := p.setRead rid r' } :=
  .idle _ rfl rfl (List.Sublist.refl _) (readsFrom_setRead hr ht)
    (targetsFrom_of_subset fun _ ht => ht)

theorem move_of_run {i : Nat} (ht : p.tasks[i]? = some t)
    (h : Process.run m (p.drop i) t = some e) : Move m w id p (.run i) e := by
  cases t with
  | startElection => cases h; exact .startElection i ht
  | becomeLeader term =>
    cases h
    rw [Process.becomeLeader]
    split
    next => exact .of_drop i
    next s ws hs => exact .becomeLeader i term s ws ht hs
  | broadcast =>
    cases h
    rw [Process.broadcast]
    split
    · exact .of_drop i
    next hrole =>
      refine .quiet_of_spawn i (fun t ht => ?_) fun t ht r hr => ?_
      · obtain ⟨q, -, rfl⟩ := List.mem_map.1 ht
        rfl
      · obtain ⟨q, hq, rfl⟩ := List.mem_map.1 ht
        cases hr
        refine .inr ⟨hq, ?_⟩
        rintro T ⟨⟩
        exact ⟨not_not.1 hrole, rfl⟩
  | replicateTo peer term =>
    cases h
    rw [Process.replicateTo]
    split
    next => exact .of_drop i
    next =>
      refine .quiet_of_spawn i (by simp [Task.quiet]) fun t ht' q hq => ?_
      cases List.mem_singleton.1 ht'
      cases hq
      exact .inl ⟨term, rfl, List.mem_of_getElem? ht⟩
    next args ha => exact .sendEntries i peer term args ht ha
  | sendSnapshotTo peer term =>
    cases h
    rw [Process.sendSnapshotTo]
    split
    next => exact .of_drop i
    next args ha => exact .sendSnapshot i peer term args ht ha
  | countVote term peer => cases h; exact .countVote i term peer ht
  | beat rid peer =>
    cases h
    rw [Process.beat]
    split
    next => exact .of_drop i
    next r hr => exact .sendBeat i rid peer r ht hr
  | countAck rid =>
    cases h
    rw [Process.countAck]
    split
    next => exact .of_drop i
    next r hr =>
      refine .idle _ rfl rfl (loud_drop p i) ?_ (targetsFrom_of_subset fun _ => mem_drop)
      exact readsFrom_setRead (p := p.drop i) hr rfl
  | saveSnapshot snap => cases h; exact .saveSnapshot i snap ht
  | compact snap => cases h; exact .compact i snap ht
  | await call k => cases h

theorem move_of_receive {i call r : Nat} {k : Pending} {reply : Reply}
    (ht : p.tasks[i]? = some (.await call k)) (hr : w.replies[r]? = some (call, reply))
    (h : Process.receive m (p.drop i) k reply = some e) : Move m w id p (.receive i r) e := by
  cases k with
  | vote term peer =>
    cases reply with
    | requestVote rep =>
      rw [Process.receive] at h
      split at h
      next hterm => cases h; exact .stepDown i r rep.term hterm
      next =>
        split at h
        next => cases h; exact .of_drop i
        next hno =>
          cases h
          simp only [not_or, not_not, Bool.not_eq_false] at hno
          exact .voteReply i r call term peer rep ht hr hno.2.2 hno.1 hno.2.1
    | appendEntries | installSnapshot => cases h
  | append peer term k =>
    cases reply with
    | appendEntries rep => cases h; exact .appendReply i r call peer term k rep ht hr
    | requestVote | installSnapshot => cases h
  | snapshot peer term idx =>
    cases reply with
    | installSnapshot rep => cases h; exact .snapshotReply i r call peer term idx rep ht hr
    | requestVote | appendEntries => cases h
  | beat rid =>
    cases reply with
    | appendEntries rep =>
      rw [Process.receive] at h
      split at h
      next hterm => cases h; exact .stepDown i r rep.term hterm
      next =>
        split at h
        next => cases h; exact .of_drop i
        next =>
          split at h
          next => cases h; exact .of_drop i
          next => cases h; exact .quiet_of_spawn i (by simp [Task.quiet]) (by simp [Task.target])
    | requestVote | installSnapshot => cases h

/-- A read is begun by a leader, which asks its peers unless it is a majority alone. -/
theorem read_cases (h : p.read = some p') :
    p.server.role = .leader ∧ ∃ st, ∃ qs : List NodeID, qs.Sublist (Process.others p.server) ∧
      (st = .waiting ∨ (st = .index ∧ p.server.majority ≤ 1)) ∧
      p' = Process.spawn { p with reads := p.reads ++ [⟨p.server.currentTerm, p.server.commitIndex,
        p.server.majority, 1, false, st⟩] } (qs.map (.beat p.reads.length)) := by
  rw [Process.read] at h
  dsimp only at h
  split at h
  · cases h
  next hrole =>
    refine ⟨not_not.1 hrole, ?_⟩
    split at h
    next hone =>
      cases h
      exact ⟨_, [], List.nil_sublist _, .inr ⟨rfl, hone⟩, (spawn_nil _).symm⟩
    next =>
      cases h
      exact ⟨_, _, List.Sublist.refl _, .inl rfl, rfl⟩

theorem move_of_read (h : p.read = some p') : Move m w id p a { proc := p' } := by
  obtain ⟨hrole, st, qs, hqs, -, rfl⟩ := read_cases h
  refine .idle _ rfl rfl ?_ ?_ (targetsFrom_of_spawn (fun _ ht => ht) fun t ht r hr => ?_)
  · rw [loud_spawn_quiet]
    · exact List.Sublist.refl _
    · intro t ht
      obtain ⟨q, -, rfl⟩ := List.mem_map.1 ht
      rfl
  · intro x hx
    rcases List.mem_append.1 hx with hx | hx
    · exact .inl ⟨x, hx, rfl⟩
    · rw [List.mem_singleton.1 hx]
      exact .inr ⟨hrole, rfl⟩
  · obtain ⟨q, hq, rfl⟩ := List.mem_map.1 ht
    cases hr
    exact .inr ⟨hqs.subset hq, nofun⟩

/-- How a call of `LinearizableRead` goes on. -/
inductive Read.Turns (s : Server σ) (r : Read σ) : Stage σ → Prop
  | index (hst : r.stage = .waiting) (hc : r.confirmed = true) (hlead : s.role = .leader)
      (hterm : s.currentTerm = r.term) : Turns s r .index
  | ready (hst : r.stage = .index) (hidx : r.idx ≤ s.lastApplied) : Turns s r .ready
  | done (hst : r.stage = .ready) : Turns s r (.done s.lastApplied s.sm)
  | failed (hst : r.stage = .waiting ∨ r.stage = .index) : Turns s r .failed

/-- The read whose caller the section belongs to. -/
def Local.turns : Local → Option Nat
  | .confirm rid | .ready rid | .answer rid | .expire rid => some rid
  | _ => none

theorem turns_of_act {rid : Nat} (hrid : a.turns = some rid) (h : p.act m w id a = some e) :
    ∃ r st, p.reads[rid]? = some r ∧ r.Turns p.server st ∧
      e = { proc := p.setRead rid { r with stage := st } } := by
  cases a with
  | confirm rid =>
    cases hrid
    obtain ⟨p', hp', rfl⟩ := Option.map_eq_some_iff.1 h
    rw [Process.confirm] at hp'
    split at hp'
    next hr =>
      split at hp'
      · cases hp'
        exact ⟨_, _, hr, .failed (.inl rfl), rfl⟩
      next hlead =>
        cases hp'
        rw [not_or, not_not, not_not] at hlead
        exact ⟨_, _, hr, .index rfl rfl hlead.1 hlead.2, rfl⟩
    next => cases hp'
  | ready rid =>
    cases hrid
    obtain ⟨p', hp', rfl⟩ := Option.map_eq_some_iff.1 h
    rw [Process.ready] at hp'
    split at hp'
    next hr =>
      split at hp'
      next hidx =>
        cases hp'
        exact ⟨_, _, hr, .ready rfl hidx, rfl⟩
      next => cases hp'
    next => cases hp'
  | answer rid =>
    cases hrid
    obtain ⟨p', hp', rfl⟩ := Option.map_eq_some_iff.1 h
    rw [Process.answer] at hp'
    split at hp'
    next hr =>
      cases hp'
      exact ⟨_, _, hr, .done rfl, rfl⟩
    next => cases hp'
  | expire rid =>
    cases hrid
    obtain ⟨p', hp', rfl⟩ := Option.map_eq_some_iff.1 h
    rw [Process.expire] at hp'
    split at hp'
    next hr => cases hp'; exact ⟨_, _, hr, .failed (.inl rfl), rfl⟩
    next hr => cases hp'; exact ⟨_, _, hr, .failed (.inr rfl), rfl⟩
    next => cases hp'
  | _ => cases hrid

/-- **The inversion of `Process.act`.** -/
theorem move_of_act (h : p.act m w id a = some e) : Move m w id p a e := by
  cases a with
  | tick timedOut heartbeatDue =>
    simp only [Process.act] at h
    split at h
    · cases h
      have hquiet {a : Local} {t : Task} (ht : t.quiet = true) (hno : t.target = none) :
          Move m w id p a { proc := p.spawn [t] } :=
        .idle _ rfl rfl (by rw [loud_spawn_quiet p (by simpa using ht)]) (readsFrom_of_eq rfl)
          (targetsFrom_of_spawn (fun _ ht => ht) (by simp [hno]))
      have hsame {a : Local} : Move m w id p a { proc := p } :=
        .idle _ rfl rfl (List.Sublist.refl _) (readsFrom_of_eq rfl)
          (targetsFrom_of_subset fun _ ht => ht)
      rw [Process.tick]
      split <;> split
      · exact hquiet rfl rfl
      · exact hsame
      · exact hquiet rfl rfl
      · exact hsame
    · cases h
  | stop =>
    simp only [Process.act] at h
    split at h
    · cases h; exact .stop
    · cases h
  | run i =>
    simp only [Process.act] at h
    split at h
    · cases h
    next t ht => exact move_of_run ht h
  | receive i r =>
    simp only [Process.act] at h
    split at h
    next call k call' reply ht hr =>
      split at h
      next heq => subst heq; exact move_of_receive ht hr h
      next => cases h
    next => cases h
  | deliver call recent =>
    simp only [Process.act] at h
    split at h
    · cases h
    next c hc =>
      split at h
      next hdst => cases h; exact .handle call c recent hc hdst
      next => cases h
  | submit cmd =>
    simp only [Process.act, Process.ofAppend] at h
    split at h
    · cases h
    next s ws hs => cases h; exact .submit cmd s ws hs
  | addServer x =>
    simp only [Process.act, Process.ofAppend] at h
    split at h
    · cases h
    next s ws hs =>
      cases h
      rw [spawn_nil]
      exact .addServer x s ws hs
  | removeServer x =>
    simp only [Process.act, Process.ofAppend] at h
    split at h
    · cases h
    next s ws hs =>
      cases h
      rw [spawn_nil]
      exact .removeServer x s ws hs
  | maybeCompact threshold =>
    obtain ⟨snap, hs, rfl⟩ := Option.map_eq_some_iff.1 h
    exact .maybeCompact threshold snap hs
  | takeSnapshot threshold =>
    obtain ⟨snap, hs, rfl⟩ := Option.map_eq_some_iff.1 h
    exact .takeSnapshot threshold snap hs
  | read =>
    obtain ⟨p', hp', rfl⟩ := Option.map_eq_some_iff.1 h
    exact move_of_read hp'
  | confirm rid | ready rid | answer rid | expire rid =>
    obtain ⟨r, st, hr, -, rfl⟩ := turns_of_act rfl h
    exact .of_setRead hr rfl

end Inversion

/-! ## Calls and goroutines of a section -/

/-- A call that a section of `p` makes, and the goroutine that goes on from its reply. -/
inductive Made (p : Process σ) : NodeID × Request × Pending → Prop
  | vote (q : NodeID) (hq : q ∈ Process.others p.server) :
      Made p (q, .requestVote p.server.startElection.2.2, .vote (p.server.currentTerm + 1) q)
  | entries (peer : NodeID) (term : Nat) (args : AppendEntriesArgs)
      (ht : .replicateTo peer term ∈ p.tasks)
      (ha : p.server.replicateTo peer term = .entries args) :
      Made p (peer, .appendEntries args,
        .append peer term (args.prevLogIndex + args.entries.length))
  | snapshot (peer : NodeID) (term : Nat) (args : InstallSnapshotArgs)
      (ht : .sendSnapshotTo peer term ∈ p.tasks) (ha : p.server.sendSnapshotTo term = some args) :
      Made p (peer, .installSnapshot args,
        .snapshot peer term args.snapshot.lastIncludedIndex)
  | beat (rid : Nat) (peer : NodeID) (r : Read σ) (ht : .beat rid peer ∈ p.tasks)
      (hr : p.reads[rid]? = some r) :
      Made p (peer, .appendEntries ⟨r.term, p.server.id, p.server.log.lastIndex,
        p.server.log.lastTerm, [], p.server.commitIndex⟩, .beat rid)

variable {m : StateMachine σ} {w : World σ} {e : Effect σ} {cl : Cluster σ}

variable {id : NodeID} {w' : World σ}

section Effects

variable {m : StateMachine σ} {w : World σ} {id : NodeID} {p : Process σ} {a : Local} {e : Effect σ}
  {t : Task}

theorem Move.made (hm : Move m w id p a e) {c : NodeID × Request × Pending} (hc : c ∈ e.calls) :
    Made p c := by
  cases hm with
  | startElection i =>
    rw [Process.startElection] at hc
    dsimp only at hc
    split at hc
    · cases hc
    · obtain ⟨q, hq, rfl⟩ := List.mem_map.1 hc
      exact .vote q hq
  | sendEntries i peer term args ht ha =>
    cases List.mem_singleton.1 hc
    exact .entries peer term args (List.mem_of_getElem? ht) ha
  | sendSnapshot i peer term args ht ha =>
    cases List.mem_singleton.1 hc
    exact .snapshot peer term args (List.mem_of_getElem? ht) ha
  | sendBeat i rid peer r ht hr =>
    cases List.mem_singleton.1 hc
    exact .beat rid peer r (List.mem_of_getElem? ht) hr
  | handle call c' =>
    obtain ⟨src, dst, req⟩ := c'
    cases req <;> cases hc
  | _ => cases hc

/-- The goroutine is the next section of a compaction. -/
def Compacts (m : StateMachine σ) (p : Process σ) (a : Local) (e : Effect σ) (t : Task) : Prop :=
  (∃ snap, t = .compact snap ∧ .saveSnapshot snap ∈ p.tasks ∧
    e.writes = [.saveSnapshot snap] ∧ ∃ i, a = .run i) ∨
  ∃ threshold snap, a = .takeSnapshot threshold ∧ t = .saveSnapshot snap ∧
    p.server.takeSnapshot m threshold = some snap

/-- A goroutine after a section was there, or is quiet, or is about an election, or is the next
section of a compaction. -/
theorem Move.started (hm : Move m w id p a e) (ht : t ∈ e.proc.tasks) :
    t ∈ p.tasks ∨ t.quiet = true ∨ (∃ T, t = .becomeLeader T) ∨ (∃ T q, t = .countVote T q) ∨
      Compacts m p a e t := by
  have hnew {p' : Process σ} {x : Task} (hp' : ∀ y ∈ p'.tasks, y ∈ p.tasks)
      (h : t ∈ (p'.spawn [x]).tasks) : t ∈ p.tasks ∨ t = x :=
    (mem_spawn h).imp (hp' t) List.mem_singleton.1
  cases hm with
  | idle p' hserver helections htasks =>
    by_cases hq : t.quiet = true
    · exact .inr (.inl hq)
    · have hloud : t ∈ p'.loud :=
        List.mem_filter.2 ⟨ht, by rw [Bool.not_eq_true] at hq; rw [hq]; rfl⟩
      exact .inl (List.mem_filter.1 (htasks.subset hloud)).1
  | stop | addServer | removeServer | maybeCompact => exact .inl ht
  | startElection =>
    rw [Process.startElection] at ht
    dsimp only at ht
    split at ht
    · exact (hnew (fun _ => mem_drop) ht).imp_right fun h => .inr (.inl ⟨_, h⟩)
    · exact .inl (mem_drop ht)
  | countVote =>
    rw [Process.countVote] at ht
    split at ht
    · exact (hnew (fun _ => mem_drop) ht).imp_right fun h => .inr (.inl ⟨_, h⟩)
    · exact .inl (mem_drop ht)
  | becomeLeader =>
    exact (hnew (fun _ => mem_drop) ht).imp_right fun h => .inl (by rw [h]; rfl)
  | voteReply =>
    exact (hnew (fun _ => mem_drop) ht).imp_right fun h => .inr (.inr (.inl ⟨_, _, h⟩))
  | sendEntries | sendSnapshot | sendBeat | compact | stepDown | appendReply | snapshotReply =>
    exact .inl (mem_drop ht)
  | saveSnapshot i snap hsnap =>
    exact (hnew (fun _ => mem_drop) ht).imp_right fun h =>
      .inr (.inr (.inr (.inl ⟨snap, h, List.mem_of_getElem? hsnap, rfl, i, rfl⟩)))
  | handle call c =>
    cases hreq : c.request with
    | appendEntries | requestVote | installSnapshot => rw [hreq] at ht; exact .inl ht
  | submit => exact (hnew (fun _ h => h) ht).imp_right fun h => .inl (by rw [h]; rfl)
  | takeSnapshot threshold snap hs =>
    exact (hnew (fun _ h => h) ht).imp_right fun h =>
      .inr (.inr (.inr (.inr ⟨threshold, snap, rfl, h, hs⟩)))

theorem Move.await_mem (hm : Move m w id p a e) {call : Nat} {k : Pending}
    (h : .await call k ∈ e.proc.tasks) : .await call k ∈ p.tasks := by
  rcases hm.started h with h | h | ⟨_, h⟩ | ⟨_, _, h⟩ | ⟨_, h, _⟩ | ⟨_, _, _, h, _⟩
  · exact h
  all_goals cases h

end Effects

/-! ## Compactions under way -/

/-- The section may take a snapshot. -/
def Local.takes : Local → Bool
  | .maybeCompact _ | .takeSnapshot _ => true
  | _ => false

/-- The action's section is one that `takes`. -/
def Action.takes : Action → Bool
  | .act _ a | .cut _ a _ => a.takes
  | _ => false

/-- A goroutine of `MaybeCompact`. -/
def Task.compacts : Task → Bool
  | .saveSnapshot _ | .compact _ => true
  | _ => false

/-- A compaction under way was under way, or moves on, or has just begun. -/
theorem Move.compacts {a : Local} (hm : Move m w id p a e) (ht : t ∈ e.proc.tasks)
    (hc : t.compacts = true) :
    t ∈ p.tasks ∨ Compacts m p a e t := by
  rcases hm.started ht with h | h | ⟨T, rfl⟩ | ⟨T, q, rfl⟩ | h
  · exact .inl h
  · have hno : t.compacts = false := by cases t <;> first | rfl | cases h
    rw [hno] at hc
    cases hc
  · cases hc
  · cases hc
  · exact .inr h

/-- A snapshot that is being saved, or is about to be cut off, was so before, or was just taken. -/
theorem Move.compacting {a : Local} (hm : Move m w id p a e) {snap : Snapshot}
    (ht : .saveSnapshot snap ∈ e.proc.tasks ∨ .compact snap ∈ e.proc.tasks) :
    (.saveSnapshot snap ∈ p.tasks ∨ .compact snap ∈ p.tasks) ∨
      ∃ threshold, p.server.takeSnapshot m threshold = some snap := by
  rcases ht with ht | ht
  · rcases hm.compacts ht rfl with hold | ⟨s, hs, -⟩ | ⟨threshold, s, -, hs, htake⟩
    · exact .inl (.inl hold)
    · cases hs
    · cases hs
      exact .inr ⟨threshold, htake⟩
  · rcases hm.compacts ht rfl with hold | ⟨s, hs, hold, -⟩ | ⟨threshold, s, -, hs, -⟩
    · exact .inl (.inr hold)
    · cases hs
      exact .inl (.inl hold)
    · cases hs

theorem compacting_of_awaiting {n : Nat} {calls : List (NodeID × Request × Pending)}
    {snap : Snapshot}
    (ht : .saveSnapshot snap ∈ (p.spawn (awaiting n calls)).tasks ∨
      .compact snap ∈ (p.spawn (awaiting n calls)).tasks) :
    .saveSnapshot snap ∈ p.tasks ∨ .compact snap ∈ p.tasks := by
  have hmem {t : Task} (ht : t ∈ (p.spawn (awaiting n calls)).tasks) (hc : t.compacts = true) :
      t ∈ p.tasks := by
    rcases mem_spawn ht with ht | ht
    · exact ht
    · obtain ⟨c, -, rfl⟩ := List.mem_map.1 ht
      cases hc
  exact ht.imp (hmem · rfl) (hmem · rfl)

/-- No section starts a goroutine that sends to a server other than a peer. -/
theorem Move.targetsFrom {a : Local} (hm : Move m w id p a e) :
    TargetsFrom p e.proc := by
  have hspawn {p₁ : Process σ} {t : Task} (hp : ∀ t ∈ p₁.tasks, t ∈ p.tasks)
      (ht : t.target = none) : TargetsFrom p (p₁.spawn [t]) :=
    targetsFrom_of_spawn hp (by simp [ht])
  cases hm with
  | idle p' hserver helections htasks hreads htargets => exact htargets
  | stop | addServer | removeServer | maybeCompact => exact targetsFrom_of_subset fun _ ht => ht
  | startElection i ht =>
    rw [Process.startElection]
    dsimp only
    split
    · exact hspawn (fun _ => mem_drop) rfl
    · exact targetsFrom_of_subset fun _ => mem_drop
  | becomeLeader | saveSnapshot | voteReply => exact hspawn (fun _ => mem_drop) rfl
  | countVote i term peer ht =>
    rw [Process.countVote]
    split
    · exact hspawn (fun _ => mem_drop) rfl
    · exact targetsFrom_of_subset fun _ => mem_drop
  | sendEntries | sendSnapshot | sendBeat | compact | stepDown | appendReply | snapshotReply =>
    exact targetsFrom_of_subset fun _ => mem_drop
  | handle call c recent hc hdst =>
    cases hreq : c.request with
    | appendEntries | requestVote | installSnapshot => exact targetsFrom_of_subset fun _ ht => ht
  | submit | takeSnapshot => exact hspawn (fun _ ht => ht) rfl

/-! ## One step of the cluster -/

/-- What a step of the cluster does. -/
inductive Stepped (cl : Cluster σ) (w : World σ) : Action → World σ → Prop
  | boot (id : NodeID) (p : Process σ) (hdown : (w.node id).proc = none)
      (hp : cl.start id (w.node id).disk = some p) :
      Stepped cl w (.boot id) (w.setNode id { w.node id with proc := some p })
  | crash (id : NodeID) (p : Process σ) (hp : (w.node id).proc = some p) :
      Stepped cl w (.crash id) (w.setNode id { w.node id with proc := none })
  | act (id : NodeID) (p : Process σ) (a : Local) (e : Effect σ) (hp : (w.node id).proc = some p)
      (ha : p.act cl.machine w id a = some e) : Stepped cl w (.act id a) (w.commit id a e)
  | cut (id : NodeID) (p : Process σ) (a : Local) (k : Nat) (e : Effect σ)
      (hp : (w.node id).proc = some p) (ha : p.act cl.machine w id a = some e) :
      Stepped cl w (.cut id a k)
        (w.setNode id { disk := (w.node id).disk.writeAll (e.writes.take k), proc := none })

/-- **The inversion of `exec`.** -/
theorem stepped_of_exec {a : Action} (h : exec cl w a = some w') :
    Stepped cl w a w' := by
  cases a with
  | boot id =>
    simp only [exec] at h
    split at h
    · cases h
    next hdown =>
      obtain ⟨p, hp, rfl⟩ := Option.map_eq_some_iff.1 h
      exact .boot id p hdown hp
  | crash id =>
    simp only [exec] at h
    split at h
    · cases h
    next p hp => cases h; exact .crash id p hp
  | act id a =>
    simp only [exec] at h
    split at h
    · cases h
    next p hp =>
      obtain ⟨e, he, rfl⟩ := Option.map_eq_some_iff.1 h
      exact .act id p a e hp he
  | cut id a k =>
    simp only [exec] at h
    split at h
    · cases h
    next p hp =>
      obtain ⟨e, he, rfl⟩ := Option.map_eq_some_iff.1 h
      exact .cut id p a k e hp he

/-! ## One server of the cluster -/

/-- What a step of the cluster does to server `id`. -/
inductive NodeStep (cl : Cluster σ) (w : World σ) (id : NodeID) (n : Node σ) :
    Action → Node σ → Prop
  /-- Another server moves. -/
  | other {a : Action} (h : a.id ≠ id) : NodeStep cl w id n a n
  | boot (p : Process σ) (hdown : n.proc = none) (hp : cl.start id n.disk = some p) :
      NodeStep cl w id n (.boot id) { n with proc := some p }
  | crash (p : Process σ) (hp : n.proc = some p) :
      NodeStep cl w id n (.crash id) { n with proc := none }
  | act (p : Process σ) (a : Local) (e : Effect σ) (hp : n.proc = some p)
      (ha : p.act cl.machine w id a = some e) : NodeStep cl w id n (.act id a)
        { disk := n.disk.writeAll e.writes
          proc := some (e.proc.spawn (awaiting w.calls.length e.calls)) }
  | cut (p : Process σ) (a : Local) (k : Nat) (e : Effect σ) (hp : n.proc = some p)
      (ha : p.act cl.machine w id a = some e) : NodeStep cl w id n (.cut id a k)
        { disk := n.disk.writeAll (e.writes.take k), proc := none }

theorem node_setNode_self (w : World σ) (id : NodeID) (n : Node σ) :
    (w.setNode id n).node id = n := by
  rw [World.node, World.setNode, AList.lookup_insert, Option.getD_some]

theorem node_setNode_ne (w : World σ) {id' : NodeID} (n : Node σ) (h : id' ≠ id) :
    (w.setNode id n).node id' = w.node id' := by
  rw [World.node, World.setNode, AList.lookup_insert_ne h, World.node]

theorem node_commit_self (w : World σ) (id : NodeID) (a : Local) (e : Effect σ) :
    (w.commit id a e).node id = { disk := (w.node id).disk.writeAll e.writes
                                  proc := some (e.proc.spawn
                                    (awaiting w.calls.length e.calls)) } := by
  rw [World.node, World.commit, AList.lookup_insert, Option.getD_some]

theorem node_commit_ne (w : World σ) {id' : NodeID} (a : Local) (e : Effect σ) (h : id' ≠ id) :
    (w.commit id a e).node id' = w.node id' := by
  rw [World.node, World.commit, AList.lookup_insert_ne h, World.node]

theorem forall_setNode {P : NodeID → Node σ → Prop} {x : NodeID} {n : Node σ} (hx : P x n)
    (h : ∀ id, id ≠ x → P id (w.node id)) (id : NodeID) : P id ((w.setNode x n).node id) := by
  by_cases hid : id = x
  · subst hid
    rw [node_setNode_self]
    exact hx
  · rw [node_setNode_ne w _ hid]
    exact h id hid

theorem forall_commit {P : NodeID → Node σ → Prop} {x : NodeID} {a : Local}
    (hx : P x { disk := (w.node x).disk.writeAll e.writes
                proc := some (e.proc.spawn (awaiting w.calls.length e.calls)) })
    (h : ∀ id, id ≠ x → P id (w.node id)) (id : NodeID) : P id ((w.commit x a e).node id) := by
  by_cases hid : id = x
  · subst hid
    rw [node_commit_self]
    exact hx
  · rw [node_commit_ne w _ _ hid]
    exact h id hid

theorem Stepped.nodeStep {a : Action} (h : Stepped cl w a w') (id : NodeID) :
    NodeStep cl w id (w.node id) a (w'.node id) := by
  have hother (x : NodeID) (hx : x ≠ a.id) : NodeStep cl w x (w.node x) a (w.node x) :=
    .other (Ne.symm hx)
  let P (x : NodeID) (n : Node σ) : Prop := NodeStep cl w x (w.node x) a n
  cases h with
  | boot x p hdown hp => exact forall_setNode (P := P) (.boot p hdown hp) hother id
  | crash x p hp => exact forall_setNode (P := P) (.crash p hp) hother id
  | act x p a e hp ha => exact forall_commit (P := P) (.act p a e hp ha) hother id
  | cut x p a k e hp ha => exact forall_setNode (P := P) (.cut p a k e hp ha) hother id

/-- The process that server `id` has after a step of the cluster. -/
inductive ProcStep (cl : Cluster σ) (w : World σ) (id : NodeID) : Action → Process σ → Prop
  /-- Another server moves. -/
  | other {a : Action} {p : Process σ} (h : a.id ≠ id) (hp : (w.node id).proc = some p) :
      ProcStep cl w id a p
  | boot (p : Process σ) (hdown : (w.node id).proc = none)
      (hp : cl.start id (w.node id).disk = some p) : ProcStep cl w id (.boot id) p
  | act (p : Process σ) (a : Local) (e : Effect σ) (hp : (w.node id).proc = some p)
      (ha : p.act cl.machine w id a = some e) :
      ProcStep cl w id (.act id a) (e.proc.spawn (awaiting w.calls.length e.calls))

theorem Stepped.procStep {a : Action} {p' : Process σ} (h : Stepped cl w a w')
    (hp' : (w'.node id).proc = some p') : ProcStep cl w id a p' := by
  have hn := h.nodeStep id
  generalize w'.node id = n' at hn hp'
  cases hn with
  | other hid => exact .other hid hp'
  | boot p hdown hp => cases hp'; exact .boot _ hdown hp
  | act p a e hp ha => cases hp'; exact .act p a e hp ha
  | crash | cut => cases hp'

/-- One step of server `id` when the rest of the cluster, the network included, is arbitrary: the
world around it may be another one at every step. -/
def ServerStep (cl : Cluster σ) (id : NodeID) (n : Node σ) (x : World σ × Action) (n' : Node σ) :
    Prop :=
  x.1.node id = n ∧ ∃ w', exec cl x.1 x.2 = some w' ∧ w'.node id = n'

theorem ServerStep.nodeStep {n n' : Node σ} {x : World σ × Action} (h : ServerStep cl id n x n') :
    NodeStep cl x.1 id n x.2 n' := by
  obtain ⟨rfl, w', he, rfl⟩ := h
  exact (stepped_of_exec he).nodeStep id

theorem serverRun_of_run (id : NodeID) {P : Node σ → Action → Prop} {as : List Action}
    (h : Run (fun w a w' => exec cl w a = some w' ∧ P (w.node id) a) w as w') :
    ∃ xs, Run (fun n x n' => ServerStep cl id n x n' ∧ P n x.2) (w.node id) xs (w'.node id) := by
  induction h with
  | nil w => exact ⟨[], .nil _⟩
  | @cons w w' w'' a as hs _ ih =>
    obtain ⟨xs, hxs⟩ := ih
    exact ⟨(w, a) :: xs, .cons ⟨⟨rfl, w', hs.1, rfl⟩, hs.2⟩ hxs⟩

end CoreBank.Raft
