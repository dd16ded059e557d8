import CoreBank.Raft.Configurations
import CoreBank.Raft.Waiters

/-!
# What becomes of a proposed entry

`Submit` and the membership changes append an entry and return its index.  Their callers wait until
the index has been applied and read what the machine recorded for it.  A request from another leader
may replace the entry, and a snapshot may cover it.

## What is here

* `Server.Spares` — a request leaves the log alone up to an index;
* `Records` — a machine that keeps what came of each index;
* `Proposal.Kept`, `Move.kept` — the entry stands where it was put, and once it has been applied the
  machine has a record of it.
-/

set_option autoImplicit false

namespace CoreBank.Raft

variable {σ : Type}

/-! ## The log up to an index -/

/-- Nothing up to index `i` is cut off or covered by what the request brings. -/
def Server.Spares (m : StateMachine σ) (s : Server σ) (i : Nat) : Request → Prop
  | .appendEntries args =>
    s.accepts args → ∀ k ∈ s.log.conflict args.prevLogIndex args.entries, i < k
  | .installSnapshot args => s.installs m args = true →
    args.snapshot.lastIncludedIndex < i ∧
      s.log.termAt args.snapshot.lastIncludedIndex = some args.snapshot.lastIncludedTerm
  | .requestVote _ => True

instance (m : StateMachine σ) (s : Server σ) (i : Nat) (req : Request) :
    Decidable (s.Spares m i req) := by
  unfold Server.Spares
  split <;> infer_instance

section Log

variable {m : StateMachine σ} {w : World σ} {id : NodeID} {p : Process σ} {a : Local} {e : Effect σ}

theorem logical_rebase {l : Log} (hw : l.WF) {snap : Snapshot}
    (ht : l.termAt snap.lastIncludedIndex = some snap.lastIncludedTerm) :
    (Server.rebase l snap).logical = l.logical := by
  obtain ⟨x, hx, hterm⟩ := Option.map_eq_some_iff.1 ht
  rw [Server.rebase, hx]
  dsimp only
  rw [if_pos hterm]
  exact hw.logical_discardThrough _ _

theorem take_appendEntries {s : Server σ} (hw : s.log.WF) {i : Nat} (hi : i ≤ s.log.logical.length)
    {args : AppendEntriesArgs} (h : s.Spares m i (.appendEntries args)) :
    (s.appendEntries m args).1.log.logical.take i = s.log.logical.take i := by
  obtain ⟨role, -, hf⟩ := s.followLeader_frame args.term args.leaderID
  by_cases hstop : s.stopped = true
  · rw [Server.appendEntries, if_pos (.inl hstop)]
  rcases s.appendEntries_cases m args with ⟨-, he⟩ | ⟨-, -, he⟩ | ⟨hle, hmatch, s₂, hs₂, he⟩
  · rw [he]
  · rw [he, hf]
  · obtain ⟨c, k, x, hl, -⟩ := Server.learnCommit_frame m s₂ args.leaderCommit
      (args.prevLogIndex + args.entries.length)
    obtain ⟨peers, ni, mi, ci, ht, -⟩ :=
      (s.followLeader args.term args.leaderID).takeEntries_frame args.prevLogIndex args.entries
    rw [he, hl, hs₂, ht, hf]
    exact hw.take_appendFrom (Server.WF.prev_le hw hmatch) hi
      (h ⟨Bool.eq_false_of_not_eq_true hstop, hle, hmatch⟩)

theorem take_installSnapshot {s : Server σ} (hw : s.log.WF) {i : Nat} {args : InstallSnapshotArgs}
    (h : s.Spares m i (.installSnapshot args)) :
    (s.installSnapshot m args).1.log.logical.take i = s.log.logical.take i := by
  have hheed := s.heedSnapshot_frame args.term args.leaderID
  rcases s.installSnapshot_cases m args with ⟨-, he⟩ | ⟨-, -, he⟩ |
    ⟨hterm, hbase, happ, x, hx, s₂, hs₂, he⟩
  · rw [he]
  · rw [he, hheed]
  · have hinst : s.installs m args = true := by
      rw [Server.installs, hx, decide_eq_true hterm, decide_eq_true hbase, decide_eq_true happ]
      rfl
    rw [he, hs₂, hheed]
    show (Server.rebase s.log args.snapshot).logical.take i = _
    rw [logical_rebase hw (h hinst).2]

/-- A request that spares the entries up to an index. -/
theorem Move.take_deliver {call : Nat} {recent : Bool} (hm : Move m w id p (.deliver call recent) e)
    (hw : p.server.log.WF) {i : Nat} (hi : i ≤ p.server.log.logical.length)
    (h : ∀ c ∈ w.calls[call]?, p.server.Spares m i c.request) :
    e.proc.server.log.logical.take i = p.server.log.logical.take i := by
  cases hm with
  | idle p' hserver => rw [hserver]
  | handle _ c _ hc hdst =>
    have hspares := h c hc
    cases hreq : c.request with
    | appendEntries args =>
      rw [hreq] at hspares
      exact take_appendEntries hw hi hspares
    | installSnapshot args =>
      rw [hreq] at hspares
      exact take_installSnapshot hw hspares
    | requestVote args =>
      show (p.server.requestVote args recent).1.log.logical.take i = _
      have hobs := p.server.observeTerm_frame args.term
      rcases p.server.requestVote_cases args recent with he | ⟨-, he⟩ | ⟨-, -, -, s₂, hs₂, he⟩
      · rw [he]
      · rw [he, hobs]
      · rw [he, hs₂, hobs]

/-- **The log up to an index** is what it was, unless a request cuts it off. -/
theorem Move.take_logical (hm : Move m w id p a e) (hw : p.server.log.WF) {i : Nat}
    (hi : i ≤ p.server.log.logical.length)
    (h : ∀ call recent, a = .deliver call recent →
      ∀ c ∈ w.calls[call]?, p.server.Spares m i c.request) :
    e.proc.server.log.logical.take i = p.server.log.logical.take i := by
  have hpush (x : LogEntry) :
      (p.server.log.push x).logical.take i = p.server.log.logical.take i := by
    rw [Log.logical_push, List.take_append_of_le_length hi]
  have hlog := hm.logStep
  generalize hl : e.proc.server.log = l at hlog ⊢
  cases hlog with
  | same => rfl
  | noop | submit | config => exact hpush _
  | discard k t => rw [hw.logical_discardThrough]
  | append call c args hc hreq hmatch ha =>
    obtain ⟨recent, rfl⟩ := ha
    rw [← hl]
    exact hm.take_deliver hw hi (h call recent rfl)
  | rebase call c args hc hreq hbase ha =>
    obtain ⟨recent, rfl⟩ := ha
    rw [← hl]
    exact hm.take_deliver hw hi (h call recent rfl)

end Log

/-! ## What the machine records -/

/-- The machine keeps what came of each index: `R i cmd x` holds once `cmd` was applied at index
`i`, whatever is applied at other indices later. -/
structure Records (m : StateMachine σ) (R : Nat → Bytes → σ → Prop) : Prop where
  self : ∀ i cmd x, R i cmd (m.applyAt i cmd x)
  other : ∀ i cmd x j cmd', j ≠ i → R i cmd x → R i cmd (m.applyAt j cmd' x)

/-- An entry that somebody has appended. -/
structure Proposal where
  index : Nat
  term : Nat
  cmd : Bytes
deriving DecidableEq

/-- The entry that was appended. -/
def Proposal.entry (q : Proposal) : LogEntry := ⟨q.term, q.index, some q.cmd⟩

section Machine

variable {m : StateMachine σ} {R : Nat → Bytes → σ → Prop} {q : Proposal}

theorem Records.applyEntry_other (hR : Records m R) {e : LogEntry} (he : e.index ≠ q.index) {x : σ}
    (hx : R q.index q.cmd x) : R q.index q.cmd (Server.applyEntry m e x) := by
  rw [Server.applyEntry]
  split
  · exact hx
  · exact hR.other _ _ _ _ _ he hx

/-- Entries with consecutive indices after `n`, the proposed one among them if they reach so far. -/
theorem Records.applyAll (hR : Records m R) {es : List LogEntry} {n : Nat}
    (hindex : ∀ k e, es[k]? = some e → e.index = n + k + 1) {x : σ}
    (hx : q.index ≤ n → R q.index q.cmd x)
    (hmem : n < q.index → q.index ≤ n + es.length → es[q.index - n - 1]? = some q.entry)
    (hlen : q.index ≤ n + es.length) : R q.index q.cmd (Server.applyAll m es x) := by
  induction es generalizing n x with
  | nil => exact hx hlen
  | cons e es ih =>
    rw [List.length_cons] at hlen hmem
    have hfirst : e.index = n + 1 := hindex 0 e rfl
    refine ih (n := n + 1) (fun k f hf => ?_) (fun hle => ?_) (fun hlt hle => ?_) (by omega)
    · rw [hindex (k + 1) f hf]
      omega
    · rcases Nat.lt_or_ge n q.index with hnew | hold
      · have heq : q.index = n + 1 := by omega
        have he := hmem hnew hlen
        rw [heq, Nat.add_sub_cancel_left, Nat.sub_self, List.getElem?_cons_zero,
          Option.some.injEq] at he
        rw [he]
        exact hR.self _ _ _
      · exact hR.applyEntry_other (by omega) (hx hold)
    · have he := hmem (by omega) hlen
      rwa [show q.index - n - 1 = q.index - (n + 1) - 1 + 1 by omega, List.getElem?_cons_succ] at he

/-- The entry stands where it was put, and once it has been applied there is a record of it. -/
structure Proposal.Kept (R : Nat → Bytes → σ → Prop) (q : Proposal) (s : Server σ) : Prop where
  pos : 0 < q.index
  entry : s.log.logical[q.index - 1]? = some q.entry
  result : q.index ≤ s.lastApplied → R q.index q.cmd s.sm

theorem Proposal.Kept.le_length {s : Server σ} (h : q.Kept R s) :
    q.index ≤ s.log.logical.length := by
  have hlt := (List.getElem?_eq_some_iff.1 h.entry).1
  omega

theorem Applied.records {s s' : Server σ} (happ : Applied m s s') (hR : Records m R)
    (hw : s'.log.WF) (h : q.index ≤ s.lastApplied → R q.index q.cmd s.sm) (hpos : 0 < q.index)
    (hentry : s'.log.logical[q.index - 1]? = some q.entry) (hle : q.index ≤ s'.lastApplied) :
    R q.index q.cmd s'.sm := by
  have hin := (List.getElem?_eq_some_iff.1 hentry).1
  rw [happ.sm]
  refine hR.applyAll (n := s.lastApplied) (fun k e he => ?_) h (fun hlt _ => ?_) ?_
  · rw [List.getElem?_take] at he
    split at he
    · rw [List.getElem?_drop] at he
      exact hw.index _ _ he
    · cases he
  · rw [List.getElem?_take, if_pos (by omega), List.getElem?_drop, ← hentry]
    congr 1
    omega
  · rw [List.length_take, List.length_drop]
    omega

variable {w : World σ} {id : NodeID} {p : Process σ} {a : Local} {e : Effect σ}

/-- **A section keeps a proposed entry** unless it receives a request that does not spare it. -/
theorem Move.kept (hm : Move m w id p a e) (hR : Records m R) (hw : p.WF) (hw' : e.proc.WF)
    (hbase : p.server.log.baseIndex ≤ p.server.lastApplied) (h : q.Kept R p.server)
    (hspares : ∀ call recent, a = .deliver call recent →
      ∀ c ∈ w.calls[call]?, p.server.Spares m q.index c.request) :
    q.Kept R e.proc.server := by
  have htake := hm.take_logical hw.server.log h.le_length hspares
  have hpos := h.pos
  have hentry : e.proc.server.log.logical[q.index - 1]? = some q.entry := by
    rw [← h.entry, ← List.getElem?_take_of_lt (show q.index - 1 < q.index by omega), htake,
      List.getElem?_take_of_lt (by omega)]
  refine ⟨hpos, hentry, fun hle => ?_⟩
  rcases hm.applied hw.server.log hbase with happ | ⟨src, args, hin⟩
  · exact happ.records hR hw'.server.log h.result hpos hentry hle
  · -- the snapshot ends below the entry
    obtain ⟨call, recent, x, rfl, hc, hx, hterm, hb, hlt, hproc, -⟩ := hin
    have hinst : p.server.installs m args = true := by
      rw [Server.installs, hx, decide_eq_true hterm, decide_eq_true hb, decide_eq_true hlt]
      rfl
    have hbelow := (hspares call recent rfl _ hc hinst).1
    have hlast : e.proc.server.lastApplied = args.snapshot.lastIncludedIndex := by
      rw [hproc]
      rfl
    omega

end Machine

end CoreBank.Raft
