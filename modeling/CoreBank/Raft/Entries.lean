import CoreBank.Raft.Durable

/-!
# What becomes of a log

A section leaves the log of its server alone, appends an entry of the leader's own, takes entries
from a request, or discards a prefix.  `LogStep` says so with where the entries come from.

## What is here

* `LogStep`, `Move.logStep` — one section and the log;
* `Holds P`, `Carried P` — every entry carries a command of some kind: in the logs, in the files and
  in the messages.
-/

set_option autoImplicit false

namespace CoreBank.Raft

variable {σ : Type}

/-! ## One section -/

/-- What the section `a` makes of the log `l`. -/
inductive LogStep (w : World σ) (a : Local) (l : Log) : Log → Prop
  | same : LogStep w a l l
  | noop (t : Nat) : LogStep w a l (l.push ⟨t, l.lastIndex + 1, none⟩)
  | submit (t : Nat) (cmd : Bytes) (ha : a = .submit cmd) :
      LogStep w a l (l.push ⟨t, l.lastIndex + 1, some cmd⟩)
  | config (t : Nat) (C : Configuration) (x : NodeID)
      (ha : a = .addServer x ∨ a = .removeServer x) :
      LogStep w a l (l.push ⟨t, l.lastIndex + 1, some (encodeConfig C)⟩)
  | append (call : Nat) (c : Call) (args : AppendEntriesArgs) (hc : w.calls[call]? = some c)
      (hreq : c.request = .appendEntries args)
      (hmatch : l.matchesPrevLog args.prevLogIndex args.prevLogTerm = true)
      (ha : ∃ recent, a = .deliver call recent) :
      LogStep w a l (l.appendFrom args.prevLogIndex args.entries).1
  | discard (i t : Nat) (hbase : l.baseIndex < i) (hlast : i ≤ l.lastIndex)
      (ht : l.termAt i = some t) : LogStep w a l (l.discardThrough i t)
  | rebase (call : Nat) (c : Call) (args : InstallSnapshotArgs) (hc : w.calls[call]? = some c)
      (hreq : c.request = .installSnapshot args)
      (hbase : l.baseIndex < args.snapshot.lastIncludedIndex)
      (ha : ∃ recent, a = .deliver call recent) :
      LogStep w a l (Server.rebase l args.snapshot)

namespace LogStep

variable {w : World σ} {a : Local}

/-- **No section moves the boundary back**, whatever it receives. -/
theorem base_le {l l' : Log} (h : LogStep w a l l') : l.baseIndex ≤ l'.baseIndex := by
  cases h with
  | same | noop | submit | config => exact le_rfl
  | append call c args =>
    exact Nat.le_of_eq (congrArg LogEntry.index (l.sentinel_appendFrom _ _)).symm
  | discard i t hbase => exact hbase.le
  | rebase call c args hc hreq hbase =>
    rw [baseIndex_rebase]
    exact hbase.le

end LogStep

variable {w : World σ}

/-- **What a section does to the log.** -/
theorem Move.logStep {m : StateMachine σ} {id : NodeID} {p : Process σ} {a : Local} {e : Effect σ}
    (hm : Move m w id p a e) : LogStep w a p.server.log e.proc.server.log := by
  obtain ⟨turn, work, -, finish, -⟩ := hm.phases
  obtain ⟨c, k, x, role, removed, -, hs', -⟩ := finish.frame
  rw [hs']
  cases work with
  | none =>
    rw [turn.log]
    exact .same
  | store | tracked => exact .same
  | lead => exact .noop _
  | own cmd ha => exact .submit _ cmd ha
  | config x C ni mi ws hs => exact .config _ C x (hs.imp And.left And.left)
  | entries call c recent args peers ni mi ci ha hc hreq hstop hle hmatch =>
    rw [Server.received, turn.log]
    exact .append call c args hc hreq hmatch ⟨recent, ha⟩
  | compact snap =>
    rw [Server.compact]
    split
    · exact .same
    next hno =>
      simp only [not_or, not_not] at hno
      exact .discard _ _ (Nat.lt_of_not_le hno.1) (Nat.le_of_not_lt hno.2.1) hno.2.2
  | install src args x hin =>
    obtain ⟨call, recent, x, ha, hc, -, -, hbase, -⟩ := hin
    rw [Server.adoptSnapshot, turn.log]
    exact .rebase call _ args hc rfl hbase ⟨recent, ha⟩

/-! ## Entries of one kind -/

/-- Every entry carries a command that satisfies `P`. -/
def Holds (P : Option Bytes → Prop) (es : List LogEntry) : Prop := ∀ e ∈ es, P e.command

/-- What the section brings into the log satisfies `P`. -/
def Local.Brings (P : Option Bytes → Prop) : Local → Prop
  | .submit cmd => P (some cmd)
  | .addServer _ | .removeServer _ => ∀ C, P (some (encodeConfig C))
  | _ => True

/-- The entries that a request carries. -/
def Request.entries : Request → List LogEntry
  | .appendEntries args => args.entries
  | _ => []

namespace Holds

variable {P : Option Bytes → Prop} {l : Log} {es fs : List LogEntry}

theorem nil : Holds P [] := nofun

theorem sublist (h : Holds P es) (hs : fs.Sublist es) : Holds P fs := fun e he => h e (hs.subset he)

variable (h : Holds P l.entries)

include h

theorem push {t i : Nat} {cmd : Option Bytes} (hcmd : P cmd) :
    Holds P (l.push ⟨t, i, cmd⟩).entries := by
  intro e he
  rcases List.mem_append.1 he with he | he
  · exact h e he
  · rw [List.mem_singleton.1 he]
    exact hcmd

theorem appendFrom {prev : Nat} (hes : Holds P es) : Holds P (l.appendFrom prev es).1.entries := by
  induction es generalizing l prev with
  | nil => exact h
  | cons e es ih =>
    have hrest : Holds P es := fun f hf => hes f (List.mem_cons_of_mem _ hf)
    have he : P e.command := hes e List.mem_cons_self
    rw [Log.appendFrom]
    split
    · exact ih h hrest
    split
    · split
      · exact ih h hrest
      · exact ih (Holds.push (h.sublist (List.take_sublist _ _)) he) hrest
    · exact ih (h.push he) hrest

theorem rebase (snap : Snapshot) : Holds P (Server.rebase l snap).entries := by
  rw [Server.rebase]
  split
  · split
    · exact h.sublist (List.drop_sublist _ _)
    · exact nil
  · exact nil

theorem decoded (hnoop : P none) : Holds P l.decoded.entries := by
  intro e he
  obtain ⟨e₀, he₀, rfl⟩ := List.mem_map.1 he
  have hcmd := h e₀ he₀
  show P (e₀.command.filter fun c => c ≠ [])
  cases hc : e₀.command with
  | none => exact hnoop
  | some cmd =>
    rw [hc] at hcmd
    rw [Option.filter_some]
    split
    · exact hcmd
    · exact hnoop

end Holds

variable {P : Option Bytes → Prop}

/-- **What every entry carries** is kept by a section that brings nothing else. -/
theorem LogStep.holds {a : Local} {l l' : Log} (hl : LogStep w a l l') (hnoop : P none)
    (ha : a.Brings P) (h : Holds P l.entries) (hcalls : ∀ c ∈ w.calls, Holds P c.request.entries) :
    Holds P l'.entries := by
  cases hl with
  | same => exact h
  | noop t => exact h.push hnoop
  | submit t cmd hcmd =>
    subst hcmd
    exact h.push ha
  | config t C x hx =>
    refine h.push ?_
    rcases hx with rfl | rfl
    · exact ha C
    · exact ha C
  | append call c args hc hreq hmatch =>
    have hes := hcalls c (List.mem_of_getElem? hc)
    rw [hreq] at hes
    exact h.appendFrom hes
  | discard i t => exact h.sublist (List.drop_sublist _ _)
  | rebase call c args => exact h.rebase args.snapshot

theorem replicateTo_entries {s : Server σ} {peer : NodeID} {t : Nat} {args : AppendEntriesArgs}
    (ha : s.replicateTo peer t = .entries args) : args.entries.Sublist s.log.entries := by
  rw [Server.replicateTo] at ha
  split at ha
  · cases ha
  · dsimp only at ha
    split at ha
    · cases ha
    next hbase =>
      cases ha
      dsimp only
      split
      · obtain ⟨k, hk⟩ : ∃ k, s.log.slot (max (s.nextIndex.at peer) 1) = k + 1 :=
          ⟨max (s.nextIndex.at peer) 1 - s.log.baseIndex - 1, by rw [Log.slot]; omega⟩
        rw [hk, Log.slice, List.drop_succ_cons]
        exact List.drop_sublist _ _
      · exact List.nil_sublist _

theorem Move.calls_entries {m : StateMachine σ} {id : NodeID} {p : Process σ} {a : Local}
    {e : Effect σ} (hm : Move m w id p a e) {c : NodeID × Request × Pending} (hc : c ∈ e.calls) :
    c.2.1.entries.Sublist p.server.log.entries := by
  cases hm.made hc with
  | entries peer term args ht hargs => exact replicateTo_entries hargs
  | vote | snapshot | beat => exact List.nil_sublist _

/-! ## Every step -/

/-- Every entry in a log, in a state file or in a message satisfies `P`. -/
structure Carried (P : Option Bytes → Prop) (w : World σ) : Prop where
  disk : ∀ id, Holds P (w.node id).disk.saved.log.entries
  proc : ∀ id p, (w.node id).proc = some p → Holds P p.server.log.entries
  calls : ∀ c ∈ w.calls, Holds P c.request.entries

theorem carried_empty (P : Option Bytes → Prop) : Carried P ({} : World σ) where
  disk _ _ he := by cases he
  proc _ _ hp := by cases hp
  calls _ hc := by cases hc

theorem holds_start {cl : Cluster σ} {id : NodeID} {d : Disk} {p : Process σ} (hnoop : P none)
    (hd : Holds P d.saved.log.entries) (hp : cl.start id d = some p) :
    Holds P p.server.log.entries := by
  have hlog : Holds P d.saved.log.decoded.entries := hd.decoded hnoop
  cases started_of_start hp with
  | fresh => exact .nil
  | restored =>
    show Holds P d.log.entries
    rcases d.log_cases with ⟨heq, -⟩ | ⟨snap, -, -, heq⟩
    · rw [heq]
      exact hlog
    · rw [heq]
      exact hlog.rebase snap

/-- The action brings into a log only what satisfies `P`. -/
def Action.Brings (P : Option Bytes → Prop) : Action → Prop
  | .act _ a | .cut _ a _ => a.Brings P
  | _ => True

theorem Carried.step {cl : Cluster σ} {w' : World σ} {a : Action} (h : Carried P w)
    (hnoop : P none) (hs : Stepped cl w a w') (ha : a.Brings P) :
    Carried P w' := by
  have hmove {id : NodeID} {p : Process σ} {b : Local} {e : Effect σ}
      (hp : (w.node id).proc = some p) (hb : b.Brings P) (he : p.act cl.machine w id b = some e) :
      Holds P e.proc.server.log.entries :=
    (move_of_act he).logStep.holds hnoop hb (h.proc id p hp) h.calls
  have hdisk {id : NodeID} {p : Process σ} {b : Local} {e : Effect σ}
      (hp : (w.node id).proc = some p) (hb : b.Brings P) (he : p.act cl.machine w id b = some e)
      (k : Nat) : Holds P ((w.node id).disk.writeAll (e.writes.take k)).saved.log.entries := by
    rcases (move_of_act he).saves.disk_cut (w.node id).disk k with hd | hd
    · rw [hd]
      exact h.disk id
    · rw [hd]
      exact hmove hp hb he
  have hnode (id : NodeID) : Holds P (w'.node id).disk.saved.log.entries ∧
      ∀ p, (w'.node id).proc = some p → Holds P p.server.log.entries := by
    have hn := hs.nodeStep id
    generalize w'.node id = n' at hn ⊢
    cases hn with
    | other => exact ⟨h.disk id, h.proc id⟩
    | boot p hdown hp =>
      refine ⟨h.disk id, fun q hq => ?_⟩
      cases hq
      exact holds_start hnoop (h.disk id) hp
    | crash p hp => exact ⟨h.disk id, nofun⟩
    | act p b e hp he =>
      have hall := hdisk hp ha he e.writes.length
      rw [List.take_length] at hall
      exact ⟨hall, fun q hq => by cases hq; exact hmove hp ha he⟩
    | cut p b k e hp he => exact ⟨hdisk hp ha he k, nofun⟩
  refine ⟨fun id => (hnode id).1, fun id => (hnode id).2, ?_⟩
  cases hs with
  | boot | crash | cut => exact h.calls
  | act id p b e hp he =>
    intro c hc
    rcases List.mem_append.1 hc with hc | hc
    · exact h.calls c hc
    · obtain ⟨c₀, hc₀, rfl⟩ := List.mem_map.1 hc
      exact (h.proc id p hp).sublist ((move_of_act he).calls_entries hc₀)

end CoreBank.Raft
