import CoreBank.Raft.Entries

/-!
# A membership that does not change

A configuration reaches a server in a log entry: a command that decodes as one.  If nobody asks for
a change and no submitted command decodes as a configuration, then no such entry is ever anywhere,
and every server keeps the list it was started with.

`Fixed members a` is that condition on one action, and `Frozen members w` what it preserves.
-/

set_option autoImplicit false

namespace CoreBank.Raft

variable {σ : Type}

/-! ## The condition -/

/-- The section asks for no change of the membership. -/
def Local.keepsMembers : Local → Prop
  | .submit cmd => configOf cmd = none
  | .addServer _ | .removeServer _ => False
  | _ => True

/-- The action is one of a member, and asks for no change of the membership. -/
def Fixed (members : List NodeID) : Action → Prop
  | .boot id => id ∈ members
  | .crash _ => True
  | .act id a | .cut id a _ => id ∈ members ∧ a.keepsMembers

instance (a : Local) : Decidable a.keepsMembers := by
  induction a using Local.casesOn <;> unfold Local.keepsMembers <;> infer_instance

instance (members : List NodeID) (a : Action) : Decidable (Fixed members a) := by
  induction a using Action.casesOn <;> unfold Fixed <;> infer_instance

/-! ## One section -/

/-- None of the entries carries a configuration. -/
abbrev FreeEntries : List LogEntry → Prop := Holds fun c => configOf (c.getD []) = none

theorem latestConfig_of_free {l : Log} (h : FreeEntries l.entries) :
    Server.latestConfig l = none := by
  rw [Server.latestConfig, List.findSome?_eq_none_iff]
  intro e he
  have hfree : configOf e.bytes = none := h e (List.mem_reverse.1 he)
  rw [hfree]
  rfl

theorem Local.brings_of_keepsMembers {a : Local} (ha : a.keepsMembers) :
    a.Brings fun c => configOf (c.getD []) = none := by
  cases a with
  | submit cmd => exact ha
  | addServer | removeServer => exact ha.elim
  | _ => trivial

/-- **No section of a fixed membership changes the list of peers.** -/
theorem Move.peers_eq {m : StateMachine σ} {w : World σ} {id : NodeID} {p : Process σ} {a : Local}
    {e : Effect σ} (hm : Move m w id p a e) (ha : a.keepsMembers)
    (hfree : FreeEntries e.proc.server.log.entries) : e.proc.server.peers = p.server.peers := by
  obtain ⟨turn, work, -, finish, -⟩ := hm.phases
  obtain ⟨c, k, x, role, removed, -, hs', -⟩ := finish.frame
  rw [hs'] at hfree ⊢
  cases work with
  | none | install => exact turn.peers
  | store | lead | own | tracked => rfl
  | config x C ni mi ws hs => rcases hs with ⟨rfl, -⟩ | ⟨rfl, -⟩ <;> exact ha.elim
  | entries call c recent args _ _ _ _ _ _ _ _ _ _ htake =>
    -- entries without a configuration change nothing
    rw [← htake] at hfree ⊢
    obtain ⟨peers, ni, mi, ci, ht, hpeers⟩ := (p.server.followLeader args.term
      args.leaderID).takeEntries_frame args.prevLogIndex args.entries
    rw [ht, Server.received] at hfree ⊢
    have hlatest := latestConfig_of_free hfree
    dsimp only at hlatest ⊢
    rw [hpeers, hlatest, turn.peers]
    exact ite_self _
  | compact snap =>
    rw [Server.compact]
    split <;> rfl

/-! ## Every step -/

/-- The server has the list it was started with, and its log no other. -/
structure Unchanged (members : List NodeID) (s : Server σ) : Prop where
  peers : s.peers = members
  free : FreeEntries s.log.entries

/-- No log and no message holds a configuration, and every server has the list it started with. -/
structure Frozen (members : List NodeID) (w : World σ) : Prop where
  carried : Carried (fun c => configOf (c.getD []) = none) w
  proc : ∀ id p, (w.node id).proc = some p → Unchanged members p.server

theorem frozen_empty (members : List NodeID) : Frozen members ({} : World σ) :=
  ⟨carried_empty _, fun _ _ hp => by cases hp⟩

/-- A new server takes over the log of its state file, and finds no configuration there. -/
theorem unchanged_start {m : StateMachine σ} {members : List NodeID} {id : NodeID} {d : Disk}
    {p : Process σ} (hd : FreeEntries d.saved.log.entries)
    (hp : Cluster.start ⟨m, fun _ => members⟩ id d = some p) : Unchanged members p.server := by
  refine ⟨?_, holds_start rfl hd hp⟩
  cases started_of_start hp with
  | fresh => rfl
  | restored st x y hstate =>
    rw [Disk.saved, hstate] at hd
    have hfree : FreeEntries st.log.decoded.entries := hd.decoded rfl
    show ((Server.new m id members).loadState st).peers = members
    rw [Server.loadState, Server.adoptConfigFromLog]
    dsimp only
    rw [latestConfig_of_free hfree]
    rfl

/-- The members stay what they are. -/
theorem Frozen.step {m : StateMachine σ} {members : List NodeID} {w w' : World σ} {a : Action}
    (h : Frozen members w) (hs : exec ⟨m, fun _ => members⟩ w a = some w') (ha : Fixed members a) :
    Frozen members w' := by
  have hstep := stepped_of_exec hs
  have hbrings : a.Brings fun c => configOf (c.getD []) = none := by
    cases a with
    | act id a | cut id a => exact Local.brings_of_keepsMembers ha.2
    | _ => trivial
  have hcarried := h.carried.step rfl hstep hbrings
  refine ⟨hcarried, fun id p' hp' => ⟨?_, hcarried.proc id p' hp'⟩⟩
  have hfree := hcarried.proc id p' hp'
  cases hstep.procStep hp' with
  | other _ hp' => exact (h.proc id p' hp').peers
  | boot p hdown hp =>
    exact (unchanged_start (h.carried.disk id) hp).peers
  | act p a e hp he =>
    exact ((move_of_act he).peers_eq ha.2 hfree).trans (h.proc id p hp).peers

end CoreBank.Raft
