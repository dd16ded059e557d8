import CoreBank.Raft.Stopped

/-!
# Membership changes, and what they report

`AddServer` and `RemoveServer` with the errors they return, on storage whose `Save` may fail, and
`AdminService.change`, which turns the outcome into the operator's reply.
`Server.tryChangeConfiguration_cases` is the connection to the changes of `CoreBank.Raft.Server`.

Of the replies, one that is neither OK nor indeterminate says that nothing was appended.  All checks
come before the append, but the save comes after it: a save that fails is reported in the same way,
and the entry stays in the log.
-/

set_option autoImplicit false

namespace CoreBank.Rpc

open ActionSystem Raft

variable {σ : Type}

/-- The errors of a configuration change. -/
inductive ChangeError
  | notLeader
  | notInConfiguration
  | configChangeInFlight
  | alreadyIn (id : NodeID)
  | notIn (id : NodeID)
  | lastServer
  | notSingleServerChange
  /-- Whatever `Save` returned. -/
  | storage (text : Str)
deriving DecidableEq

/-- The texts of the errors. -/
def ChangeError.text : ChangeError → Str
  | .notLeader => str "raft: not leader"
  | .notInConfiguration => str "raft: this server is not in the current configuration"
  | .configChangeInFlight => str "raft: a configuration change is already in progress"
  | .alreadyIn id => str "raft: " ++ id ++ str " is already in the configuration"
  | .notIn id => str "raft: " ++ id ++ str " is not in the configuration"
  | .lastServer => str "raft: cannot remove the last server in the cluster"
  | .notSingleServerChange =>
    str "raft: configuration changes must add or remove exactly one server at a time"
  | .storage text => text

/-- What a call of `Save` does.  An error leaves open whether the state file was replaced. -/
structure SaveOutcome where
  replaced : Bool
  err : Option Str
  saved : err = none → replaced = true

/-- The disk after a `Save` with this outcome. -/
def SaveOutcome.apply (save : SaveOutcome) (d : Disk) (w : Write) : Disk :=
  if save.replaced then d.write w else d

/-! ## The changes -/

/-- `changeConfiguration` on a state file: the server and the storage afterwards, and the index of
the entry or the error. -/
def tryChangeConfiguration (s : Server σ) (d : Disk) (save : SaveOutcome)
    (mutate : Configuration → Except ChangeError Configuration) :
    Server σ × Disk × Except ChangeError Nat :=
  if s.role ≠ .leader then (s, d, .error .notLeader)
  else if s.peers.contains s.id = false then (s, d, .error .notInConfiguration)
  else if s.commitIndex < s.configChangeIndex then (s, d, .error .configChangeInFlight)
  else
    match mutate ⟨s.peers⟩ with
    | .error e => (s, d, .error e)
    | .ok next =>
      if Configuration.differsByOne ⟨s.peers⟩ next = false then
        (s, d, .error .notSingleServerChange)
      else
        let idx := s.log.lastIndex + 1
        let s' := { s.appendOwn (encodeConfig next) with
          configChangeIndex := idx }.useConfiguration next.servers
        match save.err with
        | some text => (s', save.apply d s'.persist, .error (.storage text))
        | none => (s', save.apply d s'.persist, .ok idx)

/-- What `AddServer` hands to `changeConfiguration`. -/
def adding (id : NodeID) (c : Configuration) : Except ChangeError Configuration :=
  if c.contains id then .error (.alreadyIn id) else .ok (c.withServer id)

/-- `AddServer`. -/
def tryAddServer (s : Server σ) (d : Disk) (save : SaveOutcome) (id : NodeID) :
    Server σ × Disk × Except ChangeError Nat :=
  tryChangeConfiguration s d save (adding id)

/-- What `RemoveServer` hands to it. -/
def removing (id : NodeID) (c : Configuration) : Except ChangeError Configuration :=
  if c.contains id = false then .error (.notIn id)
  else if c.servers.length = 1 then .error .lastServer
  else .ok (c.withoutServer id)

/-- `RemoveServer`. -/
def tryRemoveServer (s : Server σ) (d : Disk) (save : SaveOutcome) (id : NodeID) :
    Server σ × Disk × Except ChangeError Nat :=
  tryChangeConfiguration s d save (removing id)

/-- A change is refused and nothing has happened; or it is the one made on storage that does not
fail. -/
theorem tryChangeConfiguration_cases (s : Server σ) (d : Disk) (save : SaveOutcome)
    (mutate : Configuration → Except ChangeError Configuration) :
    (s.changeConfiguration (fun c => (mutate c).toOption) = none ∧
      ∃ e, tryChangeConfiguration s d save mutate = (s, d, .error e)) ∨
    ∃ s', s.changeConfiguration (fun c => (mutate c).toOption) = some (s', [s'.persist]) ∧
      tryChangeConfiguration s d save mutate = (s', save.apply d s'.persist,
        save.err.elim (.ok (s.log.lastIndex + 1)) fun text => .error (.storage text)) := by
  rw [tryChangeConfiguration, Server.changeConfiguration]
  by_cases hrole : s.role ≠ .leader
  · rw [if_pos hrole, if_pos hrole]
    exact .inl ⟨rfl, _, rfl⟩
  rw [if_neg hrole, if_neg hrole]
  by_cases hmem : s.peers.contains s.id = false
  · rw [if_pos hmem, if_pos hmem]
    exact .inl ⟨rfl, _, rfl⟩
  rw [if_neg hmem, if_neg hmem]
  by_cases hidx : s.commitIndex < s.configChangeIndex
  · rw [if_pos hidx, if_pos hidx]
    exact .inl ⟨rfl, _, rfl⟩
  rw [if_neg hidx, if_neg hidx]
  cases hnext : mutate ⟨s.peers⟩ with
  | error e => exact .inl ⟨rfl, _, rfl⟩
  | ok next =>
    simp only [Except.toOption]
    by_cases hone : Configuration.differsByOne ⟨s.peers⟩ next = false
    · rw [if_pos hone, if_pos hone]
      exact .inl ⟨rfl, _, rfl⟩
    · rw [if_neg hone, if_neg hone]
      refine .inr ⟨_, rfl, ?_⟩
      cases save.err <;> rfl

/-! ## The service -/

/-- The two calls an operator can make. -/
inductive Change
  | addServer
  | removeServer
deriving DecidableEq

/-- The call that makes the change. -/
def Change.run (c : Change) (s : Server σ) (d : Disk) (save : SaveOutcome) (id : NodeID) :
    Server σ × Disk × Except ChangeError Nat :=
  match c with
  | .addServer => tryAddServer s d save id
  | .removeServer => tryRemoveServer s d save id

/-- The change gets past every check. -/
def Change.Accepted (c : Change) (s : Server σ) (id : NodeID) : Prop :=
  match c with
  | .addServer => s.MayReconfigure ∧ id ∉ s.peers
  | .removeServer => s.MayReconfigure ∧ s.peers.count id = 1 ∧ s.peers.length ≠ 1

/-- What the caller is told. -/
structure AdminReply where
  ok : Bool := false
  indeterminate : Bool := false
  notLeader : Bool := false
  leaderID : NodeID := []
  index : Nat := 0
  servers : List NodeID := []
  err : Str := []
deriving DecidableEq

/-- The change may yet commit. -/
def errConfigUnknown : Str := str "rpc: configuration change appended but commit unconfirmed"

/-- The reply to a change that was refused; `leader` is what `LeaderID` returns then. -/
def AdminReply.ofError (leader : NodeID × Bool) : ChangeError → AdminReply
  | .notLeader =>
    { notLeader := true, err := ChangeError.notLeader.text
      leaderID := if leader.2 then leader.1 else [] }
  | e => { err := e.text }

/-- The reply after the wait for the entry: the configuration found when it was applied, or none if
the time was up first. -/
def AdminReply.ofWait (idx : Nat) : Option Configuration → AdminReply
  | some cfg => { ok := true, index := idx, servers := cfg.servers }
  | none =>
    { indeterminate := true, index := idx
      err := errConfigUnknown ++ str (" (index " ++ toString idx ++
        "); read Configuration to see whether it took effect") }

/-- `AdminService.change`: the server and the storage after the call that it makes, and the
reply. -/
def AdminService.change (id : NodeID) (s : Server σ) (d : Disk)
    (mutate : NodeID → Server σ × Disk × Except ChangeError Nat) (leader : NodeID × Bool)
    (wait : Option Configuration) : Server σ × Disk × AdminReply :=
  if id = [] then (s, d, { err := str "rpc: no node id given" })
  else
    match mutate id with
    | (s', d', .error e) => (s', d', .ofError leader e)
    | (s', d', .ok idx) => (s', d', .ofWait idx wait)

/-- Nothing that a configuration change writes has changed. -/
structure Untraced (s s' : Server σ) (d d' : Disk) : Prop where
  log : s'.log = s.log
  peers : s'.peers = s.peers
  configChangeIndex : s'.configChangeIndex = s.configChangeIndex
  nextIndex : s'.nextIndex = s.nextIndex
  matchIndex : s'.matchIndex = s.matchIndex
  disk : d' = d

theorem Untraced.refl (s : Server σ) (d : Disk) : Untraced s s d d := ⟨rfl, rfl, rfl, rfl, rfl, rfl⟩

/-- A call that gets past the checks changes the log, whatever it reports; one that does not leaves
everything as it was. -/
theorem Change.run_cases (c : Change) (s : Server σ) (d : Disk) (save : SaveOutcome) (id : NodeID) :
    (¬ c.Accepted s id ∧ ∃ e, c.run s d save id = (s, d, .error e)) ∨
    (c.Accepted s id ∧ ∃ s' d', s'.log ≠ s.log ∧ c.run s d save id = (s', d',
      save.err.elim (.ok (s.log.lastIndex + 1)) fun text => .error (.storage text))) := by
  have hcase : ∀ mutate : Configuration → Except ChangeError Configuration,
      c.run s d save id = tryChangeConfiguration s d save mutate →
      ((∃ r, s.changeConfiguration (fun c => (mutate c).toOption) = some r) ↔ c.Accepted s id) →
      (¬ c.Accepted s id ∧ ∃ e, c.run s d save id = (s, d, .error e)) ∨
      (c.Accepted s id ∧ ∃ s' d', s'.log ≠ s.log ∧ c.run s d save id = (s', d',
        save.err.elim (.ok (s.log.lastIndex + 1)) fun text => .error (.storage text))) := by
    intro mutate hrun hiff
    rw [hrun]
    rcases tryChangeConfiguration_cases s d save mutate with ⟨hnone, he⟩ | ⟨s', hsome, heq⟩
    · refine .inl ⟨fun hacc => ?_, he⟩
      obtain ⟨r, hr⟩ := hiff.2 hacc
      rw [hnone] at hr
      cases hr
    · exact .inr ⟨hiff.1 ⟨_, hsome⟩, s', _, Server.log_ne_of_changeConfiguration hsome, heq⟩
  cases c with
  | addServer =>
    have hsame : (fun c => (adding id c).toOption) =
        fun c => if c.contains id then none else some (c.withServer id) := by
      funext c
      rw [adding]
      split <;> rfl
    refine hcase (adding id) rfl ?_
    rw [hsame]
    exact Server.addServer_iff
  | removeServer =>
    have hsame : (fun c => (removing id c).toOption) =
        fun c => if c.contains id = false then none
          else if c.servers.length = 1 then none else some (c.withoutServer id) := by
      funext c
      rw [removing]
      split
      · rfl
      · split <;> rfl
    refine hcase (removing id) rfl ?_
    rw [hsame]
    exact Server.removeServer_iff

/-- **A change that is refused leaves no trace** if it is refused by a check, and only then: the
calls themselves, and what the operator is told. -/
theorem refused_change_untraced_iff (c : Change) (s : Server σ) (d : Disk) (save : SaveOutcome)
    (id : NodeID) :
    ((∀ s' d' e, c.run s d save id = (s', d', .error e) → Untraced s s' d d') ↔
      save.err = none ∨ ¬ c.Accepted s id) ∧
    ∀ (leader : NodeID × Bool) (wait : Option Configuration),
      (∀ s' d' r, AdminService.change id s d (c.run s d save) leader wait = (s', d', r) →
          r.ok = false → r.indeterminate = false → Untraced s s' d d') ↔
        id = [] ∨ save.err = none ∨ ¬ c.Accepted s id := by
  have hplain : ∀ leader e, (AdminReply.ofError leader e).ok = false ∧
      (AdminReply.ofError leader e).indeterminate = false := by
    intro leader e
    cases e <;> exact ⟨rfl, rfl⟩
  have hwait : ∀ idx wait, (AdminReply.ofWait idx wait).ok = false →
      (AdminReply.ofWait idx wait).indeterminate ≠ false := by
    intro idx wait
    cases wait <;> exact nofun
  rcases c.run_cases s d save id with ⟨hno, e, hrun⟩ | ⟨hyes, s₁, d₁, hlog, hrun⟩
  · -- refused by a check
    refine ⟨iff_of_true (fun s' d' e' h => ?_) (.inr hno), fun leader wait =>
      iff_of_true (fun s' d' r h _ _ => ?_) (.inr (.inr hno))⟩
    · rw [hrun] at h
      cases h
      exact .refl s d
    · rw [AdminService.change, hrun] at h
      split at h <;> cases h <;> exact .refl s d
  · -- appended: what is reported depends on the save alone
    cases hsave : save.err with
    | none =>
      rw [hsave] at hrun
      refine ⟨iff_of_true (fun s' d' e' h => ?_) (.inl rfl), fun leader wait =>
        iff_of_true (fun s' d' r h hok hind => ?_) (.inr (.inl rfl))⟩
      · rw [hrun] at h
        cases h
      · rw [AdminService.change, hrun] at h
        split at h <;> cases h
        · exact .refl s d
        · exact absurd hind (hwait _ _ hok)
    | some text =>
      rw [hsave] at hrun
      refine ⟨iff_of_false (fun h => hlog (h _ _ _ hrun).log) (by simp [hyes]),
        fun leader wait => ?_⟩
      rw [AdminService.change, hrun]
      by_cases hid : id = []
      · rw [if_pos hid]
        refine iff_of_true (fun s' d' r h _ _ => ?_) (.inl hid)
        cases h
        exact .refl s d
      · rw [if_neg hid]
        refine iff_of_false (fun h => hlog ?_) (by simp [hid, hyes])
        exact (h _ _ _ rfl (hplain leader _).1 (hplain leader _).2).log

/-- The only server of a cluster is elected. -/
def alone : List Action :=
  [.boot [1], .timeout [1], .run [1] 0, .run [1] 0, .run [1] 0]

/-- It adds a second server and cannot save that.  The operator is told of a failure, and the leader
has the entry, the peer and the bookkeeping of it. -/
theorem failed_save_leaves_change :
    ∃ w p, Run (fun w a w' => exec (journalCluster [[1]]) w a = some w') {} alone w ∧
      (w.node [1]).proc = some p ∧ ∃ s',
        AdminService.change [2] p.server (w.node [1]).disk
            (Change.run .addServer p.server (w.node [1]).disk
              ⟨false, some (str "disk full"), nofun⟩) ([1], true) none =
          (s', (w.node [1]).disk, { err := str "disk full" }) ∧
        p.server.log.lastIndex = 1 ∧ s'.log.lastIndex = 2 ∧ p.server.peers = [[1]] ∧
        s'.peers = [[1], [2]] ∧ p.server.configChangeIndex = 0 ∧ s'.configChangeIndex = 2 ∧
        [2] ∉ p.server.nextIndex.keys ∧ [2] ∈ s'.nextIndex.keys := by
  obtain ⟨w, p, hrun, hp, hr, hrest⟩ : ∃ w p,
      Run (fun w a w' => exec (journalCluster [[1]]) w a = some w') {} alone w ∧
      (w.node [1]).proc = some p ∧
        let r := AdminService.change [2] p.server (w.node [1]).disk
          (Change.run .addServer p.server (w.node [1]).disk
            ⟨false, some (str "disk full"), nofun⟩) ([1], true) none
        r.2 = ((w.node [1]).disk, { err := str "disk full" }) ∧
        p.server.log.lastIndex = 1 ∧ r.1.log.lastIndex = 2 ∧ p.server.peers = [[1]] ∧
        r.1.peers = [[1], [2]] ∧ p.server.configChangeIndex = 0 ∧ r.1.configChangeIndex = 2 ∧
        [2] ∉ p.server.nextIndex.keys ∧ [2] ∈ r.1.nextIndex.keys :=
    exists_run_some (by decide +kernel)
  exact ⟨w, p, hrun, hp, _, Prod.ext rfl hr, hrest⟩

end CoreBank.Rpc
