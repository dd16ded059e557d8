import CoreBank.Ledger.Keys
import CoreBank.Rpc.Client

/-!
# What a reply to Submit means

Does `OK=true` mean that the request was executed, exactly once and with that result, and a plain
`OK=false` that it was not?  Not if a key is used for different requests: the machine overwrites the
slot of a key with every entry, the handler reads the slot by key alone, and a call can come back
with the result of somebody else's request.

`OneRequest` asks that the entries of a key are for one request, whose strings fit the encoding, and
that the early lookup, which compares fingerprints, tells other requests from it.  The ledger then
answers every entry of a key with the result of its one execution (`Ledgered`), and the contract
holds in every state a call can find itself in.  A reuse of a key that the lookup refuses does no
harm.
-/

set_option autoImplicit false

namespace CoreBank.Rpc

open Ledger Wire ActionSystem

/-- The command fits the encoding, and is for the request of all others under its key. -/
def Agrees (logged : List Command) (cmd : Command) : Prop :=
  cmd.Short ∧ ∀ c ∈ logged, c.idempotencyKey = cmd.idempotencyKey → c.SameRequest cmd

instance (logged : List Command) (cmd : Command) : Decidable (Agrees logged cmd) :=
  inferInstanceAs (Decidable (_ ∧ _))

/-- The command of a call that has not returned. -/
def Stage.command : Stage → Option Command
  | .lookup cmd | .propose cmd | .waiting cmd _ => some cmd
  | .returned _ => none

/-- A command is appended only if it agrees with all that were in the log before, and looked up only
if no other request with its key and its fingerprint was executed. -/
def OneRequest (w : World) : Action → Prop
  | .lookup pid =>
    ∀ c ∈ w.calls[pid]?, ∀ cmd ∈ c.stage.command, ∀ x ∈ w.executed,
      x.1.idempotencyKey = cmd.idempotencyKey → x.1.fingerprint = cmd.fingerprint →
      x.1.SameRequest cmd
  | .propose pid true _ =>
    ∀ c ∈ w.calls[pid]?, ∀ cmd ∈ c.stage.command, Agrees w.logged cmd
  | .overwrite _ entries =>
    ∀ cmd ∈ entries.filterMap id, Agrees (w.logged ++ entries.filterMap id) cmd
  | _ => True

instance (w : World) (a : Action) : Decidable (OneRequest w a) := by
  unfold OneRequest
  split <;> infer_instance

/-! ## The ledger -/

/-- A client key that the ledger accepts. -/
def ValidKey (key : Str) : Prop := key ≠ [] ∧ ¬ internalKeyPrefix.isPrefixOf key

/-- The result is that of the one execution under the key, or the refusal of an invalid key. -/
def Answer (executed : List (Command × Result)) (key : Str) (r : Result) : Prop :=
  (∃ c, (c, r) ∈ executed ∧ c.idempotencyKey = key) ∨ (r.ok = false ∧ ¬ ValidKey key)

/-- The same for a request: what was executed under the key was that request. -/
def Answered (executed : List (Command × Result)) (cmd : Command) (r : Result) : Prop :=
  (∃ c, (c, r) ∈ executed ∧ c.SameRequest cmd) ∨ (r.ok = false ∧ ¬ ValidKey cmd.idempotencyKey)

/-- The ledger remembers what it executed, and the machine repeats it. -/
structure Ledgered (logged : List Command) (executed : List (Command × Result)) (m : Machine) :
    Prop where
  wanted : ∀ x ∈ executed, x.1 ∈ logged
  valid : ∀ x ∈ executed, ValidKey x.1.idempotencyKey
  /-- No key is executed twice. -/
  distinct : (executed.map fun x => x.1.idempotencyKey).Nodup
  remembered : ∀ x ∈ executed, m.state.applied.lookup x.1.idempotencyKey = some x.2
    ∧ m.state.fingerprints.lookup x.1.idempotencyKey = some x.1.fingerprint
  sourced : ∀ key r, m.state.applied.lookup key = some r →
    ∃ c, (c, r) ∈ executed ∧ c.idempotencyKey = key
  results : ∀ key r, m.results.lookup key = some r → Answer executed key r
  /-- The slot of a key has the fingerprint of its request. -/
  tagged : ∀ x ∈ executed, m.fingerprints.lookup x.1.idempotencyKey = some x.1.fingerprint

variable {executed : List (Command × Result)} {r : Result}

theorem Answer.mono {executed' : List (Command × Result)} (hsub : ∀ x ∈ executed, x ∈ executed')
    {key : Str} (h : Answer executed key r) :
    Answer executed' key r := by
  rcases h with ⟨c, hc, hk⟩ | h
  · exact .inl ⟨c, hsub _ hc, hk⟩
  · exact .inr h

variable {cmd : Command}

theorem Answered.mono {executed' : List (Command × Result)} (hsub : ∀ x ∈ executed, x ∈ executed')
    (h : Answered executed cmd r) : Answered executed' cmd r := by
  rcases h with ⟨c, hc, hs⟩ | h
  · exact .inl ⟨c, hsub _ hc, hs⟩
  · exact .inr h

theorem Answer.answered (h : Answer executed cmd.idempotencyKey r)
    (hsame : ∀ c, (c, r) ∈ executed → c.idempotencyKey = cmd.idempotencyKey → c.SameRequest cmd) :
    Answered executed cmd r := by
  rcases h with ⟨c, hc, hk⟩ | h
  · exact .inl ⟨c, hc, hsame c hc hk⟩
  · exact .inr h

section Ledgered

variable {logged : List Command} {executed : List (Command × Result)} {m : Machine}

theorem Ledgered.unique (h : Ledgered logged executed m) {x y : Command × Result}
    (hx : x ∈ executed) (hy : y ∈ executed)
    (hk : x.1.idempotencyKey = y.1.idempotencyKey) : x = y :=
  List.inj_on_of_nodup_map h.distinct hx hy hk

theorem Ledgered.mono_logged (h : Ledgered logged executed m) {logged' : List Command}
    (hsub : ∀ c ∈ logged, c ∈ logged') : Ledgered logged' executed m :=
  { h with wanted := fun x hx => hsub _ (h.wanted x hx) }

/-- A command that is carried out, and what the ledger remembers of it. -/
theorem apply_of_carriesOut {s : State} {c : Command} (h : carriesOut s c) :
    s.apply c = ({ (s.applyLocked c).1 with
        applied := (s.applyLocked c).1.applied.insert c.idempotencyKey (s.applyLocked c).2
        fingerprints := (s.applyLocked c).1.fingerprints.insert c.idempotencyKey c.fingerprint },
      (s.applyLocked c).2) := by
  rw [State.apply, if_neg h.1, if_neg h.2.1, h.2.2]

/-- A command that is not carried out leaves the ledger alone, and is answered like the request its
key stands for. -/
theorem Ledgered.apply_of_not_carriesOut (h : Ledgered logged executed m)
    (hsame : ∀ c ∈ logged, ∀ d ∈ logged, c.idempotencyKey = d.idempotencyKey → c.SameRequest d)
    {c : Command} (hc : c ∈ logged) (hno : ¬ carriesOut m.state c) :
    (m.state.apply c).1 = m.state ∧ Answer executed c.idempotencyKey (m.state.apply c).2 := by
  rw [State.apply]
  split
  next hkey => exact ⟨rfl, .inr ⟨rfl, fun hv => hv.1 hkey⟩⟩
  next hkey =>
    split
    next hpre => exact ⟨rfl, .inr ⟨rfl, fun hv => hv.2 hpre⟩⟩
    next hpre =>
      cases happ : m.state.applied.lookup c.idempotencyKey with
      | none => exact absurd ⟨hkey, hpre, happ⟩ hno
      | some prev =>
        -- the key was used before, for the same request
        obtain ⟨d, hd, hdk⟩ := h.sourced _ prev happ
        have hfp := (h.remembered _ hd).2
        have hreq := fingerprint_congr (hsame d (h.wanted _ hd) c hc hdk)
        dsimp only at hfp ⊢
        rw [← hdk, hfp, Option.getD_some, hreq, if_neg (not_not.2 rfl)]
        exact ⟨rfl, .inl ⟨d, hd, rfl⟩⟩

theorem Ledgered.answer_insert {results : Map Str Result}
    (h : ∀ key r, results.lookup key = some r → Answer executed key r) {key : Str}
    (hr : Answer executed key r) :
    ∀ key' r', (results.insert key r).lookup key' = some r' → Answer executed key' r' := by
  intro key' r' hr'
  by_cases hk : key' = key
  · subst hk
    rw [AList.lookup_insert, Option.some.injEq] at hr'
    exact hr' ▸ hr
  · rw [AList.lookup_insert_ne hk] at hr'
    exact h key' r' hr'

/-- **One entry.** -/
theorem Ledgered.apply (h : Ledgered logged executed m)
    (hsame : ∀ c ∈ logged, ∀ d ∈ logged, c.idempotencyKey = d.idempotencyKey → c.SameRequest d)
    {data : Bytes} {c : Command} (hdec : decode data = .ok c) (hc : c ∈ logged) :
    Ledgered logged (executed ++ executes m data) (m.apply data).1 := by
  rw [Machine.apply, executes, hdec]
  dsimp only
  split
  next hcar =>
    obtain ⟨happlied, hfingerprints⟩ := applied_applyLocked m.state c
    have hold (x : Command × Result) (hx : x ∈ executed) :
        x.1.idempotencyKey ≠ c.idempotencyKey := by
      intro hk
      have hrem := (h.remembered x hx).1
      rw [hk, hcar.2.2] at hrem
      cases hrem
    rw [apply_of_carriesOut hcar, happlied, hfingerprints]
    refine ⟨?_, ?_, ?_, ?_, ?_, ?_, ?_⟩
    · intro x hx
      rcases List.mem_append.1 hx with hx | hx
      · exact h.wanted x hx
      · rwa [List.mem_singleton.1 hx]
    · intro x hx
      rcases List.mem_append.1 hx with hx | hx
      · exact h.valid x hx
      · rw [List.mem_singleton.1 hx]
        exact ⟨hcar.1, hcar.2.1⟩
    · rw [List.map_append, List.nodup_append]
      refine ⟨h.distinct, List.nodup_singleton _, ?_⟩
      intro k hk k' hk'
      obtain ⟨x, hx, rfl⟩ := List.mem_map.1 hk
      rw [List.mem_singleton.1 hk']
      exact hold x hx
    · intro x hx
      rcases List.mem_append.1 hx with hx | hx
      · rw [AList.lookup_insert_ne (hold x hx), AList.lookup_insert_ne (hold x hx)]
        exact h.remembered x hx
      · rw [List.mem_singleton.1 hx, AList.lookup_insert, AList.lookup_insert]
        exact ⟨rfl, rfl⟩
    · intro key r hr
      by_cases hk : key = c.idempotencyKey
      · subst hk
        rw [AList.lookup_insert, Option.some.injEq] at hr
        exact ⟨c, List.mem_append_right _ (hr ▸ List.mem_singleton_self _), rfl⟩
      · rw [AList.lookup_insert_ne hk] at hr
        obtain ⟨d, hd, hdk⟩ := h.sourced key r hr
        exact ⟨d, List.mem_append_left _ hd, hdk⟩
    · refine Ledgered.answer_insert (fun key r hr => ?_)
        (.inl ⟨c, List.mem_append_right _ (List.mem_singleton_self _), rfl⟩)
      exact (h.results key r hr).mono fun x hx => List.mem_append_left _ hx
    · intro x hx
      rcases List.mem_append.1 hx with hx | hx
      · rw [AList.lookup_insert_ne (hold x hx)]
        exact h.tagged x hx
      · rw [List.mem_singleton.1 hx, AList.lookup_insert]
  next hcar =>
    obtain ⟨hst, hans⟩ := h.apply_of_not_carriesOut hsame hc hcar
    rw [List.append_nil, hst]
    refine { h with results := Ledgered.answer_insert h.results hans, tagged := fun x hx => ?_ }
    dsimp only
    by_cases hk : x.1.idempotencyKey = c.idempotencyKey
    · rw [hk, AList.lookup_insert, fingerprint_congr (hsame _ (h.wanted x hx) c hc hk)]
    · rw [AList.lookup_insert_ne hk]
      exact h.tagged x hx

end Ledgered

/-! ## Calls -/

variable {c : Call}

section Calls

variable (svc : Service)

/-- The reply took no notice of anything but the outcome. -/
def TxReply.Plain (r : TxReply) : Prop :=
  r.indeterminate = false ∧ r.notLeader = false ∧ r.busy = false ∧ r.conflict = false

/-- What a call knows of its request. -/
def CallInv (logged : List Command) (executed : List (Command × Result)) (c : Call) : Prop :=
  match c.stage with
  | .lookup cmd | .propose cmd => toCommand svc c.args = .ok cmd
  | .waiting cmd _ => toCommand svc c.args = .ok cmd ∧ cmd ∈ logged
  | .returned reply =>
    (reply.ok = true ∨ reply.Plain) →
      (∃ cmd, toCommand svc c.args = .ok cmd ∧
        Answered executed cmd ⟨reply.ok, reply.err, reply.balance⟩) ∨
      (reply.ok = false ∧ c.index = none ∧
        (reply.unauthenticated = true ∨ ∃ e, toCommand svc c.args = .error e))

variable {svc} {logged logged' : List Command} {executed executed' : List (Command × Result)}

theorem CallInv.mono (ha : ∀ x ∈ logged, x ∈ logged') (he : ∀ x ∈ executed, x ∈ executed')
    (h : CallInv svc logged executed c) :
    CallInv svc logged' executed' c := by
  unfold CallInv at h ⊢
  split at h
  · exact h
  · exact h
  · exact ⟨h.1, ha _ h.2⟩
  · intro hr
    refine (h hr).imp_left ?_
    rintro ⟨cmd, hcmd, hans⟩
    exact ⟨cmd, hcmd, hans.mono he⟩

theorem CallInv.ofResult (hcmd : toCommand svc c.args = .ok cmd) (hr : Answered executed cmd r) :
    CallInv svc logged executed { c with stage := .returned (.ofResult r) } :=
  fun _ => .inl ⟨cmd, hcmd, hr⟩

theorem CallInv.flagged {reply : TxReply} (hstage : c.stage = .returned reply)
    (hok : reply.ok = false) (hflag : ¬ reply.Plain) : CallInv svc logged executed c := by
  unfold CallInv
  rw [hstage]
  rintro (h | h)
  · rw [hok] at h
    cases h
  · exact absurd h hflag

theorem CallInv.admission (args : TxArgs) (rej : Option Rejection) :
    CallInv svc logged executed { args := args, stage := admission svc args rej } := by
  unfold Rpc.admission
  split
  · split
    · exact CallInv.flagged rfl rfl fun h => by simp [TxReply.Plain] at h
    · cases hcmd : toCommand svc args with
      | error e => exact fun _ => .inr ⟨rfl, rfl, .inr ⟨e, hcmd⟩⟩
      | ok cmd => exact hcmd
  · exact fun _ => .inr ⟨rfl, rfl, .inl rfl⟩

end Calls

/-! ## Runs -/

/-- What holds in every reachable world. -/
structure Inv (svc : Service) (w : World) : Prop where
  short : ∀ c ∈ w.logged, c.Short
  same : ∀ c ∈ w.logged, ∀ d ∈ w.logged, c.idempotencyKey = d.idempotencyKey → c.SameRequest d
  entries : ∀ data, some data ∈ w.log → ∃ c ∈ w.logged, data = c.encode
  ledger : Ledgered w.logged w.executed w.machine
  calls : ∀ c ∈ w.calls, CallInv svc w.logged w.executed c

variable {svc : Service} {w w' : World}

theorem inv_init (svc : Service) : Inv svc {} where
  short _ h := by cases h
  same _ h := by cases h
  entries _ h := by cases h
  ledger :=
    { wanted := fun _ h => by cases h
      valid := fun _ h => by cases h
      distinct := List.nodup_nil
      remembered := fun _ h => by cases h
      sourced := fun _ _ h => by cases h
      results := fun _ _ h => by cases h
      tagged := fun _ h => by cases h }
  calls _ h := by cases h

section Inv

variable (h : Inv svc w)

include h

theorem Inv.setCall {pid : Nat} (hc : CallInv svc w.logged w.executed c) :
    Inv svc (w.setCall pid c) where
  short := h.short
  same := h.same
  entries := h.entries
  ledger := h.ledger
  calls d hd := by
    rcases List.mem_or_eq_of_mem_set hd with hd | rfl
    · exact h.calls d hd
    · exact hc

theorem Inv.applyNext (hs : w.applyNext = some w') : Inv svc w' := by
  rw [World.applyNext] at hs
  split at hs
  · cases hs
  · cases hs
    exact { h with }
  next data hdata =>
    cases hs
    obtain ⟨c, hc, rfl⟩ := h.entries data (List.mem_of_getElem? hdata)
    exact { h with
      ledger := h.ledger.apply h.same (decode_encode (h.short c hc)) hc
      calls := fun d hd => (h.calls d hd).mono (fun _ hx => hx)
        fun _ hx => List.mem_append_left _ hx }

theorem Inv.log (new : List Command) (hnew : ∀ c ∈ new, Agrees (w.logged ++ new) c)
    {log : List (Option Bytes)}
    (hlog : ∀ data, some data ∈ log → some data ∈ w.log ∨ ∃ c ∈ new, data = c.encode) :
    Inv svc { w with log := log, logged := w.logged ++ new } where
  short c hc := by
    rcases List.mem_append.1 hc with hc | hc
    · exact h.short c hc
    · exact (hnew c hc).1
  same c hc d hd hk := by
    rcases List.mem_append.1 hd with hd' | hd'
    · rcases List.mem_append.1 hc with hc' | hc'
      · exact h.same c hc' d hd' hk
      · exact ((hnew c hc').2 d hd hk.symm).symm
    · exact (hnew d hd').2 c hc hk
  entries data hd := by
    rcases hlog data hd with hd | ⟨c, hc, rfl⟩
    · obtain ⟨c, hc, rfl⟩ := h.entries data hd
      exact ⟨c, List.mem_append_left _ hc, rfl⟩
    · exact ⟨c, List.mem_append_right _ hc, rfl⟩
  ledger := h.ledger.mono_logged fun _ hx => List.mem_append_left _ hx
  calls c hc := (h.calls c hc).mono (fun _ hx => List.mem_append_left _ hx) fun _ hx => hx

/-- The early lookup answers from the slot of the key only if that has the fingerprint of the
request. -/
theorem Inv.answered_of_resultFor
    (hone : ∀ x ∈ w.executed, x.1.idempotencyKey = cmd.idempotencyKey →
      x.1.fingerprint = cmd.fingerprint → x.1.SameRequest cmd)
    (hres : w.machine.resultFor cmd = .ok (some r)) : Answered w.executed cmd r := by
  rw [Machine.resultFor] at hres
  split at hres
  · cases hres
  next r' hr' =>
    split at hres
    · cases hres
    next hfp =>
      cases hres
      refine (h.ledger.results _ _ hr').answered fun c hc hk => hone _ hc hk ?_
      rw [not_not, ← hk, h.ledger.tagged _ hc, Option.getD_some] at hfp
      exact hfp

theorem Inv.callStep {pid : Nat} {a : Action} (hget : w.calls[pid]? = some c)
    (hpid : a.pid? = some pid) (hone : OneRequest w a) (hs : callStep w pid c a = some w') :
    Inv svc w' := by
  have hc := h.calls c (List.mem_of_getElem? hget)
  unfold Rpc.callStep at hs
  unfold CallInv at hc
  split at hs
  · -- lookup
    cases hpid
    split at hs
    next cmd hstage =>
      rw [hstage] at hc
      cases hs
      refine h.setCall ?_
      cases hres : w.machine.resultFor cmd with
      | error e => exact CallInv.flagged rfl rfl fun hp => by simp [TxReply.Plain] at hp
      | ok o =>
        cases o with
        | none => exact hc
        | some r =>
          exact CallInv.ofResult hc
            (h.answered_of_resultFor (hone c hget cmd (by rw [hstage]; rfl)) hres)
    · cases hs
  · -- propose
    cases hpid
    split at hs
    next cmd hstage =>
      rw [hstage] at hc
      split at hs
      next hlead =>
        cases hs
        subst hlead
        have hagrees : Agrees w.logged cmd := hone c hget cmd (by rw [hstage]; rfl)
        refine Inv.setCall (h.log [cmd] (fun d hd => ?_) fun data hd => ?_)
          ⟨hc, List.mem_append_right _ (List.mem_singleton_self cmd)⟩
        · obtain rfl := List.mem_singleton.1 hd
          refine ⟨hagrees.1, fun x hx hk => ?_⟩
          rcases List.mem_append.1 hx with hx | hx
          · exact hagrees.2 x hx hk
          · rw [List.mem_singleton.1 hx]
            exact .refl d
        · rcases List.mem_append.1 hd with hd | hd
          · exact .inl hd
          · exact .inr ⟨cmd, List.mem_singleton_self cmd, Option.some.inj (List.mem_singleton.1 hd)⟩
      · cases hs
        exact h.setCall (CallInv.flagged rfl rfl fun hp => by simp [TxReply.Plain] at hp)
    · cases hs
  · -- wake
    split at hs
    next cmd index hstage =>
      rw [hstage] at hc
      obtain ⟨hcmd, hmem⟩ := hc
      split at hs
      · cases hs
        refine h.setCall ?_
        cases hres : w.machine.result cmd.idempotencyKey with
        | none => exact CallInv.flagged rfl rfl fun hp => by simp [TxReply.Plain] at hp
        | some r =>
          exact CallInv.ofResult hcmd ((h.ledger.results _ r hres).answered
            fun c hc hk => h.same c (h.ledger.wanted _ hc) cmd hmem hk)
      · cases hs
    · cases hs
  · -- tick
    split at hs
    · cases hs
      exact h.setCall (CallInv.flagged rfl rfl fun hp => by simp [TxReply.Plain] at hp)
    · cases hs
  · -- deadline
    split at hs
    · cases hs
      exact h.setCall (CallInv.flagged rfl rfl fun hp => by simp [TxReply.Plain] at hp)
    · cases hs
  · cases hs

/-- **Every step.** -/
theorem Inv.step {a : Action} (hs : exec svc w a = some w') (hone : OneRequest w a) :
    Inv svc w' := by
  have hcall {pid : Nat} (hpid : a.pid? = some pid) : Inv svc w' := by
    unfold exec at hs
    rw [hpid] at hs
    dsimp only at hs
    split at hs
    next c hc => exact h.callStep hc hpid hone hs
    · cases hs
  cases a with
  | submit args rej =>
    cases hs
    refine { h with calls := fun c hc => ?_ }
    rcases List.mem_append.1 hc with hc | hc
    · exact h.calls c hc
    · rw [List.mem_singleton.1 hc]
      exact CallInv.admission args rej
  | apply => exact h.applyNext hs
  | overwrite keep entries =>
    unfold exec at hs
    dsimp only [Action.pid?] at hs
    split at hs
    · cases hs
      refine h.log _ hone fun data hd => ?_
      rcases List.mem_append.1 hd with hd | hd
      · exact .inl (List.mem_of_mem_take hd)
      · obtain ⟨o, ho, hoe⟩ := List.mem_map.1 hd
        obtain ⟨c, rfl, hce⟩ := Option.map_eq_some_iff.1 hoe
        exact .inr ⟨c, List.mem_filterMap.2 ⟨some c, ho, rfl⟩, hce.symm⟩
    · cases hs
  | lookup pid | propose pid | wake pid | tick pid | deadline pid => exact hcall rfl

/-! ## The contract -/

/-- The request was executed once, and this was the result. -/
def ExecutedOnce (w : World) (cmd : Command) (r : Result) : Prop :=
  ∃ c, c.SameRequest cmd ∧ w.executed.filter (fun x => x.1.SameRequest cmd) = [(c, r)]

/-- The request was not executed with success. -/
def NoEffect (w : World) (cmd : Command) : Prop :=
  ∀ x ∈ w.executed, x.1.SameRequest cmd → x.2.ok = false

/-- An answer for the key of a request is about its one execution. -/
theorem Inv.executedOnce (hr : Answered w.executed cmd r) (hok : r.ok = true) :
    ExecutedOnce w cmd r := by
  rcases hr with ⟨c, hc, hsame⟩ | ⟨hno, -⟩
  · refine ⟨c, hsame, ?_⟩
    have honly (x : Command × Result) (hx : x ∈ w.executed.filter fun x => x.1.SameRequest cmd) :
        x = (c, r) := by
      obtain ⟨hx, hxs⟩ := List.mem_filter.1 hx
      exact h.ledger.unique hx hc ((of_decide_eq_true hxs).2.1.trans hsame.2.1.symm)
    have hnodup : (w.executed.filter fun x => x.1.SameRequest cmd).Nodup :=
      (List.Nodup.of_map _ h.ledger.distinct).filter _
    have hin : (c, r) ∈ w.executed.filter fun x => x.1.SameRequest cmd :=
      List.mem_filter.2 ⟨hc, decide_eq_true hsame⟩
    refine List.perm_singleton.1 ((List.perm_ext_iff_of_nodup hnodup (List.nodup_singleton _)).2 ?_)
    intro x
    rw [List.mem_singleton]
    exact ⟨honly x, fun hx => hx ▸ hin⟩
  · rw [hok] at hno
    cases hno

theorem Inv.noEffect (hr : Answered w.executed cmd r) (hok : r.ok = false) : NoEffect w cmd := by
  intro x hx hsame
  rcases hr with ⟨c, hc, hcs⟩ | ⟨-, hinvalid⟩
  · have heq := h.ledger.unique hx hc (hsame.2.1.trans hcs.2.1.symm)
    rw [heq]
    exact hok
  · exact absurd (hsame.2.1 ▸ h.ledger.valid x hx) hinvalid

end Inv

/-- **The client contract.**  In every run in which a key is logged for one request, a call that
came back with `OK=true` was executed once, with the result it reports, and a call that came back
with `OK=false` and no flag had no effect: its request was not executed with success, or never got
past the checks. -/
theorem submit_contract (svc : Service) {as : List Action} {w : World}
    (hrun : Run (fun w a w' => exec svc w a = some w' ∧ OneRequest w a) {} as w) (c : Call)
    (hc : c ∈ w.calls) (reply : TxReply) (hstage : c.stage = .returned reply) :
    (reply.ok = true → ∃ cmd, toCommand svc c.args = .ok cmd
        ∧ ExecutedOnce w cmd ⟨true, reply.err, reply.balance⟩) ∧
      (reply.ok = false → reply.Plain →
        (∃ cmd, toCommand svc c.args = .ok cmd ∧ NoEffect w cmd) ∨
          (c.index = none ∧
            (reply.unauthenticated = true ∨ ∃ e, toCommand svc c.args = .error e))) := by
  have hinv : Inv svc w := hrun.invariant (fun _ _ _ hs hi => hi.step hs.1 hs.2) (inv_init svc)
  have hcall := hinv.calls c hc
  unfold CallInv at hcall
  rw [hstage] at hcall
  refine ⟨fun hok => ?_, fun hok hplain => ?_⟩
  · rcases hcall (.inl hok) with ⟨cmd, hcmd, hans⟩ | ⟨hno, -⟩
    · rw [hok] at hans
      exact ⟨cmd, hcmd, hinv.executedOnce hans rfl⟩
    · rw [hok] at hno
      cases hno
  · rcases hcall (.inr hplain) with ⟨cmd, hcmd, hans⟩ | ⟨-, hchecked⟩
    · exact .inl ⟨cmd, hcmd, hinv.noEffect hans hok⟩
    · exact .inr hchecked

/-! ## A schedule

Two requests under one key, one of them sent twice.  All three are in the log before the first is
applied. -/

namespace Schedule

/-- A service that asks for no token. -/
def open_ : Service := { quote := fun s => str "\"" ++ s ++ str "\"" }

/-- The one key. -/
def key : Str := str "k"

/-- Opens alice. -/
def openAlice : TxArgs :=
  { op := str "open", idempotencyKey := key, fromAcc := [], toAcc := str "alice", amount := 100 }

/-- Opens bob under the same key. -/
def openBob : TxArgs :=
  { op := str "open", idempotencyKey := key, fromAcc := [], toAcc := str "bob", amount := 50 }

/-- The command of a request to open an account. -/
def opens (args : TxArgs) : Command :=
  { op := .openAccount, idempotencyKey := args.idempotencyKey, fromAcc := args.fromAcc,
    toAcc := args.toAcc, amount := args.amount, timestamp := .zero }

/-- A call up to the point where it waits for its entry. -/
def enter (args : TxArgs) (pid : Nat) : List Action :=
  [.submit args none, .lookup pid, .propose pid true []]

/-- The first call for alice reads the slot after bob's entry, bob's call after the second one for
alice. -/
def mixed : List Action :=
  enter openAlice 0 ++ enter openBob 1 ++ enter openAlice 2
    ++ [.apply, .apply, .wake 0, .apply, .wake 1]

/-- The call with its reply, if it has returned. -/
def replyOf (w : World) (pid : Nat) : Option (TxArgs × TxReply) :=
  w.calls[pid]?.bind fun c =>
    match c.stage with
    | .returned reply => some (c.args, reply)
    | _ => none

theorem exists_call {w : World} {pid : Nat} {args : TxArgs} {reply : TxReply}
    (h : replyOf w pid = some (args, reply)) :
    ∃ c ∈ w.calls, c.args = args ∧ c.stage = .returned reply := by
  obtain ⟨c, hc, hr⟩ := Option.bind_eq_some_iff.1 h
  refine ⟨c, List.mem_of_getElem? hc, ?_⟩
  split at hr
  next reply' hst =>
    obtain ⟨rfl, rfl⟩ := Prod.mk.inj (Option.some.inj hr)
    exact ⟨rfl, hst⟩
  · cases hr

end Schedule

open Schedule in
/-- Bob's account is never opened, and the call for it comes back with success; alice's is, and the
call for it comes back with a plain failure. -/
theorem slot_of_key_forged : ∃ as w, Run (fun w a w' => exec open_ w a = some w') {} as w ∧
    (∃ c ∈ w.calls, ∃ reply cmd, c.stage = .returned reply ∧ reply.ok = true
      ∧ toCommand open_ c.args = .ok cmd ∧ ∀ x ∈ w.executed, ¬ x.1.SameRequest cmd) ∧
    ∃ c ∈ w.calls, ∃ reply cmd, c.stage = .returned reply ∧ reply.ok = false
      ∧ (reply.indeterminate = false ∧ reply.notLeader = false ∧ reply.busy = false
        ∧ reply.conflict = false)
      ∧ toCommand open_ c.args = .ok cmd ∧ ∃ x ∈ w.executed, x.1.SameRequest cmd
        ∧ x.2.ok = true := by
  obtain ⟨w, hrun, halice, hbob, hex⟩ : ∃ w,
      Run (fun w a w' => exec open_ w a = some w') {} mixed w ∧
      replyOf w 0 = some (openAlice, { err := errIdempotencyConflict }) ∧
      replyOf w 1 = some (openBob, { ok := true, balance := 100 }) ∧
      w.executed = [(opens openAlice, { ok := true, balance := 100 })] :=
    exists_run (by decide +kernel)
  obtain ⟨c, hc, hca, hcs⟩ := exists_call halice
  obtain ⟨d, hd, hda, hds⟩ := exists_call hbob
  refine ⟨_, w, hrun, ⟨d, hd, _, opens openBob, hds, rfl, ?_, ?_⟩,
    ⟨c, hc, _, opens openAlice, hcs, rfl, ⟨rfl, rfl, rfl, rfl⟩, ?_, ?_⟩⟩
  · rw [hda]
    decide +kernel
  · rw [hex]
    decide +kernel
  · rw [hca]
    decide +kernel
  · rw [hex]
    exact ⟨_, List.mem_singleton_self _, .refl _, rfl⟩

open Schedule in
/-- One request, sent twice: both calls report its one execution. -/
theorem submit_contract_repeated : ∃ w c, Run (fun w a w' => exec open_ w a = some w'
      ∧ OneRequest w a) {}
      (enter openAlice 0 ++ enter openAlice 1 ++ [.apply, .apply, .wake 0, .wake 1]) w
      ∧ c ∈ w.calls ∧ ∃ reply cmd, c.stage = .returned reply ∧ reply.ok = true
      ∧ toCommand open_ c.args = .ok cmd ∧ ExecutedOnce w cmd ⟨true, reply.err, reply.balance⟩ := by
  obtain ⟨w, hrun, hreply⟩ : ∃ w,
      Run (fun w a w' => exec open_ w a = some w' ∧ OneRequest w a) {}
        (enter openAlice 0 ++ enter openAlice 1 ++ [.apply, .apply, .wake 0, .wake 1]) w ∧
      replyOf w 1 = some (openAlice, { ok := true, balance := 100 }) :=
    exists_run_guarded (by decide +kernel)
  obtain ⟨c, hc, -, hcs⟩ := exists_call hreply
  obtain ⟨cmd, hcmd, honce⟩ := (submit_contract open_ hrun c hc _ hcs).1 rfl
  exact ⟨w, c, hrun, hc, _, cmd, hcs, rfl, hcmd, honce⟩

end CoreBank.Rpc
