import CoreBank.Shard.Atomicity
import CoreBank.Shard.Promises

/-!
# The two legs of a transfer

Do the debit and the credit booked for a transaction belong together?  A prepare that meets a
prepared record answers YES from the stored phase, without looking at the command; so a call can
count a vote that was given for another request, and commit the two together.

Every leg goes back to a prepare of its shard (`Legs`).  `Unmixed` asks that prepares of different
requests under one id meet only where one of the two shards has refused or aborted the transaction,
which it then never books.
-/

set_option autoImplicit false

namespace CoreBank.Shard

open Ledger Hlc ActionSystem

/-! ## Where a leg comes from -/

/-- Whatever a machine holds or has booked for a transaction goes back to a command it was asked to
prepare, as told by `src`. -/
structure Legs (src : TxID → Bool → Ledger.Command → Prop) (m : Machine) : Prop where
  prepared : ∀ id r, m.txs.lookup id = some r → r.phase = .prepared → src id r.debit r.cmd
  /-- A record that no prepare made is the coordinator's, which is the debit side. -/
  unprepared : ∀ id r, m.txs.lookup id = some r → r.phase = .none → r.debit = true
  reserved : ∀ id rv, m.state.reserves.lookup id = some rv →
    ∃ cmd, src id true cmd ∧ rv.account = cmd.fromAcc ∧ rv.amount = cmd.amount
  debit : ∀ id, ∀ t ∈ m.state.history, t.idempotencyKey = internalKey id (str "debit") →
    ∃ cmd, src id true cmd ∧ t.entries = [⟨cmd.fromAcc, -cmd.amount⟩]
  credit : ∀ id, ∀ t ∈ m.state.history, t.idempotencyKey = internalKey id (str "credit") →
    ∃ cmd, src id false cmd ∧ t.entries = [⟨cmd.toAcc, cmd.amount⟩]

variable {src : TxID → Bool → Ledger.Command → Prop} {m : Machine}

theorem legs_empty (src : TxID → Bool → Ledger.Command → Prop) : Legs src {} where
  prepared _ _ h := by cases h
  unprepared _ _ h := by cases h
  reserved _ _ h := by cases h
  debit _ _ h := by cases h
  credit _ _ h := by cases h

theorem Legs.mono {src' : TxID → Bool → Ledger.Command → Prop}
    (hsub : ∀ id debit cmd, src id debit cmd → src' id debit cmd) (h : Legs src m) :
    Legs src' m where
  prepared id r hr hp := hsub _ _ _ (h.prepared id r hr hp)
  unprepared := h.unprepared
  reserved id rv hr := (h.reserved id rv hr).imp fun _ hc => ⟨hsub _ _ _ hc.1, hc.2⟩
  debit id t ht hk := (h.debit id t ht hk).imp fun _ hc => ⟨hsub _ _ _ hc.1, hc.2⟩
  credit id t ht hk := (h.credit id t ht hk).imp fun _ hc => ⟨hsub _ _ _ hc.1, hc.2⟩

variable {id : TxID}

theorem Legs.insertTx (h : Legs src m) {r : TxRecord}
    (hp : r.phase = .prepared → src id r.debit r.cmd) (hn : r.phase = .none → r.debit = true) :
    Legs src { m with txs := m.txs.insert id r } where
  prepared id' r' hr' hph := by
    by_cases hid : id' = id
    · subst hid
      rw [AList.lookup_insert, Option.some.injEq] at hr'
      subst hr'
      exact hp hph
    · rw [AList.lookup_insert_ne hid] at hr'
      exact h.prepared id' r' hr' hph
  unprepared id' r' hr' hph := by
    by_cases hid : id' = id
    · subst hid
      rw [AList.lookup_insert, Option.some.injEq] at hr'
      subst hr'
      exact hn hph
    · rw [AList.lookup_insert_ne hid] at hr'
      exact h.unprepared id' r' hr' hph
  reserved := h.reserved
  debit := h.debit
  credit := h.credit

/-- The ledger changes, but holds and books nothing new for a transaction. -/
theorem Legs.of_state (h : Legs src m) {st : Ledger.State}
    (hr : ∀ id rv, st.reserves.lookup id = some rv → m.state.reserves.lookup id = some rv)
    (hh : ∀ t ∈ st.history, t ∈ m.state.history ∨
      ¬ internalKeyPrefix.isPrefixOf t.idempotencyKey) : Legs src { m with state := st } where
  prepared := h.prepared
  unprepared := h.unprepared
  reserved id rv hrv := h.reserved id rv (hr id rv hrv)
  debit id t ht hk := by
    rcases hh t ht with ht | hno
    · exact h.debit id t ht hk
    · exact absurd (hk ▸ internalKey_hasPrefix _ _) hno
  credit id t ht hk := by
    rcases hh t ht with ht | hno
    · exact h.credit id t ht hk
    · exact absurd (hk ▸ internalKey_hasPrefix _ _) hno

/-! ## One entry -/

variable {cmd : Ledger.Command}

theorem Legs.prepareDebit (h : Legs src m) (hsrc : src id true cmd) :
    Legs src { m with state := (m.state.prepareDebit id cmd.fromAcc cmd.amount).1 } := by
  have hhist := history_prepareDebit m.state id cmd.fromAcc cmd.amount
  refine { h with
    reserved := ?_, debit := fun id' t ht => h.debit id' t (hhist ▸ ht),
    credit := fun id' t ht => h.credit id' t (hhist ▸ ht) }
  rw [State.prepareDebit]
  split
  · exact h.reserved
  split
  · exact h.reserved
  split
  · split <;> exact h.reserved
  dsimp only
  split
  · exact h.reserved
  · intro id' rv hrv
    by_cases hid : id' = id
    · subst hid
      rw [AList.lookup_insert, Option.some.injEq] at hrv
      subst hrv
      exact ⟨cmd, hsrc, rfl, rfl⟩
    · rw [AList.lookup_insert_ne hid] at hrv
      exact h.reserved id' rv hrv

variable {c : Command}

section Apply

variable (h : Legs src m)

include h

theorem Legs.vote (hsrc : src c.txID c.debit c.ledger) : Legs src (m.vote c).1 := by
  have hrec (m' : Machine) (h' : Legs src m') (yes : Bool) :
      Legs src { m' with txs := m'.txs.insert c.txID (Machine.voteRecord c yes) } := by
    refine h'.insertTx ?_ ?_
    · cases yes
      · exact fun hp => by cases hp
      · exact fun _ => hsrc
    · cases yes <;> exact fun hp => by cases hp
  rw [Machine.vote]
  dsimp only [Machine.ballot]
  cases hd : c.debit with
  | true => exact hrec _ (h.prepareDebit (hd ▸ hsrc)) _
  | false => exact hrec _ h _

theorem Legs.commitDebit (id : TxID) (ts : Timestamp) :
    Legs src { m with state := (m.state.commitDebit id ts).1 } := by
  rw [State.commitDebit]
  split
  · exact { h with }
  next rv hrv =>
    obtain ⟨cmd, hsrc, hacc, hamt⟩ := h.reserved id rv hrv
    refine { h with reserved := ?_, debit := ?_, credit := ?_ }
    · exact fun id' rv' hrv' => h.reserved id' rv' (Maps.lookup_of_lookup_erase hrv')
    · intro id' t ht hk
      rcases List.mem_append.1 ht with ht | ht
      · exact h.debit id' t ht hk
      · rw [List.mem_singleton] at ht
        subst ht
        obtain rfl := internalKey_inj hk
        exact ⟨cmd, hsrc, by rw [hacc, hamt]⟩
    · intro id' t ht hk
      rcases List.mem_append.1 ht with ht | ht
      · exact h.credit id' t ht hk
      · rw [List.mem_singleton] at ht
        subst ht
        exact absurd hk (internalKey_debit_ne_credit id id')

theorem Legs.commitCredit (hsrc : src id false cmd) (ts : Timestamp) :
    Legs src { m with state := (m.state.commitCredit id cmd.toAcc cmd.amount ts).1 } := by
  rw [State.commitCredit]
  dsimp only
  split
  · exact { h with }
  split
  · exact { h with }
  split
  · exact { h with }
  · refine { h with debit := ?_, credit := ?_ }
    · intro id' t ht hk
      rcases List.mem_append.1 ht with ht | ht
      · exact h.debit id' t ht hk
      · rw [List.mem_singleton] at ht
        subst ht
        exact absurd hk.symm (internalKey_debit_ne_credit id' id)
    · intro id' t ht hk
      rcases List.mem_append.1 ht with ht | ht
      · exact h.credit id' t ht hk
      · rw [List.mem_singleton] at ht
        subst ht
        obtain rfl := internalKey_inj hk
        exact ⟨cmd, hsrc, rfl⟩

theorem Legs.abortTx (id : TxID) : Legs src { m with state := (m.state.abortTx id).1 } := by
  refine h.of_state ?_ fun t ht => .inl (history_abortTx m.state id ▸ ht)
  intro id' rv hrv
  rw [State.abortTx] at hrv
  split at hrv
  · exact hrv
  · exact Maps.lookup_of_lookup_erase hrv

theorem Legs.settle {r : TxRecord} (hr : m.txs.lookup c.txID = some r) (ht : ¬ r.phase.terminal) :
    Legs src { m with state := (m.settle c r).1 } := by
  rw [Machine.settle]
  split
  · split
    · exact h.commitDebit _ _
    next hd =>
      rw [Bool.not_eq_true] at hd
      refine h.commitCredit ?_ _
      -- a record that is not terminal was prepared, or is the coordinator's
      cases hph : r.phase with
      | none => exact absurd (h.unprepared _ r hr hph) (by rw [hd]; exact Bool.false_ne_true)
      | prepared => exact hd ▸ h.prepared _ r hr hph
      | committed => exact absurd (.inl hph) ht
      | aborted => exact absurd (.inr hph) ht
  · exact h.abortTx _

/-- An entry keeps the account of every leg, if it is itself a source or the coordinator's. -/
theorem Legs.apply (hprep : c.op = .prepare → src c.txID c.debit c.ledger)
    (hdec : c.op = .decision → c.debit = true) : Legs src (m.apply c).1 := by
  have he := Machine.effect_apply m c
  generalize (m.apply c).1 = m' at he ⊢
  generalize (m.apply c).2 = res at he
  obtain ⟨st, txs, results, byIndex⟩ := m'
  suffices hl : Legs src { m with state := st, txs := txs } from { hl with }
  cases he with
  | nothing => exact h
  | client =>
    refine h.of_state (fun id rv hrv => ?_) fun t ht => mem_history_apply ht
    rwa [reserves_apply] at hrv
  | vote hop => exact h.vote (hprep hop)
  | decision hop =>
    refine h.insertTx ?_ ?_ <;> rw [Machine.decisionRecord, Machine.decisionBase]
    · cases hr : m.txs.lookup c.txID with
      | none => exact fun hp => by cases hp
      | some r => exact h.prepared _ r hr
    · cases hr : m.txs.lookup c.txID with
      | none => exact fun _ => hdec hop
      | some r => exact h.unprepared _ r hr
  | outcome hop hr ht =>
    refine (h.settle hr ht).insertTx ?_ ?_ <;> rw [Machine.outcomeRecord] <;> cases c.commit <;>
      exact fun hp => by cases hp

end Apply

/-! ## Runs -/

/-- A prepare of `id` for that side and command stands in the log. -/
def Group.Asked (gr : Group) (id : TxID) (debit : Bool) (cmd : Ledger.Command) : Prop :=
  ∃ c ∈ gr.log, c.op = .prepare ∧ c.txID = id ∧ c.debit = debit ∧ c.ledger = cmd

section Runs

variable (shardFor : AccountID → ID)

/-- Shard `g` will not book anything for `id`: it voted NO, or has aborted the transaction. -/
def World.Aborted (w : World) (g : ID) (id : TxID) : Prop := (w.group g).machine.phase id = .aborted

instance (w : World) (g : ID) (id : TxID) : Decidable (w.Aborted g id) :=
  inferInstanceAs (Decidable (_ = _))

/-- Every prepare of the transaction of `d`, in all logs, is for the same request, or its shard or
the shard `h` of `d` has aborted the transaction. -/
def World.Fits (w : World) (h : ID) (d : Command) : Prop :=
  ∀ g ∈ w.groups.keys, ∀ c ∈ (w.group g).log, c.op = .prepare → c.txID = d.txID →
    c.ledger.SameRequest d.ledger ∨ w.Aborted g c.txID ∨ w.Aborted h c.txID

instance (w : World) (h : ID) (d : Command) : Decidable (w.Fits h d) :=
  inferInstanceAs (Decidable (∀ g ∈ _, _))

/-- A prepare is appended only while it fits those in the logs. -/
def Unmixed (w : World) : Action → Prop
  | .propose pid .append =>
    ∀ p ∈ w.procs[pid]?, ∀ e ∈ p.task.request shardFor, e.2.op = .prepare → w.Fits e.1 e.2
  | _ => True

instance (w : World) (a : Action) : Decidable (Unmixed shardFor w a) := by
  induction a using Action.casesOn
  case propose pid start =>
    induction start using Start.casesOn <;> unfold Unmixed <;> infer_instance
  all_goals exact instDecidableTrue

/-- Every leg goes back to the log of its shard, and what two shards have prepared under one id is
one request, unless one of them has aborted it. -/
structure LegsInv (w : World) : Prop where
  legs : ∀ g, Legs (w.group g).Asked (w.group g).machine
  decisions : ∀ g, ∀ c ∈ (w.group g).log, c.op = .decision → c.debit = true
  kept : ∀ g id, (w.group g).machine.Kept id
  same : ∀ g g', ∀ c ∈ (w.group g).log, ∀ d ∈ (w.group g').log, c.op = .prepare →
    d.op = .prepare → c.txID = d.txID →
    c.ledger.SameRequest d.ledger ∨ w.Aborted g c.txID ∨ w.Aborted g' c.txID

variable {shardFor} {w w' : World} {a : Action}

theorem Group.Asked.mono {gr gr' : Group} (h : gr.log <+: gr'.log) {debit : Bool}
    (ha : gr.Asked id debit cmd) : gr'.Asked id debit cmd := by
  obtain ⟨c, hc, hr⟩ := ha
  exact ⟨c, h.subset hc, hr⟩

theorem Step.aborted (hs : Step shardFor w a w') {g : ID} (h : w.Aborted g id) :
    w'.Aborted g id := by
  rw [World.Aborted]
  generalize hg : w'.group g = gr'
  cases hg ▸ hs.groupStep g with
  | same | append => exact h
  | apply c => exact (Machine.phase_apply_of_terminal c (.inr h)).trans h

theorem LegsInv.legs_step (h : LegsInv w) (hs : Step shardFor w a w') (g : ID) :
    Legs (w'.group g).Asked (w'.group g).machine := by
  have hext := hs.extends.log g
  generalize hg : w'.group g = gr' at hext
  cases hg ▸ hs.groupStep g with
  | same => exact h.legs g
  | append c => exact (h.legs g).mono fun _ _ _ ha => ha.mono hext
  | apply c hc =>
    have hmem : c ∈ (w.group g).log := List.mem_of_getElem? hc
    have hl := (h.legs g).apply (c := c) (fun hop => ⟨c, hmem, hop, rfl, rfl, rfl⟩)
      (h.decisions g c hmem)
    exact { hl with }

theorem LegsInv.kept_step (h : LegsInv w) (hs : Step shardFor w a w') (g : ID) (id : TxID) :
    (w'.group g).machine.Kept id := by
  generalize hg : w'.group g = gr'
  cases hg ▸ hs.groupStep g with
  | same | append => exact h.kept g id
  | apply c => exact { (h.kept g id).apply c with }

theorem LegsInv.step (h : LegsInv w) (hs : Step shardFor w a w') (hu : Unmixed shardFor w a) :
    LegsInv w' where
  legs g := h.legs_step hs g
  decisions g c hc hop := by
    rcases hs.mem_log hc with hc | ⟨pid, p, -, -, hreq⟩
    · exact h.decisions g c hc hop
    · obtain ⟨call, d, -, rfl⟩ := task_of_decision hreq hop
      rfl
  kept g id := h.kept_step hs g id
  same g g' c hc d hd hcop hdop hid := by
    have hkeep (hor : c.ledger.SameRequest d.ledger ∨ w.Aborted g c.txID ∨ w.Aborted g' c.txID) :
        c.ledger.SameRequest d.ledger ∨ w'.Aborted g c.txID ∨ w'.Aborted g' c.txID :=
      hor.imp_right (Or.imp hs.aborted hs.aborted)
    rcases hs.mem_log hc with hc | ⟨pid, p, rfl, hp, hreq⟩
    · rcases hs.mem_log hd with hd | ⟨pid, p, rfl, hp, hreq⟩
      · exact hkeep (h.same g g' c hc d hd hcop hdop hid)
      · exact hkeep (hu p hp (g', d) hreq hdop g (mem_keys_of_log hc) c hc hcop hid)
    · rcases hs.mem_log hd with hd | ⟨pid', p', ha, hp', hreq'⟩
      · have hor := hu p hp (g, c) hreq hcop g' (mem_keys_of_log hd) d hd hdop hid.symm
        exact hkeep (hid ▸ hor.imp .symm Or.symm)
      · -- one step appends one entry
        cases ha
        obtain rfl : p = p' := Option.some.inj (hp.symm.trans hp')
        have heq := Option.some.inj (hreq.symm.trans hreq')
        rw [(Prod.mk.inj heq).2]
        exact .inl (.refl _)

theorem legsInv_init : LegsInv {} where
  legs _ := legs_empty _
  decisions _ _ h := by cases h
  kept _ := Machine.kept_empty
  same _ _ _ h := by cases h

/-- A shard that has booked a leg has committed the transaction. -/
theorem LegsInv.not_aborted (h : LegsInv w) {g : ID} {key : Str} (hkey : IsLegKey id key)
    {t : Transaction} (ht : t ∈ (w.group g).machine.state.history) (hk : t.idempotencyKey = key) :
    ¬ w.Aborted g id := by
  have hbooked : (w.group g).machine.state.bookings key ≠ [] :=
    List.ne_nil_of_mem (List.mem_filter.2 ⟨ht, decide_eq_true hk⟩)
  rw [World.Aborted, (h.kept g id).settled key hkey hbooked]
  exact Phase.noConfusion

end Runs

/-! ## The theorem -/

/-- **The legs agree.**  In every run in which no id is prepared for two requests, other than where
it is aborted, a debit leg and a credit leg of the same transaction, at whichever shards, are for
the same amount and go back to prepares of one and the same request. -/
theorem legs_agree (shardFor : AccountID → ID) {as : List Action} {w : World}
    (hrun : Run (fun w a w' => exec shardFor w a = some w' ∧ Unmixed shardFor w a) {} as w)
    (id : TxID) (g h : ID) (t u : Transaction) (ht : t ∈ (w.group g).machine.state.history)
    (hu : u ∈ (w.group h).machine.state.history)
    (htk : t.idempotencyKey = internalKey id (str "debit"))
    (huk : u.idempotencyKey = internalKey id (str "credit")) :
    ∃ cmd cmd' : Ledger.Command, cmd.SameRequest cmd' ∧ (w.group g).Asked id true cmd
      ∧ (w.group h).Asked id false cmd' ∧ t.entries = [⟨cmd.fromAcc, -cmd.amount⟩]
      ∧ u.entries = [⟨cmd.toAcc, cmd.amount⟩] := by
  have hinv : LegsInv w :=
    hrun.invariant (fun _ _ _ hs hi => hi.step (step_of_exec hs.1) hs.2) legsInv_init
  obtain ⟨cmd, hasked, hte⟩ := (hinv.legs g).debit id t ht htk
  obtain ⟨cmd', hasked', hue⟩ := (hinv.legs h).credit id u hu huk
  have hsame : cmd.SameRequest cmd' := by
    obtain ⟨c, hc, hcop, hcid, -, rfl⟩ := hasked
    obtain ⟨d, hd, hdop, hdid, -, rfl⟩ := hasked'
    have hor := hinv.same g h c hc d hd hcop hdop (hcid.trans hdid.symm)
    rw [hcid] at hor
    exact hor.resolve_right
      (not_or.2 ⟨hinv.not_aborted (.inl rfl) ht htk, hinv.not_aborted (.inr rfl) hu huk⟩)
  refine ⟨cmd, cmd', hsame, hasked, hasked', hte, ?_⟩
  rw [hue, hsame.2.2.2.1, hsame.2.2.2.2]

/-! ## A schedule -/

namespace Schedule

/-- Another request with the same id. -/
def smallPayment : Ledger.Command := { payment with amount := 10 }

/-- Process 2 has the debit of 10 prepared and dies. -/
def abandoned : List Action :=
  .transfer tx smallPayment groups now :: round 2 debitShard ++ [.crash 2]

/-- Process 3 runs a transfer of 30 under the same id to its end. -/
def reuse : List Action :=
  .transfer tx payment groups now :: round 3 debitShard ++ round 3 creditShard
    ++ round 3 debitShard ++ round 3 debitShard ++ round 3 creditShard

/-- The entries booked for the legs of the transaction at the two shards. -/
def legEntries (w : World) : List (List Entry) × List (List Entry) :=
  (((w.group debitShard).machine.state.history.filter fun t =>
      t.idempotencyKey = internalKey tx (str "debit")).map Transaction.entries,
    ((w.group creditShard).machine.state.history.filter fun t =>
      t.idempotencyKey = internalKey tx (str "credit")).map Transaction.entries)

/-- A leg that `legEntries` shows stands in the history. -/
theorem exists_leg {l : List Transaction} {key : Str} {es : List Entry}
    (h : (l.filter fun t => t.idempotencyKey = key).map Transaction.entries = [es]) :
    ∃ t ∈ l, t.idempotencyKey = key ∧ t.entries = es := by
  have hmem : es ∈ (l.filter fun t => t.idempotencyKey = key).map Transaction.entries := by
    rw [h]
    exact List.mem_singleton_self es
  obtain ⟨t, ht, he⟩ := List.mem_map.1 hmem
  obtain ⟨htl, hk⟩ := List.mem_filter.1 ht
  exact ⟨t, htl, of_decide_eq_true hk, he⟩

end Schedule

open Schedule in
/-- The debit of the first request and the credit of the second are committed as one transfer: alice
pays 10 and bob receives 30. -/
theorem reuse_mixes_legs : ∃ as w, Run (fun w a w' => exec ring w a = some w') {} as w ∧
    ∃ id g h t u, t ∈ (w.group g).machine.state.history ∧ u ∈ (w.group h).machine.state.history
      ∧ t.idempotencyKey = internalKey id (str "debit")
      ∧ u.idempotencyKey = internalKey id (str "credit")
      ∧ t.entries = [⟨str "alice", -10⟩] ∧ u.entries = [⟨str "bob", 30⟩] := by
  obtain ⟨w, hrun, hp⟩ : ∃ w, Run (fun w a w' => exec ring w a = some w') {}
        (opening ++ abandoned ++ reuse) w ∧
      legEntries w = ([[⟨str "alice", -10⟩]], [[⟨str "bob", 30⟩]]) := exists_run (by decide +kernel)
  rw [legEntries, Prod.mk.injEq] at hp
  obtain ⟨t, ht, htk, hte⟩ := exists_leg hp.1
  obtain ⟨u, hu, huk, hue⟩ := exists_leg hp.2
  exact ⟨_, w, hrun, tx, debitShard, creditShard, t, u, ht, hu, htk, huk, hte, hue⟩

open Schedule in
/-- The completed transfer meets the condition, and its legs are those of one command. -/
theorem legs_agree_completed : ∃ w t u,
    Run (fun w a w' => exec ring w a = some w' ∧ Unmixed ring w a) {} (opening ++ completed) w
      ∧ t ∈ (w.group debitShard).machine.state.history
      ∧ u ∈ (w.group creditShard).machine.state.history
      ∧ ∃ cmd : Ledger.Command, t.entries = [⟨cmd.fromAcc, -cmd.amount⟩]
        ∧ u.entries = [⟨cmd.toAcc, cmd.amount⟩] := by
  obtain ⟨w, hrun, hp⟩ : ∃ w, Run (fun w a w' => exec ring w a = some w' ∧ Unmixed ring w a) {}
        (opening ++ completed) w ∧
      legEntries w = ([[⟨str "alice", -30⟩]], [[⟨str "bob", 30⟩]]) :=
    exists_run_guarded (by decide +kernel)
  rw [legEntries, Prod.mk.injEq] at hp
  obtain ⟨t, ht, htk, -⟩ := exists_leg hp.1
  obtain ⟨u, hu, huk, -⟩ := exists_leg hp.2
  obtain ⟨cmd, -, -, -, -, hte, hue⟩ :=
    legs_agree ring hrun tx debitShard creditShard t u ht hu htk huk
  exact ⟨w, t, u, hrun, ht, hu, cmd, hte, hue⟩

end CoreBank.Shard
