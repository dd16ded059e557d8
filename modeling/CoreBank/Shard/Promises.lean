import CoreBank.Ledger.Legs
import CoreBank.Shard.Snapshot

/-!
# Promises and what becomes of them

A prepare that a shard answers with YES is a promise; an outcome settles it.  `Kept m id` says what
always holds between the ledger and the record of one transaction: funds are reserved for it exactly
while its debit is promised, and its legs are booked at most once, and not before it is committed.
-/

set_option autoImplicit false

namespace CoreBank.Shard

open Ledger Hlc Wire ActionSystem

namespace Machine

/-! ## What always holds -/

/-- The ledger and the record agree about the transaction `id`. -/
structure Kept (m : Machine) (id : TxID) : Prop where
  /-- Funds are reserved exactly while a debit is promised. -/
  reserved : ∀ rv, m.state.reserves.lookup id = some rv ↔
    ∃ r, m.txs.lookup id = some r ∧ r.phase = .prepared ∧ r.debit = true
      ∧ rv = ⟨id, r.cmd.fromAcc, r.cmd.amount⟩
  /-- A record without a vote comes from a decision. -/
  decided : ∀ r, m.txs.lookup id = some r → r.phase = .none → r.decided = true
  once : ∀ key, IsLegKey id key → (m.state.bookings key).length ≤ 1
  settled : ∀ key, IsLegKey id key → m.state.bookings key ≠ [] → m.phase id = .committed
  credited : m.state.applied.lookup (internalKey id (str "credit")) ≠ none → m.phase id = .committed
  /-- A promised credit has an account to go to. -/
  account : ∀ r, m.txs.lookup id = some r → r.phase = .prepared → r.debit = false →
    r.cmd.toAcc ∈ m.state.balances

theorem kept_empty (id : TxID) : Kept {} id where
  reserved rv := by simp
  decided r hr := by simp at hr
  once key _ := by simp [State.bookings]
  settled key _ h := by simp [State.bookings] at h
  credited h := by simp at h
  account r hr := by simp at hr

variable {m m' : Machine} {id : TxID} {c : Command}

theorem phase_congr (h : m'.txs.lookup id = m.txs.lookup id) : m'.phase id = m.phase id := by
  rw [phase, phase, h]

theorem phase_eq {r : TxRecord} (h : m.txs.lookup id = some r) : m.phase id = r.phase := by
  rw [phase, h]

/-- Whatever leaves the transaction alone keeps the agreement. -/
theorem Kept.frame (h : Kept m id) (hl : State.SameLegs m.state m'.state id)
    (ht : m'.txs.lookup id = m.txs.lookup id) : Kept m' id where
  reserved rv := by rw [hl.reserve, ht]; exact h.reserved rv
  decided r hr := h.decided r (ht ▸ hr)
  once key hk := by rw [hl.booked key hk]; exact h.once key hk
  settled key hk hb := by
    rw [hl.booked key hk] at hb
    rw [phase_congr ht]
    exact h.settled key hk hb
  credited hc := by
    rw [hl.applied _ (.inr rfl)] at hc
    rw [phase_congr ht]
    exact h.credited hc
  account r hr hp hd := hl.accounts _ (h.account r (ht ▸ hr) hp hd)

/-- Before it is committed a transaction has left no trace in the books. -/
theorem Kept.unbooked (h : Kept m id) (hp : m.phase id ≠ .committed) :
    (∀ key, IsLegKey id key → m.state.bookings key = [])
      ∧ m.state.applied.lookup (internalKey id (str "credit")) = none :=
  ⟨fun key hk => by_contra fun hb => hp (h.settled key hk hb),
    by_contra fun hc => hp (h.credited hc)⟩

theorem Kept.not_reserved (h : Kept m id)
    (hp : ∀ r, m.txs.lookup id = some r → r.phase = .prepared → r.debit = false) :
    m.state.reserves.lookup id = none := by
  cases hv : m.state.reserves.lookup id with
  | none => rfl
  | some rv =>
    obtain ⟨r, hr, hph, hd, -⟩ := (h.reserved rv).1 hv
    rw [hp r hr hph] at hd
    cases hd

theorem Kept.unknown (h : Kept m id)
    (hnew : ∀ x, m.txs.lookup id = some x → x.phase = .none ∧ x.decided = false) :
    m.txs.lookup id = none := by
  cases hx : m.txs.lookup id with
  | none => rfl
  | some x =>
    obtain ⟨hp, hd⟩ := hnew x hx
    rw [h.decided x hx hp] at hd
    cases hd

/-! ## Every entry keeps the agreement -/

theorem ballot_cases (m : Machine) (c : Command) (hfree : c.txID ∉ m.state.reserves) :
    (m.ballot c).1.history = m.state.history ∧ (m.ballot c).1.applied = m.state.applied
      ∧ (m.ballot c).1.balances = m.state.balances
      ∧ (m.ballot c).1.reserves.lookup c.txID =
          (if (m.ballot c).2.ok = true ∧ c.debit = true then
            some ⟨c.txID, c.ledger.fromAcc, c.ledger.amount⟩ else none)
      ∧ ((m.ballot c).2.ok = true → c.debit = false → c.ledger.toAcc ∈ m.state.balances) := by
  have hnone : m.state.reserves.lookup c.txID = none := AList.lookup_eq_none.2 hfree
  rw [ballot]
  cases hd : c.debit with
  | true =>
    rcases State.prepareDebit_cases m.state c.txID c.ledger.fromAcc c.ledger.amount with
      ⟨hs, hok⟩ | ⟨hs, hok⟩
    · have hno : (m.state.prepareDebit c.txID c.ledger.fromAcc c.ledger.amount).2.ok ≠ true :=
        fun h => hfree (hok h)
      simp only [if_true, hs, hno]
      exact ⟨trivial, trivial, trivial, hnone, fun h => by (cases h)⟩
    · simp only [if_true, hs, hok, and_self]
      exact ⟨trivial, trivial, trivial, AList.lookup_insert _, fun _ h => by (cases h)⟩
  | false =>
    simp only [Bool.false_eq_true, if_false, and_false]
    exact ⟨trivial, trivial, trivial, hnone, fun hok _ => State.prepareCredit_ok hok⟩

theorem Kept.vote (h : Kept m c.txID)
    (hnew : ∀ x, m.txs.lookup c.txID = some x → x.phase = .none ∧ x.decided = false) :
    Kept { m with state := (m.ballot c).1
                  txs := m.txs.insert c.txID (voteRecord c (m.ballot c).2.ok) } c.txID := by
  have hunknown := h.unknown hnew
  have hnone : m.state.reserves.lookup c.txID = none := h.not_reserved (by simp [hunknown])
  obtain ⟨hbook, hcred⟩ := h.unbooked (by simp [phase, hunknown])
  obtain ⟨hhist, happ, hbal, hres, hacc⟩ := ballot_cases m c (AList.lookup_eq_none.1 hnone)
  have hbookings (key : Str) (hk : IsLegKey c.txID key) : (m.ballot c).1.bookings key = [] := by
    rw [State.bookings, hhist]
    exact hbook key hk
  refine ⟨fun rv => ?_, fun r hr hp => ?_, fun key hk => ?_, fun key hk hb => ?_, fun hc => ?_,
    fun r hr hp hd => ?_⟩
  · dsimp only
    rw [hres, AList.lookup_insert]
    constructor
    · intro hrv
      split at hrv
      next hv =>
        obtain ⟨hok, hd⟩ := hv
        rw [hok]
        exact ⟨_, rfl, rfl, hd, (Option.some.inj hrv).symm⟩
      next => cases hrv
    · rintro ⟨r, hr, hp, hd, hrv⟩
      obtain rfl := Option.some.inj hr
      cases hok : (m.ballot c).2.ok with
      | false => rw [hok] at hp; cases hp
      | true =>
        rw [hok] at hd hrv
        rw [if_pos ⟨rfl, hd⟩, hrv]
        rfl
  · rw [AList.lookup_insert, Option.some.injEq] at hr
    subst hr
    revert hp
    cases (m.ballot c).2.ok <;> (intros; contradiction)
  · rw [hbookings key hk]
    exact Nat.zero_le 1
  · exact absurd (hbookings key hk) hb
  · dsimp only at hc
    rw [happ] at hc
    exact absurd hcred hc
  · rw [AList.lookup_insert, Option.some.injEq] at hr
    subst hr
    cases hok : (m.ballot c).2.ok with
    | false => rw [hok] at hp; cases hp
    | true =>
      rw [hok] at hd
      dsimp only
      rw [hbal]
      exact hacc hok hd

theorem Kept.decision (h : Kept m c.txID) :
    Kept { m with txs := m.txs.insert c.txID (decisionRecord (m.decisionBase c) c) } c.txID := by
  have hphase : phase { m with txs := m.txs.insert c.txID (decisionRecord (m.decisionBase c) c) }
      c.txID = m.phase c.txID := by
    rw [phase, phase, AList.lookup_insert, decisionBase]
    cases m.txs.lookup c.txID <;> rfl
  -- a promise is on record afterwards exactly if it was before
  have hpromise (r : TxRecord) (hp : r.phase = .prepared)
      (hr : decisionRecord (m.decisionBase c) c = r) :
      ∃ r₀, m.txs.lookup c.txID = some r₀ ∧ r₀.phase = .prepared ∧ r₀.debit = r.debit
        ∧ r₀.cmd = r.cmd := by
    subst hr
    rw [decisionRecord, decisionBase] at *
    cases hx : m.txs.lookup c.txID with
    | none => rw [hx] at hp; cases hp
    | some r₀ => rw [hx] at hp; exact ⟨r₀, rfl, hp, rfl, rfl⟩
  refine ⟨fun rv => ?_, fun r hr _ => ?_, h.once, fun key hk hb => ?_, fun hc => ?_,
    fun r hr hp hd => ?_⟩
  · dsimp only
    rw [h.reserved rv, AList.lookup_insert]
    constructor
    · rintro ⟨r, hr, hp, hd, hrv⟩
      refine ⟨_, rfl, ?_⟩
      rw [decisionBase, hr]
      exact ⟨hp, hd, hrv⟩
    · rintro ⟨r, hr, hp, hd, hrv⟩
      obtain ⟨r₀, h₀, hp₀, hd₀, hc₀⟩ := hpromise r hp (Option.some.inj hr)
      exact ⟨r₀, h₀, hp₀, hd₀.trans hd, by rw [hrv, hc₀]⟩
  · rw [AList.lookup_insert, Option.some.injEq] at hr
    rw [← hr]
    rfl
  · rw [hphase]
    exact h.settled key hk hb
  · rw [hphase]
    exact h.credited hc
  · rw [AList.lookup_insert] at hr
    obtain ⟨r₀, h₀, hp₀, hd₀, hc₀⟩ := hpromise r hp (Option.some.inj hr)
    rw [← hc₀]
    exact h.account r₀ h₀ hp₀ (hd₀.trans hd)

/-- The reservation is gone after an outcome, and only a commit books, at most one leg. -/
theorem Kept.settle (h : Kept m c.txID) {r : TxRecord} (hr : m.txs.lookup c.txID = some r) :
    (m.settle c r).1.reserves.lookup c.txID = none
      ∧ (∃ l : List Transaction, l.length ≤ 1 ∧ (m.settle c r).1.history = m.state.history ++ l)
      ∧ (c.commit = false → (m.settle c r).1.history = m.state.history
          ∧ (m.settle c r).1.applied = m.state.applied) := by
  rw [Machine.settle]
  cases hc : c.commit with
  | false =>
    obtain ⟨hhist, -, happ⟩ := State.abortTx_frame m.state c.txID
    rw [if_neg Bool.false_ne_true]
    exact ⟨State.lookup_reserves_abortTx _ _, ⟨[], Nat.zero_le 1, by rw [hhist, List.append_nil]⟩,
      fun _ => ⟨hhist, happ⟩⟩
  | true =>
    rw [if_pos rfl]
    cases hd : r.debit with
    | true =>
      obtain ⟨hres, hhist⟩ :=
        State.commitDebit_frame m.state c.txID (outcomeTimestamp c r)
      exact ⟨hres, hhist, fun h => by (cases h)⟩
    | false =>
      obtain ⟨hres, hhist⟩ := State.commitCredit_frame m.state c.txID r.cmd.toAcc r.cmd.amount
        (outcomeTimestamp c r)
      have hnone : m.state.reserves.lookup c.txID = none := h.not_reserved fun r' hr' _ => by
        rw [hr, Option.some.injEq] at hr'
        rw [← hr', hd]
      rw [if_neg Bool.false_ne_true, hres]
      exact ⟨hnone, hhist, fun h => by (cases h)⟩

theorem Kept.outcome (h : Kept m c.txID) {r : TxRecord} (hr : m.txs.lookup c.txID = some r)
    (ht : ¬ r.phase.terminal) :
    Kept { m with state := (m.settle c r).1
                  txs := m.txs.insert c.txID (outcomeRecord r c) } c.txID := by
  obtain ⟨hbook, hcred⟩ := h.unbooked (by rw [phase_eq hr]; exact fun hp => ht (.inl hp))
  obtain ⟨hres, ⟨l, hl, hhist⟩, habort⟩ := h.settle (c := c) hr
  -- the record is terminal now
  have hterm (r' : TxRecord)
      (hr' : (m.txs.insert c.txID (outcomeRecord r c)).lookup c.txID = some r') :
      r'.phase = if c.commit then .committed else .aborted := by
    rw [AList.lookup_insert, Option.some.injEq] at hr'
    rw [← hr']
    rfl
  have hphase : phase { m with state := (m.settle c r).1
                               txs := m.txs.insert c.txID (outcomeRecord r c) } c.txID =
      if c.commit then .committed else .aborted := by
    rw [phase, AList.lookup_insert]
    rfl
  refine ⟨fun rv => ?_, fun r' hr' hp => ?_, fun key hk => ?_, fun key hk hb => ?_, fun hc => ?_,
    fun r' hr' hp => ?_⟩
  · dsimp only
    rw [hres]
    refine ⟨(absurd · (Option.some_ne_none rv).symm), ?_⟩
    rintro ⟨r', hr', hp, -⟩
    rw [hterm r' hr'] at hp
    split at hp <;> cases hp
  · rw [hterm r' hr'] at hp
    split at hp <;> cases hp
  · dsimp only
    rw [State.bookings, hhist, List.filter_append, List.length_append, ← State.bookings,
      hbook key hk]
    exact (Nat.zero_add _).trans_le ((List.length_filter_le _ l).trans hl)
  · cases hcm : c.commit with
    | true => rw [hphase, hcm]; rfl
    | false =>
      dsimp only at hb
      rw [State.bookings, (habort hcm).1, ← State.bookings, hbook key hk] at hb
      exact absurd rfl hb
  · cases hcm : c.commit with
    | true => rw [hphase, hcm]; rfl
    | false =>
      dsimp only at hc
      rw [(habort hcm).2] at hc
      exact absurd hcred hc
  · rw [hterm r' hr'] at hp
    split at hp <;> cases hp

theorem sameLegs_effect {st : Ledger.State} {txs : Map TxID TxRecord} {res : Result}
    (he : Effect m c st txs res) (hne : id ≠ c.txID) :
    State.SameLegs m.state st id ∧ txs.lookup id = m.txs.lookup id := by
  cases he with
  | nothing => exact ⟨.refl _ _, rfl⟩
  | client => exact ⟨State.sameLegs_apply _ _ _, rfl⟩
  | vote =>
    refine ⟨?_, AList.lookup_insert_ne hne⟩
    rw [ballot]
    split
    · exact State.sameLegs_prepareDebit _ _ _ hne
    · exact .refl _ _
  | decision => exact ⟨.refl _ _, AList.lookup_insert_ne hne⟩
  | outcome =>
    refine ⟨?_, AList.lookup_insert_ne hne⟩
    rw [Machine.settle]
    split
    · split
      · exact State.sameLegs_commitDebit _ _ hne
      · exact State.sameLegs_commitCredit _ _ _ _ hne
    · exact State.sameLegs_abortTx _ hne

theorem Kept.apply (h : Kept m id) (c : Command) : Kept (m.apply c).1 id := by
  have he := effect_apply m c
  generalize (m.apply c).1 = m' at he ⊢
  generalize (m.apply c).2 = res at he
  by_cases hid : id = c.txID
  · subst hid
    obtain ⟨st, txs, results, byIndex⟩ := m'
    cases he with
    | nothing => exact h.frame (.refl _ _) rfl
    | client => exact h.frame (State.sameLegs_apply _ _ _) rfl
    | vote hop hnew => exact (h.vote hnew).frame (.refl _ _) rfl
    | decision => exact h.decision.frame (.refl _ _) rfl
    | outcome hop hr ht => exact (h.outcome hr ht).frame (.refl _ _) rfl
  · obtain ⟨hl, ht⟩ := sameLegs_effect he hid
    exact h.frame hl ht

/-! ## Snapshots keep it too -/

theorem lookup_restored (h : Keyed m) (id : TxID) :
    m.restored.txs.lookup id = (m.txs.lookup id).map TxRecord.unstamped := by
  ext r
  rw [← Option.mem_def, AList.mem_lookup_iff, (entries_restored h).mem_iff, List.mem_map,
    Option.map_eq_some_iff]
  constructor
  · rintro ⟨b, hb, heq⟩
    obtain ⟨rfl, hrec⟩ := Sigma.mk.inj heq
    exact ⟨b.2, AList.mem_lookup_iff.2 hb, eq_of_heq hrec⟩
  · rintro ⟨r₀, hr₀, rfl⟩
    exact ⟨⟨id, r₀⟩, AList.mem_lookup_iff.1 hr₀, rfl⟩

theorem sameLegs_of_same {s s' : Ledger.State} (h : s'.Same s) (id : TxID) :
    State.SameLegs s s' id where
  reserve := h.lookup_reserves id
  booked key _ := by rw [State.bookings, State.bookings, h.history]
  applied key _ := h.lookup_applied key
  accounts a ha := by
    rw [← AList.lookup_isSome, h.lookup_balances, AList.lookup_isSome]
    exact ha

theorem phase_restored (h : Keyed m) (id : TxID) : m.restored.phase id = m.phase id := by
  rw [phase, phase, lookup_restored h]
  cases m.txs.lookup id <;> rfl

theorem Kept.restored (h : Kept m id) (hk : Keyed m) : Kept m.restored id := by
  have hl : State.SameLegs m.state m.restored.state id :=
    sameLegs_of_same (State.same_restored m.state) id
  have ht := lookup_restored hk id
  have hp := phase_restored hk id
  refine ⟨fun rv => ?_, fun r hr => ?_, fun key hkey => ?_, fun key hkey hb => ?_, fun hc => ?_,
    fun r hr hph hd => ?_⟩
  · rw [hl.reserve, h.reserved rv, ht]
    constructor
    · rintro ⟨r, hr, hph, hd, hrv⟩
      exact ⟨r.unstamped, by rw [hr]; rfl, hph, hd, hrv⟩
    · rintro ⟨r, hr, hph, hd, hrv⟩
      obtain ⟨r₀, hr₀, rfl⟩ := Option.map_eq_some_iff.1 hr
      exact ⟨r₀, hr₀, hph, hd, hrv⟩
  · rw [ht] at hr
    obtain ⟨r₀, hr₀, rfl⟩ := Option.map_eq_some_iff.1 hr
    exact h.decided r₀ hr₀
  · rw [hl.booked key hkey]
    exact h.once key hkey
  · rw [hl.booked key hkey] at hb
    rw [hp]
    exact h.settled key hkey hb
  · rw [hl.applied _ (.inr rfl)] at hc
    rw [hp]
    exact h.credited hc
  · rw [ht] at hr
    obtain ⟨r₀, hr₀, rfl⟩ := Option.map_eq_some_iff.1 hr
    exact hl.accounts _ (h.account r₀ hr₀ hph hd)

/-! ## Whole runs -/

theorem applyData_of_ok {d : Bytes} (h : decodeCommand d = .ok c) : m.applyData d = m.apply c := by
  rw [applyData, h]

/-- What an event can do: an entry is applied, bytes that are no entry change nothing, and a
snapshot is taken and restored. -/
theorem step_cases {e : Event} (hm : Ordered m) (hs : m.step e = some m') :
    (∃ d c, e = .data d ∧ decodeCommand d = .ok c ∧ m' = (m.apply c).1) ∨ m' = m
      ∨ (e = .roundTrip ∧ m' = m.restored) := by
  cases e with
  | data d =>
    obtain rfl := Option.some.inj hs
    cases hd : decodeCommand d with
    | ok c => exact .inl ⟨d, c, rfl, hd, by rw [applyData_of_ok hd]⟩
    | error err => exact .inr (.inl (by rw [applyData, hd]))
  | roundTrip =>
    obtain ⟨b, hb, hm'⟩ := Option.map_eq_some_iff.1 hs
    rw [restoreSnapshot_snapshot hm.sound.toAudited hb, Option.getD_some] at hm'
    exact .inr (.inr ⟨rfl, hm'.symm⟩)

/-- What every reachable machine has. -/
structure Reached (m : Machine) : Prop extends Ordered m where
  kept : ∀ id, Kept m id

theorem reached_empty : Reached {} := ⟨ordered_empty, kept_empty⟩

theorem Reached.step {e : Event} (h : Reached m) (hs : m.step e = some m') : Reached m' := by
  refine ⟨h.toOrdered.step hs, fun id => ?_⟩
  rcases step_cases h.toOrdered hs with ⟨-, c, -, -, rfl⟩ | rfl | ⟨-, rfl⟩
  · exact (h.kept id).apply c
  · exact h.kept id
  · exact (h.kept id).restored h.keyed

theorem Reached.run {es : List Event} (h : Reached m) (hr : execAll Machine.step m es = some m') :
    Reached m' :=
  (run_of_execAll hr).invariant (fun _ _ _ hs h => h.step hs) h

/-- Every run leads to a reached machine. -/
theorem reached_of_run {es : List Event} (hr : execAll step {} es = some m) : Reached m :=
  reached_empty.run hr

theorem phase_apply_of_terminal (c : Command) (ht : (m.phase id).terminal) :
    (m.apply c).1.phase id = m.phase id := by
  by_cases hid : id = c.txID
  · subst hid
    have hs := txStep_apply m c
    rw [phase, phase] at *
    generalize (m.apply c).1.txs.lookup c.txID = r' at hs ⊢
    generalize m.txs.lookup c.txID = r at hs ht ⊢
    -- a vote needs a transaction without a phase, an outcome one that has none yet
    cases hs with
    | same => rfl
    | yes _ hr | no _ hr =>
      cases r with
      | none => rcases ht with ht | ht <;> cases ht
      | some x =>
        dsimp only at ht
        rw [(hr x rfl).1] at ht
        rcases ht with ht | ht <;> cases ht
    | decision hop hp hd hc =>
      dsimp only
      rw [hp]
      cases r <;> rfl
    | outcome hop hnt hp hd hc => exact absurd ht hnt
  · exact phase_congr (m.lookup_apply_ne hid)

/-- The phase of a transaction whose outcome was applied does not change any more. -/
theorem phase_step_of_terminal {e : Event} (h : Reached m) (hs : m.step e = some m')
    (ht : (m.phase id).terminal) : m'.phase id = m.phase id := by
  rcases step_cases h.toOrdered hs with ⟨-, c, -, -, rfl⟩ | rfl | ⟨-, rfl⟩
  · exact phase_apply_of_terminal c ht
  · rfl
  · exact phase_restored h.keyed id

theorem phase_run_of_terminal {es : List Event} (h : Reached m) (hr : execAll step m es = some m')
    (ht : (m.phase id).terminal) : m'.phase id = m.phase id := by
  have hinv : Reached m' ∧ m'.phase id = m.phase id := by
    refine (run_of_execAll hr).invariant (P := fun x => Reached x ∧ x.phase id = m.phase id)
      (fun x e x' hs hx => ⟨hx.1.step hs, ?_⟩) ⟨h, rfl⟩
    rw [phase_step_of_terminal hx.1 hs (hx.2 ▸ ht), hx.2]
  exact hinv.2

/-- Aborts `t`, without a clock reading. -/
def abortEntry : Bytes :=
  [3, 0, 1, 116, 0, 0, 0, 0, 0, 0] ++ [3, 1, 0, 116, 0, 0, 1, 0, 65, 10, 0, 0, 0, 0, 0, 0, 0]

/-- Prepares a debit of 10 from `A` in transaction `t`. -/
def debitEntry : Bytes :=
  [1, 0, 1, 116, 0, 1, 0, 0, 0, 0] ++ [3, 1, 0, 116, 1, 0, 65, 0, 0, 10, 0, 0, 0, 0, 0, 0, 0]

/-- **Each leg at most once.**  After any entries and snapshots, the history holds at most one debit
and one credit of any transaction, and one that was committed or aborted stays so, whatever
comes. -/
theorem legs_once (es es' : List Event) (m m' : Machine) (hrun : execAll step {} es = some m)
    (hrun' : execAll step m es' = some m') (id : TxID) :
    (m.state.bookings (internalKey id (str "debit"))).length ≤ 1
      ∧ (m.state.bookings (internalKey id (str "credit"))).length ≤ 1
      ∧ ((m.phase id).terminal → m'.phase id = m.phase id) := by
  have h := reached_of_run hrun
  exact ⟨(h.kept id).once _ (.inl rfl), (h.kept id).once _ (.inr rfl),
    phase_run_of_terminal h hrun'⟩

/-- The credit of transaction `t` is committed; later an abort and a commit arrive for it. -/
theorem legs_once_contradicted :
    ∃ m m', execAll step {} [.data openEntry, .data plainPrepareEntry, .data commitEntry] = some m
      ∧ execAll step m [.data abortEntry, .roundTrip, .data commitEntry] = some m'
      ∧ m.phase [116] = .committed ∧ m'.phase [116] = .committed
      ∧ (m.state.bookings (internalKey [116] (str "credit"))).length ≤ 1 := by
  obtain ⟨m, hm, hph, m', hm', -⟩ :
      ∃ m ∈ execAll step {} [.data openEntry, .data plainPrepareEntry, .data commitEntry],
        m.phase [116] = .committed ∧
          ∃ m' ∈ execAll step m [.data abortEntry, .roundTrip, .data commitEntry], True := by
    decide +kernel
  obtain ⟨-, hcredit, hfinal⟩ := legs_once _ _ m m' hm hm' [116]
  exact ⟨m, m', hm, hm', hph, (hfinal (.inl hph)).trans hph, hcredit⟩

/-- **Reservations and promises correspond.**  After any entries and snapshots, funds are reserved
under an id exactly if it is prepared here as a debit, for the account and the amount on record; so
nothing is reserved for a transaction that is over, and every reservation is listed as in doubt. -/
theorem reserves_iff_promised (es : List Event) (m : Machine) (hrun : execAll step {} es = some m)
    (id : TxID) :
    (∀ rv, m.state.reserves.lookup id = some rv ↔
        ∃ r, m.tx id = some r ∧ r.phase = .prepared ∧ r.debit = true
          ∧ rv = ⟨id, r.cmd.fromAcc, r.cmd.amount⟩)
      ∧ ((m.phase id).terminal → m.state.reserves.lookup id = none)
      ∧ (m.state.reserves.lookup id ≠ none → id ∈ m.inDoubt) := by
  have h := (reached_of_run hrun).kept id
  refine ⟨h.reserved, fun ht => ?_, fun hne => ?_⟩
  · refine h.not_reserved fun r hr hp => ?_
    rw [phase_eq hr, hp] at ht
    rcases ht with ht | ht <;> cases ht
  · obtain ⟨rv, hrv⟩ := Option.ne_none_iff_exists'.1 hne
    obtain ⟨r, hr, hp, -⟩ := (h.reserved rv).1 hrv
    refine List.mem_map.2 ⟨⟨id, r⟩, List.mem_filter.2 ⟨AList.mem_lookup_iff.1 hr, ?_⟩, rfl⟩
    exact decide_eq_true hp

/-- A debit of 10 from `A` is promised, and the machine went through a snapshot. -/
theorem reserves_iff_promised_debit :
    ∃ m r, execAll step {} [.data openEntry, .data debitEntry, .roundTrip] = some m
      ∧ m.state.reserves.lookup [116] = some ⟨[116], [65], 10⟩ ∧ m.tx [116] = some r
      ∧ r.phase = .prepared ∧ r.debit = true ∧ [116] ∈ m.inDoubt := by
  obtain ⟨m, hm, hrv⟩ : ∃ m ∈ execAll step {} [.data openEntry, .data debitEntry, .roundTrip],
      m.state.reserves.lookup [116] = some ⟨[116], [65], 10⟩ := by
    decide +kernel
  obtain ⟨hiff, -, hdoubt⟩ := reserves_iff_promised _ m hm [116]
  obtain ⟨r, hr, hph, hd, -⟩ := (hiff _).1 hrv
  exact ⟨m, r, hm, hrv, hr, hph, hd, hdoubt (by rw [hrv]; nofun)⟩

end Machine
end CoreBank.Shard
