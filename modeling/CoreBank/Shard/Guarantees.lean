import Mathlib.Data.List.Induction
import CoreBank.Shard.Promises

/-!
# What a vote and a decision guarantee

Three questions about the records of a transaction, each answered for arbitrary bytes:

* does a recorded decision stay?  Until an entry says otherwise: neither a decision nor the outcome
  of a transaction that is not over yet looks at what is on record (`decision_permanent_iff`);
* does a leg need a vote?  Not a credit whose record was made by a decision (`leg_needs_vote_iff`);
* is a YES vote honoured?  A debit always, a credit as long as the account has room for it at the
  moment of the outcome (`vote_honoured_iff`).
-/

set_option autoImplicit false

namespace CoreBank.Shard

open Ledger Hlc Wire ActionSystem

namespace Machine

variable {m m' : Machine} {id : TxID} {c : Command}

/-! ## Decisions -/

/-- The event carries a decision against the one on record, or an outcome against it while the
transaction is not over. -/
def Overturns (m : Machine) (id : TxID) (commit : Bool) : Event → Prop
  | .data d => ∃ c, decodeCommand d = .ok c ∧ c.txID = id ∧ c.commit ≠ commit
      ∧ (c.op = .decision ∨ (c.op = .outcome ∧ ¬ (m.phase id).terminal))
  | .roundTrip => False

theorem decision_congr (h : m'.txs.lookup id = m.txs.lookup id) :
    m'.decision id = m.decision id := by
  rw [decision, decision, h]

theorem decision_eq_some {commit : Bool} :
    m.decision id = some commit ↔
      ∃ r, m.txs.lookup id = some r ∧ r.decided = true ∧ r.commit = commit := by
  rw [decision]
  cases m.txs.lookup id with
  | none => simp
  | some r => simp

variable {r : TxRecord}

theorem decision_insert (m : Machine) (hd : r.decided = true) (ht : m'.txs = m.txs.insert id r) :
    m'.decision id = some r.commit :=
  decision_eq_some.2 ⟨r, by rw [ht, AList.lookup_insert], hd, rfl⟩

theorem decision_apply_iff {commit : Bool} (c : Command) (hd : m.decision c.txID = some commit) :
    (m.apply c).1.decision c.txID = some commit ↔
      ¬ (c.commit ≠ commit
        ∧ (c.op = .decision ∨ (c.op = .outcome ∧ ¬ (m.phase c.txID).terminal))) := by
  have he := effect_apply m c
  generalize (m.apply c).1 = m' at he ⊢
  generalize (m.apply c).2 = res at he
  obtain ⟨r, hr, hrd, hrc⟩ := decision_eq_some.1 hd
  obtain ⟨st, txs, results, byIndex⟩ := m'
  cases he with
  | nothing res hdec _ hout =>
    refine iff_of_true hd fun ⟨_, hop⟩ => ?_
    rcases hop with hop | ⟨hop, ht⟩
    · exact hdec hop
    · exact ht (phase_eq hr ▸ hout hop r hr)
  | client hop => exact iff_of_true hd (by simp [hop])
  | vote hop hnew =>
    rw [(hnew r hr).2] at hrd
    cases hrd
  | decision hop =>
    rw [decision_insert m rfl rfl]
    simp [hop, decisionRecord]
  | outcome hop hr' ht =>
    rw [decision_insert m rfl rfl]
    simp [hop, outcomeRecord, phase_eq hr', ht]

theorem decision_restored (h : Keyed m) (id : TxID) : m.restored.decision id = m.decision id := by
  rw [decision, decision, lookup_restored h]
  cases m.txs.lookup id <;> rfl

/-- What overturns a decision. -/
theorem decision_step_iff {commit : Bool} {e : Event} (h : Reached m) (hs : m.step e = some m')
    (hd : m.decision id = some commit) :
    m'.decision id = some commit ↔ ¬ m.Overturns id commit e := by
  cases e with
  | data d =>
    obtain rfl := Option.some.inj hs
    rw [Overturns]
    cases hdec : decodeCommand d with
    | error err => simp [applyData, hdec, hd]
    | ok c =>
      rw [applyData_of_ok hdec]
      by_cases hid : id = c.txID
      · subst hid
        rw [decision_apply_iff c hd]
        simp
      · rw [decision_congr (m.lookup_apply_ne hid)]
        simp [hd, Ne.symm hid]
  | roundTrip =>
    rcases step_cases h.toOrdered hs with ⟨d, c, he, -⟩ | rfl | ⟨-, rfl⟩
    · cases he
    · exact iff_of_true hd not_false
    · exact iff_of_true ((decision_restored h.keyed id).trans hd) not_false

/-- **A recorded decision stays** through a run exactly if no entry of the run speaks against it: a
decision, or an outcome while the transaction is not over. -/
theorem decision_permanent_iff (es es' : List Event) (m : Machine) (id : TxID) (commit : Bool)
    (hrun : execAll step {} es = some m) (hd : m.decision id = some commit) :
    (∀ es₁ m₁, es₁ <+: es' → execAll step m es₁ = some m₁ → m₁.decision id = some commit) ↔
      ∀ es₁ e m₁, es₁ ++ [e] <+: es' → execAll step m es₁ = some m₁ →
        ¬ m₁.Overturns id commit e := by
  have h := reached_of_run hrun
  constructor
  · intro hkeep es₁ e m₁ hp hr hover
    have hbefore := hkeep es₁ m₁ ((List.prefix_append _ _).trans hp) hr
    cases e with
    | roundTrip => exact hover
    | data d =>
      have hafter := hkeep _ _ hp (execAll_concat hr rfl)
      exact (decision_step_iff (h.run hr) rfl hbefore).1 hafter hover
  · intro hno es₁
    induction es₁ using List.reverseRecOn with
    | nil =>
      rintro m₁ - hr
      obtain rfl := Option.some.inj hr
      exact hd
    | append_singleton es₁ e ih =>
      intro m₂ hp hr
      obtain ⟨m₁, hr₁, hs⟩ := execAll_concat_inv hr
      have hbefore := ih m₁ ((List.prefix_append _ _).trans hp) hr₁
      exact (decision_step_iff (h.run hr₁) hs hbefore).2 (hno es₁ e m₁ hp hr₁)

/-- The decision to commit `t`, on the debit side. -/
def commitDecision : Bytes :=
  [2, 0, 1, 116, 1, 1, 0, 0, 0, 0] ++ [3, 1, 0, 116, 1, 0, 65, 0, 0, 10, 0, 0, 0, 0, 0, 0, 0]

/-- The decision to abort it. -/
def abortDecision : Bytes :=
  [2, 0, 1, 116, 0, 1, 0, 0, 0, 0] ++ [3, 1, 0, 116, 1, 0, 65, 0, 0, 10, 0, 0, 0, 0, 0, 0, 0]

/-- A second decision overwrites the first. -/
theorem abortDecision_overwrites :
    ∃ m m', execAll step {} [.data commitDecision] = some m ∧ m.decision [116] = some true
      ∧ execAll step m [.data abortDecision] = some m' ∧ m'.decision [116] = some false := by
  obtain ⟨m, hm, hd, m', hm', hd'⟩ : ∃ m ∈ execAll step {} [.data commitDecision],
      m.decision [116] = some true ∧
        ∃ m' ∈ execAll step m [.data abortDecision], m'.decision [116] = some false := by
    decide +kernel
  exact ⟨m, m', hm, hd, hm', hd'⟩

/-- A repeated decision and a snapshot leave it alone. -/
theorem commitDecision_permanent :
    ∃ m m', execAll step {} [.data commitDecision] = some m
      ∧ execAll step m [.data commitDecision, .roundTrip] = some m'
      ∧ m.decision [116] = some true ∧ m'.decision [116] = some true := by
  obtain ⟨m, hm, hd, m', hm', -⟩ : ∃ m ∈ execAll step {} [.data commitDecision],
      m.decision [116] = some true ∧
        ∃ m' ∈ execAll step m [.data commitDecision, .roundTrip], True := by
    decide +kernel
  have hagree : ∀ c, decodeCommand commitDecision = .ok c → c.commit = true := by
    have : (decodeCommand commitDecision).toOption.all Command.commit = true := by decide +kernel
    intro c hc
    rw [hc] at this
    exact this
  refine ⟨m, m', hm, hm', hd, (decision_permanent_iff _ _ m [116] true hm hd).2 ?_ _ m'
    (List.prefix_refl _) hm'⟩
  intro es₁ e m₁ hpre _ hover
  have hmem : e ∈ [Event.data commitDecision, .roundTrip] := hpre.subset (by simp)
  rcases List.mem_pair.1 hmem with rfl | rfl
  · obtain ⟨c, hc, -, hne, -⟩ := hover
    exact hne (hagree c hc)
  · exact hover

/-! ## Votes -/

/-- The account a leg of the transaction is for. -/
def sideAccount (debit : Bool) (cmd : Ledger.Command) : AccountID :=
  if debit then cmd.fromAcc else cmd.toAcc

/-- The key a leg is booked under. -/
def legKey (id : TxID) (debit : Bool) : Str :=
  internalKey id (if debit then str "debit" else str "credit")

/-- The entry of a leg. -/
def legEntry (debit : Bool) (account : AccountID) (amount : Money) : Entry :=
  ⟨account, if debit then -amount else amount⟩

/-- The transaction is prepared, for this side, account and amount. -/
def Promised (m : Machine) (id : TxID) (debit : Bool) (account : AccountID)
    (amount : Money) : Prop :=
  ∃ r, m.txs.lookup id = some r ∧ r.phase = .prepared ∧ r.debit = debit
    ∧ sideAccount r.debit r.cmd = account ∧ r.cmd.amount = amount

/-- The bytes are a prepare that the machine answers with YES. -/
structure VotesYes (m : Machine) (d : Bytes) (id : TxID) (debit : Bool) (account : AccountID)
    (amount : Money) : Prop where
  isPrepare : ∃ p, decodeCommand d = .ok p ∧ p.op = .prepare ∧ p.txID = id ∧ p.debit = debit
    ∧ sideAccount p.debit p.ledger = account ∧ p.ledger.amount = amount
  ok : (m.applyData d).2.ok = true

/-- Some event of a run from the start was such a prepare. -/
def Voted (es : List Event) (id : TxID) (debit : Bool) (account : AccountID)
    (amount : Money) : Prop :=
  ∃ es₁ d es₂ m, es = es₁ ++ .data d :: es₂ ∧ execAll step {} es₁ = some m
    ∧ m.VotesYes d id debit account amount

variable {debit : Bool} {account : AccountID} {amount : Money}

theorem Voted.concat {es : List Event} (h : Voted es id debit account amount) (e : Event) :
    Voted (es ++ [e]) id debit account amount := by
  obtain ⟨es₁, d, es₂, m, rfl, hm, hv⟩ := h
  exact ⟨es₁, d, es₂ ++ [e], m, by simp, hm, hv⟩

theorem Promised.of_restored (h : Keyed m) :
    m.restored.Promised id debit account amount ↔ m.Promised id debit account amount := by
  simp only [Promised, lookup_restored h]
  constructor
  · rintro ⟨r, hr, hrest⟩
    obtain ⟨r₀, hr₀, rfl⟩ := Option.map_eq_some_iff.1 hr
    exact ⟨r₀, hr₀, hrest⟩
  · rintro ⟨r, hr, hrest⟩
    exact ⟨r.unstamped, by rw [hr]; rfl, hrest⟩

theorem Promised.congr (ht : m'.txs.lookup id = m.txs.lookup id) :
    m'.Promised id debit account amount ↔ m.Promised id debit account amount := by
  rw [Promised, Promised, ht]

/-- A decision neither makes a promise nor takes one back. -/
theorem promised_decision :
    Promised { m with txs := m.txs.insert c.txID (decisionRecord (m.decisionBase c) c) } c.txID
      debit account amount ↔ m.Promised c.txID debit account amount := by
  rw [Promised, Promised, AList.lookup_insert, decisionBase]
  cases m.txs.lookup c.txID with
  | none =>
    constructor
    · rintro ⟨r, hr, hp, -⟩
      obtain rfl := Option.some.inj hr
      cases hp
    · rintro ⟨r, hr, -⟩
      cases hr
  | some r₀ =>
    constructor
    · rintro ⟨r, hr, hrest⟩
      obtain rfl := Option.some.inj hr
      exact ⟨r₀, rfl, hrest⟩
    · rintro ⟨r, hr, hrest⟩
      obtain rfl := Option.some.inj hr
      exact ⟨_, rfl, hrest⟩

/-- A promise was there before, or this entry is the vote. -/
theorem Promised.of_step {e : Event} (h : Reached m) (hs : m.step e = some m')
    (hp : m'.Promised id debit account amount) :
    m.Promised id debit account amount
      ∨ ∃ d, e = .data d ∧ m.VotesYes d id debit account amount := by
  rcases step_cases h.toOrdered hs with ⟨d, c, he, hd, rfl⟩ | rfl | ⟨-, rfl⟩
  · by_cases hid : id = c.txID
    · subst hid
      have heff := effect_apply m c
      have hres : (m.apply c).2 = (m.applyData d).2 := by rw [applyData_of_ok hd]
      rw [hres] at heff
      generalize (m.apply c).1 = m' at heff hp
      generalize hok : (m.applyData d).2 = res at heff
      obtain ⟨st, txs, results, byIndex⟩ := m'
      cases heff with
      | nothing | client => exact .inl hp
      | vote hop hnew =>
        obtain ⟨r, hr, hph, hdeb, hacc, ham⟩ := hp
        obtain rfl := Option.some.inj ((AList.lookup_insert m.txs).symm.trans hr)
        cases hyes : (m.ballot c).2.ok with
        | false => rw [hyes] at hph; cases hph
        | true =>
          rw [hyes] at hdeb hacc ham
          exact .inr ⟨d, he, ⟨c, hd, hop, rfl, hdeb, hacc, ham⟩, by rw [hok, hyes]⟩
      | decision => exact .inl (promised_decision.1 hp)
      | outcome hop hr₀ ht =>
        obtain ⟨r, hr, hph, -⟩ := hp
        obtain rfl := Option.some.inj ((AList.lookup_insert m.txs).symm.trans hr)
        rw [outcomeRecord] at hph
        dsimp only at hph
        split at hph <;> cases hph
    · exact .inl ((Promised.congr (m.lookup_apply_ne hid)).1 hp)
  · exact .inl hp
  · exact .inl ((Promised.of_restored h.keyed).1 hp)

/-- Every promise goes back to a vote. -/
theorem Promised.voted {es : List Event} (hrun : execAll step {} es = some m)
    (hp : m.Promised id debit account amount) : Voted es id debit account amount := by
  induction es using List.reverseRecOn generalizing m with
  | nil =>
    obtain rfl := Option.some.inj hrun
    obtain ⟨r, hr, -⟩ := hp
    simp at hr
  | append_singleton es e ih =>
    obtain ⟨m₁, hr₁, hs⟩ := execAll_concat_inv hrun
    rcases Promised.of_step (reached_of_run hr₁) hs hp with hp | ⟨d, rfl, hv⟩
    · exact (ih hr₁ hp).concat e
    · exact ⟨es, d, [], m₁, rfl, hr₁, hv⟩

/-- The event carries an outcome for the transaction. -/
def IsOutcome (id : TxID) : Event → Prop
  | .data d => ∃ c, decodeCommand d = .ok c ∧ c.op = .outcome ∧ c.txID = id
  | .roundTrip => False

/-- Only an outcome ends a promise. -/
theorem Promised.step {e : Event} (h : Reached m) (hs : m.step e = some m')
    (hp : m.Promised id debit account amount) (hno : ¬ IsOutcome id e) :
    m'.Promised id debit account amount := by
  rcases step_cases h.toOrdered hs with ⟨d, c, rfl, hd, rfl⟩ | rfl | ⟨-, rfl⟩
  · by_cases hid : id = c.txID
    · subst hid
      have heff := effect_apply m c
      generalize (m.apply c).1 = m' at heff ⊢
      generalize (m.apply c).2 = res at heff
      obtain ⟨st, txs, results, byIndex⟩ := m'
      cases heff with
      | nothing => exact hp
      | client => exact hp
      | vote hop hnew =>
        obtain ⟨r, hr, hph, -⟩ := hp
        rw [(hnew r hr).1] at hph
        cases hph
      | decision => exact promised_decision.2 hp
      | outcome hop hr ht => exact absurd ⟨c, hd, hop, rfl⟩ hno
    · exact (Promised.congr (m.lookup_apply_ne hid)).2 hp
  · exact hp
  · exact (Promised.of_restored h.keyed).2 hp

/-- A vote is kept until the outcome. -/
theorem Promised.run {es : List Event} (h : Reached m) (hr : execAll Machine.step m es = some m')
    (hp : m.Promised id debit account amount) (hno : ∀ e ∈ es, ¬ IsOutcome id e) :
    m'.Promised id debit account amount := by
  induction es generalizing m with
  | nil =>
    obtain rfl := Option.some.inj hr
    exact hp
  | cons e es ih =>
    rw [execAll] at hr
    cases hs : m.step e with
    | none => rw [hs] at hr; cases hr
    | some m₁ =>
      rw [hs] at hr
      rw [List.forall_mem_cons] at hno
      exact ih (h.step hs) hr (hp.step h hs hno.1) hno.2

/-! ## Legs -/

/-- The ledger has booked a leg, and nothing else. -/
structure Books (s s' : Ledger.State) (id : TxID) (debit : Bool) (account : AccountID)
    (amount : Money) : Prop where
  leg : ∃ t, s'.history = s.history ++ [t] ∧ t.idempotencyKey = legKey id debit
    ∧ t.entries = [legEntry debit account amount]
  balance : ∃ bal, s.balances.lookup account = some bal
    ∧ s'.balances = s.balances.insert account (if debit then bal - amount else bal + amount)

theorem settle_debit (h : Reached m) (hr : m.txs.lookup c.txID = some r)
    (hp : r.phase = .prepared) (hd : r.debit = true) (hc : c.commit = true) :
    (m.settle c r).2.ok = true
      ∧ Books m.state (m.settle c r).1 c.txID true r.cmd.fromAcc r.cmd.amount := by
  have hheld := ((h.kept c.txID).reserved _).2 ⟨r, hr, hp, hd, rfl⟩
  obtain ⟨hok, hhist, hbals, -, -⟩ := State.commitDebit_of_held hheld (outcomeTimestamp c r)
  obtain ⟨bal, hbal⟩ : ∃ bal, m.state.balances.lookup r.cmd.fromAcc = some bal :=
    Option.isSome_iff_exists.1 (AList.lookup_isSome.2 (h.sound.backed hheld).2)
  rw [settle, if_pos hc, if_pos hd]
  refine ⟨hok, ⟨_, hhist, rfl, rfl⟩, bal, hbal, ?_⟩
  dsimp only at hbals
  rw [hbals, hbal]
  rfl

/-- Without a vote there is nothing to debit. -/
theorem settle_unprepared_debit (h : Kept m c.txID) (hr : m.txs.lookup c.txID = some r)
    (hp : r.phase = .none) (hd : r.debit = true) (hc : c.commit = true) :
    (m.settle c r).1 = m.state := by
  have hnone : m.state.reserves.lookup c.txID = none := h.not_reserved fun r' hr' hp' => by
    rw [hr, Option.some.injEq] at hr'
    rw [← hr', hp] at hp'
    cases hp'
  rw [settle, if_pos hc, if_pos hd, State.commitDebit_of_not_held hnone]

/-- A credit is booked exactly if the account is there and has room, whoever made the record. -/
theorem settle_credit (h : Kept m c.txID) (hr : m.txs.lookup c.txID = some r)
    (ht : ¬ r.phase.terminal) (hd : r.debit = false) (hc : c.commit = true) {bal : Money}
    (hbal : m.state.balances.lookup r.cmd.toAcc = some bal)
    (hroom : ¬ bal > maxMoney - r.cmd.amount) :
    (m.settle c r).2.ok = true
      ∧ Books m.state (m.settle c r).1 c.txID false r.cmd.toAcc r.cmd.amount := by
  have hnew := (h.unbooked (by rw [phase_eq hr]; exact fun hp => ht (.inl hp))).2
  obtain ⟨hok, hhist, hbals, -⟩ :=
    State.commitCredit_of_room hnew hbal hroom (outcomeTimestamp c r)
  rw [settle, if_pos hc, hd, if_neg Bool.false_ne_true]
  exact ⟨hok, ⟨_, hhist, rfl, rfl⟩, bal, hbal, hbals⟩

theorem settle_credit_refused (h : Kept m c.txID) (hr : m.txs.lookup c.txID = some r)
    (ht : ¬ r.phase.terminal) (hd : r.debit = false) (hc : c.commit = true)
    (hroom : ∀ bal, m.state.balances.lookup r.cmd.toAcc = some bal →
      bal > maxMoney - r.cmd.amount) :
    (m.settle c r).1 = m.state ∧ (m.settle c r).2.ok = false := by
  have hnew := (h.unbooked (by rw [phase_eq hr]; exact fun hp => ht (.inl hp))).2
  obtain ⟨hst, hno⟩ := State.commitCredit_of_no_room c.txID hroom (outcomeTimestamp c r)
  rw [settle, if_pos hc, hd, if_neg Bool.false_ne_true]
  exact ⟨hst, hno hnew⟩

/-- The bytes commit a credit that has room but that no prepare of this shard voted for: its record
was made by a decision. -/
def CreditsUnvoted (m : Machine) (d : Bytes) : Prop :=
  ∃ c r bal, decodeCommand d = .ok c ∧ c.op = .outcome ∧ c.commit = true
    ∧ m.txs.lookup c.txID = some r ∧ r.phase = .none ∧ r.debit = false
    ∧ m.state.balances.lookup r.cmd.toAcc = some bal ∧ ¬ bal > maxMoney - r.cmd.amount

theorem ne_append_singleton {l : List Transaction} {t : Transaction} : l ≠ l ++ [t] := by
  intro h
  have := congrArg List.length h
  simp at this

/-- A leg that an outcome books is the one on record. -/
theorem leg_of_settle (h : Reached m) (hr : m.txs.lookup c.txID = some r)
    (ht : ¬ r.phase.terminal) {t : Transaction}
    (hist : (m.settle c r).1.history = m.state.history ++ [t]) :
    c.commit = true ∧ t.idempotencyKey = legKey c.txID r.debit
      ∧ t.entries = [legEntry r.debit (sideAccount r.debit r.cmd) r.cmd.amount]
      ∧ (r.phase = .none → r.debit = false
          ∧ ∃ bal, m.state.balances.lookup r.cmd.toAcc = some bal
              ∧ ¬ bal > maxMoney - r.cmd.amount) := by
  have hk := h.kept c.txID
  have hbooks {debit : Bool} {account : AccountID} {amount : Money}
      (hb : Books m.state (m.settle c r).1 c.txID debit account amount) :
      t.idempotencyKey = legKey c.txID debit ∧ t.entries = [legEntry debit account amount] := by
    obtain ⟨t', ht', hkey, hentries⟩ := hb.leg
    rw [hist] at ht'
    obtain rfl := List.singleton_inj.1 (List.append_cancel_left ht')
    exact ⟨hkey, hentries⟩
  have hsame (hst : (m.settle c r).1 = m.state) : False := by
    rw [hst] at hist
    exact ne_append_singleton hist
  cases hc : c.commit with
  | false =>
    rw [((hk.settle hr).2.2 hc).1] at hist
    exact absurd hist ne_append_singleton
  | true =>
    cases hd : r.debit with
    | true =>
      have hp : r.phase = .prepared := by
        cases hp : r.phase with
        | none => exact (hsame (settle_unprepared_debit hk hr hp hd hc)).elim
        | prepared => rfl
        | committed => exact absurd (.inl hp) ht
        | aborted => exact absurd (.inr hp) ht
      obtain ⟨hkey, hentries⟩ := hbooks (settle_debit h hr hp hd hc).2
      exact ⟨rfl, hkey, hentries, fun hn => by rw [hp] at hn; cases hn⟩
    | false =>
      by_cases hroom : ∃ bal, m.state.balances.lookup r.cmd.toAcc = some bal
          ∧ ¬ bal > maxMoney - r.cmd.amount
      · obtain ⟨bal, hbal, hfits⟩ := hroom
        obtain ⟨hkey, hentries⟩ := hbooks (settle_credit hk hr ht hd hc hbal hfits).2
        exact ⟨rfl, hkey, hentries, fun _ => ⟨rfl, bal, hbal, hfits⟩⟩
      · refine (hsame (settle_credit_refused hk hr ht hd hc fun bal hbal => ?_).1).elim
        exact by_contra fun hfits => hroom ⟨bal, hbal, hfits⟩

theorem leg_of_apply {t : Transaction}
    (hist : (m.apply c).1.state.history = m.state.history ++ [t])
    (hk : IsLegKey id t.idempotencyKey) :
    c.txID = id ∧ c.op = .outcome ∧ ∃ r, m.txs.lookup c.txID = some r ∧ ¬ r.phase.terminal
      ∧ (m.settle c r).1.history = m.state.history ++ [t] := by
  obtain ⟨st, txs, res, hst, -, -, he⟩ := exists_effect m c
  rw [hst] at hist
  by_cases hid : id = c.txID
  · subst hid
    cases he with
    | nothing | decision => exact absurd hist ne_append_singleton
    | client => exact absurd hk ((State.sameLegs_apply _ _ _).not_leg hist)
    | vote =>
      rw [history_ballot] at hist
      exact absurd hist ne_append_singleton
    | outcome hop hr ht => exact ⟨rfl, hop, _, hr, ht, hist⟩
  · exact absurd hk ((sameLegs_effect he hid).1.not_leg hist)

/-- **No money moves without a vote**, exactly as long as no credit is committed on the strength of
a decision alone: every leg that is booked was prepared here, by an earlier prepare that was
answered with YES for the same side, account and amount. -/
theorem leg_needs_vote_iff (es : List Event) (m : Machine) (d : Bytes)
    (hrun : execAll step {} es = some m) :
    (∀ id t, (m.applyData d).1.state.history = m.state.history ++ [t] →
        IsLegKey id t.idempotencyKey →
        m.phase id = .prepared ∧ ∃ debit account amount, Voted es id debit account amount
          ∧ t.idempotencyKey = legKey id debit ∧ t.entries = [legEntry debit account amount])
      ↔ ¬ m.CreditsUnvoted d := by
  have h := reached_of_run hrun
  constructor
  · rintro hall ⟨c, r, bal, hd, hop, hc, hr, hp, hdeb, hbal, hroom⟩
    have ht : ¬ r.phase.terminal := by rw [hp]; decide
    obtain ⟨t, hist, hkey, -⟩ := (settle_credit (h.kept _) hr ht hdeb hc hbal hroom).2.leg
    have happ : (m.applyData d).1.state = (m.settle c r).1 := by
      rw [applyData_of_ok hd, apply, hop]
      dsimp only
      rw [applyOutcome, hr]
      dsimp only
      rw [if_neg ht]
    have hprep := (hall c.txID t (happ ▸ hist) (hkey ▸ .inr rfl)).1
    rw [phase_eq hr, hp] at hprep
    cases hprep
  · intro hno id t hist hk
    cases hd : decodeCommand d with
    | error err =>
      rw [applyData, hd] at hist
      exact absurd hist ne_append_singleton
    | ok c =>
      rw [applyData_of_ok hd] at hist
      obtain ⟨rfl, hop, r, hr, ht, hsettle⟩ := leg_of_apply hist hk
      obtain ⟨hc, hkey, hentries, hnone⟩ := leg_of_settle h hr ht hsettle
      have hp : r.phase = .prepared := by
        cases hp : r.phase with
        | none =>
          obtain ⟨hdeb, bal, hbal, hroom⟩ := hnone hp
          exact absurd ⟨c, r, bal, hd, hop, hc, hr, hp, hdeb, hbal, hroom⟩ hno
        | prepared => rfl
        | committed => exact absurd (.inl hp) ht
        | aborted => exact absurd (.inr hp) ht
      have hvoted := Promised.voted hrun ⟨r, hr, hp, rfl, rfl, rfl⟩
      exact ⟨by rw [phase_eq hr, hp], _, _, _, hvoted, hkey, hentries⟩

/-- The decision to commit the credit of `t`, at a shard that never voted on it. -/
def creditDecision : Bytes :=
  [2, 0, 1, 116, 1, 0, 0, 0, 0, 0] ++ [3, 1, 0, 116, 0, 0, 1, 0, 65, 10, 0, 0, 0, 0, 0, 0, 0]

/-- The credit leg of `t`, as the second transaction. -/
def secondCredit : Transaction :=
  { seq := 2, op := .transfer, idempotencyKey := internalKey [116] (str "credit"),
    entries := [⟨[65], 10⟩], timestamp := .zero }

/-- A decision and an outcome credit `A` with 10, and no prepare was ever applied. -/
theorem credit_without_vote :
    ∃ m, execAll step {} [.data openEntry, .data creditDecision] = some m ∧ m.phase [116] = .none
      ∧ (m.applyData commitEntry).1.state.history = m.state.history ++ [secondCredit]
      ∧ IsLegKey [116] secondCredit.idempotencyKey := by
  obtain ⟨m, hm, hph, hist⟩ : ∃ m ∈ execAll step {} [.data openEntry, .data creditDecision],
      m.phase [116] = .none ∧ (m.applyData commitEntry).1.state.history
        = m.state.history ++ [secondCredit] := by
    decide +kernel
  exact ⟨m, hm, hph, hist, .inr rfl⟩

theorem txID_commitEntry {c : Command} (hc : decodeCommand commitEntry = .ok c) :
    c.txID = [116] ∧ c.op = .outcome ∧ c.commit = true := by
  have h : (decodeCommand commitEntry).toOption.all
      (fun c => decide (c.txID = [116] ∧ c.op = .outcome ∧ c.commit = true)) = true := by
    decide +kernel
  rw [hc] at h
  exact of_decide_eq_true h

/-- The same credit with a vote. -/
theorem credit_with_vote :
    ∃ m, execAll step {} [.data openEntry, .data plainPrepareEntry] = some m
      ∧ (m.applyData commitEntry).1.state.history = m.state.history ++ [secondCredit]
      ∧ ∃ debit account amount,
          Voted [.data openEntry, .data plainPrepareEntry] [116] debit account amount
            ∧ secondCredit.entries = [legEntry debit account amount] := by
  obtain ⟨m, hm, hph, hist⟩ : ∃ m ∈ execAll step {} [.data openEntry, .data plainPrepareEntry],
      m.phase [116] = .prepared ∧ (m.applyData commitEntry).1.state.history
        = m.state.history ++ [secondCredit] := by
    decide +kernel
  have hno : ¬ m.CreditsUnvoted commitEntry := by
    rintro ⟨c, r, bal, hd, -, -, hr, hnone, -⟩
    rw [(txID_commitEntry hd).1] at hr
    rw [phase_eq hr, hnone] at hph
    cases hph
  obtain ⟨-, debit, account, amount, hv, -, he⟩ :=
    (leg_needs_vote_iff _ m commitEntry hm).2 hno [116] secondCredit hist (.inr rfl)
  exact ⟨m, hm, hist, debit, account, amount, hv, he⟩

/-! ## Is a YES vote honoured? -/

/-- The bytes settle the promise `p` as it was made. -/
structure Honoured (m : Machine) (d : Bytes) (p : Command) : Prop where
  ok : (m.applyData d).2.ok = true
  books : Books m.state (m.applyData d).1.state p.txID p.debit (sideAccount p.debit p.ledger)
    p.ledger.amount
  phase : (m.applyData d).1.phase p.txID = .committed

/-- A first prepare that is answered with YES makes a promise; a credit is for a positive amount. -/
theorem promised_of_yes {p : Command} (hop : p.op = .prepare) (hnew : m.txs.lookup p.txID = none)
    (hyes : (m.apply p).2.ok = true) :
    (m.apply p).1.Promised p.txID p.debit (sideAccount p.debit p.ledger) p.ledger.amount
      ∧ (p.debit = false → 0 < p.ledger.amount.toInt) := by
  have happ : m.apply p = m.vote p := by
    rw [apply, hop]
    dsimp only
    rw [applyPrepare, hnew]
  rw [happ] at hyes ⊢
  have hballot : (m.ballot p).2.ok = true := hyes
  constructor
  · rw [Promised, vote]
    dsimp only
    rw [AList.lookup_insert, hballot]
    exact ⟨_, rfl, rfl, rfl, rfl, rfl⟩
  · intro hd
    rw [ballot, hd, if_neg Bool.false_ne_true] at hballot
    exact State.pos_of_not_le (State.prepareCredit_pos p.txID hballot)

theorem apply_commit (hr : m.txs.lookup c.txID = some r) (ht : ¬ r.phase.terminal)
    (hop : c.op = .outcome) (hc : c.commit = true) :
    (m.apply c).1.state = (m.settle c r).1 ∧ (m.apply c).2 = (m.settle c r).2
      ∧ (m.apply c).1.phase c.txID = .committed := by
  have happ : m.apply c = ({ m with state := (m.settle c r).1
                                    txs := m.txs.insert c.txID (outcomeRecord r c) },
      (m.settle c r).2) := by
    rw [apply, hop]
    dsimp only
    rw [applyOutcome, hr]
    dsimp only
    rw [if_neg ht]
  rw [happ]
  refine ⟨rfl, rfl, ?_⟩
  rw [phase, AList.lookup_insert]
  dsimp only
  rw [outcomeRecord, hc]
  rfl

/-- **A YES vote is a guarantee**, for a debit always, and for a credit exactly if the balance of
the account has room for it when the outcome arrives.  The record says committed in either case. -/
theorem vote_honoured_iff (es es' : List Event) (m m' : Machine) (d d' : Bytes) (p c : Command)
    (hrun : execAll step {} es = some m) (hd : decodeCommand d = .ok p) (hprep : p.op = .prepare)
    (hnew : m.tx p.txID = none) (hyes : (m.applyData d).2.ok = true)
    (hrun' : execAll step (m.applyData d).1 es' = some m') (hno : ∀ e ∈ es', ¬ IsOutcome p.txID e)
    (hd' : decodeCommand d' = .ok c) (hop : c.op = .outcome) (hc : c.commit = true)
    (hid : c.txID = p.txID) :
    m'.Honoured d' p
      ↔ (p.debit = false → ∀ bal, m'.state.balances.lookup p.ledger.toAcc = some bal →
        bal.toInt + p.ledger.amount.toInt < 2 ^ 63) := by
  rw [applyData_of_ok hd] at hyes hrun'
  obtain ⟨hpromise, hpos⟩ := promised_of_yes hprep hnew hyes
  have h₁ : Reached (m.apply p).1 :=
    (reached_of_run hrun).step (e := .data d) (by rw [step, applyData_of_ok hd])
  have h := h₁.run hrun'
  obtain ⟨r, hr, hp, hdeb, hacc, ham⟩ := hpromise.run h₁ hrun' hno
  rw [← hid] at hr
  have ht : ¬ r.phase.terminal := by rw [hp]; decide
  obtain ⟨hst, hres, hphase⟩ := apply_commit hr ht hop hc
  have hiff : m'.Honoured d' p ↔ (m'.settle c r).2.ok = true
      ∧ Books m'.state (m'.settle c r).1 p.txID p.debit (sideAccount p.debit p.ledger)
          p.ledger.amount := by
    constructor
    · rintro ⟨hok, hbooks, -⟩
      rw [applyData_of_ok hd'] at hok hbooks
      exact ⟨hres ▸ hok, hst ▸ hbooks⟩
    · rintro ⟨hok, hbooks⟩
      refine ⟨?_, ?_, ?_⟩ <;> rw [applyData_of_ok hd']
      · rw [hres]; exact hok
      · rw [hst]; exact hbooks
      · rw [← hid]; exact hphase
  rw [hiff, ← hacc, ← ham, ← hid, ← hdeb]
  cases hside : r.debit with
  | true => exact iff_of_true (settle_debit h hr hp hside hc) nofun
  | false =>
    have hmem := (h.kept c.txID).account r hr hp hside
    obtain ⟨bal, hbal⟩ := Option.isSome_iff_exists.1 (AList.lookup_isSome.2 hmem)
    have hto : p.ledger.toAcc = r.cmd.toAcc := by
      rw [← hdeb, hside] at hacc
      exact hacc.symm
    rw [hto]
    have hroom : ¬ bal > maxMoney - r.cmd.amount ↔ _ :=
      not_overflow_iff (h.sound.balance_nonneg hbal)
    have hamount : 0 ≤ r.cmd.amount.toInt := by
      rw [ham]
      exact (hpos (hdeb ▸ hside)).le
    by_cases hfits : bal > maxMoney - r.cmd.amount
    · refine iff_of_false (fun hok => ?_) fun hall => ?_
      · have hno := (settle_credit_refused (h.kept _) hr ht hside hc fun b hb => by
          rw [hbal, Option.some.injEq] at hb
          exact hb ▸ hfits).2
        rw [hok.1] at hno
        cases hno
      · exact hroom.2 ⟨hamount, hall rfl bal hbal⟩ hfits
    · refine iff_of_true (settle_credit (h.kept _) hr ht hside hc hbal hfits) fun _ b hb => ?_
      rw [hbal, Option.some.injEq] at hb
      exact hb ▸ (hroom.1 hfits).2

/-- Opens account `A` five below the largest amount. -/
def openRichEntry : Bytes :=
  [4, 0, 0, 0, 0, 0, 0, 0, 0]
    ++ [4, 1, 0, 107, 0, 0, 1, 0, 65, 250, 255, 255, 255, 255, 255, 255, 127]

/-- The prepare of the credit to `A`, as a command. -/
def creditPrepare : Command :=
  { op := .prepare, txID := [116], commit := false, debit := false, participants := [],
    coordinator := [],
    ledger := { op := .transfer, idempotencyKey := [116], fromAcc := [], toAcc := [65],
                amount := 10, timestamp := .zero } }

/-- A full account votes YES for a credit and then refuses it; the record says committed. -/
theorem full_account_breaks_promise :
    ∃ m, execAll step {} [.data openRichEntry] = some m ∧ m.tx [116] = none
      ∧ decodeCommand plainPrepareEntry = .ok creditPrepare
      ∧ (m.applyData plainPrepareEntry).2.ok = true
      ∧ ¬ (m.applyData plainPrepareEntry).1.Honoured commitEntry creditPrepare
      ∧ ((m.applyData plainPrepareEntry).1.applyData commitEntry).1.phase [116] = .committed := by
  obtain ⟨m, hm, hnew, hyes, hno, hph⟩ : ∃ m ∈ execAll step {} [.data openRichEntry],
      m.tx [116] = none ∧ (m.applyData plainPrepareEntry).2.ok = true
        ∧ ((m.applyData plainPrepareEntry).1.applyData commitEntry).2.ok = false
        ∧ ((m.applyData plainPrepareEntry).1.applyData commitEntry).1.phase [116] = .committed := by
    decide +kernel
  refine ⟨m, hm, hnew, by decide +kernel, hyes, fun hh => ?_, hph⟩
  rw [hh.ok] at hno
  cases hno

/-- An account with room keeps it, through a snapshot. -/
theorem promise_honoured :
    ∃ m m', execAll step {} [.data openEntry] = some m
      ∧ execAll step (m.applyData plainPrepareEntry).1 [.roundTrip] = some m'
      ∧ m'.Honoured commitEntry creditPrepare := by
  obtain ⟨m, hm, hnew, hyes, m', hm', hbal⟩ : ∃ m ∈ execAll step {} [.data openEntry],
      m.tx [116] = none ∧ (m.applyData plainPrepareEntry).2.ok = true ∧
        ∃ m' ∈ execAll step (m.applyData plainPrepareEntry).1 [.roundTrip],
          m'.state.balances.lookup [65] = some 100 := by
    decide +kernel
  have hcommit : ∃ c, decodeCommand commitEntry = .ok c := by
    have : (decodeCommand commitEntry).toOption.isSome = true := by decide +kernel
    cases hd : decodeCommand commitEntry with
    | ok c => exact ⟨c, rfl⟩
    | error e => rw [hd] at this; cases this
  obtain ⟨c, hc⟩ := hcommit
  obtain ⟨hid, hop, hflag⟩ := txID_commitEntry hc
  refine ⟨m, m', hm, hm',
    (vote_honoured_iff _ _ m m' plainPrepareEntry commitEntry creditPrepare c hm
      (by decide +kernel) rfl hnew hyes hm' ?_ hc hop hflag hid).2 fun _ bal hb => ?_⟩
  · intro e he
    rw [List.mem_singleton.1 he]
    exact not_false
  · have : creditPrepare.ledger.toAcc = [65] := rfl
    rw [this, hbal, Option.some.injEq] at hb
    rw [← hb]
    decide

end Machine
end CoreBank.Shard
