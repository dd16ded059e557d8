import Mathlib.Algebra.BigOperators.Group.Finset.Sigma
import CoreBank.Lib.Sums
import CoreBank.Shard.Guarantees
import CoreBank.Shard.Legs

/-!
# Money across the shards

A transfer between shards is booked in two ledgers, with one log entry each, and no ledger shows
both.  Over all shards, the balances differ from what clients have paid in and out by the legs that
are booked without the other one, and by nothing else (`money_conserved`).
-/

set_option autoImplicit false

namespace CoreBank
namespace Ledger

open Sums Words

/-! ## One ledger -/

/-- What a transaction adds to the balances. -/
def Transaction.net (t : Transaction) : Int := total (t.entries.map Entry.amount)

/-- `Balances`, without the accounts. -/
def State.amounts (s : State) : List Money := s.balances.entries.map Sigma.snd

theorem total_amountsOf_cons (e : Entry) (es : List Entry) (id : AccountID) :
    total (amountsOf (e :: es) id)
      = (if e.account = id then e.amount.toInt else 0) + total (amountsOf es id) := by
  by_cases h : e.account = id <;> simp [amountsOf, h]

/-- Entries can be added up account by account. -/
theorem sum_amountsOf (ids : Finset AccountID) {es : List Entry} (h : ∀ e ∈ es, e.account ∈ ids) :
    ∑ id ∈ ids, total (amountsOf es id) = total (es.map Entry.amount) := by
  induction es with
  | nil => simp [amountsOf]
  | cons e es ih =>
    obtain ⟨he, hes⟩ := List.forall_mem_cons.1 h
    simp only [total_amountsOf_cons, Finset.sum_add_distrib, Finset.sum_ite_eq, he, if_true, ih hes,
      List.map_cons, total_cons]

/-- **The balances are what the history adds up to.** -/
theorem State.Audited.total_amounts {s : State} (h : s.Audited) :
    total s.amounts = ∑ t ∈ s.history.toFinset, t.net := by
  -- the numbers tell the transactions apart
  have hnodup : s.history.Nodup :=
    List.Nodup.of_map Transaction.seq (h.numbered ▸ List.nodup_range' ..)
  rw [State.amounts, total, List.map_map, List.sum_toFinset _ hnodup]
  refine (sum_entries s.balances fun _ _ => h.sums).trans ?_
  rw [sum_amountsOf, State.postings, List.map_flatMap, total_flatMap]
  · rfl
  · exact fun e he => List.mem_toFinset.2 (AList.mem_keys.1 ((h.accounts _).2 ⟨e, he, rfl⟩))

/-- A client's transfer has two entries. -/
theorem two_entries_of_apply {s : State} {cmd : Command} {t : Transaction}
    (ht : t ∈ (s.apply cmd).1.history) (hop : t.op = .transfer) :
    t ∈ s.history ∨ t.entries.length = 2 := by
  have hlocked (ht : t ∈ (s.applyLocked cmd).1.history) : t ∈ s.history ∨ t.entries.length = 2 := by
    unfold State.applyLocked at ht
    cases hc : cmd.op <;> rw [hc] at ht <;> dsimp only at ht
    all_goals repeat' split at ht
    all_goals first
      | exact .inl ht
      | refine (List.mem_append.1 ht).imp_right fun ht => ?_
        obtain rfl := List.mem_singleton.1 ht
        cases hc.symm.trans hop
        try rfl
  unfold State.apply at ht
  split at ht
  · exact .inl ht
  split at ht
  · exact .inl ht
  dsimp only at ht
  split at ht
  · split at ht <;> exact .inl ht
  · exact hlocked ht

end Ledger

namespace Shard

open Ledger Hlc Sums Words ActionSystem Machine

/-! ## Legs in a history -/

theorem legKey_inj {a b : TxID} {d e : Bool} (h : legKey a d = legKey b e) : a = b ∧ d = e := by
  cases d <;> cases e
  · exact ⟨internalKey_inj h, rfl⟩
  · exact absurd h.symm (internalKey_debit_ne_credit _ _)
  · exact absurd h (internalKey_debit_ne_credit _ _)
  · exact ⟨internalKey_inj h, rfl⟩

theorem isLegKey_legKey (id : TxID) (d : Bool) : IsLegKey id (legKey id d) := by
  cases d
  · exact .inr rfl
  · exact .inl rfl

theorem Machine.Kept.eq_of_leg {m : Machine} {id : TxID} (h : Kept m id) {d : Bool}
    {t u : Transaction} (ht : t ∈ m.state.history) (hu : u ∈ m.state.history)
    (hkt : t.idempotencyKey = legKey id d) (hku : u.idempotencyKey = legKey id d) : t = u := by
  have hmt : t ∈ m.state.bookings (legKey id d) := List.mem_filter.2 ⟨ht, decide_eq_true hkt⟩
  have hmu : u ∈ m.state.bookings (legKey id d) := List.mem_filter.2 ⟨hu, decide_eq_true hku⟩
  obtain ⟨v, hv⟩ := List.length_eq_one_iff.1
    (Nat.le_antisymm (h.once _ (isLegKey_legKey id d)) (List.length_pos_of_mem hmt))
  rw [hv, List.mem_singleton] at hmt hmu
  exact hmt.trans hmu.symm

/-- A transaction that is a leg.  What a debit takes away is positive, so the sign can be turned. -/
def IsLeg (t : Transaction) : Prop :=
  ∃ id d account amount, t.idempotencyKey = legKey id d
    ∧ t.entries = [legEntry d account amount] ∧ (d = true → 0 < amount.toInt)

/-- A client's transaction; a transfer inside the shard has both its entries. -/
def IsOwn (t : Transaction) : Prop :=
  ¬ internalKeyPrefix.isPrefixOf t.idempotencyKey ∧ (t.op = .transfer → t.entries.length = 2)

variable {m : Machine} {t : Transaction}

theorem mem_history_settle (h : m.state.Sound) {c : Command} {r : TxRecord}
    (ht : t ∈ (m.settle c r).1.history) : t ∈ m.state.history ∨ IsLeg t := by
  rw [settle] at ht
  split at ht
  · split at ht
    · cases hv : m.state.reserves.lookup c.txID with
      | none =>
        rw [State.commitDebit_of_not_held hv] at ht
        exact .inl ht
      | some rv =>
        rw [(State.commitDebit_of_held hv _).2.1, List.mem_append, List.mem_singleton] at ht
        refine ht.imp_right ?_
        rintro rfl
        exact ⟨c.txID, true, rv.account, rv.amount, rfl, rfl, fun _ => (h.backed hv).1⟩
    · rw [State.commitCredit] at ht
      dsimp only at ht
      split at ht
      · exact .inl ht
      split at ht
      · exact .inl ht
      split at ht
      · exact .inl ht
      · refine (List.mem_append.1 ht).imp_right fun ht => ?_
        obtain rfl := List.mem_singleton.1 ht
        exact ⟨c.txID, false, _, _, rfl, rfl, fun h => by cases h⟩
  · rw [history_abortTx] at ht
    exact .inl ht

/-- What is known of the machine of a shard. -/
structure Tidy (m : Machine) : Prop where
  sound : m.state.Sound
  posted : ∀ t ∈ m.state.history, IsLeg t ∨ IsOwn t

theorem tidy_empty : Tidy {} := ⟨State.sound_empty, fun _ h => by cases h⟩

theorem Tidy.apply (h : Tidy m) (c : Command) : Tidy (m.apply c).1 := by
  refine ⟨sound_apply h.sound c, fun t ht => ?_⟩
  obtain ⟨st, txs, res, hst, -, -, he⟩ := exists_effect m c
  rw [hst] at ht
  cases he with
  | nothing | decision => exact h.posted t ht
  | client =>
    by_cases hold : t ∈ m.state.history
    · exact h.posted t hold
    · exact .inr ⟨(mem_history_apply ht).resolve_left hold,
        fun hop => (two_entries_of_apply ht hop).resolve_left hold⟩
  | vote => exact h.posted t (history_ballot m c ▸ ht)
  | outcome => exact (mem_history_settle h.sound ht).elim (h.posted t) .inl

/-! ## Runs -/

section Runs

variable (shardFor : AccountID → ID)

/-- Every ledger is tidy, and the shards are asked for the accounts they own. -/
structure Housed (w : World) : Prop where
  tidy : ∀ g, Tidy (w.group g).machine
  owned : ∀ g, ∀ c ∈ (w.group g).log, c.op = .prepare →
    shardFor (sideAccount c.debit c.ledger) = g

variable {shardFor} {w w' : World} {a : Action} {g g' : ID}

theorem owned_of_request {task : Task} {c : Command}
    (hreq : task.request shardFor = some (g, c)) (hop : c.op = .prepare) :
    shardFor (sideAccount c.debit c.ledger) = g := by
  obtain ⟨call, -, ⟨rfl, rfl⟩ | ⟨rfl, rfl⟩⟩ := call_of_prepare hreq hop
  · rfl
  · rfl

theorem Housed.step (h : Housed shardFor w) (hs : Step shardFor w a w') : Housed shardFor w' where
  tidy g := by
    generalize hg : w'.group g = gr'
    cases hg ▸ hs.groupStep g with
    | same | append => exact h.tidy g
    | apply c hc =>
      have ht := (h.tidy g).apply c
      exact ⟨ht.sound, ht.posted⟩
  owned g c hc hop := by
    rcases hs.mem_log hc with hc | ⟨pid, p, -, -, hreq⟩
    · exact h.owned g c hc hop
    · exact owned_of_request hreq hop

variable (hl : LegsInv w) (hh : Housed shardFor w) {id : TxID} {d : Bool}
  (ht : t ∈ (w.group g).machine.state.history) (hk : t.idempotencyKey = legKey id d)

include hl hh ht hk

/-- A leg goes back to a prepare at its shard, and moves the amount of that. -/
theorem exists_prepare_of_leg : ∃ c ∈ (w.group g).log, c.op = .prepare ∧ c.txID = id
    ∧ shardFor (sideAccount d c.ledger) = g
    ∧ t.net = if d then -c.ledger.amount.toInt else c.ledger.amount.toInt := by
  obtain ⟨cmd, ⟨c, hc, hop, hid, hd, rfl⟩, hnet⟩ : ∃ cmd, (w.group g).Asked id d cmd
      ∧ t.net = if d then -cmd.amount.toInt else cmd.amount.toInt := by
    cases d with
    | false =>
      obtain ⟨cmd, ha, he⟩ := (hl.legs g).credit id t ht hk
      exact ⟨cmd, ha, by simp [Transaction.net, he]⟩
    | true =>
      obtain ⟨cmd, ha, he⟩ := (hl.legs g).debit id t ht hk
      obtain ⟨_, _, account, amount, hk', he', hpos⟩ :=
        ((hh.tidy g).posted t ht).resolve_right fun h => h.1 (hk ▸ internalKey_hasPrefix _ _)
      obtain ⟨-, rfl⟩ := legKey_inj (hk.symm.trans hk')
      obtain ⟨-, rfl⟩ : cmd.fromAcc = account ∧ cmd.amount = amount := by
        simpa [legEntry, he] using he'
      have hpos := hpos rfl
      have hlt := cmd.amount.toInt_lt
      refine ⟨cmd, ha, ?_⟩
      rw [Transaction.net, he, List.map_singleton, total_cons, total_nil, if_pos rfl,
        Int64.toInt_neg, Int.bmod_eq_of_le (by omega) (by omega), add_zero]
  exact ⟨c, hc, hop, hid, hd ▸ hh.owned g c hc hop, hnet⟩

/-- Two legs of one transaction go back to the same request. -/
theorem exists_prepares_of_legs {e : Bool} {u : Transaction}
    (hu : u ∈ (w.group g').machine.state.history) (hku : u.idempotencyKey = legKey id e) :
    ∃ c c' : Command, c.ledger.SameRequest c'.ledger
      ∧ shardFor (sideAccount d c.ledger) = g ∧ shardFor (sideAccount e c'.ledger) = g'
      ∧ t.net = (if d then -c.ledger.amount.toInt else c.ledger.amount.toInt)
      ∧ u.net = if e then -c'.ledger.amount.toInt else c'.ledger.amount.toInt := by
  obtain ⟨c, hc, hop, hid, hg, hnet⟩ := exists_prepare_of_leg hl hh ht hk
  obtain ⟨c', hc', hop', hid', hg', hnet'⟩ := exists_prepare_of_leg hl hh hu hku
  have hor := hl.same g g' c hc c' hc' hop hop' (hid.trans hid'.symm)
  rw [hid] at hor
  exact ⟨c, c', hor.resolve_right (not_or.2 ⟨hl.not_aborted (isLegKey_legKey id d) ht hk,
    hl.not_aborted (isLegKey_legKey id e) hu hku⟩), hg, hg', hnet, hnet'⟩

/-- A leg is booked once, at one shard. -/
theorem leg_unique {u : Transaction} (hu : u ∈ (w.group g').machine.state.history)
    (hku : u.idempotencyKey = legKey id d) : g = g' ∧ t = u := by
  obtain ⟨c, c', hsame, rfl, rfl, -, -⟩ := exists_prepares_of_legs hl hh ht hk hu hku
  have hside : sideAccount d c.ledger = sideAccount d c'.ledger := by
    rw [sideAccount, sideAccount, hsame.2.2.1, hsame.2.2.2.1]
  rw [← hside] at hu ⊢
  exact ⟨rfl, (hl.kept _ _).eq_of_leg ht hu hk hku⟩

/-- The legs of one transaction cancel. -/
theorem net_add_net {u : Transaction} (hu : u ∈ (w.group g').machine.state.history)
    (hku : u.idempotencyKey = legKey id !d) : t.net + u.net = 0 := by
  obtain ⟨c, c', hsame, -, -, hnet, hnet'⟩ := exists_prepares_of_legs hl hh ht hk hu hku
  rw [hnet, hnet', hsame.2.2.2.2]
  cases d
  · exact Int.add_right_neg _
  · exact Int.add_left_neg _

end Runs

/-! ## All shards -/

/-- What stands in the histories, with the shard it stands at. -/
def World.booked (w : World) : Finset (Σ _ : ID, Transaction) :=
  w.groups.keys.toFinset.sigma fun g => (w.group g).machine.state.history.toFinset

/-- The balances that `ShardCluster.TotalMoney` goes through. -/
def World.balances (w : World) : List Money :=
  w.groups.entries.flatMap fun e => e.2.machine.state.amounts

/-- `ShardCluster.TotalMoney`. -/
def World.totalMoney (w : World) : Money := w.balances.sum

/-- What clients have paid in and out: everything they had booked but transfers. -/
def World.paidIn (w : World) : Int :=
  ∑ b ∈ w.booked with ¬ internalKeyPrefix.isPrefixOf b.2.idempotencyKey ∧ b.2.op ≠ .transfer,
    b.2.net

/-- Some shard has booked a transaction under this key. -/
def World.Books (w : World) (key : Str) : Prop := ∃ b ∈ w.booked, b.2.idempotencyKey = key

/-- A leg whose other leg no shard has booked. -/
def World.Unmatched (w : World) (b : Σ _ : ID, Transaction) : Prop :=
  ∃ id d, b.2.idempotencyKey = legKey id d ∧ ¬ w.Books (legKey id !d)

open Classical in
/-- What the legs without a counterpart have added to the balances. -/
noncomputable def World.unmatched (w : World) : Int :=
  ∑ b ∈ w.booked with w.Unmatched b, b.2.net

variable {shardFor : AccountID → ID} {w : World}

theorem mem_booked {b : Σ _ : ID, Transaction} :
    b ∈ w.booked ↔ b.2 ∈ (w.group b.1).machine.state.history := by
  rw [World.booked, Finset.mem_sigma, List.mem_toFinset, List.mem_toFinset, and_iff_right_iff_imp]
  intro hb
  by_contra hno
  rw [World.group, AList.lookup_eq_none.2 hno] at hb
  cases hb

open Classical in
/-- A leg whose counterpart is booked is paired with it. -/
theorem sum_matched (hl : LegsInv w) (hh : Housed shardFor w) :
    ∑ b ∈ w.booked.filter (fun b => internalKeyPrefix.isPrefixOf b.2.idempotencyKey)
      with ¬ w.Unmatched b, b.2.net = 0 := by
  refine sum_eq_zero_of_paired
    (fun b c => ∃ id d, b.2.idempotencyKey = legKey id d ∧ c.2.idempotencyKey = legKey id !d)
    ?_ ?_ ?_ ?_
  · rintro b c ⟨id, d, hb, hc⟩
    exact ⟨id, !d, hc, by rwa [Bool.not_not]⟩
  · intro b hb
    simp only [Finset.mem_filter] at hb ⊢
    obtain ⟨⟨hmem, hint⟩, hmat⟩ := hb
    obtain ⟨id, d, -, -, hk, -⟩ := ((hh.tidy b.1).posted b.2 (mem_booked.1 hmem)).resolve_right
      fun h => h.1 hint
    obtain ⟨c, hc, hck⟩ := not_not.1 fun hno => hmat ⟨id, d, hk, hno⟩
    refine ⟨c, ⟨⟨hc, hck ▸ internalKey_hasPrefix _ _⟩, ?_⟩, id, d, hk, hck⟩
    rintro ⟨id', d', hck', hno⟩
    obtain ⟨rfl, rfl⟩ := legKey_inj (hck.symm.trans hck')
    exact hno ⟨b, hmem, by rwa [Bool.not_not]⟩
  · rintro a b hb c hc ⟨id, d, hak, hbk⟩ ⟨id', d', hak', hck⟩
    simp only [Finset.mem_filter, mem_booked] at hb hc
    obtain ⟨rfl, rfl⟩ := legKey_inj (hak.symm.trans hak')
    obtain ⟨hg, ht⟩ := leg_unique hl hh hb.1.1 hbk hc.1.1 hck
    exact Sigma.ext hg (heq_of_eq ht)
  · rintro b hb c hc ⟨id, d, hbk, hck⟩
    simp only [Finset.mem_filter, mem_booked] at hb hc
    exact net_add_net hl hh hb.1.1 hbk hc.1.1 hck

theorem total_balances (hh : Housed shardFor w) :
    total w.balances = ∑ b ∈ w.booked, b.2.net := by
  rw [World.balances, total_flatMap, World.booked, Finset.sum_sigma,
    sum_entries w.groups (f := fun gr => total gr.machine.state.amounts)
      (g := fun g => total (w.group g).machine.state.amounts)
      fun g gr h => by rw [World.group, h, Option.getD_some]]
  exact Finset.sum_congr rfl fun g _ => (hh.tidy g).sound.toAudited.total_amounts

/-- A transfer inside a shard adds nothing. -/
theorem sum_own (hh : Housed shardFor w) :
    ∑ b ∈ w.booked with ¬ internalKeyPrefix.isPrefixOf b.2.idempotencyKey, b.2.net = w.paidIn := by
  rw [World.paidIn, ← Finset.filter_filter]
  symm
  refine Finset.sum_filter_of_ne fun b hb hne => ?_
  intro hop
  refine hne ?_
  obtain ⟨hmem, hext⟩ := Finset.mem_filter.1 hb
  have ht := mem_booked.1 hmem
  rcases (hh.tidy b.1).posted b.2 ht with ⟨id, d, -, -, hk, -⟩ | hown
  · exact absurd (hk ▸ internalKey_hasPrefix _ _) hext
  · exact ((hh.tidy b.1).sound.balanced b.2 ht).cancels hop (hown.2 hop)

open Classical in
/-- **Money is conserved.**  In every run in which no id is prepared for two requests, other than
where it is aborted, the balances of all shards are at every moment what clients have paid in and
out, and the legs that have no counterpart; `TotalMoney` is that sum in 64 bits.  Once every debit
has its credit and every credit its debit, nothing has been made or lost. -/
theorem money_conserved (shardFor : AccountID → ID) {as : List Action} {w : World}
    (hrun : Run (fun w a w' => exec shardFor w a = some w' ∧ Unmixed shardFor w a) {} as w) :
    total w.balances = w.paidIn + w.unmatched
      ∧ w.totalMoney.toInt = (w.paidIn + w.unmatched).bmod (2 ^ 64)
      ∧ ((∀ id, w.Books (legKey id true) ↔ w.Books (legKey id false)) → w.unmatched = 0) := by
  have hl : LegsInv w :=
    hrun.invariant (fun _ _ _ hs hi => hi.step (step_of_exec hs.1) hs.2) legsInv_init
  have hh : Housed shardFor w := hrun.invariant (fun _ _ _ hs hi => hi.step (step_of_exec hs.1))
    ⟨fun _ => tidy_empty, fun _ _ h => by cases h⟩
  have hsum : total w.balances = w.paidIn + w.unmatched := by
    rw [total_balances hh, ← sum_own hh, World.unmatched,
      ← Finset.sum_filter_add_sum_filter_not w.booked
        fun b => internalKeyPrefix.isPrefixOf b.2.idempotencyKey,
      ← Finset.sum_filter_add_sum_filter_not (w.booked.filter _) w.Unmatched, sum_matched hl hh,
      add_zero, add_comm, Finset.filter_filter]
    refine congrArg _ (Finset.sum_congr (Finset.filter_congr fun b _ => ?_) fun _ _ => rfl)
    refine and_iff_right_of_imp ?_
    rintro ⟨id, d, hk, -⟩
    exact hk ▸ internalKey_hasPrefix _ _
  refine ⟨hsum, hsum ▸ toInt_sum w.balances, fun hdone => ?_⟩
  rw [World.unmatched, Finset.filter_false_of_mem, Finset.sum_empty]
  rintro b hb ⟨id, d, hk, hno⟩
  cases d
  · exact hno ((hdone id).2 ⟨b, hb, hk⟩)
  · exact hno ((hdone id).1 ⟨b, hb, hk⟩)

open Schedule in
/-- Alice has paid and bob has not been paid yet. -/
theorem money_conserved_attempt : ∃ w,
    Run (fun w a w' => exec ring w a = some w' ∧ Unmixed ring w a) {} (opening ++ attempt) w
      ∧ w.paidIn = 100 ∧ w.totalMoney = 70 ∧ w.unmatched = -30 := by
  obtain ⟨w, hrun, hin, htotal, hw⟩ : ∃ w,
      Run (fun w a w' => exec ring w a = some w' ∧ Unmixed ring w a) {} (opening ++ attempt) w
        ∧ w.paidIn = 100 ∧ w.totalMoney = 70 ∧ total w.balances = 70 :=
    exists_run_guarded (by decide +kernel)
  have hsum := (money_conserved ring hrun).1
  exact ⟨w, hrun, hin, htotal, by omega⟩

end Shard
end CoreBank
