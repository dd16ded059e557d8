import CoreBank.Lib.Maps
import CoreBank.Lib.Trace
import CoreBank.Lib.Words
import CoreBank.Ledger.State

/-!
# The books of one ledger

Two invariants of `State`, which every operation keeps.  `Solvent` is about what an account can pay:
reservations are positive, belong to accounts that exist, and never exceed the balance.  `Audited`
is about the history: it numbers its transactions, every balance is the integer sum of the entries
posted to the account, and no transfer creates money.

They are proved together (`Sound`): an addition to a balance is exact only if the overflow check
before it was, and that check is about balances that are not negative.

## What is here

* `Solvent`, `Audited`, `Sound`, and the three ways the operations change a sound state: an entry is
  posted (`Sound.post`), funds are reserved (`Sound.reserve`), a reservation ends (`Sound.release`);
* `applyTraced` and the other operations with the additions and subtractions on balances that they
  perform;
* `verifyDoubleEntry` — the audit of the source, which finds nothing in a sound state.
-/

set_option autoImplicit false

namespace CoreBank.Ledger

open Hlc Trace Words

variable {bal amount : Money}

/-- The guard of every credit.  It is written as a subtraction from the largest amount, which wraps
for a negative amount, and then refuses it. -/
theorem not_overflow (hb : 0 ≤ bal.toInt) (h : ¬ bal > maxMoney - amount) :
    0 ≤ amount.toInt ∧ bal.toInt + amount.toInt < 2 ^ 63 := by
  rw [gt_iff_lt, Int64.lt_iff_toInt_lt, maxMoney, Int64.toInt_sub, Int64.toInt_maxValue] at h
  have hl := amount.le_toInt
  have hu := amount.toInt_lt
  rcases Int.lt_or_le amount.toInt 0 with hneg | hpos
  · have hwrap : (2 ^ 63 - 1 - amount.toInt).bmod (2 ^ 64) < 0 := by
      rw [Int.bmod_def]
      split <;> omega
    omega
  · rw [Int.bmod_eq_of_le (by omega) (by omega)] at h
    omega

/-- What the overflow check checks. -/
theorem not_overflow_iff (hb : 0 ≤ bal.toInt) :
    ¬ bal > maxMoney - amount ↔ 0 ≤ amount.toInt ∧ bal.toInt + amount.toInt < 2 ^ 63 := by
  refine ⟨not_overflow hb, fun ⟨hpos, hfits⟩ => ?_⟩
  rw [gt_iff_lt, Int64.lt_iff_toInt_lt, maxMoney, Int64.toInt_sub, Int64.toInt_maxValue,
    Int.bmod_eq_of_le (by omega) (by omega)]
  omega

/-- The amounts of the entries for an account. -/
def amountsOf (es : List Entry) (id : AccountID) : List Money :=
  (es.filter fun e => e.account == id).map Entry.amount

theorem amountsOf_append (es es' : List Entry) (id : AccountID) :
    amountsOf (es ++ es') id = amountsOf es id ++ amountsOf es' id := by
  rw [amountsOf, amountsOf, amountsOf, List.filter_append, List.map_append]

variable {id : AccountID}

theorem amountsOf_eq_nil {es : List Entry} (h : ¬ ∃ e ∈ es, e.account = id) :
    amountsOf es id = [] := by
  rw [amountsOf, List.map_eq_nil_iff, List.filter_eq_nil_iff]
  intro e he heq
  exact h ⟨e, he, beq_iff_eq.1 heq⟩

theorem amountsOf_singleton (id' id : AccountID) (d : Money) :
    amountsOf [⟨id', d⟩] id = if id' = id then [d] else [] := by
  by_cases h : id' = id <;> simp [amountsOf, h]

/-- What `record` insists on, and that a transfer inside the shard cancels in the integers. -/
structure Transaction.Balanced (t : Transaction) : Prop where
  accepted : t.balances = true
  cancels : t.op = .transfer → t.entries.length = 2 → total (t.entries.map Entry.amount) = 0

theorem Transaction.balanced_singleton {t : Transaction} {e : Entry} (h : t.entries = [e]) :
    t.Balanced where
  accepted := by simp [Transaction.balances, h]
  cancels := fun _ hlen => by simp [h] at hlen

namespace State

/-- The amounts reserved against an account. -/
def holds (s : State) (id : AccountID) : List Money :=
  (s.reserves.entries.filter fun r => r.2.account == id).map fun r => r.2.amount

theorem reservedLocked_eq (s : State) (id : AccountID) : s.reservedLocked id = (s.holds id).sum :=
  rfl

/-- The entries of the whole history. -/
def postings (s : State) : List Entry := s.history.flatMap Transaction.entries

/-- What an account can be asked for is there. -/
structure Solvent (s : State) : Prop where
  /-- A reservation is for a positive amount on an account that exists. -/
  backed : ∀ {tx r}, s.reserves.lookup tx = some r → 0 < r.amount.toInt ∧ r.account ∈ s.balances
  /-- Reservations do not exceed the balance. -/
  covered : ∀ {id bal}, s.balances.lookup id = some bal → total (s.holds id) ≤ bal.toInt

/-- The balances are what the history says. -/
structure Audited (s : State) : Prop where
  seq_eq : s.seq = s.history.length
  /-- The transactions are numbered from one on. -/
  numbered : s.history.map Transaction.seq = List.range' 1 s.history.length
  balanced : ∀ t ∈ s.history, t.Balanced
  /-- The accounts are those of the history. -/
  accounts : ∀ id, id ∈ s.balances ↔ ∃ e ∈ s.postings, e.account = id
  /-- A balance is the integer sum of its entries. -/
  sums : ∀ {id bal}, s.balances.lookup id = some bal → bal.toInt = total (amountsOf s.postings id)

/-- No overdraft, and the books add up. -/
structure Sound (s : State) : Prop extends Solvent s, Audited s

/-- A balance as an integer; an account that does not exist holds nothing. -/
def balanceOf (s : State) (id : AccountID) : Int := ((s.balances.lookup id).map Int64.toInt).getD 0

variable {s : State}

theorem balanceOf_eq (h : s.balances.lookup id = some bal) :
    s.balanceOf id = bal.toInt := by
  rw [balanceOf, h]
  rfl

theorem mem_balances (h : s.balances.lookup id = some bal) : id ∈ s.balances :=
  AList.lookup_isSome.1 (h ▸ rfl)

/-! ## Reservations -/

theorem holds_eq_nil (h : ∀ tx r, s.reserves.lookup tx = some r → r.account ≠ id) :
    s.holds id = [] := by
  rw [holds, List.map_eq_nil_iff, List.filter_eq_nil_iff]
  rintro ⟨tx, r⟩ hmem heq
  exact h tx r (AList.mem_lookup_iff.2 hmem) (beq_iff_eq.1 heq)

variable {r : Reserve}

/-- A reservation and the others, as far as one account is concerned. -/
theorem holds_of_perm (s s' : State) {tx : Str}
    (h : s'.reserves.entries.Perm (⟨tx, r⟩ :: s.reserves.entries)) (id : AccountID) :
    total (s'.holds id) = (if r.account = id then r.amount.toInt else 0) + total (s.holds id) := by
  have hp := total_perm ((h.filter fun b => b.2.account == id).map fun b => b.2.amount)
  rw [holds, hp, List.filter_cons]
  by_cases hid : r.account = id <;> simp [hid, holds]

namespace Solvent

variable {s : State} {id : AccountID} {bal : Money} (hs : Solvent s)

include hs

theorem holds_pos : ∀ a ∈ s.holds id, 0 < a.toInt := by
  intro a ha
  obtain ⟨⟨tx, r⟩, hmem, rfl⟩ := List.mem_map.1 ha
  exact (hs.backed (AList.mem_lookup_iff.2 (List.mem_of_mem_filter hmem))).1

theorem held_nonneg (id : AccountID) : 0 ≤ total (s.holds id) :=
  total_nonneg fun a ha => (hs.holds_pos a ha).le

theorem balance_nonneg (hbal : s.balances.lookup id = some bal) : 0 ≤ bal.toInt :=
  (hs.held_nonneg id).trans (hs.covered hbal)

theorem toInt_reservedLocked (hbal : s.balances.lookup id = some bal) :
    (s.reservedLocked id).toInt = total (s.holds id) := by
  have hl := hs.held_nonneg id
  have hu := hs.covered hbal
  have hb := bal.toInt_lt
  rw [reservedLocked_eq]
  exact toInt_sum_of_fits (by omega) (by omega)

theorem toInt_available (hbal : s.balances.lookup id = some bal) :
    (bal - s.reservedLocked id).toInt = bal.toInt - total (s.holds id) := by
  have hl := hs.held_nonneg id
  have hu := hs.covered hbal
  have hb := bal.toInt_lt
  have hres := hs.toInt_reservedLocked hbal
  rw [← hres]
  exact toInt_sub_of_fits (by omega) (by omega)

theorem holds_of_notMem (h : id ∉ s.balances) : s.holds id = [] := by
  refine holds_eq_nil fun tx r hr hid => h ?_
  rw [← hid]
  exact (hs.backed hr).2

theorem setBalance {m : Money} (hm : total (s.holds id) ≤ m.toInt) :
    Solvent (s.setBalance id m) where
  backed := fun hr => ⟨(hs.backed hr).1, (AList.mem_insert _).2 (.inr (hs.backed hr).2)⟩
  covered := by
    intro id' bal' hbal
    by_cases hid : id' = id
    · subst hid
      rw [State.setBalance, AList.lookup_insert, Option.some.injEq] at hbal
      rwa [← hbal]
    · rw [State.setBalance, AList.lookup_insert_ne hid] at hbal
      exact hs.covered hbal

end Solvent

/-! ## Postings -/

theorem postings_record (s : State) (cmd : Command) (es : List Entry) :
    (s.record cmd es).postings = s.postings ++ es := by
  simp [postings, record]

theorem Audited.total_eq_balanceOf (ha : Audited s) (id : AccountID) :
    total (amountsOf s.postings id) = s.balanceOf id := by
  cases hbal : s.balances.lookup id with
  | some bal => rw [balanceOf_eq hbal, ← ha.sums hbal]
  | none =>
    have hnone : ¬ ∃ e ∈ s.postings, e.account = id := by
      rw [← ha.accounts]
      exact AList.lookup_eq_none.1 hbal
    rw [amountsOf_eq_nil hnone, balanceOf, hbal]
    rfl

/-- Recording a transaction keeps the books if the balances move by exactly its entries. -/
theorem Audited.record (ha : Audited s) {cmd : Command} {es : List Entry}
    {balances : Map AccountID Money}
    (hb : Transaction.Balanced ⟨s.seq + 1, cmd.op, cmd.idempotencyKey, es, cmd.timestamp⟩)
    (hacc : ∀ id, id ∈ balances ↔ id ∈ s.balances ∨ ∃ e ∈ es, e.account = id)
    (hsum : ∀ id bal, balances.lookup id = some bal →
      bal.toInt = s.balanceOf id + total (amountsOf es id)) :
    Audited (State.record { s with balances := balances } cmd es) where
  seq_eq := by simp [State.record, ha.seq_eq]
  numbered := by
    have hlen : (State.record { s with balances := balances } cmd es).history.length
        = s.history.length + 1 := by simp [State.record]
    rw [hlen, List.range'_concat, ← ha.numbered]
    simp [State.record, ha.seq_eq, Nat.add_comm]
  balanced := by
    intro t ht
    rcases List.mem_append.1 ht with ht | ht
    · exact ha.balanced t ht
    · rw [List.mem_singleton.1 ht]
      exact hb
  accounts := by
    intro id
    have hp : (State.record { s with balances := balances } cmd es).postings = s.postings ++ es :=
      postings_record _ _ _
    rw [hp]
    show id ∈ balances ↔ _
    rw [hacc, ha.accounts]
    simp only [List.mem_append, or_and_right, exists_or]
  sums := by
    intro id bal hbal
    have hp : (State.record { s with balances := balances } cmd es).postings = s.postings ++ es :=
      postings_record _ _ _
    rw [hp, amountsOf_append, total_append, ha.total_eq_balanceOf]
    exact hsum id bal hbal

section Sound

variable {s : State}

theorem Sound.post (h : Sound s) {m d : Money} (cmd : Command)
    (hm : m.toInt = s.balanceOf id + d.toInt) (hcov : total (s.holds id) ≤ m.toInt) :
    Sound ((s.setBalance id m).record cmd [⟨id, d⟩]) := by
  have hsolvent : Solvent (s.setBalance id m) := h.toSolvent.setBalance hcov
  refine { backed := hsolvent.backed, covered := hsolvent.covered, toAudited := ?_ }
  refine h.toAudited.record (Transaction.balanced_singleton rfl) ?_ ?_
  · intro id'
    rw [AList.mem_insert, or_comm]
    simp [eq_comm]
  · intro id' bal hbal
    rw [amountsOf_singleton]
    by_cases hid : id' = id
    · subst hid
      rw [AList.lookup_insert, Option.some.injEq] at hbal
      rw [← hbal, hm]
      simp
    · rw [AList.lookup_insert_ne hid] at hbal
      rw [if_neg (Ne.symm hid), balanceOf_eq hbal]
      simp

theorem Sound.reserve (h : Sound s) {tx : Str} (hnew : s.reserves.lookup tx = none)
    (hbal : s.balances.lookup r.account = some bal) (hpos : 0 < r.amount.toInt)
    (hroom : total (s.holds r.account) + r.amount.toInt ≤ bal.toInt) :
    Sound { s with reserves := s.reserves.insert tx r } := by
  have hperm : (s.reserves.insert tx r).entries.Perm (⟨tx, r⟩ :: s.reserves.entries) := by
    rw [AList.entries_insert_of_notMem (AList.lookup_eq_none.1 hnew)]
  have hheld := holds_of_perm s { s with reserves := s.reserves.insert tx r } hperm
  refine { toAudited := { h.toAudited with }, backed := ?_, covered := ?_ }
  · intro tx' r' hr'
    by_cases htx : tx' = tx
    · subst htx
      rw [AList.lookup_insert, Option.some.injEq] at hr'
      subst hr'
      exact ⟨hpos, mem_balances hbal⟩
    · rw [AList.lookup_insert_ne htx] at hr'
      exact h.backed hr'
  · intro id' bal' hbal'
    have hcov := h.covered hbal'
    rw [hheld]
    split
    next heq =>
      subst heq
      have hsame : bal = bal' := Option.some.inj (hbal.symm.trans hbal')
      subst hsame
      omega
    · omega

/-- A reservation ends; the balance may drop by what it held. -/
theorem Solvent.release (h : Solvent s) {tx : Str} (hr : s.reserves.lookup tx = some r) :
    Solvent { s with reserves := s.reserves.erase tx } ∧
      ∀ id, total (s.holds id) = (if r.account = id then r.amount.toInt else 0)
        + total (({ s with reserves := s.reserves.erase tx } : State).holds id) := by
  have hheld := holds_of_perm { s with reserves := s.reserves.erase tx } s
    (Maps.entries_perm_cons_erase hr)
  refine ⟨{ backed := ?_, covered := ?_ }, hheld⟩
  · intro tx' r' hr'
    by_cases htx : tx' = tx
    · subst htx
      rw [AList.lookup_erase] at hr'
      cases hr'
    · rw [AList.lookup_erase_ne htx] at hr'
      exact h.backed hr'
  · intro id' bal' hbal'
    have hcov := h.covered hbal'
    have hpos := (h.backed hr).1
    have hid := hheld id'
    split at hid <;> omega

/-! ## Every operation keeps the books -/

theorem Solvent.toInt_sub (h : Solvent s) (hpos : 0 < amount.toInt)
    (hroom : total (s.holds id) + amount.toInt ≤ bal.toInt) :
    (bal - amount).toInt = bal.toInt - amount.toInt := by
  have hl := h.held_nonneg id
  have hu := bal.toInt_lt
  exact toInt_sub_of_fits (by omega) (by omega)

theorem Solvent.toInt_add (h : Solvent s) (hbal : s.balances.lookup id = some bal)
    (hroom : ¬ bal > maxMoney - amount) :
    (bal + amount).toInt = bal.toInt + amount.toInt := by
  have hb := h.balance_nonneg hbal
  obtain ⟨hnn, hu⟩ := not_overflow hb hroom
  exact toInt_add_of_fits (by omega) (by omega)

/-- What `available` guards: a debit that passes the check leaves the reservations covered. -/
theorem Sound.post_debit (h : Sound s) (cmd : Command) (hbal : s.balances.lookup id = some bal)
    (hpos : 0 < amount.toInt) (hroom : total (s.holds id) + amount.toInt ≤ bal.toInt) :
    Sound ((s.setBalance id (bal - amount)).record cmd [⟨id, -amount⟩]) := by
  have hsub := h.toInt_sub hpos hroom
  have hneg : (-amount).toInt = -amount.toInt := toInt_neg_of_nonneg hpos.le
  refine h.post cmd ?_ ?_
  · rw [balanceOf_eq hbal, hsub, hneg]
    omega
  · omega

theorem Sound.post_credit (h : Sound s) (cmd : Command) (hbal : s.balances.lookup id = some bal)
    (hroom : ¬ bal > maxMoney - amount) :
    Sound ((s.setBalance id (bal + amount)).record cmd [⟨id, amount⟩]) := by
  have hadd := h.toInt_add hbal hroom
  have hnn := (not_overflow (h.balance_nonneg hbal) hroom).1
  refine h.post cmd ?_ ?_
  · rw [balanceOf_eq hbal, hadd]
  · have := h.covered hbal
    omega

theorem Sound.openAccount (h : Sound s) (cmd : Command) (hnew : s.balances.lookup id = none)
    (hpos : 0 ≤ amount.toInt) :
    Sound ((s.setBalance id amount).record cmd [⟨id, amount⟩]) := by
  refine h.post cmd ?_ ?_
  · rw [balanceOf, hnew]
    simp
  · rw [h.holds_of_notMem (AList.lookup_eq_none.1 hnew)]
    simpa using hpos

/-- A transfer inside the shard: both balances move, and its two entries cancel. -/
theorem Sound.post_transfer (h : Sound s) {cmd : Command} {balFrom balTo : Money}
    (hne : cmd.fromAcc ≠ cmd.toAcc) (hfrom : s.balances.lookup cmd.fromAcc = some balFrom)
    (hto : s.balances.lookup cmd.toAcc = some balTo) (hpos : 0 < cmd.amount.toInt)
    (hroom : total (s.holds cmd.fromAcc) + cmd.amount.toInt ≤ balFrom.toInt)
    (hover : ¬ balTo > maxMoney - cmd.amount) :
    Sound (((s.setBalance cmd.fromAcc (balFrom - cmd.amount)).setBalance cmd.toAcc
      (balTo + cmd.amount)).record cmd (transferEntries cmd)) := by
  have hsub := h.toInt_sub hpos hroom
  have hadd := h.toInt_add hto hover
  have hneg : (-cmd.amount).toInt = -cmd.amount.toInt := toInt_neg_of_nonneg hpos.le
  have hdebit : Solvent (s.setBalance cmd.fromAcc (balFrom - cmd.amount)) :=
    h.toSolvent.setBalance (by omega)
  have hsolvent : Solvent ((s.setBalance cmd.fromAcc (balFrom - cmd.amount)).setBalance cmd.toAcc
      (balTo + cmd.amount)) := by
    refine hdebit.setBalance ?_
    have hcov : total (s.holds cmd.toAcc) ≤ balTo.toInt := h.covered hto
    show total (s.holds cmd.toAcc) ≤ _
    omega
  have hentries (id : AccountID) : amountsOf (transferEntries cmd) id =
      (if cmd.fromAcc = id then [-cmd.amount] else [])
        ++ (if cmd.toAcc = id then [cmd.amount] else []) := by
    rw [← amountsOf_singleton, ← amountsOf_singleton, ← amountsOf_append]
    rfl
  refine { backed := hsolvent.backed, covered := hsolvent.covered, toAudited := ?_ }
  refine h.toAudited.record ⟨?_, ?_⟩ ?_ ?_
  · simp [Transaction.balances, transferEntries_balance]
  · intro _ _
    simp [transferEntries, hneg]
  · intro id
    have hmf := mem_balances hfrom
    have hmt := mem_balances hto
    simp only [setBalance, AList.mem_insert, transferEntries, List.mem_cons, List.not_mem_nil,
      or_false, exists_eq_or_imp, exists_eq_left, eq_comm (a := id)]
    tauto
  · intro id bal hbal
    rw [hentries]
    by_cases hidt : id = cmd.toAcc
    · subst hidt
      rw [AList.lookup_insert, Option.some.injEq] at hbal
      rw [← hbal, balanceOf_eq hto, hadd, if_neg hne]
      simp
    · rw [AList.lookup_insert_ne hidt] at hbal
      by_cases hidf : id = cmd.fromAcc
      · subst hidf
        rw [setBalance, AList.lookup_insert, Option.some.injEq] at hbal
        rw [← hbal, balanceOf_eq hfrom, hsub, if_neg (Ne.symm hidt)]
        simp [hneg, sub_eq_add_neg]
      · rw [setBalance, AList.lookup_insert_ne hidf] at hbal
        rw [balanceOf_eq hbal, if_neg (Ne.symm hidt), if_neg (Ne.symm hidf)]
        simp

theorem Solvent.room_of_available (h : Solvent s) (hbal : s.balances.lookup id = some bal)
    (havail : ¬ bal - s.reservedLocked id < amount) :
    total (s.holds id) + amount.toInt ≤ bal.toInt := by
  rw [Int64.lt_iff_toInt_lt, h.toInt_available hbal] at havail
  omega

/-- What a reservation held is available once it has ended. -/
theorem Solvent.room_of_release (h : Solvent s) {tx : Str} (hr : s.reserves.lookup tx = some r)
    (hbal : s.balances.lookup r.account = some bal) :
    total (({ s with reserves := s.reserves.erase tx } : State).holds r.account) + r.amount.toInt
      ≤ bal.toInt := by
  have hcov := h.covered hbal
  rw [(h.release hr).2, if_pos rfl] at hcov
  omega

theorem pos_of_not_le (h : ¬ amount ≤ 0) : 0 < amount.toInt := by
  rw [Int64.le_iff_toInt_le, Int64.toInt_zero] at h
  omega

theorem Sound.applyLocked (h : Sound s) (cmd : Command) : Sound (s.applyLocked cmd).1 := by
  rw [State.applyLocked]
  cases cmd.op with
  | openAccount =>
    dsimp only
    split
    · exact h
    next hnew =>
      split
      · exact h
      next hpos =>
        rw [Int64.lt_iff_toInt_lt, Int64.toInt_zero] at hpos
        exact h.openAccount cmd (by simpa using hnew) (by omega)
  | deposit =>
    dsimp only
    split
    · exact h
    split
    · exact h
    next bal hbal =>
      split
      · exact h
      next hroom => exact h.post_credit cmd hbal hroom
  | withdraw =>
    dsimp only
    split
    · exact h
    next hpos =>
      split
      · exact h
      next bal hbal =>
        split
        · exact h
        next havail =>
          exact h.post_debit cmd hbal (pos_of_not_le hpos) (h.room_of_available hbal havail)
  | transfer =>
    dsimp only
    split
    · exact h
    next hpos =>
      split
      · exact h
      next hne =>
        split
        · exact h
        · exact h
        next balFrom balTo hfrom hto =>
          split
          · exact h
          next havail =>
            split
            · exact h
            next hover =>
              exact h.post_transfer hne hfrom hto (pos_of_not_le hpos)
                (h.room_of_available hfrom havail) hover
  | other => exact h

theorem Sound.apply (h : Sound s) (cmd : Command) : Sound (s.apply cmd).1 := by
  rw [State.apply]
  split
  · exact h
  split
  · exact h
  dsimp only
  split
  · split <;> exact h
  · have h' := h.applyLocked cmd
    exact { toSolvent := { h'.toSolvent with }, toAudited := { h'.toAudited with } }

theorem Sound.prepareDebit (h : Sound s) (txID : Str) (account : AccountID) (amount : Money) :
    Sound (s.prepareDebit txID account amount).1 := by
  rw [State.prepareDebit]
  split
  · exact h
  next hpos =>
    split
    · exact h
    next hacc =>
      obtain ⟨bal, hbal⟩ : ∃ bal, s.balances.lookup account = some bal :=
        Option.ne_none_iff_exists'.1 (by simpa using hacc)
      split
      · split <;> exact h
      next hnew =>
        dsimp only
        split
        · exact h
        next havail =>
          rw [availableLocked, hbal] at havail
          exact h.reserve hnew hbal (pos_of_not_le hpos) (h.room_of_available hbal havail)

theorem Sound.abortTx (h : Sound s) (txID : Str) : Sound (s.abortTx txID).1 := by
  rw [State.abortTx]
  split
  · exact h
  next r hr =>
    exact { toSolvent := (h.toSolvent.release hr).1, toAudited := { h.toAudited with } }

theorem Sound.commitDebit (h : Sound s) (txID : Str) (ts : Timestamp) :
    Sound (s.commitDebit txID ts).1 := by
  rw [State.commitDebit]
  split
  · exact h
  next r hr =>
    obtain ⟨hpos, hacc⟩ := h.backed hr
    obtain ⟨bal, hbal⟩ := Option.isSome_iff_exists.1 (AList.lookup_isSome.2 hacc)
    -- the reservation ends first; what it held is then available for the debit
    let s₁ : State := { s with reserves := s.reserves.erase txID }
    have h₁ : Sound s₁ :=
      { toSolvent := (h.toSolvent.release hr).1, toAudited := { h.toAudited with } }
    rw [hbal]
    exact h₁.post_debit _ hbal hpos (h.room_of_release hr hbal)

theorem Sound.commitCredit (h : Sound s) (txID : Str) (account : AccountID) (amount : Money)
    (ts : Timestamp) : Sound (s.commitCredit txID account amount ts).1 := by
  rw [State.commitCredit]
  dsimp only
  split
  · exact h
  split
  · exact h
  next bal hbal =>
    split
    · exact h
    next hroom =>
      have h' := h.post_credit
        { op := .transfer, idempotencyKey := internalKey txID (str "credit"), fromAcc := [],
          toAcc := account, amount := amount, timestamp := ts } hbal hroom
      exact { toSolvent := { h'.toSolvent with }, toAudited := { h'.toAudited with } }

theorem sound_empty : Sound {} where
  backed := fun hr => by simp at hr
  covered := fun hbal => by simp at hbal
  seq_eq := rfl
  numbered := rfl
  balanced := fun t ht => by simp at ht
  accounts := fun id => by simp [postings]
  sums := fun hbal => by simp at hbal

end Sound

end State

/-! ## Arithmetic on balances

The operations once more, with every addition and subtraction on a balance done by `compute`, which
reports it.  In a sound state they compute what the operations above do, and every result that they
report is exact (`Solvent.computes_apply` and the lemmas beside it). -/

/-- An addition or subtraction of which one operand is a balance. -/
inductive Arith
  | add (bal amount : Money)
  | sub (bal amount : Money)
deriving DecidableEq

/-- What the machine makes of it. -/
def Arith.result : Arith → Money
  | .add bal amount => bal + amount
  | .sub bal amount => bal - amount

/-- The machine result is the integer result. -/
def Arith.Exact : Arith → Prop
  | .add bal amount => (bal + amount).toInt = bal.toInt + amount.toInt
  | .sub bal amount => (bal - amount).toInt = bal.toInt - amount.toInt

/-- Does the operation and reports it. -/
def compute (o : Arith) : Traced Arith Money := do
  tell [o]
  return o.result

theorem computes_compute {o : Arith} (h : o.Exact) : Computes Arith.Exact (compute o) o.result :=
  (computes_tell h).bind (computes_pure _)

namespace State

/-- `availableLocked`, for a caller that ignores the flag. -/
def availableTraced (s : State) (id : AccountID) : Traced Arith Money :=
  match s.balances.lookup id with
  | none => return 0
  | some bal => compute (.sub bal (s.reservedLocked id))

/-- `applyLocked` with its additions and subtractions. -/
def applyLockedTraced (s : State) (cmd : Command) : Traced Arith (State × Result) :=
  match cmd.op with
  | .openAccount =>
    if (s.balances.lookup cmd.toAcc).isSome then return (s, { err := errAccountExists })
    else if cmd.amount < 0 then return (s, { err := errInvalidAmount })
    else
      return ((s.setBalance cmd.toAcc cmd.amount).record cmd [⟨cmd.toAcc, cmd.amount⟩],
        { ok := true, balance := cmd.amount })
  | .deposit =>
    if cmd.amount ≤ 0 then return (s, { err := errInvalidAmount })
    else match s.balances.lookup cmd.toAcc with
      | none => return (s, { err := errNoSuchAccount })
      | some bal =>
        if bal > maxMoney - cmd.amount then
          return (s, { err := str "deposit would overflow the account balance" })
        else do
          let bal ← compute (.add bal cmd.amount)
          return ((s.setBalance cmd.toAcc bal).record cmd [⟨cmd.toAcc, cmd.amount⟩],
            { ok := true, balance := bal })
  | .withdraw =>
    if cmd.amount ≤ 0 then return (s, { err := errInvalidAmount })
    else match s.balances.lookup cmd.fromAcc with
      | none => return (s, { err := errNoSuchAccount })
      | some bal => do
        let avail ← s.availableTraced cmd.fromAcc
        if avail < cmd.amount then return (s, { err := errInsufficientFunds, balance := avail })
        else do
          let bal ← compute (.sub bal cmd.amount)
          return ((s.setBalance cmd.fromAcc bal).record cmd [⟨cmd.fromAcc, -cmd.amount⟩],
            { ok := true, balance := bal })
  | .transfer =>
    if cmd.amount ≤ 0 then return (s, { err := errInvalidAmount })
    else if cmd.fromAcc = cmd.toAcc then return (s, { err := errSameAccount })
    else match s.balances.lookup cmd.fromAcc with
      | none => return (s, { err := errNoSuchAccount })
      | some balFrom => do
        -- computed before the account of the credit is looked up
        let avail ← s.availableTraced cmd.fromAcc
        match s.balances.lookup cmd.toAcc with
        | none => return (s, { err := errNoSuchAccount })
        | some balTo =>
          if avail < cmd.amount then return (s, { err := errInsufficientFunds, balance := avail })
          else if balTo > maxMoney - cmd.amount then
            return (s, { err := str "transfer would overflow the destination balance" })
          else do
            let balFrom ← compute (.sub balFrom cmd.amount)
            let balTo ← compute (.add balTo cmd.amount)
            return (((s.setBalance cmd.fromAcc balFrom).setBalance cmd.toAcc balTo).record cmd
              (transferEntries cmd), { ok := true, balance := balFrom })
  | .other code _ => return (s, { err := str ("unknown op " ++ toString code.toNat) })

/-- `apply` with its operations. -/
def applyTraced (s : State) (cmd : Command) : Traced Arith (State × Result) :=
  if cmd.idempotencyKey = [] then return (s, { err := errMissingKey })
  else if internalKeyPrefix.isPrefixOf cmd.idempotencyKey then
    return (s, { err := str "idempotency key uses a reserved internal prefix" })
  else match s.applied.lookup cmd.idempotencyKey with
    | some prev =>
      if (s.fingerprints.lookup cmd.idempotencyKey).getD 0 ≠ cmd.fingerprint then
        return (s, { err := errIdempotencyConflict })
      else return (s, prev)
    | none => do
      let (s', res) ← s.applyLockedTraced cmd
      return ({ s' with
        applied := s'.applied.insert cmd.idempotencyKey res
        fingerprints := s'.fingerprints.insert cmd.idempotencyKey cmd.fingerprint }, res)

/-- `prepareDebit` with its operations. -/
def prepareDebitTraced (s : State) (txID : Str) (account : AccountID) (amount : Money) :
    Traced Arith (State × Result) :=
  if amount ≤ 0 then return (s, { err := errInvalidAmount })
  else if (s.balances.lookup account).isNone then return (s, { err := errNoSuchAccount })
  else match s.reserves.lookup txID with
    | some held =>
      if held.account ≠ account ∨ held.amount ≠ amount then
        return (s, { err := str "reservation " ++ txID ++ str " already holds "
                      ++ renderMoney held.amount ++ str " for " ++ held.account
                      ++ str "; refusing to rebind to " ++ renderMoney amount ++ str " for "
                      ++ account })
      else do
        let avail ← s.availableTraced account
        return (s, { ok := true, balance := avail })
    | none => do
      let avail ← s.availableTraced account
      if avail < amount then return (s, { err := errInsufficientFunds, balance := avail })
      else do
        let s' := { s with reserves := s.reserves.insert txID ⟨txID, account, amount⟩ }
        let newAvail ← s'.availableTraced account
        return (s', { ok := true, balance := newAvail })

/-- `commitDebit` with its operations. -/
def commitDebitTraced (s : State) (txID : Str) (ts : Timestamp) : Traced Arith (State × Result) :=
  match s.reserves.lookup txID with
  | none => return (s, { err := str "no reservation held for transaction " ++ txID })
  | some r => do
    let bal ← compute (.sub ((s.balances.lookup r.account).getD 0) r.amount)
    let s' := { s.setBalance r.account bal with reserves := s.reserves.erase txID }
    return (s'.record
        { op := .transfer, idempotencyKey := internalKey txID (str "debit"), fromAcc := r.account,
          toAcc := [], amount := r.amount, timestamp := ts } [⟨r.account, -r.amount⟩],
      { ok := true, balance := bal })

/-- `commitCredit` with its operations. -/
def commitCreditTraced (s : State) (txID : Str) (account : AccountID) (amount : Money)
    (ts : Timestamp) : Traced Arith (State × Result) :=
  let key := internalKey txID (str "credit")
  match s.applied.lookup key with
  | some prev => return (s, prev)
  | none =>
    match s.balances.lookup account with
    | none => return (s, { err := errNoSuchAccount })
    | some bal =>
      if bal > maxMoney - amount then
        return (s, { err := str "credit would overflow the account balance" })
      else do
        let bal ← compute (.add bal amount)
        let res : Result := { ok := true, balance := bal }
        let s' := (s.setBalance account bal).record
          { op := .transfer, idempotencyKey := key, fromAcc := [], toAcc := account,
            amount := amount, timestamp := ts } [⟨account, amount⟩]
        return ({ s' with applied := s'.applied.insert key res }, res)

/-- `abortTx` with its operations. -/
def abortTxTraced (s : State) (txID : Str) : Traced Arith (State × Result) :=
  match s.reserves.lookup txID with
  | none => return (s, { ok := true })
  | some r => do
    let s' := { s with reserves := s.reserves.erase txID }
    let avail ← s'.availableTraced r.account
    return (s', { ok := true, balance := avail })

variable {s : State}

theorem Solvent.computes_available (h : Solvent s) (id : AccountID) :
    Computes Arith.Exact (s.availableTraced id) ((s.availableLocked id).getD 0) := by
  rw [availableTraced, availableLocked]
  cases hbal : s.balances.lookup id with
  | none => exact computes_pure _
  | some bal =>
    refine computes_compute (o := .sub _ _) ?_
    rw [Arith.Exact, h.toInt_available hbal, h.toInt_reservedLocked hbal]

theorem Solvent.computes_available_of_some (h : Solvent s)
    (hbal : s.balances.lookup id = some bal) :
    Computes Arith.Exact (s.availableTraced id) (bal - s.reservedLocked id) := by
  have havail := h.computes_available id
  rwa [availableLocked, hbal] at havail

theorem Solvent.computes_applyLocked (h : Solvent s) (cmd : Command) :
    Computes Arith.Exact (s.applyLockedTraced cmd) (s.applyLocked cmd) := by
  rw [applyLockedTraced, applyLocked]
  cases cmd.op with
  | openAccount =>
    dsimp only
    split
    · exact computes_pure _
    split <;> exact computes_pure _
  | deposit =>
    dsimp only
    split
    · exact computes_pure _
    cases hbal : s.balances.lookup cmd.toAcc with
    | none => exact computes_pure _
    | some bal =>
      dsimp only
      split
      · exact computes_pure _
      next hroom =>
        exact (computes_compute (o := .add _ _) (h.toInt_add hbal hroom)).bind (computes_pure _)
  | withdraw =>
    dsimp only
    split
    · exact computes_pure _
    next hpos =>
      cases hbal : s.balances.lookup cmd.fromAcc with
      | none => exact computes_pure _
      | some bal =>
        refine (h.computes_available_of_some hbal).bind ?_
        dsimp only
        split
        · exact computes_pure _
        next havail =>
          exact (computes_compute (o := .sub _ _) (h.toInt_sub (pos_of_not_le hpos)
            (h.room_of_available hbal havail))).bind (computes_pure _)
  | transfer =>
    dsimp only
    split
    · exact computes_pure _
    next hpos =>
      split
      · exact computes_pure _
      cases hfrom : s.balances.lookup cmd.fromAcc with
      | none => exact computes_pure _
      | some balFrom =>
        refine (h.computes_available_of_some hfrom).bind ?_
        cases hto : s.balances.lookup cmd.toAcc with
        | none => exact computes_pure _
        | some balTo =>
          dsimp only
          split
          · exact computes_pure _
          next havail =>
            split
            · exact computes_pure _
            next hover =>
              refine (computes_compute (o := .sub _ _) (h.toInt_sub (pos_of_not_le hpos)
                (h.room_of_available hfrom havail))).bind ?_
              exact (computes_compute (o := .add _ _) (h.toInt_add hto hover)).bind
                (computes_pure _)
  | other => exact computes_pure _

theorem Solvent.computes_apply (h : Solvent s) (cmd : Command) :
    Computes Arith.Exact (s.applyTraced cmd) (s.apply cmd) := by
  rw [applyTraced, apply]
  split
  · exact computes_pure _
  split
  · exact computes_pure _
  dsimp only
  cases s.applied.lookup cmd.idempotencyKey with
  | some prev => dsimp only; split <;> exact computes_pure _
  | none => exact (h.computes_applyLocked cmd).bind (computes_pure _)

theorem Sound.computes_prepareDebit (h : Sound s) (txID : Str) (account : AccountID)
    (amount : Money) : Computes Arith.Exact (s.prepareDebitTraced txID account amount)
      (s.prepareDebit txID account amount) := by
  have h' := h.prepareDebit txID account amount
  rw [State.prepareDebit] at h' ⊢
  rw [prepareDebitTraced]
  split
  · exact computes_pure _
  next hpos =>
    rw [if_neg hpos] at h'
    split
    · exact computes_pure _
    next hacc =>
      rw [if_neg hacc] at h'
      cases hres : s.reserves.lookup txID with
      | some held =>
        dsimp only
        split
        · exact computes_pure _
        · exact (h.computes_available _).bind (computes_pure _)
      | none =>
        rw [hres] at h'
        dsimp only at h' ⊢
        refine (h.computes_available _).bind ?_
        split
        · exact computes_pure _
        next havail =>
          -- the answer says what is available after the reservation
          rw [if_neg havail] at h'
          exact (h'.computes_available _).bind (computes_pure _)

theorem Solvent.computes_commitDebit (h : Solvent s) (txID : Str) (ts : Timestamp) :
    Computes Arith.Exact (s.commitDebitTraced txID ts) (s.commitDebit txID ts) := by
  rw [commitDebitTraced, commitDebit]
  cases hr : s.reserves.lookup txID with
  | none => exact computes_pure _
  | some r =>
    obtain ⟨hpos, hacc⟩ := h.backed hr
    obtain ⟨bal, hbal⟩ := Option.isSome_iff_exists.1 (AList.lookup_isSome.2 hacc)
    dsimp only
    rw [hbal]
    exact (computes_compute (o := .sub _ _) ((h.release hr).1.toInt_sub hpos
      (h.room_of_release hr hbal))).bind (computes_pure _)

theorem Solvent.computes_commitCredit (h : Solvent s) (txID : Str) (account : AccountID)
    (amount : Money) (ts : Timestamp) :
    Computes Arith.Exact (s.commitCreditTraced txID account amount ts)
      (s.commitCredit txID account amount ts) := by
  rw [commitCreditTraced, commitCredit]
  dsimp only
  cases s.applied.lookup (internalKey txID (str "credit")) with
  | some prev => exact computes_pure _
  | none =>
    cases hbal : s.balances.lookup account with
    | none => exact computes_pure _
    | some bal =>
      dsimp only
      split
      · exact computes_pure _
      next hroom =>
        exact (computes_compute (o := .add _ _) (h.toInt_add hbal hroom)).bind (computes_pure _)

theorem Solvent.computes_abortTx (h : Solvent s) (txID : Str) :
    Computes Arith.Exact (s.abortTxTraced txID) (s.abortTx txID) := by
  rw [abortTxTraced, abortTx]
  cases hr : s.reserves.lookup txID with
  | none => exact computes_pure _
  | some r => exact ((h.release hr).1.computes_available _).bind (computes_pure _)

end State
end CoreBank.Ledger
