import CoreBank.Ledger.State

/-!
# What the ledger keeps about a distributed transaction

Three things: the reservation under its id, the legs booked under its two internal keys, and the
result remembered under the key of its credit.  `SameLegs s s' id` says that an operation left them
alone for `id`; client commands do so for every transaction, and the reservation operations for
every transaction but their own.
-/

set_option autoImplicit false

namespace CoreBank.Ledger

open Hlc

namespace State

/-- The transactions recorded under a key. -/
def bookings (s : State) (key : Str) : List Transaction :=
  s.history.filter fun t => t.idempotencyKey = key

theorem bookings_record (s : State) (cmd : Command) (es : List Entry) (key : Str) :
    (s.record cmd es).bookings key = s.bookings key ++
      if cmd.idempotencyKey = key then
        [{ seq := s.seq + 1, op := cmd.op, idempotencyKey := cmd.idempotencyKey, entries := es,
           timestamp := cmd.timestamp }]
      else [] := by
  rw [bookings, record, List.filter_append, bookings]
  simp only [List.filter_cons, List.filter_nil, decide_eq_true_eq]

theorem bookings_record_ne (s : State) {cmd : Command} (es : List Entry) {key : Str}
    (h : cmd.idempotencyKey ≠ key) : (s.record cmd es).bookings key = s.bookings key := by
  rw [bookings_record, if_neg h, List.append_nil]

/-- An operation left the transaction `id` alone, and closed no account. -/
structure SameLegs (s s' : State) (id : Str) : Prop where
  reserve : s'.reserves.lookup id = s.reserves.lookup id
  booked : ∀ key, IsLegKey id key → s'.bookings key = s.bookings key
  applied : ∀ key, IsLegKey id key → s'.applied.lookup key = s.applied.lookup key
  accounts : ∀ a, a ∈ s.balances → a ∈ s'.balances

variable {s : State} {id : Str}

theorem SameLegs.refl (s : State) (id : Str) : SameLegs s s id :=
  ⟨rfl, fun _ _ => rfl, fun _ _ => rfl, fun _ h => h⟩

theorem SameLegs.setBalance {s s' : State} (h : SameLegs s s' id) (a : AccountID) (m : Money) :
    SameLegs s (s'.setBalance a m) id :=
  { h with accounts := fun b hb => (AList.mem_insert _).2 (.inr (h.accounts b hb)) }

theorem SameLegs.record {s s' : State} (h : SameLegs s s' id) (cmd : Command) (es : List Entry)
    (hkey : ¬ IsLegKey id cmd.idempotencyKey) : SameLegs s (s'.record cmd es) id where
  reserve := h.reserve
  booked key hk := by
    rw [bookings_record_ne _ _ fun e => hkey (e ▸ hk)]
    exact h.booked key hk
  applied := h.applied
  accounts := h.accounts

theorem not_isLegKey_of_client {key : Str} (h : ¬ internalKeyPrefix.isPrefixOf key) (id : Str) :
    ¬ IsLegKey id key := by
  rintro (rfl | rfl) <;> exact h (internalKey_hasPrefix _ _)

/-- What has booked a leg of the transaction has not left it alone. -/
theorem SameLegs.not_leg {s s' : State} (h : SameLegs s s' id) {t : Transaction}
    (hist : s'.history = s.history ++ [t]) : ¬ IsLegKey id t.idempotencyKey := by
  intro hk
  have hb := h.booked _ hk
  rw [bookings, bookings, hist, List.filter_append] at hb
  have hlen := congrArg List.length hb
  simp at hlen

/-! ## Client commands -/

theorem sameLegs_applyLocked (s : State) {cmd : Command} (hkey : ¬ IsLegKey id cmd.idempotencyKey) :
    SameLegs s (s.applyLocked cmd).1 id := by
  have hrefl := SameLegs.refl s id
  rw [applyLocked]
  cases cmd.op <;> dsimp only
  all_goals repeat' split
  all_goals first
    | exact hrefl
    | exact (hrefl.setBalance _ _).record _ _ hkey
    | exact ((hrefl.setBalance _ _).setBalance _ _).record _ _ hkey

theorem sameLegs_apply (s : State) (cmd : Command) (id : Str) : SameLegs s (s.apply cmd).1 id := by
  rw [apply]
  split
  · exact .refl s id
  split
  · exact .refl s id
  next hprefix =>
    have hkey := not_isLegKey_of_client hprefix id
    dsimp only
    split
    · split <;> exact .refl s id
    · have h := sameLegs_applyLocked s hkey
      refine { h with applied := fun key hk => ?_ }
      have hne : key ≠ cmd.idempotencyKey := fun e => hkey (e ▸ hk)
      dsimp only
      rw [AList.lookup_insert_ne hne]
      exact h.applied key hk

/-! ## Reservations -/

/-- A vote for a debit leaves the ledger as it is, or reserves what it was asked for. -/
theorem prepareDebit_cases (s : State) (tx : Str) (account : AccountID) (amount : Money) :
    ((s.prepareDebit tx account amount).1 = s ∧
        ((s.prepareDebit tx account amount).2.ok = true → tx ∈ s.reserves))
      ∨ ((s.prepareDebit tx account amount).1 =
            { s with reserves := s.reserves.insert tx ⟨tx, account, amount⟩ }
          ∧ (s.prepareDebit tx account amount).2.ok = true) := by
  rw [prepareDebit]
  split
  · exact .inl ⟨rfl, nofun⟩
  split
  · exact .inl ⟨rfl, nofun⟩
  split
  next held hheld =>
    have hmem : tx ∈ s.reserves := AList.lookup_isSome.1 (hheld ▸ rfl)
    split <;> exact .inl ⟨rfl, fun _ => hmem⟩
  · dsimp only
    split
    · exact .inl ⟨rfl, nofun⟩
    · exact .inr ⟨rfl, rfl⟩

variable {tx : Str}

theorem sameLegs_prepareDebit (s : State) (account : AccountID) (amount : Money) (h : id ≠ tx) :
    SameLegs s (s.prepareDebit tx account amount).1 id := by
  rcases prepareDebit_cases s tx account amount with ⟨hs, -⟩ | ⟨hs, -⟩
  · rw [hs]
    exact .refl s id
  · rw [hs]
    exact { SameLegs.refl s id with reserve := AList.lookup_insert_ne h }

variable {account : AccountID} {amount : Money}

theorem prepareCredit_pos (tx : Str) (h : (s.prepareCredit tx account amount).ok = true) :
    ¬ amount ≤ 0 := by
  intro hle
  rw [prepareCredit, if_pos hle] at h
  cases h

theorem prepareCredit_ok (h : (s.prepareCredit tx account amount).ok = true) :
    account ∈ s.balances := by
  rw [prepareCredit] at h
  split at h
  · cases h
  split at h
  · cases h
  next hbal => exact AList.lookup_isSome.1 (hbal ▸ rfl)

/-- The leg `commitDebit` books. -/
def debitLeg (s : State) (r : Reserve) (tx : Str) (ts : Timestamp) : Transaction :=
  { seq := s.seq + 1, op := .transfer, idempotencyKey := internalKey tx (str "debit"),
    entries := [⟨r.account, -r.amount⟩], timestamp := ts }

/-- The leg `commitCredit` books. -/
def creditLeg (s : State) (account : AccountID) (amount : Money) (tx : Str) (ts : Timestamp) :
    Transaction :=
  { seq := s.seq + 1, op := .transfer, idempotencyKey := internalKey tx (str "credit"),
    entries := [⟨account, amount⟩], timestamp := ts }

theorem commitDebit_of_held {r : Reserve} (h : s.reserves.lookup tx = some r) (ts : Timestamp) :
    (s.commitDebit tx ts).2.ok = true
      ∧ (s.commitDebit tx ts).1.history = s.history ++ [s.debitLeg r tx ts]
      ∧ (s.commitDebit tx ts).1.balances =
          s.balances.insert r.account ((s.balances.lookup r.account).getD 0 - r.amount)
      ∧ (s.commitDebit tx ts).1.reserves = s.reserves.erase tx
      ∧ (s.commitDebit tx ts).1.applied = s.applied := by
  rw [commitDebit, h]
  exact ⟨rfl, rfl, rfl, rfl, rfl⟩

theorem commitDebit_of_not_held (h : s.reserves.lookup tx = none) (ts : Timestamp) :
    (s.commitDebit tx ts).1 = s := by
  rw [commitDebit, h]

theorem commitCredit_of_room {bal : Money}
    (hnew : s.applied.lookup (internalKey tx (str "credit")) = none)
    (hbal : s.balances.lookup account = some bal) (hroom : ¬ bal > maxMoney - amount)
    (ts : Timestamp) :
    (s.commitCredit tx account amount ts).2.ok = true
      ∧ (s.commitCredit tx account amount ts).1.history
          = s.history ++ [s.creditLeg account amount tx ts]
      ∧ (s.commitCredit tx account amount ts).1.balances = s.balances.insert account (bal + amount)
      ∧ (s.commitCredit tx account amount ts).1.reserves = s.reserves
      ∧ (s.commitCredit tx account amount ts).1.applied.lookup (internalKey tx (str "credit"))
          = some (s.commitCredit tx account amount ts).2 := by
  rw [commitCredit]
  dsimp only
  rw [hnew, hbal]
  dsimp only
  rw [if_neg hroom]
  exact ⟨rfl, rfl, rfl, rfl, AList.lookup_insert _⟩

/-- Otherwise the ledger stays as it is, and a new credit fails. -/
theorem commitCredit_of_no_room (tx : Str)
    (h : ∀ bal, s.balances.lookup account = some bal → bal > maxMoney - amount) (ts : Timestamp) :
    (s.commitCredit tx account amount ts).1 = s
      ∧ (s.applied.lookup (internalKey tx (str "credit")) = none →
          (s.commitCredit tx account amount ts).2.ok = false) := by
  rw [commitCredit]
  dsimp only
  split
  next hdone => exact ⟨rfl, fun hnew => by rw [hnew] at hdone; cases hdone⟩
  split
  · exact ⟨rfl, fun _ => rfl⟩
  next bal hbal =>
    rw [if_pos (h bal hbal)]
    exact ⟨rfl, fun _ => rfl⟩

theorem commitDebit_frame (s : State) (tx : Str) (ts : Timestamp) :
    (s.commitDebit tx ts).1.reserves.lookup tx = none
      ∧ ∃ l : List Transaction, l.length ≤ 1 ∧ (s.commitDebit tx ts).1.history
        = s.history ++ l := by
  cases h : s.reserves.lookup tx with
  | none =>
    rw [commitDebit_of_not_held h]
    exact ⟨h, [], Nat.zero_le 1, (List.append_nil _).symm⟩
  | some r =>
    obtain ⟨-, hhist, -, hres, -⟩ := commitDebit_of_held h ts
    rw [hres]
    exact ⟨AList.lookup_erase _ _, [s.debitLeg r tx ts], Nat.le_refl 1, hhist⟩

theorem commitCredit_frame (s : State) (tx : Str) (account : AccountID) (amount : Money)
    (ts : Timestamp) :
    (s.commitCredit tx account amount ts).1.reserves = s.reserves
      ∧ ∃ l : List Transaction, l.length ≤ 1
          ∧ (s.commitCredit tx account amount ts).1.history = s.history ++ l := by
  have hsame : ∃ l : List Transaction, l.length ≤ 1 ∧ s.history = s.history ++ l :=
    ⟨[], Nat.zero_le 1, (List.append_nil _).symm⟩
  rw [commitCredit]
  dsimp only
  split
  · exact ⟨rfl, hsame⟩
  split
  · exact ⟨rfl, hsame⟩
  split
  · exact ⟨rfl, hsame⟩
  · exact ⟨rfl, [s.creditLeg account amount tx ts], Nat.le_refl 1, rfl⟩

theorem ne_of_isLegKey {key key' : Str} (h : id ≠ tx) (hk : IsLegKey id key)
    (hk' : IsLegKey tx key') : key' ≠ key := by
  rintro rfl
  exact h (hk.unique hk')

theorem sameLegs_commitDebit (s : State) (ts : Timestamp) (h : id ≠ tx) :
    SameLegs s (s.commitDebit tx ts).1 id := by
  rw [commitDebit]
  split
  · exact .refl s id
  · refine SameLegs.record ?_ _ _ fun hk => ne_of_isLegKey h hk (.inl rfl) rfl
    exact { (SameLegs.refl s id).setBalance _ _ with reserve := AList.lookup_erase_ne h }

theorem sameLegs_commitCredit (s : State) (account : AccountID) (amount : Money) (ts : Timestamp)
    (h : id ≠ tx) : SameLegs s (s.commitCredit tx account amount ts).1 id := by
  rw [commitCredit]
  dsimp only
  split
  · exact .refl s id
  split
  · exact .refl s id
  split
  · exact .refl s id
  · have hrec := ((SameLegs.refl s id).setBalance account (‹Money› + amount)).record
      { op := .transfer, idempotencyKey := internalKey tx (str "credit"), fromAcc := [],
        toAcc := account, amount := amount, timestamp := ts }
      [⟨account, amount⟩] fun hk => ne_of_isLegKey h hk (.inr rfl) rfl
    refine { hrec with applied := fun key hk => ?_ }
    exact AList.lookup_insert_ne (ne_of_isLegKey h hk (.inr rfl)).symm

theorem lookup_reserves_abortTx (s : State) (tx : Str) :
    (s.abortTx tx).1.reserves.lookup tx = none := by
  rw [abortTx]
  split
  next h => exact h
  next => exact AList.lookup_erase _ _

theorem abortTx_frame (s : State) (tx : Str) :
    (s.abortTx tx).1.history = s.history ∧ (s.abortTx tx).1.balances = s.balances
      ∧ (s.abortTx tx).1.applied = s.applied := by
  rw [abortTx]
  split <;> exact ⟨rfl, rfl, rfl⟩

theorem sameLegs_abortTx (s : State) (h : id ≠ tx) : SameLegs s (s.abortTx tx).1 id := by
  rw [abortTx]
  split
  · exact .refl s id
  · exact { SameLegs.refl s id with reserve := AList.lookup_erase_ne h }

end State
end CoreBank.Ledger
