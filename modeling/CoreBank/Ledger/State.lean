import Mathlib.Data.List.AList
import CoreBank.Hlc.Timestamp

/-!
# The ledger

The bank domain of the repository: accounts, idempotent commands, fund reservations for cross-shard
transfers, and the append-only history of what happened.  `State` is the Go struct without its lock;
every method is a function that returns the next state together with its `Result`.

## What is here

* `Str` — Go strings are byte strings; `str` writes down a literal one.
* `Command`, `Result`, `Transaction` and `State`, with the source's field names.
* `State.apply` — one client command: the key checks, the retry path and `applyLocked`.
* `prepareDebit`, `prepareCredit`, `commitDebit`, `commitCredit`, `abortTx` — the reservation
  operations the two-phase commit drives.
* `Booked` — a leg of a distributed transaction stands in the history — and which operations can
  make it true.

`record` leaves out the panic on an unbalanced transfer: the only two-entry transaction is the one
of `applyLocked`, whose entries cancel (`transferEntries_balance`).
-/

set_option autoImplicit false

namespace CoreBank

/-- A Go string: any sequence of bytes. -/
abbrev Str := List UInt8

instance : LawfulBEq Str := inferInstance

/-- The bytes of a literal. -/
def str (s : String) : Str := s.toUTF8.data.toList

/-- A Go map, as a list of bindings with distinct keys. -/
abbrev Map (K V : Type) := AList fun _ : K => V

namespace Ledger

open Hlc

/-- The name of an account. -/
abbrev AccountID := Str

/-- An amount in minor units, an `int64`. -/
abbrev Money := Int64

/-- The largest representable amount, `1<<63 - 1`. -/
def maxMoney : Money := Int64.maxValue

/-- Major units and two decimals, as `Money.String` prints them. -/
def renderMoney (m : Money) : Str :=
  let v := if m < 0 then -m else m
  let cents := (v % 100).toInt
  str ((if m < 0 then "-" else "") ++ toString (v / 100).toInt ++ "."
    ++ (if 0 ≤ cents ∧ cents < 10 then "0" else "") ++ toString cents)

/-- The kind of operation a command performs.  The wire format admits every byte, so the codes that
name no operation are kept as `other`. -/
inductive Op
  | deposit
  | withdraw
  | transfer
  | openAccount
  | other (code : UInt8) (h : code = 0 ∨ 4 < code)
deriving DecidableEq

/-- The byte of an operation. -/
def Op.code : Op → UInt8
  | .deposit => 1
  | .withdraw => 2
  | .transfer => 3
  | .openAccount => 4
  | .other c _ => c

/-- One operation to apply to the ledger. -/
structure Command where
  op : Op
  idempotencyKey : Str
  /-- Empty for deposits and for opening an account. -/
  fromAcc : AccountID
  /-- Empty for withdrawals. -/
  toAcc : AccountID
  amount : Money
  timestamp : Timestamp
deriving DecidableEq

/-- Two commands ask for the same thing: they agree in everything but the clock reading, which every
attempt of a request carries anew. -/
def Command.SameRequest (c d : Command) : Prop :=
  c.op = d.op ∧ c.idempotencyKey = d.idempotencyKey ∧ c.fromAcc = d.fromAcc ∧ c.toAcc = d.toAcc
    ∧ c.amount = d.amount

instance (c d : Command) : Decidable (c.SameRequest d) :=
  inferInstanceAs (Decidable (_ ∧ _))

theorem Command.SameRequest.refl (c : Command) : c.SameRequest c := ⟨rfl, rfl, rfl, rfl, rfl⟩

theorem Command.SameRequest.symm {c d : Command} (h : c.SameRequest d) : d.SameRequest c :=
  ⟨h.1.symm, h.2.1.symm, h.2.2.1.symm, h.2.2.2.1.symm, h.2.2.2.2.symm⟩

theorem Command.SameRequest.trans {c d e : Command} (h : c.SameRequest d) (h' : d.SameRequest e) :
    c.SameRequest e :=
  ⟨h.1.trans h'.1, h.2.1.trans h'.2.1, h.2.2.1.trans h'.2.2.1, h.2.2.2.1.trans h'.2.2.2.1,
    h.2.2.2.2.trans h'.2.2.2.2⟩

/-- The outcome of applying a command. -/
structure Result where
  ok : Bool := false
  /-- Empty exactly when there is nothing to report. -/
  err : Str := []
  balance : Money := 0
deriving DecidableEq

def errInsufficientFunds : Str := str "insufficient funds"
def errNoSuchAccount : Str := str "no such account"
def errAccountExists : Str := str "account already exists"
def errInvalidAmount : Str := str "amount must be positive"
def errSameAccount : Str := str "cannot transfer to the same account"
def errMissingKey : Str := str "idempotency key required"
def errIdempotencyConflict : Str := str "idempotency key already used for a different request"

/-- One half of a double-entry pair; a positive amount is a credit. -/
structure Entry where
  account : AccountID
  amount : Money
deriving DecidableEq

/-- A completed ledger event. -/
structure Transaction where
  seq : Nat
  op : Op
  idempotencyKey : Str
  entries : List Entry
  timestamp : Timestamp
deriving DecidableEq

/-- The double-entry check.  Only a transfer has to balance, and a single entry is one leg of a
cross-shard transfer. -/
def Transaction.balances (t : Transaction) : Bool :=
  t.op != .transfer || t.entries.length == 1 || (t.entries.map Entry.amount).sum == 0

/-- Funds held for a transaction in flight. -/
structure Reserve where
  txID : Str
  account : AccountID
  amount : Money
deriving DecidableEq

/-- The ledger state machine. -/
structure State where
  balances : Map AccountID Money := ∅
  applied : Map Str Result := ∅
  fingerprints : Map Str UInt64 := ∅
  history : List Transaction := []
  reserves : Map Str Reserve := ∅
  seq : Nat := 0

/-! ## Fingerprints -/

/-- 64-bit FNV-1a, as `hash/fnv` computes it. -/
def fnv64a (data : Str) : UInt64 :=
  data.foldl (fun h b => (h ^^^ b.toUInt64) * 1099511628211) 14695981039346656037

/-- The eight bytes of a `uint64`, least significant first. -/
def putUint64 (n : UInt64) : Str :=
  [n.toUInt8, (n >>> 8).toUInt8, (n >>> 16).toUInt8, (n >>> 24).toUInt8, (n >>> 32).toUInt8,
    (n >>> 40).toUInt8, (n >>> 48).toUInt8, (n >>> 56).toUInt8]

/-- A digest of what the command does; key and timestamp do not enter. -/
def Command.fingerprint (c : Command) : UInt64 :=
  fnv64a ([c.op.code] ++ c.fromAcc ++ [0] ++ c.toAcc ++ [0] ++ putUint64 c.amount.toUInt64)

/-! ## Keys -/

/-- Marks the idempotency keys the two-phase commit generates. -/
def internalKeyPrefix : Str := str "!2pc!:"

/-- The key of one leg of a distributed transaction. -/
def internalKey (txID leg : Str) : Str := internalKeyPrefix ++ txID ++ str ":" ++ leg

namespace State

/-! ## Reading -/

/-- The sum of the reservations against an account. -/
def reservedLocked (s : State) (id : AccountID) : Money :=
  ((s.reserves.entries.filter fun r => r.2.account == id).map fun r => r.2.amount).sum

/-- The balance that may be spent: what the account holds without what is reserved. -/
def availableLocked (s : State) (id : AccountID) : Option Money :=
  (s.balances.lookup id).map fun bal => bal - s.reservedLocked id

/-- `Available` of the source; a missing account reads as zero where the caller ignores the flag. -/
def available (s : State) (id : AccountID) : Option Money := s.availableLocked id

/-! ## Client commands -/

/-- Appends a transaction to the history. -/
def record (s : State) (cmd : Command) (entries : List Entry) : State :=
  { s with
    seq := s.seq + 1
    history := s.history ++
      [{ seq := s.seq + 1, op := cmd.op, idempotencyKey := cmd.idempotencyKey, entries := entries,
         timestamp := cmd.timestamp }] }

/-- The matched debit and credit of a transfer inside one shard. -/
def transferEntries (cmd : Command) : List Entry :=
  [⟨cmd.fromAcc, -cmd.amount⟩, ⟨cmd.toAcc, cmd.amount⟩]

/-- The state with another balance for `id`. -/
def setBalance (s : State) (id : AccountID) (m : Money) : State :=
  { s with balances := s.balances.insert id m }

/-- Performs the operation. -/
def applyLocked (s : State) (cmd : Command) : State × Result :=
  match cmd.op with
  | .openAccount =>
    if (s.balances.lookup cmd.toAcc).isSome then (s, { err := errAccountExists })
    else if cmd.amount < 0 then (s, { err := errInvalidAmount })
    else
      ((s.setBalance cmd.toAcc cmd.amount).record cmd [⟨cmd.toAcc, cmd.amount⟩],
        { ok := true, balance := cmd.amount })
  | .deposit =>
    if cmd.amount ≤ 0 then (s, { err := errInvalidAmount })
    else match s.balances.lookup cmd.toAcc with
      | none => (s, { err := errNoSuchAccount })
      | some bal =>
        if bal > maxMoney - cmd.amount then
          (s, { err := str "deposit would overflow the account balance" })
        else
          ((s.setBalance cmd.toAcc (bal + cmd.amount)).record cmd [⟨cmd.toAcc, cmd.amount⟩],
            { ok := true, balance := bal + cmd.amount })
  | .withdraw =>
    if cmd.amount ≤ 0 then (s, { err := errInvalidAmount })
    else match s.balances.lookup cmd.fromAcc with
      | none => (s, { err := errNoSuchAccount })
      | some bal =>
        -- checked against what is available, not against the raw balance
        let avail := bal - s.reservedLocked cmd.fromAcc
        if avail < cmd.amount then (s, { err := errInsufficientFunds, balance := avail })
        else
          ((s.setBalance cmd.fromAcc (bal - cmd.amount)).record cmd [⟨cmd.fromAcc, -cmd.amount⟩],
            { ok := true, balance := bal - cmd.amount })
  | .transfer =>
    if cmd.amount ≤ 0 then (s, { err := errInvalidAmount })
    else if cmd.fromAcc = cmd.toAcc then (s, { err := errSameAccount })
    else match s.balances.lookup cmd.fromAcc, s.balances.lookup cmd.toAcc with
      | none, _ => (s, { err := errNoSuchAccount })
      | some _, none => (s, { err := errNoSuchAccount })
      | some balFrom, some balTo =>
        let avail := balFrom - s.reservedLocked cmd.fromAcc
        if avail < cmd.amount then (s, { err := errInsufficientFunds, balance := avail })
        else if balTo > maxMoney - cmd.amount then
          (s, { err := str "transfer would overflow the destination balance" })
        else
          (((s.setBalance cmd.fromAcc (balFrom - cmd.amount)).setBalance cmd.toAcc
              (balTo + cmd.amount)).record cmd (transferEntries cmd),
            { ok := true, balance := balFrom - cmd.amount })
  | .other code _ => (s, { err := str ("unknown op " ++ toString code.toNat) })

/-- One client command: a key is required, may not lie in the internal namespace, and a key seen
before answers with its first result, provided the request is the same. -/
def apply (s : State) (cmd : Command) : State × Result :=
  if cmd.idempotencyKey = [] then (s, { err := errMissingKey })
  else if internalKeyPrefix.isPrefixOf cmd.idempotencyKey then
    (s, { err := str "idempotency key uses a reserved internal prefix" })
  else
    let fp := cmd.fingerprint
    match s.applied.lookup cmd.idempotencyKey with
    | some prev =>
      if (s.fingerprints.lookup cmd.idempotencyKey).getD 0 ≠ fp then
        (s, { err := errIdempotencyConflict })
      else (s, prev)
    | none =>
      let (s', res) := s.applyLocked cmd
      ({ s' with applied := s'.applied.insert cmd.idempotencyKey res,
                 fingerprints := s'.fingerprints.insert cmd.idempotencyKey fp }, res)

/-! ## Reservations -/

/-- Reserves funds: the debit side's vote. -/
def prepareDebit (s : State) (txID : Str) (account : AccountID) (amount : Money) :
    State × Result :=
  if amount ≤ 0 then (s, { err := errInvalidAmount })
  else if (s.balances.lookup account).isNone then (s, { err := errNoSuchAccount })
  else match s.reserves.lookup txID with
    | some held =>
      if held.account ≠ account ∨ held.amount ≠ amount then
        (s, { err := str "reservation " ++ txID ++ str " already holds " ++ renderMoney held.amount
                ++ str " for " ++ held.account ++ str "; refusing to rebind to "
                ++ renderMoney amount ++ str " for " ++ account })
      else (s, { ok := true, balance := (s.availableLocked account).getD 0 })
    | none =>
      let avail := (s.availableLocked account).getD 0
      if avail < amount then (s, { err := errInsufficientFunds, balance := avail })
      else
        let s' := { s with reserves := s.reserves.insert txID ⟨txID, account, amount⟩ }
        (s', { ok := true, balance := (s'.availableLocked account).getD 0 })

/-- The credit side's vote: it only has to know the account. -/
def prepareCredit (s : State) (_txID : Str) (account : AccountID) (amount : Money) : Result :=
  if amount ≤ 0 then { err := errInvalidAmount }
  else match s.balances.lookup account with
    | none => { err := errNoSuchAccount }
    | some bal => { ok := true, balance := bal }

/-- Turns a reservation into a debit. -/
def commitDebit (s : State) (txID : Str) (ts : Timestamp) : State × Result :=
  match s.reserves.lookup txID with
  | none => (s, { err := str "no reservation held for transaction " ++ txID })
  | some r =>
    -- a missing key of a Go map reads as zero
    let bal := (s.balances.lookup r.account).getD 0 - r.amount
    let s' := { s.setBalance r.account bal with reserves := s.reserves.erase txID }
    (s'.record
        { op := .transfer, idempotencyKey := internalKey txID (str "debit"), fromAcc := r.account,
          toAcc := [], amount := r.amount, timestamp := ts } [⟨r.account, -r.amount⟩],
      { ok := true, balance := bal })

/-- Applies the credit side, once. -/
def commitCredit (s : State) (txID : Str) (account : AccountID) (amount : Money) (ts : Timestamp) :
    State × Result :=
  let key := internalKey txID (str "credit")
  match s.applied.lookup key with
  | some prev => (s, prev)
  | none =>
    match s.balances.lookup account with
    | none => (s, { err := errNoSuchAccount })
    | some bal =>
      if bal > maxMoney - amount then
        (s, { err := str "credit would overflow the account balance" })
      else
        let res : Result := { ok := true, balance := bal + amount }
        let s' := (s.setBalance account (bal + amount)).record
          { op := .transfer, idempotencyKey := key, fromAcc := [], toAcc := account,
            amount := amount,
            timestamp := ts } [⟨account, amount⟩]
        ({ s' with applied := s'.applied.insert key res }, res)

/-- Releases a reservation. -/
def abortTx (s : State) (txID : Str) : State × Result :=
  match s.reserves.lookup txID with
  | none => (s, { ok := true })
  | some r =>
    let s' := { s with reserves := s.reserves.erase txID }
    (s', { ok := true, balance := (s'.availableLocked r.account).getD 0 })

end State

/-! ## Legs of a distributed transaction

The two legs are recorded under internal keys.  Client keys may not lie in that namespace, so a leg
stands in the history only if `commitDebit` or `commitCredit` put it there, for that very
transaction. -/

theorem transferEntries_balance (cmd : Command) :
    ((State.transferEntries cmd).map Entry.amount).sum = 0 := by
  simp [State.transferEntries, Int64.add_left_neg]

private theorem debit_suffix : str ":" ++ str "debit" = [58, 100, 101, 98, 105, 116] := by
  decide +kernel

private theorem credit_suffix : str ":" ++ str "credit" = [58, 99, 114, 101, 100, 105, 116] := by
  decide +kernel

theorem internalKey_inj {a b leg : Str} (h : internalKey a leg = internalKey b leg) : a = b := by
  rw [internalKey, internalKey, List.append_assoc, List.append_assoc, List.append_assoc,
    List.append_assoc] at h
  exact List.append_cancel_right (List.append_cancel_left h)

theorem internalKey_debit_ne_credit (a b : Str) :
    internalKey a (str "debit") ≠ internalKey b (str "credit") := by
  intro h
  rw [internalKey, internalKey, List.append_assoc, List.append_assoc, List.append_assoc,
    List.append_assoc, debit_suffix, credit_suffix] at h
  -- the two names differ in their third letter from the end
  have hr := congrArg List.reverse (List.append_cancel_left h)
  simp at hr

theorem internalKey_hasPrefix (a leg : Str) : internalKeyPrefix.isPrefixOf (internalKey a leg) := by
  rw [List.isPrefixOf_iff_prefix, internalKey, List.append_assoc, List.append_assoc]
  exact List.prefix_append _ _

/-- The key of a leg of `txID`. -/
def IsLegKey (txID key : Str) : Prop :=
  key = internalKey txID (str "debit") ∨ key = internalKey txID (str "credit")

theorem IsLegKey.unique {a b key : Str} (ha : IsLegKey a key) (hb : IsLegKey b key) : a = b := by
  rcases ha with rfl | rfl <;> rcases hb with hb | hb
  · exact internalKey_inj hb
  · exact absurd hb (internalKey_debit_ne_credit a b)
  · exact absurd hb.symm (internalKey_debit_ne_credit b a)
  · exact internalKey_inj hb

/-- A debit or credit leg of `txID` has been booked here. -/
def Booked (s : State) (txID : Str) : Prop :=
  ∃ t ∈ s.history, IsLegKey txID t.idempotencyKey

theorem not_booked_of_history_nil {s : State} (h : s.history = []) (txID : Str) :
    ¬ Booked s txID := by
  rintro ⟨t, ht, -⟩
  rw [h] at ht
  cases ht

theorem Booked.of_record {s : State} {cmd : Command} {es : List Entry} {txID : Str}
    (h : Booked (s.record cmd es) txID) : Booked s txID ∨ IsLegKey txID cmd.idempotencyKey := by
  obtain ⟨t, ht, hk⟩ := h
  rcases List.mem_append.1 ht with ht | ht
  · exact .inl ⟨t, ht, hk⟩
  · rw [List.mem_singleton] at ht
    subst ht
    exact .inr hk

theorem history_applyLocked (s : State) (cmd : Command) :
    (s.applyLocked cmd).1.history = s.history ∨
      ∃ es, (s.applyLocked cmd).1.history = (s.record cmd es).history := by
  unfold State.applyLocked
  cases cmd.op <;> dsimp only
  all_goals repeat' split
  all_goals first
    | exact .inl rfl
    | exact .inr ⟨_, rfl⟩

/-- A client command records nothing under an internal key. -/
theorem mem_history_apply {s : State} {cmd : Command} {t : Transaction}
    (ht : t ∈ (s.apply cmd).1.history) :
    t ∈ s.history ∨ ¬ internalKeyPrefix.isPrefixOf t.idempotencyKey := by
  unfold State.apply at ht
  split at ht
  · exact .inl ht
  split at ht
  · exact .inl ht
  rename_i hp
  dsimp only at ht
  split at ht
  · split at ht <;> exact .inl ht
  rcases history_applyLocked s cmd with hh | ⟨es, hh⟩
  · exact .inl (hh ▸ ht)
  · dsimp only at ht
    rw [hh] at ht
    rcases List.mem_append.1 ht with ht | ht
    · exact .inl ht
    · rw [List.mem_singleton.1 ht]
      exact .inr hp

theorem Booked.of_apply {s : State} {cmd : Command} {txID : Str}
    (h : Booked (s.apply cmd).1 txID) : Booked s txID := by
  obtain ⟨t, ht, hk⟩ := h
  rcases mem_history_apply ht with ht | hno
  · exact ⟨t, ht, hk⟩
  · rcases hk with hk | hk <;> exact absurd (hk ▸ internalKey_hasPrefix _ _) hno

theorem reserves_applyLocked (s : State) (cmd : Command) :
    (s.applyLocked cmd).1.reserves = s.reserves := by
  unfold State.applyLocked
  cases cmd.op <;> dsimp only
  all_goals repeat' split
  all_goals rfl

theorem reserves_apply (s : State) (cmd : Command) : (s.apply cmd).1.reserves = s.reserves := by
  unfold State.apply
  split
  · rfl
  split
  · rfl
  dsimp only
  split
  · split <;> rfl
  · exact reserves_applyLocked s cmd

theorem history_prepareDebit (s : State) (txID : Str) (account : AccountID) (amount : Money) :
    (s.prepareDebit txID account amount).1.history = s.history := by
  unfold State.prepareDebit
  dsimp only
  repeat' split
  all_goals rfl

theorem history_abortTx (s : State) (txID : Str) : (s.abortTx txID).1.history = s.history := by
  unfold State.abortTx
  split <;> rfl

theorem Booked.of_commitDebit {s : State} {id txID : Str} {ts : Timestamp}
    (h : Booked (s.commitDebit id ts).1 txID) : Booked s txID ∨ id = txID := by
  unfold State.commitDebit at h
  split at h
  · exact .inl h
  · rcases h.of_record with h | h
    · exact .inl h
    · exact .inr (IsLegKey.unique (.inl rfl) h)

theorem Booked.of_commitCredit {s : State} {id txID : Str} {account : AccountID} {amount : Money}
    {ts : Timestamp} (h : Booked (s.commitCredit id account amount ts).1 txID) :
    Booked s txID ∨ id = txID := by
  unfold State.commitCredit at h
  dsimp only at h
  split at h
  · exact .inl h
  split at h
  · exact .inl h
  split at h
  · exact .inl h
  · rename_i bal _ _
    rcases Booked.of_record (s := s.setBalance account (bal + amount)) h with h | h
    · exact .inl h
    · exact .inr (IsLegKey.unique (.inr rfl) h)

end Ledger
end CoreBank
