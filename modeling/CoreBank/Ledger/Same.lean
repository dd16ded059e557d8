import CoreBank.Ledger.Snapshot

/-!
# The same ledger

States that hold the same maps, whatever the order of their bindings.  No operation sees the
difference: it returns the same result and leaves the same state (`Same.apply` and the lemmas after
it).  A state restored from a snapshot is the same state in this sense.  The operations do not look
at the history either: `Agree` leaves it out.
-/

set_option autoImplicit false

namespace CoreBank.Ledger

open Hlc Words

namespace State

/-- Only the order of the maps may differ. -/
structure Same (s s' : State) : Prop where
  balances : s.balances.entries.Perm s'.balances.entries
  applied : s.applied.entries.Perm s'.applied.entries
  fingerprints : s.fingerprints.entries.Perm s'.fingerprints.entries
  reserves : s.reserves.entries.Perm s'.reserves.entries
  history : s.history = s'.history
  seq : s.seq = s'.seq

theorem Same.refl (s : State) : Same s s := ⟨.refl _, .refl _, .refl _, .refl _, rfl, rfl⟩

theorem Same.symm {s s' : State} (h : Same s s') : Same s' s :=
  ⟨h.balances.symm, h.applied.symm, h.fingerprints.symm, h.reserves.symm, h.history.symm,
    h.seq.symm⟩

theorem Same.trans {s s' s'' : State} (h : Same s s') (h' : Same s' s'') : Same s s'' :=
  ⟨h.balances.trans h'.balances, h.applied.trans h'.applied,
    h.fingerprints.trans h'.fingerprints, h.reserves.trans h'.reserves,
    h.history.trans h'.history, h.seq.trans h'.seq⟩

theorem same_restored (s : State) : Same s.restored s :=
  ⟨reread_perm _, reread_perm _, reread_perm _, reread_perm _, rfl, rfl⟩

/-- The same outcome: one result, and the same state. -/
def Alike (p p' : State × Result) : Prop := p.2 = p'.2 ∧ Same p.1 p'.1

namespace Same

variable {s s' : State} (h : Same s s')

include h

theorem lookup_balances (id : AccountID) :
    s.balances.lookup id = s'.balances.lookup id := AList.perm_lookup h.balances

theorem lookup_applied (key : Str) :
    s.applied.lookup key = s'.applied.lookup key := AList.perm_lookup h.applied

theorem lookup_fingerprints (key : Str) :
    s.fingerprints.lookup key = s'.fingerprints.lookup key := AList.perm_lookup h.fingerprints

theorem lookup_reserves (tx : Str) :
    s.reserves.lookup tx = s'.reserves.lookup tx := AList.perm_lookup h.reserves

theorem holds (id : AccountID) : (s.holds id).Perm (s'.holds id) :=
  (h.reserves.filter _).map _

theorem reservedLocked (id : AccountID) :
    s.reservedLocked id = s'.reservedLocked id := sum_perm (h.holds id)

theorem availableLocked (id : AccountID) : s.availableLocked id = s'.availableLocked id := by
  rw [State.availableLocked, State.availableLocked, h.lookup_balances, h.reservedLocked]

theorem setBalance (id : AccountID) (m : Money) : Same (s.setBalance id m) (s'.setBalance id m) :=
  { h with balances := AList.perm_insert h.balances }

theorem record (cmd : Command) (es : List Entry) : Same (s.record cmd es) (s'.record cmd es) :=
  { h with
    history := by rw [State.record, State.record, h.history, h.seq]
    seq := by rw [State.record, State.record, h.seq] }

theorem applyLocked (cmd : Command) : Alike (s.applyLocked cmd) (s'.applyLocked cmd) := by
  rw [State.applyLocked, State.applyLocked]
  simp only [h.lookup_balances, h.reservedLocked]
  cases cmd.op with
  | openAccount =>
    dsimp only
    split
    · exact ⟨rfl, h⟩
    split
    · exact ⟨rfl, h⟩
    · exact ⟨rfl, (h.setBalance _ _).record _ _⟩
  | deposit =>
    dsimp only
    split
    · exact ⟨rfl, h⟩
    cases s'.balances.lookup cmd.toAcc with
    | none => exact ⟨rfl, h⟩
    | some bal =>
      dsimp only
      split
      · exact ⟨rfl, h⟩
      · exact ⟨rfl, (h.setBalance _ _).record _ _⟩
  | withdraw =>
    dsimp only
    split
    · exact ⟨rfl, h⟩
    cases s'.balances.lookup cmd.fromAcc with
    | none => exact ⟨rfl, h⟩
    | some bal =>
      dsimp only
      split
      · exact ⟨rfl, h⟩
      · exact ⟨rfl, (h.setBalance _ _).record _ _⟩
  | transfer =>
    dsimp only
    split
    · exact ⟨rfl, h⟩
    split
    · exact ⟨rfl, h⟩
    cases s'.balances.lookup cmd.fromAcc with
    | none => exact ⟨rfl, h⟩
    | some balFrom =>
      cases s'.balances.lookup cmd.toAcc with
      | none => exact ⟨rfl, h⟩
      | some balTo =>
        dsimp only
        split
        · exact ⟨rfl, h⟩
        split
        · exact ⟨rfl, h⟩
        · exact ⟨rfl, ((h.setBalance _ _).setBalance _ _).record _ _⟩
  | other => exact ⟨rfl, h⟩

theorem apply (cmd : Command) : Alike (s.apply cmd) (s'.apply cmd) := by
  rw [State.apply, State.apply, h.lookup_applied, h.lookup_fingerprints]
  split
  · exact ⟨rfl, h⟩
  split
  · exact ⟨rfl, h⟩
  dsimp only
  cases s'.applied.lookup cmd.idempotencyKey with
  | some prev =>
    dsimp only
    split
    · exact ⟨rfl, h⟩
    · exact ⟨rfl, h⟩
  | none =>
    obtain ⟨hres, hst⟩ := h.applyLocked cmd
    refine ⟨hres, { hst with applied := ?_, fingerprints := AList.perm_insert hst.fingerprints }⟩
    rw [hres]
    exact AList.perm_insert hst.applied

variable (txID : Str) (account : AccountID) (amount : Money) (ts : Timestamp)

theorem prepareDebit :
    Alike (s.prepareDebit txID account amount) (s'.prepareDebit txID account amount) := by
  rw [State.prepareDebit, State.prepareDebit, h.lookup_balances, h.lookup_reserves,
    h.availableLocked]
  split
  · exact ⟨rfl, h⟩
  split
  · exact ⟨rfl, h⟩
  cases s'.reserves.lookup txID with
  | some held =>
    dsimp only
    split
    · exact ⟨rfl, h⟩
    · exact ⟨rfl, h⟩
  | none =>
    dsimp only
    split
    · exact ⟨rfl, h⟩
    · have hnext : Same { s with reserves := s.reserves.insert txID ⟨txID, account, amount⟩ }
          { s' with reserves := s'.reserves.insert txID ⟨txID, account, amount⟩ } :=
        { h with reserves := AList.perm_insert h.reserves }
      exact ⟨by rw [hnext.availableLocked], hnext⟩

theorem prepareCredit :
    s.prepareCredit txID account amount = s'.prepareCredit txID account amount := by
  rw [State.prepareCredit, State.prepareCredit, h.lookup_balances]

theorem erase_reserve :
    Same { s with reserves := s.reserves.erase txID }
      { s' with reserves := s'.reserves.erase txID } :=
  { h with reserves := AList.perm_erase h.reserves }

theorem commitDebit : Alike (s.commitDebit txID ts) (s'.commitDebit txID ts) := by
  rw [State.commitDebit, State.commitDebit, h.lookup_reserves]
  cases s'.reserves.lookup txID with
  | none => exact ⟨rfl, h⟩
  | some r =>
    dsimp only
    rw [h.lookup_balances]
    exact ⟨rfl, ((h.erase_reserve txID).setBalance _ _).record _ _⟩

theorem commitCredit :
    Alike (s.commitCredit txID account amount ts) (s'.commitCredit txID account amount ts) := by
  rw [State.commitCredit, State.commitCredit]
  rw [h.lookup_applied, h.lookup_balances]
  cases s'.applied.lookup (internalKey txID (str "credit")) with
  | some prev => exact ⟨rfl, h⟩
  | none =>
    cases s'.balances.lookup account with
    | none => exact ⟨rfl, h⟩
    | some bal =>
      dsimp only
      split
      · exact ⟨rfl, h⟩
      · have hrec := (h.setBalance account (bal + amount)).record
          { op := .transfer, idempotencyKey := internalKey txID (str "credit"), fromAcc := [],
            toAcc := account, amount := amount, timestamp := ts } [⟨account, amount⟩]
        exact ⟨rfl, { hrec with applied := AList.perm_insert hrec.applied }⟩

theorem abortTx : Alike (s.abortTx txID) (s'.abortTx txID) := by
  rw [State.abortTx, State.abortTx, h.lookup_reserves]
  cases s'.reserves.lookup txID with
  | none => exact ⟨rfl, h⟩
  | some r =>
    have hnext := h.erase_reserve txID
    exact ⟨by dsimp only; rw [hnext.availableLocked], hnext⟩

theorem sound (hs : Sound s) : Sound s' where
  backed := by
    intro tx r hr
    rw [← h.lookup_reserves] at hr
    exact ⟨(hs.backed hr).1, (AList.mem_of_perm h.balances).1 (hs.backed hr).2⟩
  covered := by
    intro id bal hbal
    rw [← h.lookup_balances] at hbal
    rw [← total_perm (h.holds id)]
    exact hs.covered hbal
  seq_eq := by rw [← h.seq, ← h.history, hs.seq_eq]
  numbered := by rw [← h.history, hs.numbered]
  balanced := h.history ▸ hs.balanced
  accounts := by
    intro id
    rw [← AList.mem_of_perm h.balances, hs.accounts, postings, postings, h.history]
  sums := by
    intro id bal hbal
    rw [← h.lookup_balances] at hbal
    rw [hs.sums hbal, postings, postings, h.history]

end Same

/-! ## States that differ in their histories

The history is written and never read, and so are the clock readings, which stand nowhere else. -/

/-- The state without its history, which the operations add to and never look at. -/
abbrev bare (s : State) : State := { s with history := [], seq := 0 }

/-- An outcome without the history. -/
def forget (p : State × Result) : State × Result := (p.1.bare, p.2)

variable (s : State)

theorem forget_applyLocked (cmd : Command) :
    forget (s.applyLocked cmd) = forget (s.bare.applyLocked cmd) := by
  unfold applyLocked
  cases cmd.op <;> dsimp only [bare, reservedLocked]
  all_goals repeat' split
  all_goals rfl

theorem forget_apply (cmd : Command) : forget (s.apply cmd) = forget (s.bare.apply cmd) := by
  unfold apply
  dsimp only [bare]
  split
  · rfl
  split
  · rfl
  split
  · split <;> rfl
  · obtain ⟨hst, hres⟩ := Prod.mk.inj (s.forget_applyLocked cmd)
    obtain ⟨hb, ha, hf, hr⟩ : _ ∧ _ ∧ _ ∧ _ := by simpa [bare] using hst
    simp only [forget, bare, hb, ha, hf, hr, hres]

variable (txID : Str) (account : AccountID) (amount : Money) (ts ts' : Timestamp)

theorem forget_prepareDebit :
    forget (s.prepareDebit txID account amount) =
      forget (s.bare.prepareDebit txID account amount) := by
  unfold prepareDebit
  dsimp only [bare, availableLocked, reservedLocked]
  repeat' split
  all_goals rfl

theorem forget_commitDebit :
    forget (s.commitDebit txID ts) = forget (s.bare.commitDebit txID ts') := by
  unfold commitDebit
  dsimp only [bare]
  split <;> rfl

theorem forget_commitCredit : forget (s.commitCredit txID account amount ts) =
      forget (s.bare.commitCredit txID account amount ts') := by
  unfold commitCredit
  dsimp only [bare]
  repeat' split
  all_goals rfl

theorem forget_abortTx : forget (s.abortTx txID) = forget (s.bare.abortTx txID) := by
  unfold abortTx
  dsimp only [bare]
  split <;> rfl

variable {s} {s' : State} {p p' q q' : State × Result}

/-- The states differ at most in their histories. -/
def Agree (s s' : State) : Prop := Same s.bare s'.bare

/-- The same result, and states that agree. -/
def Agreeing (p p' : State × Result) : Prop := p.2 = p'.2 ∧ Agree p.1 p'.1

theorem Alike.agreeing (h : Alike q q') (hp : forget p = forget q) (hp' : forget p' = forget q') :
    Agreeing p p' := by
  obtain ⟨hst, hres⟩ := Prod.mk.inj hp
  obtain ⟨hst', hres'⟩ := Prod.mk.inj hp'
  refine ⟨hres.trans (h.1.trans hres'.symm), ?_⟩
  rw [Agree, hst, hst']
  exact { h.2 with history := rfl, seq := rfl }

theorem Agree.apply (h : Agree s s') (cmd : Command) : Agreeing (s.apply cmd) (s'.apply cmd) :=
  (Same.apply h cmd).agreeing (forget_apply s cmd) (forget_apply s' cmd)

theorem Agree.prepareDebit (h : Agree s s') :
    Agreeing (s.prepareDebit txID account amount) (s'.prepareDebit txID account amount) :=
  (Same.prepareDebit h txID account amount).agreeing (forget_prepareDebit s _ _ _)
    (forget_prepareDebit s' _ _ _)

theorem Agree.commitDebit (h : Agree s s') :
    Agreeing (s.commitDebit txID ts) (s'.commitDebit txID ts') :=
  (Same.commitDebit h txID ts).agreeing (forget_commitDebit s _ _ _) (forget_commitDebit s' _ _ _)

theorem Agree.commitCredit (h : Agree s s') :
    Agreeing (s.commitCredit txID account amount ts) (s'.commitCredit txID account amount ts') :=
  (Same.commitCredit h txID account amount ts).agreeing (forget_commitCredit s _ _ _ _ _)
    (forget_commitCredit s' _ _ _ _ _)

theorem Agree.abortTx (h : Agree s s') : Agreeing (s.abortTx txID) (s'.abortTx txID) :=
  (Same.abortTx h txID).agreeing (forget_abortTx s txID) (forget_abortTx s' txID)

end State
end CoreBank.Ledger
