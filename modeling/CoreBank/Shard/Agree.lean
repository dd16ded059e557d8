import CoreBank.Shard.Snapshot

/-!
# What a restored shard has kept

A snapshot of a shard leaves out the clock readings of the transaction records, and a leg that is
booked later may carry another one than it would have.  Nothing else comes of it: readings are
written to the history and never looked at.  Machines that differ in nothing else (`Agree`) answer
every entry alike and agree again (`Agree.applyData`), so a shard that went through snapshots has
the balances of one that only applied the entries.
-/

set_option autoImplicit false

namespace CoreBank.Shard.Machine

open Ledger Hlc Wire

/-- The machines differ at most in their histories, in the clock readings of their records and in
the results by index. -/
structure Agree (m m' : Machine) : Prop where
  state : m.state.Agree m'.state
  txs : ∀ id, (m.txs.lookup id).map TxRecord.unstamped = (m'.txs.lookup id).map TxRecord.unstamped
  results : m.results.entries.Perm m'.results.entries

/-- The same result, and machines that agree. -/
def Agreeing (p p' : Machine × Result) : Prop := p.2 = p'.2 ∧ Agree p.1 p'.1

theorem agree_restored {m : Machine} (h : Keyed m) : Agree m.restored m where
  state := { State.same_restored m.state with history := rfl, seq := rfl }
  txs id := by
    cases hr : m.txs.lookup id with
    | none =>
      cases hr' : m.restored.txs.lookup id with
      | none => rfl
      | some r' =>
        have hmem := (entries_restored h).mem_iff.1 (AList.mem_lookup_iff.1 hr')
        obtain ⟨b, hb, heq⟩ := List.mem_map.1 hmem
        cases heq
        cases hr.symm.trans (AList.mem_lookup_iff.2 hb)
    | some r =>
      have hmem : ⟨id, r.unstamped⟩ ∈ m.restored.txs.entries :=
        (entries_restored h).mem_iff.2 (List.mem_map_of_mem (AList.mem_lookup_iff.1 hr))
      rw [AList.mem_lookup_iff.2 hmem]
      rfl
  results := reread_perm m.results

namespace Agree

variable {m m' : Machine}

theorem refl (m : Machine) : Agree m m := ⟨.refl _, fun _ => rfl, .refl _⟩

variable (h : Agree m m')

include h

theorem symm : Agree m' m :=
  ⟨h.state.symm, fun id => (h.txs id).symm, h.results.symm⟩

theorem trans {m'' : Machine} (h' : Agree m' m'') : Agree m m'' :=
  ⟨h.state.trans h'.state, fun id => (h.txs id).trans (h'.txs id), h.results.trans h'.results⟩

/-- Neither has a record of the transaction, or both have one, with different readings perhaps. -/
theorem lookup_cases (id : TxID) :
    m.txs.lookup id = none ∧ m'.txs.lookup id = none ∨
      ∃ r ts, m.txs.lookup id = some r ∧
        m'.txs.lookup id = some { r with cmd := { r.cmd with timestamp := ts } } := by
  have htx := h.txs id
  cases hr : m.txs.lookup id with
  | none =>
    rw [hr] at htx
    exact .inl ⟨rfl, Option.map_eq_none_iff.1 htx.symm⟩
  | some r =>
    rw [hr] at htx
    obtain ⟨r', hr', heq⟩ := Option.map_eq_some_iff.1 htx.symm
    refine .inr ⟨r, r'.cmd.timestamp, rfl, hr'.trans ?_⟩
    rcases r with ⟨_, _, ⟨_, _, _, _, _, _⟩, _, _, _, _, _⟩
    rcases r' with ⟨_, _, ⟨_, _, _, _, _, _⟩, _, _, _, _, _⟩
    cases heq
    rfl

theorem insert {st st' : State} (hst : st.Agree st') {r r' : TxRecord}
    (hr : r.unstamped = r'.unstamped) (id : TxID) :
    Agree { m with state := st, txs := m.txs.insert id r }
      { m' with state := st', txs := m'.txs.insert id r' } where
  state := hst
  txs id' := by
    by_cases heq : id' = id
    · subst heq
      rw [AList.lookup_insert, AList.lookup_insert, Option.map_some, Option.map_some, hr]
    · rw [AList.lookup_insert_ne heq, AList.lookup_insert_ne heq]
      exact h.txs id'
  results := h.results

variable (cmd : Command)

theorem vote : Agreeing (m.vote cmd) (m'.vote cmd) := by
  have hballot : State.Agreeing (m.ballot cmd) (m'.ballot cmd) := by
    rw [Machine.ballot, Machine.ballot]
    split
    · exact h.state.prepareDebit _ _ _
    · exact ⟨State.Same.prepareCredit h.state cmd.txID _ _, h.state⟩
  refine ⟨hballot.1, h.insert hballot.2 ?_ _⟩
  exact congrArg (fun res => (voteRecord cmd res.ok).unstamped) hballot.1

theorem applyPrepare : Agreeing (m.applyPrepare cmd) (m'.applyPrepare cmd) := by
  rw [Machine.applyPrepare, Machine.applyPrepare]
  rcases h.lookup_cases cmd.txID with ⟨hr, hr'⟩ | ⟨r, ts, hr, hr'⟩
  · rw [hr, hr']
    exact h.vote cmd
  · rw [hr, hr']
    dsimp only
    split
    · exact ⟨rfl, h⟩
    split
    · exact ⟨rfl, h⟩
    · exact h.vote cmd

theorem applyDecision : Agreeing (m.applyDecision cmd) (m'.applyDecision cmd) := by
  refine ⟨rfl, h.insert h.state ?_ _⟩
  rcases h.lookup_cases cmd.txID with ⟨hr, hr'⟩ | ⟨r, ts, hr, hr'⟩
  · rw [decisionBase, decisionBase, hr, hr']
  · rw [decisionBase, decisionBase, hr, hr']
    rfl

theorem settle (r : TxRecord) (ts : Timestamp) :
    State.Agreeing (m.settle cmd r)
      (m'.settle cmd { r with cmd := { r.cmd with timestamp := ts } }) := by
  rw [Machine.settle, Machine.settle]
  split
  · split
    · exact h.state.commitDebit _ _ _
    · exact h.state.commitCredit _ _ _ _ _
  · exact h.state.abortTx _

theorem applyOutcome : Agreeing (m.applyOutcome cmd) (m'.applyOutcome cmd) := by
  rw [Machine.applyOutcome, Machine.applyOutcome]
  rcases h.lookup_cases cmd.txID with ⟨hr, hr'⟩ | ⟨r, ts, hr, hr'⟩
  · rw [hr, hr']
    exact ⟨rfl, h⟩
  · rw [hr, hr']
    dsimp only
    split
    · exact ⟨rfl, h⟩
    · obtain ⟨hres, hst⟩ := h.settle cmd r ts
      refine ⟨hres, h.insert hst ?_ _⟩
      rfl

theorem apply : Agreeing (m.apply cmd) (m'.apply cmd) := by
  rw [Machine.apply, Machine.apply]
  cases cmd.op with
  | single =>
    obtain ⟨hres, hst⟩ := h.state.apply cmd.ledger
    refine ⟨hres, ?_⟩
    dsimp only
    rw [hres, recordResult, recordResult]
    split
    · exact { h with state := hst }
    · exact { h with state := hst, results := AList.perm_insert h.results }
  | prepare => exact h.applyPrepare cmd
  | decision => exact h.applyDecision cmd
  | outcome => exact h.applyOutcome cmd
  | other => exact ⟨rfl, h⟩

theorem applyData (data : Bytes) : Agreeing (m.applyData data) (m'.applyData data) := by
  rw [Machine.applyData, Machine.applyData]
  cases decodeCommand data with
  | ok cmd => exact h.apply cmd
  | error err => exact ⟨rfl, h⟩

end Agree

end CoreBank.Shard.Machine
