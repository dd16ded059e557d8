import CoreBank.Ledger.Keys
import CoreBank.Shard.Atomicity

/-!
# A group's machine as a fold of its log

`Group.before gr i` is the machine that the first `i` entries of the log lead to.  In every run the
machine of a group is that fold, up to where it has applied, and the result recorded for an index is
the one of the entry there (`Replayed`).

The second half follows the ledger's memory of client keys along the fold: a key is remembered from
its first single-shard entry on, with the fingerprint of that entry (`remembers`).
-/

set_option autoImplicit false

namespace CoreBank.Shard

open Ledger Hlc ActionSystem

/-- The machine after some entries, which start at the given index. -/
def replay (m : Machine) (start : Nat) : List Command → Machine
  | [] => m
  | c :: cs => replay (m.applyAt (start + 1) c) (start + 1) cs

theorem replay_append (m : Machine) (start : Nat) (cs : List Command) (c : Command) :
    replay m start (cs ++ [c]) = (replay m start cs).applyAt (start + cs.length + 1) c := by
  induction cs generalizing m start with
  | nil => rfl
  | cons d cs ih =>
    rw [List.cons_append, replay, ih, replay, List.length_cons]
    congr 1
    omega

/-- The machine before the entry at position `i` of the log. -/
def Group.before (gr : Group) (i : Nat) : Machine := replay {} 0 (gr.log.take i)

variable {gr : Group} {i : Nat} {c : Command}

theorem before_succ (h : gr.log[i]? = some c) :
    gr.before (i + 1) = (gr.before i).applyAt (i + 1) c := by
  obtain ⟨hlt, hget⟩ := List.getElem?_eq_some_iff.1 h
  rw [Group.before, ← List.take_append_getElem hlt, hget, replay_append, List.length_take,
    Nat.min_eq_left hlt.le, Nat.zero_add]
  rfl

theorem before_of_isPrefix {gr' : Group} (h : gr.log <+: gr'.log) (hi : i ≤ gr.log.length) :
    gr'.before i = gr.before i := by
  obtain ⟨cs, hcs⟩ := h
  rw [Group.before, ← hcs, List.take_append_of_le_length hi, Group.before]

/-- The machine is the fold of what was applied, and keeps the result of every entry. -/
structure Replayed (gr : Group) : Prop where
  applied_le : gr.applied ≤ gr.log.length
  machine : gr.machine = gr.before gr.applied
  results : ∀ i c, i < gr.applied → gr.log[i]? = some c →
    gr.machine.appliedResult (i + 1) = ((gr.before i).apply c).2

theorem replayed_empty : Replayed {} where
  applied_le := Nat.le_refl 0
  machine := rfl
  results _ _ h := absurd h (Nat.not_lt_zero _)

theorem Replayed.append (h : Replayed gr) (c : Command) :
    Replayed { gr with log := gr.log ++ [c] } where
  applied_le := by
    rw [List.length_append]
    exact Nat.le_add_right_of_le h.applied_le
  machine := h.machine.trans (before_of_isPrefix (List.prefix_append _ [c]) h.applied_le).symm
  results i d hi hd := by
    have hlt : i < gr.log.length := lt_of_lt_of_le hi h.applied_le
    rw [List.getElem?_append_left hlt] at hd
    rw [before_of_isPrefix (List.prefix_append _ [c]) hlt.le]
    exact h.results i d hi hd

theorem Replayed.applyNext {gr' : Group} (h : Replayed gr) (happ : gr.applyNext = some gr') :
    Replayed gr' := by
  obtain ⟨c, hc, rfl⟩ := applyNext_eq_some happ
  refine ⟨(List.getElem?_eq_some_iff.1 hc).1, ?_, ?_⟩
  · show gr.machine.applyAt (gr.applied + 1) c = gr.before (gr.applied + 1)
    rw [before_succ hc, h.machine]
  · intro i d hi hd
    show (gr.machine.applyAt (gr.applied + 1) c).appliedResult (i + 1) = ((gr.before i).apply d).2
    rcases Nat.lt_succ_iff_lt_or_eq.1 hi with hi | rfl
    · rw [Machine.appliedResult_applyAt_ne _ _ (by omega)]
      exact h.results i d hi hd
    · obtain rfl : d = c := Option.some.inj (hd.symm.trans hc)
      rw [Machine.appliedResult_applyAt_self, h.machine]

/-- **In every run** the groups are replays of their logs. -/
theorem Replayed.step {shardFor : AccountID → ID} {w w' : World} {a : Action}
    (hs : Step shardFor w a w') (h : ∀ g, Replayed (w.group g)) (g : ID) :
    Replayed (w'.group g) := by
  generalize hg : w'.group g = gr'
  cases hg ▸ hs.groupStep g with
  | same => exact h g
  | append c => exact (h g).append c
  | apply c hc => exact (h g).applyNext (GroupStep.applyNext hc)

/-! ## Client keys -/

namespace Machine

theorem memory_settle (m : Machine) (c : Command) (r : TxRecord) {key : Str}
    (hkey : ClientKey key) : memory (m.settle c r).1 key = memory m.state key := by
  rw [settle]
  split
  · split
    · exact memory_commitDebit _ _ _ _
    · exact memory_commitCredit _ _ _ _ _ hkey
  · exact memory_abortTx _ _ _

/-- The protocol's entries do not touch what is remembered under a client key. -/
theorem memory_apply_of_op_ne (m : Machine) (hop : c.op ≠ .single) {key : Str}
    (hkey : ClientKey key) : memory (m.apply c).1.state key = memory m.state key := by
  obtain ⟨st, txs, res, hst, -, -, he⟩ := exists_effect m c
  rw [hst]
  cases he with
  | nothing | decision => rfl
  | client hs => exact absurd hs hop
  | vote =>
    rw [ballot]
    split
    · exact memory_prepareDebit _ _ _ _ _
    · rfl
  | outcome => exact memory_settle m c _ hkey

theorem state_apply_single {m : Machine} (hop : c.op = .single) :
    (m.apply c).1.state = (m.state.apply c.ledger).1
      ∧ (m.apply c).2 = (m.state.apply c.ledger).2 := by
  rw [apply, hop]
  exact ⟨state_recordResult _ _ _, rfl⟩

/-- **What a machine remembers under a client key stays.** -/
theorem memory_apply {m : Machine} (c : Command) {key : Str} (hkey : ClientKey key)
    (hold : (m.state.applied.lookup key).isSome) :
    memory (m.apply c).1.state key = memory m.state key := by
  by_cases hop : c.op = .single
  · rw [(state_apply_single hop).1]
    exact memory_apply_of_known hkey hold
  · exact memory_apply_of_op_ne m hop hkey

end Machine

/-- From the entry that brought a key on, it is remembered unchanged. -/
theorem memory_before {key : Str} (hkey : ClientKey key) {j : Nat} (hij : i ≤ j)
    (hj : j ≤ gr.log.length) (hold : ((gr.before i).state.applied.lookup key).isSome) :
    memory (gr.before j).state key = memory (gr.before i).state key := by
  induction j, hij using Nat.le_induction with
  | base => rfl
  | succ j hij ih =>
    have ih := ih (by omega)
    have hget : gr.log[j]? = some gr.log[j] := List.getElem?_eq_getElem hj
    have hstill : ((gr.before j).state.applied.lookup key).isSome := by
      rw [show (gr.before j).state.applied.lookup key = _ from congrArg Prod.fst ih]
      exact hold
    rw [before_succ hget, Machine.state_applyAt, Machine.memory_apply _ hkey hstill, ih]

theorem known_after_use (hc : gr.log[i]? = some c) (hop : c.op = .single)
    (hkey : ClientKey c.ledger.idempotencyKey) :
    ((gr.before (i + 1)).state.applied.lookup c.ledger.idempotencyKey).isSome := by
  rw [before_succ hc, Machine.state_applyAt, (Machine.state_apply_single hop).1]
  cases hold : (gr.before i).state.applied.lookup c.ledger.idempotencyKey with
  | some prev =>
    rw [apply_of_known hkey hold]
    exact Option.isSome_iff_exists.2 ⟨prev, hold⟩
  | none =>
    have h := congrArg Prod.fst (apply_of_new hkey hold)
    exact Option.isSome_iff_exists.2 ⟨_, h⟩

/-- **One effect per key.**  When a single-shard entry leaves a trace in the history, no other entry
under its key came before, and every later one finds its fingerprint. -/
theorem first_use {j : Nat} {d : Command} (hc : gr.log[i]? = some c) (hd : gr.log[j]? = some d)
    (hopc : c.op = .single) (hopd : d.op = .single)
    (hkeys : d.ledger.idempotencyKey = c.ledger.idempotencyKey) (hij : i ≠ j)
    (hmoved : (gr.before (i + 1)).state.history ≠ (gr.before i).state.history) :
    i < j ∧ ClientKey c.ledger.idempotencyKey ∧
      (gr.before j).state.fingerprints.lookup c.ledger.idempotencyKey
        = some c.ledger.fingerprint := by
  have hlti := (List.getElem?_eq_some_iff.1 hc).1
  have hltj := (List.getElem?_eq_some_iff.1 hd).1
  rw [before_succ hc, Machine.state_applyAt, (Machine.state_apply_single hopc).1] at hmoved
  obtain ⟨hkey, hnew⟩ := new_of_history_ne hmoved
  have hlt : i < j := by
    by_contra hge
    have hknown := known_after_use hd hopd (hkeys ▸ hkey)
    have hmem := memory_before (hkeys ▸ hkey) (show j + 1 ≤ i by omega) hlti.le hknown
    rw [hkeys] at hmem hknown
    have hnone : none = (gr.before (j + 1)).state.applied.lookup c.ledger.idempotencyKey :=
      hnew.symm.trans (congrArg Prod.fst hmem)
    rw [← hnone] at hknown
    cases hknown
  refine ⟨hlt, hkey, ?_⟩
  have hmem := memory_before hkey (show i + 1 ≤ j from hlt) hltj.le
    (known_after_use hc hopc hkey)
  have hfirst := apply_of_new hkey hnew
  rw [← (Machine.state_apply_single hopc).1, ← Machine.state_applyAt _ (i + 1) c,
    ← before_succ hc] at hfirst
  exact congrArg Prod.snd (hmem.trans hfirst)

/-! ## Records -/

/-- The entry tells a shard about a transaction. -/
def Command.Introduces (c : Command) : Prop := c.op = .prepare ∨ c.op = .decision

/-- The request in a record is the one of the entry that made the record. -/
theorem Machine.cmd_apply {m : Machine} {id : TxID} {r : TxRecord}
    (h : (m.apply c).1.txs.lookup id = some r) :
    (∃ r₀, m.txs.lookup id = some r₀ ∧ r₀.cmd = r.cmd) ∨ (c.Introduces ∧ c.ledger = r.cmd) := by
  by_cases hid : id = c.txID
  case neg => exact .inl ⟨r, (lookup_apply_ne m hid) ▸ h, rfl⟩
  subst hid
  obtain ⟨st, txs, res, -, htxs, -, he⟩ := exists_effect m c
  rw [htxs] at h
  cases he with
  | nothing | client => exact .inl ⟨r, h, rfl⟩
  | vote hop =>
    rw [AList.lookup_insert, Option.some.injEq] at h
    refine .inr ⟨.inl hop, ?_⟩
    rw [← h, voteRecord]
    split <;> rfl
  | decision hop =>
    rw [AList.lookup_insert, Option.some.injEq, decisionRecord, decisionBase] at h
    cases hold : m.txs.lookup c.txID with
    | none => exact .inr ⟨.inr hop, by rw [← h, hold]; rfl⟩
    | some r₀ => exact .inl ⟨r₀, rfl, by rw [← h, hold]; rfl⟩
  | @outcome _ r₀ hold =>
    rw [AList.lookup_insert, Option.some.injEq] at h
    exact .inl ⟨r₀, hold, by rw [← h]; rfl⟩

theorem introduced_before (hi : i ≤ gr.log.length) {id : TxID} {r : TxRecord}
    (h : (gr.before i).txs.lookup id = some r) : ∃ e ∈ gr.log, e.Introduces ∧ e.ledger = r.cmd := by
  induction i generalizing r with
  | zero => cases h
  | succ i ih =>
    have hget : gr.log[i]? = some gr.log[i] := List.getElem?_eq_getElem hi
    rw [before_succ hget, Machine.lookup_applyAt] at h
    rcases Machine.cmd_apply h with ⟨r₀, hr₀, hcmd⟩ | ⟨hintro, hcmd⟩
    · obtain ⟨e, he, hintro, hcmd'⟩ := ih (by omega) hr₀
      exact ⟨e, he, hintro, hcmd'.trans hcmd⟩
    · exact ⟨_, List.mem_of_getElem? hget, hintro, hcmd⟩

end CoreBank.Shard
