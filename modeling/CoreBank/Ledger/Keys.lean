import CoreBank.Ledger.Codec

/-!
# Idempotency keys

A key is taken by the first command that carries it; `memory` is the result and the fingerprint it
left.  No operation changes them afterwards: the two-phase commit keeps its own notes in the same
map, but under internal keys, which `apply` refuses.

* `Operation`, `perform`, `after`, `trail` — the operations of a ledger as data, and runs of them;
* `Spent` — a command that can no longer do anything;
* `apply_retry` — a repeated request is answered as it was, and leaves the ledger as it is;
* `conflict_iff` — which requests are told apart under one key.
-/

set_option autoImplicit false

namespace CoreBank.Ledger

open Hlc Wire

/-! ## What is remembered -/

/-- A key the ledger accepts from a client. -/
def ClientKey (key : Str) : Prop := key ≠ [] ∧ ¬ internalKeyPrefix.isPrefixOf key

instance (key : Str) : Decidable (ClientKey key) := inferInstanceAs (Decidable (_ ∧ _))

/-- What a ledger remembers under a key: the result and the fingerprint. -/
def memory (s : State) (key : Str) : Option Result × Option UInt64 :=
  (s.applied.lookup key, s.fingerprints.lookup key)

theorem applied_applyLocked (s : State) (cmd : Command) :
    (s.applyLocked cmd).1.applied = s.applied ∧
      (s.applyLocked cmd).1.fingerprints = s.fingerprints := by
  rw [State.applyLocked]
  cases cmd.op <;> dsimp only
  all_goals repeat' split
  all_goals exact ⟨rfl, rfl⟩

variable {s : State} {cmd : Command}

theorem apply_of_new (hkey : ClientKey cmd.idempotencyKey)
    (hnew : s.applied.lookup cmd.idempotencyKey = none) :
    memory (s.apply cmd).1 cmd.idempotencyKey
      = (some (s.applyLocked cmd).2, some cmd.fingerprint) := by
  rw [State.apply, if_neg hkey.1, if_neg hkey.2]
  simp only [hnew, memory, AList.lookup_insert]

theorem result_of_new (hkey : ClientKey cmd.idempotencyKey)
    (hnew : s.applied.lookup cmd.idempotencyKey = none) :
    (s.apply cmd).2 = (s.applyLocked cmd).2 := by
  rw [State.apply, if_neg hkey.1, if_neg hkey.2]
  simp only [hnew]

theorem apply_of_known {prev : Result} (hkey : ClientKey cmd.idempotencyKey)
    (hold : s.applied.lookup cmd.idempotencyKey = some prev) :
    s.apply cmd = (s, if (s.fingerprints.lookup cmd.idempotencyKey).getD 0 ≠ cmd.fingerprint
      then { err := errIdempotencyConflict } else prev) := by
  rw [State.apply, if_neg hkey.1, if_neg hkey.2]
  simp only [hold]
  split <;> rfl

theorem apply_of_not_clientKey (hkey : ¬ ClientKey cmd.idempotencyKey) : (s.apply cmd).1 = s := by
  rw [State.apply]
  split
  · rfl
  next hne => rw [if_pos (not_not.1 fun hp => hkey ⟨hne, hp⟩)]

/-- A command that leaves a trace in the history came under a new client key. -/
theorem new_of_history_ne (h : (s.apply cmd).1.history ≠ s.history) :
    ClientKey cmd.idempotencyKey ∧ s.applied.lookup cmd.idempotencyKey = none := by
  have hkey : ClientKey cmd.idempotencyKey := by
    by_contra hkey
    exact h (by rw [apply_of_not_clientKey hkey])
  refine ⟨hkey, ?_⟩
  cases hold : s.applied.lookup cmd.idempotencyKey with
  | none => rfl
  | some prev => exact absurd (by rw [apply_of_known hkey hold]) h

variable {key : Str}

theorem memory_apply_ne (h : key ≠ cmd.idempotencyKey) :
    memory (s.apply cmd).1 key = memory s key := by
  by_cases hkey : ClientKey cmd.idempotencyKey
  · cases hold : s.applied.lookup cmd.idempotencyKey with
    | some prev => rw [apply_of_known hkey hold]
    | none =>
      have hlocked := applied_applyLocked s cmd
      rw [State.apply, if_neg hkey.1, if_neg hkey.2]
      simp only [hold, memory, AList.lookup_insert_ne h, hlocked]
  · rw [apply_of_not_clientKey hkey]

theorem memory_apply_of_known (hkey : ClientKey key) (hold : (s.applied.lookup key).isSome) :
    memory (s.apply cmd).1 key = memory s key := by
  obtain ⟨prev, hprev⟩ := Option.isSome_iff_exists.1 hold
  by_cases h : key = cmd.idempotencyKey
  · subst h
    rw [apply_of_known hkey hprev]
  · exact memory_apply_ne h

theorem memory_prepareDebit (s : State) (txID : Str) (account : AccountID) (amount : Money)
    (key : Str) : memory (s.prepareDebit txID account amount).1 key = memory s key := by
  rw [State.prepareDebit]
  dsimp only
  repeat' split
  all_goals rfl

theorem memory_abortTx (s : State) (txID key : Str) :
    memory (s.abortTx txID).1 key = memory s key := by
  rw [State.abortTx]
  split <;> rfl

theorem memory_commitDebit (s : State) (txID : Str) (ts : Timestamp) (key : Str) :
    memory (s.commitDebit txID ts).1 key = memory s key := by
  rw [State.commitDebit]
  split <;> rfl

theorem memory_commitCredit (s : State) (txID : Str) (account : AccountID) (amount : Money)
    (ts : Timestamp) (hkey : ClientKey key) :
    memory (s.commitCredit txID account amount ts).1 key = memory s key := by
  have hne : key ≠ internalKey txID (str "credit") := by
    rintro rfl
    exact hkey.2 (internalKey_hasPrefix _ _)
  rw [State.commitCredit]
  dsimp only
  split
  · rfl
  split
  · rfl
  split
  · rfl
  simp only [memory, AList.lookup_insert_ne hne]
  rfl

/-! ## Operations -/

/-- What is done to a ledger: a client's command, or a step of a distributed transaction. -/
inductive Operation
  | apply (cmd : Command)
  | prepareDebit (txID : Str) (account : AccountID) (amount : Money)
  | prepareCredit (txID : Str) (account : AccountID) (amount : Money)
  | commitDebit (txID : Str) (ts : Timestamp)
  | commitCredit (txID : Str) (account : AccountID) (amount : Money) (ts : Timestamp)
  | abortTx (txID : Str)
deriving DecidableEq

namespace State

/-- The method that the operation calls. -/
def perform (s : State) : Operation → State × Result
  | .apply cmd => s.apply cmd
  | .prepareDebit txID account amount => s.prepareDebit txID account amount
  | .prepareCredit txID account amount => (s, s.prepareCredit txID account amount)
  | .commitDebit txID ts => s.commitDebit txID ts
  | .commitCredit txID account amount ts => s.commitCredit txID account amount ts
  | .abortTx txID => s.abortTx txID

/-- The ledger after some operations. -/
def after (s : State) (os : List Operation) : State := os.foldl (fun s o => (s.perform o).1) s

/-- Each operation with its result. -/
def trail (s : State) : List Operation → List (Operation × Result)
  | [] => []
  | o :: os => (o, (s.perform o).2) :: trail (s.perform o).1 os

theorem after_cons (s : State) (o : Operation) (os : List Operation) :
    s.after (o :: os) = (s.perform o).1.after os := rfl

theorem after_append (s : State) (os os' : List Operation) :
    s.after (os ++ os') = (s.after os).after os' := List.foldl_append

end State

variable {o : Operation}

/-- What is remembered under a client's key stays if the key is taken, or if the operation is not a
command that carries it. -/
theorem memory_perform (hkey : ClientKey key) (ho : (s.applied.lookup key).isSome ∨
    ∀ cmd, o = .apply cmd → cmd.idempotencyKey ≠ key) :
    memory (s.perform o).1 key = memory s key := by
  cases o with
  | apply cmd =>
    rcases ho with hold | hne
    · exact memory_apply_of_known hkey hold
    · exact memory_apply_ne (hne cmd rfl).symm
  | prepareDebit txID account amount => exact memory_prepareDebit s txID account amount key
  | prepareCredit => rfl
  | commitDebit txID ts => exact memory_commitDebit s txID ts key
  | commitCredit txID account amount ts => exact memory_commitCredit s txID account amount ts hkey
  | abortTx txID => exact memory_abortTx s txID key

theorem memory_after (hkey : ClientKey key) {os : List Operation}
    (hos : (s.applied.lookup key).isSome ∨ ∀ cmd, .apply cmd ∈ os → cmd.idempotencyKey ≠ key) :
    memory (s.after os) key = memory s key := by
  induction os generalizing s with
  | nil => rfl
  | cons o os ih =>
    have hstep : memory (s.perform o).1 key = memory s key := memory_perform hkey <|
      hos.imp_right fun hne cmd ho => hne cmd (ho ▸ List.mem_cons_self)
    have happlied : (s.perform o).1.applied.lookup key = s.applied.lookup key :=
      congrArg Prod.fst hstep
    refine (ih ?_).trans hstep
    rw [happlied]
    exact hos.imp_right fun hne cmd hcmd => hne cmd (List.mem_cons_of_mem o hcmd)

/-! ## Repeated requests -/

variable {c d : Command}

theorem fingerprint_congr (h : c.SameRequest d) :
    c.fingerprint = d.fingerprint := by
  obtain ⟨hop, -, hfrom, hto, hamount⟩ := h
  rw [Command.fingerprint, Command.fingerprint, hop, hfrom, hto, hamount]

/-- The command can do nothing any more: its key is taken, or is not one for clients. -/
def Spent (s : State) (cmd : Command) : Prop :=
  ClientKey cmd.idempotencyKey → (s.applied.lookup cmd.idempotencyKey).isSome

theorem spent_apply (s : State) (h : c.idempotencyKey = d.idempotencyKey) :
    Spent (s.apply c).1 d := by
  intro hkey
  rw [← h] at hkey ⊢
  cases hold : s.applied.lookup c.idempotencyKey with
  | none =>
    have hmem := congrArg Prod.fst (apply_of_new hkey hold)
    exact Option.isSome_iff_exists.2 ⟨_, hmem⟩
  | some prev =>
    rw [apply_of_known hkey hold, hold]
    rfl

theorem Spent.perform (h : Spent s cmd) (o : Operation) :
    Spent (s.perform o).1 cmd := by
  intro hkey
  have hmem := congrArg Prod.fst (memory_perform (o := o) hkey (.inl (h hkey)))
  rw [show (s.perform o).1.applied.lookup cmd.idempotencyKey = _ from hmem]
  exact h hkey

theorem Spent.apply_fst (h : Spent s cmd) : (s.apply cmd).1 = s := by
  by_cases hkey : ClientKey cmd.idempotencyKey
  · obtain ⟨prev, hprev⟩ := Option.isSome_iff_exists.1 (h hkey)
    rw [apply_of_known hkey hprev]
  · exact apply_of_not_clientKey hkey

/-- A command whose key is not one for clients is refused with a text that depends on the key. -/
theorem refusal_congr {s' : State} (h : c.idempotencyKey = d.idempotencyKey)
    (hkey : ¬ ClientKey c.idempotencyKey) : (s.apply c).2 = (s'.apply d).2 := by
  rw [State.apply, State.apply, ← h]
  by_cases hempty : c.idempotencyKey = []
  · rw [if_pos hempty, if_pos hempty]
  · have hprefix : internalKeyPrefix.isPrefixOf c.idempotencyKey :=
      not_not.1 fun hp => hkey ⟨hempty, hp⟩
    rw [if_neg hempty, if_neg hempty, if_pos hprefix, if_pos hprefix]

/-- The answer to a command that is spent does not change any more. -/
theorem Spent.answer_after (h : Spent s cmd) (os : List Operation) :
    ((s.after os).apply cmd).2 = (s.apply cmd).2 := by
  by_cases hkey : ClientKey cmd.idempotencyKey
  · obtain ⟨prev, hprev⟩ := Option.isSome_iff_exists.1 (h hkey)
    have hmem : memory (s.after os) cmd.idempotencyKey = memory s cmd.idempotencyKey :=
      memory_after hkey (.inl (h hkey))
    have happlied : (s.after os).applied.lookup cmd.idempotencyKey = some prev :=
      (congrArg Prod.fst hmem).trans hprev
    have hfp : (s.after os).fingerprints.lookup cmd.idempotencyKey =
        s.fingerprints.lookup cmd.idempotencyKey := congrArg Prod.snd hmem
    rw [apply_of_known hkey happlied, apply_of_known hkey hprev, hfp]
  · exact refusal_congr rfl hkey

theorem Spent.after (h : Spent s cmd) (os : List Operation) :
    Spent (s.after os) cmd := by
  induction os generalizing s with
  | nil => exact h
  | cons o os ih => exact ih (h.perform o)

/-- **The same request again** is answered as it was. -/
theorem apply_retry (s : State) (h : c.SameRequest d) :
    ((s.apply c).1.apply d).2 = (s.apply c).2 := by
  have hk : c.idempotencyKey = d.idempotencyKey := h.2.1
  by_cases hkey : ClientKey c.idempotencyKey
  · cases hold : s.applied.lookup c.idempotencyKey with
    | none =>
      have hres := result_of_new hkey hold
      have hmem := apply_of_new hkey hold
      rw [hk] at hmem hkey
      have happlied : (s.apply c).1.applied.lookup d.idempotencyKey = some (s.applyLocked c).2 :=
        congrArg Prod.fst hmem
      have hfp : (s.apply c).1.fingerprints.lookup d.idempotencyKey = some c.fingerprint :=
        congrArg Prod.snd hmem
      rw [apply_of_known hkey happlied, hfp, hres, fingerprint_congr h]
      simp only [Option.getD_some, ne_eq, not_true_eq_false, if_false]
    | some prev =>
      have hkey' := hk ▸ hkey
      rw [apply_of_known hkey hold, apply_of_known hkey' (hk ▸ hold), ← hk, fingerprint_congr h]
  · exact refusal_congr hk.symm (hk ▸ hkey)

/-- The operation asks for what an earlier one has asked for, under the same key. -/
def Operation.repeats (earlier : List Operation) : Operation → Bool
  | .apply d => earlier.any fun
    | .apply c => decide (c.SameRequest d)
    | _ => false
  | _ => false

variable {earlier : List Operation}

theorem Operation.repeats_eq_true (h : o.repeats earlier = true) :
    ∃ c d, o = .apply d ∧ .apply c ∈ earlier ∧ c.SameRequest d := by
  cases o with
  | apply d =>
    obtain ⟨o', hmem, hsame⟩ := List.any_eq_true.1 h
    cases o' with
    | apply c => exact ⟨c, d, rfl, hmem, of_decide_eq_true hsame⟩
    | _ => cases hsame
  | _ => cases h

/-- The elements of a list without those whose operation repeats the one of an element before. -/
def withoutRepeats {α : Type} (op : α → Operation) : List Operation → List α → List α
  | _, [] => []
  | earlier, x :: xs =>
    if (op x).repeats earlier then withoutRepeats op earlier xs
    else x :: withoutRepeats op (op x :: earlier) xs

/-- Everything asked for by the earlier operations is done. -/
def AllSpent (earlier : List Operation) (s : State) : Prop :=
  ∀ c, .apply c ∈ earlier → Spent s c

theorem AllSpent.perform (h : AllSpent earlier s) (o : Operation) :
    AllSpent (o :: earlier) (s.perform o).1 := by
  intro c hc
  rcases List.mem_cons.1 hc with rfl | hc
  · exact spent_apply s rfl
  · exact (h c hc).perform o

theorem AllSpent.perform_fst (h : AllSpent earlier s) (ho : o.repeats earlier = true) :
    (s.perform o).1 = s := by
  obtain ⟨c, d, rfl, hc, hsame⟩ := Operation.repeats_eq_true ho
  have hspent : Spent s d := by
    intro hkey
    rw [← hsame.2.1] at hkey ⊢
    exact h c hc hkey
  exact hspent.apply_fst

theorem after_withoutRepeats (h : AllSpent earlier s) (os : List Operation) :
    s.after (withoutRepeats id earlier os) = s.after os := by
  induction os generalizing s earlier with
  | nil => rfl
  | cons o os ih =>
    rw [withoutRepeats, State.after_cons]
    dsimp only [id]
    split
    next hrep => rw [h.perform_fst hrep, ih h]
    next => rw [State.after_cons, ih (h.perform o)]

theorem trail_withoutRepeats (h : AllSpent earlier s) (os : List Operation) :
    s.trail (withoutRepeats id earlier os) = withoutRepeats Prod.fst earlier (s.trail os) := by
  induction os generalizing s earlier with
  | nil => rfl
  | cons o os ih =>
    rw [withoutRepeats, State.trail, withoutRepeats]
    dsimp only [id]
    split
    next hrep => rw [h.perform_fst hrep, ih h]
    next => rw [State.trail, ih (h.perform o)]

theorem after_take {os : List Operation} {i j : Nat} (hij : i < j) (hi : os[i]? = some o) :
    s.after (os.take j) = ((s.after (os.take i)).perform o).1.after ((os.take j).drop (i + 1)) := by
  obtain ⟨hlt, hget⟩ := List.getElem?_eq_some_iff.1 hi
  have hhead : (os.take j).take (i + 1) = os.take i ++ [o] := by
    rw [List.take_take, Nat.min_eq_left hij, ← List.take_append_getElem hlt, hget]
  rw [← State.after_cons, ← State.after_append]
  congr 1
  calc os.take j = (os.take j).take (i + 1) ++ (os.take j).drop (i + 1) :=
        (List.take_append_drop (i + 1) _).symm
    _ = os.take i ++ o :: (os.take j).drop (i + 1) := by
        rw [hhead, List.append_assoc]
        rfl

/-- **A retried command is a no-op with the original answer**, so the repeats of a run can be left
out: the ledger ends up the same, and every other operation has the same result. -/
theorem retry_noop (s : State) (os : List Operation) :
    (∀ i j c d, i < j → os[i]? = some (.apply c) → os[j]? = some (.apply d) → c.SameRequest d →
      (s.after (os.take j)).apply d
        = (s.after (os.take j), ((s.after (os.take i)).apply c).2)) ∧
    s.after (withoutRepeats id [] os) = s.after os ∧
    s.trail (withoutRepeats id [] os) = withoutRepeats Prod.fst [] (s.trail os) := by
  have hnone : AllSpent [] s := fun c hc => absurd hc List.not_mem_nil
  refine ⟨?_, after_withoutRepeats hnone os, trail_withoutRepeats hnone os⟩
  intro i j c d hij hi _ hsame
  have hspent : Spent ((s.after (os.take i)).apply c).1 d := spent_apply _ hsame.2.1
  rw [after_take hij hi]
  refine Prod.ext (hspent.after _).apply_fst ?_
  exact (hspent.answer_after _).trans (apply_retry _ hsame)

/-! ## Different requests

What the fingerprint is taken of is not injective in the two accounts: each is followed by a zero
byte, but an account may have zero bytes of its own. -/

/-- The bytes a fingerprint is taken of. -/
def Command.digested (c : Command) : Str :=
  [c.op.code] ++ c.fromAcc ++ [0] ++ c.toAcc ++ [0] ++ putUint64 c.amount.toUInt64

theorem fingerprint_eq (c : Command) : c.fingerprint = fnv64a c.digested := rfl

theorem Op.code_injective : Function.Injective Op.code :=
  Function.LeftInverse.injective Op.ofCode_code

theorem putUint64_eq (n : UInt64) : putUint64 n = littleEndian 8 n.toNat := by
  simp only [putUint64, littleEndian, List.cons.injEq, and_true]
  refine ⟨?_, ?_, ?_, ?_, ?_, ?_, ?_, ?_⟩ <;> apply UInt8.toNat_inj.1 <;>
    simp [Nat.shiftRight_eq_div_pow, Nat.div_div_eq_div_mul]

theorem putUint64_amount (m : Money) : putUint64 m.toUInt64 = writeAmount m := putUint64_eq _

/-- The fingerprint does not see where the accounts are split. -/
theorem digested_eq_iff : c.digested = d.digested ↔
    c.op = d.op ∧ c.amount = d.amount
      ∧ c.fromAcc ++ 0 :: c.toAcc = d.fromAcc ++ 0 :: d.toAcc := by
  have hshape (e : Command) : e.digested
      = e.op.code :: ((e.fromAcc ++ 0 :: e.toAcc) ++ (0 :: writeAmount e.amount)) := by
    simp [Command.digested, putUint64_amount]
  have hlen (e : Command) : (0 :: writeAmount e.amount).length = 9 := by
    rw [List.length_cons, writeAmount, length_littleEndian]
  rw [hshape, hshape]
  constructor
  · intro h
    obtain ⟨hop, htail⟩ := List.cons.inj h
    obtain ⟨haccounts, hamount⟩ := List.append_inj' htail ((hlen c).trans (hlen d).symm)
    refine ⟨Op.code_injective hop, ?_, haccounts⟩
    rw [← moneyOf_writeAmount c.amount, (List.cons.inj hamount).2, moneyOf_writeAmount]
  · rintro ⟨hop, hamount, haccounts⟩
    rw [hop, hamount, haccounts]

theorem str_append (a b : String) : str (a ++ b) = str a ++ str b := by
  simp [str, String.toUTF8]

/-- What the operation itself reports is never a conflict of keys. -/
theorem applyLocked_ne_conflict (s : State) (cmd : Command) :
    (s.applyLocked cmd).2 ≠ { err := errIdempotencyConflict } := by
  have htexts : ∀ e ∈ [errAccountExists, errInvalidAmount, errNoSuchAccount, errSameAccount,
      errInsufficientFunds, str "deposit would overflow the account balance",
      str "transfer would overflow the destination balance"], e ≠ errIdempotencyConflict := by
    decide +kernel
  have hunknown (n : Nat) : str ("unknown op " ++ toString n) ≠ errIdempotencyConflict := by
    intro h
    rw [str_append] at h
    have hhead : (str "unknown op ").head? = errIdempotencyConflict.head? := by
      rw [← h, List.head?_append_of_ne_nil _ (by decide +kernel)]
    exact absurd hhead (by decide +kernel)
  have hok (bal : Money) : ({ ok := true, balance := bal } : Result)
      ≠ { err := errIdempotencyConflict } := fun h => Bool.noConfusion (congrArg Result.ok h)
  rw [State.applyLocked]
  cases cmd.op with
  | other => exact fun h => hunknown _ (congrArg Result.err h)
  | _ =>
    dsimp only
    repeat' split
    all_goals first
      | exact hok _
      | exact fun h => htexts _ (by simp) (congrArg Result.err h)

theorem unused_of_first {pre : List Operation} (hkey : ClientKey key)
    (hfirst : ∀ e, .apply e ∈ pre → e.idempotencyKey ≠ key) :
    (State.after {} pre).applied.lookup key = none :=
  congrArg Prod.fst (memory_after (s := {}) hkey (.inr hfirst))

/-- The first command that carries a client's key takes it, and its fingerprint is the one later
commands are compared with. -/
theorem memory_after_first {pre mid : List Operation} (hkey : ClientKey c.idempotencyKey)
    (hfirst : ∀ e, .apply e ∈ pre → e.idempotencyKey ≠ c.idempotencyKey) :
    memory (State.after {} (pre ++ .apply c :: mid)) c.idempotencyKey
      = (some ((State.after {} pre).applyLocked c).2, some c.fingerprint) := by
  have hnew := unused_of_first hkey hfirst
  have htaken : memory ((State.after {} pre).apply c).1 c.idempotencyKey
      = (some ((State.after {} pre).applyLocked c).2, some c.fingerprint) := apply_of_new hkey hnew
  have hsome : ((((State.after {} pre).apply c).1).applied.lookup c.idempotencyKey).isSome :=
    Option.isSome_iff_exists.2 ⟨_, congrArg Prod.fst htaken⟩
  rw [State.after_append, State.after_cons]
  exact (memory_after hkey (.inl hsome)).trans htaken

/-- The command of an operation, if it carries the key. -/
def Operation.carries (key : Str) : Operation → Option Command
  | .apply cmd => if cmd.idempotencyKey = key then some cmd else none
  | _ => none

theorem Operation.carries_eq_some (h : o.carries key = some cmd) :
    o = .apply cmd ∧ cmd.idempotencyKey = key := by
  cases o with
  | apply e =>
    rw [Operation.carries] at h
    split at h
    next hkey => cases h; exact ⟨rfl, hkey⟩
    next => cases h
  | _ => cases h

/-- The operations of a run until the first that carries the key of `c`. -/
def beforeBound (os : List Operation) (c : Command) : List Operation :=
  os.takeWhile fun o => (o.carries c.idempotencyKey).isNone

/-- The command that the key of `c` is bound to when `c` has followed the operations: the first that
carries the key. -/
def boundTo (os : List Operation) (c : Command) : Command :=
  (os.findSome? (Operation.carries c.idempotencyKey)).getD c

/-- The run through `c`, split at the command that the key of `c` is bound to. -/
theorem exists_boundTo (pre : List Operation) (c : Command) (mid : List Operation) :
    ∃ mid', pre ++ .apply c :: mid = beforeBound pre c ++ .apply (boundTo pre c) :: mid'
      ∧ (boundTo pre c).idempotencyKey = c.idempotencyKey
      ∧ ∀ e, .apply e ∈ beforeBound pre c → e.idempotencyKey ≠ c.idempotencyKey := by
  induction pre with
  | nil => exact ⟨mid, rfl, rfl, fun e he => absurd he List.not_mem_nil⟩
  | cons o pre ih =>
    cases ho : o.carries c.idempotencyKey with
    | some b =>
      obtain ⟨rfl, hb⟩ := Operation.carries_eq_some ho
      have hbefore : beforeBound (.apply b :: pre) c = [] := by simp [beforeBound, ho]
      have hbound : boundTo (.apply b :: pre) c = b := by simp [boundTo, ho]
      rw [hbefore, hbound]
      exact ⟨pre ++ .apply c :: mid, rfl, hb, fun e he => absurd he List.not_mem_nil⟩
    | none =>
      have hbefore : beforeBound (o :: pre) c = o :: beforeBound pre c := by
        simp [beforeBound, ho]
      have hbound : boundTo (o :: pre) c = boundTo pre c := by simp [boundTo, ho]
      obtain ⟨mid', hsplit, hkey, hfirst⟩ := ih
      rw [hbefore, hbound]
      refine ⟨mid', congrArg (o :: ·) hsplit, hkey, fun e he => ?_⟩
      rcases List.mem_cons.1 he with rfl | he
      · intro heq
        simp [Operation.carries, heq] at ho
      · exact hfirst e he

/-- **A key is refused for a different request** exactly if the request differs from the one the key
is bound to in more than where the first account ends: with the operation and the amount the same,
the accounts joined by a zero byte have to be different strings. -/
theorem conflict_iff {pre mid : List Operation} {c d : Command} (hkey : ClientKey c.idempotencyKey)
    (hsame : d.idempotencyKey = c.idempotencyKey)
    (hfnv : fnv64a (boundTo pre c).digested = fnv64a d.digested →
      (boundTo pre c).digested = d.digested) :
    ((State.after {} (pre ++ .apply c :: mid)).apply d
          = (State.after {} (pre ++ .apply c :: mid), { err := errIdempotencyConflict })
        ∧ ((State.after {} (pre ++ .apply c :: mid)).apply d).2
          ≠ ((State.after {} (beforeBound pre c)).apply (boundTo pre c)).2)
      ↔ ¬ ((boundTo pre c).op = d.op ∧ (boundTo pre c).amount = d.amount
        ∧ (boundTo pre c).fromAcc ++ 0 :: (boundTo pre c).toAcc = d.fromAcc ++ 0 :: d.toAcc) := by
  obtain ⟨mid', hsplit, hb, hfirst⟩ := exists_boundTo pre c mid
  generalize boundTo pre c = b at hfnv hsplit hb ⊢
  rw [hsplit, ← digested_eq_iff]
  rw [← hb] at hkey hsame hfirst
  generalize hs : State.after {} (beforeBound pre c ++ .apply b :: mid') = s
  have hmem : memory (State.after {} (beforeBound pre c ++ .apply b :: mid')) b.idempotencyKey =
    _ := memory_after_first hkey hfirst
  rw [hs, ← hsame] at hmem
  have happlied : s.applied.lookup d.idempotencyKey
      = some ((State.after {} (beforeBound pre c)).applyLocked b).2 := congrArg Prod.fst hmem
  have hfingerprint : s.fingerprints.lookup d.idempotencyKey = some b.fingerprint :=
    congrArg Prod.snd hmem
  rw [result_of_new hkey (unused_of_first hkey hfirst), apply_of_known (hsame ▸ hkey) happlied,
    hfingerprint, Option.getD_some]
  by_cases hfp : b.fingerprint = d.fingerprint
  · -- the same bytes: the first answer is given again
    rw [if_neg (not_not.2 hfp)]
    exact iff_of_false (fun h => h.2 rfl) (not_not.2 (hfnv hfp))
  · rw [if_pos hfp]
    refine iff_of_true ⟨rfl, (applyLocked_ne_conflict _ b).symm⟩ fun h => hfp ?_
    rw [fingerprint_eq, fingerprint_eq, h]

/-- Ten are in the account.  After deposits of six and of five under one key, a deposit of seven
under it is refused, and one of six is answered as the first was. -/
theorem conflict_iff_amount :
    ∃ s, s = State.after {} [.apply ⟨.openAccount, [1], [], [97], 10, .zero⟩,
        .apply ⟨.deposit, [2], [], [97], 6, .zero⟩, .apply ⟨.deposit, [2], [], [97], 5, .zero⟩]
      ∧ s.apply ⟨.deposit, [2], [], [97], 7, .zero⟩ = (s, { err := errIdempotencyConflict })
      ∧ (s.apply ⟨.deposit, [2], [], [97], 6, .zero⟩).2 = { ok := true, balance := 16 } := by
  have h := (@conflict_iff [.apply ⟨.openAccount, [1], [], [97], 10, .zero⟩,
      .apply ⟨.deposit, [2], [], [97], 6, .zero⟩] [] ⟨.deposit, [2], [], [97], 5, .zero⟩
    ⟨.deposit, [2], [], [97], 7, .zero⟩ (by decide +kernel) rfl (by decide +kernel)).2
    (by decide +kernel)
  exact ⟨_, rfl, h.1, by decide +kernel⟩

/-- A deposit to `"\x00a"`, and under its key one to `"a"` with `"\x00"` as the account it comes
from: the second is told that it succeeded. -/
theorem retry_of_other_request :
    ∃ c d : Command, ¬ c.SameRequest d ∧ ClientKey c.idempotencyKey
      ∧ d.idempotencyKey = c.idempotencyKey ∧ c.digested = d.digested
      ∧ ((State.after {} [.apply ⟨.openAccount, [1], [], [0, 97], 10, .zero⟩]).apply c).2
        = { ok := true, balance := 15 }
      ∧ ((State.after {} [.apply ⟨.openAccount, [1], [], [0, 97], 10, .zero⟩, .apply c]).apply d).2
        = { ok := true, balance := 15 } :=
  ⟨⟨.deposit, [2], [], [0, 97], 5, .zero⟩, ⟨.deposit, [2], [0], [97], 5, .zero⟩, by decide,
    by decide +kernel, rfl, by decide +kernel, by decide +kernel, by decide +kernel⟩

end CoreBank.Ledger
