import CoreBank.Ledger.Books

/-!
# The audit

`VerifyDoubleEntry` of the source replays the history into a second map of balances and compares it
with the cached one.  `lookup_derived` says what the replay computes; in a state whose books are in
order the audit finds nothing (`Audited.verifyDoubleEntry`).
-/

set_option autoImplicit false

namespace CoreBank.Ledger

open Words

/-- What `String` prints. -/
def Op.text : Op → Str
  | .deposit => str "Deposit"
  | .withdraw => str "Withdraw"
  | .transfer => str "Transfer"
  | .openAccount => str "OpenAccount"
  | .other _ _ => str "Unknown"

/-- The balances a list of entries adds up to, from given ones. -/
def derived (es : List Entry) (m : Map AccountID Money) : Map AccountID Money :=
  es.foldl (fun m e => m.insert e.account ((m.lookup e.account).getD 0 + e.amount)) m

/-- Replays the history and compares; `none` is Go's `nil`.  The order in which Go visits the cached
balances is unspecified; here it is the order of the map's bindings. -/
def State.verifyDoubleEntry (s : State) : Option Str :=
  match s.history.find? fun t => !t.balances with
  | some t =>
    some (str ("transaction " ++ toString t.seq ++ " (") ++ t.op.text ++ str ") does not balance")
  | none =>
    let m := derived s.postings ∅
    if m.entries.length ≠ s.balances.entries.length then
      some (str ("derived " ++ toString m.entries.length ++ " accounts from history, cache holds "
        ++ toString s.balances.entries.length))
    else match s.balances.entries.find? fun b => (m.lookup b.1).getD 0 ≠ b.2 with
      | some b =>
        some (str "account " ++ b.1 ++ str ": history derives "
          ++ renderMoney ((m.lookup b.1).getD 0) ++ str " but cache holds " ++ renderMoney b.2)
      | none => none

theorem mem_derived (es : List Entry) (m : Map AccountID Money) (id : AccountID) :
    id ∈ derived es m ↔ id ∈ m ∨ ∃ e ∈ es, e.account = id := by
  induction es generalizing m with
  | nil => simp [derived]
  | cons e es ih =>
    have hstep := ih (m.insert e.account ((m.lookup e.account).getD 0 + e.amount))
    rw [AList.mem_insert] at hstep
    rw [derived, List.foldl_cons]
    refine hstep.trans ?_
    simp only [List.mem_cons, exists_eq_or_imp, eq_comm (b := e.account)]
    tauto

/-- The replay adds to each account the entries posted to it. -/
theorem lookup_derived (es : List Entry) (m : Map AccountID Money) (id : AccountID) :
    ((derived es m).lookup id).getD 0 = (m.lookup id).getD 0 + (amountsOf es id).sum := by
  induction es generalizing m with
  | nil => simp [derived, amountsOf]
  | cons e es ih =>
    have hstep := ih (m.insert e.account ((m.lookup e.account).getD 0 + e.amount))
    rw [derived, List.foldl_cons]
    refine hstep.trans ?_
    have hsplit : amountsOf (e :: es) id = amountsOf [e] id ++ amountsOf es id :=
      amountsOf_append [e] es id
    rw [hsplit, amountsOf_singleton]
    by_cases hid : e.account = id
    · subst hid
      simp [Int64.add_assoc]
    · rw [AList.lookup_insert_ne (Ne.symm hid), if_neg hid, List.nil_append]

/-- **The audit passes.**  The machine sum of the entries is the balance, because the integer sum
is. -/
theorem State.Audited.verifyDoubleEntry {s : State} (h : Audited s) :
    s.verifyDoubleEntry = none := by
  have hfind : (s.history.find? fun t => !t.balances) = none := by
    rw [List.find?_eq_none]
    intro t ht
    simp [(h.balanced t ht).accepted]
  have hlen : (derived s.postings ∅).entries.length = s.balances.entries.length := by
    refine Maps.length_eq_of_keys fun id => ?_
    rw [mem_derived, h.accounts]
    simp
  have hsame : (s.balances.entries.find? fun b =>
      ((derived s.postings ∅).lookup b.1).getD 0 ≠ b.2) = none := by
    rw [List.find?_eq_none]
    rintro ⟨id, bal⟩ hb hne
    have hbal : s.balances.lookup id = some bal := AList.mem_lookup_iff.2 hb
    have hsum : (amountsOf s.postings id).sum = bal := by
      have hexact := h.sums hbal
      have hl := bal.le_toInt
      have hu := bal.toInt_lt
      rw [← Int64.toInt_inj, hexact]
      exact toInt_sum_of_fits (by omega) (by omega)
    rw [decide_eq_true_eq, lookup_derived, hsum] at hne
    simp at hne
  rw [State.verifyDoubleEntry, hfind]
  dsimp only
  rw [if_neg (not_not.2 hlen), hsame]

end CoreBank.Ledger
