import CoreBank.Consensus.Log
import CoreBank.Raft.Server

/-!
# Logs with a compacted prefix

A log is well formed if its sentinel stands for the entries it covers and the indices count from
one.  Then every accessor of `log.go` reads the *logical* log, the compacted prefix included: this
file says how, once for each accessor, so that no proof after it looks at the slice again.

`Log.abs` forgets the indices, which the positions determine, and the difference between a no-op and
a command without bytes, which does not survive a restart.

`appendFrom_of_matches` is what `appendFrom` does with entries of a log that matches the receiver's:
nothing, or it leaves exactly the sender's prefix.
-/

set_option autoImplicit false

namespace CoreBank.Raft

open Consensus (lastTerm UpToDate lastTerm_nil lastTerm_concat)

/-- The entry without its index. -/
def LogEntry.abs (e : LogEntry) : Consensus.Entry Bytes := ⟨e.term, e.bytes⟩

/-- The term of the last entry, zero if there is none. -/
def termOfLast (es : List LogEntry) : Nat := (es.getLast?.map LogEntry.term).getD 0

variable {l : Log} {i prev : Nat} {es : List LogEntry}

namespace Log

/-- The logical log without indices. -/
def abs (l : Log) : List (Consensus.Entry Bytes) := l.logical.map LogEntry.abs

/-- Entries sit at their indices, ghost part included. -/
structure WF (l : Log) : Prop where
  covered_length : l.covered.length = l.baseIndex
  base_term : l.baseTerm = termOfLast l.covered
  index : ∀ k e, l.logical[k]? = some e → e.index = k + 1

theorem WF.empty : WF empty where
  covered_length := rfl
  base_term := rfl
  index k e h := by cases h

@[simp] theorem length_abs (l : Log) : l.abs.length = l.logical.length := List.length_map _

theorem length_logical (l : Log) : l.logical.length = l.covered.length + l.entries.length :=
  List.length_append

/-! ## Reading -/

theorem lastIndex_push (l : Log) (e : LogEntry) : (l.push e).lastIndex = e.index := by
  rw [Log.lastIndex, lastEntry, Log.push, List.getLast?_concat]
  rfl

theorem getLast?_logical (hne : l.entries ≠ []) :
    l.logical.getLast? = some l.lastEntry := by
  rw [logical, List.getLast?_append_of_ne_nil _ hne, Log.lastEntry]
  cases he : l.entries.getLast? with
  | none => exact absurd (List.getLast?_eq_none_iff.1 he) hne
  | some e => rfl

section WF

variable (h : l.WF)

include h

theorem WF.lastIndex : l.lastIndex = l.logical.length := by
  by_cases hne : l.entries = []
  · rw [Log.lastIndex, Log.lastEntry, length_logical, hne, h.covered_length]
    rfl
  · have hlast := getLast?_logical hne
    rw [List.getLast?_eq_getElem?] at hlast
    have hidx := h.index _ _ hlast
    have hpos : 0 < l.entries.length := List.length_pos_iff.2 hne
    rw [length_logical] at hidx ⊢
    rw [Log.lastIndex]
    omega

theorem WF.lastTerm : l.lastTerm = Consensus.lastTerm l.abs := by
  rw [Log.lastTerm, Consensus.lastTerm, abs, List.getLast?_map]
  by_cases hne : l.entries = []
  · have hbase := h.base_term
    rw [Log.lastEntry, logical, hne, List.append_nil]
    rw [baseTerm, termOfLast] at hbase
    rw [List.getLast?_nil, Option.getD_none, hbase, Option.map_map]
    rfl
  · rw [getLast?_logical hne]
    rfl

theorem WF.entryAt (hi : l.baseIndex < i) : l.entryAt i = l.logical[i - 1]? := by
  have hlast := h.lastIndex
  rw [Log.entryAt]
  split
  next hor =>
    rw [List.getElem?_eq_none]
    omega
  next hnor =>
    obtain ⟨k, hk⟩ : ∃ k, i = l.baseIndex + (k + 1) := ⟨i - l.baseIndex - 1, by omega⟩
    rw [slice, slot, logical, List.getElem?_append_right (by rw [h.covered_length]; omega),
      h.covered_length, hk, Nat.add_sub_cancel_left, List.getElem?_cons_succ]
    congr 1
    omega

/-- The term at an index that is not compacted away; index zero has term zero. -/
theorem WF.termAt (hi : l.baseIndex ≤ i) (hlen : i ≤ l.logical.length) :
    l.termAt i = some (Consensus.lastTerm (l.abs.take i)) := by
  have hterm : ∀ k, k < l.logical.length → Consensus.lastTerm (l.abs.take (k + 1))
      = ((l.logical[k]?).map LogEntry.term).getD 0 := by
    intro k hk
    rw [Consensus.lastTerm, abs, ← List.map_take, List.getLast?_map, List.getLast?_eq_getElem?,
      List.length_take, Nat.min_eq_left hk, Nat.succ_sub_one,
      List.getElem?_take_of_lt (Nat.lt_succ_self k), Option.map_map]
    rfl
  rcases Nat.lt_or_eq_of_le hi with hlt | heq
  · obtain ⟨k, rfl⟩ : ∃ k, i = k + 1 := ⟨i - 1, by omega⟩
    rw [Log.termAt, h.entryAt hlt, hterm k (by omega), Nat.add_sub_cancel,
      List.getElem?_eq_getElem (by omega)]
    rfl
  · subst heq
    have hlast := h.lastIndex
    have hsent : l.entryAt l.baseIndex = some l.sentinel := by
      rw [Log.entryAt, if_neg (by omega), slot, Nat.sub_self]
      rfl
    rw [Log.termAt, hsent, Option.map_some]
    congr 1
    have hbase := h.base_term
    rw [baseTerm, termOfLast] at hbase
    rw [hbase, Consensus.lastTerm, abs, ← List.map_take, List.getLast?_map, Option.map_map,
      logical, ← h.covered_length, List.take_left]
    rfl

theorem WF.termAt_none (hi : l.logical.length < i) : l.termAt i = none := by
  rw [Log.termAt, Log.entryAt, if_pos (.inr (by rw [h.lastIndex]; exact hi))]
  rfl

theorem WF.base_le : l.baseIndex ≤ l.logical.length := by
  rw [length_logical, h.covered_length]
  omega

theorem WF.take_logical (hi : l.baseIndex ≤ i) :
    l.logical.take i = l.covered ++ l.entries.take (i - l.baseIndex) := by
  have hcov : l.covered.length ≤ i := by rw [h.covered_length]; exact hi
  rw [logical, List.take_append, List.take_of_length_le hcov, h.covered_length]

theorem WF.isUpToDate {A : List (Consensus.Entry Bytes)} :
    l.isUpToDate A.length (Consensus.lastTerm A) = true ↔ UpToDate A l.abs := by
  rw [Log.isUpToDate, h.lastTerm, h.lastIndex, UpToDate, length_abs]
  split
  next hne =>
    rw [decide_eq_true_eq]
    constructor
    · exact Or.inl
    · rintro (hlt | ⟨heq, -⟩)
      · exact hlt
      · exact absurd heq.symm hne
  next heq =>
    rw [not_not] at heq
    rw [decide_eq_true_eq, heq]
    simp

theorem WF.matchesPrevLog {t : Nat} (hi : l.baseIndex ≤ i) :
    l.matchesPrevLog i t = true ↔
      i ≤ l.logical.length ∧ Consensus.lastTerm (l.abs.take i) = t := by
  rw [Log.matchesPrevLog, compactedAway, decide_eq_false (by omega), if_neg (by simp)]
  by_cases hlen : i ≤ l.logical.length
  · rw [h.termAt hi hlen]
    simp [hlen]
  · rw [h.termAt_none (by omega)]
    simp [hlen]

end WF

/-! ## Updating -/

theorem logical_push (l : Log) (e : LogEntry) : (l.push e).logical = l.logical ++ [e] := by
  rw [push, logical, logical, List.append_assoc]

@[simp] theorem abs_push (l : Log) (e : LogEntry) : (l.push e).abs = l.abs ++ [e.abs] := by
  rw [abs, logical_push, List.map_append]
  rfl

theorem WF.push (h : l.WF) {t : Nat} {cmd : Option Bytes} :
    (l.push ⟨t, l.logical.length + 1, cmd⟩).WF where
  covered_length := h.covered_length
  base_term := h.base_term
  index k e he := by
    rw [logical_push] at he
    rcases Nat.lt_or_ge k l.logical.length with hlt | hge
    · rw [List.getElem?_append_left hlt] at he
      exact h.index k e he
    · rw [List.getElem?_append_right hge, List.getElem?_singleton] at he
      split at he
      next hk =>
        cases he
        show l.logical.length + 1 = k + 1
        omega
      next => cases he

theorem WF.logical_truncate (h : l.WF) (hi : l.baseIndex < i) :
    (l.truncate i).logical = l.logical.take (i - 1) := by
  rw [truncate, logical, h.take_logical (by omega), slot, Nat.sub_right_comm]

theorem WF.truncate (h : l.WF) (hi : l.baseIndex < i) : (l.truncate i).WF where
  covered_length := h.covered_length
  base_term := h.base_term
  index k e he := by
    rw [h.logical_truncate hi] at he
    rw [List.getElem?_take] at he
    split at he
    · exact h.index k e he
    · cases he

theorem WF.logical_discardThrough (_h : l.WF) (i t : Nat) :
    (l.discardThrough i t).logical = l.logical := by
  rw [discardThrough, logical, logical, List.append_assoc, List.take_append_drop]

theorem WF.discardThrough (h : l.WF) {t : Nat} (hi : l.baseIndex ≤ i)
    (hlen : i ≤ l.logical.length) (ht : l.termAt i = some t) : (l.discardThrough i t).WF := by
  have hcov : (l.discardThrough i t).covered = l.logical.take i := by
    rw [h.take_logical hi]
    rfl
  refine ⟨?_, ?_, fun k e he => ?_⟩
  · rw [hcov, List.length_take, Nat.min_eq_left hlen]
    rfl
  · rw [h.termAt hi hlen, Option.some.injEq] at ht
    rw [hcov, termOfLast]
    show t = _
    rw [← ht, Consensus.lastTerm, abs, ← List.map_take, List.getLast?_map, Option.map_map]
    rfl
  · rw [h.logical_discardThrough] at he
    exact h.index k e he

/-! ## Receiving entries -/

/-- The log that receives the entry after `prev`, all that stood from there on being dropped. -/
theorem WF.replace (h : l.WF) (hbase : l.baseIndex < prev + 1) (hprev : prev ≤ l.logical.length)
    (t : Nat) (cmd : Option Bytes) :
    ((l.truncate (prev + 1)).push ⟨t, prev + 1, cmd⟩).WF ∧
      ((l.truncate (prev + 1)).push ⟨t, prev + 1, cmd⟩).logical =
        l.logical.take prev ++ [⟨t, prev + 1, cmd⟩] := by
  have hcut := h.logical_truncate hbase
  rw [Nat.add_sub_cancel] at hcut
  have hidx : (l.truncate (prev + 1)).logical.length = prev := by
    rw [hcut, List.length_take, Nat.min_eq_left hprev]
  refine ⟨?_, by rw [logical_push, hcut]⟩
  have hw := @WF.push _ (h.truncate hbase) t cmd
  rwa [hidx] at hw

theorem truncate_of_length (h : l.WF) (hi : l.logical.length < i) :
    l.truncate i = l := by
  have hlen := length_logical l
  have hcov := h.covered_length
  rw [Log.truncate, List.take_of_length_le (by rw [slot]; omega)]

/-- The first index at which the log holds an entry of another term than the request. -/
def conflict (l : Log) (prevLogIndex : Nat) : List LogEntry → Option Nat
  | [] => none
  | e :: es =>
    let idx := prevLogIndex + 1
    if idx ≤ l.baseIndex then l.conflict idx es
    else
      match l.entryAt idx with
      | some existing => if existing.term = e.term then l.conflict idx es else some idx
      | none => none

theorem lt_conflict (h : l.conflict prev es = some i) :
    prev < i := by
  induction es generalizing prev with
  | nil => cases h
  | cons e es ih =>
    rw [conflict] at h
    split at h
    · exact Nat.lt_of_succ_lt (ih h)
    split at h
    · split at h
      · exact Nat.lt_of_succ_lt (ih h)
      · cases h
        exact Nat.lt_succ_self prev
    · cases h

/-- One entry of a request: it is skipped, or it replaces what stands there. -/
theorem WF.appendFrom_cons (h : l.WF) (hprev : prev ≤ l.logical.length) (e : LogEntry)
    (es : List LogEntry) :
    (l.appendFrom prev (e :: es) = l.appendFrom (prev + 1) es ∧
        l.conflict prev (e :: es) = l.conflict (prev + 1) es ∧ prev + 1 ≤ l.logical.length ∧
        (prev + 1 ≤ l.baseIndex ∨ ∃ x, l.logical[prev]? = some x ∧ x.term = e.term)) ∨
      ∃ l' : Log, l.appendFrom prev (e :: es) = ((l'.appendFrom (prev + 1) es).1, true) ∧ l'.WF ∧
        l'.logical = l.logical.take prev ++ [⟨e.term, prev + 1, e.command⟩] ∧
        l'.logical.length = prev + 1 ∧ l'.sentinel = l.sentinel ∧ l'.covered = l.covered ∧
        l.baseIndex < prev + 1 ∧
        l.conflict prev (e :: es) = (if prev < l.logical.length then some (prev + 1) else none) ∧
        ∀ x, l.logical[prev]? = some x → x.term ≠ e.term := by
  by_cases hbase : prev + 1 ≤ l.baseIndex
  · rw [Log.appendFrom, conflict]
    exact .inl ⟨if_pos hbase, if_pos hbase, hbase.trans h.base_le, .inl hbase⟩
  have hentry := h.entryAt (i := prev + 1) (by omega)
  rw [Nat.add_sub_cancel] at hentry
  obtain ⟨hw, hlog⟩ := h.replace (Nat.lt_of_not_le hbase) hprev e.term e.command
  have hlen : ((l.truncate (prev + 1)).push ⟨e.term, prev + 1, e.command⟩).logical.length =
      prev + 1 := by
    rw [hlog, List.length_append, List.length_take, Nat.min_eq_left hprev]
    rfl
  rw [Log.appendFrom, conflict, if_neg hbase, if_neg hbase, hentry]
  cases hx : l.logical[prev]? with
  | none =>
    have hle := List.getElem?_eq_none_iff.1 hx
    rw [truncate_of_length h (by omega)] at hw hlog hlen
    exact .inr ⟨_, rfl, hw, hlog, hlen, rfl, rfl, by omega, (if_neg (by omega)).symm, nofun⟩
  | some x =>
    have hlt := (List.getElem?_eq_some_iff.1 hx).1
    by_cases ht : x.term = e.term
    · exact .inl ⟨if_pos ht, if_pos ht, hlt, .inr ⟨x, rfl, ht⟩⟩
    · exact .inr ⟨_, if_neg ht, hw, hlog, hlen, rfl, rfl, by omega,
        (if_neg ht).trans (if_pos hlt).symm, fun y hy => by cases hy; exact ht⟩

/-- Receiving entries after a prefix keeps a log well formed, and what it covers. -/
theorem WF.appendFrom (h : l.WF) (hprev : prev ≤ l.logical.length) (es : List LogEntry) :
    (l.appendFrom prev es).1.WF ∧
      (l.appendFrom prev es).1.sentinel = l.sentinel ∧
      (l.appendFrom prev es).1.covered = l.covered := by
  induction es generalizing l prev with
  | nil => exact ⟨h, rfl, rfl⟩
  | cons e es ih =>
    rcases h.appendFrom_cons hprev e es with
      ⟨heq, -, hle, -⟩ | ⟨l', heq, hw, -, hlen, hsent, hcov, -⟩
    · rw [heq]
      exact ih h hle
    · rw [heq, ← hsent, ← hcov]
      exact ih hw hlen.ge

theorem WF.le_length_appendFrom (h : l.WF) (hprev : prev ≤ l.logical.length) (es : List LogEntry) :
    prev + es.length ≤ (l.appendFrom prev es).1.logical.length := by
  induction es generalizing l prev with
  | nil => exact hprev
  | cons e es ih =>
    rw [List.length_cons, Nat.add_comm es.length 1, ← Nat.add_assoc]
    rcases h.appendFrom_cons hprev e es with ⟨heq, -, hle, -⟩ | ⟨l', heq, hw, -, hlen, -⟩
    · rw [heq]
      exact ih h hle
    · rw [heq]
      exact ih hw hlen.ge

theorem WF.abs_appendFrom_end (h : l.WF) (es : List LogEntry) :
    (l.appendFrom l.logical.length es).1.abs = l.abs ++ es.map LogEntry.abs := by
  induction es generalizing l with
  | nil => simp [Log.appendFrom]
  | cons e es ih =>
    rcases h.appendFrom_cons le_rfl e es with ⟨-, -, hle, -⟩ | ⟨l', heq, hw, hlog, hlen, -⟩
    · omega
    · have := ih hw
      rw [hlen] at this
      rw [heq, this, abs, hlog, List.take_length, List.map_append, List.append_assoc]
      rfl

/-- **Entries of a matching log.**  If the sender's log `G` and the receiver's agree up to the
prefix the request builds on, and agree below every index at which their terms agree, then the
receiver ends up with the sender's prefix, or it had it already and keeps its log. -/
theorem WF.appendFrom_of_matches (h : l.WF) {G : List (Consensus.Entry Bytes)}
    (hmatch : ∀ (i : Nat) (e f : Consensus.Entry Bytes), l.abs[i]? = some e → G[i]? = some f →
      e.term = f.term → l.abs.take (i + 1) = G.take (i + 1))
    (hes : es.map LogEntry.abs = (G.drop prev).take es.length)
    (hlen : prev + es.length ≤ G.length) (hprev : prev ≤ l.logical.length)
    (hagree : l.abs.take (max prev l.baseIndex) = G.take (max prev l.baseIndex)) :
    ((l.appendFrom prev es).2 = true ∧
        (l.appendFrom prev es).1.abs = G.take (prev + es.length) ∧
        ¬ G.take (prev + es.length) <+: l.abs) ∨
      ((l.appendFrom prev es).2 = false ∧ (l.appendFrom prev es).1 = l ∧
        G.take (prev + es.length) <+: l.abs) := by
  induction es generalizing prev with
  | nil =>
    refine .inr ⟨rfl, rfl, ?_⟩
    have hpre : G.take prev <+: G.take (max prev l.baseIndex) :=
      List.take_prefix_take_left (Nat.le_max_left _ _)
    rw [← hagree] at hpre
    exact hpre.trans (List.take_prefix _ _)
  | cons e es ih =>
    rw [List.length_cons] at hes hlen ⊢
    have hlt : prev < G.length := by omega
    rw [List.drop_eq_getElem_cons hlt, List.take_succ_cons, List.map_cons, List.cons.injEq] at hes
    obtain ⟨he, hes⟩ := hes
    have hG : G[prev]? = some e.abs := by rw [List.getElem?_eq_getElem hlt, he]
    rw [show prev + (es.length + 1) = prev + 1 + es.length by omega]
    rcases h.appendFrom_cons hprev e es with
      ⟨heq, -, hle, hskip⟩ | ⟨l', heq, hw, hlog, hlen', -, -, hbase, -, hne⟩
    · rw [heq]
      refine ih hes (by omega) hle ?_
      rcases hskip with hb | ⟨x, hx, ht⟩
      · rwa [Nat.max_eq_right hb, ← Nat.max_eq_right (Nat.le_of_succ_le hb)]
      · have habs : l.abs[prev]? = some x.abs := by rw [abs, List.getElem?_map, hx]; rfl
        have hstep := hmatch prev _ _ habs hG ht
        rcases Nat.le_total (prev + 1) l.baseIndex with hb | hb
        · rwa [Nat.max_eq_right hb, ← Nat.max_eq_right (Nat.le_of_succ_le hb)]
        · rwa [Nat.max_eq_left hb]
    · -- the first entry that is missing or in conflict: everything from there on is replaced
      rw [Nat.max_eq_left (by omega)] at hagree
      have hend := hw.abs_appendFrom_end es
      rw [hlen'] at hend
      refine .inl ⟨by rw [heq], ?_, fun hpre => ?_⟩
      · rw [heq, hend, abs, hlog, List.map_append, List.map_take]
        show l.abs.take prev ++ [e.abs] ++ es.map LogEntry.abs = _
        rw [hagree, hes, he, List.take_append_getElem, ← List.take_add]
      · -- a log that held the sender's prefix would have the sender's entry at this index
        have habs : l.abs[prev]? = some e.abs := by
          have hin : prev < (G.take (prev + 1 + es.length)).length := by
            rw [List.length_take]
            omega
          rw [List.prefix_iff_getElem?.1 hpre prev hin, List.getElem_take, he]
        rw [abs, List.getElem?_map] at habs
        obtain ⟨x, hx, hxe⟩ := Option.map_eq_some_iff.1 habs
        exact hne x hx (congrArg Consensus.Entry.term hxe)

/-! ## A restart -/

theorem abs_decoded (e : LogEntry) : e.decoded.abs = e.abs := by
  rw [LogEntry.abs, LogEntry.abs, LogEntry.bytes, LogEntry.bytes, LogEntry.decoded]
  cases hc : e.command with
  | none => rfl
  | some c => cases c <;> rfl

theorem decoded_decoded (l : Log) : l.decoded.decoded = l.decoded := by
  have hentry (e : LogEntry) : e.decoded.decoded = e.decoded := by
    rw [LogEntry.decoded, LogEntry.decoded]
    dsimp only
    rw [Option.filter_filter]
    simp
  rw [decoded, decoded]
  simp [hentry]

theorem logical_decoded (l : Log) : l.decoded.logical = l.logical.map LogEntry.decoded := by
  rw [decoded, logical, logical, List.map_append]

@[simp] theorem abs_log_decoded (l : Log) : l.decoded.abs = l.abs := by
  rw [abs, logical_decoded, List.map_map, abs]
  exact List.map_congr_left fun e _ => abs_decoded e

theorem WF.decoded (h : l.WF) : l.decoded.WF where
  covered_length := (List.length_map _).trans h.covered_length
  base_term := by
    have hterm := h.base_term
    rw [termOfLast] at hterm ⊢
    show l.baseTerm = ((l.covered.map LogEntry.decoded).getLast?.map LogEntry.term).getD 0
    rw [List.getLast?_map, Option.map_map, hterm]
    rfl
  index k e he := by
    rw [logical_decoded, List.getElem?_map] at he
    obtain ⟨x, hx, rfl⟩ := Option.map_eq_some_iff.1 he
    exact h.index k x hx

theorem sentinel_appendFrom (l : Log) (prev : Nat) (es : List LogEntry) :
    (l.appendFrom prev es).1.sentinel = l.sentinel := by
  induction es generalizing l prev with
  | nil => rfl
  | cons e es ih =>
    rw [appendFrom]
    split
    · exact ih _ _
    split
    · split
      · exact ih _ _
      · exact ih _ _
    · exact ih _ _

/-! ## Where a request contradicts a log -/

/-- From the conflict on the log is the request's. -/
theorem WF.appendFrom_of_conflict (hw : l.WF) (hprev : prev ≤ l.logical.length)
    (h : l.conflict prev es = some i) :
    (l.appendFrom prev es).1.abs =
      (l.truncate i).abs ++ (es.drop (i - (prev + 1))).map LogEntry.abs := by
  induction es generalizing prev with
  | nil => cases h
  | cons e es ih =>
    rcases hw.appendFrom_cons hprev e es with
      ⟨heq, hcon, hle, -⟩ | ⟨l', heq, hwf, hlog, hlen, -, -, hbase, hcon, -⟩
    · rw [hcon] at h
      have hlt := lt_conflict h
      rw [heq, ih hle h, show i - (prev + 1) = i - (prev + 1 + 1) + 1 by omega, List.drop_succ_cons]
    · rw [hcon, Option.ite_none_right_eq_some] at h
      obtain ⟨-, ⟨⟩⟩ := h
      have hend := hwf.abs_appendFrom_end es
      rw [hlen] at hend
      rw [heq, hend, abs, hlog, abs, hw.logical_truncate hbase, List.map_append, Nat.sub_self,
        List.drop_zero, List.map_cons, List.append_assoc]
      rfl

/-- Entries that start where the log ends contradict nothing. -/
theorem WF.conflict_end (hw : l.WF) (es : List LogEntry) :
    l.conflict l.logical.length es = none := by
  cases es with
  | nil => rfl
  | cons e es =>
    have hbase := hw.base_le
    rw [conflict, if_neg (by omega), hw.entryAt (by omega), Nat.add_sub_cancel,
      List.getElem?_eq_none_iff.2 (le_rfl)]

theorem WF.take_appendFrom (hw : l.WF) {k : Nat} (hprev : prev ≤ l.logical.length)
    (hk : k ≤ l.logical.length) (h : ∀ i ∈ l.conflict prev es, k < i) :
    (l.appendFrom prev es).1.logical.take k = l.logical.take k := by
  induction es generalizing l prev with
  | nil => rfl
  | cons e es ih =>
    rcases hw.appendFrom_cons hprev e es with
      ⟨heq, hcon, hle, -⟩ | ⟨l', heq, hwf, hlog, hlen, -, -, -, hcon, -⟩
    · rw [heq]
      exact ih hw hle hk (by rwa [hcon] at h)
    · -- an entry is put at `prev + 1`, and the rest goes on top of it
      have hkp : k ≤ prev := by
        rw [hcon] at h
        by_cases hlt : prev < l.logical.length
        · exact Nat.le_of_lt_succ (h _ (if_pos hlt))
        · omega
      have hnone := hwf.conflict_end es
      rw [hlen] at hnone
      rw [heq, ih hwf hlen.ge (by omega) (by rw [hnone]; nofun), hlog,
        List.take_append_of_le_length (by rw [List.length_take]; omega), List.take_take,
        Nat.min_eq_left hkp]

theorem WF.prefix_appendFrom (hw : l.WF) (hprev : prev ≤ l.logical.length)
    (h : l.conflict prev es = none) : l.logical <+: (l.appendFrom prev es).1.logical := by
  have htake := hw.take_appendFrom hprev (le_rfl) (by rw [h]; nofun)
  rw [List.take_length] at htake
  rw [← htake]
  exact List.take_prefix _ _

end Log

/-! ## Snapshots -/

/-- The boundary of a snapshot is the end of what it covers. -/
structure Snapshot.WF (snap : Snapshot) : Prop where
  length : snap.covered.length = snap.lastIncludedIndex
  term : snap.lastIncludedTerm = termOfLast snap.covered
  index : ∀ k e, snap.covered[k]? = some e → e.index = k + 1

/-- The entries a snapshot covers, without indices. -/
def Snapshot.abs (snap : Snapshot) : List (Consensus.Entry Bytes) := snap.covered.map LogEntry.abs

theorem Snapshot.WF.lastTerm {snap : Snapshot} (h : snap.WF) :
    Consensus.lastTerm snap.abs = snap.lastIncludedTerm := by
  rw [h.term, termOfLast, Consensus.lastTerm, Snapshot.abs, List.getLast?_map, Option.map_map]
  rfl

namespace Server

open Log

/-- A log that agrees with the snapshot at its boundary keeps what follows; any other log becomes
the snapshot. -/
theorem rebase_cases (h : l.WF) {snap : Snapshot} (hs : snap.WF)
    (hbase : l.baseIndex < snap.lastIncludedIndex) :
    (rebase l snap).WF ∧ (rebase l snap).baseIndex = snap.lastIncludedIndex ∧
      ((snap.lastIncludedIndex ≤ l.logical.length ∧
          Consensus.lastTerm (l.abs.take snap.lastIncludedIndex) = snap.lastIncludedTerm ∧
          (rebase l snap).logical = l.logical) ∨
        (¬ (snap.lastIncludedIndex ≤ l.logical.length ∧
            Consensus.lastTerm (l.abs.take snap.lastIncludedIndex) = snap.lastIncludedTerm) ∧
          (rebase l snap).logical = snap.covered)) := by
  have hfresh : Log.WF ⟨⟨snap.lastIncludedTerm, snap.lastIncludedIndex, none⟩, [], snap.covered⟩ :=
    { covered_length := hs.length
      base_term := hs.term
      index := fun k e he => hs.index k e (by rwa [logical, List.append_nil] at he) }
  have hfreshlog : Log.logical
      ⟨⟨snap.lastIncludedTerm, snap.lastIncludedIndex, none⟩, [], snap.covered⟩ = snap.covered :=
    List.append_nil _
  have hentry := h.entryAt hbase
  rw [rebase]
  by_cases hlen : snap.lastIncludedIndex ≤ l.logical.length
  · have hterm := h.termAt hbase.le hlen
    rw [Log.termAt] at hterm
    obtain ⟨e, he, het⟩ := Option.map_eq_some_iff.1 hterm
    rw [he]
    dsimp only
    by_cases hm : e.term = snap.lastIncludedTerm
    · rw [if_pos hm]
      refine ⟨h.discardThrough hbase.le hlen ?_, rfl,
        .inl ⟨hlen, het.symm.trans hm, h.logical_discardThrough _ _⟩⟩
      rw [Log.termAt, he, Option.map_some, hm]
    · rw [if_neg hm]
      exact ⟨hfresh, rfl, .inr ⟨fun hh => hm (het.trans hh.2), hfreshlog⟩⟩
  · rw [hentry, List.getElem?_eq_none (by omega)]
    exact ⟨hfresh, rfl, .inr ⟨fun hh => hlen hh.1, hfreshlog⟩⟩

end Server

theorem baseIndex_rebase (l : Log) (snap : Snapshot) :
    (Server.rebase l snap).baseIndex = snap.lastIncludedIndex := by
  rw [Server.rebase]
  split
  · split <;> rfl
  · rfl

end CoreBank.Raft
