import Mathlib.Logic.Function.Basic
import CoreBank.Consensus.Log

/-!
# Histories of a leader-based replication protocol

A *history* records what a group of nodes has done so far: the term, vote and log each node is bound
to, and everything that was ever campaigned for, voted, won, acknowledged and committed.  Only the
first three describe the present; the others are never forgotten, so that an invariant can speak
about a vote long after the voter has moved on.

`Step` lists what may happen, in small pieces; a protocol that does several at once is a sequence of
them.  Every configuration a leader appends must have its majorities meet those of the configuration
before it, and must be preceded by a commit of the leader's own term with no other configuration in
between.

## What is here

* `History`, `History.init`, `Step` — the system;
* `Extends`, `Step.extends` — what never shrinks along a step;
* `Grown` — every entry of a log was created by the leader of its term at that place, with
  everything below it: the form of log matching used here.
-/

set_option autoImplicit false

namespace Consensus

open Majority

variable {N P : Type}

/-- What a group of nodes has done so far. -/
structure History (N P : Type) where
  /-- The term the node is in. -/
  term : N → Nat
  /-- The candidate the node has voted for in its term. -/
  vote : N → Option N
  /-- The node's log. -/
  log : N → List (Entry P)
  /-- `campaigned c T A`: node `c` asked for votes in term `T`, its log being `A`. -/
  campaigned : N → Nat → List (Entry P) → Prop
  /-- `voted p T c`: node `p` gave its vote of term `T` to `c`. -/
  voted : N → Nat → N → Prop
  /-- `elected T c A`: node `c` won term `T`, its log then being `A`. -/
  elected : Nat → N → List (Entry P) → Prop
  /-- The log of the leader of a term, as far as that leader has extended it. -/
  leaderLog : Nat → List (Entry P)
  /-- `acked p T j`: in term `T` node `p` held the first `j` entries of the leader's log. -/
  acked : N → Nat → Nat → Prop
  /-- `committed T i m`: the leader of term `T` committed its first `i` entries when its log had
  length `m`. -/
  committed : Nat → Nat → Nat → Prop

/-- Nothing has happened. -/
def History.init : History N P where
  term := fun _ => 0
  vote := fun _ => none
  log := fun _ => []
  campaigned := fun _ _ _ => False
  voted := fun _ _ _ => False
  elected := fun _ _ _ => False
  leaderLog := fun _ => []
  acked := fun _ _ _ => False
  committed := fun _ _ _ => False

namespace History

variable (h : History N P)

section

variable [DecidableEq N]

/-- Node `p` comes to term `T`, in which it has not voted. -/
abbrev raise (p : N) (T : Nat) : History N P :=
  { h with term := Function.update h.term p T, vote := Function.update h.vote p none }

/-- Node `p` votes for `c`. -/
abbrev cast (p c : N) : History N P :=
  { h with
    vote := Function.update h.vote p (some c)
    voted := fun p' T c' => h.voted p' T c' ∨ (p' = p ∧ T = h.term p ∧ c' = c) }

/-- Node `p` takes over the first `j` entries of the log of its term's leader. -/
abbrev accept (p : N) (j : Nat) : History N P :=
  { h with log := Function.update h.log p ((h.leaderLog (h.term p)).take j) }

end

/-- Node `p` asks for votes. -/
abbrev campaign (p : N) : History N P :=
  { h with campaigned := fun c T A => h.campaigned c T A ∨ (c = p ∧ T = h.term p ∧ A = h.log p) }

/-- Node `c` wins term `T`, its log being `A`. -/
abbrev elect (T : Nat) (c : N) (A : List (Entry P)) : History N P :=
  { h with
    elected := fun T' c' A' => h.elected T' c' A' ∨ (T' = T ∧ c' = c ∧ A' = A)
    leaderLog := Function.update h.leaderLog T A }

/-- The leader of term `T` appends an entry. -/
abbrev append (T : Nat) (e : Entry P) : History N P :=
  { h with leaderLog := Function.update h.leaderLog T (h.leaderLog T ++ [e]) }

/-- Node `p` acknowledges `j` entries of its term's leader. -/
abbrev ack (p : N) (j : Nat) : History N P :=
  { h with acked := fun p' T j' => h.acked p' T j' ∨ (p' = p ∧ T = h.term p ∧ j' = j) }

/-- The leader of term `T` commits its first `i` entries. -/
abbrev commit (T i : Nat) : History N P :=
  { h with
    committed := fun T' i' m =>
      h.committed T' i' m ∨ (T' = T ∧ i' = i ∧ m = (h.leaderLog T).length) }

end History

section Step

variable [DecidableEq N] (confOf : P → Option (List N)) (C₀ : List N)

/-- A new configuration `C` may follow the log `L` of the leader of term `T`. -/
def MayFollow (h : History N P) (T : Nat) (L : List (Entry P)) (C : List N) : Prop :=
  Meets C (conf confOf C₀ L) ∧
    ∃ i m, h.committed T i m ∧ m ≤ L.length ∧ ∀ f ∈ L.drop i, Free confOf f

/-- What may happen next. -/
inductive Step (h : History N P) : History N P → Prop
  /-- A node moves to a later term, in which it has not voted. -/
  | raise (p : N) (T : Nat) (hT : h.term p < T) : Step h (h.raise p T)
  /-- A node asks for votes, once in a term. -/
  | campaign (p : N) (hnew : ∀ A, ¬ h.campaigned p (h.term p) A)
      (hlog : ∀ e ∈ h.log p, e.term < h.term p) : Step h (h.campaign p)
  /-- A node votes for a candidate of its term that is at least as up to date. -/
  | vote (p c : N) (A : List (Entry P)) (hc : h.campaigned c (h.term p) A)
      (hv : h.vote p = none ∨ h.vote p = some c) (hup : UpToDate A (h.log p)) :
      Step h (h.cast p c)
  /-- A candidate wins with the votes of a majority of the configuration of its log. -/
  | elect (c : N) (T : Nat) (A : List (Entry P)) (hc : h.campaigned c T A)
      (hq : IsMajority (conf confOf C₀ A) {p | h.voted p T c}) (hnew : ∀ A, ¬ h.elected T c A) :
      Step h (h.elect T c A)
  /-- The leader of a term extends its log. -/
  | append (T : Nat) (c : N) (A : List (Entry P)) (x : P) (he : h.elected T c A)
      (hx : ∀ C, confOf x = some C → MayFollow confOf C₀ h T (h.leaderLog T) C) :
      Step h (h.append T ⟨T, x⟩)
  /-- A node takes over a prefix of the log of its term's leader that it does not hold. -/
  | accept (p c : N) (A : List (Entry P)) (j : Nat) (he : h.elected (h.term p) c A)
      (hj : j ≤ (h.leaderLog (h.term p)).length)
      (hp : ¬ (h.leaderLog (h.term p)).take j <+: h.log p) : Step h (h.accept p j)
  /-- A node states that it holds a prefix that ends in an entry of its term. -/
  | ack (p c : N) (A : List (Entry P)) (j : Nat) (he : h.elected (h.term p) c A)
      (hA : A.length < j) (hj : j ≤ (h.leaderLog (h.term p)).length)
      (hp : (h.leaderLog (h.term p)).take j <+: h.log p) : Step h (h.ack p j)
  /-- A leader commits what a majority of the configuration of its log has acknowledged, up to an
  entry of its own term. -/
  | commit (T : Nat) (c : N) (A : List (Entry P)) (i : Nat) (he : h.elected T c A)
      (hA : A.length < i) (hi : i ≤ (h.leaderLog T).length)
      (hq : IsMajority (conf confOf C₀ (h.leaderLog T)) {p | ∃ j, i ≤ j ∧ h.acked p T j}) :
      Step h (h.commit T i)

end Step

/-! ## What never shrinks -/

/-- Everything recorded in `h` is recorded in `h'`. -/
structure Extends (h h' : History N P) : Prop where
  term : ∀ p, h.term p ≤ h'.term p
  campaigned : ∀ {c T A}, h.campaigned c T A → h'.campaigned c T A
  voted : ∀ {p T c}, h.voted p T c → h'.voted p T c
  elected : ∀ {T c A}, h.elected T c A → h'.elected T c A
  leaderLog : ∀ T, h.leaderLog T <+: h'.leaderLog T
  acked : ∀ {p T j}, h.acked p T j → h'.acked p T j
  committed : ∀ {T i m}, h.committed T i m → h'.committed T i m

theorem Extends.refl (h : History N P) : Extends h h :=
  ⟨fun _ => le_rfl, id, id, id, fun _ => List.prefix_refl _, id, id⟩

variable {h : History N P}

theorem Extends.trans {h' h'' : History N P} (h1 : Extends h h') (h2 : Extends h' h'') :
    Extends h h'' where
  term p := (h1.term p).trans (h2.term p)
  campaigned hc := h2.campaigned (h1.campaigned hc)
  voted hv := h2.voted (h1.voted hv)
  elected he := h2.elected (h1.elected he)
  leaderLog T := (h1.leaderLog T).trans (h2.leaderLog T)
  acked ha := h2.acked (h1.acked ha)
  committed hc := h2.committed (h1.committed hc)

/-- A prefix of a leader's log, once in range, stays what it is. -/
theorem Extends.take_leaderLog {h' : History N P} (hx : Extends h h') {T i : Nat}
    (hi : i ≤ (h.leaderLog T).length) : (h'.leaderLog T).take i = (h.leaderLog T).take i :=
  take_eq_of_isPrefix (hx.leaderLog T) hi

theorem le_update [DecidableEq N] (f : N → Nat) {p : N} {T : Nat} (hT : f p ≤ T) (q : N) :
    f q ≤ Function.update f p T q := by
  by_cases hq : q = p
  · subst hq; simpa using hT
  · rw [Function.update_of_ne hq]

variable {L : List (Entry P)}

theorem prefix_update (f : Nat → List (Entry P)) {T : Nat} (hL : f T <+: L) (U : Nat) :
    f U <+: Function.update f T L U := by
  by_cases hU : U = T
  · subst hU; simpa using hL
  · rw [Function.update_of_ne hU]

/-! ## Logs that leaders created -/

/-- Every entry of `L` was created by the leader of its term at that place, with everything below
it. -/
def Grown (h : History N P) (L : List (Entry P)) : Prop :=
  ∀ X e, X ++ [e] <+: L → X ++ [e] <+: h.leaderLog e.term

theorem grown_nil (h : History N P) : Grown h [] := by
  intro X e hX
  simp at hX

variable {L' : List (Entry P)}

theorem Grown.of_isPrefix (hL : Grown h L) (hp : L' <+: L) : Grown h L' :=
  fun X e hX => hL X e (hX.trans hp)

theorem Grown.mono {h' : History N P} (hle : ∀ T, h.leaderLog T <+: h'.leaderLog T)
    (hL : Grown h L) : Grown h' L :=
  fun X e hX => (hL X e hX).trans (hle e.term)

theorem Grown.concat {X : List (Entry P)} {e : Entry P} (hX : Grown h X)
    (he : X ++ [e] <+: h.leaderLog e.term) : Grown h (X ++ [e]) := by
  intro Y f hY
  rcases List.prefix_concat_iff.1 hY with heq | hpre
  · obtain ⟨rfl, hef⟩ := List.append_inj' heq rfl
    cases hef
    exact he
  · exact hX Y f hpre

/-- **Log matching.**  Two grown logs that hold entries of one term at one index agree through
that index. -/
theorem Grown.matching {X Y : List (Entry P)} {e f : Entry P} (hL : Grown h L) (hL' : Grown h L')
    (hX : X ++ [e] <+: L) (hY : Y ++ [f] <+: L') (hlen : X.length = Y.length)
    (hterm : e.term = f.term) : X ++ [e] = Y ++ [f] := by
  have h1 := hL X e hX
  have h2 := hL' Y f hY
  rw [← hterm] at h2
  have hpre := List.prefix_of_prefix_length_le h1 h2 (by simp [hlen])
  exact hpre.eq_of_length (by simp [hlen])

theorem Grown.take_eq (hL : Grown h L) (hL' : Grown h L') {i : Nat} {e f : Entry P}
    (he : L[i]? = some e) (hf : L'[i]? = some f) (hterm : e.term = f.term) :
    L.take (i + 1) = L'.take (i + 1) := by
  obtain ⟨hi, rfl⟩ := List.getElem?_eq_some_iff.1 he
  obtain ⟨hi', rfl⟩ := List.getElem?_eq_some_iff.1 hf
  rw [List.take_succ_eq_append_getElem hi, List.take_succ_eq_append_getElem hi']
  refine hL.matching hL' ?_ ?_ (by simp; omega) hterm
  · rw [← List.take_succ_eq_append_getElem hi]
    exact List.take_prefix _ _
  · rw [← List.take_succ_eq_append_getElem hi']
    exact List.take_prefix _ _

theorem Grown.take_eq_of_lastTerm (hL : Grown h L) (hL' : Grown h L') {i : Nat}
    (hi : i ≤ L.length) (hi' : i ≤ L'.length) (hterm : lastTerm (L.take i) = lastTerm (L'.take i)) :
    L.take i = L'.take i := by
  rcases Nat.eq_zero_or_pos i with rfl | h0
  · rfl
  · obtain ⟨X, e, hX, hlen, htake⟩ := exists_entry_at h0 hi
    obtain ⟨Y, f, hY, hlen', htake'⟩ := exists_entry_at h0 hi'
    rw [htake, htake', lastTerm_concat, lastTerm_concat] at hterm
    rw [htake, htake']
    exact hL.matching hL' hX hY (by omega) hterm

end Consensus
