import CoreBank.Consensus.Safety

/-!
# What one node does

`Only p h h'` says that the history went from `h` to `h'` by steps of node `p` alone: the other
nodes are where they were, and a term that another node leads has the log and the commits it had.  A
program takes one node's steps at a time, and has to show for the others only what `Only` leaves
open.
-/

set_option autoImplicit false

namespace Consensus

open Majority

variable {N P : Type} {confOf : P → Option (List N)} {C₀ : List N} {h h' h'' : History N P}

/-- Node `p` took steps, and no other node did. -/
structure Only (confOf : P → Option (List N)) (C₀ : List N) (p : N)
    (h h' : History N P) : Prop where
  extends_ : Extends h h'
  inv : Inv confOf C₀ h'
  term : ∀ q, q ≠ p → h'.term q = h.term q
  vote : ∀ q, q ≠ p → h'.vote q = h.vote q
  log : ∀ q, q ≠ p → h'.log q = h.log q
  campaigned : ∀ q T A, q ≠ p → h'.campaigned q T A → h.campaigned q T A
  elected : ∀ q T A, q ≠ p → h'.elected T q A → h.elected T q A
  /-- What another node leads. -/
  leads : ∀ q T A, q ≠ p → h.elected T q A →
    h'.leaderLog T = h.leaderLog T ∧ ∀ i m, h'.committed T i m → h.committed T i m
  /-- As long as it stays in its term, the node keeps what it holds of the leader's log. -/
  holds : h'.term p = h.term p → ∀ k, (h.leaderLog (h.term p)).take k <+: h.log p →
    k ≤ (h.leaderLog (h.term p)).length → (h.leaderLog (h.term p)).take k <+: h'.log p

variable {T : Nat} {A : List (Entry P)}

namespace Only

variable {p : N}

theorem refl (hI : Inv confOf C₀ h) : Only confOf C₀ p h h where
  extends_ := Extends.refl h
  inv := hI
  term _ _ := rfl
  vote _ _ := rfl
  log _ _ := rfl
  campaigned _ _ _ _ hc := hc
  elected _ _ _ _ he := he
  leads _ _ _ _ _ := ⟨rfl, fun _ _ hc => hc⟩
  holds _ _ hk _ := hk

theorem trans (h₁ : Only confOf C₀ p h h') (h₂ : Only confOf C₀ p h' h'') :
    Only confOf C₀ p h h'' where
  extends_ := h₁.extends_.trans h₂.extends_
  inv := h₂.inv
  term q hq := (h₂.term q hq).trans (h₁.term q hq)
  vote q hq := (h₂.vote q hq).trans (h₁.vote q hq)
  log q hq := (h₂.log q hq).trans (h₁.log q hq)
  campaigned q T A hq hc := h₁.campaigned q T A hq (h₂.campaigned q T A hq hc)
  elected q T A hq he := h₁.elected q T A hq (h₂.elected q T A hq he)
  leads q T A hq he := by
    obtain ⟨hlog₁, hcm₁⟩ := h₁.leads q T A hq he
    obtain ⟨hlog₂, hcm₂⟩ := h₂.leads q T A hq (h₁.extends_.elected he)
    exact ⟨hlog₂.trans hlog₁, fun i m hc => hcm₁ i m (hcm₂ i m hc)⟩
  holds hterm k hpre hk := by
    have hle₁ := h₁.extends_.term p
    have hle₂ := h₂.extends_.term p
    have hterm₁ : h'.term p = h.term p := by omega
    have htake := h₁.extends_.take_leaderLog hk
    rw [← htake, ← hterm₁]
    refine h₂.holds (hterm.trans hterm₁.symm) k ?_ ?_
    · rw [hterm₁, htake]
      exact h₁.holds hterm₁ k hpre hk
    · rw [hterm₁]
      exact hk.trans (h₁.extends_.leaderLog _).length_le

section Steps

variable [DecidableEq N] (hI : Inv confOf C₀ h)

include hI

theorem raise (hT : h.term p < T) : Only confOf C₀ p h (h.raise p T) :=
  let hs := (Step.raise p T hT).inv hI
  { refl hI with
    extends_ := hs.1
    inv := hs.2
    term := fun _ hq => Function.update_of_ne hq ..
    vote := fun _ hq => Function.update_of_ne hq ..
    holds := fun _ _ hk _ => hk }

theorem campaign (hnew : ∀ A, ¬ h.campaigned p (h.term p) A)
    (hlog : ∀ e ∈ h.log p, e.term < h.term p) : Only confOf C₀ p h (h.campaign p) :=
  let hs := (Step.campaign p hnew hlog).inv hI
  { refl hI with
    extends_ := hs.1
    inv := hs.2
    campaigned := fun _ _ _ hq hc => hc.resolve_right fun hp => hq hp.1 }

theorem cast {c : N} (hc : h.campaigned c (h.term p) A) (hv : h.vote p = none ∨ h.vote p = some c)
    (hup : UpToDate A (h.log p)) : Only confOf C₀ p h (h.cast p c) :=
  let hs := (Step.vote p c A hc hv hup).inv hI
  { refl hI with
    extends_ := hs.1
    inv := hs.2
    vote := fun _ hq => Function.update_of_ne hq .. }

theorem elect (hw : CanWin confOf C₀ h p T A) (hnew : ∀ A, ¬ h.elected T p A) :
    Only confOf C₀ p h (h.elect T p A) :=
  let hs := (Step.elect p T A hw.1 hw.2 hnew).inv hI
  { refl hI with
    extends_ := hs.1
    inv := hs.2
    elected := fun _ _ _ hq he => he.resolve_right fun hp => hq hp.2.1
    leads := by
      intro q T' A' hq he
      have hT : T' ≠ T := by
        rintro rfl
        exact hI.not_elected hw hnew q A' he
      exact ⟨Function.update_of_ne hT .., fun _ _ hc => hc⟩ }

theorem append {x : P} (he : h.elected T p A)
    (hx : ∀ C, confOf x = some C → MayFollow confOf C₀ h T (h.leaderLog T) C) :
    Only confOf C₀ p h (h.append T ⟨T, x⟩) :=
  let hs := (Step.append T p A x he hx).inv hI
  { refl hI with
    extends_ := hs.1
    inv := hs.2
    leads := by
      intro q T' A' hq he'
      have hT : T' ≠ T := by
        rintro rfl
        exact hq (hI.elected_unique T' q p A' A he' he).1
      exact ⟨Function.update_of_ne hT .., fun _ _ hc => hc⟩ }

theorem accept {c : N} {j : Nat} (he : h.elected (h.term p) c A)
    (hj : j ≤ (h.leaderLog (h.term p)).length)
    (hp : ¬ (h.leaderLog (h.term p)).take j <+: h.log p) : Only confOf C₀ p h (h.accept p j) :=
  let hs := (Step.accept p c A j he hj hp).inv hI
  { refl hI with
    extends_ := hs.1
    inv := hs.2
    log := fun _ hq => Function.update_of_ne hq ..
    holds := by
      intro _ k hk _
      dsimp only
      rw [Function.update_self]
      -- a shorter prefix than what is held would be held
      rcases Nat.le_total k j with hkj | hjk
      · exact List.take_prefix_take_left hkj
      · exact absurd ((List.take_prefix_take_left hjk).trans hk) hp }

theorem ack {c : N} {j : Nat} (he : h.elected (h.term p) c A) (hA : A.length < j)
    (hj : j ≤ (h.leaderLog (h.term p)).length) (hp : (h.leaderLog (h.term p)).take j <+: h.log p) :
    Only confOf C₀ p h (h.ack p j) :=
  let hs := (Step.ack p c A j he hA hj hp).inv hI
  { refl hI with
    extends_ := hs.1
    inv := hs.2 }

theorem commit {i : Nat} (he : h.elected T p A) (hA : A.length < i)
    (hi : i ≤ (h.leaderLog T).length)
    (hq : IsMajority (conf confOf C₀ (h.leaderLog T)) {q | ∃ j, i ≤ j ∧ h.acked q T j}) :
    Only confOf C₀ p h (h.commit T i) :=
  let hs := (Step.commit T p A i he hA hi hq).inv hI
  { refl hI with
    extends_ := hs.1
    inv := hs.2
    leads := by
      intro q T' A' hq he'
      refine ⟨rfl, fun i' m hc => hc.resolve_right fun hT => ?_⟩
      rw [hT.1] at he'
      exact hq (hI.elected_unique T q p A' A he' he).1 }

/-! ### Steps that go together -/

theorem raiseTo (T : Nat) :
    ∃ h', Only confOf C₀ p h h' ∧ h'.term p = max (h.term p) T ∧
      h'.vote p = (if h.term p < T then none else h.vote p) ∧
      h' = { h with term := h'.term, vote := h'.vote } := by
  by_cases hT : h.term p < T
  · refine ⟨_, raise hI hT, ?_, ?_, rfl⟩
    · rw [Nat.max_eq_right hT.le]
      exact Function.update_self ..
    · rw [if_pos hT]
      exact Function.update_self ..
  · exact ⟨h, refl hI, (Nat.max_eq_left (Nat.le_of_not_lt hT)).symm, (if_neg hT).symm, rfl⟩

theorem stand :
    ∃ h', Only confOf C₀ p h h' ∧ h'.term p = h.term p + 1 ∧ h'.vote p = some p ∧ h'.log = h.log ∧
      h'.elected = h.elected ∧ h'.campaigned p (h.term p + 1) (h.log p) ∧
      h'.voted p (h.term p + 1) p ∧
      ∀ c T A, h'.campaigned c T A → h.campaigned c T A ∨ T = h.term p + 1 := by
  have h₁ := raise hI (p := p) (Nat.lt_succ_self (h.term p))
  have hself : Function.update h.term p (h.term p + 1) p = h.term p + 1 := Function.update_self ..
  have h₂ := campaign h₁.inv (p := p)
    (fun A hc => by
      have hle := (hI.campaign_ok p _ A hc).2.2
      dsimp only at hle
      rw [hself] at hle
      omega)
    (fun e he => by
      have hle := hI.log_term p e he
      dsimp only
      rw [hself]
      omega)
  have h₃ := cast h₂.inv (p := p) (.inr ⟨rfl, rfl, rfl⟩) (.inl (Function.update_self ..))
    (UpToDate.refl _)
  refine ⟨_, (h₁.trans h₂).trans h₃, hself, Function.update_self .., rfl, rfl,
    .inr ⟨rfl, hself.symm, rfl⟩,
    .inr ⟨rfl, hself.symm, rfl⟩, ?_⟩
  rintro c T A (hc | ⟨-, hT, -⟩)
  · exact .inl hc
  · exact .inr (hT.trans hself)

theorem extend {x : P} (he : h.elected (h.term p) p A) (hlog : h.leaderLog (h.term p) = h.log p)
    (hx : ∀ C, confOf x = some C → MayFollow confOf C₀ h (h.term p) (h.log p) C) :
    ∃ h', Only confOf C₀ p h h' ∧ h'.term = h.term ∧ h'.vote = h.vote ∧ h'.elected = h.elected ∧
      h'.committed = h.committed ∧ h'.campaigned = h.campaigned ∧
      h'.log p = h.log p ++ [⟨h.term p, x⟩] ∧
      h'.leaderLog (h.term p) = h.log p ++ [⟨h.term p, x⟩] ∧
      h'.acked p (h.term p) ((h.log p).length + 1) := by
  have h₁ := append hI (p := p) he (x := x) (by rw [hlog]; exact hx)
  have hself : Function.update h.leaderLog (h.term p) (h.leaderLog (h.term p) ++ [⟨h.term p, x⟩])
      (h.term p) = h.log p ++ [⟨h.term p, x⟩] := by
    rw [Function.update_self, hlog]
  have hlen (e : Entry P) : (h.log p ++ [e]).length = (h.log p).length + 1 := List.length_append
  have htake (e : Entry P) : (h.log p ++ [e]).take ((h.log p).length + 1) = h.log p ++ [e] :=
    List.take_of_length_le (Nat.le_of_eq (hlen e))
  have h₂ := accept h₁.inv (p := p) (j := (h.log p).length + 1) he
    (by dsimp only; rw [hself, hlen])
    (by
      dsimp only
      rw [hself, htake]
      intro hpre
      have hle := hpre.length_le
      rw [hlen] at hle
      omega)
  have hlog₂ : Function.update h.log p
      ((Function.update h.leaderLog (h.term p) (h.leaderLog (h.term p) ++ [⟨h.term p, x⟩])
        (h.term p)).take ((h.log p).length + 1)) p = h.log p ++ [⟨h.term p, x⟩] := by
    rw [Function.update_self, hself, htake]
  have hA : A.length < (h.log p).length + 1 := by
    have := (hI.isPrefix_election he).length_le
    rw [hlog] at this
    omega
  have h₃ := ack h₂.inv (p := p) (j := (h.log p).length + 1) he hA
    (by dsimp only; rw [hself, hlen])
    (by dsimp only; rw [hlog₂, hself]; exact List.take_prefix _ _)
  exact ⟨_, (h₁.trans h₂).trans h₃, rfl, rfl, rfl, rfl, rfl, hlog₂, hself, .inr ⟨rfl, rfl, rfl⟩⟩

/-- A node follows the leader of its term through index `j`, and acknowledges what it holds. -/
theorem follow {c : N} {L : List (Entry P)} {j : Nat} (he : h.elected (h.term p) c A)
    (hj : j ≤ (h.leaderLog (h.term p)).length)
    (hL : (L = h.log p ∧ (h.leaderLog (h.term p)).take j <+: h.log p) ∨
      (L = (h.leaderLog (h.term p)).take j ∧ ¬ (h.leaderLog (h.term p)).take j <+: h.log p)) :
    ∃ h', Only confOf C₀ p h h' ∧ h'.term = h.term ∧ h'.vote = h.vote ∧ h'.elected = h.elected ∧
      h'.campaigned = h.campaigned ∧ h'.leaderLog = h.leaderLog ∧ h'.log p = L ∧
      (j ≤ A.length ∨ h'.acked p (h.term p) j) := by
  obtain ⟨h₁, ho, hterm, hvote, hel, hcamp, hlead, hlog, hpre⟩ : ∃ h₁, Only confOf C₀ p h h₁ ∧
      h₁.term = h.term ∧ h₁.vote = h.vote ∧ h₁.elected = h.elected ∧ h₁.campaigned = h.campaigned ∧
      h₁.leaderLog = h.leaderLog ∧ h₁.log p = L ∧
      (h.leaderLog (h.term p)).take j <+: h₁.log p := by
    rcases hL with ⟨rfl, hpre⟩ | ⟨rfl, hno⟩
    · exact ⟨h, refl hI, rfl, rfl, rfl, rfl, rfl, rfl, hpre⟩
    · refine ⟨_, accept hI he hj hno, rfl, rfl, rfl, rfl, rfl, Function.update_self .., ?_⟩
      dsimp only
      rw [Function.update_self]
  rcases Nat.lt_or_ge A.length j with hA | hA
  · have h₂ := ack ho.inv (p := p) (j := j) (by rw [hel, hterm]; exact he) hA
      (by rw [hlead, hterm]; exact hj) (by rw [hlead, hterm]; exact hpre)
    exact ⟨_, ho.trans h₂, hterm, hvote, hel, hcamp, hlead, hlog,
      .inr (.inr ⟨rfl, by rw [hterm], rfl⟩)⟩
  · exact ⟨h₁, ho, hterm, hvote, hel, hcamp, hlead, hlog, .inl hA⟩

end Steps

end Only

/-- Node `q` has come to term `T`, and as long as it stays there it holds the first `k` entries of
the leader's log. -/
def Confirmed (h : History N P) (q : N) (T k : Nat) : Prop :=
  k ≤ (h.leaderLog T).length ∧ T ≤ h.term q ∧
    (h.term q = T → (h.leaderLog T).take k <+: h.log q)

theorem Confirmed.only {p q : N} {k : Nat} (hc : Confirmed h q T k) (ho : Only confOf C₀ p h h') :
    Confirmed h' q T k := by
  obtain ⟨hk, hT, hheld⟩ := hc
  have htake := ho.extends_.take_leaderLog hk
  refine ⟨hk.trans (ho.extends_.leaderLog T).length_le, hT.trans (ho.extends_.term q),
    fun hterm => ?_⟩
  rw [htake]
  by_cases hq : q = p
  · subst hq
    have hle := ho.extends_.term q
    obtain rfl : h.term q = T := by omega
    exact ho.holds hterm k (hheld rfl) hk
  · rw [ho.log q hq]
    exact hheld ((ho.term q hq).symm.trans hterm)

/-- An entry of the leader's own term lies above the log it was elected with. -/
theorem Inv.lt_of_lastTerm (hI : Inv confOf C₀ h) {i : Nat} {c : N} (he : h.elected T c A)
    (h0 : 0 < i) (hi : i ≤ (h.leaderLog T).length) (hterm : lastTerm ((h.leaderLog T).take i) = T) :
    A.length < i := by
  by_contra hle
  obtain ⟨B, hB, hA, -⟩ := hI.leader_shape T c A he
  obtain ⟨X, e, hX, hlen, htake⟩ := exists_entry_at h0 hi
  rw [htake, lastTerm_concat] at hterm
  have hpre : X ++ [e] <+: A :=
    List.prefix_of_prefix_length_le hX ⟨B, hB.symm⟩ (by rw [List.length_append]; simp; omega)
  have := hA e (hpre.subset (by simp))
  omega

end Consensus
