import CoreBank.Consensus.Invariant

/-!
# Safety of leader-based replication

Every step preserves `Inv`.  What a user of this library needs from it is stated at the end.

## What is here

* `Step.inv` — one lemma for each kind of step;
* `Inv.elected_unique`, `Inv.complete` — a term has at most one leader, which holds what was
  committed before;
* `Decided`, `Decided.prefix_leaderLog`, `Decided.total` — the committed prefixes form one growing
  sequence, and the leader of a term holds what was decided up to that term.
-/

set_option autoImplicit false

namespace Consensus

open Majority

variable {N P : Type} {confOf : P → Option (List N)} {C₀ : List N} {h h' : History N P}

/-! ## Certificates in a longer history -/

theorem Lost.mono (hx : Extends h h') {t i B : Nat} (hi : i ≤ (h.leaderLog t).length)
    (hl : Lost h t i B) : Lost h' t i B := by
  obtain ⟨T, c, A, he, h1, h2, h3⟩ := hl
  refine ⟨T, c, A, hx.elected he, h1, h2, ?_⟩
  rwa [hx.take_leaderLog hi]

variable {p : N} {L : List (Entry P)} {T : Nat}

/-- A certificate survives as long as no acknowledgement it covers is added. -/
theorem Keeps.mono (hI : Inv confOf C₀ h) (hx : Extends h h') {B : Nat}
    (hold : ∀ t j, h'.acked p t j → t < T → h.acked p t j) (hk : Keeps h p L T B) :
    Keeps h' p L T B := by
  intro t j ha ht i hij
  have ha' := hold t j ha ht
  obtain ⟨-, c, A, -, -, hj⟩ := hI.ack_ok p t j ha'
  rw [hx.take_leaderLog (by omega)]
  rcases hk t j ha' ht i hij with h1 | h1
  · exact Or.inl h1
  · exact Or.inr (h1.mono hx (by omega))

variable {A : List (Entry P)} {c : N}

theorem Backs.mono (hI : Inv confOf C₀ h) (hx : Extends h h') {B : Nat}
    (hold : ∀ t j, h'.acked p t j → t < T → h.acked p t j) (hb : Backs h p A T B) :
    Backs h' p A T B := by
  obtain ⟨L, hup, hL, hk⟩ := hb
  exact ⟨L, hup, hL.mono hx.leaderLog, hk.mono hI hx hold⟩

theorem MayFollow.mono (hx : Extends h h') {C : List N} (hm : MayFollow confOf C₀ h T L C) :
    MayFollow confOf C₀ h' T L C := by
  obtain ⟨hmeet, i, m, hcm, hm, hfree⟩ := hm
  exact ⟨hmeet, i, m, hx.committed hcm, hm, hfree⟩

/-! ## The steps -/

section Steps

variable (hI : Inv confOf C₀ h)

include hI

theorem Inv.raise [DecidableEq N] (hT : h.term p < T) : Inv confOf C₀ (h.raise p T) := by
  have hle := le_update h.term hT.le
  exact { hI with
    log_term := fun q e he => (hI.log_term q e he).trans (hle q)
    log_keeps := by
      intro q t j ha _ i hij
      have ht := (hI.ack_ok q t j ha).1
      rcases hI.log_keeps q t j ha (by omega) i hij with h1 | h1
      · exact Or.inl h1
      · exact Or.inr (h1.weaken (Nat.succ_le_succ (hle q)))
    campaign_ok := by
      intro c T' A hc
      obtain ⟨h1, h2, h3⟩ := hI.campaign_ok c T' A hc
      exact ⟨h1, h2, h3.trans (hle c)⟩
    vote_term := by
      intro q T' c hv
      obtain ⟨h1, h2⟩ := hI.vote_term q T' c hv
      refine ⟨h1.trans (hle q), ?_⟩
      by_cases hq : q = p
      · subst hq
        simp only [Function.update_self]
        omega
      · simpa only [Function.update_of_ne hq] using h2
    ack_ok := by
      intro q t j ha
      obtain ⟨h1, h2⟩ := hI.ack_ok q t j ha
      exact ⟨h1.trans (hle q), h2⟩ }

theorem Inv.campaign (hnew : ∀ A, ¬ h.campaigned p (h.term p) A)
    (hlog : ∀ e ∈ h.log p, e.term < h.term p) : Inv confOf C₀ (h.campaign p) :=
  { hI with
    campaign_ok := by
      rintro c T A (hc | ⟨rfl, rfl, rfl⟩)
      · exact hI.campaign_ok c T A hc
      · exact ⟨hI.log_grown c, hlog, le_rfl⟩
    campaign_unique := by
      rintro c T A A' (hc | ⟨rfl, rfl, rfl⟩) (hc' | ⟨h1, h2, h3⟩)
      · exact hI.campaign_unique c T A A' hc hc'
      · subst h1 h2
        exact absurd hc (hnew A)
      · exact absurd hc' (hnew A')
      · exact h3.symm
    vote_backs := by
      intro q T c hv
      obtain ⟨A, hc, hb⟩ := hI.vote_backs q T c hv
      exact ⟨A, Or.inl hc, hb⟩
    elected_backs := by
      intro T c A he
      obtain ⟨hc, hq⟩ := hI.elected_backs T c A he
      exact ⟨Or.inl hc, hq⟩ }

theorem Inv.vote [DecidableEq N] (hc : h.campaigned c (h.term p) A)
    (hv : h.vote p = none ∨ h.vote p = some c) (hup : UpToDate A (h.log p)) :
    Inv confOf C₀ (h.cast p c) := by
  have hsame : ∀ c', h.voted p (h.term p) c' → c' = c := by
    intro c' hvc
    have h1 := (hI.vote_term p _ c' hvc).2 rfl
    rcases hv with h2 | h2
    · rw [h2] at h1; cases h1
    · rw [h2] at h1; cases h1; rfl
  exact { hI with
    vote_term := by
      rintro q T c' (hvq | ⟨rfl, rfl, rfl⟩)
      · obtain ⟨h1, h2⟩ := hI.vote_term q T c' hvq
        refine ⟨h1, fun hT => ?_⟩
        show Function.update h.vote p (some c) q = some c'
        by_cases hq : q = p
        · subst hq
          have hT' : T = h.term q := hT
          rw [Function.update_self, hsame c' (hT' ▸ hvq)]
        · rw [Function.update_of_ne hq]
          exact h2 hT
      · exact ⟨le_rfl, fun _ => Function.update_self ..⟩
    vote_unique := by
      rintro q T c₁ c₂ (h1 | ⟨rfl, rfl, rfl⟩) (h2 | ⟨h2, h3, h4⟩)
      · exact hI.vote_unique q T c₁ c₂ h1 h2
      · subst h2 h3
        rw [h4]
        exact hsame c₁ h1
      · exact (hsame c₂ h2).symm
      · exact h4.symm
    vote_backs := by
      rintro q T c' (hvq | ⟨rfl, rfl, rfl⟩)
      · exact hI.vote_backs q T c' hvq
      · exact ⟨A, hc, h.log q, hup, hI.log_grown q,
          fun t j ha ht => hI.log_keeps q t j ha (by omega)⟩
    elected_backs := by
      intro T c' A' he
      obtain ⟨h1, h2⟩ := hI.elected_backs T c' A' he
      exact ⟨h1, h2.mono fun q hq => ⟨Or.inl hq.1, hq.2⟩⟩ }

theorem Inv.accept [DecidableEq N] {j : Nat}
    (he : h.elected (h.term p) c A) (hj : j ≤ (h.leaderLog (h.term p)).length)
    (hp : ¬ (h.leaderLog (h.term p)).take j <+: h.log p) : Inv confOf C₀ (h.accept p j) := by
  have hAL := hI.isPrefix_election he
  exact { hI with
    log_grown := by
      intro q
      by_cases hq : q = p
      · subst hq
        simp only [Function.update_self]
        exact (hI.leader_grown _).of_isPrefix (List.take_prefix _ _)
      · simp only [Function.update_of_ne hq]
        exact hI.log_grown q
    log_term := by
      intro q e heq
      by_cases hq : q = p
      · subst hq
        simp only [Function.update_self] at heq
        exact hI.leader_term_le (List.mem_of_mem_take heq)
      · simp only [Function.update_of_ne hq] at heq
        exact hI.log_term q e heq
    log_keeps := by
      intro q
      by_cases hq : q = p
      · subst hq
        simp only [Function.update_self]
        intro t k ha ht i hik
        obtain ⟨htq, c', A', he', -, hk⟩ := hI.ack_ok q t k ha
        -- what is kept is a prefix of the leader's log too, so it can only be longer than the
        -- prefix taken over if the node held that prefix already
        have hcase : (h.leaderLog t).take i <+: h.leaderLog (h.term q) →
            (h.leaderLog t).take i <+: (h.leaderLog (h.term q)).take j ∨
              Lost h t i (h.term q + 1) := by
          intro hpre
          rcases List.prefix_or_prefix_of_prefix hpre (List.take_prefix j _) with h1 | h1
          · exact Or.inl h1
          · rcases hI.log_keeps q t k ha ht i hik with h2 | h2
            · exact absurd (h1.trans h2) hp
            · exact Or.inr h2
        rcases Nat.lt_or_eq_of_le htq with hlt | heq
        · by_cases hAt : (h.leaderLog t).take i <+: A
          · exact hcase (hAt.trans hAL)
          · exact Or.inr ⟨_, c, A, he, hlt, Nat.lt_succ_self _, hAt⟩
        · exact hcase (heq ▸ List.take_prefix _ _)
      · simp only [Function.update_of_ne hq]
        exact hI.log_keeps q }

/-! ### Steps that extend leader logs -/

/-- Longer leader logs leave everything but their own shape, their configurations and what new
leaders hold as it was. -/
theorem Inv.of_leaderLog (hx : Extends h h')
    (hterm : h'.term = h.term) (hvote : h'.vote = h.vote) (hlog : h'.log = h.log)
    (hcamp : h'.campaigned = h.campaigned) (hvoted : h'.voted = h.voted)
    (hacked : h'.acked = h.acked) (hcommitted : h'.committed = h.committed)
    (leader_shape : ∀ T c A, h'.elected T c A →
      ∃ B, h'.leaderLog T = A ++ B ∧ (∀ e ∈ A, e.term < T) ∧ ∀ e ∈ B, e.term = T)
    (leader_nil : ∀ T, (∀ c A, ¬ h'.elected T c A) → h'.leaderLog T = [])
    (leader_grown : ∀ T, Grown h' (h'.leaderLog T))
    (elected_backs : ∀ T c A, h'.elected T c A → h'.campaigned c T A ∧
      IsMajority (conf confOf C₀ A) {p | h'.voted p T c ∧ Backs h p A T T})
    (elected_unique : ∀ T c c' A A', h'.elected T c A → h'.elected T c' A' → c = c' ∧ A = A')
    (conf_ok : ∀ X e C, X ++ [e] <+: h'.leaderLog e.term → confOf e.payload = some C →
      MayFollow confOf C₀ h e.term X C)
    (complete : ∀ t i m T c A, h.committed t i m → h'.elected T c A → t < T →
      (h.leaderLog t).take i <+: A) : Inv confOf C₀ h' where
  leader_shape := leader_shape
  leader_nil := leader_nil
  leader_grown := leader_grown
  log_grown p := by
    rw [hlog]
    exact (hI.log_grown p).mono hx.leaderLog
  log_term p e he := by
    rw [hlog] at he
    rw [hterm]
    exact hI.log_term p e he
  log_keeps p := by
    rw [hlog, hterm]
    exact (hI.log_keeps p).mono hI hx fun t j ha _ => hacked ▸ ha
  campaign_ok c T A hc := by
    rw [hcamp] at hc
    rw [hterm]
    obtain ⟨h1, h2⟩ := hI.campaign_ok c T A hc
    exact ⟨h1.mono hx.leaderLog, h2⟩
  campaign_unique := by
    rw [hcamp]
    exact hI.campaign_unique
  vote_term := by
    rw [hvoted, hterm, hvote]
    exact hI.vote_term
  vote_unique := by
    rw [hvoted]
    exact hI.vote_unique
  vote_backs p T c hv := by
    rw [hvoted] at hv
    rw [hcamp]
    obtain ⟨A, hc, hb⟩ := hI.vote_backs p T c hv
    exact ⟨A, hc, hb.mono hI hx fun t j ha _ => hacked ▸ ha⟩
  ack_ok p t j ha := by
    rw [hacked] at ha
    rw [hterm]
    obtain ⟨h1, c, A, he, hA, hj⟩ := hI.ack_ok p t j ha
    exact ⟨h1, c, A, hx.elected he, hA, hj.trans (hx.leaderLog t).length_le⟩
  elected_backs T c A he := by
    obtain ⟨hc, hq⟩ := elected_backs T c A he
    exact ⟨hc, hq.mono fun p hp => ⟨hp.1, hp.2.mono hI hx fun t j ha _ => hacked ▸ ha⟩⟩
  elected_unique := elected_unique
  commit_ok t i m hcm := by
    rw [hcommitted] at hcm
    obtain ⟨hm, him, ⟨c, A, he, hA⟩, hq⟩ := hI.commit_ok t i m hcm
    refine ⟨hm.trans (hx.leaderLog t).length_le, him, ⟨c, A, hx.elected he, hA⟩, ?_⟩
    rw [hx.take_leaderLog hm, hacked]
    exact hq
  conf_ok X e C hX hC := (conf_ok X e C hX hC).mono hx
  complete t i m T c A hcm he ht := by
    rw [hcommitted] at hcm
    obtain ⟨hm, him, -⟩ := hI.commit_ok t i m hcm
    rw [hx.take_leaderLog (him.trans hm)]
    exact complete t i m T c A hcm he ht

/-- A winner's term had no leader before, so recording its log extends the history. -/
theorem Inv.not_elected (hw : CanWin confOf C₀ h c T A)
    (hnew : ∀ A, ¬ h.elected T c A) (c' : N) (A' : List (Entry P)) : ¬ h.elected T c' A' := by
  intro he
  obtain ⟨rfl, -⟩ := hI.canWin_unique (hI.canWin_of_elected he) hw
  exact hnew A' he

theorem Inv.extends_elect (hw : CanWin confOf C₀ h c T A) (hnew : ∀ A, ¬ h.elected T c A) :
    Extends h (h.elect T c A) := by
  refine { Extends.refl h with elected := .inl, leaderLog := prefix_update h.leaderLog ?_ }
  rw [hI.leader_nil T (hI.not_elected hw hnew)]
  exact List.nil_prefix

theorem Inv.elect (hw : CanWin confOf C₀ h c T A) (hnew : ∀ A, ¬ h.elected T c A) :
    Inv confOf C₀ (h.elect T c A) := by
  have hx := hI.extends_elect hw hnew
  have hno := hI.not_elected hw hnew
  obtain ⟨hA, hAT, -⟩ := hI.campaign_ok c T A hw.1
  refine hI.of_leaderLog hx rfl rfl rfl rfl rfl rfl rfl ?_ ?_ ?_ ?_ ?_ ?_ ?_
  · rintro T' c' A' (he | ⟨rfl, rfl, rfl⟩)
    · have hT : T' ≠ T := by
        rintro rfl
        exact hno c' A' he
      simp only [Function.update_of_ne hT]
      exact hI.leader_shape T' c' A' he
    · exact ⟨[], by simp, hAT, by simp⟩
  · intro T' hel
    have hT : T' ≠ T := by
      rintro rfl
      exact hel c A (Or.inr ⟨rfl, rfl, rfl⟩)
    simp only [Function.update_of_ne hT]
    exact hI.leader_nil T' fun c' A' he => hel c' A' (Or.inl he)
  · intro T'
    refine Grown.mono hx.leaderLog ?_
    by_cases hT : T' = T
    · subst hT
      simpa only [Function.update_self] using hA
    · simpa only [Function.update_of_ne hT] using hI.leader_grown T'
  · rintro T' c' A' (he | ⟨rfl, rfl, rfl⟩)
    · exact hI.elected_backs T' c' A' he
    · refine ⟨hw.1, hw.2.mono fun p hp => ⟨hp, ?_⟩⟩
      obtain ⟨A₁, hc₁, L, hup, hL, hk⟩ := hI.vote_backs p T' c' hp
      obtain rfl := hI.campaign_unique c' T' A' A₁ hw.1 hc₁
      refine ⟨L, hup, hL, fun t j ha ht i hij => ?_⟩
      -- no leader of the term itself can have lost anything yet
      rcases hk t j ha ht i hij with h1 | ⟨T₁, c₁, A₁, he₁, h2, h3, h4⟩
      · exact Or.inl h1
      · refine Or.inr ⟨T₁, c₁, A₁, he₁, h2, ?_, h4⟩
        have hne : T₁ ≠ T' := by
          rintro rfl
          exact hno c₁ A₁ he₁
        omega
  · rintro T' c₁ c₂ A₁ A₂ (h1 | ⟨rfl, rfl, rfl⟩) (h2 | ⟨h2, h3, h4⟩)
    · exact hI.elected_unique T' c₁ c₂ A₁ A₂ h1 h2
    · subst h2
      exact absurd h1 (hno c₁ A₁)
    · exact absurd h2 (hno c₂ A₂)
    · exact ⟨h3.symm, h4.symm⟩
  · intro X e C hX hC
    by_cases hT : e.term = T
    · simp only [hT, Function.update_self] at hX
      exact absurd (hAT e (hX.subset (by simp))) (by omega)
    · simp only [Function.update_of_ne hT] at hX
      exact hI.conf_ok X e C hX hC
  · rintro t i m T' c' A' hcm (he | ⟨rfl, rfl, rfl⟩) ht
    · exact hI.complete t i m T' c' A' hcm he ht
    · exact hI.canWin_complete hw t m i hcm ht

omit hI in
theorem extends_append (h : History N P) (T : Nat) (e : Entry P) :
    Extends h (h.append T e) :=
  { Extends.refl h with leaderLog := prefix_update h.leaderLog (List.prefix_append _ _) }

theorem Inv.append {x : P} (he : h.elected T c A)
    (hx : ∀ C, confOf x = some C → MayFollow confOf C₀ h T (h.leaderLog T) C) :
    Inv confOf C₀ (h.append T ⟨T, x⟩) := by
  have hext := extends_append h T ⟨T, x⟩
  refine hI.of_leaderLog hext rfl rfl rfl rfl rfl rfl rfl ?_ ?_ ?_ hI.elected_backs
    hI.elected_unique ?_ hI.complete
  · intro T' c' A' he'
    obtain ⟨B, hB, hA, hBt⟩ := hI.leader_shape T' c' A' he'
    by_cases hT : T' = T
    · subst hT
      refine ⟨B ++ [⟨T', x⟩], ?_, hA, ?_⟩
      · simp only [Function.update_self, hB, List.append_assoc]
      · intro e hmem
        rcases List.mem_append.1 hmem with h1 | h1
        · exact hBt e h1
        · rw [List.mem_singleton.1 h1]
    · simp only [Function.update_of_ne hT]
      exact ⟨B, hB, hA, hBt⟩
  · intro T' hel
    have hT : T' ≠ T := by
      rintro rfl
      exact hel c A he
    simp only [Function.update_of_ne hT]
    exact hI.leader_nil T' hel
  · intro T'
    by_cases hT : T' = T
    · subst hT
      simp only [Function.update_self]
      refine ((hI.leader_grown T').mono hext.leaderLog).concat ?_
      simp only [Function.update_self]
      exact List.prefix_refl _
    · simp only [Function.update_of_ne hT]
      exact (hI.leader_grown T').mono hext.leaderLog
  · intro X e C hX hC
    by_cases hT : e.term = T
    · simp only [hT, Function.update_self] at hX
      rcases List.prefix_concat_iff.1 hX with h1 | h1
      · obtain ⟨rfl, h2⟩ := List.append_inj' h1 rfl
        cases h2
        exact hx C hC
      · exact hI.conf_ok X e C (hT ▸ h1) hC
    · simp only [Function.update_of_ne hT] at hX
      exact hI.conf_ok X e C hX hC

/-! ### Acknowledging and committing -/

theorem Inv.ack {j : Nat} (he : h.elected (h.term p) c A)
    (hA : A.length < j) (hj : j ≤ (h.leaderLog (h.term p)).length)
    (hp : (h.leaderLog (h.term p)).take j <+: h.log p) : Inv confOf C₀ (h.ack p j) := by
  have hext : Extends h (h.ack p j) :=
    { Extends.refl h with acked := .inl }
  -- a vote cast in `T` covers no acknowledgement made since
  have hold : ∀ {q T c'}, h.voted q T c' → ∀ t k, (h.ack p j).acked q t k → t < T →
      h.acked q t k := by
    rintro q T c' hv t k (ha | ⟨rfl, rfl, -⟩) ht
    · exact ha
    · have := (hI.vote_term q T c' hv).1
      omega
  exact { hI with
    log_keeps := by
      rintro q t k (ha | ⟨rfl, rfl, rfl⟩) ht i hik
      · exact hI.log_keeps q t k ha ht i hik
      · exact Or.inl ((List.take_prefix_take_left hik).trans hp)
    ack_ok := by
      rintro q t k (ha | ⟨rfl, rfl, rfl⟩)
      · exact hI.ack_ok q t k ha
      · exact ⟨le_rfl, c, A, he, hA, hj⟩
    vote_backs := by
      intro q T c' hv
      obtain ⟨A', hc', hb⟩ := hI.vote_backs q T c' hv
      exact ⟨A', hc', hb.mono hI hext (hold hv)⟩
    elected_backs := by
      intro T c' A' he'
      obtain ⟨hc', hq⟩ := hI.elected_backs T c' A' he'
      exact ⟨hc', hq.mono fun q hq => ⟨hq.1, hq.2.mono hI hext (hold hq.1)⟩⟩
    commit_ok := by
      intro t i m hcm
      obtain ⟨hm, him, hel, hq⟩ := hI.commit_ok t i m hcm
      exact ⟨hm, him, hel, hq.mono fun q ⟨k, hk, ha⟩ => ⟨k, hk, Or.inl ha⟩⟩ }

/-- Every leader of a later term already holds what is committed now. -/
theorem Inv.complete_commit {t i : Nat} (he : h.elected t c A)
    (hA : A.length < i) (hi : i ≤ (h.leaderLog t).length)
    (hq : IsMajority (conf confOf C₀ (h.leaderLog t)) {p | ∃ j, i ≤ j ∧ h.acked p t j}) :
    ∀ T c' A', h.elected T c' A' → t < T → (h.leaderLog t).take i <+: A' := by
  intro T
  induction T using Nat.strong_induction_on with
  | _ T ih =>
    intro c' A' he' htT
    obtain ⟨hc', hvote⟩ := hI.elected_backs T c' A' he'
    obtain ⟨hA', hAT', -⟩ := hI.campaign_ok c' T A' hc'
    rw [← List.take_length (l := h.leaderLog t)] at hq
    refine hI.quorum (B := T) (fun T' c₁ A₁ he₁ h1 h2 => ih T' h2 c₁ A₁ he₁ h1) he hA hi le_rfl hq
      htT hA' hAT' (hvote.mono fun p hp => hp.2) ?_ ?_
    · rintro ⟨T', c₁, A₁, he₁, h1, h2, h3⟩
      exact h3 (ih T' h2 c₁ A₁ he₁ h1)
    · intro Z e C hZ _ i' m' hcm _
      rw [List.take_length] at hZ
      have := hI.leader_term_le (hZ.subset (by simp : e ∈ Z ++ [e]))
      exact hI.complete _ i' m' T c' A' hcm he' (by omega)

theorem Inv.commit {i : Nat} (he : h.elected T c A) (hA : A.length < i)
    (hi : i ≤ (h.leaderLog T).length)
    (hq : IsMajority (conf confOf C₀ (h.leaderLog T)) {p | ∃ j, i ≤ j ∧ h.acked p T j}) :
    Inv confOf C₀ (h.commit T i) :=
  { hI with
    commit_ok := by
      rintro t i' m (hcm | ⟨rfl, rfl, rfl⟩)
      · exact hI.commit_ok t i' m hcm
      · refine ⟨le_rfl, hi, ⟨c, A, he, hA⟩, ?_⟩
        simpa only [List.take_length] using hq
    conf_ok := by
      intro X e C hX hC
      obtain ⟨hmeet, i', m, hcm, hrest⟩ := hI.conf_ok X e C hX hC
      exact ⟨hmeet, i', m, Or.inl hcm, hrest⟩
    complete := by
      rintro t i' m T' c' A' (hcm | ⟨rfl, rfl, rfl⟩) he' ht
      · exact hI.complete t i' m T' c' A' hcm he' ht
      · exact hI.complete_commit he hA hi hq T' c' A' he' ht }

end Steps

/-! ## Every history -/

theorem inv_init : Inv confOf C₀ (History.init : History N P) where
  leader_shape _ _ _ he := he.elim
  leader_nil _ _ := rfl
  leader_grown _ := grown_nil _
  log_grown _ := grown_nil _
  log_term _ _ he := by cases he
  log_keeps _ _ _ ha := ha.elim
  campaign_ok _ _ _ hc := hc.elim
  campaign_unique _ _ _ _ hc := hc.elim
  vote_term _ _ _ hv := hv.elim
  vote_unique _ _ _ _ hv := hv.elim
  vote_backs _ _ _ hv := hv.elim
  ack_ok _ _ _ ha := ha.elim
  elected_backs _ _ _ he := he.elim
  elected_unique _ _ _ _ _ he := he.elim
  commit_ok _ _ _ hc := hc.elim
  conf_ok X e C hX := by
    have hX' : X ++ [e] <+: [] := hX
    simp at hX'
  complete _ _ _ _ _ _ hc := hc.elim

section Reach

variable [DecidableEq N]

/-- **The invariant is kept by every step**, and no step forgets anything. -/
theorem Step.inv (hs : Step confOf C₀ h h') (hI : Inv confOf C₀ h) :
    Extends h h' ∧ Inv confOf C₀ h' := by
  cases hs with
  | raise p T hT =>
    exact ⟨{ Extends.refl h with term := le_update h.term hT.le }, hI.raise hT⟩
  | campaign p hnew hlog =>
    exact ⟨{ Extends.refl h with campaigned := .inl }, hI.campaign hnew hlog⟩
  | vote p c A hc hv hup =>
    exact ⟨{ Extends.refl h with voted := .inl }, hI.vote hc hv hup⟩
  | elect c T A hc hq hnew =>
    exact ⟨hI.extends_elect ⟨hc, hq⟩ hnew, hI.elect ⟨hc, hq⟩ hnew⟩
  | append T c A x he hx => exact ⟨extends_append h T ⟨T, x⟩, hI.append he hx⟩
  | accept p c A j he hj hp =>
    exact ⟨{ Extends.refl h with }, hI.accept he hj hp⟩
  | ack p c A j he hA hj hp =>
    exact ⟨{ Extends.refl h with acked := .inl }, hI.ack he hA hj hp⟩
  | commit T c A i he hA hi hq =>
    exact ⟨{ Extends.refl h with committed := .inl }, hI.commit he hA hi hq⟩

end Reach

/-! ## What was decided -/

/-- The leader of a term up to `T` committed at least the entries of `X`; the empty log is decided
from the start. -/
def Decided (h : History N P) (T : Nat) (X : List (Entry P)) : Prop :=
  X = [] ∨ ∃ t i m, t ≤ T ∧ h.committed t i m ∧ X <+: (h.leaderLog t).take i

variable {X Y : List (Entry P)}

theorem Decided.of_isPrefix (hX : Decided h T X) (hYX : Y <+: X) : Decided h T Y := by
  rcases hX with rfl | ⟨t, i, m, ht, hcm, hpre⟩
  · exact .inl (List.prefix_nil.1 hYX)
  · exact .inr ⟨t, i, m, ht, hcm, hYX.trans hpre⟩

variable (hI : Inv confOf C₀ h)

include hI

theorem Decided.mono (hx : Extends h h') {T' : Nat} (hT : T ≤ T')
    (hX : Decided h T X) : Decided h' T' X := by
  rcases hX with rfl | ⟨t, i, m, ht, hcm, hpre⟩
  · exact .inl rfl
  obtain ⟨hm, him, -⟩ := hI.commit_ok t i m hcm
  refine .inr ⟨t, i, m, ht.trans hT, hx.committed hcm, ?_⟩
  rwa [hx.take_leaderLog (him.trans hm)]

theorem Decided.prefix_election {t : Nat} (hX : Decided h t X)
    (htT : t < T) (he : h.elected T c A) : X <+: A := by
  rcases hX with rfl | ⟨t', i, m, ht, hcm, hpre⟩
  · exact List.nil_prefix
  · exact hpre.trans (hI.complete t' i m T c A hcm he (by omega))

theorem Decided.prefix_leaderLog (hX : Decided h T X)
    (he : h.elected T c A) : X <+: h.leaderLog T := by
  rcases hX with rfl | ⟨t, i, m, ht, hcm, hpre⟩
  · exact List.nil_prefix
  rcases Nat.lt_or_eq_of_le ht with hlt | rfl
  · exact hpre.trans ((hI.complete t i m T c A hcm he hlt).trans (hI.isPrefix_election he))
  · exact hpre.trans (List.take_prefix _ _)

/-- Taking over a prefix of the leader's log drops nothing that was decided. -/
theorem Decided.prefix_accept {j : Nat} (hX : Decided h T X)
    (he : h.elected T c A) (hL : X <+: L) (hp : ¬ (h.leaderLog T).take j <+: L) :
    X <+: (h.leaderLog T).take j := by
  rcases List.prefix_or_prefix_of_prefix (hX.prefix_leaderLog hI he)
    (List.take_prefix j _) with h1 | h1
  · exact h1
  · exact absurd (h1.trans hL) hp

/-- **Decisions agree.**  Of two decided prefixes one starts the other. -/
theorem Decided.total {T' : Nat} (hX : Decided h T X) (hY : Decided h T' Y) :
    X <+: Y ∨ Y <+: X := by
  rcases hX with rfl | ⟨t, i, m, -, hcm, hpre⟩
  · exact .inl List.nil_prefix
  rcases hY with rfl | ⟨t', i', m', -, hcm', hpre'⟩
  · exact .inr List.nil_prefix
  obtain ⟨-, -, ⟨c, A, he, -⟩, -⟩ := hI.commit_ok t i m hcm
  obtain ⟨-, -, ⟨c', A', he', -⟩, -⟩ := hI.commit_ok t' i' m' hcm'
  rcases Nat.le_total t t' with hle | hle
  · exact List.prefix_or_prefix_of_prefix
      (Decided.prefix_leaderLog hI (.inr ⟨t, i, m, hle, hcm, hpre⟩) he')
      (hpre'.trans (List.take_prefix _ _))
  · exact List.prefix_or_prefix_of_prefix (hpre.trans (List.take_prefix _ _))
      (Decided.prefix_leaderLog hI (.inr ⟨t', i', m', hle, hcm', hpre'⟩) he)

/-! ## Commit points -/

/-- The leader that created the last entry of `X` committed all of `X`.  Every commit index of a
node is such a point of its log, because a leader commits up to an entry of its own term. -/
def Sealed (h : History N P) (X : List (Entry P)) : Prop := Decided h (lastTerm X) X

omit hI in
theorem sealed_nil (h : History N P) : Sealed h [] := .inl rfl

theorem Sealed.mono (hx : Extends h h') (hX : Sealed h X) : Sealed h' X :=
  Decided.mono hI hx (le_rfl) hX

theorem Sealed.decided (hX : Sealed h X) (hT : lastTerm X ≤ T) : Decided h T X :=
  Decided.mono hI (.refl h) hT hX

theorem Sealed.total (hX : Sealed h X) (hY : Sealed h Y) : X <+: Y ∨ Y <+: X :=
  Decided.total hI hX hY

end Consensus
