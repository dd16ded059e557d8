import CoreBank.Consensus.History

/-!
# The invariant of a history, and what it says at one moment

`Inv` collects what holds of every history, and this file what follows without an induction over
steps: how entries sit in leader logs, which configurations can have disjoint majorities, and the
quorum argument.

## What is here

* `Lost`, `Keeps`, `Backs` — what an acknowledgement and a vote certify about the node's log, up to
  prefixes that a later leader was already elected without;
* `Inv` — the invariant;
* `Inv.meets` — majorities of two grown logs meet if both configurations were guarded by commits the
  other log holds;
* `Inv.quorum` — the quorum argument: a candidate that wins against a commit of an earlier term
  holds what was committed.
-/

set_option autoImplicit false

namespace Consensus

open Majority

variable {N P : Type}

/-! ## What acknowledgements and votes certify -/

/-- A leader of a term after `t` and before `B` was elected without the first `i` entries of the
leader of `t`. -/
def Lost (h : History N P) (t i B : Nat) : Prop :=
  ∃ T c A, h.elected T c A ∧ t < T ∧ T < B ∧ ¬ (h.leaderLog t).take i <+: A

variable {t i : Nat}

theorem Lost.weaken {h : History N P} {B B' : Nat} (hB : B ≤ B') (hl : Lost h t i B) :
    Lost h t i B' := by
  obtain ⟨T, c, A, he, h1, h2, h3⟩ := hl
  exact ⟨T, c, A, he, h1, by omega, h3⟩

/-- `L` has everything node `p` acknowledged before term `T`, apart from what was lost before
term `B`. -/
def Keeps (h : History N P) (p : N) (L : List (Entry P)) (T B : Nat) : Prop :=
  ∀ t j, h.acked p t j → t < T → ∀ i, i ≤ j → (h.leaderLog t).take i <+: L ∨ Lost h t i B

/-- Node `p` compared the candidate's log `A` with a log that keeps what `p` acknowledged. -/
def Backs (h : History N P) (p : N) (A : List (Entry P)) (T B : Nat) : Prop :=
  ∃ L, UpToDate A L ∧ Grown h L ∧ Keeps h p L T B

/-! ## The invariant -/

section Inv

variable (confOf : P → Option (List N)) (C₀ : List N)

/-- What holds of every history that can come about. -/
structure Inv (h : History N P) : Prop where
  leader_shape : ∀ T c A, h.elected T c A →
    ∃ B, h.leaderLog T = A ++ B ∧ (∀ e ∈ A, e.term < T) ∧ ∀ e ∈ B, e.term = T
  leader_nil : ∀ T, (∀ c A, ¬ h.elected T c A) → h.leaderLog T = []
  leader_grown : ∀ T, Grown h (h.leaderLog T)
  log_grown : ∀ p, Grown h (h.log p)
  log_term : ∀ p, ∀ e ∈ h.log p, e.term ≤ h.term p
  log_keeps : ∀ p, Keeps h p (h.log p) (h.term p + 1) (h.term p + 1)
  campaign_ok : ∀ c T A, h.campaigned c T A →
    Grown h A ∧ (∀ e ∈ A, e.term < T) ∧ T ≤ h.term c
  campaign_unique : ∀ c T A A', h.campaigned c T A → h.campaigned c T A' → A = A'
  vote_term : ∀ p T c, h.voted p T c → T ≤ h.term p ∧ (T = h.term p → h.vote p = some c)
  vote_unique : ∀ p T c c', h.voted p T c → h.voted p T c' → c = c'
  vote_backs : ∀ p T c, h.voted p T c → ∃ A, h.campaigned c T A ∧ Backs h p A T (T + 1)
  ack_ok : ∀ p t j, h.acked p t j →
    t ≤ h.term p ∧ ∃ c A, h.elected t c A ∧ A.length < j ∧ j ≤ (h.leaderLog t).length
  elected_backs : ∀ T c A, h.elected T c A → h.campaigned c T A ∧
    IsMajority (conf confOf C₀ A) {p | h.voted p T c ∧ Backs h p A T T}
  elected_unique : ∀ T c c' A A', h.elected T c A → h.elected T c' A' → c = c' ∧ A = A'
  commit_ok : ∀ t i m, h.committed t i m →
    m ≤ (h.leaderLog t).length ∧ i ≤ m ∧ (∃ c A, h.elected t c A ∧ A.length < i) ∧
    IsMajority (conf confOf C₀ ((h.leaderLog t).take m)) {p | ∃ j, i ≤ j ∧ h.acked p t j}
  conf_ok : ∀ X e C, X ++ [e] <+: h.leaderLog e.term → confOf e.payload = some C →
    MayFollow confOf C₀ h e.term X C
  complete : ∀ t i m T c A, h.committed t i m → h.elected T c A → t < T →
    (h.leaderLog t).take i <+: A

end Inv

section Static

variable {confOf : P → Option (List N)} {C₀ : List N} {h : History N P}

/-! ## Entries and the leaders that created them -/

variable {X : List (Entry P)} {e : Entry P} (hI : Inv confOf C₀ h)

include hI

/-- An entry in its own leader's log lies above the log that leader was elected with. -/
theorem Inv.entry_leader (hX : X ++ [e] <+: h.leaderLog e.term) :
    ∃ c A, h.elected e.term c A ∧ A <+: X := by
  by_cases hel : ∀ c A, ¬ h.elected e.term c A
  · rw [hI.leader_nil _ hel] at hX
    simp at hX
  · push Not at hel
    obtain ⟨c, A, he⟩ := hel
    obtain ⟨B, hB, hA, -⟩ := hI.leader_shape _ c A he
    have hAL : A <+: h.leaderLog e.term := ⟨B, hB.symm⟩
    have hlen : A.length ≤ X.length := by
      by_contra hlt
      have hXA := List.prefix_of_prefix_length_le hX hAL (by simp; omega)
      exact absurd (hA e (hXA.subset (by simp))) (Nat.lt_irrefl _)
    exact ⟨c, A, he,
      List.prefix_of_prefix_length_le hAL ((List.prefix_append X [e]).trans hX) hlen⟩

variable {c : N} {A : List (Entry P)}

/-- The prefix of a leader's log through an index above its election log ends in an entry of its
own term. -/
theorem Inv.own_entry (he : h.elected t c A) (hA : A.length < i) (hi : i ≤ (h.leaderLog t).length) :
    ∃ V g, (h.leaderLog t).take i = V ++ [g] ∧ g.term = t ∧ A <+: V := by
  obtain ⟨B, hB, -, hBt⟩ := hI.leader_shape t c A he
  obtain ⟨V, g, hpre, hlen, htake⟩ := exists_entry_at (by omega) hi
  have hAV : A <+: V :=
    List.prefix_of_prefix_length_le ⟨B, hB.symm⟩ ((List.prefix_append V [g]).trans hpre) (by omega)
  obtain ⟨V', rfl⟩ := hAV
  rw [hB, List.append_assoc] at hpre
  have hg : g ∈ B := ((List.prefix_append_right_inj A).1 hpre).subset (by simp)
  exact ⟨A ++ V', g, htake, hBt g hg, List.prefix_append A V'⟩

variable {L : List (Entry P)}

theorem Inv.term_le {f : Entry P} (hL : Grown h L) (hX : X ++ [e] <+: L)
    (hf : f ∈ X) : f.term ≤ e.term := by
  have hXL := hL X e hX
  obtain ⟨c, A, he, -⟩ := hI.entry_leader hXL
  obtain ⟨B, hB, hA, hBt⟩ := hI.leader_shape _ c A he
  have hmem : f ∈ h.leaderLog e.term := hXL.subset (by simp [hf])
  rw [hB] at hmem
  rcases List.mem_append.1 hmem with h1 | h1
  · exact Nat.le_of_lt (hA f h1)
  · exact Nat.le_of_eq (hBt f h1)

theorem Inv.le_lastTerm {f : Entry P} (hL : Grown h L) (hf : f ∈ L) : f.term ≤ lastTerm L := by
  rcases eq_nil_or_concat L with rfl | ⟨X, e, rfl⟩
  · cases hf
  · rw [lastTerm_concat]
    rcases List.mem_append.1 hf with h1 | h1
    · exact hI.term_le hL (List.prefix_refl _) h1
    · rw [List.mem_singleton.1 h1]

variable {T : Nat}

theorem Inv.leader_term_le (he : e ∈ h.leaderLog T) : e.term ≤ T := by
  by_cases hel : ∀ c A, ¬ h.elected T c A
  · rw [hI.leader_nil T hel] at he
    cases he
  · push Not at hel
    obtain ⟨c, A, hcA⟩ := hel
    obtain ⟨B, hB, hA, hBt⟩ := hI.leader_shape T c A hcA
    rw [hB] at he
    rcases List.mem_append.1 he with h1 | h1
    · exact Nat.le_of_lt (hA e h1)
    · exact Nat.le_of_eq (hBt e h1)

theorem Inv.isPrefix_election (he : h.elected T c A) : A <+: h.leaderLog T := by
  obtain ⟨B, hB, -, -⟩ := hI.leader_shape T c A he
  exact ⟨B, hB.symm⟩

/-! ## Configurations whose majorities meet -/

/-- `Y` holds the commits that guard the configurations of `X`. -/
def GuardsHeld (confOf : P → Option (List N)) (h : History N P) (X Y : List (Entry P)) : Prop :=
  ∀ Z e C, Z ++ [e] <+: X → confOf e.payload = some C →
    ∀ i m, h.committed e.term i m → m ≤ Z.length → (h.leaderLog e.term).take i <+: Y

variable {Y : List (Entry P)}

/-- What guards a configuration entry, in terms of the log below it. -/
theorem Inv.guard {Z : List (Entry P)} {C : List N} (hX : Grown h X)
    (hg : GuardsHeld confOf h X Y) (hZ : Z ++ [e] <+: X) (hC : confOf e.payload = some C) :
    Meets C (conf confOf C₀ Z) ∧ ∃ i, Z.take i <+: Y ∧ (∀ f ∈ Z.drop i, Free confOf f) ∧
      ∃ V g, Z.take i = V ++ [g] ∧ g.term = e.term := by
  have hZL := hX Z e hZ
  obtain ⟨hmeet, i, m, hcm, hm, hfree⟩ := hI.conf_ok Z e C hZL hC
  obtain ⟨hmlen, him, ⟨c, A, he, hA⟩, -⟩ := hI.commit_ok _ i m hcm
  have htake : (h.leaderLog e.term).take i = Z.take i :=
    take_eq_of_isPrefix ((List.prefix_append Z [e]).trans hZL) (by omega)
  have hheld := hg Z e C hZ hC i m hcm hm
  obtain ⟨V, g, hV, hgt, -⟩ := hI.own_entry he hA (by omega)
  rw [htake] at hheld hV
  exact ⟨hmeet, i, hheld, hfree, V, g, hV, hgt⟩

variable {X₁ X₂ : List (Entry P)}

omit hI in
/-- If `X` ends its configurations with `e`, and `Y` has `e` and takes everything up to its own
last configurations from `X`, then `e` is the last configuration of `Y` as well. -/
theorem conf_eq_of_held {C : List N} (he : confOf e.payload = some C)
    (hX₂ : ∀ f ∈ X₂, Free confOf f) (hheld : Y.take i <+: X₁ ++ [e] ++ X₂)
    (hfree : ∀ f ∈ Y.drop i, Free confOf f) (hY : X₁ ++ [e] <+: Y) : conf confOf C₀ Y = C := by
  obtain ⟨R, rfl⟩ := hY
  have hi : X₁.length + 1 ≤ i := by
    by_contra hlt
    have hmem : e ∈ (X₁ ++ [e] ++ R).drop i := by
      rw [List.append_assoc, List.drop_append_of_le_length (by omega)]
      simp
    have := hfree e hmem
    rw [Free, he] at this
    cases this
  obtain ⟨k, rfl⟩ : ∃ k, i = (X₁ ++ [e]).length + k := ⟨i - (X₁.length + 1), by simp; omega⟩
  rw [List.take_length_add_append, List.prefix_append_right_inj] at hheld
  rw [List.drop_length_add_append] at hfree
  refine conf_append_conf he fun f hf => ?_
  rw [← List.take_append_drop k R] at hf
  rcases List.mem_append.1 hf with h1 | h1
  · exact hX₂ f (hheld.subset h1)
  · exact hfree f h1

/-- The case of `Inv.meets` in which the last configuration of `X` is in `Y`. -/
theorem Inv.meets_of_held {Y₁ Y₂ : List (Entry P)} {f : Entry P}
    {C D : List N} (he : confOf e.payload = some C) (hf : confOf f.payload = some D)
    (hX₂ : ∀ f ∈ X₂, Free confOf f) (hY₂ : ∀ f ∈ Y₂, Free confOf f)
    (hY : Grown h (Y₁ ++ [f] ++ Y₂))
    (hg : GuardsHeld confOf h (Y₁ ++ [f] ++ Y₂) (X₁ ++ [e] ++ X₂))
    (hpre : X₁ ++ [e] <+: Y₁ ++ [f] ++ Y₂) : Meets D C := by
  have hlen : X₁.length ≤ Y₁.length := by
    by_contra hlt
    obtain ⟨R, hR⟩ := List.prefix_of_prefix_length_le (List.prefix_append (Y₁ ++ [f]) Y₂)
      ((List.prefix_append X₁ [e]).trans hpre) (by simp; omega)
    rw [← hR, List.append_assoc, List.prefix_append_right_inj] at hpre
    have := hY₂ e (hpre.subset (by simp))
    rw [Free, he] at this
    cases this
  have hpre' : X₁ ++ [e] <+: Y₁ ++ [f] :=
    List.prefix_of_prefix_length_le hpre (List.prefix_append _ _) (by simpa using hlen)
  rcases List.prefix_concat_iff.1 hpre' with heq | hlt
  · obtain ⟨-, hef⟩ := List.append_inj' heq rfl
    cases hef
    cases he.symm.trans hf
    exact meets_self C
  · obtain ⟨hmeet, i, hheld, hfree, -⟩ := hI.guard hY hg (List.prefix_append _ Y₂) hf
    rw [conf_eq_of_held he hX₂ hheld hfree hlt] at hmeet
    exact hmeet

/-- If the guard of the last configuration of `Y` is of a later term than the last configuration
`e` of `X`, and `X` holds that guard, then `Y` has `e`. -/
theorem Inv.held_of_term_lt {Y₁ V : List (Entry P)} {g : Entry P}
    (hX : Grown h (X₁ ++ [e] ++ X₂)) (hheld : Y₁.take i <+: X₁ ++ [e] ++ X₂)
    (hV : Y₁.take i = V ++ [g]) (hlt : e.term < g.term) : X₁ ++ [e] <+: Y₁ := by
  refine List.IsPrefix.trans ?_ (List.take_prefix i Y₁)
  refine List.prefix_of_prefix_length_le (List.prefix_append _ X₂) hheld ?_
  by_contra hlen
  have hpre : Y₁.take i <+: X₁ ++ [e] :=
    List.prefix_of_prefix_length_le hheld (List.prefix_append _ X₂) (by omega)
  have hg : g ∈ X₁ ++ [e] := hpre.subset (by rw [hV]; simp)
  rcases List.mem_append.1 hg with h1 | h1
  · have := hI.term_le hX (List.prefix_append _ X₂) h1
    omega
  · rw [List.mem_singleton.1 h1] at hlt
    exact absurd hlt (Nat.lt_irrefl _)

/-- **Adjacent configurations.**  If each of two grown logs holds the commits that guard the
other's configurations, then the majorities of the configurations in force at their ends meet. -/
theorem Inv.meets (hX : Grown h X) (hY : Grown h Y)
    (hXY : GuardsHeld confOf h X Y) (hYX : GuardsHeld confOf h Y X) :
    Meets (conf confOf C₀ X) (conf confOf C₀ Y) := by
  -- a log without configurations keeps its guard's prefix, hence the other log's whole lower part,
  -- free of configurations
  have hfree : ∀ {X Y : List (Entry P)} {Y₁ Y₂ : List (Entry P)} {f : Entry P} {D : List N},
      Grown h Y → GuardsHeld confOf h Y X → (∀ e ∈ X, Free confOf e) → Y = Y₁ ++ [f] ++ Y₂ →
      confOf f.payload = some D → Meets D C₀ := by
    rintro X Y Y₁ Y₂ f D hY hYX hX rfl hf
    obtain ⟨hmeet, i, hheld, hdrop, -⟩ := hI.guard hY hYX (List.prefix_append _ Y₂) hf
    rw [conf_of_free (L := Y₁)] at hmeet
    · exact hmeet
    · intro a ha
      rw [← List.take_append_drop i Y₁] at ha
      rcases List.mem_append.1 ha with h1 | h1
      · exact hX a (hheld.subset h1)
      · exact hdrop a h1
  rcases exists_last_conf confOf X with hXf | ⟨X₁, e, X₂, C, rfl, he, hX₂⟩ <;>
    rcases exists_last_conf confOf Y with hYf | ⟨Y₁, f, Y₂, D, rfl, hf, hY₂⟩
  · rw [conf_of_free hXf, conf_of_free hYf]
    exact meets_self C₀
  · rw [conf_of_free hXf, conf_append_conf hf hY₂]
    exact (hfree hY hYX hXf rfl hf).symm
  · rw [conf_append_conf he hX₂, conf_of_free hYf]
    exact hfree hX hXY hYf rfl he
  · rw [conf_append_conf he hX₂, conf_append_conf hf hY₂]
    by_cases h1 : X₁ ++ [e] <+: Y₁ ++ [f] ++ Y₂
    · exact (hI.meets_of_held he hf hX₂ hY₂ hY hYX h1).symm
    by_cases h2 : Y₁ ++ [f] <+: X₁ ++ [e] ++ X₂
    · exact hI.meets_of_held hf he hY₂ hX₂ hX hXY h2
    exfalso
    -- neither log has the other's last configuration: compare the terms of the two
    obtain ⟨-, i, hiY, -, V, g, hV, hg⟩ := hI.guard hX hXY (List.prefix_append _ X₂) he
    obtain ⟨-, j, hjX, -, V', g', hV', hg'⟩ := hI.guard hY hYX (List.prefix_append _ Y₂) hf
    rcases Nat.lt_trichotomy e.term f.term with hlt | heq | hgt
    · exact h1 ((hI.held_of_term_lt hX hjX hV' (by omega)).trans
        (by rw [List.append_assoc]; exact List.prefix_append _ _))
    · have hXl := hX X₁ e (List.prefix_append _ X₂)
      have hYl := hY Y₁ f (List.prefix_append _ Y₂)
      rw [heq] at hXl
      rcases List.prefix_or_prefix_of_prefix hXl hYl with h3 | h3
      · exact h1 (h3.trans (List.prefix_append _ Y₂))
      · exact h2 (h3.trans (List.prefix_append _ X₂))
    · exact h2 ((hI.held_of_term_lt hY hiY hV (by omega)).trans
        (by rw [List.append_assoc]; exact List.prefix_append _ _))

/-! ## The quorum argument -/

section Later

variable (hlater : ∀ T' c' A', h.elected T' c' A' → t < T' → T' < T → (h.leaderLog t).take i <+: A')

include hlater

/-- A grown log with an entry of a term above `t` holds what every later leader holds. -/
theorem Inv.held_of_later (hA : Grown h A) (hX : X ++ [e] <+: A) (ht : t < e.term)
    (heT : e.term < T) : (h.leaderLog t).take i <+: A := by
  obtain ⟨c', A', he', hA'⟩ := hI.entry_leader (hA X e hX)
  exact ((hlater _ c' A' he' ht heT).trans hA').trans ((List.prefix_append X [e]).trans hX)

/-- A log that passes the comparison with a log that has the prefix has the prefix. -/
theorem Inv.carry {A₀ : List (Entry P)} (he : h.elected t c A₀) (hA₀ : A₀.length < i)
    (hi : i ≤ (h.leaderLog t).length) (hA : Grown h A) (hAT : ∀ e ∈ A, e.term < T)
    (hL : Grown h L) (hup : UpToDate A L) (hheld : (h.leaderLog t).take i <+: L) :
    (h.leaderLog t).take i <+: A := by
  obtain ⟨V, g, hV, hg, -⟩ := hI.own_entry he hA₀ hi
  have hgL : g ∈ L := hheld.subset (by rw [hV]; simp)
  have hlen : i ≤ L.length := by
    have := hheld.length_le
    rw [List.length_take] at this
    omega
  have htL : t ≤ lastTerm L := hg ▸ hI.le_lastTerm hL hgL
  rcases eq_nil_or_concat A with rfl | ⟨Z, a, rfl⟩
  · rcases hup with h1 | ⟨-, h1⟩
    · simp at h1
    · rw [List.length_nil] at h1
      omega
  · have hta : t ≤ a.term := by simpa using htL.trans hup.lastTerm_le
    rcases Nat.lt_or_ge t a.term with hlt | hge
    · exact hI.held_of_later hlater hA (List.prefix_refl _) hlt (hAT a (by simp))
    · -- both logs end inside the block of term `t`, so the longer one has the prefix
      have hat : a.term = t := Nat.le_antisymm hge hta
      have hZ : Z ++ [a] <+: h.leaderLog t := hat ▸ hA Z a (List.prefix_refl _)
      refine take_prefix_of_isPrefix hZ ?_
      rcases hup with h1 | ⟨-, h1⟩
      · rw [lastTerm_concat] at h1
        omega
      · omega

/-- **The quorum argument.**  The leader of `t` gathered acknowledgements of its first `i` entries
from a majority, its log having length `m`; a majority of the configuration of `A` backed `A` in a
later term `T`.  If the leaders in between have the prefix, and the guards of the configurations
involved are held on both sides, then `A` has the prefix. -/
theorem Inv.quorum {m B : Nat} {A₀ : List (Entry P)} (he : h.elected t c A₀) (hA₀ : A₀.length < i)
    (him : i ≤ m) (hm : m ≤ (h.leaderLog t).length)
    (hack : IsMajority (conf confOf C₀ ((h.leaderLog t).take m)) {p | ∃ j, i ≤ j ∧ h.acked p t j})
    (htT : t < T) (hA : Grown h A) (hAT : ∀ e ∈ A, e.term < T)
    (hvote : IsMajority (conf confOf C₀ A) {p | Backs h p A T B}) (hlost : ¬ Lost h t i B)
    (hguard : GuardsHeld confOf h ((h.leaderLog t).take m) A) : (h.leaderLog t).take i <+: A := by
  by_contra hno
  have hL : Grown h ((h.leaderLog t).take m) :=
    (hI.leader_grown t).of_isPrefix (List.take_prefix _ _)
  -- the guards of the configurations of `A` are in the committing leader's log, since otherwise
  -- `A` reaches past the prefix already
  have hguard' : GuardsHeld confOf h A ((h.leaderLog t).take m) := by
    intro Z f D hZ hD i' m' hcm hm'
    obtain ⟨hm'len, him', ⟨c', A', he', hA'⟩, -⟩ := hI.commit_ok _ i' m' hcm
    have hZT : f.term < T := hAT f (hZ.subset (by simp))
    rcases Nat.lt_trichotomy f.term t with hlt | heq | hgt
    · have hpre := hI.complete _ i' m' t c A₀ hcm he hlt
      have hlen := hpre.length_le
      rw [List.length_take] at hlen
      refine List.prefix_of_prefix_length_le (hpre.trans (hI.isPrefix_election he))
        (List.take_prefix _ _) ?_
      rw [List.length_take, List.length_take]
      omega
    · have hZL := hA Z f hZ
      rw [heq] at hZL hcm ⊢
      have hlt : Z.length < i := by
        by_contra hge
        exact hno ((take_prefix_of_isPrefix ((List.prefix_append Z [f]).trans hZL) (by omega)).trans
          ((List.prefix_append Z [f]).trans hZ))
      exact List.take_prefix_take_left (by omega)
    · exact absurd (hI.held_of_later hlater hA hZ hgt hZT) hno
  obtain ⟨p, ⟨j, hij, hpj⟩, L, hup, hLg, hkeep⟩ :=
    hI.meets hL hA hguard hguard' _ _ hack hvote
  rcases hkeep t j hpj htT i hij with hheld | hl
  · exact hno (hI.carry hlater he hA₀ (by omega) hA hAT hLg hup hheld)
  · exact hlost hl

end Later

/-- The candidate has the votes to win. -/
def CanWin (confOf : P → Option (List N)) (C₀ : List N) (h : History N P) (c : N) (T : Nat)
    (A : List (Entry P)) : Prop :=
  h.campaigned c T A ∧ IsMajority (conf confOf C₀ A) {p | h.voted p T c}

/-- Whoever can win holds everything committed in earlier terms. -/
theorem Inv.canWin_complete (hw : CanWin confOf C₀ h c T A) :
    ∀ t m i, h.committed t i m → t < T → (h.leaderLog t).take i <+: A := by
  obtain ⟨hc, hq⟩ := hw
  obtain ⟨hA, hAT, -⟩ := hI.campaign_ok c T A hc
  -- on the term, and within a term on the length of the log that was committed: the guard of a
  -- configuration in that log is a commit of an earlier term or of a shorter log
  intro t
  induction t using Nat.strong_induction_on with
  | _ t iht =>
    intro m
    induction m using Nat.strong_induction_on with
    | _ m ihm =>
      intro i hcm htT
      obtain ⟨hm, him, ⟨c₀, A₀, he, hA₀⟩, hack⟩ := hI.commit_ok t i m hcm
      have hlater : ∀ T' c' A', h.elected T' c' A' → t < T' →
          (h.leaderLog t).take i <+: A' :=
        fun T' c' A' he' ht' => hI.complete t i m T' c' A' hcm he' ht'
      refine hI.quorum (B := T + 1) (fun T' c' A' he' ht' _ => hlater T' c' A' he' ht') he hA₀ him
        hm hack htT hA hAT ?_ ?_ ?_
      · refine hq.mono fun p hp => ?_
        obtain ⟨A', hc', hb⟩ := hI.vote_backs p T c hp
        rw [hI.campaign_unique c T A A' hc hc']
        exact hb
      · rintro ⟨T', c', A', he', ht', -, hnot⟩
        exact hnot (hlater T' c' A' he' ht')
      · intro Z e C hZ hC i' m' hcm' hm'
        have heL : e ∈ h.leaderLog t :=
          (hZ.trans (List.take_prefix _ _)).subset (by simp)
        have hZlen : Z.length + 1 ≤ m := by
          have := hZ.length_le
          simp only [List.length_append, List.length_singleton, List.length_take] at this
          omega
        rcases Nat.lt_or_eq_of_le (hI.leader_term_le heL) with hlt | heq
        · exact iht e.term hlt m' i' hcm' (by omega)
        · rw [heq] at hcm' ⊢
          exact ihm m' (by omega) i' hcm' htT

/-- **Election safety**, for candidates: at most one can win a term. -/
theorem Inv.canWin_unique {c' : N} {A' : List (Entry P)}
    (hw : CanWin confOf C₀ h c T A) (hw' : CanWin confOf C₀ h c' T A') : c = c' ∧ A = A' := by
  obtain ⟨hA, hAT, -⟩ := hI.campaign_ok c T A hw.1
  obtain ⟨hA', hAT', -⟩ := hI.campaign_ok c' T A' hw'.1
  have hmeet : Meets (conf confOf C₀ A) (conf confOf C₀ A') := by
    refine hI.meets hA hA' ?_ ?_
    · intro Z e C hZ _ i m hcm _
      exact hI.canWin_complete hw' _ m i hcm (hAT e (hZ.subset (by simp)))
    · intro Z e C hZ _ i m hcm _
      exact hI.canWin_complete hw _ m i hcm (hAT' e (hZ.subset (by simp)))
  obtain ⟨p, hp, hp'⟩ := hmeet _ _ hw.2 hw'.2
  obtain rfl := hI.vote_unique p T c c' hp hp'
  exact ⟨rfl, hI.campaign_unique c T A A' hw.1 hw'.1⟩

theorem Inv.canWin_of_elected (he : h.elected T c A) : CanWin confOf C₀ h c T A := by
  obtain ⟨hc, hq⟩ := hI.elected_backs T c A he
  exact ⟨hc, hq.mono fun p hp => hp.1⟩

end Static

end Consensus
