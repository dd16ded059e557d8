import CoreBank.Raft.Restart

/-!
# What a leader knows to be committed

Other leaders may have committed more than a leader's commit index says: those before it, which it
learns of with the first entry of its own term that it commits, and those after it.  `Leading.holds`
says that there is no third case: a leader that has committed an entry of its own term, and that no
later term has committed past, has everything within its commit index that was ever decided.

Whether a later term has committed anything is a question about terms.  It has not if no server has
got that far, and, where the members do not change, if a majority of them has not.
-/

set_option autoImplicit false

namespace CoreBank.Raft

open ActionSystem Consensus Majority

variable {σ : Type} {w w' : World σ} {id : NodeID} {s s' : Server σ} {h : History NodeID Bytes}
  {confOf : Bytes → Option (List NodeID)} {C₀ : List NodeID}

/-! ## The last term that commits -/

theorem forall_term_le {T : Nat} :
    (∀ b ∈ w.nodes.entries, b.2.term ≤ T) ↔ ∀ q, (w.node q).term ≤ T := by
  constructor
  · intro h q
    rw [World.node]
    cases hq : w.nodes.lookup q with
    | none => exact Nat.zero_le T
    | some n => exact h ⟨q, n⟩ (AList.mem_lookup_iff.1 hq)
  · rintro h ⟨q, n⟩ hb
    have hq := h q
    rwa [World.node, AList.mem_lookup_iff.2 hb] at hq

instance (w : World σ) (T : Nat) : Decidable (∀ q, (w.node q).term ≤ T) :=
  decidable_of_iff _ forall_term_le

theorem Refines.committed_le (hR : Refines confOf C₀ w h) {T : Nat}
    (hT : ∀ q, (w.node q).term ≤ T) {t i k : Nat} (hc : h.committed t i k) : t ≤ T := by
  obtain ⟨-, -, ⟨c, A, he, -⟩, -⟩ := hR.inv.commit_ok t i k hc
  obtain ⟨hcamp, -⟩ := hR.inv.elected_backs t c A he
  have hle := (hR.inv.campaign_ok c t A hcamp).2.2
  rw [hR.term c] at hle
  exact hle.trans (hT c)

/-- With a fixed membership a term commits nothing that a majority has not got to. -/
theorem committed_le_of_majority {members : List NodeID} (hI : Inv noConf members h) {T : Nat}
    (hmaj : IsMajority members {q | h.term q ≤ T}) {t i k : Nat}
    (hc : h.committed t i k) : t ≤ T := by
  obtain ⟨-, -, ⟨c, A, he, -⟩, -⟩ := hI.commit_ok t i k hc
  obtain ⟨-, hvotes⟩ := hI.elected_backs t c A he
  rw [conf_of_free fun e _ => (rfl : noConf e.payload = none)] at hvotes
  obtain ⟨q, ⟨hvote, -⟩, hq⟩ := meets_self members _ _ hvotes hmaj
  exact (hI.vote_term q t c hvote).1.trans hq

/-- **What a leader has committed is everything that was decided**, if it has committed an entry of
its own term and no later term has committed one. -/
theorem Leading.holds (hI : Inv confOf C₀ h) {A : List (Entry Bytes)} (hl : Leading h id s A)
    (hlen : s.commitIndex ≤ s.log.abs.length) (hpos : 0 < s.currentTerm)
    (hown : lastTerm (s.log.abs.take s.commitIndex) = s.currentTerm)
    (hlast : ∀ t i k, h.committed t i k → t ≤ s.currentTerm) {X : List (Entry Bytes)}
    (hX : Sealed h X) : X <+: s.log.abs.take s.commitIndex := by
  have h0 : 0 < s.commitIndex := by
    rcases Nat.eq_zero_or_pos s.commitIndex with hzero | h0
    · rw [hzero, List.take_zero, lastTerm_nil] at hown
      omega
    · exact h0
  have hA : A.length < s.commitIndex := by
    refine hI.lt_of_lastTerm hl.elected h0 ?_ ?_ <;> rw [hl.log]
    · exact hlen
    · exact hown
  rcases hX with rfl | ⟨t, i, k, -, hc, hX⟩
  · exact List.nil_prefix
  · rcases Nat.lt_or_eq_of_le (hlast t i k hc) with hlt | rfl
    · -- an earlier term: the leader was elected with all of it
      have hpre : X <+: A :=
        Decided.prefix_election hI (.inr ⟨t, i, k, Nat.le_refl t, hc, hX⟩) hlt hl.elected
      refine List.prefix_of_prefix_length_le (hpre.trans ?_) (List.take_prefix _ s.log.abs) ?_
      · rw [← hl.log]
        exact hI.isPrefix_election hl.elected
      · have := hpre.length_le
        rw [List.length_take]
        omega
    · -- its own term: it is the one that commits
      rw [hl.log] at hX
      exact hX.trans (List.take_prefix_take_left (hl.committed i k hc))

theorem Refines.leader_holds (hR : Refines confOf C₀ w h) (hs : w.server id = some s)
    (hlead : s.role = .leader) (hown : s.log.termAt s.commitIndex = some s.currentTerm)
    (hlast : ∀ t i k, h.committed t i k → t ≤ s.currentTerm) {X : List (Entry Bytes)}
    (hX : Sealed h X) : X <+: s.log.abs.take s.commitIndex := by
  obtain ⟨p, hp, rfl⟩ := server_eq_some.1 hs
  have href := ((hR.node id).proc p hp).server
  have hwf := (hR.wf.proc id p hp).server.log
  obtain ⟨A, hl⟩ := href.leader hlead
  obtain ⟨hcamp, -⟩ := hR.inv.elected_backs _ _ _ hl.elected
  have hlen := href.length
  rw [Log.abs, List.length_map] at hlen
  rw [hwf.termAt href.base hlen] at hown
  exact hl.holds hR.inv href.length (hR.positive _ _ _ hcamp) (Option.some.inj hown) hlast hX

/-! ## What stays committed -/

theorem Refines.prefix_step {cl : Cluster σ} {a : Action} (hR : Refines confOf C₀ w h)
    (hnil : confOf [] = none) (hexec : exec cl w a = some w') (hord : Ordered confOf C₀ w a)
    (hs : w.server id = some s) (hs' : w'.server id = some s') :
    s.log.abs.take s.commitIndex <+: s'.log.abs.take s'.commitIndex := by
  obtain ⟨p, hp, rfl⟩ := server_eq_some.1 hs
  obtain ⟨p', hp', rfl⟩ := server_eq_some.1 hs'
  cases (stepped_of_exec hexec).procStep hp' with
  | other _ hp' => rw [hp] at hp'; cases hp'; exact List.prefix_refl _
  | boot q hdown => rw [hp] at hdown; cases hdown
  | act q a e hq ha =>
    rw [hp] at hq
    cases hq
    obtain ⟨beats, hM⟩ := hR.messages
    obtain ⟨g, hsim⟩ := hR.simulate hM hp hnil ha (hord p hp)
    exact ((hR.node id).proc p hp).server.isPrefix_take hsim.server hR.inv hsim.only hsim.commit

/-- What a server has committed stays until it stops. -/
theorem prefix_of_incarnation {cl : Cluster σ} {step : World σ → Action → World σ → Prop}
    {R : World σ → History NodeID Bytes → Prop} (hnil : confOf [] = none)
    (hR : ∀ w h, R w h → Refines confOf C₀ w h)
    (hordered : ∀ w a w' h, step w a w' → R w h → exec cl w a = some w' ∧ Ordered confOf C₀ w a)
    (hstep : ∀ w a w' h, step w a w' → R w h → ∃ h', Extends h h' ∧ R w' h') {as : List Action}
    (hrun : Run (fun w a w' => step w a w' ∧ ¬ a.restarts id) w as w') (hw : R w h)
    (hs : w.server id = some s) (hs' : w'.server id = some s') :
    s.log.abs.take s.commitIndex <+: s'.log.abs.take s'.commitIndex := by
  induction hrun generalizing h s with
  | nil => rw [hs] at hs'; cases hs'; exact List.prefix_refl _
  | cons hs₁ hr ih =>
    obtain ⟨hs₁, hno⟩ := hs₁
    obtain ⟨hexec, hord⟩ := hordered _ _ _ _ hs₁ hw
    obtain ⟨h₁, -, hw₁⟩ := hstep _ _ _ _ hs₁ hw
    obtain ⟨s₁, hserver⟩ := exists_server_of_step hexec hno hs
    exact ((hR _ _ hw).prefix_step hnil hexec hord hs hserver).trans (ih hw₁ hserver hs')

/-- What was committed at some moment of a run is decided in a history of its end. -/
theorem CommittedIn.exists_sealed {step : World σ → Action → World σ → Prop}
    {R : World σ → History NodeID Bytes → Prop} (hdet : ∀ w a x y, step w a x → step w a y → x = y)
    (hR : ∀ w h, R w h → Refines confOf C₀ w h)
    (hstep : ∀ w a w' h, step w a w' → R w h → ∃ h', Extends h h' ∧ R w' h')
    (hinit : R {} History.init) {as : List Action} (hrun : Run step {} as w)
    {Y : List (Entry Bytes)} (hY : CommittedIn step as Y) :
    ∃ h X, R w h ∧ Sealed h X ∧ Y <+: X := by
  obtain ⟨bs, v, x, s, ⟨cs, rfl⟩, hbs, hs, hpre⟩ := hY
  obtain ⟨h₁, -, hv⟩ := hbs.simulate .refl (fun h₁ h₂ => h₁.trans h₂) hstep hinit
  obtain ⟨h₂, hx, hw⟩ := (hbs.suffix hdet hrun).simulate .refl (fun h₁ h₂ => h₁.trans h₂) hstep hv
  obtain ⟨p, hp, rfl⟩ := server_eq_some.1 hs
  have hsealed := (((hR v h₁ hv).node x).proc p hp).server.commit
  exact ⟨h₂, _, hw, hsealed.mono (hR v h₁ hv).inv hx, hpre⟩

section Run

variable {cl : Cluster σ}

/-- **A leader whose term is the last, and that has committed an entry of it, has committed whatever
was committed by then**, and keeps it until it stops. -/
theorem holds_committed {as bs : List Action} (hrun : Run (CoherentStep cl C₀) {} as w)
    (hs : w.server id = some s) (hlead : s.role = .leader)
    (hown : s.log.termAt s.commitIndex = some s.currentTerm)
    (hlast : ∀ q, (w.node q).term ≤ s.currentTerm)
    (hlater : Run (fun w a w' => CoherentStep cl C₀ w a w' ∧ ¬ a.restarts id) w bs w')
    (hs' : w'.server id = some s') {Y : List (Entry Bytes)}
    (hY : CommittedIn (CoherentStep cl C₀) as Y) : Y <+: s'.log.abs.take s'.commitIndex := by
  obtain ⟨h, X, hC, hX, hpre⟩ := hY.exists_sealed (R := Coherent cl.machine configOf C₀)
    (fun _ _ _ _ h₁ h₂ => h₁.det h₂) (fun _ _ hC => hC.refines)
    (fun _ _ _ _ hs hC => hs.coherent hC) coherent_empty hrun
  have hheld := hC.refines.leader_holds hs hlead hown
    (fun _ _ _ hc => hC.refines.committed_le hlast hc) hX
  have hkept := prefix_of_incarnation (R := Coherent cl.machine configOf C₀) rfl
    (fun _ _ hC => hC.refines) (fun _ _ _ _ hs _ => ⟨hs.1, hs.2.2.1⟩)
    (fun _ _ _ _ hs hC => hs.coherent hC) hlater hC hs hs'
  exact (hpre.trans hheld).trans hkept

end Run

end CoreBank.Raft
