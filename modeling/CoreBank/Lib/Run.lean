import Mathlib.Logic.Relation

/-!
# Runs of an action system

A system is given by a step relation `step w a w'`: in state `w` the action `a` may lead to `w'`.
`Run step w as w'` says that the actions `as`, taken one after another, lead from `w` to `w'`.
Where the action fixes the outcome, `step` comes from a partial function `exec`; `execAll` is then
the executable counterpart of `Run`, and `guarded` restricts `exec` to the actions that meet a
condition.

Two rules package the inductions the rest of the development needs:

* `Run.invariant` — what every step preserves holds at the end of a run;
* `Run.simulate` — a relation to a *history* that each step can extend is carried along a run, and
  the history at the end extends the one at the start: the rule for an invariant that mentions what
  has happened.
-/

set_option autoImplicit false

namespace ActionSystem

variable {W A H : Type}

/-- The actions `as` lead from the first state to the last. -/
inductive Run (step : W → A → W → Prop) : W → List A → W → Prop
  | nil (w : W) : Run step w [] w
  | cons {w w' w'' : W} {a : A} {as : List A} (h : step w a w') (hr : Run step w' as w'') :
      Run step w (a :: as) w''

variable {step : W → A → W → Prop} {w w' w'' : W} {as bs : List A}

theorem Run.append (h : Run step w as w') (h' : Run step w' bs w'') :
    Run step w (as ++ bs) w'' := by
  induction h with
  | nil w => exact h'
  | cons hs _ ih => exact .cons hs (ih h')

theorem Run.concat {a : A} (h : Run step w as w') (hs : step w' a w'') :
    Run step w (as ++ [a]) w'' :=
  h.append (.cons hs (.nil w''))

/-- A run over a concatenation passes through a state between the two parts. -/
theorem Run.split :
    ∀ {as : List A}, Run step w (as ++ bs) w'' → ∃ w', Run step w as w' ∧ Run step w' bs w'' := by
  intro as
  induction as generalizing w with
  | nil => exact fun h => ⟨w, .nil w, h⟩
  | cons a as ih =>
    intro h
    cases h with
    | cons hs hr =>
      obtain ⟨w', h1, h2⟩ := ih hr
      exact ⟨w', .cons hs h1, h2⟩

/-- If the actions determine the states, a run that starts like another continues it. -/
theorem Run.suffix (hdet : ∀ w a x y, step w a x → step w a y → x = y) (h : Run step w as w')
    (h' : Run step w (as ++ bs) w'') : Run step w' bs w'' := by
  induction h with
  | nil w => exact h'
  | cons hs _ ih =>
    cases h' with
    | cons hs' hr =>
      cases hdet _ _ _ _ hs hs'
      exact ih hr

theorem Run.mono {step' : W → A → W → Prop} (hsub : ∀ w a w', step w a w' → step' w a w')
    (h : Run step w as w') : Run step' w as w' := by
  induction h with
  | nil w => exact .nil w
  | cons hs _ ih => exact .cons (hsub _ _ _ hs) ih

/-- **The invariant rule.**  What every step preserves holds at the end of a run. -/
theorem Run.invariant {P : W → Prop} (h : Run step w as w')
    (hstep : ∀ w a w', step w a w' → P w → P w') (h0 : P w) : P w' := by
  induction h with
  | nil w => exact h0
  | cons hs _ ih => exact ih (hstep _ _ _ hs h0)

/-- **The history rule.**  If every step from a state related to a history `g` leads to a state
related to an extension of `g`, then so does every run. -/
theorem Run.simulate {R : W → H → Prop} {le : H → H → Prop} (hrefl : ∀ g, le g g)
    (htrans : ∀ {g g' g''}, le g g' → le g' g'' → le g g'')
    (hstep : ∀ w a w' g, step w a w' → R w g → ∃ g', le g g' ∧ R w' g') (h : Run step w as w')
    {g : H} (hg : R w g) : ∃ g', le g g' ∧ R w' g' := by
  induction h generalizing g with
  | nil w => exact ⟨g, hrefl g, hg⟩
  | cons hs _ ih =>
    obtain ⟨g1, h1, hR1⟩ := hstep _ _ _ g hs hg
    obtain ⟨g2, h2, hR2⟩ := ih hR1
    exact ⟨g2, htrans h1 h2, hR2⟩

/-- **The history rule for two moments** of one run, in either order: the later history extends the
earlier one. -/
theorem Run.simulate_moments {R : W → H → Prop} {le : H → H → Prop} (hrefl : ∀ g, le g g)
    (htrans : ∀ {g g' g''}, le g g' → le g' g'' → le g g'')
    (hstep : ∀ w a w' g, step w a w' → R w g → ∃ g', le g g' ∧ R w' g')
    (hdet : ∀ w a x y, step w a x → step w a y → x = y) {w₀ : W} (h : Run step w₀ as w)
    (h' : Run step w₀ bs w') (hpre : as <+: bs ∨ bs <+: as) {g₀ : H} (hg : R w₀ g₀) :
    ∃ g g', R w g ∧ R w' g' ∧ (le g g' ∨ le g' g) := by
  rcases hpre with ⟨cs, rfl⟩ | ⟨cs, rfl⟩
  · obtain ⟨g, -, hR⟩ := h.simulate hrefl htrans hstep hg
    obtain ⟨g', hle, hR'⟩ := (h.suffix hdet h').simulate hrefl htrans hstep hR
    exact ⟨g, g', hR, hR', .inl hle⟩
  · obtain ⟨g', -, hR'⟩ := h'.simulate hrefl htrans hstep hg
    obtain ⟨g, hle, hR⟩ := (h'.suffix hdet h).simulate hrefl htrans hstep hR'
    exact ⟨g, g', hR, hR', .inr hle⟩

/-- The state the actions `as` lead to, if each of them is enabled in its turn. -/
def execAll (exec : W → A → Option W) : W → List A → Option W
  | w, [] => some w
  | w, a :: as =>
    match exec w a with
    | some w' => execAll exec w' as
    | none => none

theorem execAll_append (exec : W → A → Option W) (w : W) (as bs : List A) :
    execAll exec w (as ++ bs) = (execAll exec w as).bind fun w' => execAll exec w' bs := by
  induction as generalizing w with
  | nil => rfl
  | cons a as ih =>
    rw [List.cons_append, execAll, execAll]
    cases exec w a with
    | none => rfl
    | some w' => exact ih w'

variable {exec : W → A → Option W}

theorem execAll_concat {a : A} (h : execAll exec w as = some w') (hs : exec w' a = some w'') :
    execAll exec w (as ++ [a]) = some w'' := by
  rw [execAll_append, h, Option.bind_some, execAll, hs]
  rfl

theorem execAll_concat_inv {a : A} (h : execAll exec w (as ++ [a]) = some w'') :
    ∃ w', execAll exec w as = some w' ∧ exec w' a = some w'' := by
  rw [execAll_append, Option.bind_eq_some_iff] at h
  obtain ⟨w', hw', h⟩ := h
  refine ⟨w', hw', ?_⟩
  rw [execAll] at h
  cases he : exec w' a with
  | none => rw [he] at h; cases h
  | some x => rw [he] at h; exact h

theorem run_of_execAll (h : execAll exec w as = some w') :
    Run (fun w a w' => exec w a = some w') w as w' := by
  induction as generalizing w with
  | nil => cases h; exact .nil _
  | cons a as ih =>
    rw [execAll] at h
    cases he : exec w a with
    | none => rw [he] at h; cases h
    | some w1 => rw [he] at h; exact .cons he (ih h)

/-- `exec` for the actions that meet a condition on the state they are taken in. -/
def guarded (P : W → A → Prop) [∀ w a, Decidable (P w a)] (exec : W → A → Option W) (w : W)
    (a : A) : Option W :=
  if P w a then exec w a else none

/-- Executing under a condition is running with every step meeting it. -/
theorem run_of_execAll_guarded {P : W → A → Prop} [∀ w a, Decidable (P w a)]
    (h : execAll (guarded P exec) w as = some w') :
    Run (fun w a w' => exec w a = some w' ∧ P w a) w as w' := by
  refine (run_of_execAll h).mono fun w a w' hs => ?_
  rw [guarded] at hs
  split at hs
  next hP => exact ⟨hs, hP⟩
  next => cases hs

theorem run_iff_execAll :
    Run (fun w a w' => exec w a = some w') w as w' ↔ execAll exec w as = some w' := by
  refine ⟨fun h => ?_, run_of_execAll⟩
  induction h with
  | nil => rfl
  | cons hs _ ih => rw [execAll, hs]; exact ih

theorem run_guarded_iff_execAll {P : W → A → Prop} [∀ w a, Decidable (P w a)] :
    Run (fun w a w' => exec w a = some w' ∧ P w a) w as w' ↔
      execAll (guarded P exec) w as = some w' := by
  refine ⟨fun h => run_iff_execAll.1 (h.mono fun w a w' hs => ?_), run_of_execAll_guarded⟩
  rw [guarded, if_pos hs.2]
  exact hs.1

/-! A run to a state of which something holds is found by executing it. -/

section Found

variable {B : Type} {f : W → Option B} {Q : W → Prop} {R : W → B → Prop} {P : W → A → Prop}
  [∀ w a, Decidable (P w a)]

theorem exists_run (h : ∃ w' ∈ execAll exec w as, Q w') :
    ∃ w', Run (fun w a w' => exec w a = some w') w as w' ∧ Q w' := by
  obtain ⟨w', hw, hQ⟩ := h
  exact ⟨w', run_of_execAll hw, hQ⟩

theorem exists_run_guarded (h : ∃ w' ∈ execAll (guarded P exec) w as, Q w') :
    ∃ w', Run (fun w a w' => exec w a = some w' ∧ P w a) w as w' ∧ Q w' := by
  obtain ⟨w', hw, hQ⟩ := h
  exact ⟨w', run_of_execAll_guarded hw, hQ⟩

theorem exists_run_some (h : ∃ w' ∈ execAll exec w as, ∃ s ∈ f w', R w' s) :
    ∃ w' s, Run (fun w a w' => exec w a = some w') w as w' ∧ f w' = some s ∧ R w' s := by
  obtain ⟨w', hrun, s, hs⟩ := exists_run h
  exact ⟨w', s, hrun, hs⟩

theorem exists_run_guarded_some
    (h : ∃ w' ∈ execAll (guarded P exec) w as, ∃ s ∈ f w', R w' s) :
    ∃ w' s, Run (fun w a w' => exec w a = some w' ∧ P w a) w as w' ∧ f w' = some s ∧ R w' s := by
  obtain ⟨w', hrun, s, hs⟩ := exists_run_guarded h
  exact ⟨w', s, hrun, hs⟩

/-- What is found by executing may imply more. -/
theorem exists_run_guarded_imp {T : W → B → Prop}
    (h : ∃ w' ∈ execAll (guarded P exec) w as, ∃ s ∈ f w', R w' s)
    (hT : ∀ w' s, Run (fun w a w' => exec w a = some w' ∧ P w a) w as w' → f w' = some s →
      R w' s → T w' s) :
    ∃ w' s, Run (fun w a w' => exec w a = some w' ∧ P w a) w as w' ∧ f w' = some s ∧ T w' s := by
  obtain ⟨w', s, hrun, hs, hR⟩ := exists_run_guarded_some h
  exact ⟨w', s, hrun, hs, hT w' s hrun hs hR⟩

end Found

end ActionSystem
