import CoreBank.Lib.Run
import CoreBank.Shard.Steps

/-!
# A step as one process sees it

What `exec` does to one process, by the action that does it, and what it does to one group: nothing,
an entry more, or an entry applied.  `Trail` is the system together with who appended which entry,
which no code records; statements about the entries of one call are about that.
-/

set_option autoImplicit false

namespace CoreBank.Shard

open Ledger Hlc ActionSystem

variable {shardFor : AccountID → ID} {w w' : World} {a : Action}

/-! ## One group -/

/-- **What a step does to a group.** -/
inductive GroupStep (gr : Group) (g : ID) : Action → Group → Prop
  | same {a : Action} : GroupStep gr g a gr
  | append {a : Action} (c : Command) : GroupStep gr g a { gr with log := gr.log ++ [c] }
  | apply (c : Command) (hc : gr.log[gr.applied]? = some c) :
      GroupStep gr g (.apply g) { gr with
        applied := gr.applied + 1, machine := gr.machine.applyAt (gr.applied + 1) c }

theorem Step.groupStep (h : Step shardFor w a w') (g : ID) :
    GroupStep (w.group g) g a (w'.group g) := by
  cases h with
  | transfer | recover | reply | move | crash => exact .same
  | @append pid p g' c hp hwait hreq =>
    rw [group_setProc]
    by_cases hg : g = g'
    · subst hg
      rw [group_setGroup_self]
      exact .append c
    · rw [group_setGroup_ne _ _ hg]
      exact .same
  | @apply g' gr h =>
    by_cases hg : g = g'
    · subst hg
      obtain ⟨c, hc, rfl⟩ := applyNext_eq_some h
      rw [group_setGroup_self]
      exact .apply c hc
    · rw [group_setGroup_ne _ _ hg]
      exact .same

namespace GroupStep

variable {gr gr' : Group} {g : ID} {c : Command}

theorem applyNext (hc : gr.log[gr.applied]? = some c) :
    gr.applyNext = some { gr with
      applied := gr.applied + 1, machine := gr.machine.applyAt (gr.applied + 1) c } := by
  rw [Group.applyNext, hc]

theorem applied_le (h : GroupStep gr g a gr') (hle : gr.applied ≤ gr.log.length) :
    gr'.applied ≤ gr'.log.length := by
  cases h with
  | same => exact hle
  | append c =>
    rw [List.length_append]
    exact Nat.le_trans hle (Nat.le_add_right _ _)
  | apply c hc => exact (List.getElem?_eq_some_iff.1 hc).1

theorem isPrefix_log (h : GroupStep gr g a gr') : gr.log <+: gr'.log := by
  cases h with
  | same | apply => exact List.prefix_refl _
  | append c => exact List.prefix_append _ _

end GroupStep

theorem applied_le_of_run {as : List Action}
    (hrun : Run (fun w a w' => exec shardFor w a = some w') {} as w) (g : ID) :
    (w.group g).applied ≤ (w.group g).log.length := by
  refine hrun.invariant (P := fun w => ∀ g, (w.group g).applied ≤ (w.group g).log.length)
    (fun w a w' hs h g => ?_) (fun _ => Nat.le_refl 0) g
  exact ((step_of_exec hs).groupStep g).applied_le (h g)

/-! ## One process -/

/-- **What a step does to a process.** -/
inductive Turn (shardFor : AccountID → ID) (w : World) (pid : Nat) (p : Proc) : Action → Proc → Prop
  /-- The step is not about it. -/
  | other {a : Action} (h : a.pid? ≠ some pid) : Turn shardFor w pid p a p
  /-- A proposal ends before anything is appended. -/
  | refused {isLeader : Bool} {err : Option Str} {g : ID} {c : Command} (hwait : p.wait = none)
      (hreq : p.task.request shardFor = some (g, c)) (h : isLeader = true → err ≠ none) :
      Turn shardFor w pid p (.propose pid (.fail isLeader err))
        { p with task := p.task.onReply shardFor w.group { isLeader := isLeader, err := err } }
  | append {g : ID} {c : Command} (hwait : p.wait = none)
      (hreq : p.task.request shardFor = some (g, c)) : Turn shardFor w pid p (.propose pid .append)
        { p with wait := some (g, (w.group g).log.length + 1) }
  | reported {g : ID} {i : Nat} (hwait : p.wait = some (g, i)) (h : i ≤ (w.group g).applied) :
      Turn shardFor w pid p (.report pid)
        { p with
          task := p.task.onReply shardFor w.group
            { res := (w.group g).machine.appliedResult i, isLeader := true }
          wait := none }
  | timedOut {g : ID} {i : Nat} {isLeader : Bool} {err : Str} (hwait : p.wait = some (g, i)) :
      Turn shardFor w pid p (.timeout pid isLeader err)
        { p with
          task := p.task.onReply shardFor w.group { isLeader := isLeader, err := some err }
          wait := none }
  | move {a : Action} {t : Task} (ha : a.pid? = some pid) (hwait : p.wait = none)
      (ht : localStep w a p.task = some t) : Turn shardFor w pid p a { p with task := t }
  | crash : Turn shardFor w pid p (.crash pid) { p with alive := false }

variable {pid : Nat} {p : Proc}

theorem turn_of_procStep (ha : a.pid? = some pid) (h : procStep shardFor w pid p a = some w') :
    ∃ p', w'.procs = w.procs.set pid p' ∧ Turn shardFor w pid p a p' := by
  have hlocal (h : (if p.wait.isNone then
      (localStep w a p.task).map fun t => w.setProc pid { p with task := t } else none) = some w') :
      ∃ p', w'.procs = w.procs.set pid p' ∧ Turn shardFor w pid p a p' := by
    split at h
    next hwait =>
      obtain ⟨t, ht, rfl⟩ := Option.map_eq_some_iff.1 h
      exact ⟨_, rfl, .move ha (Option.isNone_iff_eq_none.1 hwait) ht⟩
    next => cases h
  cases a with
  | transfer | recover | apply => cases ha
  | visit | scan | next | ask => exact hlocal h
  | crash => cases ha; cases h; exact ⟨_, rfl, .crash⟩
  | propose pid' start =>
    cases ha
    rw [procStep] at h
    split at h
    next g c hwait hreq =>
      split at h
      next isLeader err =>
        split at h
        · cases h
        next hne =>
          cases h
          refine ⟨_, rfl, .refused hwait hreq fun hl hn => hne ⟨hl, ?_⟩⟩
          exact Option.isNone_iff_eq_none.2 hn
      next =>
        cases h
        exact ⟨_, rfl, .append hwait hreq⟩
    next => cases h
  | report pid' =>
    cases ha
    rw [procStep] at h
    split at h
    next g i hwait =>
      split at h
      next happ => cases h; exact ⟨_, rfl, .reported hwait happ⟩
      next => cases h
    next => cases h
  | timeout pid' isLeader err =>
    cases ha
    rw [procStep] at h
    split at h
    next x hwait => cases h; exact ⟨_, rfl, .timedOut hwait⟩
    next => cases h

theorem getElem?_append_of_some {p' : Proc} (hp : w.procs[pid]? = some p) :
    (w.procs ++ [p'])[pid]? = some p := by
  rw [List.getElem?_append_left (List.getElem?_eq_some_iff.1 hp).1, hp]

/-- **The inversion of `exec` for one process.** -/
theorem turn_of_exec (h : exec shardFor w a = some w') (hp : w.procs[pid]? = some p) :
    ∃ p', w'.procs[pid]? = some p' ∧ Turn shardFor w pid p a p' := by
  cases ha : a.pid? with
  | some pid' =>
    obtain ⟨q, hq, hstep⟩ := exec_proc ha h
    obtain ⟨q', hprocs, hturn⟩ := turn_of_procStep ha hstep
    rw [hprocs]
    by_cases hne : pid' = pid
    · subst hne
      cases hp.symm.trans hq
      exact ⟨q', List.getElem?_set_self (List.getElem?_eq_some_iff.1 hp).1, hturn⟩
    · rw [List.getElem?_set_ne hne]
      exact ⟨p, hp, .other fun e => hne (Option.some.inj (ha.symm.trans e))⟩
  | none =>
    unfold exec at h
    have hother : a.pid? ≠ some pid := by rw [ha]; exact (Option.some_ne_none pid).symm
    refine ⟨p, ?_, .other hother⟩
    cases a with
    | transfer => cases h; exact getElem?_append_of_some hp
    | recover =>
      simp only [Action.pid?] at h
      split at h
      · cases h; exact getElem?_append_of_some hp
      · cases h
    | apply g =>
      obtain ⟨gr, -, rfl⟩ := Option.map_eq_some_iff.1 h
      exact hp
    | propose | report | timeout | visit | scan | next | ask | crash => cases ha

theorem group_of_append {g : ID} {c : Command}
    (h : exec shardFor w (.propose pid .append) = some w') (hp : w.procs[pid]? = some p)
    (hwait : p.wait = none) (hreq : p.task.request shardFor = some (g, c)) :
    w'.group g = { w.group g with log := (w.group g).log ++ [c] } := by
  obtain ⟨q, hq, hstep⟩ := exec_proc rfl h
  cases hp.symm.trans hq
  rw [procStep, hwait, hreq] at hstep
  cases hstep
  exact group_setGroup_self w g _

/-! ## Who appended what -/

/-- The system, with the entries each process has appended. -/
structure Trail where
  world : World := {}
  /-- Process, group and index. -/
  wrote : List (Nat × ID × Nat) := []

/-- The entry a step appends for a process. -/
def World.writes (shardFor : AccountID → ID) (w : World) : Action → List (Nat × ID × Nat)
  | .propose pid .append =>
    match (w.procs[pid]?).bind fun p => p.task.request shardFor with
    | some (g, _) => [(pid, g, (w.group g).log.length + 1)]
    | none => []
  | _ => []

/-- A step, with what it appends. -/
def trailExec (shardFor : AccountID → ID) (t : Trail) (a : Action) : Option Trail :=
  (exec shardFor t.world a).map fun w => ⟨w, t.wrote ++ t.world.writes shardFor a⟩

theorem trailExec_eq_some {t t' : Trail} :
    trailExec shardFor t a = some t' ↔
      exec shardFor t.world a = some t'.world ∧
        t'.wrote = t.wrote ++ t.world.writes shardFor a := by
  rw [trailExec, Option.map_eq_some_iff]
  constructor
  · rintro ⟨w, hw, rfl⟩
    exact ⟨hw, rfl⟩
  · rintro ⟨hw, hwrote⟩
    exact ⟨_, hw, by rw [← hwrote]⟩

theorem writes_of_ne (h : a ≠ .propose pid .append) {g : ID} {i : Nat} :
    (pid, g, i) ∉ w.writes shardFor a := by
  intro hmem
  unfold World.writes at hmem
  split at hmem
  next pid' =>
    split at hmem
    next =>
      cases List.mem_singleton.1 hmem
      exact h rfl
    next => cases hmem
  next => cases hmem

theorem writes_append {g : ID} {c : Command} (hp : w.procs[pid]? = some p)
    (hreq : p.task.request shardFor = some (g, c)) :
    w.writes shardFor (.propose pid .append) = [(pid, g, (w.group g).log.length + 1)] := by
  simp only [World.writes, hp, Option.bind_some, hreq]

end CoreBank.Shard
