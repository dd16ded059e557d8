import CoreBank.Rpc.Client

/-!
# Admission control, one atomic operation at a time

`Admit` reserves a slot for a request, the release function it returns gives the slot back, and
`Drain` waits at shutdown until no slot is taken.  They run concurrently and share atomics only, so
here every atomic operation is a step of its own: a request is a `Phase` between two such steps, a
call of `Drain` a `DrainPhase`, and any number of both move in any order.

* `inFlight_bounded` — the number of admitted requests never exceeds the limit, although the counter
  may: a request that finds the limit passed has counted itself already.
* `drain_final_iff` — a drain that returns zero is final exactly if, at the moment it reads the
  zero, no request stands between its look at the draining flag and its increment of the counter.

The outcome of the rate limiter depends on the clock, and whether the deadline of a drain has passed
does too; both are free.  A `nil` admitter is one without limits to read (`none`): it admits
everything and drains at once.
-/

set_option autoImplicit false

namespace CoreBank.Rpc
namespace Admitter

open ActionSystem

/-! ## Requests -/

/-- What an admitter is configured with. -/
structure Limits where
  maxInFlight : Int := 0
  /-- The pause a client over its rate is told to make, in nanoseconds; `none` if there is no limit
  on the rate of a client. -/
  rate : Option Nat := none

/-- The `sync.Once` of a release function. -/
inductive Once
  | fresh
  /-- A call is inside, and has not touched the counter. -/
  | running
  /-- The call inside has given the slot back. -/
  | ran
  | done
deriving DecidableEq

/-- Where a request stands. -/
inductive Phase
  | idle
  /-- The draining flag was not set. -/
  | checked
  /-- The rate limiter has let the request through. -/
  | allowed
  /-- The rate limiter has refused; `shedRate` does not show it yet. -/
  | throttled
  /-- The request has incremented the counter to `n`. -/
  | reserved (n : Int)
  /-- The limit was passed and the slot has been given back; `shedInFlight` does not show it yet. -/
  | givenBack
  | rejected (why : Shed)
  /-- `Admit` has returned.  `waiting` calls of the release function are at the door of `once`. -/
  | admitted (once : Once) (waiting : Nat)
deriving DecidableEq

/-- The fields of the admitter that are shared. -/
structure Shared where
  /-- An `atomic.Int64`, as long as fewer than 2^63 requests are in flight. -/
  inFlight : Int := 0
  draining : Bool := false
  shedInFlight : Nat := 0
  shedRate : Nat := 0
  admitted : Nat := 0
deriving DecidableEq

/-- The next atomic operation of a request, in the order of the source. -/
inductive Op
  | load
  | rate (ok : Bool)
  | countRate
  | reserve
  | giveBack
  | countShed
  | countAdmitted
  /-- The release function is called, once more. -/
  | release
  | enter
  | decrement
  | finish
  /-- A call of the release function finds that there is nothing to do. -/
  | skip
deriving DecidableEq

/-- The rate of a client is limited. -/
def rated (l : Option Limits) : Bool := l.any fun l => l.rate.isSome

/-- The `n`th request in flight is one too many. -/
def overLimit (l : Option Limits) (n : Int) : Bool :=
  l.any fun l => decide (0 < l.maxInFlight ∧ l.maxInFlight < n)

/-- The request takes a slot before it looks at the limit. -/
def reserve (c : Shared) : Phase × Shared :=
  (.reserved (c.inFlight + 1), { c with inFlight := c.inFlight + 1 })

/-- One operation of a request. -/
def Phase.step (l : Option Limits) (c : Shared) : Phase → Op → Option (Phase × Shared)
  | .idle, .load =>
    if l.isNone then some (.admitted .fresh 0, c)
    else if c.draining then some (.rejected .draining, c)
    else some (.checked, c)
  | .checked, .rate ok =>
    if rated l then some (if ok then .allowed else .throttled, c) else none
  | .throttled, .countRate =>
    some (.rejected (.rate ((l.bind Limits.rate).getD 0)), { c with shedRate := c.shedRate + 1 })
  | .checked, .reserve => if rated l then none else some (reserve c)
  | .allowed, .reserve => some (reserve c)
  | .reserved n, .giveBack =>
    if overLimit l n then some (.givenBack, { c with inFlight := c.inFlight - 1 }) else none
  | .givenBack, .countShed =>
    some (.rejected .inFlight, { c with shedInFlight := c.shedInFlight + 1 })
  | .reserved n, .countAdmitted =>
    if overLimit l n then none
    else some (.admitted .fresh 0, { c with admitted := c.admitted + 1 })
  | .admitted once w, .release => some (.admitted once (w + 1), c)
  | .admitted .fresh (w + 1), .enter => some (.admitted .running w, c)
  -- the release function of a `nil` admitter does nothing
  | .admitted .running w, .decrement =>
    some (.admitted .ran w, if l.isNone then c else { c with inFlight := c.inFlight - 1 })
  | .admitted .ran w, .finish => some (.admitted .done w, c)
  | .admitted .done (w + 1), .skip => some (.admitted .done w, c)
  | _, _ => none

/-! ## Drains, and the system -/

/-- Where a call of `Drain` stands. -/
inductive DrainPhase
  | called
  | polling
  | returned (n : Int)
deriving DecidableEq

/-- The next operation of a drain. -/
inductive DrainOp
  | store
  | poll
  /-- The deadline has passed. -/
  | expire
deriving DecidableEq

/-- One operation of a drain; it ends when the count is zero or the deadline has passed. -/
def DrainPhase.step (l : Option Limits) (c : Shared) : DrainPhase → DrainOp →
    Option (DrainPhase × Shared)
  | .called, .store =>
    if l.isNone then some (.returned 0, c) else some (.polling, { c with draining := true })
  | .polling, .poll => some (if c.inFlight = 0 then .returned 0 else .polling, c)
  | .polling, .expire => some (.returned c.inFlight, c)
  | _, _ => none

/-- The admitter, the requests that have come to it and the drains that were called. -/
structure State where
  shared : Shared := {}
  requests : List Phase := []
  drains : List DrainPhase := []
deriving DecidableEq

/-- Whose turn it is. -/
inductive Action
  | arrive
  | request (r : Nat) (op : Op)
  | callDrain
  | drain (d : Nat) (op : DrainOp)
deriving DecidableEq

/-- One step of the system. -/
def exec (l : Option Limits) (s : State) : Action → Option State
  | .arrive => some { s with requests := s.requests ++ [.idle] }
  | .request r op =>
    match s.requests[r]? with
    | none => none
    | some ph =>
      (ph.step l s.shared op).map fun x =>
        { s with shared := x.2, requests := s.requests.set r x.1 }
  | .callDrain => some { s with drains := s.drains ++ [.called] }
  | .drain d op =>
    match s.drains[d]? with
    | none => none
    | some ph =>
      (ph.step l s.shared op).map fun x => { s with shared := x.2, drains := s.drains.set d x.1 }

/-! ## What an operation does -/

/-- `Admit` has returned with a slot, and the slot has not been given back. -/
def Phase.unreleased : Phase → Bool
  | .admitted .fresh _ => true
  | .admitted .running _ => true
  | _ => false

/-- The request is counted: it has incremented the counter and not yet given the slot back. -/
def Phase.holds : Phase → Bool
  | .reserved _ => true
  | ph => ph.unreleased

/-- The request is counted and not one too many. -/
def Phase.granted (l : Limits) : Phase → Bool
  | .reserved n => !overLimit (some l) n
  | ph => ph.unreleased

/-- The request has seen that the node is not draining, and has not incremented the counter. -/
def Phase.cleared : Phase → Bool
  | .checked => true
  | .allowed => true
  | _ => false

/-- No call of `Admit` or of the release function is in progress. -/
def Phase.quiet : Phase → Bool
  | .idle => true
  | .rejected _ => true
  | .admitted .fresh 0 => true
  | .admitted .done 0 => true
  | _ => false

theorem Phase.holds_of_unreleased {ph : Phase} (h : ph.unreleased = true) : ph.holds = true := by
  cases ph with
  | reserved n => rfl
  | _ => exact h

theorem Phase.granted_of_unreleased {l : Limits} {ph : Phase} (h : ph.unreleased = true) :
    ph.granted l = true := by
  cases ph with
  | reserved n => cases h
  | _ => exact h

theorem Phase.holds_of_granted {l : Limits} {ph : Phase} (h : ph.granted l = true) :
    ph.holds = true := by
  cases ph with
  | reserved n => rfl
  | _ => exact h

theorem Phase.holds_of_cleared {ph : Phase} (h : ph.cleared = true) : ph.holds = false := by
  cases ph with
  | checked => rfl
  | allowed => rfl
  | _ => cases h

theorem Phase.holds_eq_unreleased {ph : Phase} (h : ph.quiet = true) :
    ph.holds = ph.unreleased := by
  cases ph with
  | reserved n => cases h
  | _ => rfl

/-- An operation of an admitter that is not `nil` keeps the request's slot as it is, takes one or
gives it back. -/
structure Effect (l : Limits) (c : Shared) (ph : Phase) (c' : Shared) (ph' : Phase) : Prop where
  draining : c'.draining = c.draining
  cleared : ph'.cleared = true → ph.cleared = true ∨ c.draining = false
  slot : (ph'.holds = ph.holds ∧ c'.inFlight = c.inFlight ∧
      (ph'.granted l = true → ph.granted l = true)) ∨
    (ph.cleared = true ∧ ph' = .reserved (c.inFlight + 1) ∧ c'.inFlight = c.inFlight + 1) ∨
    (ph.holds = true ∧ ph'.holds = false ∧ c'.inFlight = c.inFlight - 1)

theorem Phase.step_effect {l : Limits} {c c' : Shared} {ph ph' : Phase} {op : Op}
    (h : ph.step (some l) c op = some (ph', c')) : Effect l c ph c' ph' := by
  -- all but the look at the flag and the rate limiter end outside of the cleared phases
  have other {c₁ : Shared} {ph₁ : Phase} (hd : c₁.draining = c.draining)
      (hc : ph₁.cleared = false) (hs : (ph₁.holds = ph.holds ∧ c₁.inFlight = c.inFlight ∧
          (ph₁.granted l = true → ph.granted l = true)) ∨
        (ph.cleared = true ∧ ph₁ = .reserved (c.inFlight + 1) ∧ c₁.inFlight = c.inFlight + 1) ∨
        (ph.holds = true ∧ ph₁.holds = false ∧ c₁.inFlight = c.inFlight - 1)) :
      Effect l c ph c₁ ph₁ :=
    ⟨hd, fun h => Bool.noConfusion (hc.symm.trans h), hs⟩
  unfold step at h
  split at h
  · rw [if_neg (by simp)] at h
    split at h <;> cases h
    · exact other rfl rfl (.inl ⟨rfl, rfl, id⟩)
    · exact ⟨rfl, fun _ => .inr (by simpa using ‹¬ c.draining = true›), .inl ⟨rfl, rfl, id⟩⟩
  · split at h <;> cases h
    split
    · exact ⟨rfl, fun _ => .inl rfl, .inl ⟨rfl, rfl, id⟩⟩
    · exact other rfl rfl (.inl ⟨rfl, rfl, id⟩)
  · cases h
    exact other rfl rfl (.inl ⟨rfl, rfl, id⟩)
  · split at h <;> cases h
    exact other rfl rfl (.inr (.inl ⟨rfl, rfl, rfl⟩))
  · cases h
    exact other rfl rfl (.inr (.inl ⟨rfl, rfl, rfl⟩))
  · split at h <;> cases h
    exact other rfl rfl (.inr (.inr ⟨rfl, rfl, rfl⟩))
  · cases h
    exact other rfl rfl (.inl ⟨rfl, rfl, id⟩)
  · -- the bound is checked against the value seen at the increment
    split at h <;> cases h
    next hover => exact other rfl rfl (.inl ⟨rfl, rfl, fun _ => by simpa [granted] using hover⟩)
  · next once w =>
    cases h
    cases once <;> exact other rfl rfl (.inl ⟨rfl, rfl, id⟩)
  · cases h
    exact other rfl rfl (.inl ⟨rfl, rfl, id⟩)
  · cases h
    exact other rfl rfl (.inr (.inr ⟨rfl, rfl, rfl⟩))
  · cases h
    exact other rfl rfl (.inl ⟨rfl, rfl, id⟩)
  · cases h
    exact other rfl rfl (.inl ⟨rfl, rfl, id⟩)
  · cases h

theorem DrainPhase.step_cases {l : Option Limits} {c c' : Shared} {ph ph' : DrainPhase}
    {op : DrainOp} (h : ph.step l c op = some (ph', c')) :
    (ph = .called ∧ l = none ∧ ph' = .returned 0 ∧ c' = c) ∨
      (ph = .called ∧ l ≠ none ∧ ph' = .polling ∧ c' = { c with draining := true }) ∨
      (ph = .polling ∧ (ph' = .polling ∨ ph' = .returned c.inFlight) ∧ c' = c) := by
  unfold step at h
  split at h
  · split at h <;> cases h
    next hl => exact .inl ⟨rfl, by simpa using hl, rfl, rfl⟩
    next hl => exact .inr (.inl ⟨rfl, by simpa using hl, rfl, rfl⟩)
  · cases h
    refine .inr (.inr ⟨rfl, ?_, rfl⟩)
    split
    next hzero => exact .inr (by rw [hzero])
    next => exact .inl rfl
  · cases h
    exact .inr (.inr ⟨rfl, .inr rfl, rfl⟩)
  · cases h

section Exec

variable {l : Option Limits} {s s' : State} {a : Action}

theorem exec_cases (h : exec l s a = some s') :
    s' = { s with requests := s.requests ++ [.idle] } ∨
      (∃ r op ph ph' c', s.requests[r]? = some ph ∧ ph.step l s.shared op = some (ph', c') ∧
        s' = { s with shared := c', requests := s.requests.set r ph' }) ∨
      s' = { s with drains := s.drains ++ [.called] } ∨
      (∃ d op ph ph' c', s.drains[d]? = some ph ∧ ph.step l s.shared op = some (ph', c') ∧
        s' = { s with shared := c', drains := s.drains.set d ph' }) := by
  cases a with
  | arrive => exact .inl (Option.some.inj h).symm
  | callDrain => exact .inr (.inr (.inl (Option.some.inj h).symm))
  | request r op =>
    simp only [exec] at h
    split at h
    next => cases h
    next ph hph =>
      obtain ⟨⟨ph', c'⟩, hstep, rfl⟩ := Option.map_eq_some_iff.1 h
      exact .inr (.inl ⟨r, op, ph, ph', c', hph, hstep, rfl⟩)
  | drain d op =>
    simp only [exec] at h
    split at h
    next => cases h
    next ph hph =>
      obtain ⟨⟨ph', c'⟩, hstep, rfl⟩ := Option.map_eq_some_iff.1 h
      exact .inr (.inr (.inr ⟨d, op, ph, ph', c', hph, hstep, rfl⟩))

/-- A new request may come, or one may take a step; when a call of `Drain` moves they stay. -/
theorem exec_requests (h : exec l s a = some s') :
    (s'.requests = s.requests ++ [.idle] ∧ s'.shared = s.shared) ∨
      (∃ r op ph ph', s.requests[r]? = some ph ∧ ph.step l s.shared op = some (ph', s'.shared) ∧
        s'.requests = s.requests.set r ph') ∨
      (s'.requests = s.requests ∧ s'.shared.inFlight = s.shared.inFlight ∧
        (s.shared.draining = true → s'.shared.draining = true)) := by
  rcases exec_cases h with rfl | ⟨r, op, ph, ph', c', hph, hstep, rfl⟩ | rfl |
    ⟨d, op, ph, ph', c', -, hstep, rfl⟩
  · exact .inl ⟨rfl, rfl⟩
  · exact .inr (.inl ⟨r, op, ph, ph', hph, hstep, rfl⟩)
  · exact .inr (.inr ⟨rfl, rfl, id⟩)
  · right; right
    rcases DrainPhase.step_cases hstep with ⟨-, -, -, rfl⟩ | ⟨-, -, -, rfl⟩ | ⟨-, -, rfl⟩
    · exact ⟨rfl, rfl, id⟩
    · exact ⟨rfl, rfl, fun _ => rfl⟩
    · exact ⟨rfl, rfl, id⟩

end Exec

/-! ## The in-flight bound -/

section Bound

variable {l : Limits} {s s' : State} {a : Action}

theorem countP_set_add {α : Type} (p : α → Bool) {xs : List α} {i : Nat} {x : α}
    (h : xs[i]? = some x) (y : α) :
    (xs.set i y).countP p + (p x).toNat = xs.countP p + (p y).toNat := by
  obtain ⟨hi, rfl⟩ := List.getElem?_eq_some_iff.1 h
  rw [List.countP_set hi]
  cases hx : p xs[i] with
  | false => cases p y <;> simp
  | true =>
    have hpos := List.countP_pos_iff.2 ⟨_, List.getElem_mem hi, hx⟩
    cases p y <;> simp <;> omega

/-- The counter counts the slots that are taken. -/
def Counts (s : State) : Prop := s.shared.inFlight = s.requests.countP Phase.holds

theorem Counts.exec (hi : Counts s) (h : Admitter.exec (some l) s a = some s') : Counts s' := by
  unfold Counts at *
  rcases exec_requests h with ⟨hreq, hsh⟩ | ⟨r, op, ph, ph', hph, hstep, hreq⟩ | ⟨hreq, hsh, -⟩
  · rw [hreq, hsh, List.countP_append, hi]
    rfl
  · have hset := countP_set_add Phase.holds hph ph'
    rw [← hreq] at hset
    rcases (Phase.step_effect hstep).slot with
      ⟨hh, hsame, -⟩ | ⟨hcl, rfl, hinc⟩ | ⟨hh, hh', hdec⟩
    · rw [hh] at hset
      omega
    · have hheld : Phase.holds (.reserved (s.shared.inFlight + 1)) = true := rfl
      simp only [Phase.holds_of_cleared hcl, hheld, Bool.toNat_true, Bool.toNat_false] at hset
      omega
    · simp only [hh, hh', Bool.toNat_true, Bool.toNat_false] at hset
      omega
  · rw [hreq, hsh, hi]

/-- The requests that hold a slot and are not one too many are within the limit. -/
def Within (l : Limits) (s : State) : Prop :=
  ((s.requests.countP (Phase.granted l) : Nat) : Int) ≤ l.maxInFlight

/-- The counter after an increment is the number of slots taken, so a request that sees a value
within the limit is not one too many. -/
theorem Within.exec (hM : 0 < l.maxInFlight) (hg : Within l s) (hi : Counts s)
    (h : Admitter.exec (some l) s a = some s') : Within l s' := by
  have hi' : s'.shared.inFlight = s'.requests.countP Phase.holds := hi.exec h
  unfold Within at *
  rcases exec_requests h with ⟨hreq, -⟩ | ⟨r, op, ph, ph', hph, hstep, hreq⟩ | ⟨hreq, -⟩
  · rw [hreq, List.countP_append]
    exact hg
  · have hset := countP_set_add (Phase.granted l) hph ph'
    rw [← hreq] at hset
    cases hgr : ph'.granted l with
    | false =>
      simp only [hgr, Bool.toNat_false] at hset
      omega
    | true =>
      rcases (Phase.step_effect hstep).slot with
        ⟨-, -, hgrant⟩ | ⟨-, rfl, hinc⟩ | ⟨-, hh', -⟩
      · simp only [hgr, hgrant hgr] at hset
        omega
      · have hle : s'.requests.countP (Phase.granted l) ≤ s'.requests.countP Phase.holds :=
          List.countP_mono_left fun ph _ hgr => Phase.holds_of_granted hgr
        have hunder : s.shared.inFlight + 1 ≤ l.maxInFlight := by
          simpa [Phase.granted, overLimit, hM] using hgr
        omega
      · rw [Phase.holds_of_granted hgr] at hh'
        cases hh'
  · rw [hreq]
    exact hg

theorem counts_of_run {as : List Action}
    (h : execAll (Admitter.exec (some l)) {} as = some s) : Counts s :=
  (run_of_execAll h).invariant (fun _ _ _ hs hc => hc.exec hs) rfl

theorem within_of_run (hM : 0 < l.maxInFlight) {as : List Action}
    (h : execAll (Admitter.exec (some l)) {} as = some s) : Within l s :=
  ((run_of_execAll h).invariant (P := fun s => Counts s ∧ Within l s)
    (fun _ _ _ hs hc => ⟨hc.1.exec hs, hc.2.exec hM hc.1 hs⟩) ⟨rfl, Int.le_of_lt hM⟩).2

/-- **The in-flight bound.**  In every interleaving, with any number of calls of each release
function, at most `maxInFlight` requests are admitted and not released, the counter is not negative,
and it is their number whenever no call is in progress. -/
theorem inFlight_bounded (hM : 0 < l.maxInFlight) {as : List Action}
    (h : execAll (Admitter.exec (some l)) {} as = some s) :
    ((s.requests.countP Phase.unreleased : Nat) : Int) ≤ l.maxInFlight ∧
      0 ≤ s.shared.inFlight ∧
      ((∀ ph ∈ s.requests, ph.quiet = true) →
        s.shared.inFlight = s.requests.countP Phase.unreleased) := by
  have hi : s.shared.inFlight = _ := counts_of_run h
  have hg : (_ : Int) ≤ _ := within_of_run hM h
  have hle : s.requests.countP Phase.unreleased ≤ s.requests.countP (Phase.granted l) :=
    List.countP_mono_left fun ph _ hu => Phase.granted_of_unreleased hu
  refine ⟨by omega, by omega, fun hquiet => ?_⟩
  rw [hi, List.countP_congr fun ph hph => by rw [Phase.holds_eq_unreleased (hquiet ph hph)]]

/-- A limit of one: the second request is turned away while the first is in flight, and the first
is released twice. -/
theorem inFlight_bounded_one :
    ∃ s, execAll (Admitter.exec (some { maxInFlight := 1 })) {}
        [.arrive, .arrive, .request 0 .load, .request 1 .load, .request 0 .reserve,
          .request 1 .reserve, .request 0 .countAdmitted, .request 1 .giveBack,
          .request 1 .countShed, .request 0 .release, .request 0 .release, .request 0 .enter,
          .request 0 .decrement, .request 0 .finish, .request 0 .skip] = some s ∧
      s.requests = [.admitted .done 0, .rejected .inFlight] ∧
      ((s.requests.countP Phase.unreleased : Nat) : Int) ≤ 1 ∧ 0 ≤ s.shared.inFlight ∧
      ((∀ ph ∈ s.requests, ph.quiet = true) →
        s.shared.inFlight = s.requests.countP Phase.unreleased) := by
  refine ⟨{ shared := { shedInFlight := 1, admitted := 1 },
            requests := [.admitted .done 0, .rejected .inFlight] }, ?_⟩
  refine (and_iff_left_of_imp fun hrun => ⟨rfl, ?_⟩).2 (by decide)
  exact inFlight_bounded (l := { maxInFlight := 1 }) (by decide) hrun

end Bound

/-! ## Draining -/

section Drain

variable {l : Option Limits} {s s' : State} {a : Action}

/-- Nothing holds a slot, and nothing will: every request that has not looked at the draining flag
will find it set. -/
structure Settled (s : State) : Prop where
  draining : s.shared.draining = true
  requests : ∀ ph ∈ s.requests, ph.holds = false ∧ ph.cleared = false

theorem Settled.exec {l : Limits} (hs : Settled s) (h : Admitter.exec (some l) s a = some s') :
    Settled s' := by
  obtain ⟨hd, hr⟩ := hs
  rcases exec_requests h with ⟨hreq, hsh⟩ | ⟨r, op, ph, ph', hph, hstep, hreq⟩ | ⟨hreq, -, hsh⟩
  · refine ⟨by rw [hsh]; exact hd, fun ph hph => ?_⟩
    rw [hreq] at hph
    rcases List.mem_append.1 hph with hph | hph
    · exact hr ph hph
    · rw [List.mem_singleton.1 hph]
      exact ⟨rfl, rfl⟩
  · have he := Phase.step_effect hstep
    obtain ⟨hholds, hcleared⟩ := hr ph (List.mem_of_getElem? hph)
    refine ⟨he.draining.trans hd, fun x hx => ?_⟩
    rw [hreq] at hx
    rcases List.mem_or_eq_of_mem_set hx with hx | rfl
    · exact hr x hx
    · constructor
      · rcases he.slot with ⟨hh, -⟩ | ⟨hc, -⟩ | ⟨-, hh, -⟩
        · exact hh.trans hholds
        · rw [hcleared] at hc
          cases hc
        · exact hh
      · by_contra hc
        rcases he.cleared (by simpa using hc) with hc | hnd
        · rw [hcleared] at hc
          cases hc
        · rw [hd] at hnd
          cases hnd
  · exact ⟨hsh hd, by rw [hreq]; exact hr⟩

/-- A call of `Drain` that has begun has set the flag. -/
def Flagged (s : State) : Prop := ∀ d ∈ s.drains, d ≠ .called → s.shared.draining = true

theorem Flagged.exec {l : Limits} (hf : Flagged s) (h : Admitter.exec (some l) s a = some s') :
    Flagged s' := by
  rcases exec_cases h with rfl | ⟨r, op, ph, ph', c', hph, hstep, rfl⟩ | rfl |
    ⟨d, op, ph, ph', c', hph, hstep, rfl⟩
  · exact hf
  · intro d hd hne
    exact (Phase.step_effect hstep).draining.trans (hf d hd hne)
  · intro d hd hne
    rcases List.mem_append.1 hd with hd | hd
    · exact hf d hd hne
    · exact absurd (List.mem_singleton.1 hd) hne
  · intro x hx hne
    rcases DrainPhase.step_cases hstep with ⟨-, hnil, -⟩ | ⟨-, -, -, rfl⟩ | ⟨rfl, -, rfl⟩
    · cases hnil
    · rfl
    · exact hf _ (List.mem_of_getElem? hph) (by decide)

theorem flagged_of_run {l : Limits} {as : List Action}
    (h : execAll (Admitter.exec (some l)) {} as = some s) : Flagged s :=
  (run_of_execAll h).invariant (fun _ _ _ hs hf => hf.exec hs) (List.forall_mem_nil _)

theorem drain_returns_zero {d : Nat} (h : Admitter.exec l s a = some s')
    (hbefore : s.drains[d]? ≠ some (.returned 0)) (hzero : s'.drains[d]? = some (.returned 0)) :
    s'.requests = s.requests ∧ (l = none ∨
      s.shared.inFlight = 0 ∧ s'.shared = s.shared ∧ DrainPhase.polling ∈ s.drains) := by
  rcases exec_cases h with rfl | ⟨r, op, ph, ph', c', -, -, rfl⟩ | rfl |
    ⟨d', op, ph, ph', c', hph, hstep, rfl⟩
  · exact absurd hzero hbefore
  · exact absurd hzero hbefore
  · rcases Nat.lt_or_ge d s.drains.length with hlt | hge
    · rw [List.getElem?_append_left hlt] at hzero
      exact absurd hzero hbefore
    · rw [List.getElem?_append_right hge] at hzero
      have hmem := List.mem_singleton.1 (List.mem_of_getElem? hzero)
      cases hmem
  · refine ⟨rfl, ?_⟩
    by_cases hd : d' = d
    · subst hd
      have hlt := (List.getElem?_eq_some_iff.1 hph).1
      rw [List.getElem?_set_self hlt] at hzero
      have hret := Option.some.inj hzero
      rcases DrainPhase.step_cases hstep with ⟨-, hnil, -⟩ | ⟨-, -, rfl, -⟩ | ⟨rfl, hor, rfl⟩
      · exact .inl hnil
      · cases hret
      · refine .inr ⟨?_, rfl, List.mem_of_getElem? hph⟩
        rcases hor with rfl | rfl
        · cases hret
        · exact DrainPhase.returned.inj hret
    · rw [List.getElem?_set_ne hd] at hzero
      exact absurd hzero hbefore

theorem exec_request {r : Nat} {op : Op} {ph ph' : Phase} {c' : Shared}
    (hph : s.requests[r]? = some ph) (hstep : ph.step l s.shared op = some (ph', c')) :
    Admitter.exec l s (.request r op) =
      some { s with shared := c', requests := s.requests.set r ph' } := by
  simp only [Admitter.exec, hph, hstep, Option.map_some]

/-- A request about to increment a counter that stands at zero can be admitted. -/
theorem admits_of_reserve {l : Limits} {r : Nat} {ph : Phase} (hzero : s.shared.inFlight = 0)
    (hph : s.requests[r]? = some ph)
    (hstep : ph.step (some l) s.shared .reserve = some (reserve s.shared)) :
    ∃ bs s'', execAll (Admitter.exec (some l)) s bs = some s'' ∧
      ∃ ph ∈ s''.requests, ph.unreleased = true := by
  have hlt := (List.getElem?_eq_some_iff.1 hph).1
  have hone : overLimit (some l) (s.shared.inFlight + 1) = false := by
    simp only [overLimit, Option.any_some, decide_eq_false_iff_not, hzero]
    omega
  have hreserve := execAll_concat
    (show execAll (Admitter.exec (some l)) s [] = some s from rfl) (exec_request hph hstep)
  have hreserved : Phase.step (some l) (reserve s.shared).2 (reserve s.shared).1 .countAdmitted =
      some (.admitted .fresh 0, { (reserve s.shared).2 with admitted := s.shared.admitted + 1 }) :=
    if_neg (by rw [hone]; decide)
  have hadmitted := execAll_concat hreserve (exec_request (List.getElem?_set_self hlt) hreserved)
  refine ⟨_, _, hadmitted, .admitted .fresh 0, ?_, rfl⟩
  exact List.mem_of_getElem? (List.getElem?_set_self (by simpa using hlt))

theorem admits_of_cleared {l : Limits} {r : Nat} {ph : Phase} (hzero : s.shared.inFlight = 0)
    (hph : s.requests[r]? = some ph) (hcleared : ph.cleared = true) :
    ∃ bs s'', execAll (Admitter.exec (some l)) s bs = some s'' ∧
      ∃ ph ∈ s''.requests, ph.unreleased = true := by
  cases ph with
  | allowed => exact admits_of_reserve hzero hph rfl
  | checked =>
    by_cases hrated : rated (some l) = true
    · -- the rate limiter may let it through
      have hlt := (List.getElem?_eq_some_iff.1 hph).1
      have hrate := exec_request hph (show Phase.step (some l) s.shared .checked (.rate true) =
        some (.allowed, s.shared) from if_pos hrated)
      obtain ⟨bs, s'', hrun, hadm⟩ := admits_of_reserve (l := l)
        (s := { s with requests := s.requests.set r .allowed }) hzero (List.getElem?_set_self hlt)
        rfl
      refine ⟨.request r (.rate true) :: bs, s'', ?_, hadm⟩
      rw [execAll, hrate]
      exact hrun
    · exact admits_of_reserve hzero hph (if_neg hrated)
  | _ => cases hcleared

/-- A `nil` admitter admits whatever comes. -/
theorem admits_of_nil (s : State) :
    ∃ bs s'', execAll (Admitter.exec none) s bs = some s'' ∧
      ∃ ph ∈ s''.requests, ph.unreleased = true := by
  have hnew : (s.requests ++ [Phase.idle])[s.requests.length]? = some .idle := by simp
  have harrive : execAll (Admitter.exec none) s [.arrive] =
      some { s with requests := s.requests ++ [.idle] } := rfl
  have hload := execAll_concat harrive (exec_request hnew
    (show Phase.step none s.shared .idle .load = some (.admitted .fresh 0, s.shared) from rfl))
  refine ⟨_, _, hload, .admitted .fresh 0, ?_, rfl⟩
  exact List.mem_of_getElem? (List.getElem?_set_self (by simp))

/-- **A clean drain.**  When a call of `Drain` returns zero, no request is admitted and unreleased,
then or later, exactly if the admitter is not `nil` and no request stands between its look at the
draining flag and its increment of the counter. -/
theorem drain_final_iff {as : List Action} {d : Nat}
    (h : execAll (Admitter.exec l) {} as = some s) (hs : Admitter.exec l s a = some s')
    (hbefore : s.drains[d]? ≠ some (.returned 0)) (hzero : s'.drains[d]? = some (.returned 0)) :
    (∀ bs s'', execAll (Admitter.exec l) s' bs = some s'' →
        ∀ ph ∈ s''.requests, ph.unreleased = false) ↔
      l ≠ none ∧ ∀ ph ∈ s.requests, ph.cleared = false := by
  obtain ⟨hreq, hor⟩ := drain_returns_zero hs hbefore hzero
  have hfinal {x : Phase} {xs : List Phase} (hno : ∀ ph ∈ xs, ph.unreleased = false)
      (hx : x ∈ xs) (hu : x.unreleased = true) : False :=
    Bool.noConfusion ((hno x hx).symm.trans hu)
  cases l with
  | none =>
    obtain ⟨bs, s'', hrun, ph, hph, hu⟩ := admits_of_nil s'
    exact ⟨fun hall => (hfinal (hall bs s'' hrun) hph hu).elim, fun hne => absurd rfl hne.1⟩
  | some l =>
    rcases hor with hnil | ⟨hread, hshared, hpolling⟩
    · cases hnil
    have hdraining : s'.shared.draining = true := by
      rw [hshared]
      exact flagged_of_run h _ hpolling (by decide)
    constructor
    · intro hall
      refine ⟨Option.some_ne_none l, fun ph hph => ?_⟩
      by_contra hcleared
      obtain ⟨r, hr⟩ := List.mem_iff_getElem?.1 hph
      obtain ⟨bs, s'', hrun, x, hx, hu⟩ := admits_of_cleared (l := l) (s := s')
        (by rw [hshared]; exact hread) (by rw [hreq]; exact hr) (by simpa using hcleared)
      exact hfinal (hall bs s'' hrun) hx hu
    · rintro ⟨-, hcleared⟩ bs s'' hrun ph hph
      have hnone : s.requests.countP Phase.holds = 0 := by
        have hcounts : s.shared.inFlight = _ := counts_of_run h
        omega
      have hsettled : Settled s' := by
        refine ⟨hdraining, fun ph hph => ?_⟩
        rw [hreq] at hph
        exact ⟨by simpa using List.countP_eq_zero.1 hnone ph hph, hcleared ph hph⟩
      have hend := (run_of_execAll hrun).invariant (fun _ _ _ hs hset => hset.exec hs) hsettled
      by_contra hu
      have hholds := Phase.holds_of_unreleased (by simpa using hu)
      rw [(hend.requests ph hph).1] at hholds
      cases hholds

/-- The request looks at the flag, the drain sets it, reads zero and returns, and then the request
is admitted. -/
theorem drain_not_final :
    execAll (Admitter.exec (some {})) {}
        [.arrive, .request 0 .load, .callDrain, .drain 0 .store, .drain 0 .poll,
          .request 0 .reserve, .request 0 .countAdmitted] =
      some { shared := { inFlight := 1, draining := true, admitted := 1 },
             requests := [.admitted .fresh 0], drains := [.returned 0] } ∧
      Phase.unreleased (.admitted .fresh 0) = true := by
  decide

/-- A drain that waits until the one request in flight has been released. -/
theorem drain_final_released :
    ∃ s s', execAll (Admitter.exec (some {})) {}
        [.arrive, .request 0 .load, .request 0 .reserve, .request 0 .countAdmitted, .callDrain,
          .drain 0 .store, .drain 0 .poll, .request 0 .release, .request 0 .enter,
          .request 0 .decrement] = some s ∧
      Admitter.exec (some {}) s (.drain 0 .poll) = some s' ∧
      ∀ bs s'', execAll (Admitter.exec (some {})) s' bs = some s'' →
        ∀ ph ∈ s''.requests, ph.unreleased = false := by
  refine ⟨{ shared := { draining := true, admitted := 1 }, requests := [.admitted .ran 0],
            drains := [.polling] },
    { shared := { draining := true, admitted := 1 }, requests := [.admitted .ran 0],
      drains := [.returned 0] }, ?_⟩
  refine (and_iff_left_of_imp fun hrun => ?_).2 (by decide)
  refine (and_iff_left_of_imp fun hread => ?_).2 (by decide)
  exact (drain_final_iff (d := 0) hrun hread (by decide) (by decide)).2 (by decide)

end Drain

end Admitter
end CoreBank.Rpc
