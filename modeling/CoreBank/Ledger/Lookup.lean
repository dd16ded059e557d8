import CoreBank.Ledger.Keys

/-!
# Looking up a result by its request

`Machine` keeps a copy of the results and fingerprints of the ledger, so that a client can be told
what became of its request.  The ledger binds a key to its first request, but the copy is
overwritten by every entry that carries the key, a refused one included.

`Machine.uses` lists the commands of a run that carry a key, with their results.  The copy holds the
last of them (`slot_applyAll`); what `resultFor` is there to report is the first
(`Machine.expected`).  The two agree exactly if the first and the last use are both the request that
is looked up, or neither is (`resultFor_eq_expected_iff`).
-/

set_option autoImplicit false

namespace CoreBank.Ledger

open Hlc Wire

namespace Machine

/-- The machine after the bytes of some entries. -/
def applyAll (m : Machine) (ds : List Bytes) : Machine := ds.foldl (fun m d => (m.apply d).1) m

/-- The commands that the entries decode to, with their results. -/
def trail (m : Machine) : List Bytes → List (Command × Result)
  | [] => []
  | d :: ds =>
    match decode d with
    | .error _ => trail (m.apply d).1 ds
    | .ok c => (c, (m.apply d).2) :: trail (m.apply d).1 ds

/-- The commands that carry the key, with their results. -/
def uses (m : Machine) (key : Str) (ds : List Bytes) : List (Command × Result) :=
  (m.trail ds).filter fun x => x.1.idempotencyKey = key

/-- What a lookup is to report when this is the first use of the key. -/
def expected (first : Option (Command × Result)) (cmd : Command) : Except Str (Option Result) :=
  match first with
  | none => .ok none
  | some (c, r) => if c.SameRequest cmd then .ok (some r) else .error errIdempotencyConflict

variable {m : Machine} {d : Bytes}

theorem apply_of_error {e : Str} (h : decode d = .error e) :
    (m.apply d).1 = m := by
  rw [apply, h]

variable {c : Command}

theorem apply_of_ok (h : decode d = .ok c) :
    m.apply d =
      ({ state := (m.state.apply c).1
         results := m.results.insert c.idempotencyKey (m.state.apply c).2
         fingerprints := m.fingerprints.insert c.idempotencyKey c.fingerprint },
        (m.state.apply c).2) := by
  rw [apply, h]

theorem uses_cons_error {e : Str} (h : decode d = .error e) (key : Str) (ds : List Bytes) :
    m.uses key (d :: ds) = m.uses key ds := by
  rw [uses, trail, h, apply_of_error h, uses]

theorem uses_cons_ne (h : decode d = .ok c) {key : Str} (hk : c.idempotencyKey ≠ key)
    (ds : List Bytes) : m.uses key (d :: ds) = (m.apply d).1.uses key ds := by
  rw [uses, trail, h, uses]
  exact List.filter_cons_of_neg (by simpa using hk)

theorem uses_cons_self (h : decode d = .ok c) {key : Str} (hk : c.idempotencyKey = key)
    (ds : List Bytes) :
    m.uses key (d :: ds) = (c, (m.state.apply c).2) :: (m.apply d).1.uses key ds := by
  rw [uses, trail, h, uses, apply_of_ok h]
  exact List.filter_cons_of_pos (by simpa using hk)

/-- What the machine has of a key: the result and the fingerprint. -/
def slot (m : Machine) (key : Str) : Option Result × Option UInt64 :=
  (m.results.lookup key, m.fingerprints.lookup key)

/-- **The last use of a key is what is kept of it.** -/
theorem slot_applyAll (m : Machine) (key : Str) (ds : List Bytes) :
    (m.applyAll ds).slot key
      = match (m.uses key ds).getLast? with
        | none => m.slot key
        | some x => (some x.2, some x.1.fingerprint) := by
  induction ds generalizing m with
  | nil => rfl
  | cons d ds ih =>
    show ((m.apply d).1.applyAll ds).slot key = _
    rw [ih]
    cases hdec : decode d with
    | error e => rw [uses_cons_error hdec, apply_of_error hdec]
    | ok c =>
      by_cases hk : c.idempotencyKey = key
      · have hslot : (m.apply d).1.slot key = (some (m.state.apply c).2, some c.fingerprint) := by
          rw [apply_of_ok hdec, slot, hk, AList.lookup_insert, AList.lookup_insert]
        rw [uses_cons_self hdec hk, hslot, List.getLast?_cons]
        cases ((m.apply d).1.uses key ds).getLast? <;> rfl
      · have hslot : (m.apply d).1.slot key = m.slot key := by
          rw [apply_of_ok hdec, slot, slot, AList.lookup_insert_ne (Ne.symm hk),
            AList.lookup_insert_ne (Ne.symm hk)]
        rw [uses_cons_ne hdec hk, hslot]

/-- The answer to the request is settled. -/
def Answers (m : Machine) (c : Command) (r : Result) : Prop :=
  Spent m.state c ∧ (m.state.apply c).2 = r

theorem Answers.apply {r : Result} (h : m.Answers c r) (d : Bytes) :
    (m.apply d).1.Answers c r := by
  cases hdec : decode d with
  | error e => rwa [apply_of_error hdec]
  | ok e =>
    rw [apply_of_ok hdec]
    exact ⟨h.1.perform (.apply e), (h.1.answer_after [.apply e]).trans h.2⟩

/-- A request that is settled gets its answer wherever it appears. -/
theorem Answers.of_mem_uses {r : Result} (h : m.Answers c r) {key : Str} {ds : List Bytes}
    {x : Command × Result} (hx : x ∈ m.uses key ds) (hsame : c.SameRequest x.1) : x.2 = r := by
  induction ds generalizing m with
  | nil => cases hx
  | cons d ds ih =>
    cases hdec : decode d with
    | error e =>
      rw [uses_cons_error hdec] at hx
      exact ih h hx
    | ok e =>
      by_cases hk : e.idempotencyKey = key
      · rw [uses_cons_self hdec hk] at hx
        rcases List.mem_cons.1 hx with rfl | hx
        · have hretry := apply_retry m.state hsame
          rw [h.1.apply_fst] at hretry
          exact hretry.trans h.2
        · exact ih (h.apply d) hx
      · rw [uses_cons_ne hdec hk] at hx
        exact ih (h.apply d) hx

theorem result_of_same_as_first {key : Str} {ds : List Bytes} {x y : Command × Result}
    (hx : (m.uses key ds).head? = some x) (hy : y ∈ m.uses key ds) (hsame : x.1.SameRequest y.1) :
    y.2 = x.2 := by
  induction ds generalizing m with
  | nil => cases hx
  | cons d ds ih =>
    cases hdec : decode d with
    | error e =>
      rw [uses_cons_error hdec] at hx hy
      exact ih hx hy
    | ok c =>
      by_cases hk : c.idempotencyKey = key
      · rw [uses_cons_self hdec hk] at hx hy
        obtain rfl := Option.some.inj hx
        rcases List.mem_cons.1 hy with rfl | hy
        · rfl
        · have hanswers : (m.apply d).1.Answers c (m.state.apply c).2 := by
            rw [apply_of_ok hdec]
            exact ⟨spent_apply m.state rfl, apply_retry m.state (.refl c)⟩
          exact hanswers.of_mem_uses hy hsame
      · rw [uses_cons_ne hdec hk] at hx hy
        exact ih hx hy

theorem resultFor_applyAll (ds : List Bytes) (cmd : Command) :
    (applyAll {} ds).resultFor cmd =
      match (uses {} cmd.idempotencyKey ds).getLast? with
      | none => .ok none
      | some x =>
        if x.1.fingerprint ≠ cmd.fingerprint then .error errIdempotencyConflict
        else .ok (some x.2) := by
  have hslot := slot_applyAll {} cmd.idempotencyKey ds
  cases hlast : (uses {} cmd.idempotencyKey ds).getLast? with
  | none =>
    rw [hlast] at hslot
    have hresults : (applyAll {} ds).results.lookup cmd.idempotencyKey = none :=
      congrArg Prod.fst hslot
    rw [resultFor, hresults]
  | some x =>
    rw [hlast] at hslot
    have hresults : (applyAll {} ds).results.lookup cmd.idempotencyKey = some x.2 :=
      congrArg Prod.fst hslot
    have hfingerprints : (applyAll {} ds).fingerprints.lookup cmd.idempotencyKey
        = some x.1.fingerprint := congrArg Prod.snd hslot
    rw [resultFor, hresults, hfingerprints]
    rfl

/-- **A lookup reports the first use of its key** exactly if the first and the last use are both the
request that is looked up, or neither is. -/
theorem resultFor_eq_expected_iff (ds : List Bytes) (cmd : Command)
    (hfp : ∀ x ∈ uses {} cmd.idempotencyKey ds, x.1.fingerprint = cmd.fingerprint →
      x.1.SameRequest cmd) :
    (applyAll {} ds).resultFor cmd = expected (uses {} cmd.idempotencyKey ds).head? cmd
      ↔ ∀ x ∈ (uses {} cmd.idempotencyKey ds).head?,
        ∀ y ∈ (uses {} cmd.idempotencyKey ds).getLast?,
          (x.1.SameRequest cmd ↔ y.1.SameRequest cmd) := by
  rw [resultFor_applyAll]
  cases hlast : (uses {} cmd.idempotencyKey ds).getLast? with
  | none =>
    rw [List.getLast?_eq_none_iff.1 hlast]
    exact iff_of_true rfl fun x hx => by cases hx
  | some y =>
    have hy : y ∈ uses {} cmd.idempotencyKey ds := List.mem_of_getLast? hlast
    obtain ⟨x, hx⟩ := Option.ne_none_iff_exists'.1
      (mt List.head?_eq_none_iff.1 (List.ne_nil_of_mem hy))
    have hlookup : y.1.fingerprint ≠ cmd.fingerprint ↔ ¬ y.1.SameRequest cmd :=
      not_congr ⟨hfp y hy, fingerprint_congr⟩
    have hcond : (∀ x' ∈ some x, ∀ y' ∈ some y, (x'.1.SameRequest cmd ↔ y'.1.SameRequest cmd))
        ↔ (x.1.SameRequest cmd ↔ y.1.SameRequest cmd) := by simp
    rw [hx, hcond]
    dsimp only [expected]
    by_cases hxs : x.1.SameRequest cmd
    · by_cases hys : y.1.SameRequest cmd
      · rw [if_neg (hlookup.not.2 (not_not.2 hys)), if_pos hxs,
          result_of_same_as_first hx hy (hxs.trans hys.symm)]
        exact iff_of_true rfl (iff_of_true hxs hys)
      · rw [if_pos (hlookup.2 hys), if_pos hxs]
        exact iff_of_false (fun h => by cases h) fun h => hys (h.1 hxs)
    · by_cases hys : y.1.SameRequest cmd
      · rw [if_neg (hlookup.not.2 (not_not.2 hys)), if_neg hxs]
        exact iff_of_false (fun h => by cases h) fun h => hxs (h.2 hys)
      · rw [if_pos (hlookup.2 hys), if_neg hxs]
        exact iff_of_true rfl (iff_of_false hxs hys)

/-- Deposits of five, of six and again of five under one key. -/
theorem resultFor_eq_expected_of_retry :
    (applyAll {} [Command.encode ⟨.openAccount, [1], [], [97], 10, .zero⟩,
        Command.encode ⟨.deposit, [2], [], [97], 5, .zero⟩,
        Command.encode ⟨.deposit, [2], [], [97], 6, .zero⟩,
        Command.encode ⟨.deposit, [2], [], [97], 5, .zero⟩]).resultFor
          ⟨.deposit, [2], [], [97], 5, .zero⟩ = .ok (some { ok := true, balance := 15 }) := by
  have h := (resultFor_eq_expected_iff [Command.encode ⟨.openAccount, [1], [], [97], 10, .zero⟩,
    Command.encode ⟨.deposit, [2], [], [97], 5, .zero⟩,
    Command.encode ⟨.deposit, [2], [], [97], 6, .zero⟩,
    Command.encode ⟨.deposit, [2], [], [97], 5, .zero⟩] ⟨.deposit, [2], [], [97], 5, .zero⟩
    (by decide +kernel)).2 (by decide +kernel)
  rw [h]
  decide +kernel

/-- A refused reuse of a key makes the machine forget whose key it was: the request that used it
first is reported as a conflict, and the one that was refused as known. -/
theorem refused_reuse_takes_slot :
    ∃ (ds : List Bytes) (c d : Command),
      (uses {} c.idempotencyKey ds).map Prod.fst = [c, d] ∧ ¬ c.SameRequest d
        ∧ ((uses {} c.idempotencyKey ds).map fun x => x.2.ok) = [true, false]
        ∧ (applyAll {} ds).resultFor c = .error errIdempotencyConflict
        ∧ (applyAll {} ds).resultFor d = .ok (some { err := errIdempotencyConflict }) :=
  ⟨[Command.encode ⟨.openAccount, [1], [], [97], 10, .zero⟩,
      Command.encode ⟨.deposit, [2], [], [97], 5, .zero⟩,
      Command.encode ⟨.deposit, [2], [], [97], 6, .zero⟩],
    ⟨.deposit, [2], [], [97], 5, .zero⟩, ⟨.deposit, [2], [], [97], 6, .zero⟩, by decide +kernel,
    by decide, by decide +kernel, by decide +kernel, by decide +kernel⟩

end Machine
end CoreBank.Ledger
