import Mathlib.Logic.Function.Basic
import CoreBank.Hlc.Timestamp
import CoreBank.Lib.Run

/-!
# Hybrid logical clocks

A `Clock` remembers the last timestamp it gave out.  `now` stamps a local event, `update` a received
message, and both end with a timestamp whose wall is the largest of the readings they know of, and
whose counter is one past the counters that come with that wall.

* `Clock.increases_iff` — what a clock returns goes up with every call, and past the timestamp a
  call was given, exactly as long as no counter that a call has to step past stands at its last
  value (`Clock.HasRoom`), from which 32 bits go back to zero under the same wall.
* `Fleet.anchored` — clocks that learn of each other's timestamps only through `update` never run
  ahead of the largest reading any of them has taken, nor behind the reading of the call itself.

The physical clock is an argument of each call, and may read anything.
-/

set_option autoImplicit false

namespace CoreBank.Hlc

/-! ## The clock -/

/-- A clock.  The time source of the Go struct is the argument `physical` of the calls. -/
structure Clock where
  last : Timestamp
deriving DecidableEq

/-- `New`: no timestamp has been given out. -/
def Clock.new : Clock := ⟨.zero⟩

/-- `Now`. -/
def Clock.now (c : Clock) (physical : UInt64) : Clock × Timestamp :=
  let last :=
    if physical > c.last.wall then ⟨physical, 0⟩
    else { c.last with logical := c.last.logical + 1 }
  (⟨last⟩, last)

/-- `Update`. -/
def Clock.update (c : Clock) (physical : UInt64) (remote : Timestamp) : Clock × Timestamp :=
  let wall := if c.last.wall > physical then c.last.wall else physical
  let wall := if remote.wall > wall then remote.wall else wall
  let last :=
    if wall = c.last.wall ∧ wall = remote.wall then
      let logical := if remote.logical > c.last.logical then remote.logical else c.last.logical
      { c.last with logical := logical + 1 }
    else if wall = c.last.wall then { c.last with logical := c.last.logical + 1 }
    else if wall = remote.wall then ⟨wall, remote.logical + 1⟩
    else ⟨wall, 0⟩
  (⟨last⟩, last)

/-- A call of the clock, with what the physical clock reads in it. -/
inductive Tick
  | now (physical : UInt64)
  | update (physical : UInt64) (remote : Timestamp)
deriving DecidableEq

/-- What the physical clock reads. -/
def Tick.physical : Tick → UInt64
  | .now physical => physical
  | .update physical _ => physical

/-- The timestamp the call was given. -/
def Tick.remote? : Tick → Option Timestamp
  | .now _ => none
  | .update _ remote => some remote

/-- The call that the tick is. -/
def Clock.tick (c : Clock) : Tick → Clock × Timestamp
  | .now physical => c.now physical
  | .update physical remote => c.update physical remote

theorem Clock.tick_last (c : Clock) (a : Tick) : (c.tick a).1.last = (c.tick a).2 := by
  cases a <;> rfl

theorem toNat_succ (n : UInt32) : (n + 1).toNat = (n.toNat + 1) % 2 ^ 32 := by
  rw [UInt32.toNat_add]
  rfl

theorem Clock.now_wall (c : Clock) (physical : UInt64) :
    (c.now physical).2.wall.toNat = max physical.toNat c.last.wall.toNat := by
  simp only [now, gt_iff_lt, UInt64.lt_iff_toNat_lt]
  split <;> simp only <;> omega

theorem Clock.now_logical (c : Clock) (physical : UInt64) :
    (c.now physical).2.logical.toNat =
      if c.last.wall.toNat < physical.toNat then 0 else (c.last.logical.toNat + 1) % 2 ^ 32 := by
  simp only [now, gt_iff_lt, UInt64.lt_iff_toNat_lt]
  split
  · rfl
  · exact toNat_succ _

theorem Clock.update_wall (c : Clock) (physical : UInt64) (remote : Timestamp) :
    (c.update physical remote).2.wall.toNat =
      max (max physical.toNat c.last.wall.toNat) remote.wall.toNat := by
  simp only [update, gt_iff_lt, UInt64.lt_iff_toNat_lt, ← UInt64.toNat_inj]
  split_ifs <;> simp only <;> omega

/-- The counter `update` settles on: one past those that come with the wall. -/
theorem Clock.update_logical (c : Clock) (physical : UInt64) (remote : Timestamp) :
    (c.update physical remote).2.logical.toNat =
      if physical.toNat ≤ c.last.wall.toNat ∧ c.last.wall.toNat = remote.wall.toNat then
        (max c.last.logical.toNat remote.logical.toNat + 1) % 2 ^ 32
      else if physical.toNat ≤ c.last.wall.toNat ∧ remote.wall.toNat < c.last.wall.toNat then
        (c.last.logical.toNat + 1) % 2 ^ 32
      else if physical.toNat ≤ remote.wall.toNat ∧ c.last.wall.toNat < remote.wall.toNat then
        (remote.logical.toNat + 1) % 2 ^ 32
      else 0 := by
  simp only [update, gt_iff_lt, UInt64.lt_iff_toNat_lt, UInt32.lt_iff_toNat_lt,
    ← UInt64.toNat_inj]
  split_ifs <;> simp only [toNat_succ] <;> first | rfl | omega

/-! ## The counter runs out -/

/-- The last value of a counter. -/
def maxLogical : UInt32 := 4294967295

/-- No counter that the call has to step past stands at its last value.  Those are the counters of
the clock's own last timestamp and of the received one, each when its wall is the one the call
settles on. -/
def Clock.HasRoom (c : Clock) : Tick → Prop
  | .now physical => physical ≤ c.last.wall → c.last.logical ≠ maxLogical
  | .update physical remote =>
    (physical ≤ c.last.wall → remote.wall ≤ c.last.wall → c.last.logical ≠ maxLogical) ∧
      (physical ≤ remote.wall → c.last.wall ≤ remote.wall → remote.logical ≠ maxLogical)

instance (c : Clock) (a : Tick) : Decidable (c.HasRoom a) := by
  unfold Clock.HasRoom
  split <;> infer_instance

theorem ne_maxLogical {n : UInt32} : n ≠ maxLogical ↔ n.toNat + 1 < 2 ^ 32 := by
  have h := n.toNat_lt
  have hmax : maxLogical.toNat + 1 = 2 ^ 32 := rfl
  rw [Ne, ← UInt32.toNat_inj]
  omega

/-- A call goes past the clock's last timestamp and past the one it received exactly if it has
room. -/
theorem Clock.hasRoom_iff (c : Clock) (a : Tick) :
    c.HasRoom a ↔
      c.last.less (c.tick a).2 = true ∧ ∀ remote ∈ a.remote?, remote.less (c.tick a).2 = true := by
  have hlast := c.last.logical.toNat_lt
  cases a with
  | now physical =>
    have hwall := c.now_wall physical
    have hlogical := c.now_logical physical
    have hnone : ∀ remote ∈ (Tick.now physical).remote?, remote.less (c.now physical).2 = true := by
      intro remote h
      cases h
    rw [tick, HasRoom, Timestamp.less_iff, Timestamp.value, Timestamp.value, ne_maxLogical,
      UInt64.le_iff_toNat_le, hwall, hlogical, and_iff_left hnone]
    split <;> omega
  | update physical remote =>
    have hremote := remote.logical.toNat_lt
    have hwall := c.update_wall physical remote
    have hlogical := c.update_logical physical remote
    have hone : (∀ r ∈ (Tick.update physical remote).remote?,
        r.less (c.update physical remote).2 = true) ↔
          remote.less (c.update physical remote).2 = true := by
      simp [Tick.remote?]
    rw [tick, hone, HasRoom, Timestamp.less_iff, Timestamp.less_iff, Timestamp.value,
      Timestamp.value, Timestamp.value, ne_maxLogical, ne_maxLogical]
    simp only [UInt64.le_iff_toNat_le]
    rw [hwall, hlogical]
    split_ifs <;> omega

/-- A fresh clock has no timestamp of its own to step past. -/
theorem Clock.hasRoom_new {a : Tick}
    (h : ∀ remote ∈ a.remote?, remote.less (Clock.new.tick a).2 = true) : Clock.new.HasRoom a := by
  cases a with
  | now physical =>
    intro _
    decide
  | update physical remote =>
    have hremote := Timestamp.less_iff.1 (h remote rfl)
    have hzero : Clock.new.last.value = 0 := rfl
    refine (hasRoom_iff _ _).2 ⟨Timestamp.less_iff.2 ?_, h⟩
    omega

/-! ## What a clock returns over a run of calls -/

/-- The calls one after another, each with the timestamp it returned. -/
def Clock.answers : Clock → List Tick → List (Tick × Timestamp)
  | _, [] => []
  | c, a :: as => (a, (c.tick a).2) :: (c.tick a).1.answers as

/-- Every call of the run has room, in the state it is made in. -/
def Clock.AllRoom : Clock → List Tick → Prop
  | _, [] => True
  | c, a :: as => c.HasRoom a ∧ (c.tick a).1.AllRoom as

/-- Later answers are greater than earlier ones, and an answer is greater than the timestamp its
call was given. -/
structure Increases (l : List (Tick × Timestamp)) : Prop where
  pairwise : l.Pairwise fun x y => x.2.less y.2 = true
  remote : ∀ x ∈ l, ∀ remote ∈ x.1.remote?, remote.less x.2 = true

theorem increases_cons {x : Tick × Timestamp} {l : List (Tick × Timestamp)} :
    Increases (x :: l) ↔ (∀ remote ∈ x.1.remote?, remote.less x.2 = true) ∧
      (∀ y ∈ l, x.2.less y.2 = true) ∧ Increases l := by
  constructor
  · intro h
    have hp := List.pairwise_cons.1 h.pairwise
    exact ⟨h.remote x List.mem_cons_self, hp.1, hp.2, fun y hy => h.remote y (.tail _ hy)⟩
  · rintro ⟨hx, hl, h⟩
    refine ⟨List.pairwise_cons.2 ⟨hl, h.pairwise⟩, fun y hy => ?_⟩
    rcases List.mem_cons.1 hy with rfl | hy
    · exact hx
    · exact h.remote y hy

/-- A clock that has given out its last timestamp goes on from there exactly if every call has
room. -/
theorem Clock.allRoom_iff (c : Clock) (as : List Tick) :
    c.AllRoom as ↔
      (∀ x ∈ c.answers as, c.last.less x.2 = true) ∧ Increases (c.answers as) := by
  induction as generalizing c with
  | nil => simp [AllRoom, answers, Increases.mk]
  | cons a as ih =>
    rw [AllRoom, answers, ih, hasRoom_iff, tick_last, increases_cons]
    constructor
    · rintro ⟨⟨hlast, hremote⟩, habove, h⟩
      refine ⟨fun x hx => ?_, hremote, habove, h⟩
      rcases List.mem_cons.1 hx with rfl | hx
      · exact hlast
      · exact Timestamp.less_trans hlast (habove x hx)
    · rintro ⟨hlast, hremote, habove, h⟩
      exact ⟨⟨hlast _ List.mem_cons_self, hremote⟩, habove, h⟩

/-- **The timestamps of a clock go up** with every call, and past the timestamp a call was given,
exactly if every call of the run has room. -/
theorem Clock.increases_iff (as : List Tick) :
    Increases (Clock.new.answers as) ↔ Clock.new.AllRoom as := by
  cases as with
  | nil => simp [AllRoom, answers, Increases.mk]
  | cons a as =>
    rw [answers, AllRoom, increases_cons, allRoom_iff, tick_last]
    constructor
    · rintro ⟨hremote, habove, h⟩
      exact ⟨hasRoom_new hremote, habove, h⟩
    · rintro ⟨hroom, habove, h⟩
      exact ⟨((hasRoom_iff _ _).1 hroom).2, habove, h⟩

/-- A fresh clock that reads 1000 receives a timestamp whose counter stands at its last value, and
answers with a smaller one.  If the counter stands one before its last value, the answer is greater,
and the next call of `now` goes back behind it. -/
theorem Clock.not_increases_of_maxLogical :
    Clock.new.answers [.update 1000 ⟨5000, 4294967295⟩] =
        [(.update 1000 ⟨5000, 4294967295⟩, ⟨5000, 0⟩)] ∧
      ¬ Increases (Clock.new.answers [.update 1000 ⟨5000, 4294967295⟩]) ∧
      Clock.new.answers [.update 1000 ⟨5000, 4294967294⟩, .now 1000] =
        [(.update 1000 ⟨5000, 4294967294⟩, ⟨5000, 4294967295⟩), (.now 1000, ⟨5000, 0⟩)] ∧
      ¬ Increases (Clock.new.answers [.update 1000 ⟨5000, 4294967294⟩, .now 1000]) := by
  refine ⟨by decide, fun h => ?_, by decide, fun h => ?_⟩
  · have hless := h.remote _ List.mem_cons_self _ rfl
    revert hless
    decide
  · have hless := List.rel_of_pairwise_cons h.pairwise List.mem_cons_self
    revert hless
    decide

/-! ## Clocks that exchange timestamps -/

section Fleet

variable {Id : Type}

/-- A set of clocks, with the readings their calls have taken and the timestamps they have
returned, the latest first. -/
structure Fleet (Id : Type) where
  clocks : Id → Clock
  readings : List UInt64
  returned : List Timestamp

/-- Nothing was sent yet. -/
def Fleet.new : Fleet Id := ⟨fun _ => .new, [], []⟩

/-- A call of one of the clocks.  A timestamp that is received has been returned before, by this
clock or by another. -/
def Fleet.exec [DecidableEq Id] (s : Fleet Id) (e : Id × Tick) : Option (Fleet Id) :=
  if ∀ remote ∈ e.2.remote?, remote ∈ s.returned then
    let r := (s.clocks e.1).tick e.2
    some ⟨Function.update s.clocks e.1 r.1, e.2.physical :: s.readings, r.2 :: s.returned⟩
  else none

/-- The largest physical reading taken so far. -/
def Fleet.maxReading (s : Fleet Id) : Nat := (s.readings.map UInt64.toNat).foldr max 0

/-- No clock and no timestamp is ahead of the largest reading. -/
structure Fleet.Bounded (s : Fleet Id) : Prop where
  clocks : ∀ id, (s.clocks id).last.wall.toNat ≤ s.maxReading
  returned : ∀ t ∈ s.returned, t.wall.toNat ≤ s.maxReading

theorem Fleet.bounded_new : (Fleet.new : Fleet Id).Bounded :=
  ⟨fun _ => Nat.le_refl 0, List.forall_mem_nil _⟩

theorem Clock.tick_wall_le {c : Clock} {a : Tick} {n : Nat} (hphysical : a.physical.toNat ≤ n)
    (hlast : c.last.wall.toNat ≤ n) (hremote : ∀ remote ∈ a.remote?, remote.wall.toNat ≤ n) :
    (c.tick a).2.wall.toNat ≤ n := by
  cases a with
  | now physical =>
    rw [tick, now_wall]
    exact Nat.max_le.2 ⟨hphysical, hlast⟩
  | update physical remote =>
    rw [tick, update_wall]
    exact Nat.max_le.2 ⟨Nat.max_le.2 ⟨hphysical, hlast⟩, hremote remote rfl⟩

theorem Clock.physical_le_tick (c : Clock) (a : Tick) : a.physical ≤ (c.tick a).2.wall := by
  rw [UInt64.le_iff_toNat_le]
  cases a with
  | now physical =>
    rw [tick, now_wall]
    exact Nat.le_max_left _ _
  | update physical remote =>
    rw [tick, update_wall]
    exact Nat.le_trans (Nat.le_max_left _ _) (Nat.le_max_left _ _)

variable [DecidableEq Id] {s s' : Fleet Id} {id : Id} {a : Tick}

section Exec

variable (h : s.exec (id, a) = some s')

include h

theorem Fleet.exec_eq :
    (∀ remote ∈ a.remote?, remote ∈ s.returned) ∧
      s' = ⟨Function.update s.clocks id ((s.clocks id).tick a).1, a.physical :: s.readings,
        ((s.clocks id).tick a).2 :: s.returned⟩ := by
  unfold exec at h
  split at h
  next hremote => exact ⟨hremote, (Option.some.inj h).symm⟩
  next => cases h

theorem Fleet.maxReading_exec : s'.maxReading = max a.physical.toNat s.maxReading := by
  obtain ⟨-, rfl⟩ := exec_eq h
  rfl

/-- The timestamp a call returns is not ahead of the largest reading, that of the call included. -/
theorem Fleet.Bounded.tick (hb : s.Bounded) :
    ((s.clocks id).tick a).2.wall.toNat ≤ s'.maxReading := by
  rw [maxReading_exec h]
  refine Clock.tick_wall_le (Nat.le_max_left _ _)
    (Nat.le_trans (hb.clocks id) (Nat.le_max_right _ _)) fun remote hr => ?_
  exact Nat.le_trans (hb.returned remote ((exec_eq h).1 remote hr)) (Nat.le_max_right _ _)

theorem Fleet.Bounded.exec (hb : s.Bounded) : s'.Bounded := by
  have htick := hb.tick h
  have hmono : s.maxReading ≤ s'.maxReading := maxReading_exec h ▸ Nat.le_max_right _ _
  obtain ⟨-, hs'⟩ := exec_eq h
  have hclocks : s'.clocks = Function.update s.clocks id ((s.clocks id).tick a).1 := by rw [hs']
  have hreturned : s'.returned = ((s.clocks id).tick a).2 :: s.returned := by rw [hs']
  constructor
  · intro id'
    rw [hclocks]
    by_cases hid : id' = id
    · rw [hid, Function.update_self, Clock.tick_last]
      exact htick
    · rw [Function.update_of_ne hid]
      exact Nat.le_trans (hb.clocks id') hmono
  · intro t ht
    rw [hreturned] at ht
    rcases List.mem_cons.1 ht with rfl | ht
    · exact htick
    · exact Nat.le_trans (hb.returned t ht) hmono

end Exec

/-- **Timestamps stay anchored to real time.**  Among clocks that receive only timestamps that one
of them has returned, every call returns a timestamp whose wall is not beyond the largest reading
taken so far, and not behind the reading of the call. -/
theorem Fleet.anchored {events : List (Id × Tick)}
    (h : ActionSystem.execAll Fleet.exec Fleet.new events = some s)
    (hs : s.exec (id, a) = some s') :
    ((s.clocks id).tick a).2.wall.toNat ≤ s'.maxReading ∧
      a.physical ≤ ((s.clocks id).tick a).2.wall := by
  have hb : s.Bounded := by
    refine (ActionSystem.run_of_execAll h).invariant (fun s e s' hs hb => ?_) bounded_new
    obtain ⟨id, a⟩ := e
    exact hb.exec hs
  exact ⟨hb.tick hs, Clock.physical_le_tick _ _⟩

/-- Two clocks.  The one that is ahead stamps an event, and the other receives the stamp. -/
theorem Fleet.anchored_of_received :
    ∃ s s' : Fleet Bool,
      ActionSystem.execAll Fleet.exec Fleet.new [(false, .now 10000)] = some s ∧
      s.exec (true, .update 9000 ⟨10000, 0⟩) = some s' ∧
      ((s.clocks true).tick (.update 9000 ⟨10000, 0⟩)).2 = ⟨10000, 1⟩ ∧
      ((s.clocks true).tick (.update 9000 ⟨10000, 0⟩)).2.wall.toNat ≤ s'.maxReading ∧
      (9000 : UInt64) ≤ ((s.clocks true).tick (.update 9000 ⟨10000, 0⟩)).2.wall := by
  have h := @anchored Bool _ _ _ true (.update 9000 ⟨10000, 0⟩) [(false, .now 10000)] rfl rfl
  exact ⟨_, _, rfl, rfl, by decide, h⟩

end Fleet

end CoreBank.Hlc
