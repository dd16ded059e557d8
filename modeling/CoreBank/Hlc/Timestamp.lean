import Mathlib.Algebra.Ring.Nat

/-!
# Timestamps

A timestamp is a wall reading in milliseconds with a counter behind it, compared in that order: a
96-bit number (`Timestamp.value`), of which `less` is the order.
-/

set_option autoImplicit false

namespace CoreBank.Hlc

/-- A hybrid logical clock reading. -/
structure Timestamp where
  wall : UInt64
  logical : UInt32
deriving DecidableEq

/-- The zero timestamp means "unstamped". -/
def Timestamp.zero : Timestamp := ⟨0, 0⟩

/-- Whether this is the zero timestamp. -/
def Timestamp.isZero (t : Timestamp) : Bool := t.wall == 0 && t.logical == 0

/-- Walls are compared first, counters only under the same wall. -/
def Timestamp.less (t other : Timestamp) : Bool :=
  if t.wall ≠ other.wall then decide (t.wall < other.wall) else decide (t.logical < other.logical)

/-- The timestamp as one number: the wall above the 32 bits of the counter. -/
def Timestamp.value (t : Timestamp) : Nat := t.wall.toNat * 2 ^ 32 + t.logical.toNat

theorem Timestamp.less_iff {t u : Timestamp} : t.less u = true ↔ t.value < u.value := by
  have ht := t.logical.toNat_lt
  have hu := u.logical.toNat_lt
  rw [less, value, value]
  split
  next hne =>
    have hne' : t.wall.toNat ≠ u.wall.toNat := fun h => hne (UInt64.toNat_inj.1 h)
    rw [decide_eq_true_iff, UInt64.lt_iff_toNat_lt]
    omega
  next heq =>
    have heq' : t.wall = u.wall := by simpa using heq
    rw [decide_eq_true_iff, UInt32.lt_iff_toNat_lt, heq']
    omega

theorem Timestamp.less_trans {t u v : Timestamp} (h : t.less u = true) (h' : u.less v = true) :
    t.less v = true := by
  rw [less_iff] at *
  omega

end CoreBank.Hlc
