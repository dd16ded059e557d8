import Mathlib.Data.List.Basic
import Mathlib.Algebra.Ring.Int.Defs
import Mathlib.Algebra.Ring.Nat

/-!
# Slices with bounds

Reading a slice at an index, or cutting one, fails at run time when a bound is out of range.  Here
that failure is `none`, and the bounds are signed integers, so that an index that has become
negative is not mistaken for zero.  A difference of two unsigned 64-bit numbers goes through
`toInt64`, as in a conversion to a signed number.

A program that is shown to yield `some` never leaves its slices.
-/

set_option autoImplicit false

namespace Access

variable {α : Type}

/-- `int(x)` of an unsigned 64-bit number, given by its value before reduction. -/
def toInt64 (x : Int) : Int := x.bmod (2 ^ 64)

theorem toInt64_of_lt {x : Int} (h : 0 ≤ x) (h' : x < 2 ^ 63) : toInt64 x = x := by
  rw [toInt64]
  have hbmod := @Int.bmod_def x (2 ^ 64)
  rw [hbmod]
  split <;> omega

/-- `xs[k]`. -/
def get (xs : List α) (k : Int) : Option α := if 0 ≤ k then xs[k.toNat]? else none

/-- `xs[:k]`. -/
def upTo (xs : List α) (k : Int) : Option (List α) :=
  if 0 ≤ k ∧ k ≤ xs.length then some (xs.take k.toNat) else none

/-- `xs[k:]`. -/
def since (xs : List α) (k : Int) : Option (List α) :=
  if 0 ≤ k ∧ k ≤ xs.length then some (xs.drop k.toNat) else none

/-- `xs[lo:hi]`. -/
def between (xs : List α) (lo hi : Int) : Option (List α) :=
  if 0 ≤ lo ∧ lo ≤ hi ∧ hi ≤ xs.length then some ((xs.take hi.toNat).drop lo.toNat) else none

theorem get_natCast (xs : List α) (k : Nat) : get xs (k : Int) = xs[k]? := by
  rw [get, if_pos (by omega), Int.toNat_natCast]

theorem upTo_natCast {xs : List α} {k : Nat} (h : k ≤ xs.length) :
    upTo xs (k : Int) = some (xs.take k) := by
  rw [upTo, if_pos (by omega), Int.toNat_natCast]

theorem since_natCast {xs : List α} {k : Nat} (h : k ≤ xs.length) :
    since xs (k : Int) = some (xs.drop k) := by
  rw [since, if_pos (by omega), Int.toNat_natCast]

theorem between_natCast {xs : List α} {lo hi : Nat} (h : lo ≤ hi) (h' : hi ≤ xs.length) :
    between xs (lo : Int) (hi : Int) = some ((xs.take hi).drop lo) := by
  rw [between, if_pos (by omega), Int.toNat_natCast, Int.toNat_natCast]

end Access
