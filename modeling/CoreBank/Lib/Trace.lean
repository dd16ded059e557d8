import Mathlib.Control.Monad.Writer

/-!
# Computations that report what they do

A computation in `Traced ω` returns a value and the steps it has reported, in order.  `Computes p`
relates a reporting version of a function to the function itself: the value is the same, and every
step in the report is as `p` asks.  It is proved along the computation.
-/

set_option autoImplicit false

namespace Trace

/-- A computation that reports its steps. -/
abbrev Traced (ω : Type) := Writer (List ω)

variable {ω α β : Type} {x : Traced ω α} {f : α → Traced ω β} {p : ω → Prop}

/-- What is computed. -/
def value (x : Traced ω α) : α := x.run.1

/-- What is reported. -/
def steps (x : Traced ω α) : List ω := x.run.2

/-- The value is `a`, and every reported step satisfies `p`. -/
structure Computes (p : ω → Prop) (x : Traced ω α) (a : α) : Prop where
  value_eq : value x = a
  reports : ∀ o ∈ steps x, p o

theorem computes_pure (a : α) : Computes p (pure a : Traced ω α) a := ⟨rfl, List.forall_mem_nil _⟩

theorem computes_tell {o : ω} (h : p o) : Computes p (tell [o] : Traced ω PUnit) .unit :=
  ⟨rfl, List.forall_mem_singleton.2 h⟩

theorem Computes.bind {a : α} {b : β} (hx : Computes p x a) (hf : Computes p (f a) b) :
    Computes p (x >>= f) b := by
  obtain ⟨rfl, hsteps⟩ := hx
  exact ⟨hf.value_eq, List.forall_mem_append.2 ⟨hsteps, hf.reports⟩⟩

end Trace
