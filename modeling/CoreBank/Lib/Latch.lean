import CoreBank.Lib.Wire

/-!
# Readers that latch their error

A decoder can keep its first error to itself: every read after it does nothing and returns a zero
value, and the caller looks at the error once, when everything has been asked for.  Such a `Program`
returns what a `Wire.Reader` would have returned, but may *do* much more: a loop that counts down a
number it has read goes on after the error.

A cursor therefore keeps, for each iteration that was begun, the error of that moment.
`Latches k c r C` says that the program `c` reads what the reader `r` reads, that it does nothing
once there is an error, and that on a given input all its iterations begin before the error exactly
if `C` holds of the input; then there are no more of them than bytes.

## What is here

* `Program`, `take`, `word`, `blob`, `loop`, `counted` — programs;
* `After`, `AllButLast`, `CountFits` — conditions on input;
* `Latches` and its rules; by `latches_counted` a counting loop begins no iteration late exactly if
  at most the last of its elements is missing.
-/

set_option autoImplicit false

namespace Latch

open Wire (Bytes Reader ofLittleEndian)

variable {ε α β : Type}

/-! ## Programs -/

/-- Where a program stands in its input, the error it has latched, and for each iteration that was
begun the error of that moment. -/
structure Cursor (ε : Type) where
  buf : Bytes
  pos : Nat := 0
  err : Option ε := none
  begun : List (Option ε) := []

namespace Cursor

/-- What is still to be read. -/
def rest (s : Cursor ε) : Bytes := s.buf.drop s.pos

/-- One more iteration is begun. -/
def enter (s : Cursor ε) : Cursor ε := { s with begun := s.begun ++ [s.err] }

@[simp] theorem enter_rest (s : Cursor ε) : s.enter.rest = s.rest := rfl

end Cursor

/-- A reader that latches its first error. -/
abbrev Program (ε : Type) := StateM (Cursor ε)

theorem bind_apply (c : Program ε α) (f : α → Program ε β) (s : Cursor ε) :
    (c >>= f) s = f (c s).1 (c s).2 := rfl

/-- The next `n` bytes, or the error if there are fewer. -/
def take (n : Nat) (err : Cursor ε → ε) : Program ε Bytes := fun s =>
  if s.err.isSome then ([], s)
  else if s.buf.length - s.pos < n then ([], { s with err := some (err s) })
  else (s.rest.take n, { s with pos := s.pos + n })

/-- An eight-byte number. -/
def word (err : Cursor ε → ε) : Program ε Nat := ofLittleEndian <$> take 8 err

/-- Bytes, preceded by their number. -/
def blob (err : Cursor ε → ε) (short : Nat → Cursor ε → ε) : Program ε Bytes := do
  let n ← word err
  take n (short n)

/-- A loop that counts down from `n`. -/
def loop (body : Program ε α) : Nat → Program ε (List α)
  | 0 => pure []
  | n + 1 => do
    modify Cursor.enter
    let x ← body
    let xs ← loop body n
    return x :: xs

/-- A loop that counts down from a number it reads. -/
def counted (err : Cursor ε → ε) (body : Program ε α) : Program ε (List α) := do
  let n ← word err
  loop body n

/-- What was read, if there is no error. -/
def unlessErr (c : Program ε α) : Program ε (Option α) := do
  let x ← c
  let s ← get
  return if s.err.isNone then some x else none

/-! ## Conditions on input -/

/-- What the reader leaves satisfies `C`, if it reads at all. -/
def After (r : Reader α) (C : α → Bytes → Prop) (b : Bytes) : Prop :=
  ∀ x rest, r b = some (x, rest) → C x rest

@[simp] theorem after_true (r : Reader α) (b : Bytes) : After r (fun _ _ => True) b :=
  fun _ _ _ => trivial

variable {r : Reader α} {b : Bytes}

theorem after_of_none {C : α → Bytes → Prop} (h : r b = none) :
    After r C b := by
  intro x rest hx
  rw [h] at hx
  cases hx

theorem after_of_some {C : α → Bytes → Prop} {rest : Bytes} {x : α} (h : r b = some (x, rest)) :
    After r C b ↔ C x rest := by
  constructor
  · intro hC
    exact hC x rest h
  · intro hC y rest' hy
    rw [h] at hy
    cases hy
    exact hC

variable {g : α → Reader β}

theorem after_bind {C : β → Bytes → Prop} :
    After (r >>= g) C b ↔ After r (fun x => After (g x) C) b := by
  constructor
  · intro h x rest hx y rest' hy
    exact h y rest' (Option.bind_eq_some_iff.2 ⟨(x, rest), hx, hy⟩)
  · intro h y rest' hy
    obtain ⟨⟨x, rest⟩, hx, hy⟩ := Option.bind_eq_some_iff.1 hy
    exact h x rest hx y rest' hy

/-- There are `n` elements, but the last of them may be missing, where `C` holds. -/
def AllButLast (r : Reader α) (C : Bytes → Prop) : Nat → Bytes → Prop
  | 0, _ => True
  | n + 1, b =>
    match r b with
    | none => n = 0 ∧ C b
    | some (_, rest) => AllButLast r C n rest

variable {C : Bytes → Prop}

theorem allButLast_of_none {n : Nat} (h : r b = none) : AllButLast r C (n + 1) b ↔ n = 0 ∧ C b := by
  rw [AllButLast, h]

theorem allButLast_of_some {n : Nat} {rest : Bytes} {x : α} (h : r b = some (x, rest)) :
    AllButLast r C (n + 1) b ↔ AllButLast r C n rest := by
  rw [AllButLast, h]

/-- The elements that the input counts are there, but the last may be missing, where `C` holds. -/
def CountFits (r : Reader α) (C : Bytes → Prop) : Bytes → Prop := After Wire.word (AllButLast r C)

/-! ## What a program does -/

/-- No iteration was begun after an error. -/
def Timely (t : List (Option ε)) : Prop := ∀ e ∈ t, e = none

theorem timely_append {t u : List (Option ε)} : Timely (t ++ u) ↔ Timely t ∧ Timely u :=
  List.forall_mem_append

theorem timely_nil : Timely ([] : List (Option ε)) := List.forall_mem_nil _

/-- From `s` to `s'` iterations were begun, all of them in time exactly if `C` holds, and then at
most `d`. -/
def Begins (s s' : Cursor ε) (C : Prop) (d : Nat) : Prop :=
  ∃ t, s'.begun = s.begun ++ t ∧ (Timely t ↔ C) ∧ (Timely t → t.length ≤ d)

/-- From `s` to `s'` a program has read on to `rest`.  Its iterations were all begun in time, and it
has read `k` bytes more than there are of them. -/
def ReadsTo (k : Nat) (s s' : Cursor ε) (rest : Bytes) : Prop :=
  s'.err = none ∧ s'.rest = rest ∧
    ∃ d, Begins s s' True d ∧ d + rest.length + k ≤ s.rest.length

/-- From `s` to `s'` a program has run into an error. -/
def Stops (s s' : Cursor ε) (C : Prop) (d : Nat) : Prop := s'.err ≠ none ∧ Begins s s' C d

variable {s s' s'' : Cursor ε} {rest rest' : Bytes} {k l : Nat} {C D : Prop} {d d' : Nat}

theorem Begins.none (h : s'.begun = s.begun) : Begins s s' True 0 :=
  ⟨[], by rw [h, List.append_nil], iff_of_true timely_nil trivial, fun _ => Nat.le_refl 0⟩

theorem Begins.mono (h : Begins s s' C d) (hd : d ≤ d') : Begins s s' C d' := by
  obtain ⟨t, ht, hiff, hlen⟩ := h
  exact ⟨t, ht, hiff, fun htime => (hlen htime).trans hd⟩

theorem Begins.trans (h : Begins s s' True d) (h' : Begins s' s'' C d') :
    Begins s s'' C (d + d') := by
  obtain ⟨t, ht, htime, hlen⟩ := h
  obtain ⟨u, hu, hiff, hulen⟩ := h'
  have htime : Timely t := htime.2 trivial
  refine ⟨t ++ u, by rw [hu, ht, List.append_assoc], ?_, fun hall => ?_⟩
  · rw [timely_append, and_iff_right htime, hiff]
  · rw [List.length_append]
    exact Nat.add_le_add (hlen htime) (hulen (timely_append.1 hall).2)

/-- Before an error an iteration is begun in time. -/
theorem begins_enter (hs : s.err = none) : Begins s s.enter True 1 :=
  ⟨[none], by rw [Cursor.enter, hs], iff_of_true (by simp [Timely]) trivial, fun _ => Nat.le_refl 1⟩

theorem Stops.mono (h : Stops s s' C d) (hd : d ≤ d') : Stops s s' C d' := ⟨h.1, h.2.mono hd⟩

theorem ReadsTo.weaken (h : ReadsTo k s s' rest) (hl : l ≤ k) : ReadsTo l s s' rest := by
  obtain ⟨herr, hrest, d, hd, hlen⟩ := h
  exact ⟨herr, hrest, d, hd, by omega⟩

theorem ReadsTo.trans (h : ReadsTo k s s' rest) (h' : ReadsTo l s' s'' rest') :
    ReadsTo (k + l) s s'' rest' := by
  obtain ⟨-, rfl, d, hd, hlen⟩ := h
  obtain ⟨herr, hrest, d', hd', hlen'⟩ := h'
  exact ⟨herr, hrest, d + d', hd.trans hd', by omega⟩

theorem ReadsTo.stops (h : ReadsTo k s s' rest) (h' : Stops s' s'' C d')
    (hd : d' + s.rest.length ≤ d + rest.length + k) : Stops s s'' C d := by
  obtain ⟨-, -, e, he, hlen⟩ := h
  exact ⟨h'.1, (he.trans h'.2).mono (by omega)⟩

/-- The iteration itself is paid for by one of the bytes it reads. -/
theorem ReadsTo.of_enter (hs : s.err = none) (h : ReadsTo (k + 1) s.enter s' rest) :
    ReadsTo k s s' rest := by
  obtain ⟨herr, hrest, d, hd, hlen⟩ := h
  rw [Cursor.enter_rest] at hlen
  exact ⟨herr, hrest, 1 + d, (begins_enter hs).trans hd, by omega⟩

/-! ## Programs and readers -/

/-- The program reads what the reader reads, and at least `k` bytes besides one for each iteration;
after an error it does nothing; and it begins no iteration after an error exactly if `C` holds of
its input. -/
structure Latches (k : Nat) (c : Program ε α) (r : Reader α) (C : Bytes → Prop) : Prop where
  idle : ∀ s, s.err ≠ none → (c s).2 = s
  reads : ∀ s x rest, s.err = none → r s.rest = some (x, rest) →
    C s.rest ∧ ∃ s', c s = (x, s') ∧ ReadsTo k s s' rest
  fails : ∀ s, s.err = none → r s.rest = none → Stops s (c s).2 (C s.rest) s.rest.length

namespace Latches

variable {c : Program ε α} {r : Reader α} {C D : Bytes → Prop}

theorem congr (h : Latches k c r C) (hC : ∀ b, C b ↔ D b) : Latches k c r D := by
  obtain rfl : C = D := funext fun b => propext (hC b)
  exact h

theorem weaken (h : Latches k c r C) (hl : l ≤ k) : Latches l c r C where
  idle := h.idle
  reads s x rest hs hx := by
    obtain ⟨hC, s', hc, hto⟩ := h.reads s x rest hs hx
    exact ⟨hC, s', hc, hto.weaken hl⟩
  fails := h.fails

theorem pure (x : α) : Latches 0 (pure x : Program ε α) (Pure.pure x) fun _ => True where
  idle _ _ := rfl
  reads s y rest hs hy := by
    cases hy
    exact ⟨trivial, s, rfl, hs, rfl, 0, .none rfl, by omega⟩
  fails s _ hx := by cases hx

/-- One program after another.  What follows an error has to do nothing with the value it is given
then, and may begin as many iterations too many as the first program has bytes to spare. -/
theorem seq {f : α → Program ε β} {D : α → Bytes → Prop} (hc : Latches k c r C)
    (hidle : ∀ s, (c s).2.err ≠ none → (f (c s).1 (c s).2).2 = (c s).2)
    (hreads : ∀ x s y rest, s.err = none → g x s.rest = some (y, rest) →
      D x s.rest ∧ ∃ s', f x s = (y, s') ∧ ReadsTo l s s' rest)
    (hfails : ∀ x s, s.err = none → g x s.rest = none →
      Stops s (f x s).2 (D x s.rest) (s.rest.length + k)) :
    Latches (k + l) (c >>= f) (r >>= g) fun b => C b ∧ After r D b where
  idle s hs := by
    have hfirst : (c s).2 = s := hc.idle s hs
    rw [bind_apply, hidle s (by rwa [hfirst]), hfirst]
  reads s y rest hs hy := by
    obtain ⟨⟨x, mid⟩, hx, hy⟩ := Option.bind_eq_some_iff.1 hy
    obtain ⟨hC, s', hcs, hto⟩ := hc.reads s x mid hs hx
    obtain rfl : s'.rest = mid := hto.2.1
    obtain ⟨hD, s'', hfs, hto'⟩ := hreads x s' y rest hto.1 hy
    refine ⟨⟨hC, (after_of_some hx).2 hD⟩, s'', ?_, hto.trans hto'⟩
    rw [bind_apply, hcs, hfs]
  fails s hs hnone := by
    cases hx : r s.rest with
    | none =>
      have hstop := hc.fails s hs hx
      rw [bind_apply, hidle s hstop.1, and_iff_left (after_of_none hx)]
      exact hstop
    | some p =>
      obtain ⟨x, mid⟩ := p
      obtain ⟨hC, s', hcs, hto⟩ := hc.reads s x mid hs hx
      obtain rfl : s'.rest = mid := hto.2.1
      have hnone' : g x s'.rest = none := by
        have hg : (r s.rest).bind (fun p => g p.1 p.2) = none := hnone
        rwa [hx, Option.bind_some] at hg
      rw [bind_apply, hcs, and_iff_right hC, after_of_some hx]
      exact hto.stops (hfails x s' hto.1 hnone') (by omega)

theorem bind {f : α → Program ε β} {D : α → Bytes → Prop} (hc : Latches k c r C)
    (hf : ∀ x, Latches l (f x) (g x) (D x)) :
    Latches (k + l) (c >>= f) (r >>= g) fun b => C b ∧ After r D b :=
  hc.seq (fun _ hs => (hf _).idle _ hs) (fun x => (hf x).reads)
    fun x s hs hnone => ((hf x).fails s hs hnone).mono (Nat.le_add_right _ k)

theorem map (h : Latches k c r C) (f : α → β) : Latches k (f <$> c) (f <$> r) C :=
  (h.bind fun x => Latches.pure (f x)).congr (by simp)

/-- From the start of its input a program begins no iteration late exactly if the condition holds,
and then no more of them than there are bytes. -/
theorem begun (h : Latches k c r C) (b : Bytes) :
    (Timely (c { buf := b }).2.begun ↔ C b) ∧
      (Timely (c { buf := b }).2.begun → (c { buf := b }).2.begun.length ≤ b.length) := by
  cases hx : r b with
  | none =>
    obtain ⟨-, t, ht, hiff, hlen⟩ := h.fails { buf := b } rfl hx
    rw [ht]
    exact ⟨hiff, hlen⟩
  | some p =>
    obtain ⟨hC, s', hc, -, -, d, ⟨t, ht, hiff, hlen⟩, hd⟩ := h.reads { buf := b } p.1 p.2 rfl hx
    have hle : d ≤ b.length := by
      simp only [Cursor.rest, List.drop_zero] at hd
      omega
    rw [hc, ht]
    exact ⟨hiff.trans (iff_of_true trivial hC), fun htime => (hlen htime).trans hle⟩

theorem unlessErr (h : Latches k c r C) : Latches k (unlessErr c) (some <$> r) C where
  idle s hs := h.idle s hs
  reads s y rest hs hy := by
    obtain ⟨⟨x, mid⟩, hx, hy⟩ := Option.bind_eq_some_iff.1 hy
    cases hy
    obtain ⟨hC, s', hcs, hto⟩ := h.reads s x rest hs hx
    refine ⟨hC, s', ?_, hto⟩
    rw [Latch.unlessErr, bind_apply, hcs]
    show (if s'.err.isNone then some x else none, s') = (some x, s')
    rw [hto.1]
    rfl
  fails s hs hnone := by
    refine h.fails s hs ?_
    cases hx : r s.rest with
    | none => rfl
    | some p =>
      have hmap : (r s.rest).bind (fun p => some (some p.1, p.2)) = none := hnone
      rw [hx] at hmap
      cases hmap

end Latches

/-! ## Rules for the reads -/

theorem latches_take (n : Nat) (err : Cursor ε → ε) :
    Latches n (take n err) (Wire.take n) fun _ => True where
  idle s hs := by rw [take, if_pos (Option.isSome_iff_ne_none.2 hs)]
  reads s x rest hs hx := by
    rw [Wire.take] at hx
    split at hx
    · cases hx
    next hlen =>
      obtain ⟨rfl, rfl⟩ := Prod.mk.inj (Option.some.inj hx)
      have hlong : ¬ s.buf.length - s.pos < n := by rwa [Cursor.rest, List.length_drop] at hlen
      refine ⟨trivial, { s with pos := s.pos + n }, ?_, hs, ?_, 0, .none rfl, ?_⟩
      · rw [take, if_neg (by simp [hs]), if_neg hlong]
      · rw [Cursor.rest, Cursor.rest, List.drop_drop]
      · rw [List.length_drop]
        omega
  fails s hs hnone := by
    rw [Wire.take] at hnone
    split at hnone
    next hlen =>
      have hshort : s.buf.length - s.pos < n := by rwa [Cursor.rest, List.length_drop] at hlen
      rw [take, if_neg (by simp [hs]), if_pos hshort]
      exact ⟨Option.some_ne_none _, (Begins.none rfl).mono (Nat.zero_le _)⟩
    · cases hnone

theorem latches_word (err : Cursor ε → ε) : Latches 8 (word err) Wire.word fun _ => True :=
  (latches_take 8 err).map ofLittleEndian

theorem latches_blob (err : Cursor ε → ε) (short : Nat → Cursor ε → ε) :
    Latches 8 (blob err short) Wire.blob fun _ => True :=
  ((latches_word err).bind fun n => (latches_take n (short n)).weaken (Nat.zero_le n)).congr
    (by simp)

/-! ## Counting loops -/

theorem word_of_err (err : Cursor ε → ε) (hs : (word err s).2.err ≠ none) : (word err s).1 = 0 := by
  have hword : word err s = (ofLittleEndian (take 8 err s).1, (take 8 err s).2) := rfl
  rw [hword] at hs ⊢
  dsimp only at hs ⊢
  rw [take] at hs ⊢
  split at hs
  next h => rw [if_pos h]; rfl
  next h =>
    rw [if_neg h]
    split at hs
    next h8 => rw [if_pos h8]; rfl
    · exact absurd (by simpa using h) hs

variable {body : Program ε α} {r : Reader α} {C : Bytes → Prop}

theorem loop_succ (body : Program ε α) (n : Nat) (s : Cursor ε) :
    loop body (n + 1) s = ((body s.enter).1 :: (loop body n (body s.enter).2).1,
      (loop body n (body s.enter).2).2) := rfl

/-- After an error a loop still counts down. -/
theorem loop_of_err (h : Latches k body r C) (n : Nat) (hs : s.err ≠ none) :
    (loop body n s).2 = { s with begun := s.begun ++ List.replicate n s.err } := by
  induction n generalizing s with
  | zero => exact congrArg (fun t => { s with begun := t }) (List.append_nil s.begun).symm
  | succ n ih =>
    have hbody : (body s.enter).2 = s.enter := h.idle s.enter hs
    rw [loop_succ, hbody, ih (show s.enter.err ≠ none from hs)]
    simp [Cursor.enter, List.replicate_succ]

theorem loop_reads (h : Latches (k + 1) body r C) (n : Nat) {xs : List α} (hs : s.err = none)
    (hxs : Wire.replicate r n s.rest = some (xs, rest)) :
    AllButLast r C n s.rest ∧ ∃ s', loop body n s = (xs, s') ∧ ReadsTo 0 s s' rest := by
  induction n generalizing s xs with
  | zero =>
    obtain ⟨-, hto⟩ := (Latches.pure ([] : List α)).reads s xs rest hs hxs
    exact ⟨trivial, hto⟩
  | succ n ih =>
    obtain ⟨⟨x, mid⟩, hx, hrest⟩ := Option.bind_eq_some_iff.1 hxs
    obtain ⟨⟨ys, mid'⟩, hys, hxs⟩ := Option.bind_eq_some_iff.1 hrest
    cases hxs
    obtain ⟨-, s', hbody, hto⟩ := h.reads s.enter x mid hs hx
    obtain rfl : s'.rest = mid := hto.2.1
    obtain ⟨hall, s'', hloop, hto'⟩ := ih hto.1 hys
    refine ⟨(allButLast_of_some hx).2 hall, s'', ?_, ?_⟩
    · rw [loop_succ, hbody, hloop]
    · exact (((ReadsTo.of_enter hs hto).trans hto').weaken (Nat.zero_le _))

/-- The failed element is in time; each one after it is late. -/
theorem loop_fails (h : Latches (k + 1) body r C) (n : Nat) (hs : s.err = none)
    (hnone : Wire.replicate r n s.rest = none) :
    Stops s (loop body n s).2 (AllButLast r C n s.rest) (s.rest.length + 1) := by
  induction n generalizing s with
  | zero => cases hnone
  | succ n ih =>
    rw [loop_succ]
    cases hx : r s.rest with
    | none =>
      obtain ⟨herr, hbegins⟩ := h.fails s.enter hs hx
      obtain ⟨t, ht, hiff, hlen⟩ := (begins_enter hs).trans hbegins
      rw [allButLast_of_none hx, loop_of_err h n herr]
      have hlate : Timely (List.replicate n (body s.enter).2.err) ↔ n = 0 := by
        simp [Timely, List.mem_replicate, herr]
      refine ⟨herr, t ++ List.replicate n (body s.enter).2.err, ?_, ?_, ?_⟩
      · rw [ht, List.append_assoc]
      · rw [timely_append, hiff, hlate, and_comm]
        rfl
      · intro hall
        obtain ⟨htime, hn⟩ := timely_append.1 hall
        obtain rfl := hlate.1 hn
        simpa [Nat.add_comm] using hlen htime
    | some p =>
      obtain ⟨x, mid⟩ := p
      obtain ⟨-, s', hbody, hto⟩ := h.reads s.enter x mid hs hx
      obtain rfl : s'.rest = mid := hto.2.1
      have hnone' : Wire.replicate r n s'.rest = none := by
        have hrep : (r s.rest).bind (fun p => (Wire.replicate r n p.2).bind fun q =>
          some (p.1 :: q.1, q.2)) = none := hnone
        rw [hx, Option.bind_some, Option.bind_eq_none_iff] at hrep
        rw [Option.eq_none_iff_forall_not_mem]
        intro q hq
        cases hrep q hq
      rw [hbody, allButLast_of_some hx]
      exact (ReadsTo.of_enter hs hto).stops (ih hto.1 hnone') (by omega)

/-- **A counting loop.**  It begins no iteration late exactly if at most the last of the elements it
counts is missing. -/
theorem latches_counted (err : Cursor ε → ε) (h : Latches (k + 1) body r C) :
    Latches 8 (counted err body) (Wire.list r) (CountFits r C) := by
  have hidle (s : Cursor ε) (hs : (word err s).2.err ≠ none) :
      (loop body (word err s).1 (word err s).2).2 = (word err s).2 := by
    rw [word_of_err err hs]
    rfl
  have hfails (n : Nat) (s : Cursor ε) (hs : s.err = none)
      (hnone : Wire.replicate r n s.rest = none) :
      Stops s (loop body n s).2 (AllButLast r C n s.rest) (s.rest.length + 8) :=
    (loop_fails h n hs hnone).mono (by omega)
  exact ((latches_word err).seq hidle (fun n s xs rest => loop_reads h n) hfails).congr fun b =>
    and_iff_right trivial

theorem allButLast_map (f : α → β) (r : Reader α) (C : Bytes → Prop) (n : Nat) (b : Bytes) :
    AllButLast (f <$> r) C n b ↔ AllButLast r C n b := by
  induction n generalizing b with
  | zero => exact Iff.rfl
  | succ n ih =>
    have hmap : (f <$> r) b = (r b).bind fun p => some (f p.1, p.2) := rfl
    cases hx : r b with
    | none => rw [allButLast_of_none hx, allButLast_of_none (by rw [hmap, hx]; rfl)]
    | some p =>
      have hx' : (f <$> r) b = some (f p.1, p.2) := by rw [hmap, hx]; rfl
      rw [allButLast_of_some hx, allButLast_of_some hx', ih]

theorem replicate_map (f : α → β) (r : Reader α) (n : Nat) :
    Wire.replicate (f <$> r) n = List.map f <$> Wire.replicate r n := by
  induction n with
  | zero => rfl
  | succ n ih => simp [Wire.replicate, ih]

/-- A loop that keeps what it reads only if there is no error. -/
theorem latches_counted_unlessErr (err : Cursor ε → ε) (h : Latches (k + 1) body r C) :
    Latches 8 (List.filterMap id <$> counted err (unlessErr body)) (Wire.list r)
      (CountFits r C) := by
  have hlist : Wire.list r = List.filterMap id <$> Wire.list (some <$> r) := by
    simp [Wire.list, replicate_map, List.filterMap_map]
  rw [hlist]
  refine ((latches_counted err h.unlessErr).map (List.filterMap id)).congr fun b => ?_
  simp only [CountFits, After, allButLast_map]

end Latch
