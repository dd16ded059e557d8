import CoreBank.Lib.Wire

/-!
# Go's buffers

`bytes.Buffer`, which panics when its bytes no longer fit in a slice, and `bytes.Reader`, whose
`Read` is content with fewer bytes than it was asked for: it reports an error only at the very end
of the input, and the rest of its buffer stays zero.

So a decoder need not notice that its input was cut off.  A value with the cut inside is completed
with zeros (`UsesUp`), and it is the *next* read that fails, if there is one (`Starves`).
`ReadsBefore.cut` is the rule that moves the cut past a value, and `replicate_cut` the one for a
list: only a cut inside its last element can pass.

## What is here

* `buffer`, `read`, `number` — what is written and read;
* `Starves`, `Exhausts`, `UsesUp` — readers on input that has run out, or will — and their rules;
* `ReadsBefore` — a reader that reads its bytes, provided that something follows;
* `ReadsBefore.cut`, `replicate_cut` — where a cut can pass.
-/

set_option autoImplicit false

namespace Wire

/-- A slice holds fewer bytes than this. -/
def maxSlice : Nat := 2 ^ 63

/-- The bytes of a buffer, if a slice can hold them. -/
def buffer (b : Bytes) : Option Bytes := if b.length < maxSlice then some b else none

variable {α β : Type} {r : Reader α} {f : α → Reader β} {x : α} {b c : Bytes} {n : Nat}

theorem length_of_buffer (h : buffer b = some c) : b = c ∧ b.length < 2 ^ 63 := by
  rw [buffer] at h
  split at h
  next hlt => exact ⟨Option.some.inj h, hlt⟩
  · cases h

/-- `bytes.Reader.Read` into a buffer of `n` zero bytes. -/
def read (n : Nat) : Reader Bytes := fun b =>
  if b = [] then none else some (b.take n ++ List.replicate (n - b.length) 0, b.drop n)

theorem reads_read (h : b.length = n) (hn : 0 < n) : Reads (read n) b b := by
  intro rest
  have hne : b ++ rest ≠ [] := by
    intro he
    rw [List.append_eq_nil_iff] at he
    rw [he.1] at h
    exact absurd h (by simpa using hn.ne)
  have hpad : n - (b ++ rest).length = 0 := by
    rw [List.length_append]
    omega
  rw [read, if_neg hne, hpad, ← h]
  simp

theorem yields_read (n : Nat) : Yields (read n) fun b => b.length = n := by
  intro b x rest hx
  rw [read] at hx
  split at hx
  · cases hx
  · obtain ⟨rfl, -⟩ := Prod.mk.inj (Option.some.inj hx)
    rw [List.length_append, List.length_take, List.length_replicate]
    omega

/-! ## Input that has run out -/

/-- The reader fails without input. -/
def Starves (r : Reader α) : Prop := r [] = none

theorem starves_byte : Starves byte := rfl

theorem starves_read (n : Nat) : Starves (read n) := rfl

theorem Starves.bind (hr : Starves r) (f : α → Reader β) : Starves (r >>= f) := by
  show (r []).bind _ = none
  rw [show r [] = none from hr]
  rfl

theorem Starves.map (hr : Starves r) (f : α → β) : Starves (f <$> r) :=
  hr.bind fun x => pure (f x)

/-- Whatever the reader returns, it leaves nothing of the input. -/
def Exhausts (r : Reader α) (p : Bytes) : Prop := ∀ ⦃x rest⦄, r p = some (x, rest) → rest = []

theorem Starves.exhausts (hr : Starves r) : Exhausts r [] := by
  intro x rest hx
  rw [show r [] = none from hr] at hx
  cases hx

theorem exhausts_pure (x : α) : Exhausts (pure x : Reader α) [] := by
  intro y rest hy
  cases hy
  rfl

theorem exhausts_read {p : Bytes} (h : p.length ≤ n) : Exhausts (read n) p := by
  intro x rest hx
  rw [read] at hx
  split at hx
  · cases hx
  · obtain ⟨-, rfl⟩ := Prod.mk.inj (Option.some.inj hx)
    exact List.drop_eq_nil_of_le h

theorem Exhausts.bind {p : Bytes} (hr : Exhausts r p) (hf : ∀ x, Exhausts (f x) []) :
    Exhausts (r >>= f) p := by
  intro y rest hy
  obtain ⟨⟨x, rest'⟩, hx, hy⟩ := Option.bind_eq_some_iff.1 hy
  obtain rfl := hr hx
  exact hf x hy

theorem Exhausts.map {p : Bytes} (hr : Exhausts r p) (f : α → β) :
    Exhausts (f <$> r) p :=
  hr.bind fun x => exhausts_pure (f x)

/-- After a reader that leaves nothing, one that needs something fails. -/
theorem Exhausts.andThen {p : Bytes} (hr : Exhausts r p) (hf : ∀ x, Starves (f x)) :
    (r >>= f) p = none := by
  show (r p).bind _ = none
  cases hrp : r p with
  | none => rfl
  | some y =>
    show f y.1 y.2 = none
    rw [hr hrp]
    exact hf y.1

/-- Of `b` and of every part of it the reader leaves nothing. -/
def UsesUp (r : Reader α) (b : Bytes) : Prop := ∀ k, k ≤ b.length → Exhausts r (b.take k)

theorem usesUp_byte (x : UInt8) : UsesUp byte [x] := by
  intro k hk y rest hy
  rw [List.length_singleton] at hk
  obtain rfl | rfl : k = 0 ∨ k = 1 := by omega
  · cases hy
  · cases hy
    rfl

theorem usesUp_read (h : b.length = n) : UsesUp (read n) b := by
  intro k _
  exact exhausts_read (by rw [List.length_take]; omega)

theorem usesUp_nil (h : Exhausts r []) : UsesUp r [] := by
  intro k _
  rwa [List.take_nil]

theorem UsesUp.map (hr : UsesUp r b) (f : α → β) : UsesUp (f <$> r) b :=
  fun k hk => (hr k hk).map f

theorem UsesUp.last (hr : UsesUp r b) (f : α → β) :
    UsesUp (r >>= fun x => pure (f x)) b :=
  fun k hk => (hr k hk).bind fun x => exhausts_pure (f x)

/-- The reader reads exactly `b` and returns `x`, provided that something follows. -/
def ReadsBefore (r : Reader α) (b : Bytes) (x : α) : Prop :=
  ∀ c, c ≠ [] → r (b ++ c) = some (x, c)

theorem Reads.before (hr : Reads r b x) : ReadsBefore r b x :=
  fun c _ => hr c

theorem readsBefore_read (h : b.length = n) : ReadsBefore (read n) b b := by
  intro c hc
  rw [read, if_neg (List.append_ne_nil_of_right_ne_nil b hc), List.length_append, ← h,
    Nat.sub_eq_zero_of_le (Nat.le_add_right _ _)]
  simp

theorem ReadsBefore.map (hr : ReadsBefore r b x) (f : α → β) :
    ReadsBefore (f <$> r) b (f x) := by
  intro c hc
  show (r (b ++ c)).bind _ = _
  rw [hr c hc]
  rfl

theorem ReadsBefore.andThen (hr : ReadsBefore r b x) (f : α → Reader β) (hc : c ≠ []) :
    (r >>= f) (b ++ c) = f x c := by
  show (r (b ++ c)).bind _ = _
  rw [hr c hc]
  rfl

theorem ReadsBefore.bind {y : β} (hr : Reads r b x) (hf : ReadsBefore (f x) c y) :
    ReadsBefore (r >>= f) (b ++ c) y := by
  intro rest hrest
  rw [List.append_assoc, hr.andThen]
  exact hf rest hrest

/-- What has to be followed by something is followed by something. -/
theorem ReadsBefore.followed {y : β} (hr : ReadsBefore r b x) (hf : Reads (f x) c y) (hc : c ≠ []) :
    Reads (r >>= f) (b ++ c) y := by
  intro rest
  rw [List.append_assoc, hr.andThen f (List.append_ne_nil_of_left_ne_nil hc rest)]
  exact hf rest

theorem UsesUp.bind (hr : ReadsBefore r b x) (hb : UsesUp r b) (hnil : ∀ y, Exhausts (f y) [])
    (hc : UsesUp (f x) c) :
    UsesUp (r >>= f) (b ++ c) := by
  intro k hk
  rcases Nat.lt_or_ge b.length k with hlt | hle
  · rw [List.length_append] at hk
    have hne : c.take (k - b.length) ≠ [] := by
      rw [Ne, List.take_eq_nil_iff]
      rintro (h0 | rfl)
      · omega
      · rw [List.length_nil] at hk
        omega
    rw [List.take_append, List.take_of_length_le hlt.le]
    intro y rest hy
    rw [hr.andThen f hne] at hy
    exact hc _ (by omega) hy
  · rw [List.take_append_of_le_length hle]
    exact (hb k hle).bind hnil

/-- **A cut is moved past a value**: inside it, or right after it, the next reader runs out of
input. -/
theorem ReadsBefore.cut (hr : ReadsBefore r b x) (hb : UsesUp r b) (hf : ∀ y, Starves (f y))
    (c : Bytes) (k : Nat) :
    (r >>= f) ((b ++ c).take k) = f x (c.take (k - b.length)) := by
  by_cases hc : c.take (k - b.length) = []
  · have htake : (b ++ c).take k = b.take (min k b.length) := by
      rw [List.take_append, hc, List.append_nil, List.take_eq_take_min]
    rw [hc, htake, show f x [] = none from hf x]
    exact (hb _ (Nat.min_le_right _ _)).andThen hf
  · have hlt : b.length ≤ k := by
      by_contra hlt
      rw [Nat.sub_eq_zero_of_le (by omega)] at hc
      exact hc rfl
    rw [List.take_append, List.take_of_length_le hlt]
    exact hr.andThen f hc

theorem bind_pure_eq_none {f : α → β} :
    (r >>= fun x => pure (f x)) b = none ↔ r b = none := by
  show (r b).bind _ = none ↔ _
  cases r b with
  | none => exact iff_of_true rfl rfl
  | some y => exact iff_of_false (fun h => by cases h) fun h => by cases h

theorem starves_replicate (hr : Starves r) (n : Nat) :
    Starves (replicate r (n + 1)) := hr.bind _

/-- **A list that is cut off is refused**, unless the cut is inside its last element and the reader
of elements does not mind. -/
theorem replicate_cut {r : Reader β} {write : α → Bytes} {f : α → β} (hr : Starves r) {ys : List α}
    (hreads : ∀ y ∈ ys, Reads r (write y) (f y)) (huses : ∀ y ∈ ys, UsesUp r (write y)) (z : α)
    (k : Nat) :
    replicate r (ys.length + 1) ((ys.flatMap write ++ write z).take k) = none ↔
      r ((write z).take (k - (ys.flatMap write).length)) = none := by
  induction ys generalizing k with
  | nil =>
    have hone : replicate r 1 = r >>= fun x => pure [x] := rfl
    show replicate r 1 ((write z).take k) = none ↔ r ((write z).take k) = none
    rw [hone, bind_pure_eq_none]
  | cons y ys ih =>
    have hy : Reads r (write y) (f y) := hreads y List.mem_cons_self
    have hrest (x : β) : Starves (replicate r (ys.length + 1) >>= fun xs => pure (x :: xs)) :=
      (starves_replicate hr ys.length).bind _
    have hsucc : replicate r ((y :: ys).length + 1) =
        r >>= fun x => replicate r (ys.length + 1) >>= fun xs => pure (x :: xs) := rfl
    rw [hsucc, List.flatMap_cons, List.append_assoc,
      hy.before.cut (huses y List.mem_cons_self) hrest, bind_pure_eq_none,
      ih (fun x hx => hreads x (List.mem_cons_of_mem y hx))
        (fun x hx => huses x (List.mem_cons_of_mem y hx)), List.length_append, Nat.sub_sub]

/-! ## Numbers -/

/-- A number of `n` bytes, the least significant first; bytes that are missing count as zero. -/
def number (n : Nat) : Reader Nat := ofLittleEndian <$> read n

theorem reads_number {v : Nat} (hn : 0 < n) (hv : v < 256 ^ n) :
    Reads (number n) (littleEndian n v) v :=
  (reads_read (length_littleEndian n v) hn).map (ofLittleEndian_littleEndian_of_lt hv)

theorem starves_number (n : Nat) : Starves (number n) := (starves_read n).map _

theorem usesUp_number (n v : Nat) : UsesUp (number n) (littleEndian n v) :=
  (usesUp_read (length_littleEndian n v)).map _

theorem take_littleEndian {j : Nat} (h : j ≤ n) (v : Nat) :
    (littleEndian n v).take j = littleEndian j v := by
  induction j generalizing n v with
  | zero => rfl
  | succ j ih =>
    obtain ⟨n, rfl⟩ : ∃ n', n = n' + 1 := ⟨n - 1, by omega⟩
    rw [littleEndian, littleEndian, List.take_succ_cons, ih (by omega)]

theorem ofLittleEndian_append_zeros (b : Bytes) (n : Nat) :
    ofLittleEndian (b ++ List.replicate n 0) = ofLittleEndian b := by
  induction b with
  | nil =>
    induction n with
    | zero => rfl
    | succ n ih => simpa [List.replicate_succ, ofLittleEndian] using ih
  | cons x b ih => rw [List.cons_append, ofLittleEndian, ofLittleEndian, ih]

theorem number_cut {j : Nat} (hj : 0 < j) (h : j ≤ n) (v : Nat) :
    number n ((littleEndian n v).take j) = some (v % 256 ^ j, []) := by
  have hlen : (littleEndian j v).length = j := length_littleEndian j v
  have hne : littleEndian j v ≠ [] := by
    intro he
    rw [he] at hlen
    exact absurd hlen hj.ne
  have hread : read n (littleEndian j v)
      = some (littleEndian j v ++ List.replicate (n - j) 0, []) := by
    rw [read, if_neg hne, hlen, List.take_of_length_le (by omega),
      List.drop_eq_nil_of_le (by omega)]
  rw [take_littleEndian h]
  show (read n (littleEndian j v)).bind _ = _
  rw [hread]
  show some (ofLittleEndian _, []) = _
  rw [ofLittleEndian_append_zeros, ofLittleEndian_littleEndian]

end Wire
