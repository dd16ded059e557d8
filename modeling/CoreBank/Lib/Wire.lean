import Mathlib.Control.Monad.Basic
import Mathlib.Data.List.Basic
import Mathlib.Data.Nat.Bits
import Mathlib.Tactic.Ring

/-!
# Reading what was written

A wire format is a function that writes a value down as bytes and a `Reader` that takes it off the
front of the input again.  `Reads r b x` says that `r` reads exactly the bytes `b`, whatever follows
them, and returns `x`; a decoder is shown to undo an encoder by following the reader's own structure
with the rules `Reads.pure`, `Reads.bind` and `Reads.replicate`.

## What is here

* `Reader`, `take`, `byte` — readers that fail when the input is too short;
* `Reads` and its rules;
* `Yields` — what a reader can return at all, whatever its input — and its rules;
* `Stable` — a reader whose answer does not change when more input follows: what it reads in full it
  refuses in part (`Stable.refuses`);
* `littleEndian`, `ofLittleEndian` — numbers of a fixed number of bytes;
* `word`, `blob`, `list` and their writers — eight-byte numbers, and bytes or values preceded by
  their number.
-/

set_option autoImplicit false

namespace Wire

/-- What is written and read. -/
abbrev Bytes := List UInt8

/-- A reader takes a value off the front of the input, or fails. -/
abbrev Reader := StateT Bytes Option

/-- The next `n` bytes. -/
def take (n : Nat) : Reader Bytes := fun b =>
  if b.length < n then none else some (b.take n, b.drop n)

/-- The next byte. -/
def byte : Reader UInt8 := fun b =>
  match b with
  | [] => none
  | x :: rest => some (x, rest)

/-- `n` values, one after the other. -/
def replicate {α : Type} (r : Reader α) : Nat → Reader (List α)
  | 0 => pure []
  | n + 1 => do
    let x ← r
    let xs ← replicate r n
    return x :: xs

/-! ## Readers that undo writers -/

variable {α β : Type} {r : Reader α} {b : Bytes} {x : α} {f : α → β} {write : α → Bytes}

/-- The reader reads exactly `b` and returns `x`. -/
def Reads (r : Reader α) (b : Bytes) (x : α) : Prop := ∀ rest, r (b ++ rest) = some (x, rest)

theorem Reads.pure (x : α) : Reads (pure x) [] x := fun _ => rfl

theorem Reads.andThen (hr : Reads r b x) (f : α → Reader β) (rest : Bytes) :
    (r >>= f) (b ++ rest) = f x rest := by
  show (r (b ++ rest)).bind _ = _
  rw [hr rest]
  rfl

theorem Reads.bind {f : α → Reader β} {c : Bytes} {y : β} (hr : Reads r b x)
    (hf : Reads (f x) c y) : Reads (r >>= f) (b ++ c) y := by
  intro rest
  rw [List.append_assoc, hr.andThen]
  exact hf rest

theorem Reads.last {y : β} (hr : Reads r b x) (hf : f x = y) :
    Reads (r >>= fun a => Pure.pure (f a)) b y := by
  subst hf
  have h : Reads (r >>= fun a => Pure.pure (f a)) (b ++ []) (f x) := hr.bind (Reads.pure (f x))
  rwa [List.append_nil] at h

theorem Reads.map {y : β} (hr : Reads r b x) (hf : f x = y) : Reads (f <$> r) b y := by
  subst hf
  intro rest
  show (r (b ++ rest)).bind _ = _
  rw [hr rest]
  rfl

/-- Values one after the other; what is read may be `f` of what was written. -/
theorem Reads.replicate {r : Reader β} :
    ∀ {xs : List α}, (∀ x ∈ xs, Reads r (write x) (f x)) →
      Reads (Wire.replicate r xs.length) (xs.flatMap write) (xs.map f)
  | [], _ => Reads.pure []
  | x :: xs, h => by
    have ih : Reads (Wire.replicate r xs.length) (xs.flatMap write) (xs.map f) :=
      Reads.replicate fun y hy => h y (List.mem_cons_of_mem x hy)
    have hxs : Reads (Wire.replicate r xs.length >>= fun ys => Pure.pure (f x :: ys))
        (xs.flatMap write) (f x :: xs.map f) := ih.last rfl
    exact Reads.bind (h x List.mem_cons_self) hxs

theorem reads_take {n : Nat} (h : b.length = n) : Reads (take n) b b := by
  intro rest
  simp [take, h]

theorem reads_byte (x : UInt8) : Reads byte [x] x := fun _ => rfl

theorem Reads.run (hr : Reads r b x) : r b = some (x, []) := by
  simpa using hr []

/-! ## What a reader can return -/

section Yields

variable {P : α → Prop} {Q : β → Prop}

/-- Whatever the input, a value that is read satisfies `P`. -/
def Yields (r : Reader α) (P : α → Prop) : Prop := ∀ ⦃b x rest⦄, r b = some (x, rest) → P x

theorem Yields.pure (h : P x) : Yields (pure x) P := by
  intro b y rest hy
  cases hy
  exact h

theorem Yields.bind {f : α → Reader β} (hr : Yields r P) (hf : ∀ x, P x → Yields (f x) Q) :
    Yields (r >>= f) Q := by
  intro b y rest hy
  obtain ⟨⟨x, rest'⟩, hx, hy⟩ := Option.bind_eq_some_iff.1 hy
  exact hf x (hr hx) hy

theorem yields_true (r : Reader α) : Yields r fun _ => True := fun _ _ _ _ => trivial

end Yields

/-! ## Input that is cut off -/

/-- What the reader returns does not depend on what follows the bytes it has read. -/
def Stable (r : Reader α) : Prop :=
  ∀ ⦃b x rest⦄, r b = some (x, rest) → ∀ c, r (b ++ c) = some (x, rest ++ c)

theorem Stable.pure (x : α) : Stable (pure x : Reader α) := by
  intro b y rest hy c
  cases hy
  rfl

theorem Stable.bind {f : α → Reader β} (hr : Stable r) (hf : ∀ x, Stable (f x)) :
    Stable (r >>= f) := by
  intro b y rest hy c
  obtain ⟨⟨x, rest'⟩, hx, hy⟩ := Option.bind_eq_some_iff.1 hy
  exact Option.bind_eq_some_iff.2 ⟨(x, rest' ++ c), hr hx c, hf x hy c⟩

theorem Stable.map (hr : Stable r) (f : α → β) : Stable (f <$> r) :=
  hr.bind fun x => Stable.pure (f x)

theorem Stable.replicate (hr : Stable r) (n : Nat) :
    Stable (Wire.replicate r n) := by
  induction n with
  | zero => exact Stable.pure []
  | succ n ih => exact hr.bind fun x => ih.bind fun xs => Stable.pure (x :: xs)

theorem stable_take (n : Nat) : Stable (take n) := by
  intro b x rest hx c
  rw [take] at hx ⊢
  split at hx
  · cases hx
  next hlen =>
    obtain ⟨rfl, rfl⟩ := Prod.mk.inj (Option.some.inj hx)
    have hle : n ≤ b.length := Nat.le_of_not_lt hlen
    rw [if_neg (by rw [List.length_append]; omega), List.take_append_of_le_length hle,
      List.drop_append_of_le_length hle]

theorem stable_byte : Stable byte := by
  intro b x rest hx c
  cases b with
  | nil => cases hx
  | cons y b =>
    cases hx
    rfl

/-- **What is read in full is refused in part.** -/
theorem Stable.refuses (hr : Stable r) {p : Bytes} (hb : r b = some (x, [])) (hp : p <+: b)
    (hne : p ≠ b) : r p = none := by
  obtain ⟨c, rfl⟩ := hp
  cases hrp : r p with
  | none => rfl
  | some y =>
    have happ : r (p ++ c) = some (y.1, y.2 ++ c) := hr hrp c
    rw [hb, Option.some.injEq, Prod.mk.injEq] at happ
    have hc : c = [] := (List.append_eq_nil_iff.1 happ.2.symm).2
    exact absurd (by rw [hc, List.append_nil]) hne

/-! ## Numbers -/

/-- The `k` least significant bytes of a number, least significant first. -/
def littleEndian : Nat → Nat → Bytes
  | 0, _ => []
  | k + 1, n => UInt8.ofNat (n % 256) :: littleEndian k (n / 256)

/-- The number whose bytes are given, least significant first. -/
def ofLittleEndian : Bytes → Nat
  | [] => 0
  | x :: rest => x.toNat + 256 * ofLittleEndian rest

@[simp] theorem length_littleEndian (k n : Nat) : (littleEndian k n).length = k := by
  induction k generalizing n with
  | zero => rfl
  | succ k ih => simp [littleEndian, ih]

theorem littleEndian_eq_map (k n : Nat) :
    littleEndian k n = (List.range k).map fun i => UInt8.ofNat (n / 256 ^ i) := by
  induction k generalizing n with
  | zero => rfl
  | succ k ih =>
    have hbyte : UInt8.ofNat (n % 256) = UInt8.ofNat (n / 256 ^ 0) := by
      rw [Nat.pow_zero, Nat.div_one, ← UInt8.toNat_inj, UInt8.toNat_ofNat', UInt8.toNat_ofNat',
        Nat.mod_mod]
    have hshift (i : Nat) : n / 256 / 256 ^ i = n / 256 ^ (i + 1) := by
      rw [Nat.div_div_eq_div_mul, Nat.pow_succ']
    rw [littleEndian, ih, List.range_succ_eq_map, List.map_cons, List.map_map, hbyte]
    simp only [hshift, Function.comp_def, Nat.succ_eq_add_one]

theorem ofLittleEndian_littleEndian (k n : Nat) :
    ofLittleEndian (littleEndian k n) = n % 256 ^ k := by
  induction k generalizing n with
  | zero => simp [littleEndian, ofLittleEndian, Nat.mod_one]
  | succ k ih =>
    have hlow : (UInt8.ofNat (n % 256)).toNat = n % 256 := by simp
    calc ofLittleEndian (littleEndian (k + 1) n)
        = n % 256 + 256 * (n / 256 % 256 ^ k) := by rw [littleEndian, ofLittleEndian, ih, hlow]
      _ = n % (256 * 256 ^ k) := Nat.mod_mul.symm
      _ = n % 256 ^ (k + 1) := by rw [pow_succ']

theorem ofLittleEndian_littleEndian_of_lt {k n : Nat} (h : n < 256 ^ k) :
    ofLittleEndian (littleEndian k n) = n := by
  rw [ofLittleEndian_littleEndian, Nat.mod_eq_of_lt h]

theorem ofLittleEndian_lt (b : Bytes) : ofLittleEndian b < 256 ^ b.length := by
  induction b with
  | nil => simp [ofLittleEndian]
  | cons x rest ih =>
    have hx : x.toNat < 256 := x.toNat_lt
    rw [ofLittleEndian, List.length_cons, pow_succ']
    omega

/-- An eight-byte number. -/
def word : Reader Nat := ofLittleEndian <$> take 8

/-- Eight bytes, the low one first. -/
def putWord (n : Nat) : Bytes := littleEndian 8 n

theorem reads_word_mod (n : Nat) : Reads word (putWord n) (n % 2 ^ 64) :=
  (reads_take (length_littleEndian 8 n)).map (ofLittleEndian_littleEndian 8 n)

theorem reads_word {n : Nat} (h : n < 2 ^ 64) : Reads word (putWord n) n := by
  have hmod := reads_word_mod n
  rwa [Nat.mod_eq_of_lt h] at hmod

theorem stable_word : Stable word := (stable_take 8).map _

/-- Bytes, preceded by their number. -/
def blob : Reader Bytes := do
  let n ← word
  take n

/-- The length, and the bytes. -/
def putBlob (b : Bytes) : Bytes := putWord b.length ++ b

theorem reads_blob (h : b.length < 2 ^ 64) : Reads blob (putBlob b) b :=
  (reads_word h).bind (reads_take rfl)

theorem stable_blob : Stable blob := stable_word.bind stable_take

/-- Values, preceded by their number. -/
def list {α : Type} (r : Reader α) : Reader (List α) := do
  let n ← word
  replicate r n

/-- The length, and the elements. -/
def putList {α : Type} (write : α → Bytes) (xs : List α) : Bytes :=
  putWord xs.length ++ xs.flatMap write

variable {xs : List α}

theorem reads_list {r : Reader β} (h : xs.length < 2 ^ 64)
    (hr : ∀ x ∈ xs, Reads r (write x) (f x)) :
    Reads (list r) (putList write xs) (xs.map f) :=
  (reads_word h).bind (Reads.replicate hr)

theorem Stable.list (hr : Stable r) : Stable (list r) :=
  stable_word.bind hr.replicate

/-! ## Lengths

A number of bytes fits in a word as soon as the bytes themselves do, so a format is read back under
the one condition that its whole output can be counted. -/

@[simp] theorem length_putWord (n : Nat) : (putWord n).length = 8 := length_littleEndian 8 n

@[simp] theorem length_putBlob (b : Bytes) : (putBlob b).length = 8 + b.length := by
  rw [putBlob, List.length_append, length_putWord]

@[simp] theorem length_putList (write : α → Bytes) (xs : List α) :
    (putList write xs).length = 8 + (xs.flatMap write).length := by
  rw [putList, List.length_append, length_putWord]

theorem length_le_length_flatMap (hx : x ∈ xs) : (write x).length ≤ (xs.flatMap write).length :=
  (List.sublist_flatten_of_mem (List.mem_map_of_mem hx)).length_le

theorem count_le_length_flatMap (h : ∀ x ∈ xs, 0 < (write x).length) :
    xs.length ≤ (xs.flatMap write).length := by
  induction xs with
  | nil => simp
  | cons x xs ih =>
    have hx := h x List.mem_cons_self
    have hxs := ih fun y hy => h y (List.mem_cons_of_mem x hy)
    rw [List.flatMap_cons, List.length_append, List.length_cons]
    omega

theorem reads_blob_of_length (h : (putBlob b).length < 2 ^ 64) :
    Reads blob (putBlob b) b :=
  reads_blob (by rw [length_putBlob] at h; omega)

theorem reads_list_map {r : Reader β} (h : (putList write xs).length < 2 ^ 64)
    (hpos : ∀ x ∈ xs, 0 < (write x).length)
    (hr : ∀ x ∈ xs, (write x).length < 2 ^ 64 → Reads r (write x) (f x)) :
    Reads (list r) (putList write xs) (xs.map f) := by
  rw [length_putList] at h
  refine reads_list ?_ fun x hx => hr x hx ?_
  · have := count_le_length_flatMap hpos
    omega
  · have hlen : (write x).length ≤ (xs.flatMap write).length := length_le_length_flatMap hx
    omega

theorem reads_list_of_length (h : (putList write xs).length < 2 ^ 64)
    (hpos : ∀ x ∈ xs, 0 < (write x).length)
    (hr : ∀ x ∈ xs, (write x).length < 2 ^ 64 → Reads r (write x) x) :
    Reads (list r) (putList write xs) xs := by
  have hmap := reads_list_map (f := id) h hpos hr
  rwa [List.map_id] at hmap

end Wire
