import Mathlib.Data.List.Sort
import CoreBank.Lib.Clockwise
import CoreBank.Shard.Machine
import CoreBank.Storage.Files

/-!
# The hash ring

Which shard owns an account.  Every shard stands at several places of a circle of 2^32 hashes, its
virtual nodes, and a key belongs to the shard of the first point clockwise from the key's hash.

`NewRing` sorts the points by hash alone, with `sort.Slice`, which promises a sorted arrangement and
nothing about the order of points with the same hash.  `SliceSort` is that promise; a ring is built
with any such sort.  `lookup_isFirst` says what a lookup finds in terms of `Clockwise.IsFirst`, and
the results are read off there:

* `lookup_perm_iff` — the order in which the shards are listed is immaterial, whatever the sort,
  exactly if no two shards share a hash;
* `lookup_added` — a further shard takes keys over, and no key moves between two others;
* `segments_lookup` — the arcs of `Segments` are a partition of the circle, and the arc a key falls
  on names the shard that `Lookup` returns.
-/

set_option autoImplicit false

namespace CoreBank.Shard

open Clockwise

/-! ## Points -/

/-- A virtual node. -/
structure Point where
  hash : UInt32
  shard : ID
deriving DecidableEq

/-- The hash as a place on the circle. -/
def Point.place (p : Point) : Nat := p.hash.toNat

/-- Virtual nodes for each shard. -/
def defaultVNodes : Nat := 150

/-- How many points a shard gets when `vnodes` of them are asked for. -/
def vnodeCount (vnodes : Int) : Nat := if vnodes ≤ 0 then defaultVNodes else vnodes.toNat

/-- The position of a key. -/
def hashKey (s : Str) : UInt32 := Storage.checksum s

/-- `strconv.Itoa` of an index. -/
def itoa (i : Nat) : Str := (Nat.toDigits 10 i).map fun c => UInt8.ofNat c.toNat

/-- The text a virtual node is placed by. -/
def vnodeLabel (s : ID) (i : Nat) : Str := s ++ str "#" ++ itoa i

/-- The points of the shards in the order `NewRing` appends them. -/
def ringPoints (shards : List ID) (n : Nat) : List Point :=
  shards.flatMap fun s => (List.range n).map fun i => ⟨hashKey (vnodeLabel s i), s⟩

variable {p : Point}

theorem mem_ringPoints {shards : List ID} {n : Nat} :
    p ∈ ringPoints shards n ↔
      p.shard ∈ shards ∧ ∃ i < n, p.hash = hashKey (vnodeLabel p.shard i) := by
  simp only [ringPoints, List.mem_flatMap, List.mem_map, List.mem_range]
  constructor
  · rintro ⟨s, hs, i, hi, rfl⟩
    exact ⟨hs, i, hi, rfl⟩
  · rintro ⟨hs, i, hi, hh⟩
    exact ⟨p.shard, hs, i, hi, by rw [← hh]⟩

theorem vnodeCount_pos (vnodes : Int) : 0 < vnodeCount vnodes := by
  rw [vnodeCount]
  split
  · decide
  · omega

theorem ringPoints_perm {shards shards' : List ID} (h : shards'.Perm shards) (n : Nat) :
    (ringPoints shards' n).Perm (ringPoints shards n) :=
  h.flatMap_right _

/-! ## The ring -/

/-- What `sort.Slice` promises when points are compared by their hash: the same points, in an order
in which no hash is followed by a smaller one. -/
structure SliceSort where
  sort : List Point → List Point
  perm : ∀ l, (sort l).Perm l
  sorted : ∀ l, (sort l).Pairwise fun p q => p.place ≤ q.place

/-- The points of the ring, in order. -/
structure Ring where
  points : List Point
  sorted : points.Pairwise fun p q => p.place ≤ q.place

/-- A ring over the shards. -/
def newRing (sort : SliceSort) (shards : List ID) (vnodes : Int) : Ring where
  points := sort.sort (ringPoints shards (vnodeCount vnodes))
  sorted := sort.sorted _

/-- The hash of the point at an index; every index it is used with is in range. -/
def Ring.hashAt (r : Ring) (i : Nat) : UInt32 :=
  match r.points[i]? with
  | some p => p.hash
  | none => 0

/-- The index of the first point that is not before `h`. -/
def Ring.firstIndex (r : Ring) (h : UInt32) : Nat :=
  search r.points.length fun i => decide (r.hashAt i ≥ h)

/-- The shard that owns the key.  The index is in range, so there is a point at it. -/
def Ring.lookup (r : Ring) (key : Str) : ID :=
  if r.points.length = 0 then []
  else
    let i := r.firstIndex (hashKey key)
    let i := if i = r.points.length then 0 else i
    match r.points[i]? with
    | some p => p.shard
    | none => []

/-- One arc of the ring, after `start` and up to `end_`. -/
structure Segment where
  start : UInt32
  end_ : UInt32
  shard : ID
deriving DecidableEq

/-- The arcs that end at each point. -/
def Ring.segments (r : Ring) : List Segment :=
  r.points.zipIdx.map fun x =>
    let start := if x.2 = 0 then r.hashAt (r.points.length - 1) else r.hashAt (x.2 - 1)
    ⟨start, x.1.hash, x.1.shard⟩

/-! ## What a lookup finds -/

section Lookup

variable {r : Ring}

theorem Ring.hashAt_eq {i : Nat} (h : r.points[i]? = some p) : r.hashAt i = p.hash := by
  rw [hashAt, h]

theorem Ring.rises (r : Ring) (h : UInt32) :
    Rises r.points.length fun i => decide (r.hashAt i ≥ h) := by
  intro a b hab hb ha
  have hp := List.getElem?_eq_getElem (show a < r.points.length by omega)
  have hq := List.getElem?_eq_getElem hb
  have hle := le_of_getElem? r.sorted hab hp hq
  simp only [ge_iff_le, decide_eq_true_eq, hashAt_eq hp, hashAt_eq hq, UInt32.le_iff_toNat_le] at *
  exact Nat.le_trans ha hle

theorem Ring.firstIndex_le (r : Ring) (h : UInt32) : r.firstIndex h ≤ r.points.length :=
  (search_spec (r.rises h)).1

/-- The points before the index are those before `h`. -/
theorem Ring.lt_firstIndex {h : UInt32} {i : Nat} (hp : r.points[i]? = some p) :
    i < r.firstIndex h ↔ p.place < h.toNat := by
  obtain ⟨-, hbelow, habove⟩ := search_spec (r.rises h)
  have hi := (List.getElem?_eq_some_iff.1 hp).1
  constructor
  · intro hlt
    have hno := hbelow i hlt
    simp only [hashAt_eq hp, decide_eq_false_iff_not, ge_iff_le, UInt32.le_iff_toNat_le] at hno
    exact Nat.lt_of_not_le hno
  · intro hlt
    by_contra hge
    have hyes := habove i (Nat.le_of_not_lt hge) hi
    simp only [hashAt_eq hp, decide_eq_true_eq, ge_iff_le, UInt32.le_iff_toNat_le] at hyes
    exact Nat.not_lt.2 hyes hlt

/-- The point a lookup settles on: the first one not before the key's hash, and the first of all if
there is none. -/
theorem Ring.lookup_index (hne : r.points ≠ []) (key : Str) :
    ∃ i p, r.points[i]? = some p ∧ r.lookup key = p.shard ∧
      (i = r.firstIndex (hashKey key) ∨
        i = 0 ∧ r.firstIndex (hashKey key) = r.points.length) := by
  have hlen : r.points.length ≠ 0 := fun h => hne (List.length_eq_zero_iff.1 h)
  have hle := r.firstIndex_le (hashKey key)
  rw [lookup, if_neg hlen]
  by_cases hwrap : r.firstIndex (hashKey key) = r.points.length
  · have hp := List.getElem?_eq_getElem (show 0 < r.points.length by omega)
    exact ⟨0, _, hp, by simp only [if_pos hwrap, hp], .inr ⟨rfl, hwrap⟩⟩
  · have hp := List.getElem?_eq_getElem
      (show r.firstIndex (hashKey key) < r.points.length by omega)
    exact ⟨_, _, hp, by simp only [if_neg hwrap, hp], .inl rfl⟩

/-- **A lookup finds the first point clockwise** from the hash of the key. -/
theorem Ring.lookup_isFirst (hne : r.points ≠ []) (key : Str) :
    ∃ p, IsFirst Point.place r.points (hashKey key).toNat p ∧ r.lookup key = p.shard := by
  obtain ⟨i, p, hp, hshard, rfl | ⟨rfl, hwrap⟩⟩ := r.lookup_index hne key
  · have hle := (lt_firstIndex hp).not.1 (Nat.lt_irrefl _)
    exact ⟨p, isFirst_of_index r.sorted hp (Nat.le_of_not_lt hle) fun j hj q hq =>
      (lt_firstIndex hq).1 hj, hshard⟩
  · refine ⟨p, isFirst_of_wrap r.sorted hp fun q hq => ?_, hshard⟩
    obtain ⟨j, hj⟩ := List.mem_iff_getElem?.1 hq
    exact (lt_firstIndex hj).1 (hwrap ▸ (List.getElem?_eq_some_iff.1 hj).1)

theorem Point.hash_eq_of_place {q : Point} (h : p.place = q.place) : p.hash = q.hash :=
  UInt32.toNat_inj.1 h

/-- If the points at one place belong to one shard, a lookup returns the shard of any first
point. -/
theorem Ring.lookup_eq {key : Str} (hp : IsFirst Point.place r.points (hashKey key).toNat p)
    (huniq : ∀ q ∈ r.points, q.hash = p.hash → q.shard = p.shard) : r.lookup key = p.shard := by
  obtain ⟨q, hq, hshard⟩ := r.lookup_isFirst (List.ne_nil_of_mem hp.1) key
  exact hshard.trans (huniq q hq.1 (Point.hash_eq_of_place (hq.pos_eq hp)))

end Lookup

/-! ## The order in which shards are listed -/

section Order

variable {shards shards' : List ID} {vnodes : Int}

/-- No two shards share a hash. -/
def Unshared (shards : List ID) (vnodes : Int) : Prop :=
  ∀ s ∈ shards, ∀ t ∈ shards, ∀ i < vnodeCount vnodes, ∀ j < vnodeCount vnodes,
    hashKey (vnodeLabel s i) = hashKey (vnodeLabel t j) → s = t

instance (shards : List ID) (vnodes : Int) : Decidable (Unshared shards vnodes) := by
  unfold Unshared
  infer_instance

theorem Unshared.shard_eq (hu : Unshared shards vnodes) {q : Point}
    (hp : p ∈ ringPoints shards (vnodeCount vnodes))
    (hq : q ∈ ringPoints shards (vnodeCount vnodes)) (hh : p.hash = q.hash) :
    p.shard = q.shard := by
  obtain ⟨hps, i, hi, hpi⟩ := mem_ringPoints.1 hp
  obtain ⟨hqs, j, hj, hqj⟩ := mem_ringPoints.1 hq
  exact hu _ hps _ hqs i hi j hj (by rw [← hpi, ← hqj, hh])

theorem newRing_perm (sort : SliceSort) (shards : List ID) (vnodes : Int) :
    (newRing sort shards vnodes).points.Perm (ringPoints shards (vnodeCount vnodes)) :=
  sort.perm _

theorem Ring.lookup_nil {r : Ring} (h : r.points = []) (key : Str) : r.lookup key = [] := by
  rw [lookup, if_pos (by rw [h]; rfl)]

/-- A ring is determined by its points as far as lookups go, if no two shards share a hash. -/
theorem lookup_of_perm (hu : Unshared shards vnodes) (hperm : shards'.Perm shards)
    (sort sort' : SliceSort) (key : Str) :
    (newRing sort shards vnodes).lookup key = (newRing sort' shards' vnodes).lookup key := by
  have hpoints := newRing_perm sort shards vnodes
  have hpoints' := (newRing_perm sort' shards' vnodes).trans (ringPoints_perm hperm _)
  by_cases hnil : (newRing sort shards vnodes).points = []
  · have hnil' : (newRing sort' shards' vnodes).points = [] := by
      have hempty := hpoints
      rw [hnil] at hempty
      exact (hpoints'.trans hempty.symm).eq_nil
    rw [Ring.lookup_nil hnil, Ring.lookup_nil hnil']
  · obtain ⟨p, hp, hshard⟩ := Ring.lookup_isFirst hnil key
    rw [hshard]
    refine (Ring.lookup_eq (hp.perm (hpoints.trans hpoints'.symm)) fun q hq hh => ?_).symm
    exact hu.shard_eq (hpoints'.subset hq) (hpoints.subset hp.1) hh

/-- The order by hash in which `p` comes before all other points of its hash. -/
def Ahead (p a b : Point) : Prop := a.place < b.place ∨ a.place = b.place ∧ (b = p → a = p)

instance (p : Point) : DecidableRel (Ahead p) := fun a b => by
  unfold Ahead
  infer_instance

instance (p : Point) : Std.Total (Ahead p) where
  total a b := by
    rcases Nat.lt_trichotomy a.place b.place with hlt | heq | hgt
    · exact .inl (.inl hlt)
    · by_cases ha : a = p
      · exact .inl (.inr ⟨heq, fun _ => ha⟩)
      · exact .inr (.inr ⟨heq.symm, fun h => absurd h ha⟩)
    · exact .inr (.inl hgt)

instance (p : Point) : IsTrans Point (Ahead p) where
  trans a b c := by
    rintro (hab | ⟨hab, ha⟩) (hbc | ⟨hbc, hb⟩)
    · exact .inl (hab.trans hbc)
    · exact .inl (hbc ▸ hab)
    · exact .inl (hab ▸ hbc)
    · exact .inr ⟨hab.trans hbc, fun h => ha (hb h)⟩

theorem Ahead.place_le {a b : Point} (h : Ahead p a b) : a.place ≤ b.place := by
  rcases h with hlt | ⟨heq, -⟩
  · exact hlt.le
  · exact heq.le

/-- A sort that gives the tie to a point it may choose by the list. -/
def SliceSort.choosing (first : List Point → Point) : SliceSort where
  sort l := l.insertionSort (Ahead (first l))
  perm l := List.perm_insertionSort _ l
  sorted l := (List.pairwise_insertionSort _ l).imp Ahead.place_le

theorem lookup_choosing (first : List Point → Point) {key : Str}
    (hfirst : first (ringPoints shards (vnodeCount vnodes)) = p)
    (hp : p ∈ ringPoints shards (vnodeCount vnodes)) (hkey : hashKey key = p.hash) :
    (newRing (.choosing first) shards vnodes).lookup key = p.shard := by
  have hmem := (newRing_perm (.choosing first) shards vnodes).symm.subset hp
  have hahead : (newRing (.choosing first) shards vnodes).points.Pairwise (Ahead p) :=
    hfirst ▸ List.pairwise_insertionSort _ _
  obtain ⟨k, hk⟩ := List.mem_iff_getElem?.1 hmem
  have hkl := (List.getElem?_eq_some_iff.1 hk).1
  -- the point lies at the hash of the key, so the search stops there or before
  have hle := (Ring.lt_firstIndex (h := hashKey key) hk).not.2 (by rw [hkey]; exact Nat.lt_irrefl _)
  obtain ⟨i, q, hq, hshard, rfl | ⟨-, hwrap⟩⟩ := Ring.lookup_index (List.ne_nil_of_mem hmem) key
  · rw [hshard]
    have hge := (Ring.lt_firstIndex (h := hashKey key) hq).not.1 (Nat.lt_irrefl _)
    rcases Nat.eq_or_lt_of_le (Nat.le_of_not_lt hle) with heq | hlt
    · rw [heq, hk] at hq
      exact congrArg Point.shard (Option.some.inj hq).symm
    · rcases rel_of_getElem? hahead hlt hq hk with hlt | ⟨-, hchosen⟩
      · rw [hkey] at hge
        exact absurd hlt hge
      · rw [hchosen rfl]
  · omega

/-- Two shards can be listed in an order that begins with another point. -/
theorem exists_perm_ringPoints_ne {s t : ID} (hs : s ∈ shards) (ht : t ∈ shards) (hne : s ≠ t)
    {n : Nat} (hn : 0 < n) :
    ∃ shards', shards'.Perm shards ∧ ringPoints shards' n ≠ ringPoints shards n := by
  obtain ⟨n, rfl⟩ := Nat.exists_eq_succ_of_ne_zero hn.ne'
  have hhead (u : ID) (rest : List ID) : (ringPoints (u :: rest) (n + 1)).head?.map Point.shard =
      some u := by
    simp [ringPoints, List.range_succ_eq_map]
  obtain ⟨u, rest, rfl⟩ := List.exists_cons_of_ne_nil (List.ne_nil_of_mem hs)
  have hmove {w : ID} (hw : w ∈ u :: rest) (hwu : w ≠ u) :
      ∃ shards', shards'.Perm (u :: rest) ∧
        ringPoints shards' (n + 1) ≠ ringPoints (u :: rest) (n + 1) := by
    refine ⟨w :: (u :: rest).erase w, (List.perm_cons_erase hw).symm, fun heq => hwu ?_⟩
    have hw := hhead w ((u :: rest).erase w)
    rw [heq, hhead u rest] at hw
    exact (Option.some.inj hw).symm
  by_cases hsu : s = u
  · exact hmove ht fun htu => hne (hsu.trans htu.symm)
  · exact hmove hs hsu

/-- **Placement and the order of the shards.**  Whatever the sort does with equal hashes, a list of
shards and each of its rearrangements place every key alike, exactly if no two shards share a
hash. -/
theorem lookup_perm_iff (shards : List ID) (vnodes : Int) :
    (∀ (sort : SliceSort) (shards' : List ID), shards'.Perm shards → ∀ key,
        (newRing sort shards vnodes).lookup key = (newRing sort shards' vnodes).lookup key) ↔
      Unshared shards vnodes := by
  constructor
  · intro hall s hs t ht i hi j hj hh
    by_contra hne
    obtain ⟨shards', hperm, hdiff⟩ :=
      exists_perm_ringPoints_ne hs ht hne (vnodeCount_pos vnodes)
    have hmem : ⟨hashKey (vnodeLabel s i), s⟩ ∈ ringPoints shards (vnodeCount vnodes) :=
      mem_ringPoints.2 ⟨hs, i, hi, rfl⟩
    have hmem' : ⟨hashKey (vnodeLabel t j), t⟩ ∈ ringPoints shards' (vnodeCount vnodes) :=
      mem_ringPoints.2 ⟨hperm.symm.subset ht, j, hj, rfl⟩
    -- a sort that favours one shard for this list and the other for any other list
    let first (l : List Point) : Point :=
      if l = ringPoints shards (vnodeCount vnodes) then ⟨hashKey (vnodeLabel s i), s⟩
      else ⟨hashKey (vnodeLabel t j), t⟩
    have hlookup := lookup_choosing first (if_pos rfl) hmem
      (show hashKey (vnodeLabel s i) = _ from rfl)
    have hlookup' := lookup_choosing first (if_neg hdiff) hmem' hh
    exact hne (hlookup.symm.trans ((hall _ shards' hperm _).trans hlookup'))
  · intro hu sort shards' hperm key
    exact lookup_of_perm hu hperm sort sort key

/-- The insertion sort that `sort.Slice` is on up to twelve elements. -/
def SliceSort.insertion : SliceSort where
  sort l := l.insertionSort fun p q => p.place ≤ q.place
  perm l := List.perm_insertionSort _ l
  sorted l := by
    have htotal : Std.Total fun p q : Point => p.place ≤ q.place := ⟨fun p q => Nat.le_total _ _⟩
    have htrans : IsTrans Point fun p q => p.place ≤ q.place := ⟨fun _ _ _ => Nat.le_trans⟩
    exact List.pairwise_insertionSort _ l

/-- The CRC-32 sums of the two names are equal, and so are those of all their labels. -/
theorem lookup_depends_on_order :
    hashKey (vnodeLabel (str "plumless") 0) = hashKey (vnodeLabel (str "buckeroo") 0) ∧
      (newRing .insertion [str "plumless", str "buckeroo"] 1).lookup (str "alice") =
        str "plumless" ∧
      (newRing .insertion [str "buckeroo", str "plumless"] 1).lookup (str "alice") =
        str "buckeroo" := by
  decide +kernel

example : Unshared [str "a", str "b", str "c"] 2 := by decide +kernel

end Order

/-! ## A further shard -/

section Added

variable {shards shards' : List ID} {vnodes : Int} {t : ID}

/-- **Minimal remapping.**  With a further shard `t`, listed anywhere, a key goes to `t` or stays
where it was. -/
theorem lookup_added (hperm : shards'.Perm (t :: shards))
    (hdistinct : ((ringPoints (t :: shards) (vnodeCount vnodes)).map Point.hash).Nodup)
    (sort sort' : SliceSort) (key : Str) :
    (newRing sort' shards' vnodes).lookup key = t ∨
      (newRing sort' shards' vnodes).lookup key = (newRing sort shards vnodes).lookup key := by
  have hpoints := newRing_perm sort shards vnodes
  have hpoints' := (newRing_perm sort' shards' vnodes).trans (ringPoints_perm hperm _)
  have hcons : ringPoints shards (vnodeCount vnodes) ⊆
      ringPoints (t :: shards) (vnodeCount vnodes) := by
    intro p hp
    obtain ⟨hps, hi⟩ := mem_ringPoints.1 hp
    exact mem_ringPoints.2 ⟨.tail _ hps, hi⟩
  have hmem : (⟨hashKey (vnodeLabel t 0), t⟩ : Point) ∈ (newRing sort' shards' vnodes).points :=
    hpoints'.symm.subset (mem_ringPoints.2 ⟨List.mem_cons_self, 0, vnodeCount_pos _, rfl⟩)
  obtain ⟨p, hp, hshard⟩ := Ring.lookup_isFirst (List.ne_nil_of_mem hmem) key
  rw [hshard]
  by_cases hpt : p.shard = t
  · exact .inl hpt
  · right
    -- a point of another shard was on the ring before, and it was the first one then
    obtain ⟨hps, hi⟩ := mem_ringPoints.1 (hpoints'.subset hp.1)
    have hold : p ∈ (newRing sort shards vnodes).points :=
      hpoints.symm.subset (mem_ringPoints.2 ⟨(List.mem_cons.1 hps).resolve_left hpt, hi⟩)
    have hsub : (newRing sort shards vnodes).points ⊆ (newRing sort' shards' vnodes).points :=
      fun q hq => hpoints'.symm.subset (hcons (hpoints.subset hq))
    refine (Ring.lookup_eq (hp.of_subset hsub hold) fun q hq hh => ?_).symm
    have heq := List.inj_on_of_nodup_map hdistinct (hpoints'.subset (hsub hq))
      (hpoints'.subset hp.1) hh
    rw [heq]

/-- A third shard, listed between the two that were there. -/
theorem lookup_added_third :
    (newRing .insertion [str "a", str "c", str "b"] 2).lookup (str "alice") = str "c" ∨
      (newRing .insertion [str "a", str "c", str "b"] 2).lookup (str "alice") =
        (newRing .insertion [str "a", str "b"] 2).lookup (str "alice") :=
  lookup_added (by decide +kernel) (by decide +kernel) .insertion .insertion (str "alice")

end Added

/-! ## The arcs -/

section Segments

variable {r : Ring}

/-- The hash lies on the arc, clockwise after its start and up to its end. -/
def Segment.Contains (seg : Segment) (h : UInt32) : Prop :=
  InArc seg.start.toNat seg.end_.toNat h.toNat

instance (seg : Segment) (h : UInt32) : Decidable (seg.Contains h) := by
  unfold Segment.Contains
  infer_instance

/-- There is an arc for each point, and it begins at the point before. -/
theorem Ring.segments_getElem? (r : Ring) (i : Nat) :
    r.segments[i]? =
      r.points[i]?.map fun p => ⟨r.hashAt (before r.points.length i), p.hash, p.shard⟩ := by
  rw [segments, List.getElem?_map, List.getElem?_zipIdx, Option.map_map]
  congr 1
  funext p
  simp only [Function.comp_apply, Nat.zero_add, before, apply_ite r.hashAt]

/-- The arc of a point is where the keys lie that meet this point first. -/
theorem Ring.contains_iff (hdistinct : (r.points.map Point.hash).Nodup) {i : Nat}
    (hp : r.points[i]? = some p) {seg : Segment} (hseg : r.segments[i]? = some seg) {h : UInt32} :
    seg.Contains h ↔ IsFirst Point.place r.points h.toNat p := by
  have hi := (List.getElem?_eq_some_iff.1 hp).1
  have hbefore : before r.points.length i < r.points.length := by
    rw [before]
    split <;> omega
  have hq := List.getElem?_eq_getElem hbefore
  have hplaces : (r.points.map Point.place).Nodup := by
    have hmap : r.points.map Point.place = (r.points.map Point.hash).map UInt32.toNat := by
      rw [List.map_map]
      rfl
    rw [hmap]
    exact hdistinct.map fun _ _ heq => UInt32.toNat_inj.1 heq
  rw [segments_getElem?, hp, Option.map_some, hashAt_eq hq] at hseg
  cases hseg
  exact inArc_iff_isFirst r.sorted hplaces hp hq

/-- **The drawn ring is the ring of the lookups.**  If the points have distinct hashes, the hash of
a key lies on exactly one arc, and the shard of that arc is the one the key belongs to. -/
theorem Ring.segments_lookup (hne : r.points ≠ []) (hdistinct : (r.points.map Point.hash).Nodup)
    (key : Str) :
    ∃ (i : Nat) (seg : Segment), r.segments[i]? = some seg ∧ seg.Contains (hashKey key) ∧
      seg.shard = r.lookup key ∧
      ∀ (j : Nat) (seg' : Segment), r.segments[j]? = some seg' → seg'.Contains (hashKey key) →
        j = i := by
  obtain ⟨p, hp, hshard⟩ := r.lookup_isFirst hne key
  obtain ⟨i, hi⟩ := List.mem_iff_getElem?.1 hp.1
  have hseg := r.segments_getElem? i
  rw [hi, Option.map_some] at hseg
  refine ⟨i, _, hseg, (contains_iff hdistinct hi hseg).2 hp, hshard.symm, fun j seg' hj hin => ?_⟩
  have hj' := hj
  rw [segments_getElem?, Option.map_eq_some_iff] at hj'
  obtain ⟨q, hq, -⟩ := hj'
  -- two first points lie at one place, and hence are one point
  have hplace := ((contains_iff hdistinct hq hj).1 hin).pos_eq hp
  have heq := List.inj_on_of_nodup_map hdistinct (List.mem_of_getElem? hq) hp.1
    (Point.hash_eq_of_place hplace)
  rw [heq, ← hi] at hq
  obtain ⟨hjl, -⟩ := List.getElem?_eq_some_iff.1 (hq.trans hi)
  exact (List.getElem?_inj hjl hdistinct.of_map).1 hq

/-- Two shards with two points each. -/
theorem Ring.segments_lookup_two :
    ∃ (i : Nat) (seg : Segment),
      (newRing .insertion [str "a", str "b"] 2).segments[i]? = some seg ∧
      seg.Contains (hashKey (str "alice")) ∧
      seg.shard = (newRing .insertion [str "a", str "b"] 2).lookup (str "alice") ∧
      ∀ (j : Nat) (seg' : Segment),
        (newRing .insertion [str "a", str "b"] 2).segments[j]? = some seg' →
        seg'.Contains (hashKey (str "alice")) → j = i :=
  segments_lookup (by decide +kernel) (by decide +kernel) (str "alice")

end Segments

end CoreBank.Shard
