import Alba.Transfer.Upload

/-! `_download_object_slices` up to the pieces that are fetched: the requested slices are sorted and
checked, and every fragment is cut against every slice. -/

namespace Alba.Transfer

open List hiding next
open ProofKit

structure Interval where
  offset : Int
  length : Int
  deriving DecidableEq

namespace Interval

def next (t : Interval) : Int := t.offset + t.length

def overlap (t1 t2 : Interval) : Bool := !(t1.next ≤ t2.offset || t2.next ≤ t1.offset)

def intersection (t1 t2 : Interval) : Option Interval :=
  if t1.next ≤ t2.offset || t2.next ≤ t1.offset then none
  else
    let offset := max t1.offset t2.offset
    some { offset, length := min t1.next t2.next - offset }

def Contains (t : Interval) (x : Int) : Prop := t.offset ≤ x ∧ x < t.next

instance (t : Interval) (x : Int) : Decidable (t.Contains x) := inferInstanceAs (Decidable (_ ∧ _))

def Shares (t1 t2 : Interval) : Prop := ∃ x, t1.Contains x ∧ t2.Contains x

instance (t1 t2 : Interval) : Decidable (t1.Shares t2) :=
  decidable_of_iff (max t1.offset t2.offset < min t1.next t2.next) <| by
    constructor
    · intro h
      exact ⟨max t1.offset t2.offset, ⟨by omega, by omega⟩, ⟨by omega, by omega⟩⟩
    · rintro ⟨x, h1, h2⟩
      simp only [Contains] at h1 h2
      omega

theorem not_contains_of_intersection {t1 t2 : Interval} (h : intersection t1 t2 = none) (x : Int) :
    ¬ (t1.Contains x ∧ t2.Contains x) := by
  unfold intersection at h
  split at h
  · rename_i hapart
    simp only [Bool.or_eq_true, decide_eq_true_eq] at hapart
    simp only [Contains]
    omega
  · cases h

theorem contains_intersection {t1 t2 t : Interval} (h : intersection t1 t2 = some t) (x : Int) :
    t.Contains x ↔ t1.Contains x ∧ t2.Contains x := by
  unfold intersection at h
  split at h
  · cases h
  · cases h
    simp only [Contains, next] at *
    omega

end Interval

/-- A slice of the object, and where its bytes go. -/
structure ObjectSlice (δ : Type) where
  slice : Interval
  dest : δ
  destOff : Int
  deriving DecidableEq

inductive SliceError
  | badSliceLength
  | overlappingSlices
  | sliceOutsideObject
  | assertFailure
  deriving DecidableEq

/-- A part of a fragment, and where it goes. -/
structure Piece (δ : Type) where
  offset : Int
  length : Int
  dest : δ
  destOff : Int
  deriving DecidableEq

structure FragmentPieces (δ : Type) where
  fragmentId : Nat
  fragmentSlice : Interval
  intersectingSlices : List (Piece δ)
  deriving DecidableEq

structure ChunkPieces (δ : Type) where
  chunkId : Nat
  chunkIntersections : List (FragmentPieces δ)
  deriving DecidableEq

section Model

variable {δ : Type}

def sortSlices (objectSlices : List (ObjectSlice δ)) : List (ObjectSlice δ) :=
  objectSlices.insertionSort fun a b => a.slice.offset ≤ b.slice.offset

def checkSlice (s : Interval × Int) (objectSlice : ObjectSlice δ) :
    Except SliceError (Interval × Int) := do
  check (¬ objectSlice.slice.length < 0) .badSliceLength
  check (¬ s.1.overlap objectSlice.slice) .overlappingSlices
  return (objectSlice.slice, s.2 + objectSlice.slice.length)

def pieceOf (fragmentSlice : Interval) (s : ObjectSlice δ) : Option (Piece δ) :=
  (fragmentSlice.intersection s.slice).map fun t =>
    { offset := t.offset - fragmentSlice.offset
      length := t.length
      dest := s.dest
      destOff := s.destOff + (t.offset - s.slice.offset) }

def intersectSlices (slices : List (ObjectSlice δ)) (fragmentSlice : Interval) : List (Piece δ) :=
  slices.foldl (fun acc s => match pieceOf fragmentSlice s with
    | none => acc
    | some p => p :: acc) []

def intersectFragment (slices : List (ObjectSlice δ)) (fragmentSize : Nat)
    (s : List (FragmentPieces δ) × Int) (fragmentId : Nat) : List (FragmentPieces δ) × Int :=
  let fragmentSlice := { offset := s.2, length := fragmentSize }
  let intersectingSlices := intersectSlices slices fragmentSlice
  (if intersectingSlices.isEmpty then s.1 else { fragmentId, fragmentSlice, intersectingSlices } :: s.1,
    s.2 + fragmentSize)

def intersectChunk (k : Nat) (slices : List (ObjectSlice δ)) (s : Int × Nat × List (ChunkPieces δ))
    (chunkSize : Nat) : Int × Nat × List (ChunkPieces δ) :=
  let (chunkIntersections, _) :=
    (List.range k).foldl (intersectFragment slices (chunkSize / k)) ([], s.1)
  (s.1 + chunkSize, s.2.1 + 1,
    if chunkIntersections.isEmpty then s.2.2
    else { chunkId := s.2.1, chunkIntersections } :: s.2.2)

/-- The pieces to fetch for the slices. -/
def downloadObjectSlices (manifest : Manifest) (objectSlices : List (ObjectSlice δ)) :
    Except SliceError (List (ChunkPieces δ)) := do
  let slices := sortSlices objectSlices
  let (lastSlice, length) ← slices.foldlM checkSlice ({ offset := -1, length := 0 }, 0)
  check (length < 2 ^ 32) .assertFailure
  if length = 0 then return []
  else
    check (¬ (manifest.size : Int) < lastSlice.next) .sliceOutsideObject
    let (_, _, intersections) :=
      manifest.chunkSizes.foldl (intersectChunk manifest.k slices) (0, 0, [])
    return intersections

end Model

section Writes

variable {δ : Type}

structure Source where
  chunkId : Nat
  fragmentId : Nat
  offset : Int
  deriving DecidableEq

/-- The bytes that a piece writes, each with the byte of the fragment it comes from. -/
def Piece.writes (chunkId fragmentId : Nat) (p : Piece δ) : List ((δ × Int) × Source) :=
  (List.range p.length.toNat).map fun (j : Nat) =>
    ((p.dest, p.destOff + j), { chunkId, fragmentId, offset := p.offset + j })

def FragmentPieces.writes (chunkId : Nat) (f : FragmentPieces δ) : List ((δ × Int) × Source) :=
  f.intersectingSlices.flatMap (Piece.writes chunkId f.fragmentId)

def ChunkPieces.writes (c : ChunkPieces δ) : List ((δ × Int) × Source) :=
  c.chunkIntersections.flatMap (FragmentPieces.writes c.chunkId)

/-- The fragment byte is the byte of the object with number `x`. -/
def Manifest.Holds (manifest : Manifest) (x : Int) (src : Source) : Prop :=
  ∃ chunkSize, manifest.chunkSizes[src.chunkId]? = some chunkSize ∧ src.fragmentId < manifest.k ∧
    0 ≤ src.offset ∧ src.offset < (chunkSize / manifest.k : Nat) ∧
    x = (manifest.chunkSizes.take src.chunkId).sum + src.fragmentId * (chunkSize / manifest.k : Nat) +
      src.offset

/-- Every byte asked for is written once, from the byte of the object that was asked for. -/
structure Served (manifest : Manifest) (objectSlices : List (ObjectSlice δ))
    (pieces : List (ChunkPieces δ)) : Prop where
  once : ((pieces.flatMap ChunkPieces.writes).map Prod.fst).Nodup
  filled : ∀ s ∈ objectSlices, ∀ i, 0 ≤ i → i < s.slice.length →
    ∃ src, ((s.dest, s.destOff + i), src) ∈ pieces.flatMap ChunkPieces.writes ∧
      manifest.Holds (s.slice.offset + i) src

/-- No byte of a buffer is the destination of both slices. -/
def ObjectSlice.Apart (a b : ObjectSlice δ) : Prop :=
  a.dest = b.dest → ¬ Interval.Shares ⟨a.destOff, a.slice.length⟩ ⟨b.destOff, b.slice.length⟩

instance [DecidableEq δ] (a b : ObjectSlice δ) : Decidable (a.Apart b) :=
  inferInstanceAs (Decidable (_ → _))

end Writes

section Slots

variable {δ : Type}

/-- A fragment and the part of the object that it holds. -/
structure Slot where
  chunkId : Nat
  fragmentId : Nat
  slice : Interval

def Slot.ofFragment (chunkId chunkOffset fragmentSize fragmentId : Nat) : Slot :=
  { chunkId, fragmentId
    slice := { offset := chunkOffset + fragmentId * fragmentSize, length := fragmentSize } }

/-- The data fragments of the chunks, in the order of the object. -/
def slots (k : Nat) (chunkOffset chunkId : Nat) : List Nat → List Slot
  | [] => []
  | chunkSize :: chunkSizes =>
    (List.range k).map (Slot.ofFragment chunkId chunkOffset (chunkSize / k)) ++
      slots k (chunkOffset + chunkSize) (chunkId + 1) chunkSizes

def Slot.writesOf (t : Slot) (s : ObjectSlice δ) : List ((δ × Int) × Source) :=
  match pieceOf t.slice s with
  | none => []
  | some p => p.writes t.chunkId t.fragmentId

/-- The byte of the slice with the number `x` in the object goes to its place. -/
def ObjectSlice.target (s : ObjectSlice δ) (x : Int) : δ × Int :=
  (s.dest, s.destOff + (x - s.slice.offset))

theorem Slot.mem_writesOf {t : Slot} {s : ObjectSlice δ} {target : δ × Int} {src : Source} :
    (target, src) ∈ t.writesOf s ↔ ∃ x, t.slice.Contains x ∧ s.slice.Contains x ∧
      target = s.target x ∧
      src = { chunkId := t.chunkId, fragmentId := t.fragmentId, offset := x - t.slice.offset } := by
  unfold writesOf pieceOf
  cases h : t.slice.intersection s.slice with
  | none =>
    have hnone := Interval.not_contains_of_intersection h
    simp only [Option.map_none, not_mem_nil, false_iff]
    rintro ⟨x, ht, hs, -⟩
    exact hnone x ⟨ht, hs⟩
  | some r =>
    have hr := Interval.contains_intersection h
    simp only [Option.map_some, Piece.writes, mem_map, mem_range, Prod.mk.injEq]
    constructor
    · rintro ⟨j, hj, rfl, rfl⟩
      have hin : r.Contains (r.offset + j) := by
        simp only [Interval.Contains, Interval.next]
        omega
      refine ⟨r.offset + j, ((hr _).mp hin).1, ((hr _).mp hin).2, ?_, ?_⟩
      · simp only [ObjectSlice.target, Prod.mk.injEq, true_and]
        omega
      · simp only [Source.mk.injEq, true_and]
        omega
    · rintro ⟨x, ht, hs, rfl, rfl⟩
      have hin := (hr x).mpr ⟨ht, hs⟩
      simp only [Interval.Contains, Interval.next] at hin
      refine ⟨(x - r.offset).toNat, by omega, ?_, ?_⟩
      · simp only [ObjectSlice.target, Prod.mk.injEq, true_and]
        omega
      · simp only [Source.mk.injEq, true_and]
        omega

theorem slots_bounds (k chunkOffset chunkId : Nat) (chunkSizes : List Nat) :
    ∀ t ∈ slots k chunkOffset chunkId chunkSizes, (chunkOffset : Int) ≤ t.slice.offset := by
  induction chunkSizes generalizing chunkOffset chunkId with
  | nil => simp [slots]
  | cons chunkSize chunkSizes ih =>
    intro t ht
    rcases mem_append.mp ht with ht | ht
    · obtain ⟨f, -, rfl⟩ := mem_map.mp ht
      have hpos : (0 : Int) ≤ (f : Int) * ((chunkSize / k : Nat) : Int) := by positivity
      show (chunkOffset : Int) ≤ chunkOffset + f * (chunkSize / k : Nat)
      omega
    · have h := ih _ _ t ht
      omega

theorem fragment_next_le (size : Nat) {f k : Nat} (hf : f < k) : f * (size / k) + size / k ≤ size := by
  have hmul : (f + 1) * (size / k) ≤ k * (size / k) := Nat.mul_le_mul_right _ hf
  have hdiv := Nat.mul_div_le size k
  rw [Nat.add_mul] at hmul
  omega

theorem slots_pairwise (k chunkOffset chunkId : Nat) (chunkSizes : List Nat) :
    (slots k chunkOffset chunkId chunkSizes).Pairwise fun a b => a.slice.next ≤ b.slice.offset := by
  induction chunkSizes generalizing chunkOffset chunkId with
  | nil => exact .nil
  | cons chunkSize chunkSizes ih =>
    refine pairwise_append.mpr ⟨?_, ih _ _, fun a ha b hb => ?_⟩
    · refine pairwise_map.mpr (pairwise_lt_range.imp fun {f g} hfg => ?_)
      have hmul : (f + 1) * (chunkSize / k) ≤ g * (chunkSize / k) := Nat.mul_le_mul_right _ hfg
      rw [Nat.add_mul] at hmul
      simp only [Slot.ofFragment, Interval.next]
      omega
    · obtain ⟨f, hf, rfl⟩ := mem_map.mp ha
      have hb := slots_bounds _ _ _ _ b hb
      have hnext := fragment_next_le chunkSize (mem_range.mp hf)
      simp only [Slot.ofFragment, Interval.next]
      omega

theorem slots_cover {k : Nat} {chunkSizes : List Nat} (hsizes : ∀ n ∈ chunkSizes, 0 < n ∧ k ∣ n)
    (chunkOffset chunkId : Nat) {x : Int} (hlow : (chunkOffset : Int) ≤ x)
    (hhigh : x < chunkOffset + chunkSizes.sum) :
    ∃ t ∈ slots k chunkOffset chunkId chunkSizes, t.slice.Contains x ∧
      ∃ j chunkSize, t.chunkId = chunkId + j ∧ chunkSizes[j]? = some chunkSize ∧ t.fragmentId < k ∧
        t.slice = { offset := chunkOffset + (chunkSizes.take j).sum + t.fragmentId * (chunkSize / k : Nat)
                    length := (chunkSize / k : Nat) } := by
  induction chunkSizes generalizing chunkOffset chunkId with
  | nil =>
    simp only [sum_nil] at hhigh
    omega
  | cons chunkSize chunkSizes ih =>
    obtain ⟨hpos, size, rfl⟩ := hsizes chunkSize (by simp)
    have hk : 0 < k := Nat.pos_of_mul_pos_right hpos
    have hsize : 0 < size := Nat.pos_of_mul_pos_left hpos
    have hdiv : k * size / k = size := Nat.mul_div_cancel_left size hk
    rw [sum_cons] at hhigh
    by_cases hfirst : x < chunkOffset + (k * size : Nat)
    · -- the byte is in the first chunk
      obtain ⟨y, rfl⟩ : ∃ y : Nat, x = chunkOffset + y := ⟨(x - chunkOffset).toNat, by omega⟩
      have hy : y / size < k := Nat.div_lt_of_lt_mul (by rw [Nat.mul_comm]; omega)
      have hmod := Nat.div_add_mod y size
      have hlt := Nat.mod_lt y hsize
      refine ⟨_, mem_append.mpr (.inl (mem_map.mpr ⟨y / size, mem_range.mpr hy, rfl⟩)),
        ?_, 0, k * size, rfl, rfl, hy, ?_⟩
      · simp only [Slot.ofFragment, Interval.Contains, Interval.next, hdiv, ← Nat.cast_mul]
        rw [Nat.mul_comm] at hmod
        omega
      · simp [Slot.ofFragment]
    · obtain ⟨t, ht, hcontains, j, n, hid, hn, hf, hslice⟩ :=
        ih (fun n hn => hsizes n (mem_cons_of_mem _ hn)) (chunkOffset + k * size) (chunkId + 1)
          (by omega) (by push_cast at *; omega)
      refine ⟨t, mem_append.mpr (.inr ht), hcontains, j + 1, n, by omega, by simpa using hn, hf, ?_⟩
      rw [hslice, take_succ_cons, sum_cons]
      simp only [Interval.mk.injEq, and_true]
      push_cast
      omega

end Slots

section Loops

variable {δ : Type} (slices : List (ObjectSlice δ))

def Slot.writes (t : Slot) : List ((δ × Int) × Source) := slices.flatMap t.writesOf

theorem intersectSlices_eq (fragmentSlice : Interval) :
    intersectSlices slices fragmentSlice = (slices.filterMap (pieceOf fragmentSlice)).reverse := by
  have h : ∀ acc, slices.foldl (fun acc s => match pieceOf fragmentSlice s with
      | none => acc
      | some p => p :: acc) acc = (slices.filterMap (pieceOf fragmentSlice)).reverse ++ acc := by
    induction slices with
    | nil => exact fun acc => rfl
    | cons s slices ih =>
      intro acc
      rw [foldl_cons, ih, filterMap_cons]
      cases pieceOf fragmentSlice s <;> simp
  simpa [intersectSlices] using h []

theorem intersectSlices_writes (t : Slot) :
    ((intersectSlices slices t.slice).flatMap (Piece.writes t.chunkId t.fragmentId)).Perm
      (t.writes slices) := by
  rw [intersectSlices_eq, Slot.writes]
  refine ((reverse_perm _).flatMap_right _).trans ?_
  induction slices with
  | nil => exact .refl _
  | cons s slices ih =>
    rw [filterMap_cons, flatMap_cons, Slot.writesOf]
    cases pieceOf t.slice s with
    | none => simpa using ih
    | some p => simpa using ih.append_left _

theorem intersectFragment_writes (chunkId chunkOffset fragmentSize f : Nat)
    (acc : List (FragmentPieces δ)) :
    ((intersectFragment slices fragmentSize (acc, chunkOffset + f * fragmentSize) f).1.flatMap
      (FragmentPieces.writes chunkId)).Perm
      (acc.flatMap (FragmentPieces.writes chunkId) ++
        (Slot.ofFragment chunkId chunkOffset fragmentSize f).writes slices) := by
  refine .trans ?_ ((intersectSlices_writes slices _).append_left _)
  simp only [intersectFragment, Slot.ofFragment]
  split
  · rename_i hempty
    simp [List.isEmpty_iff.mp hempty]
  · exact perm_append_comm

theorem intersectFragments_writes (chunkId chunkOffset fragmentSize start n : Nat)
    (acc : List (FragmentPieces δ)) :
    (((List.range' start n).foldl (intersectFragment slices fragmentSize)
        (acc, chunkOffset + start * fragmentSize)).1.flatMap (FragmentPieces.writes chunkId)).Perm
      (acc.flatMap (FragmentPieces.writes chunkId) ++ (List.range' start n).flatMap fun f =>
        (Slot.ofFragment chunkId chunkOffset fragmentSize f).writes slices) := by
  induction n generalizing start acc with
  | zero => simp
  | succ n ih =>
    have hstep := intersectFragment_writes slices chunkId chunkOffset fragmentSize start acc
    have hnext : intersectFragment slices fragmentSize (acc, chunkOffset + start * fragmentSize) start =
        ((intersectFragment slices fragmentSize (acc, chunkOffset + start * fragmentSize) start).1,
          (chunkOffset : Int) + (start + 1 : Nat) * fragmentSize) := by
      simp only [intersectFragment, Prod.mk.injEq, true_and]
      push_cast
      ring
    rw [range'_succ, foldl_cons, flatMap_cons, ← append_assoc, hnext]
    exact (ih (start + 1) _).trans (hstep.append_right _)

theorem intersectChunk_writes (k chunkOffset chunkId chunkSize : Nat) (acc : List (ChunkPieces δ)) :
    ((intersectChunk k slices (chunkOffset, chunkId, acc) chunkSize).2.2.flatMap ChunkPieces.writes).Perm
      (acc.flatMap ChunkPieces.writes ++
        ((List.range k).map (Slot.ofFragment chunkId chunkOffset (chunkSize / k))).flatMap
          (Slot.writes slices)) := by
  have h := intersectFragments_writes slices chunkId chunkOffset (chunkSize / k) 0 k []
  rw [← range_eq_range'] at h
  simp only [Nat.cast_zero, Int.zero_mul, Int.add_zero, flatMap_nil, nil_append] at h
  rw [flatMap_map]
  refine .trans ?_ (h.append_left _)
  simp only [intersectChunk]
  split
  · rename_i hempty
    simp [List.isEmpty_iff.mp hempty]
  · exact perm_append_comm

theorem intersectChunks_writes (k chunkOffset chunkId : Nat) (chunkSizes : List Nat)
    (acc : List (ChunkPieces δ)) :
    ((chunkSizes.foldl (intersectChunk k slices) (chunkOffset, chunkId, acc)).2.2.flatMap
      ChunkPieces.writes).Perm
      (acc.flatMap ChunkPieces.writes ++
        (slots k chunkOffset chunkId chunkSizes).flatMap (Slot.writes slices)) := by
  induction chunkSizes generalizing chunkOffset chunkId acc with
  | nil => simp [slots]
  | cons chunkSize chunkSizes ih =>
    have hstep := intersectChunk_writes slices k chunkOffset chunkId chunkSize acc
    have hnext := ih (chunkOffset + chunkSize) (chunkId + 1)
      (intersectChunk k slices (chunkOffset, chunkId, acc) chunkSize).2.2
    rw [slots, flatMap_append, ← append_assoc, foldl_cons]
    rw [Nat.cast_add] at hnext
    exact hnext.trans (hstep.append_right _)

end Loops

section Service

variable {δ : Type} {slices : List (ObjectSlice δ)}

theorem ObjectSlice.Apart.symm {a b : ObjectSlice δ} (h : a.Apart b) : b.Apart a := by
  rintro hdest ⟨x, hb, ha⟩
  exact h hdest.symm ⟨x, ha, hb⟩

instance : Std.Symm (ObjectSlice.Apart (δ := δ)) := ⟨fun _ _ h => h.symm⟩

theorem ObjectSlice.Apart.target_ne {a b : ObjectSlice δ} (h : a.Apart b) {x y : Int}
    (hx : a.slice.Contains x) (hy : b.slice.Contains y) : a.target x ≠ b.target y := by
  intro heq
  simp only [target, Prod.mk.injEq] at heq
  simp only [Interval.Contains, Interval.next] at hx hy
  refine h heq.1 ⟨a.destOff + (x - a.slice.offset), ?_, ?_⟩
  · simp only [Interval.Contains, Interval.next]
    omega
  · simp only [Interval.Contains, Interval.next]
    omega

theorem Slot.nodup_writesOf (t : Slot) (s : ObjectSlice δ) : ((t.writesOf s).map Prod.fst).Nodup := by
  unfold writesOf
  cases pieceOf t.slice s with
  | none => exact .nil
  | some p =>
    simp only [Piece.writes, map_map]
    refine nodup_range.map fun i j h => ?_
    simp only [Function.comp_apply, Prod.mk.injEq, true_and] at h
    omega

theorem Slot.nodup_writes (t : Slot) (hslices : slices.Pairwise ObjectSlice.Apart) :
    ((t.writes slices).map Prod.fst).Nodup := by
  rw [Slot.writes, map_flatMap, nodup_flatMap]
  refine ⟨fun s _ => t.nodup_writesOf s, hslices.imp fun {a b} hab => ?_⟩
  intro target ha hb
  obtain ⟨⟨_, src⟩, hwa, rfl⟩ := mem_map.mp ha
  obtain ⟨⟨_, src'⟩, hwb, heq⟩ := mem_map.mp hb
  obtain ⟨x, -, hx, rfl, -⟩ := Slot.mem_writesOf.mp hwa
  obtain ⟨y, -, hy, rfl, -⟩ := Slot.mem_writesOf.mp hwb
  exact hab.target_ne hx hy heq.symm

theorem nodup_writes {ts : List Slot} (hts : ts.Pairwise fun a b => a.slice.next ≤ b.slice.offset)
    (hslices : slices.Pairwise ObjectSlice.Apart) :
    ((ts.flatMap (Slot.writes slices)).map Prod.fst).Nodup := by
  rw [map_flatMap, nodup_flatMap]
  refine ⟨fun t _ => t.nodup_writes hslices, hts.imp fun {t u} htu => ?_⟩
  intro target ht hu
  obtain ⟨⟨_, src⟩, hwt, rfl⟩ := mem_map.mp ht
  obtain ⟨⟨_, src'⟩, hwu, heq⟩ := mem_map.mp hu
  obtain ⟨a, ha, hwa⟩ := mem_flatMap.mp hwt
  obtain ⟨b, hb, hwb⟩ := mem_flatMap.mp hwu
  obtain ⟨x, htx, hx, rfl, -⟩ := Slot.mem_writesOf.mp hwa
  obtain ⟨y, huy, hy, rfl, -⟩ := Slot.mem_writesOf.mp hwb
  by_cases hab : a = b
  · -- one byte of a slice would be in two fragments
    subst hab
    simp only [ObjectSlice.target, Prod.mk.injEq, true_and] at heq
    simp only [Interval.Contains] at htx huy
    omega
  · exact (hslices.forall ha hb hab).target_ne hx hy heq.symm

theorem served_of_inside {manifest : Manifest} {objectSlices : List (ObjectSlice δ)}
    (hsizes : ∀ n ∈ manifest.chunkSizes, 0 < n ∧ manifest.k ∣ n)
    (hsum : manifest.size ≤ manifest.chunkSizes.sum) (hdest : objectSlices.Pairwise ObjectSlice.Apart)
    (hinside : ∀ s ∈ objectSlices, 0 < s.slice.length →
      0 ≤ s.slice.offset ∧ s.slice.next ≤ manifest.size) :
    Served manifest objectSlices
      (manifest.chunkSizes.foldl (intersectChunk manifest.k (sortSlices objectSlices)) (0, 0, [])).2.2 := by
  have hperm : (sortSlices objectSlices).Perm objectSlices := perm_insertionSort _ _
  have hwrites := intersectChunks_writes (sortSlices objectSlices) manifest.k 0 0 manifest.chunkSizes []
  simp only [Nat.cast_zero, flatMap_nil, nil_append] at hwrites
  refine ⟨?_, fun s hs i hi hlength => ?_⟩
  · rw [(hwrites.map _).nodup_iff]
    refine nodup_writes (slots_pairwise _ _ _ _) ?_
    exact (hperm.pairwise_iff ObjectSlice.Apart.symm).mpr hdest
  · obtain ⟨hlow, hhigh⟩ := hinside s hs (by omega)
    simp only [Interval.next] at hhigh
    obtain ⟨t, ht, hcontains, j, n, hid, hn, hf, hslice⟩ :=
      slots_cover hsizes 0 0 (x := s.slice.offset + i) (by omega) (by omega)
    have hmem : ((s.dest, s.destOff + i), Source.mk t.chunkId t.fragmentId
        (s.slice.offset + i - t.slice.offset)) ∈ t.writesOf s := by
      refine Slot.mem_writesOf.mpr ⟨s.slice.offset + i, hcontains, ?_, ?_, rfl⟩
      · simp only [Interval.Contains, Interval.next]
        omega
      · simp only [ObjectSlice.target, Prod.mk.injEq, true_and]
        omega
    refine ⟨_, hwrites.mem_iff.mpr (mem_flatMap.mpr ⟨t, ht,
      mem_flatMap.mpr ⟨s, hperm.mem_iff.mpr hs, hmem⟩⟩), n, ?_, hf, ?_⟩
    · simpa [hid] using hn
    · simp only [Interval.Contains, Interval.next, hslice] at hcontains
      simp only [hslice, hid, Nat.zero_add, Nat.cast_zero] at hcontains ⊢
      omega

end Service

end Alba.Transfer
