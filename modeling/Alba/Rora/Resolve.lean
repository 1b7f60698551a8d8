import Alba.Nsm.Keys
import Alba.ProofKit.Run
import Alba.ProofKit.Tiles
import Alba.Rora.Manifest

/-! Where the bytes of a slice are: the fragment of one position, the fragments of a slice, and these
looked up in turn as objects of the fragment cache. Reading a vector past its end is a fault here. -/

namespace Alba.Rora

open List hiding next
open ProofKit
open Nsm (EncryptInfo stringTo)

inductive Fault
  | outOfBounds
  | divisionByZero
  | stillRunning
  deriving DecidableEq

structure Location where
  namespaceId : UInt64
  objectId : Bytes
  chunkId : UInt32
  fragmentId : UInt32
  offset : UInt32
  length : UInt32
  fragmentLocation : Option UInt64 × UInt32
  usesCompression : Bool
  encryptInfo : EncryptInfo
  ctr : Option Bytes
  deriving DecidableEq

/-- `buf` is an address. -/
structure SliceDescriptor where
  buf : Nat
  offset : UInt64
  size : UInt32
  deriving DecidableEq

structure ObjectSlices where
  objectName : Bytes
  slices : List SliceDescriptor
  deriving DecidableEq

section Model

/-- `v[i]` of a vector. -/
def at? {α : Type} (v : List α) (i : Nat) : Except Fault α :=
  match v[i]? with
  | some x => .ok x
  | none => .error .outOfBounds

def divide (a b : UInt32) : Except Fault UInt32 :=
  if b = 0 then .error .divisionByZero else .ok (a / b)

/-- `while (total <= pos)`, with the chunk sizes that the iterator still has ahead. -/
def findChunk (pos : UInt64) : List UInt32 → Int → UInt64 → Except Fault (Int × UInt64)
  | [], chunkIndex, total => if total ≤ pos then .error .outOfBounds else .ok (chunkIndex, total)
  | chunkSize :: rest, chunkIndex, total =>
    if total ≤ pos then findChunk pos rest (chunkIndex + 1) (total + chunkSize.toUInt64)
    else .ok (chunkIndex, total)

def getLocation (mf : ManifestWithNamespaceId) (pos : UInt64) (len : UInt32) :
    Except Fault Location := do
  let (chunkIndex, total) ← findChunk pos mf.chunkSizes (-1) 0
  let chunkFragments ← at? mf.fragments chunkIndex.toNat
  let chunkSize ← at? mf.chunkSizes chunkIndex.toNat
  let total := total - chunkSize.toUInt64
  let fragmentLength ← divide chunkSize mf.encodingScheme.k
  let posInChunk := (pos - total).toUInt32
  let fragmentIndex ← divide posInChunk fragmentLength
  let fragment ← at? chunkFragments fragmentIndex.toNat
  let total := total + (fragmentLength * fragmentIndex).toUInt64
  let posInFragment := (pos - total).toUInt32
  return {
    namespaceId := mf.namespaceId
    objectId := mf.objectId
    chunkId := UInt32.ofNat chunkIndex.toNat
    fragmentId := fragmentIndex
    fragmentLocation := fragment.loc
    offset := posInFragment
    length := min len (fragmentLength - posInFragment)
    usesCompression := mf.compression ≠ .noCompression
    encryptInfo := mf.encryptInfo
    ctr := fragment.ctr }

/-- `while (length > 0)`, for `fuel` rounds. -/
def resolveSliceOneLevel (mf : ManifestWithNamespaceId) :
    Nat → List (Nat × Location) → UInt64 → UInt32 → Nat → Except Fault (List (Nat × Location))
  | fuel, results, offset, length, target =>
    if length = 0 then .ok results
    else
      match fuel with
      | 0 => .error .stillRunning
      | fuel + 1 => do
        let l ← getLocation mf offset length
        resolveSliceOneLevel mf fuel (results ++ [(target, l)]) (offset + l.length.toUInt64)
          (length - l.length) (target + l.length.toNat)

abbrev ManifestCache := Bytes → Bytes → Bytes → Option ManifestWithNamespaceId

variable (cache : ManifestCache) (namespace_ : Bytes)

def resolveSlices (mf : ManifestWithNamespaceId) (slices : List SliceDescriptor) :
    Except Fault (List (Nat × Location)) :=
  slices.foldlM
    (fun results s => resolveSliceOneLevel mf s.size.toNat results s.offset s.size s.buf) []

def resolveOneLevel (albaId : Bytes) (o : ObjectSlices) :
    Except Fault (Option (List (Nat × Location))) :=
  match cache namespace_ albaId o.objectName with
  | none => .ok none
  | some mf => some <$> resolveSlices mf o.slices

/-- The name under which a fragment is an object of the next level. -/
def fragmentCacheObjectName (objectId : Bytes) (chunkId fragmentId : Nat) : Bytes :=
  stringTo objectId ++ (leBytes 4 chunkId ++ leBytes 4 fragmentId)

def nextSlices (x : Nat × Location) : ObjectSlices :=
  { objectName := fragmentCacheObjectName x.2.objectId x.2.chunkId.toNat x.2.fragmentId.toNat
    slices := [{ buf := x.1, offset := x.2.offset.toUInt64, size := x.2.length }] }

/-- The locations are resolved in turn, until one of them cannot be. -/
def resolveLocations (resolve : ObjectSlices → Except Fault (Option (List (Nat × Location)))) :
    List (Nat × Location) → Except Fault (Option (List (Nat × Location)))
  | [] => .ok (some [])
  | x :: rest => do
    match ← resolve (nextSlices x) with
    | none => return none
    | some locations =>
      match ← resolveLocations resolve rest with
      | none => return none
      | some final => return some (locations ++ final)

def resolveOneManyLevels : List Bytes → ObjectSlices → Except Fault (Option (List (Nat × Location)))
  | [], _ => .error .outOfBounds
  | [albaId], o => resolveOneLevel cache namespace_ albaId o
  | albaId :: next :: levels, o => do
    match ← resolveOneLevel cache namespace_ albaId o with
    | none => return none
    | some locations => resolveLocations (resolveOneManyLevels (next :: levels)) locations

end Model

namespace Manifest

variable (mf : Manifest)

def chunkStart (c : Nat) : Nat := ((mf.chunkSizes.take c).map UInt32.toNat).sum

def paddedSize : Nat := (mf.chunkSizes.map UInt32.toNat).sum

/-- What the client relies on. A message counts the chunks in 32 bits. -/
structure WellFormed : Prop where
  k_pos : 0 < mf.encodingScheme.k.toNat
  sizes : ∀ s ∈ mf.chunkSizes, 0 < s.toNat ∧ mf.encodingScheme.k.toNat ∣ s.toNat
  counted : mf.chunkSizes.length < 2 ^ 31
  rows : mf.fragments.length = mf.chunkSizes.length
  width : ∀ row ∈ mf.fragments, mf.encodingScheme.k.toNat ≤ row.length

/-- Byte `pos` of the object is byte `q` of fragment `f` of chunk `c`. -/
structure IsAt (pos c f q : Nat) (fragment : Fragment) : Prop where
  chunk : ∃ s, mf.chunkSizes[c]? = some s ∧ q < s.toNat / mf.encodingScheme.k.toNat ∧
    pos = mf.chunkStart c + f * (s.toNat / mf.encodingScheme.k.toNat) + q
  row : ∃ row, mf.fragments[c]? = some row ∧ row[f]? = some fragment
  data : f < mf.encodingScheme.k.toNat

end Manifest

section Find

variable (pos : UInt64) (sizes : List UInt32) (i : Int) (total : UInt64)

theorem toNat_add_size (s : UInt32) (h : total.toNat + s.toNat < 2 ^ 64) :
    (total + s.toUInt64).toNat = total.toNat + s.toNat := by
  rw [UInt64.toNat_add, UInt32.toNat_toUInt64, Nat.mod_eq_of_lt h]

theorem findChunk_of_lt (hfits : total.toNat + (sizes.map UInt32.toNat).sum < 2 ^ 64)
    (hlow : total.toNat ≤ pos.toNat) (hhigh : pos.toNat < total.toNat + (sizes.map UInt32.toNat).sum) :
    ∃ (c : Nat) (s : UInt32) (total' : UInt64), sizes[c]? = some s ∧
      findChunk pos sizes i total = .ok (i + 1 + c, total') ∧
      total'.toNat = total.toNat + ((sizes.take c).map UInt32.toNat).sum + s.toNat ∧
      total'.toNat - s.toNat ≤ pos.toNat ∧ pos.toNat < total'.toNat := by
  induction sizes generalizing i total with
  | nil =>
    simp only [map_nil, sum_nil] at hhigh
    omega
  | cons s rest ih =>
    simp only [map_cons, sum_cons] at hfits hhigh
    have hsum := toNat_add_size total s (by omega)
    rw [findChunk, if_pos (UInt64.le_iff_toNat_le.mpr hlow)]
    by_cases hpos : pos.toNat < total.toNat + s.toNat
    · refine ⟨0, s, total + s.toUInt64, rfl, ?_, by simp [hsum], by omega, by omega⟩
      have hstop : ¬ total + s.toUInt64 ≤ pos := by
        rw [UInt64.le_iff_toNat_le]
        omega
      cases rest <;> simp [findChunk, hstop]
    · obtain ⟨c, s', total', hs', hfind, htotal, hle, hlt⟩ :=
        ih (i + 1) (total + s.toUInt64) (by omega) (by omega) (by omega)
      refine ⟨c + 1, s', total', hs', ?_, ?_, hle, hlt⟩
      · rw [hfind]
        congr 2
        push_cast
        omega
      · rw [htotal, hsum, take_succ_cons, map_cons, sum_cons]
        omega

theorem findChunk_of_le (hfits : total.toNat + (sizes.map UInt32.toNat).sum < 2 ^ 64)
    (h : total.toNat + (sizes.map UInt32.toNat).sum ≤ pos.toNat) :
    findChunk pos sizes i total = .error .outOfBounds := by
  induction sizes generalizing i total with
  | nil =>
    rw [findChunk, if_pos (UInt64.le_iff_toNat_le.mpr (by simpa using h))]
  | cons s rest ih =>
    simp only [map_cons, sum_cons] at hfits h
    have hsum := toNat_add_size total s (by omega)
    rw [findChunk, if_pos (UInt64.le_iff_toNat_le.mpr (by omega))]
    exact ih (i + 1) (total + s.toUInt64) (by omega) (by omega)

end Find

namespace Manifest

variable {mf : Manifest}

theorem WellFormed.paddedSize_lt (h : mf.WellFormed) : mf.paddedSize < 2 ^ 63 := by
  have hsum : mf.paddedSize ≤ (mf.chunkSizes.map UInt32.toNat).length • 2 ^ 32 := by
    refine sum_le_card_nsmul _ _ fun n hn => ?_
    obtain ⟨s, _, rfl⟩ := mem_map.mp hn
    exact s.toNat_lt.le
  rw [length_map, smul_eq_mul] at hsum
  have := h.counted
  omega

theorem IsAt.shift {pos c f q j : Nat} {fragment : Fragment} {s : UInt32}
    (h : mf.IsAt pos c f q fragment) (hs : mf.chunkSizes[c]? = some s)
    (hj : q + j < s.toNat / mf.encodingScheme.k.toNat) : mf.IsAt (pos + j) c f (q + j) fragment := by
  obtain ⟨⟨s', hs', _, hpos⟩, hrow, hdata⟩ := h
  cases hs.symm.trans hs'
  exact ⟨⟨s, hs, hj, by omega⟩, hrow, hdata⟩

end Manifest

/-- The location is in fragment `f` of chunk `c`. -/
structure Location.InFragment (l : Location) (mf : ManifestWithNamespaceId) (c f : Nat)
    (fragment : Fragment) : Prop where
  objectId : l.objectId = mf.objectId
  chunkId : l.chunkId.toNat = c
  fragmentId : l.fragmentId.toNat = f
  fragmentLocation : l.fragmentLocation = fragment.loc
  usesCompression : l.usesCompression = decide (mf.compression ≠ .noCompression)
  encryptInfo : l.encryptInfo = mf.encryptInfo
  ctr : l.ctr = fragment.ctr

section Location

variable {mf : ManifestWithNamespaceId} (pos : UInt64) (len : UInt32)

theorem toNat_min (a b : UInt32) : (min a b).toNat = min a.toNat b.toNat := by
  change (if a ≤ b then a else b).toNat = _
  by_cases h : a ≤ b
  · rw [if_pos h, Nat.min_eq_left (UInt32.le_iff_toNat_le.mp h)]
  · rw [if_neg h, Nat.min_eq_right (by rw [UInt32.le_iff_toNat_le] at h; omega)]

theorem divide_of_pos {a b : UInt32} (h : 0 < b.toNat) : divide a b = .ok (a / b) := by
  rw [divide, if_neg]
  rintro rfl
  simp at h

/-- `get_location` finds the fragment of a position of the padded object, and goes on to the end of that
fragment. -/
theorem getLocation_eq (hmf : mf.WellFormed) (hpos : pos.toNat < mf.paddedSize) (hlen : 0 < len.toNat) :
    ∃ (l : Location) (c f : Nat) (fragment : Fragment) (s : UInt32),
      getLocation mf pos len = .ok l ∧ l.InFragment mf c f fragment ∧
      mf.chunkSizes[c]? = some s ∧ mf.IsAt pos.toNat c f l.offset.toNat fragment ∧
      0 < l.length.toNat ∧ l.length.toNat ≤ len.toNat ∧
      l.offset.toNat + l.length.toNat ≤ s.toNat / mf.encodingScheme.k.toNat := by
  have hpadded := hmf.paddedSize_lt
  obtain ⟨c, s, total, hs, hfind, htotal, hle, hlt⟩ :=
    findChunk_of_lt pos mf.chunkSizes (-1) 0
      (by simpa [Manifest.paddedSize] using hpadded.trans (by decide)) (by simp)
      (by simpa [Manifest.paddedSize] using hpos)
  obtain ⟨hspos, hdvd⟩ := hmf.sizes s (mem_of_getElem? hs)
  have hk := hmf.k_pos
  have hc : c < mf.fragments.length := by
    rw [hmf.rows]
    exact (List.getElem?_eq_some_iff.mp hs).1
  set k := mf.encodingScheme.k.toNat with hkdef
  set L := s.toNat / k with hL
  have hS : s.toNat = k * L := (Nat.mul_div_cancel' hdvd).symm
  have hLpos : 0 < L := Nat.div_pos (Nat.le_of_dvd hspos hdvd) hk
  have hs32 := s.toNat_lt
  have hstart : total.toNat = mf.chunkStart c + s.toNat := by
    rw [htotal]
    simp [Manifest.chunkStart]
  -- the words of the computation, as numbers
  have htotal₁ : (total - s.toUInt64).toNat = mf.chunkStart c := by
    rw [UInt64.toNat_sub_of_le _ _ (UInt64.le_iff_toNat_le.mpr (by
      rw [UInt32.toNat_toUInt64]; omega)), UInt32.toNat_toUInt64]
    omega
  have hflen : (s / mf.encodingScheme.k).toNat = L := UInt32.toNat_div _ _
  have hinChunk : (pos - (total - s.toUInt64)).toUInt32.toNat = pos.toNat - mf.chunkStart c := by
    rw [UInt64.toNat_toUInt32, UInt64.toNat_sub_of_le _ _ (UInt64.le_iff_toNat_le.mpr (by omega)),
      htotal₁]
    omega
  set p := pos.toNat - mf.chunkStart c with hp
  have hf : p / L < k := Nat.div_lt_of_lt_mul (by rw [Nat.mul_comm]; omega)
  have hpl : L * (p / L) + p % L = p := Nat.div_add_mod p L
  have hq := Nat.mod_lt p hLpos
  obtain ⟨row, hrow⟩ : ∃ row, mf.fragments[c]? = some row := ⟨_, getElem?_eq_getElem hc⟩
  have hwidth := hmf.width row (mem_of_getElem? hrow)
  obtain ⟨fragment, hfragment⟩ : ∃ fragment, row[p / L]? = some fragment :=
    ⟨_, getElem?_eq_getElem (by omega)⟩
  have hindex : ((pos - (total - s.toUInt64)).toUInt32 / (s / mf.encodingScheme.k)).toNat = p / L := by
    rw [UInt32.toNat_div, hinChunk, hflen]
  set flen := s / mf.encodingScheme.k with hflenDef
  set index := (pos - (total - s.toUInt64)).toUInt32 / flen with hindexDef
  have htotal₂ : (total - s.toUInt64 + (flen * index).toUInt64).toNat =
      mf.chunkStart c + L * (p / L) := by
    rw [UInt64.toNat_add, UInt32.toNat_toUInt64, UInt32.toNat_mul, htotal₁, hflen, hindex]
    omega
  set total₂ := total - s.toUInt64 + (flen * index).toUInt64 with htotal₂Def
  have hoffset : (pos - total₂).toUInt32.toNat = p % L := by
    rw [UInt64.toNat_toUInt32, UInt64.toNat_sub_of_le _ _ (UInt64.le_iff_toNat_le.mpr (by omega)),
      htotal₂]
    omega
  set offset := (pos - total₂).toUInt32 with hoffsetDef
  have hrest : (flen - offset).toNat = L - p % L := by
    rw [UInt32.toNat_sub_of_le _ _ (UInt32.le_iff_toNat_le.mpr (by omega)), hflen, hoffset]
  have hlength : (min len (flen - offset)).toNat = min len.toNat (L - p % L) := by
    rw [toNat_min, hrest]
  have hchunk : (-1 + 1 + (c : Int)).toNat = c := by omega
  have hget : getLocation mf pos len = .ok
      { namespaceId := mf.namespaceId, objectId := mf.objectId, chunkId := UInt32.ofNat c,
        fragmentId := index, fragmentLocation := fragment.loc, offset,
        length := min len (flen - offset), usesCompression := mf.compression ≠ .noCompression,
        encryptInfo := mf.encryptInfo, ctr := fragment.ctr } := by
    simp only [getLocation, hfind, ok_bind, hchunk, at?, hrow, hs, divide_of_pos hk,
      divide_of_pos (hflen ▸ hLpos), ← hflenDef, ← hindexDef, hindex, hfragment]
    rfl
  refine ⟨_, c, p / L, fragment, s, hget, ?_, hs, ?_, ?_⟩
  · have hc31 := hmf.counted
    have hc32 : c < 2 ^ 32 := by rw [hmf.rows] at hc; omega
    exact ⟨rfl, UInt32.toNat_ofNat_of_lt' hc32, hindex, rfl, rfl, rfl, rfl⟩
  · refine ⟨⟨s, hs, by rw [hoffset]; exact hq, ?_⟩, ⟨row, hrow, hfragment⟩, hf⟩
    rw [hoffset, ← hkdef, ← hL, Nat.mul_comm]
    omega
  · rw [hlength, hoffset]
    omega

end Location

section Slice

/-- The piece at place `j` of a slice that starts at byte `offset` of the object. -/
structure Piece (mf : ManifestWithNamespaceId) (offset target j : Nat) (x : Nat × Location) : Prop where
  target : x.1 = target + j
  place : ∃ c f fragment s, x.2.InFragment mf c f fragment ∧ mf.chunkSizes[c]? = some s ∧
    mf.IsAt (offset + j) c f x.2.offset.toNat fragment ∧
    x.2.offset.toNat + x.2.length.toNat ≤ s.toNat / mf.encodingScheme.k.toNat

def width (x : Nat × Location) : Nat := x.2.length.toNat

variable {mf : ManifestWithNamespaceId} {fuel : Nat} (results : List (Nat × Location))
  {offset : UInt64} {length : UInt32} (target : Nat)

theorem Manifest.chunkStart_add_le {mf : Manifest} {c : Nat} {s : UInt32}
    (h : mf.chunkSizes[c]? = some s) : mf.chunkStart c + s.toNat ≤ mf.paddedSize := by
  obtain ⟨hc, rfl⟩ := List.getElem?_eq_some_iff.mp h
  have hsplit : mf.chunkSizes = mf.chunkSizes.take c ++ mf.chunkSizes[c] :: mf.chunkSizes.drop (c + 1) := by
    rw [← drop_eq_getElem_cons hc, take_append_drop]
  rw [Manifest.paddedSize, Manifest.chunkStart]
  conv_rhs => rw [hsplit, map_append, map_cons, sum_append, sum_cons]
  omega

theorem Manifest.IsAt.add_le {mf : Manifest} {pos c f q n : Nat} {fragment : Fragment} {s : UInt32}
    (h : mf.IsAt pos c f q fragment) (hs : mf.chunkSizes[c]? = some s)
    (hn : q + n ≤ s.toNat / mf.encodingScheme.k.toNat) : pos + n ≤ mf.paddedSize := by
  obtain ⟨⟨s', hs', _, hpos⟩, _, hdata⟩ := h
  cases hs.symm.trans hs'
  have hchunk := Manifest.chunkStart_add_le hs
  have hfragments : (f + 1) * (s.toNat / mf.encodingScheme.k.toNat) ≤ s.toNat :=
    (Nat.mul_le_mul_right _ hdata).trans (Nat.mul_div_le _ _)
  rw [Nat.add_mul] at hfragments
  omega

theorem resolveSliceOneLevel_eq (hmf : mf.WellFormed)
    (h : offset.toNat + length.toNat ≤ mf.paddedSize) (hfuel : length.toNat ≤ fuel) :
    ∃ locations, resolveSliceOneLevel mf fuel results offset length target =
        .ok (results ++ locations) ∧
      Tiles width (Piece mf offset.toNat target) 0 length.toNat locations := by
  have hpadded := hmf.paddedSize_lt
  induction fuel generalizing results offset length target with
  | zero =>
    have hzero : length = 0 := UInt32.toNat_inj.mp (by simpa using hfuel)
    subst hzero
    exact ⟨[], by simp [resolveSliceOneLevel], rfl⟩
  | succ fuel ih =>
    by_cases hzero : length = 0
    · subst hzero
      exact ⟨[], by simp [resolveSliceOneLevel], rfl⟩
    have hlength : 0 < length.toNat := by
      rw [Nat.pos_iff_ne_zero]
      exact fun h => hzero (UInt32.toNat_inj.mp h)
    obtain ⟨l, c, f, fragment, s, hl, hin, hs, hat, hpos, hle, hend⟩ :=
      getLocation_eq offset length hmf (by omega) hlength
    have hoffset : (offset + l.length.toUInt64).toNat = offset.toNat + l.length.toNat :=
      toNat_add_size offset l.length (by omega)
    have hrest : (length - l.length).toNat = length.toNat - l.length.toNat :=
      UInt32.toNat_sub_of_le _ _ (UInt32.le_iff_toNat_le.mpr hle)
    have hinside : offset.toNat + l.length.toNat + (length.toNat - l.length.toNat) ≤ mf.paddedSize := by
      omega
    obtain ⟨locations, hresolve, htiles⟩ := ih (results ++ [(target, l)])
      (target + l.length.toNat) (hoffset ▸ hrest ▸ hinside) (by omega)
    refine ⟨(target, l) :: locations, ?_, hpos, hle, ⟨rfl, c, f, fragment, s, hin, hs, hat, hend⟩, ?_⟩
    · rw [resolveSliceOneLevel, if_neg hzero]
      simp only [hl, ok_bind, hresolve, append_assoc, singleton_append]
    · rw [hrest, hoffset] at htiles
      refine htiles.shift fun j x hx => ⟨?_, ?_⟩
      · rw [hx.target]
        simp only [width]
        omega
      · rw [Nat.add_comm j, ← Nat.add_assoc]
        exact hx.place

end Slice

end Alba.Rora
