import Alba.Rora.Levels

/-! The bytes behind the locations. The contents of the fragments of all levels are given; an object of
the fragment cache holds the fragment it stands for. -/

namespace Alba.Rora

open List hiding next
open ProofKit

/-- The bytes of a fragment, by alba id, object id, chunk and fragment. -/
abbrev Contents := Bytes → Bytes → Nat → Nat → Bytes

def dataBytes (mf : Manifest) (fragments : Nat → Nat → Bytes) : Bytes :=
  (List.range mf.chunkSizes.length).flatMap fun c =>
    (List.range mf.encodingScheme.k.toNat).flatMap fun f => fragments c f

/-- The fragments have the length that the manifest gives them. -/
def Filled (mf : Manifest) (fragments : Nat → Nat → Bytes) : Prop :=
  ∀ c f s, mf.chunkSizes[c]? = some s → f < mf.encodingScheme.k.toNat →
    (fragments c f).length = s.toNat / mf.encodingScheme.k.toNat

section Holds

variable (content : Contents) (cache : ManifestCache) (namespace_ : Bytes)

/-- Every fragment of the object is an object of the next level that starts with the whole fragment. -/
def Holds : List Bytes → ManifestWithNamespaceId → Prop
  | albaId :: next :: levels, mf => ∀ c f s, mf.chunkSizes[c]? = some s →
      f < mf.encodingScheme.k.toNat → ∃ mf',
        cache namespace_ next (fragmentCacheObjectName mf.objectId c f) = some mf' ∧
        mf'.WellFormed ∧ Filled mf'.toManifest (content next mf'.objectId) ∧
        content albaId mf.objectId c f <+: dataBytes mf'.toManifest (content next mf'.objectId) ∧
        Holds (next :: levels) mf'
  | _, _ => True

end Holds

/-- `n` bytes from `q` on in a fragment are the bytes from `pos` on in the data. -/
structure SameBytes (fragment : Bytes) (q : Nat) (data : Bytes) (pos n : Nat) : Prop where
  fits : q + n ≤ fragment.length
  same : ∀ i < n, fragment[q + i]? = data[pos + i]?

section Bytes

variable {mf : Manifest} {fragments : Nat → Nat → Bytes}

section

variable (hmf : mf.WellFormed) (hfilled : Filled mf fragments)
include hmf hfilled

theorem length_chunk {c : Nat} {s : UInt32} (hs : mf.chunkSizes[c]? = some s) :
    ((List.range mf.encodingScheme.k.toNat).flatMap fun f => fragments c f).length = s.toNat := by
  have hlength : ∀ f ∈ List.range mf.encodingScheme.k.toNat,
      (fragments c f).length = s.toNat / mf.encodingScheme.k.toNat :=
    fun f hf => hfilled c f s hs (mem_range.mp hf)
  rw [length_flatMap, map_congr_left hlength, map_const', sum_replicate,
    length_range, smul_eq_mul]
  exact Nat.mul_div_cancel' (hmf.sizes s (mem_of_getElem? hs)).2

theorem chunkStart_eq {c : Nat} (hc : c < mf.chunkSizes.length) :
    (((List.range mf.chunkSizes.length).take c).map fun c =>
        ((List.range mf.encodingScheme.k.toNat).flatMap fun f => fragments c f).length).sum =
      mf.chunkStart c := by
  rw [Manifest.chunkStart]
  congr 1
  refine ext_getElem? fun i => ?_
  rw [getElem?_map, getElem?_map, getElem?_take, getElem?_take]
  by_cases hi : i < c
  · have hlt : i < mf.chunkSizes.length := by omega
    simp only [hi, if_true, getElem?_range hlt, Option.map_some, getElem?_eq_getElem hlt,
      length_chunk hmf hfilled (getElem?_eq_getElem hlt)]
  · simp [hi]

theorem getElem?_dataBytes {pos c f q : Nat} {fragment : Fragment} (h : mf.IsAt pos c f q fragment) :
    (dataBytes mf fragments)[pos]? = (fragments c f)[q]? ∧ q < (fragments c f).length := by
  obtain ⟨⟨s, hs, hq, hpos⟩, _, hf⟩ := h
  have hc : c < mf.chunkSizes.length := (List.getElem?_eq_some_iff.mp hs).1
  have hlength := hfilled c f s hs hf
  set k := mf.encodingScheme.k.toNat
  set L := s.toNat / k
  have hstart : (((List.range k).take f).map fun f => (fragments c f).length).sum = f * L := by
    have hall : ∀ f' ∈ (List.range k).take f, (fragments c f').length = L := fun f' hf' =>
      hfilled c f' s hs (mem_range.mp (mem_of_mem_take hf'))
    rw [map_congr_left hall, map_const', sum_replicate, length_take,
      length_range, smul_eq_mul, Nat.min_eq_left hf.le]
  have hinner := getElem?_flatMap_block (g := fun f => fragments c f)
    (getElem?_range hf) (by rw [hlength]; exact hq)
  rw [hstart] at hinner
  have hplace : f * L + q < s.toNat := by
    have := (Nat.mul_le_mul_right L hf).trans (Nat.mul_div_le s.toNat k)
    rw [Nat.succ_mul] at this
    omega
  have houter := getElem?_flatMap_block
    (g := fun c => (List.range k).flatMap fun f => fragments c f)
    (getElem?_range hc) (by rw [length_chunk hmf hfilled hs]; exact hplace)
  rw [chunkStart_eq hmf hfilled hc] at houter
  refine ⟨?_, by rw [hlength]; exact hq⟩
  rw [dataBytes, hpos, Nat.add_assoc, houter, hinner]

theorem length_dataBytes : (dataBytes mf fragments).length = mf.paddedSize := by
  rw [dataBytes, length_flatMap, Manifest.paddedSize]
  congr 1
  refine ext_getElem? fun i => ?_
  rw [getElem?_map, getElem?_map]
  by_cases hi : i < mf.chunkSizes.length
  · rw [getElem?_range hi, getElem?_eq_getElem hi, Option.map_some, Option.map_some,
      length_chunk hmf hfilled (getElem?_eq_getElem hi)]
  · simp [hi]

end

end Bytes

section Levels

variable {content : Contents} {cache : ManifestCache} {namespace_ : Bytes} {levels : List Bytes}
  {albaId : Bytes} {mf : ManifestWithNamespaceId}

theorem exists_isAt {pos : Nat} (hmf : mf.WellFormed) (hpos : pos < mf.paddedSize) :
    ∃ c f q fragment, mf.IsAt pos c f q fragment := by
  have hpadded := hmf.paddedSize_lt
  have hword : (UInt64.ofNat pos).toNat = pos := UInt64.toNat_ofNat_of_lt' ((hpos.trans hpadded).trans_le (by decide))
  obtain ⟨l, c, f, fragment, _, _, _, _, hat, _⟩ :=
    getLocation_eq (UInt64.ofNat pos) 1 hmf (hword.symm ▸ hpos) (by decide)
  exact ⟨c, f, _, fragment, hword ▸ hat⟩

theorem Holds.found {next : Bytes} (h : Holds content cache namespace_ (albaId :: next :: levels) mf)
    {c f : Nat} {s : UInt32} {mf' : ManifestWithNamespaceId} (hs : mf.chunkSizes[c]? = some s)
    (hf : f < mf.encodingScheme.k.toNat)
    (hfound : cache namespace_ next (fragmentCacheObjectName mf.objectId c f) = some mf') :
    mf'.WellFormed ∧ Filled mf'.toManifest (content next mf'.objectId) ∧
      content albaId mf.objectId c f <+: dataBytes mf'.toManifest (content next mf'.objectId) ∧
      Holds content cache namespace_ (next :: levels) mf' := by
  obtain ⟨mf'', hfound', hmf', hfilled, hstarts, hbelow⟩ := h c f s hs hf
  cases hfound.symm.trans hfound'
  exact ⟨hmf', hfilled, hstarts, hbelow⟩

theorem Holds.nested (hfilled : Filled mf.toManifest (content albaId mf.objectId))
    (h : Holds content cache namespace_ (albaId :: levels) mf) :
    Nested cache namespace_ (albaId :: levels) mf := by
  induction levels generalizing albaId mf with
  | nil => trivial
  | cons next levels ih =>
    intro c f s mf' hs hf hfound
    obtain ⟨hmf', hfilled', hstarts, hbelow⟩ := h.found hs hf hfound
    refine ⟨hmf', ?_, ih hfilled' hbelow⟩
    rw [← hfilled c f s hs hf, ← length_dataBytes hmf' hfilled']
    exact hstarts.length_le

section

variable (hmf : mf.WellFormed)
  (hfilled : Filled mf.toManifest (content albaId mf.objectId))
  (h : Holds content cache namespace_ (albaId :: levels) mf)
include hmf hfilled h

theorem Holds.stored {pos : Nat} (hpos : pos < mf.paddedSize) :
    ∃ last c f q fragment, Stored cache namespace_ (albaId :: levels) mf pos last c f q fragment := by
  induction levels generalizing albaId mf pos with
  | nil =>
    obtain ⟨c, f, q, fragment, hat⟩ := exists_isAt hmf hpos
    exact ⟨mf, c, f, q, fragment, .last hat⟩
  | cons next levels ih =>
    obtain ⟨c, f, q, fragment, hat⟩ := exists_isAt hmf hpos
    obtain ⟨s, hs, _, _⟩ := hat.chunk
    obtain ⟨mf', hfound, hmf', hfilled', hstarts, hbelow⟩ := h c f s hs hat.data
    have hq : q < mf'.paddedSize := by
      rw [← length_dataBytes hmf' hfilled']
      exact (getElem?_dataBytes hmf hfilled hat).2.trans_le hstarts.length_le
    obtain ⟨last, c', f', q', fragment', hstored⟩ := ih hmf' hfilled' hbelow hq
    exact ⟨last, c', f', q', fragment', .next hat hfound hstored⟩

theorem Stored.same {pos c f q : Nat} {last : ManifestWithNamespaceId} {fragment : Fragment}
    (hstored : Stored cache namespace_ (albaId :: levels) mf pos last c f q fragment) :
    let bytes := content ((albaId :: levels).getLast (cons_ne_nil _ _)) last.objectId c f
    bytes[q]? = (dataBytes mf.toManifest (content albaId mf.objectId))[pos]? ∧ q < bytes.length := by
  induction levels generalizing albaId mf pos with
  | nil =>
    cases hstored with
    | last here =>
      obtain ⟨hsame, hlt⟩ := getElem?_dataBytes hmf hfilled here
      exact ⟨hsame.symm, hlt⟩
  | cons next levels ih =>
    cases hstored with
    | next here found below =>
      obtain ⟨s, hs, _, _⟩ := here.chunk
      obtain ⟨hmf', hfilled', hstarts, hbelow⟩ := h.found hs here.data found
      obtain ⟨hsame, hlt⟩ := ih hmf' hfilled' hbelow below
      obtain ⟨hdata, hq⟩ := getElem?_dataBytes hmf hfilled here
      obtain ⟨rest, hrest⟩ := hstarts
      refine ⟨?_, hlt⟩
      rw [getLast_cons (cons_ne_nil _ _), hdata, hsame, ← hrest, getElem?_append_left hq]

theorem FinalPiece.sameBytes {offset target j : Nat} {x : Nat × Location}
    (hx : FinalPiece cache namespace_ (albaId :: levels) mf offset target j x) (hpos : 0 < width x) :
    SameBytes
      (content ((albaId :: levels).getLast (cons_ne_nil _ _)) x.2.objectId x.2.chunkId.toNat
        x.2.fragmentId.toNat)
      x.2.offset.toNat (dataBytes mf.toManifest (content albaId mf.objectId)) (offset + j)
      (width x) := by
  obtain ⟨last, c, f, fragment, hin, hstored⟩ := hx.place
  rw [hin.objectId, hin.chunkId, hin.fragmentId]
  refine ⟨?_, fun i hi => ((hstored i hi).same hmf hfilled h).1⟩
  have hlast := ((hstored (width x - 1) (by simp only [width] at hpos ⊢; omega)).same hmf hfilled h).2
  omega

end

end Levels

/-- The direct read path reads the right bytes. The locations of a slice of the padded object follow each
other from its first byte to its last, and each is in one data fragment, at the bytes that the slice
asks for; over several levels they are in fragments of the last one. -/
theorem direct_read_tiles (content : Contents) :
    (∀ (albaId : Bytes) (mf : ManifestWithNamespaceId), mf.WellFormed →
      Filled mf.toManifest (content albaId mf.objectId) →
      ∀ (offset : UInt64) (length : UInt32) (target fuel : Nat) (results : List (Nat × Location)),
        offset.toNat + length.toNat ≤ mf.paddedSize → length.toNat ≤ fuel →
        ∃ locations, resolveSliceOneLevel mf fuel results offset length target =
            .ok (results ++ locations) ∧
          Tiles width (fun j x => x.1 = target + j ∧
              x.2.fragmentId.toNat < mf.encodingScheme.k.toNat ∧
              SameBytes (content albaId mf.objectId x.2.chunkId.toNat x.2.fragmentId.toNat)
                x.2.offset.toNat (dataBytes mf.toManifest (content albaId mf.objectId))
                (offset.toNat + j) (width x))
            0 length.toNat locations) ∧
    ∀ (cache : ManifestCache) (namespace_ albaId : Bytes) (levels : List Bytes) (o : ObjectSlices)
      (mf : ManifestWithNamespaceId), cache namespace_ albaId o.objectName = some mf →
      mf.WellFormed → Filled mf.toManifest (content albaId mf.objectId) →
      Holds content cache namespace_ (albaId :: levels) mf →
      (∀ s ∈ o.slices, s.offset.toNat + s.size.toNat ≤ mf.paddedSize) →
      ∃ locations, resolveOneManyLevels cache namespace_ (albaId :: levels) o = .ok (some locations) ∧
        Tiles width (InSlices o.slices fun s j x => x.1 = s.buf + j ∧
            SameBytes
              (content ((albaId :: levels).getLast (cons_ne_nil _ _)) x.2.objectId
                x.2.chunkId.toNat x.2.fragmentId.toNat)
              x.2.offset.toNat (dataBytes mf.toManifest (content albaId mf.objectId))
              (s.offset.toNat + j) (width x))
          0 (requested o.slices) locations := by
  constructor
  · intro albaId mf hmf hfilled offset length target fuel results hinside hfuel
    obtain ⟨locations, hresolve, htiles⟩ := resolveSliceOneLevel_eq results target hmf hinside hfuel
    refine ⟨locations, hresolve, htiles.bounded.shift (d := 0) fun j x ⟨hx, hpos, _⟩ => ?_⟩
    obtain ⟨c, f, fragment, s, hin, hs, hat, hend⟩ := hx.place
    refine ⟨hx.target, hin.fragmentId.symm ▸ hat.data, ?_⟩
    have hfinal : FinalPiece (fun _ _ _ => none) [] [albaId] mf offset.toNat target j x := hx.final
    have hholds : Holds content (fun _ _ _ => none) [] [albaId] mf := trivial
    have hsame := hfinal.sameBytes hmf hfilled hholds hpos
    rw [hin.objectId] at hsame
    exact hsame
  · intro cache namespace_ albaId levels o mf hfound hmf hfilled hholds hinside
    obtain ⟨r, hr, hresolved⟩ := resolveOneManyLevels_eq hmf hfound (hholds.nested hfilled) hinside
    cases r with
    | none =>
      obtain ⟨s, hs, j, hj, hunknown⟩ := hresolved.missing rfl
      have hpos : s.offset.toNat + j < mf.paddedSize := by
        have := hinside s hs
        omega
      obtain ⟨last, c, f, q, fragment, hstored⟩ := hholds.stored hmf hfilled hpos
      exact (hunknown last c f q fragment hstored).elim
    | some locations =>
      refine ⟨locations, hr, (hresolved.tiles locations rfl).bounded.shift (d := 0) ?_⟩
      rintro p x ⟨⟨s, j, hs, hend, hx⟩, hpos, _⟩
      exact ⟨s, j, hs, hend, hx.target, hx.sameBytes hmf hfilled hholds hpos⟩

def wide : ManifestWithNamespaceId where
  name := [110]
  objectId := [111]
  chunkSizes := [4, 4]
  encodingScheme := ⟨2, 1, 1⟩
  compression := .noCompression
  encryptInfo := .noEncryption
  checksum := .noChecksum
  size := 7
  fragments := List.replicate 2 (List.replicate 3 ⟨(some 4, 0), .noChecksum, 2, none, none⟩)
  versionId := 0
  maxDisksPerNode := 1
  timestamp := ⟨0⟩
  namespaceId := 3

def cached (name : Bytes) : ManifestWithNamespaceId :=
  { wide with
    name, objectId := name, chunkSizes := [2], encodingScheme := ⟨1, 0, 1⟩, size := 2
    fragments := [[⟨(some 9, 0), .noChecksum, 2, none, none⟩]] }

/-- Two levels: each fragment of the wide object is an object of the second. -/
def twoLevels : ManifestCache := fun _ albaId name =>
  if albaId = [65] then (if name = [110] then some wide else none) else some (cached name)

/-- A fragment of the wide object holds its own numbers, which the names of the second level spell. -/
def numbers : Contents := fun albaId objectId c f =>
  if albaId = [65] then [UInt8.ofNat c, UInt8.ofNat f] else [objectId.getD 5 0, objectId.getD 9 0]

theorem wide_wellFormed : wide.WellFormed where
  k_pos := by decide
  sizes := by simp [wide]
  counted := by simp [wide]
  rows := rfl
  width := by simp [wide]

theorem cached_wellFormed (name : Bytes) : (cached name).WellFormed where
  k_pos := by simp [cached]
  sizes := by simp [cached]
  counted := by simp [cached]
  rows := rfl
  width := by simp [cached]

theorem filled_numbers :
    Filled wide.toManifest (numbers [65] wide.objectId) ∧
      ∀ name, Filled (cached name).toManifest (numbers [66] name) := by
  constructor
  · intro c f s hs _
    have hs : s = 4 := by simpa [wide] using mem_of_getElem? hs
    simp [hs, numbers, wide]
  · intro name c f s hs _
    have hs : s = 2 := by simpa [cached] using mem_of_getElem? hs
    simp [hs, numbers, cached]

theorem holds_numbers : Holds numbers twoLevels [] [[65], [66]] wide := by
  intro c f s hs hf
  refine ⟨cached _, rfl, cached_wellFormed _, filled_numbers.2 _, ?_, trivial⟩
  simp [numbers, cached, wide, dataBytes, fragmentCacheObjectName, Nsm.stringTo, Nsm.intTo, leBytes]

theorem direct_read_tiles_twoLevels :
    ∃ locations, resolveOneManyLevels twoLevels [] [[65], [66]] ⟨[110], [⟨0, 1, 6⟩]⟩ =
        .ok (some locations) ∧ (locations.map width).sum = 6 := by
  obtain ⟨locations, hresolve, htiles⟩ := (direct_read_tiles numbers).2 twoLevels [] [65] [[66]]
    ⟨[110], [⟨0, 1, 6⟩]⟩ wide rfl wide_wellFormed filled_numbers.1 holds_numbers (by decide)
  exact ⟨locations, hresolve, htiles.sum_width⟩

end Alba.Rora
