import Alba.Nsm.Manager

/-! `update_manifest_generic`: fragments of a stored object move, change size or lose their osd. -/

namespace Alba.Nsm

open ProofKit Std

def FragmentUpdate.index (fu : FragmentUpdate) : Int × Int := (fu.chunkId, fu.fragmentId)

def fragmentTable (newFragments : List FragmentUpdate) : Except Exn (List FragmentUpdate) :=
  newFragments.foldlM (fun table fu =>
    if table.any (·.index = fu.index) then
      .error (.nsm .unknown (.text "duplicate chunk_id,fragment_id for update_manifest"))
    else .ok (fu :: table)) []

def findUpdate (table : List FragmentUpdate) (chunkId fragmentId : Nat) : Option FragmentUpdate :=
  table.find? fun fu => fu.index = ((chunkId : Int), (fragmentId : Int))

/-- The osd size updates of one fragment update, before the ones of the previous updates. -/
def updateOsdSizes (manifestOld : Manifest) (acc : List Upd) (fu : FragmentUpdate) :
    Except Exn (List Upd) := do
  let oldFragmentSize ← manifestOld.getPackedSize fu.chunkId fu.fragmentId
  let upd1 : List Upd := match fu.osdIdO, fu.sizeChange with
    | none, _ => []
    | some osdId, none => [.add (.osdSize osdId) (BitVec.ofInt 64 oldFragmentSize)]
    | some osdId, some (newSize, _) => [.add (.osdSize osdId) (BitVec.ofInt 64 newSize)]
  let upd2 : List Upd := match ← manifestOld.getLocation fu.chunkId fu.fragmentId with
    | (none, _) => []
    | (some previousOsdId, _) =>
      [.add (.osdSize previousOsdId) (BitVec.ofInt 64 (-oldFragmentSize))]
  return flattenUnordered [upd1, upd2, acc]

abbrev Loc := Option OsdId × Int32

/-- A location that an update replaces, with the chunk and the fragment it belongs to. -/
abbrev Obsolete := (Nat × Nat) × Loc

section Relocate

variable (table : List FragmentUpdate) (versionId : Int32)

/-- One fragment: counter, new locations in reverse, obsolete ones. -/
def relocateFragment (chunkId : Nat) (s : Nat × List Loc × List Obsolete) (oldLoc : Loc) :
    Nat × List Loc × List Obsolete :=
  let (fragmentId, locs, obsolete) := s
  match findUpdate table chunkId fragmentId with
  | some fu =>
    (fragmentId + 1, (fu.osdIdO, versionId) :: locs, ((chunkId, fragmentId), oldLoc) :: obsolete)
  | none => (fragmentId + 1, oldLoc :: locs, obsolete)

def relocateChunk (s : Nat × Layout Loc × List Obsolete) (chunk : List Loc) :
    Nat × Layout Loc × List Obsolete :=
  let (chunkId, locs, obsolete) := s
  let (_, locsRev, obsolete') :=
    chunk.foldl (relocateFragment table versionId chunkId) (0, [], obsolete)
  (chunkId + 1, locsRev.reverse :: locs, obsolete')

def relocate (locations : Layout Loc) : Nat × Layout Loc × List Obsolete :=
  locations.foldl (relocateChunk table versionId) (0, [], [])

end Relocate

def deleteKeysFromDevice (namespaceId : NamespaceId) (objectId : Bytes)
    (obsolete : List Obsolete) : List Upd :=
  flattenUnordered (obsolete.map fun ((chunkId, fragmentId), (osdIdO, versionId)) =>
    osdIdO.elim [] fun osdId =>
      deleteKeys namespaceId osdId objectId versionId.toInt chunkId fragmentId)

/-- A size or a checksum, replaced where an update changes it. -/
def maybeReplace {α : Type} (table : List FragmentUpdate) (extract : Int × Checksum → α)
    (chunkId fragmentId : Nat) (old : α) : α :=
  match findUpdate table chunkId fragmentId with
  | some fu => fu.sizeChange.elim old extract
  | none => old

/-- The new fragments: locations, checksums, sizes and counters, put together again. -/
def newFragments (table : List FragmentUpdate) (locations : Layout Loc)
    (fragments : Layout Fragment) : Except Exn (Layout Fragment) :=
  Layout.map4 Fragment.make'
    locations
    (fragments.mapIndexed fun c i f => maybeReplace table Prod.snd c i f.crc)
    (fragments.mapIndexed fun c i f => maybeReplace table Prod.fst c i f.len)
    (fragments.mapIndexed fun c i f => (findUpdate table c i).elim f.ctr FragmentUpdate.ctr)

def updateBuckets (k m : Int) (objectId : Bytes) (countsOld countsUpdated : Nat × Nat) :
    List Upd :=
  if countsOld ≠ countsUpdated then
    [.delete (.policies (bucket k m countsOld) objectId),
      .add (.policiesCnt (bucket k m countsOld)) (-1),
      .set (.policies (bucket k m countsUpdated) objectId) (some .empty),
      .add (.policiesCnt (bucket k m countsUpdated)) 1]
  else []

def updateStorageSize (manifestOld updatedManifest : Manifest) : List Upd :=
  let storageSizeDelta := updatedManifest.getSummedFragmentSizes - manifestOld.getSummedFragmentSizes
  if storageSizeDelta = 0 then [] else [.add .namespaceStorageSize storageSizeDelta]

section Shape

variable {α β γ δ ε : Type}

theorem map4_rows {f : α → β → γ → δ → Except Exn ε} {as : List α} {bs : List β} {cs : List γ}
    {ds : List δ} {es : List ε} (h : map4 f as bs cs ds = .ok es) :
    List.Forall₂ (fun d e => ∃ a b c, f a b c d = .ok e) ds es := by
  induction as, bs, cs, ds using map4.induct generalizing es with
  | case1 =>
    cases h
    exact .nil
  | case2 a as b bs c cs d ds ih =>
    simp only [map4, bind_eq_ok] at h
    obtain ⟨e, he, rest, hrest, h⟩ := h
    cases h
    exact .cons ⟨a, b, c, he⟩ (ih hrest)
  | case3 as bs cs ds h₁ h₂ =>
    rw [map4] at h
    · cases h
    · exact h₁
    · exact h₂

theorem Layout.map4_counted {f : α → β → γ → δ → ε} {as : Layout α} {bs : Layout β}
    {cs : Layout γ} {ds : Layout δ} {es : Layout ε} (h : Layout.map4 f as bs cs ds = .ok es)
    {n : Nat} (hn : ds.length < n ∧ ∀ chunk ∈ ds, chunk.length < n) :
    es.length < n ∧ ∀ chunk ∈ es, chunk.length < n := by
  have rows := map4_rows h
  refine ⟨rows.length_eq ▸ hn.1, fun chunk hchunk => ?_⟩
  obtain ⟨hlength, hget⟩ := List.forall₂_iff_get.mp rows
  obtain ⟨i, hi, rfl⟩ := List.mem_iff_getElem.mp hchunk
  obtain ⟨a, b, c, he⟩ := hget i (hlength ▸ hi) hi
  have hrow := hn.2 _ (List.getElem_mem (hlength ▸ hi))
  exact (map4_rows he).length_eq ▸ hrow

end Shape

theorem Layout.mapIndexed_counted {α β : Type} (g : Nat → Nat → α → β) {l : Layout α} {n : Nat}
    (hn : l.length < n ∧ ∀ chunk ∈ l, chunk.length < n) :
    (l.mapIndexed g).length < n ∧ ∀ chunk ∈ l.mapIndexed g, chunk.length < n := by
  refine ⟨by simpa [Layout.mapIndexed] using hn.1, fun chunk hchunk => ?_⟩
  obtain ⟨i, hi, rfl⟩ := List.mem_mapIdx.mp hchunk
  simpa using hn.2 _ (List.getElem_mem hi)

def updatedManifest (manifestOld : Manifest) (table : List FragmentUpdate) (versionId : Int32)
    (locations : Layout Loc) : Except Exn Manifest :=
  match h : newFragments table locations manifestOld.fragments with
  | .error e => .error e
  | .ok fragments => .ok
    { manifestOld with
      versionId, fragments
      counted := Layout.map4_counted h (Layout.mapIndexed_counted _ manifestOld.counted) }

section Operations

variable (namespaceId : NamespaceId) (cache : Option (BitVec 64 × Preset)) (kv : Store)

def updateManifestGeneric (objectName objectId : Bytes) (newFragments : List FragmentUpdate)
    (gcEpoch : Int64) (versionId : Int32) : Except Exn (List Upd) := do
  let assertEpoch ← assertGcEpoch kv gcEpoch
  let table ← fragmentTable newFragments
  let manifestOld ← getObjectManifestById kv objectId
  check (objectName = manifestOld.name) .assertFailure
  let expected := manifestOld.versionId.toInt + 1
  check (¬(versionId = 0 ∧ manifestOld.versionId ≠ 0) ∧
      ¬(versionId ≠ 0 ∧ expected ≠ versionId.toInt))
    (.nsm .invalidVersionId (.versions expected versionId.toInt))
  let osdSizes ← newFragments.foldlM (updateOsdSizes manifestOld) []
  let (_, locationsRev, obsolete) := relocate table versionId manifestOld.locations
  let updated ← updatedManifest manifestOld table versionId locationsRev.reverse
  checkFragmentOsdSpread updated
  let mappingUpds ← updateDeviceObjectMapping kv objectId manifestOld.locations updated.fragments
  let scheme := manifestOld.storageScheme
  let countsOld ← getMinFragmentCountAndMaxDisksPerNode cache kv scheme.k scheme.m
    manifestOld.fragments false
  -- that a fragment is lost for good can always be registered
  let validate := !newFragments.all fun fu => fu.osdIdO = none
  let countsUpdated ← getMinFragmentCountAndMaxDisksPerNode cache kv scheme.k scheme.m
    updated.fragments validate
  return List.flatten [
    deleteKeysFromDevice namespaceId objectId obsolete,
    Update.compareAndSwap (.objects objectId) (some (.manifest manifestOld))
      (some (.manifest updated.stored)),
    [assertEpoch],
    mappingUpds,
    osdSizes,
    updateBuckets scheme.k scheme.m objectId countsOld countsUpdated,
    updateStorageSize manifestOld updated]

def updateManifest (objectName objectId : Bytes) (newFragments : List (Int × Int × Option OsdId))
    (gcEpoch : Int64) (versionId : Int32) : Except Exn (List Upd) :=
  let newFragments' := newFragments.map fun (chunkId, fragmentId, osdIdO) =>
    { chunkId, fragmentId, osdIdO, sizeChange := none, ctr := none, fnr := none }
  updateManifestGeneric namespaceId cache kv objectName objectId newFragments' gcEpoch versionId

def updateManifest2 (objectName objectId : Bytes) (newFragments : List FragmentUpdate)
    (gcEpoch : Int64) (versionId : Int32) : Except Exn (List Upd) :=
  updateManifestGeneric namespaceId cache kv objectName objectId newFragments gcEpoch versionId

end Operations

end Alba.Nsm
