import Alba.Nsm.Footprint

/-! What the computation of a list of updates reads. An operation computes the same updates from two
stores that agree on the preset, the osds and the keys of its own objects. -/

namespace Alba.Nsm

open ProofKit Std

/-- The stores agree on presets and osds. -/
def SameFrame (kv kv' : Store) : Prop :=
  ∀ k : Key, k.kind ∈ [.preset, .presetVersion, .osdInfo, .activeOsds] → kvGet kv' k = kvGet kv k

section Frame

variable {namespaceId : NamespaceId} {cache : Option (BitVec 64 × Preset)} {kv kv' : Store}

theorem getPreset_congr (h : SameFrame kv kv') : getPreset cache kv' = getPreset cache kv := by
  simp only [getPreset, kvGetExn, h .presetVersion (by simp), h .preset (by simp)]

theorem countFragment_congr (h : SameFrame kv kv') : countFragment kv' = countFragment kv := by
  funext counts f
  cases hd : f.osd with
  | none => simp only [countFragment, hd]
  | some d => simp only [countFragment, hd, getOsdInfo, kvGetExn, h (.osdInfo d) (by simp)]

theorem getMinFragmentCountAndMaxDisksPerNode_congr (h : SameFrame kv kv') (k m : Int)
    (fragments : Layout Fragment) (validate : Bool) :
    getMinFragmentCountAndMaxDisksPerNode cache kv' k m fragments validate =
      getMinFragmentCountAndMaxDisksPerNode cache kv k m fragments validate := by
  have hchunk : countChunk kv' = countChunk kv := by
    funext counts chunk
    simp only [countChunk, getBlaPerChunk, countFragment_congr h]
  simp only [getMinFragmentCountAndMaxDisksPerNode, hchunk, getPreset_congr h]

theorem updateDeviceObjectMapping_congr (h : SameFrame kv kv') (objectId : Bytes)
    (oldLocations : Layout (Option OsdId × Int32)) (newFragments : Layout Fragment) :
    updateDeviceObjectMapping kv' objectId oldLocations newFragments =
      updateDeviceObjectMapping kv objectId oldLocations newFragments := by
  have hadd : addOsdObject kv' objectId = addOsdObject kv objectId := by
    funext acc d
    simp only [addOsdObject, h (.activeOsds d) (by simp)]
  simp only [updateDeviceObjectMapping, hadd]

theorem assertGcEpoch_congr (h : kvGet kv' .gcEpochs = kvGet kv .gcEpochs) (gcEpoch : Int64) :
    assertGcEpoch kv' gcEpoch = assertGcEpoch kv gcEpoch := by
  simp only [assertGcEpoch, getGcEpochs_congr h]

theorem getObjectManifestById_congr {objectId : Bytes}
    (h : kvGet kv' (.objects objectId) = kvGet kv (.objects objectId)) :
    getObjectManifestById kv' objectId = getObjectManifestById kv objectId := by
  simp only [getObjectManifestById, h]

theorem cleanupForObjectId_congr (hframe : SameFrame kv kv') {objectId : Bytes}
    (h : kvGet kv' (.objects objectId) = kvGet kv (.objects objectId)) :
    cleanupForObjectId namespaceId cache kv' objectId =
      cleanupForObjectId namespaceId cache kv objectId := by
  simp only [cleanupForObjectId, getObjectManifestById_congr h,
    getMinFragmentCountAndMaxDisksPerNode_congr hframe]

theorem updateManifestGeneric_congr (hframe : SameFrame kv kv') {name objectId : Bytes}
    (h : kvGet kv' (.objects objectId) = kvGet kv (.objects objectId))
    (hepochs : kvGet kv' .gcEpochs = kvGet kv .gcEpochs) (fus : List FragmentUpdate)
    (gcEpoch : Int64) (versionId : Int32) :
    updateManifestGeneric namespaceId cache kv' name objectId fus gcEpoch versionId =
      updateManifestGeneric namespaceId cache kv name objectId fus gcEpoch versionId := by
  simp only [updateManifestGeneric, assertGcEpoch_congr hepochs, getObjectManifestById_congr h,
    updateDeviceObjectMapping_congr hframe, getMinFragmentCountAndMaxDisksPerNode_congr hframe]

end Frame

/-- The stores agree on what the computation of the updates for `u` reads. -/
structure Agree (u : NsmUpdate) (kv kv' : Store) : Prop where
  frame : SameFrame kv kv'
  name : kvGet kv' (.names u.name) = kvGet kv (.names u.name)
  objects : ∀ id, u.Ids kv id → kvGet kv' (.objects id) = kvGet kv (.objects id)
  epochs : u.put? ≠ none → kvGet kv' .gcEpochs = kvGet kv .gcEpochs

section Agree

variable {namespaceId : NamespaceId} {cache : Option (BitVec 64 × Preset)} {kv kv' : Store}

theorem Agree.getObjectIdByName {u : NsmUpdate} (h : Agree u kv kv') :
    Nsm.getObjectIdByName kv' u.name = Nsm.getObjectIdByName kv u.name := by
  simp only [Nsm.getObjectIdByName, h.name]

theorem Agree.putObject {m : Manifest} {gcEpoch : Int64} (h : Agree (.putObject m gcEpoch) kv kv')
    (overwrite : Overwrite) :
    Nsm.putObject namespaceId cache kv' overwrite m gcEpoch =
      Nsm.putObject namespaceId cache kv overwrite m gcEpoch := by
  have hname : Nsm.getObjectIdByName kv' m.name = Nsm.getObjectIdByName kv m.name :=
    h.getObjectIdByName
  have hold : ∀ idO, Nsm.getObjectIdByName kv m.name = .ok idO →
      cleanOldInfo namespaceId cache kv' m idO = cleanOldInfo namespaceId cache kv m idO := by
    intro idO hidO
    cases idO with
    | none => rfl
    | some id =>
      have hid := h.objects id (Or.inr (getObjectIdByName_eq_ok.mp hidO))
      simp only [cleanOldInfo, cleanupForObjectId_congr h.frame hid]
  have hnew := h.objects m.objectId (Or.inl ⟨_, rfl, rfl⟩)
  simp only [Nsm.putObject, getPreset_congr h.frame, hnew, hname,
    assertGcEpoch_congr (h.epochs (by simp [NsmUpdate.put?])),
    updateDeviceObjectMapping_congr h.frame, getMinFragmentCountAndMaxDisksPerNode_congr h.frame]
  refine bind_congr_ok fun _ _ => bind_congr_ok fun _ _ => bind_congr_ok fun _ _ =>
    bind_congr_ok fun _ _ => bind_congr_ok fun idO hidO => ?_
  simp only [hold idO hidO]

theorem Agree.deleteObject {name : Bytes} (h : Agree (.deleteObject name) kv kv')
    (overwrite : Overwrite) :
    Nsm.deleteObject namespaceId cache kv' name overwrite =
      Nsm.deleteObject namespaceId cache kv name overwrite := by
  have hname : Nsm.getObjectIdByName kv' name = Nsm.getObjectIdByName kv name :=
    h.getObjectIdByName
  simp only [Nsm.deleteObject, hname]
  refine bind_congr_ok fun idO hidO => bind_congr_ok fun _ _ => ?_
  cases idO with
  | none => rfl
  | some id =>
    have hid := h.objects id (Or.inr (getObjectIdByName_eq_ok.mp hidO))
    simp only [cleanupForObjectId_congr h.frame hid, updateDeviceObjectMapping_congr h.frame]

theorem Agree.updatesForUpdate {u : NsmUpdate} (h : Agree u kv kv') :
    Nsm.updatesForUpdate namespaceId cache kv' u = Nsm.updatesForUpdate namespaceId cache kv u := by
  cases u with
  | putObject m gcEpoch => simp only [Nsm.updatesForUpdate, h.putObject]
  | deleteObject name => simp only [Nsm.updatesForUpdate, h.deleteObject]

theorem Footprint.agree {u : NsmUpdate} {us vs : List Upd} (h : Footprint kv u us)
    {kv₁ kv₂ : Store} (hframe : SameFrame kv kv₁)
    (hguards : Guards Key.kind guardedKinds (kvGet kv) vs) (hsub : us ⊆ vs)
    (hc : commit Key.encode kv₁ vs = some kv₂) : Agree u kv kv₁ := by
  have holds : ∀ k v, .assert k v ∈ us → k.kind ∈ guardedKinds → kvGet kv₁ k = kvGet kv k :=
    fun k v hmem hk => hguards.holds Key.encode_injective hc (hsub hmem) hk
  refine ⟨hframe, ?_, fun id hid => ?_, fun hput => ?_⟩
  · exact holds _ _ h.name (by simp [guardedKinds])
  · exact holds _ _ (h.objects id hid) (by simp [guardedKinds])
  · exact holds _ _ (h.epochs hput) (by simp [guardedKinds])

end Agree

end Alba.Nsm
