import Alba.Nsm.Layouts
import Alba.Nsm.Buckets

/-! The effect of each operation: from the list of updates that it computes to the change of the store,
key by key. The list may be applied to a later store than the one from which it was computed; what the
operation has read of the objects is then checked by its assertions. -/

namespace Alba.Nsm

open ProofKit Std List

section Reads

variable {kv : Store}

theorem asManifest_eq_ok {v : Value} {m : Manifest} : asManifest v = .ok m ↔ v = .manifest m := by
  cases v <;> simp [asManifest]

theorem asObjectId_eq_ok {v : Value} {id : Bytes} : asObjectId v = .ok id ↔ v = .objectInfo id := by
  cases v <;> simp [asObjectId]

theorem getObjectManifestById_eq_ok {objectId : Bytes} {m : Manifest} :
    getObjectManifestById kv objectId = .ok m ↔ kvGet kv (.objects objectId) = some (.manifest m) := by
  unfold getObjectManifestById
  cases kvGet kv (.objects objectId) with
  | none => simp
  | some v => simp [asManifest_eq_ok]

theorem getObjectIdByName_eq_ok {name : Bytes} {idO : Option Bytes} :
    getObjectIdByName kv name = .ok idO ↔ kvGet kv (.names name) = idO.map Value.objectInfo := by
  unfold getObjectIdByName
  cases kvGet kv (.names name) with
  | none => cases idO <;> simp
  | some v =>
    cases idO with
    | none => cases v <;> simp [asObjectId, Functor.map, Except.map]
    | some id => cases v <;> simp [asObjectId, Functor.map, Except.map]

theorem getGcEpochs_congr {kv' : Store} (h : kvGet kv' .gcEpochs = kvGet kv .gcEpochs) :
    getGcEpochs kv' = getGcEpochs kv := by
  simp only [getGcEpochs, h]

theorem getGcEpochs_fst {v : Option Value} {epochs : GcEpochs}
    (h : getGcEpochs kv = .ok (v, epochs)) : v = kvGet kv .gcEpochs := by
  unfold getGcEpochs at h
  split at h
  · rename_i hget
    cases h
    exact hget.symm
  · rename_i w hget
    simp only [bind_eq_ok] at h
    obtain ⟨_, _, h⟩ := h
    cases h
    exact hget.symm

theorem assertGcEpoch_eq_ok {gcEpoch : Int64} {u : Upd} (h : assertGcEpoch kv gcEpoch = .ok u) :
    u = .assert .gcEpochs (kvGet kv .gcEpochs) ∧
      ∃ v epochs, getGcEpochs kv = .ok (v, epochs) ∧ epochs.isValidEpoch gcEpoch = true := by
  simp only [assertGcEpoch, bind_eq_ok, Prod.exists] at h
  obtain ⟨v, epochs, hget, _, hvalid, h⟩ := h
  cases h
  exact ⟨by rw [getGcEpochs_fst hget], v, epochs, hget, by simpa using hvalid⟩

end Reads

section Pieces

@[simp] theorem runKey_getOsdSizeUpdates_other {k : Key} (hk : k.kind ≠ .osdSize) (delete : Bool)
    (t : Manifest) (v : Option Value) : runKey k (getOsdSizeUpdates delete t) v = v :=
  (getOsdSizeUpdates_adds delete t).runKey_other hk v

@[simp] theorem runKey_getOsdSizeUpdates (delete : Bool) (t : Manifest) (d : OsdId) (x : BitVec 64) :
    runKey (.osdSize d) (getOsdSizeUpdates delete t) (counter x) =
      counter (x + if delete then -t.bytesOn d else t.bytesOn d) := by
  rw [(getOsdSizeUpdates_adds delete t).runKey_size, addedTo_getOsdSizeUpdates]

@[simp] theorem runKey_deleteFragments (namespaceId : NamespaceId) (objectId : Bytes)
    (fragments : Layout Fragment) (k : Key) (v : Option Value) :
    runKey k (deleteFragments namespaceId objectId fragments) v =
      if ∃ e ∈ scheduled namespaceId (placed objectId (fun _ => true) fragments),
        k = .keysToBeDeleted e.1 e.2 then some .empty else v :=
  runKey_scheduled (fun _ => mem_deleteFragments) k v

end Pieces

section Cleanup

variable {namespaceId : NamespaceId} {cache : Option (BitVec 64 × Preset)} {kv : Store}
  {objectId : Bytes} {us : List Upd} {t : Manifest}

theorem cleanupForObjectId_eq_ok (h : cleanupForObjectId namespaceId cache kv objectId = .ok (us, t)) :
    kvGet kv (.objects objectId) = some (.manifest t) ∧
      us = List.flatten [
        Update.compareAndSwap (.objects objectId) (some (.manifest t)) none,
        [.delete (.policies (bucketOf (nodeOf kv) t) objectId),
          .add (.policiesCnt (bucketOf (nodeOf kv) t)) (-1)],
        deleteFragments namespaceId objectId t.fragments,
        deleteOsdObjects objectId t.osdsUsed,
        getOsdSizeUpdates true t] := by
  simp only [cleanupForObjectId, bind_eq_ok, getObjectManifestById_eq_ok] at h
  obtain ⟨_, hget, counts, hcounts, h⟩ := h
  obtain ⟨rfl, _⟩ := getMinFragmentCountAndMaxDisksPerNode_eq hcounts
  cases h
  exact ⟨hget, rfl⟩

def cleanupAct (namespaceId : NamespaceId) (objectId : Bytes) (b : Bucket) (t : Manifest) (k : Key)
    (v : Option Value) : Option Value :=
  match k with
  | .objects id => if objectId = id then none else v
  | .policies b' id => if b = b' ∧ objectId = id then none else v
  | .policiesCnt b' => if b = b' then counter (intOf v + -1) else v
  | .keysToBeDeleted d key =>
    if (d, key) ∈ scheduled namespaceId (placed objectId (fun _ => true) t.fragments) then some .empty
    else v
  | .osdObjects d id => if t.LocatedOn d ∧ objectId = id then none else v
  | .osdSize d => runKey (.osdSize d) (getOsdSizeUpdates true t) v
  | _ => v

theorem cleanupAct_frame {k : Key} (hk : k.kind ∈ frameKinds) {b : Bucket} {v : Option Value} :
    cleanupAct namespaceId objectId b t k v = v := by
  cases k <;> first | rfl | simp [frameKinds] at hk

theorem runKey_cleanup (h : cleanupForObjectId namespaceId cache kv objectId = .ok (us, t)) (k : Key)
    (v : Option Value) :
    runKey k us v = cleanupAct namespaceId objectId (bucketOf (nodeOf kv) t) t k v := by
  obtain ⟨_, rfl⟩ := cleanupForObjectId_eq_ok h
  cases k <;> simp [cleanupAct, Manifest.mem_osdsUsed, Update.compareAndSwap, Update.delete,
    Update.add, runKey_cons, Update.act, eq_comm]

end Cleanup

section Put

variable {namespaceId : NamespaceId} {cache : Option (BitVec 64 × Preset)} {kv₀ kv kv' : Store}
  {overwrite : Overwrite} {m : Manifest} {gcEpoch : Int64} {us : List Upd}
  {logicalDelta storageDelta : BitVec 64} {oldInfo : Option Manifest} {oldId : Option Bytes}

/-- The updates of a put that do not concern the object it replaces. -/
def putUpdates (kv : Store) (m : Manifest) (oldId : Option Bytes) (logicalDelta storageDelta : BitVec 64)
    (mapping : List Upd) : List Upd :=
  List.flatten [
    Update.compareAndSwap (.names m.name) (oldId.map Value.objectInfo)
      (some (.objectInfo m.objectId)),
    Update.compareAndSwap (.objects m.objectId) none (some (.manifest m.stored)),
    [.set (.policies (bucketOf (nodeOf kv) m) m.objectId) (some .empty),
      .add (.policiesCnt (bucketOf (nodeOf kv) m)) 1],
    [.assert .gcEpochs (kvGet kv .gcEpochs), .add .namespaceLogicalSize logicalDelta,
      .add .namespaceStorageSize storageDelta],
    getOsdSizeUpdates false m,
    mapping]

theorem putObject_eq_ok (h : putObject namespaceId cache kv overwrite m gcEpoch = .ok (us, oldInfo)) :
    ∃ oldId cleanOld logicalDelta storageDelta mapping,
      kvGet kv (.objects m.objectId) = none ∧
      kvGet kv (.names m.name) = oldId.map Value.objectInfo ∧
      cleanOldInfo namespaceId cache kv m oldId =
        .ok (cleanOld, oldInfo, logicalDelta, storageDelta) ∧
      (∃ v epochs, getGcEpochs kv = .ok (v, epochs) ∧ epochs.isValidEpoch gcEpoch = true) ∧
      updateDeviceObjectMapping kv m.objectId [] m.fragments = .ok mapping ∧
      (∀ d, m.LocatedOn d → (nodeOf kv d).isSome) ∧
      us = putUpdates kv m oldId logicalDelta storageDelta mapping ++ cleanOld := by
  simp only [putObject, bind_eq_ok, Prod.exists] at h
  obtain ⟨_, _, _, _, _, hfresh, _, _, oldId, hname, _, _, assertEpoch, hepoch, cleanOld, _,
    logicalDelta, storageDelta, hclean, mapping, hmapping, _, _, hcounts, h⟩ := h
  obtain ⟨hcounts, hknown⟩ := getMinFragmentCountAndMaxDisksPerNode_eq hcounts
  rw [hcounts] at h
  obtain ⟨rfl, hvalid⟩ := assertGcEpoch_eq_ok hepoch
  cases h
  refine ⟨oldId, cleanOld, logicalDelta, storageDelta, mapping, by simpa using hfresh,
    getObjectIdByName_eq_ok.mp hname, hclean, hvalid, hmapping,
    fun d ⟨f, hf, hd⟩ => hknown f hf d hd, ?_⟩
  simp [putUpdates, bucketOf]

/-- What the updates of a put do to a key, apart from the cleanup. -/
def putAct (b : Bucket) (m : Manifest) (logicalDelta storageDelta : BitVec 64) (k : Key)
    (v : Option Value) : Option Value :=
  match k with
  | .names n => if m.name = n then some (.objectInfo m.objectId) else v
  | .objects id => if m.objectId = id then some (.manifest m.stored) else v
  | .policies b' id => if b = b' ∧ m.objectId = id then some .empty else v
  | .policiesCnt b' => if b = b' then counter (intOf v + 1) else v
  | .namespaceLogicalSize => counter (intOf v + logicalDelta)
  | .namespaceStorageSize => counter (intOf v + storageDelta)
  | .osdObjects d id => if m.LocatedOn d ∧ m.objectId = id then some .empty else v
  | .osdSize d => runKey (.osdSize d) (getOsdSizeUpdates false m) v
  | _ => v

theorem putAct_frame {k : Key} (hk : k.kind ∈ frameKinds) {b : Bucket} {v : Option Value} :
    putAct b m logicalDelta storageDelta k v = v := by
  cases k <;> first | rfl | simp [frameKinds] at hk

theorem runKey_putUpdates {mapping : List Upd}
    (h : updateDeviceObjectMapping kv m.objectId [] m.fragments = .ok mapping) (k : Key)
    (v : Option Value) :
    runKey k (putUpdates kv m oldId logicalDelta storageDelta mapping) v =
      putAct (bucketOf (nodeOf kv) m) m logicalDelta storageDelta k v := by
  have hused : ∀ d, d ∈ Manifest.osdsUsed' Fragment.locOf m.fragments ↔ m.LocatedOn d :=
    fun d => Manifest.mem_osdsUsed
  have hnone : ∀ d, d ∉ Manifest.osdsUsed' id ([] : Layout Loc) := by
    simp [Manifest.mem_osdsUsed']
  have hother : ∀ (k : Key) (v : Option Value), k.kind ≠ .osdObjects → runKey k mapping v = v :=
    fun _ v hk => runKey_mapping_other h hk v
  cases k <;> simp [putUpdates, putAct, runKey_mapping h, hother, hused, hnone,
    Update.compareAndSwap, Update.add, runKey_cons, Update.act]

theorem commit_putUpdates {mapping : List Upd}
    (h : commit Key.encode kv (putUpdates kv₀ m oldId logicalDelta storageDelta mapping) = some kv') :
    kvGet kv (.names m.name) = oldId.map Value.objectInfo ∧
      kvGet kv (.objects m.objectId) = none ∧ kvGet kv .gcEpochs = kvGet kv₀ .gcEpochs := by
  have hpieces : putUpdates kv₀ m oldId logicalDelta storageDelta mapping =
      [.assert (.names m.name) (oldId.map Value.objectInfo),
        .set (.names m.name) (some (.objectInfo m.objectId)), .assert (.objects m.objectId) none,
        .set (.objects m.objectId) (some (.manifest m.stored)),
        .set (.policies (bucketOf (nodeOf kv₀) m) m.objectId) (some .empty),
        .add (.policiesCnt (bucketOf (nodeOf kv₀) m)) 1, .assert .gcEpochs (kvGet kv₀ .gcEpochs),
        .add .namespaceLogicalSize logicalDelta, .add .namespaceStorageSize storageDelta] ++
        (getOsdSizeUpdates false m ++ mapping) := by
    simp [putUpdates, Update.compareAndSwap]
  rw [hpieces] at h
  refine ⟨?_, ?_, ?_⟩
  · exact commit_requires Key.encode_injective (p := []) h (by simp)
  · exact commit_requires Key.encode_injective (p := [_, _]) h (by simp [Update.Writes])
  · exact commit_requires Key.encode_injective (p := [_, _, _, _, _, _]) h
      (by simp [Update.Writes, Update.add])

theorem cleanOldInfo_eq_ok {cleanOld : List Upd} (h : cleanOldInfo namespaceId cache kv m oldId =
      .ok (cleanOld, oldInfo, logicalDelta, storageDelta)) :
    (oldId = none ∧ cleanOld = [] ∧ oldInfo = none ∧ logicalDelta = m.size ∧
        storageDelta = m.storageSize) ∨
      ∃ id t, oldId = some id ∧ cleanupForObjectId namespaceId cache kv id = .ok (cleanOld, t) ∧
        oldInfo = some t ∧ logicalDelta = m.size - t.size ∧
          storageDelta = m.storageSize - t.storageSize := by
  cases oldId with
  | none =>
    cases h
    exact Or.inl ⟨rfl, rfl, rfl, rfl, m.getSummedFragmentSizes_eq⟩
  | some id =>
    simp only [cleanOldInfo, bind_eq_ok, Prod.exists, Manifest.getSummedFragmentSizes_eq] at h
    obtain ⟨upds, t, hclean, _, _, h⟩ := h
    cases h
    exact Or.inr ⟨id, t, rfl, hclean, rfl, rfl, rfl⟩

/-- What the cleanup of the object that a put replaces does to a key, if there is one. -/
def cleanOldAct (namespaceId : NamespaceId) (node : OsdId → Option Bytes)
    (old : Option (Bytes × Manifest)) (k : Key) (v : Option Value) : Option Value :=
  match old with
  | none => v
  | some (id, t) => cleanupAct namespaceId id (bucketOf node t) t k v

theorem put_effect {old : Option (Bytes × Manifest)} (hne : ∀ o ∈ old, m.objectId ≠ o.1)
    (hfresh : kvGet kv (.objects m.objectId) = none)
    (hbefore : ∀ o ∈ old, kvGet kv (.objects o.1) = some (.manifest o.2))
    (hname : kvGet kv (.names m.name) = old.map fun o => .objectInfo o.1)
    (hvalid : ∃ v epochs, getGcEpochs kv = .ok (v, epochs) ∧ epochs.isValidEpoch gcEpoch = true)
    (hknown : ∀ d, m.LocatedOn d → (nodeOf kv d).isSome)
    (get : ∀ k, kvGet kv' k = cleanOldAct namespaceId (nodeOf kv) old k
      (putAct (bucketOf (nodeOf kv) m) m (m.size - old.elim 0 fun o => o.2.size)
        (m.storageSize - old.elim 0 fun o => o.2.storageSize) k (kvGet kv k))) :
    Effect namespaceId (.put m.stored gcEpoch old) kv kv' := by
  have other : ∀ i ∉ (Change.put m.stored gcEpoch old).slots.map Slot.objectId,
      m.objectId ≠ i ∧ ∀ o ∈ old, o.1 ≠ i := by
    intro i hi
    constructor
    · rintro rfl
      exact hi (by simp [Change.slots])
    · rintro o ho rfl
      exact hi (by simp [Change.slots, Option.mem_def.mp ho])
  have slot : ∀ s ∈ (Change.put m.stored gcEpoch old).slots, s = ⟨m.objectId, none, some m.stored⟩ ∨
      ∃ o ∈ old, s = ⟨o.1, some o.2, none⟩ := by
    simp [Change.slots, eq_comm]
  have hne' : ∀ o ∈ old, o.1 ≠ m.objectId := fun o ho => (hne o ho).symm
  constructor
  case ids => cases old <;> simp_all [Change.slots]
  case before =>
    intro s hs
    rcases slot s hs with rfl | ⟨o, ho, rfl⟩
    · exact hfresh
    · exact hbefore o ho
  case nameBefore => exact hname
  case epoch => exact hvalid
  case legal => trivial
  case known => cases old <;> simpa [Change.slots] using hknown
  case names =>
    intro n
    by_cases hn : m.name = n <;> cases old <;>
      simp [get, cleanOldAct, cleanupAct, putAct, Change.nameAfter, hn]
  case after =>
    intro s hs
    rcases slot s hs with rfl | ⟨o, rfl, rfl⟩
    · cases old <;> simp [get, cleanOldAct, cleanupAct, putAct, hne']
    · simp [get, cleanOldAct, cleanupAct]
  case objects =>
    intro i hi
    cases old <;> simp [get, cleanOldAct, cleanupAct, putAct, other i hi]
  case marks =>
    intro s hs d hmark
    rcases slot s hs with rfl | ⟨o, rfl, rfl⟩
    · have hnone : kvGet kv (.osdObjects d m.objectId) = none := by simpa [mark] using hmark
      cases old <;> simp [get, cleanOldAct, cleanupAct, putAct, mark, hnone, hne']
    · by_cases hd : o.2.LocatedOn d <;>
        simp [get, cleanOldAct, cleanupAct, putAct, mark, hne o rfl, hmark, hd]
  case osdObjects =>
    intro d i hi
    cases old <;> simp [get, cleanOldAct, cleanupAct, putAct, other i hi]
  case policyMarks =>
    intro s hs hmarks b
    rcases slot s hs with rfl | ⟨o, rfl, rfl⟩
    · have hnone : kvGet kv (.policies b m.objectId) = none := by simpa [policyMark] using hmarks b
      cases old <;> simp [get, cleanOldAct, cleanupAct, putAct, policyMark, hnone, hne']
    · by_cases hb : bucketOf (nodeOf kv) o.2 = b <;>
        simp [get, cleanOldAct, cleanupAct, putAct, policyMark, hne o rfl, hmarks b, hb]
  case policies =>
    intro b i hi
    cases old <;> simp [get, cleanOldAct, cleanupAct, putAct, other i hi]
  case policiesCnt =>
    intro b x hx
    by_cases hm : bucketOf (nodeOf kv) m = b <;> cases old with
    | none => simp [get, cleanOldAct, putAct, hx, gain, Change.slots, hm]
    | some o => by_cases ht : bucketOf (nodeOf kv) o.2 = b <;>
        simp [get, cleanOldAct, cleanupAct, putAct, hx, gain, Change.slots, hm, ht, BitVec.add_assoc]
  case logicalSize =>
    intro x hx
    cases old <;> simp [get, cleanOldAct, cleanupAct, putAct, hx, gain, Change.slots, sub_eq_add_neg]
  case storageSize =>
    intro x hx
    cases old <;> simp [get, cleanOldAct, cleanupAct, putAct, hx, gain, Change.slots, sub_eq_add_neg]
  case osdSize =>
    intro d x hx
    cases old <;>
      simp [get, cleanOldAct, cleanupAct, putAct, hx, gain, Change.slots, BitVec.add_assoc]
  case deletes =>
    intro d key
    cases old <;> simp [get, cleanOldAct, cleanupAct, putAct, Change.retired, scheduled]
  case frame =>
    intro k hk
    cases old <;> simp [get, cleanOldAct, putAct_frame hk, cleanupAct_frame hk]

theorem putObject_effect (hnode : nodeOf kv = nodeOf kv₀)
    (hop : putObject namespaceId cache kv₀ overwrite m gcEpoch = .ok (us, oldInfo))
    (h : commit Key.encode kv us = some kv') :
    ∃ old, Effect namespaceId (.put m.stored gcEpoch old) kv kv' ∧ oldInfo = old.map Prod.snd := by
  obtain ⟨oldId, cleanOld, logicalDelta, storageDelta, mapping, hnew, _, hclean, hvalid, hmapping,
    hknown, rfl⟩ := putObject_eq_ok hop
  rw [commit_append, Option.bind_eq_some_iff] at h
  obtain ⟨mid, hput, hold⟩ := h
  obtain ⟨hname, hfresh, hepoch⟩ := commit_putUpdates hput
  rw [← getGcEpochs_congr hepoch] at hvalid
  rw [← hnode] at hknown
  have getMid : ∀ k, kvGet mid k = putAct (bucketOf (nodeOf kv) m) m logicalDelta storageDelta k
      (kvGet kv k) := by
    intro k
    rw [hnode, ← runKey_putUpdates hmapping]
    exact commit_get Key.encode_injective hput k
  rcases cleanOldInfo_eq_ok hclean with ⟨rfl, rfl, rfl, rfl, rfl⟩ | ⟨id, t, rfl, hcleanup, rfl, rfl, rfl⟩
  · cases hold
    refine ⟨none, put_effect nofun hfresh nofun hname hvalid hknown fun k => ?_, rfl⟩
    simpa [cleanOldAct] using getMid k
  · obtain ⟨hget₀, hus⟩ := cleanupForObjectId_eq_ok hcleanup
    have hne : m.objectId ≠ id := by
      intro he
      rw [he, hget₀] at hnew
      cases hnew
    have hbefore : kvGet kv (.objects id) = some (.manifest t) := by
      have hmid : kvGet mid (.objects id) = some (.manifest t) := by
        rw [hus] at hold
        simp only [flatten_cons, Update.compareAndSwap, cons_append, nil_append] at hold
        exact commit_requires Key.encode_injective (p := []) hold (by simp)
      simpa [getMid, putAct, hne] using hmid
    refine ⟨some (id, t), put_effect (by simpa using hne) hfresh (by simpa using hbefore) hname hvalid
      hknown fun k => ?_, rfl⟩
    simp only [cleanOldAct, Option.elim_some]
    rw [← getMid, hnode, ← runKey_cleanup hcleanup]
    exact commit_get Key.encode_injective hold k

end Put

section Delete

variable {namespaceId : NamespaceId} {cache : Option (BitVec 64 × Preset)} {kv₀ kv kv' : Store}
  {name objectId : Bytes} {overwrite : Overwrite} {us : List Upd} {t : Manifest}

def deleteUpdates (name objectId : Bytes) (t : Manifest) (cleanup mapping : List Upd) : List Upd :=
  List.flatten [
    Update.compareAndSwap (.names name) (some (.objectInfo objectId)) none,
    cleanup,
    mapping,
    [.add .namespaceLogicalSize (-t.size)],
    [.add .namespaceStorageSize (-t.storageSize)]]

theorem deleteObject_eq_ok {deleted : Option Manifest}
    (h : deleteObject namespaceId cache kv name overwrite = .ok (us, deleted)) :
    (kvGet kv (.names name) = none ∧ us = [] ∧ deleted = none) ∨
      ∃ objectId t cleanup mapping, deleted = some t ∧
      kvGet kv (.names name) = some (.objectInfo objectId) ∧
      cleanupForObjectId namespaceId cache kv objectId = .ok (cleanup, t) ∧
      updateDeviceObjectMapping kv objectId t.locations [] = .ok mapping ∧
      us = deleteUpdates name objectId t cleanup mapping := by
  simp only [deleteObject, bind_eq_ok, getObjectIdByName_eq_ok] at h
  obtain ⟨idO, hname, _, _, h⟩ := h
  cases idO with
  | none =>
    cases h
    exact Or.inl ⟨hname, rfl, rfl⟩
  | some id =>
    simp only [bind_eq_ok, Prod.exists, Manifest.getSummedFragmentSizes_eq] at h
    obtain ⟨cleanup, t, hclean, mapping, hmapping, h⟩ := h
    cases h
    exact Or.inr ⟨id, t, cleanup, mapping, rfl, hname, hclean, hmapping, rfl⟩

def deleteAct (namespaceId : NamespaceId) (name objectId : Bytes) (b : Bucket) (t : Manifest)
    (k : Key) (v : Option Value) : Option Value :=
  match k with
  | .names n => if name = n then none else v
  | .namespaceLogicalSize => counter (intOf v + -t.size)
  | .namespaceStorageSize => counter (intOf v + -t.storageSize)
  | _ => cleanupAct namespaceId objectId b t k v

theorem deleteAct_frame {k : Key} (hk : k.kind ∈ frameKinds) {b : Bucket} {v : Option Value} :
    deleteAct namespaceId name objectId b t k v = v := by
  cases k <;> first | rfl | simp [frameKinds] at hk

theorem runKey_deleteObject {cleanup mapping : List Upd}
    (hclean : cleanupForObjectId namespaceId cache kv objectId = .ok (cleanup, t))
    (hmapping : updateDeviceObjectMapping kv objectId t.locations [] = .ok mapping) (k : Key)
    (v : Option Value) :
    runKey k (deleteUpdates name objectId t cleanup mapping) v =
      deleteAct namespaceId name objectId (bucketOf (nodeOf kv) t) t k v := by
  have hused : ∀ d, d ∈ Manifest.osdsUsed' id t.locations ↔ t.LocatedOn d :=
    fun d => Manifest.mem_osdsUsed'_locations
  have hnone : ∀ d, d ∉ Manifest.osdsUsed' Fragment.locOf ([] : Layout Fragment) := by
    simp [Manifest.mem_osdsUsed']
  have hother : ∀ (k : Key) (v : Option Value), k.kind ≠ .osdObjects → runKey k mapping v = v :=
    fun _ v hk => runKey_mapping_other hmapping hk v
  simp only [deleteUpdates, flatten_cons, flatten_nil, runKey_append, runKey_cleanup hclean]
  cases k with
  | osdObjects d i =>
    by_cases hd : t.LocatedOn d ∧ objectId = i <;>
      simp [deleteAct, cleanupAct, runKey_mapping hmapping, hused, hnone, Update.compareAndSwap,
        Update.add, runKey_cons, Update.act, hd]
  | _ =>
    simp [deleteAct, cleanupAct, hother, Update.compareAndSwap, Update.add, runKey_cons, Update.act]

theorem delete_effect {cleanup mapping : List Upd} (hnode : nodeOf kv = nodeOf kv₀)
    (hclean : cleanupForObjectId namespaceId cache kv₀ objectId = .ok (cleanup, t))
    (hmapping : updateDeviceObjectMapping kv₀ objectId t.locations [] = .ok mapping)
    (h : commit Key.encode kv (deleteUpdates name objectId t cleanup mapping) = some kv') :
    Effect namespaceId (.delete name objectId t) kv kv' := by
  have get : ∀ k, kvGet kv' k =
      deleteAct namespaceId name objectId (bucketOf (nodeOf kv) t) t k (kvGet kv k) := by
    intro k
    rw [hnode, ← runKey_deleteObject hclean hmapping]
    exact commit_get Key.encode_injective h k
  have hname : kvGet kv (.names name) = some (.objectInfo objectId) := by
    simp only [deleteUpdates, flatten_cons, Update.compareAndSwap, cons_append,
      nil_append] at h
    exact commit_requires Key.encode_injective (p := []) h (by simp)
  have hbefore : kvGet kv (.objects objectId) = some (.manifest t) := by
    rw [(cleanupForObjectId_eq_ok hclean).2] at h
    simp only [deleteUpdates, flatten_cons, Update.compareAndSwap, cons_append,
      nil_append] at h
    exact commit_requires Key.encode_injective (p := [_, _]) h (by simp [Update.Writes])
  have other : ∀ i ∉ (Change.delete name objectId t).slots.map Slot.objectId, objectId ≠ i := by
    intro i hi he
    exact hi (by simp [Change.slots, he])
  constructor
  case ids => simp [Change.slots]
  case before => simpa [Change.slots] using hbefore
  case nameBefore => exact hname
  case epoch => trivial
  case legal => trivial
  case known => simp [Change.slots]
  case names =>
    intro n
    by_cases hn : name = n <;> simp [get, deleteAct, Change.nameAfter, hn]
  case after => simp [Change.slots, get, deleteAct, cleanupAct]
  case objects =>
    intro i hi
    simp [get, deleteAct, cleanupAct, other i hi]
  case marks =>
    intro s hs d hmark
    simp only [Change.slots, mem_singleton] at hs
    subst hs
    by_cases hd : t.LocatedOn d
    · simp [get, deleteAct, cleanupAct, mark, hd]
    · simpa [get, deleteAct, cleanupAct, mark, hd] using hmark
  case osdObjects =>
    intro d i hi
    simp [get, deleteAct, cleanupAct, other i hi]
  case policyMarks =>
    intro s hs hmarks b
    simp only [Change.slots, mem_singleton] at hs
    subst hs
    by_cases hb : bucketOf (nodeOf kv) t = b
    · simp [get, deleteAct, cleanupAct, policyMark, hb]
    · simpa [get, deleteAct, cleanupAct, policyMark, hb] using hmarks b
  case policies =>
    intro b i hi
    simp [get, deleteAct, cleanupAct, other i hi]
  case policiesCnt =>
    intro b x hx
    by_cases hb : bucketOf (nodeOf kv) t = b <;>
      simp [get, deleteAct, cleanupAct, hx, gain, Change.slots, hb]
  case logicalSize =>
    intro x hx
    simp [get, deleteAct, hx, gain, Change.slots]
  case storageSize =>
    intro x hx
    simp [get, deleteAct, hx, gain, Change.slots]
  case osdSize =>
    intro d x hx
    simp [get, deleteAct, cleanupAct, hx, gain, Change.slots]
  case deletes => exact fun d key => get (.keysToBeDeleted d key)
  case frame => exact fun k hk => by rw [get, deleteAct_frame hk]

theorem deleteObject_effect {deleted : Option Manifest} (hnode : nodeOf kv = nodeOf kv₀)
    (hop : deleteObject namespaceId cache kv₀ name overwrite = .ok (us, deleted))
    (h : commit Key.encode kv us = some kv') :
    (kv' = kv ∧ deleted = none) ∨
      ∃ objectId t, deleted = some t ∧ Effect namespaceId (.delete name objectId t) kv kv' := by
  rcases deleteObject_eq_ok hop with
    ⟨_, rfl, rfl⟩ | ⟨id, t, cleanup, mapping, rfl, _, hclean, hmapping, rfl⟩
  · cases h
    exact Or.inl ⟨rfl, rfl⟩
  · exact Or.inr ⟨id, t, rfl, delete_effect hnode hclean hmapping h⟩

end Delete

section Update

variable {namespaceId : NamespaceId} {cache : Option (BitVec 64 × Preset)} {kv₀ kv kv' : Store}
  {name objectId : Bytes} {fus table : List FragmentUpdate} {gcEpoch : Int64} {versionId : Int32}
  {us : List Upd} {t : Manifest} {c c' : Nat × Nat} {k m : Int} {b : Bucket}

/-- The updates of `update_manifest_generic`. -/
def updateUpdates (namespaceId : NamespaceId) (kv : Store) (objectId : Bytes)
    (table : List FragmentUpdate) (versionId : Int32) (t : Manifest) (mapping osdSizes : List Upd) :
    List Upd :=
  List.flatten [
    deleteKeysFromDevice namespaceId objectId (relocate table versionId t.locations).2.2,
    Update.compareAndSwap (.objects objectId) (some (.manifest t))
      (some (.manifest (t.updateWith table versionId))),
    [.assert .gcEpochs (kvGet kv .gcEpochs)],
    mapping,
    osdSizes,
    updateBuckets t.storageScheme.k t.storageScheme.m objectId (countsOf (nodeOf kv) t.fragments)
      (countsOf (nodeOf kv) (t.updateWith table versionId).fragments),
    updateStorageSize t (t.updateWith table versionId)]

theorem updateManifestGeneric_eq_ok
    (h : updateManifestGeneric namespaceId cache kv name objectId fus gcEpoch versionId = .ok us) :
    ∃ table t mapping osdSizes, fragmentTable fus = .ok table ∧
      kvGet kv (.objects objectId) = some (.manifest t) ∧ name = t.name ∧
      ((versionId = 0 ∧ t.versionId = 0) ∨
        (versionId ≠ 0 ∧ versionId.toInt = t.versionId.toInt + 1)) ∧
      (∃ v epochs, getGcEpochs kv = .ok (v, epochs) ∧ epochs.isValidEpoch gcEpoch = true) ∧
      fus.foldlM (updateOsdSizes t) [] = .ok osdSizes ∧
      updateDeviceObjectMapping kv objectId t.locations
        (t.updateWith table versionId).fragments = .ok mapping ∧
      (∀ d, (t.updateWith table versionId).LocatedOn d → (nodeOf kv d).isSome) ∧
      us = updateUpdates namespaceId kv objectId table versionId t mapping osdSizes := by
  simp only [updateManifestGeneric, bind_eq_ok, getObjectManifestById_eq_ok, check_eq_ok] at h
  obtain ⟨assertEpoch, hepoch, table, htable, t, hget, _, hname, _, ⟨hzero, hsucc⟩, osdSizes, hsizes,
    updated, hupdated, _, _, mapping, hmapping, countsOld, hold, countsNew, hnew, h⟩ := h
  rw [updatedManifest_eq] at hupdated
  cases hupdated
  obtain ⟨rfl, _⟩ := getMinFragmentCountAndMaxDisksPerNode_eq hold
  obtain ⟨rfl, hknown⟩ := getMinFragmentCountAndMaxDisksPerNode_eq hnew
  obtain ⟨rfl, hvalid⟩ := assertGcEpoch_eq_ok hepoch
  rw [Manifest.stored_updateWith] at h
  cases h
  refine ⟨table, t, mapping, osdSizes, htable, hget, hname, ?_, hvalid, hsizes, hmapping,
    fun d hd => ?_, rfl⟩
  case refine_2 =>
    obtain ⟨f, hf, hd⟩ := hd
    exact hknown f hf d hd
  by_cases hv : versionId = 0
  · exact Or.inl ⟨hv, by simpa [hv] using hzero⟩
  · exact Or.inr ⟨hv, (by simpa [hv] using hsucc : t.versionId.toInt + 1 = versionId.toInt).symm⟩

def updateAct (namespaceId : NamespaceId) (node : OsdId → Option Bytes) (objectId : Bytes)
    (table : List FragmentUpdate) (versionId : Int32) (t : Manifest) (osdSizes : List Upd) (k : Key)
    (v : Option Value) : Option Value :=
  let t' := t.updateWith table versionId
  match k with
  | .objects id => if objectId = id then some (.manifest t') else v
  | .keysToBeDeleted d key =>
    if (d, key) ∈ scheduled namespaceId
        (placed objectId (fun p => (findUpdate table p.1 p.2).isSome) t.fragments) then some .empty
    else v
  | .osdObjects d id =>
    if (t.LocatedOn d ∧ ¬t'.LocatedOn d) ∧ objectId = id then none
    else if (t'.LocatedOn d ∧ ¬t.LocatedOn d) ∧ objectId = id then some .empty else v
  | .osdSize d => runKey (.osdSize d) osdSizes v
  | .policies _ _ | .policiesCnt _ =>
    runKey k (updateBuckets t.storageScheme.k t.storageScheme.m objectId (countsOf node t.fragments)
      (countsOf node t'.fragments)) v
  | .namespaceStorageSize => runKey k (updateStorageSize t t') v
  | _ => v

theorem updateAct_frame {k : Key} (hk : k.kind ∈ frameKinds) {node : OsdId → Option Bytes}
    {osdSizes : List Upd} {v : Option Value} :
    updateAct namespaceId node objectId table versionId t osdSizes k v = v := by
  cases k <;> first | rfl | simp [frameKinds] at hk

@[simp] theorem runKey_updateBuckets_other {x : Key} (h : x.kind ≠ .policies)
    (h' : x.kind ≠ .policiesCnt) (v : Option Value) :
    runKey x (updateBuckets k m objectId c c') v = v := by
  refine runKey_of_not_writes v fun u hu hw => ?_
  unfold updateBuckets at hu
  split at hu
  · simp only [mem_cons, not_mem_nil, or_false] at hu
    rcases hu with rfl | rfl | rfl | rfl
    · exact h (by rw [← show Key.policies _ _ = x from hw])
    · exact h' (by rw [← show Key.policiesCnt _ = x from hw])
    · exact h (by rw [← show Key.policies _ _ = x from hw])
    · exact h' (by rw [← show Key.policiesCnt _ = x from hw])
  · simp at hu

@[simp] theorem runKey_updateStorageSize_other {t t' : Manifest} {k : Key}
    (h : k.kind ≠ .namespaceStorageSize) (v : Option Value) :
    runKey k (updateStorageSize t t') v = v := by
  refine runKey_of_not_writes v fun u hu hw => h ?_
  simp only [updateStorageSize] at hu
  split at hu
  · simp at hu
  · rw [mem_singleton.mp hu] at hw
    rw [← show Key.namespaceStorageSize = k from hw]

theorem runKey_updateUpdates {mapping osdSizes : List Upd} (hsizes : AddsSizes osdSizes)
    (hmapping : updateDeviceObjectMapping kv objectId t.locations
      (t.updateWith table versionId).fragments = .ok mapping) (k : Key) (v : Option Value) :
    runKey k (updateUpdates namespaceId kv objectId table versionId t mapping osdSizes) v =
      updateAct namespaceId (nodeOf kv) objectId table versionId t osdSizes k v := by
  have hold : ∀ d, d ∈ Manifest.osdsUsed' id t.locations ↔ t.LocatedOn d :=
    fun d => Manifest.mem_osdsUsed'_locations
  have hnew : ∀ d, d ∈ Manifest.osdsUsed' Fragment.locOf (t.updateWith table versionId).fragments ↔
      (t.updateWith table versionId).LocatedOn d := fun d => Manifest.mem_osdsUsed
  have hother : ∀ (k : Key) (v : Option Value), k.kind ≠ .osdSize → runKey k osdSizes v = v :=
    fun _ v hk => hsizes.runKey_other hk v
  have hdeletes := @runKey_scheduled namespaceId
    (deleteKeysFromDevice namespaceId objectId (relocate table versionId t.locations).2.2) _
    fun _ => mem_deleteKeysFromDevice
  have hmarks : ∀ (k : Key) (v : Option Value), k.kind ≠ .osdObjects → runKey k mapping v = v :=
    fun _ v hk => runKey_mapping_other hmapping hk v
  cases k <;> simp [updateUpdates, hdeletes, updateAct, runKey_mapping hmapping, hold, hnew, hother,
    hmarks, Update.compareAndSwap, runKey_cons, Update.act]

theorem policyMark_some (node : OsdId → Option Bytes) (b : Bucket) (t : Manifest) :
    policyMark node b (some t) = if bucketOf node t = b then some .empty else none := by
  simp [policyMark]

theorem runKey_updateBuckets_policies {i : Bytes} (v : Option Value) :
    runKey (.policies b i) (updateBuckets k m objectId c c') v =
      if c ≠ c' ∧ objectId = i ∧ bucket k m c' = b then some .empty
      else if c ≠ c' ∧ objectId = i ∧ bucket k m c = b then none else v := by
  unfold updateBuckets
  by_cases hc : c = c'
  · simp [hc]
  · by_cases hi : objectId = i <;> by_cases hnew : bucket k m c' = b <;>
      by_cases hold : bucket k m c = b <;>
      simp [hc, hi, hnew, hold, runKey_cons, Update.act, Update.delete, Update.add]

theorem runKey_updateBuckets_mark : runKey (.policies b objectId) (updateBuckets k m objectId c c')
        (if bucket k m c = b then some .empty else none) =
      if bucket k m c' = b then some .empty else none := by
  rw [runKey_updateBuckets_policies]
  by_cases hc : c = c'
  · simp [hc]
  · by_cases hnew : bucket k m c' = b <;> by_cases hold : bucket k m c = b <;> simp [hc, hnew, hold]

theorem runKey_moved {p p' c c' k : Key} {v v' : Option Value} (a a' x : BitVec 64)
    (hp : p ≠ k) (hp' : p' ≠ k) :
    runKey k [.set p v, .add c a, .set p' v', .add c' a'] (counter x) =
      counter (x + ((if c' = k then a' else 0) + if c = k then a else 0)) := by
  simp only [runKey_cons, runKey_nil, Update.add, Update.act, hp, hp', if_false]
  by_cases hc : c = k <;> by_cases hc' : c' = k <;> simp only [hc, hc', if_true, if_false, intOf_counter]
  · rw [add_assoc, add_comm a]
  · rw [zero_add]
  · rw [add_zero]
  · rw [add_zero, add_zero]

theorem runKey_updateBuckets_cnt (x : BitVec 64) :
    runKey (.policiesCnt b) (updateBuckets k m objectId c c') (counter x) =
      counter (x + ((if bucket k m c' = b then 1 else 0) - if bucket k m c = b then 1 else 0)) := by
  unfold updateBuckets
  by_cases hc : c = c'
  · rw [hc, if_neg (by simp), runKey_nil, sub_self, add_zero]
  · have hneg : (if bucket k m c = b then (-1 : BitVec 64) else 0) =
        -(if bucket k m c = b then 1 else 0) := by
      split
      · rfl
      · exact neg_zero.symm
    rw [if_pos hc]
    refine (runKey_moved (-1) 1 x (by simp) (by simp)).trans ?_
    simp only [Key.policiesCnt.injEq]
    rw [hneg, sub_eq_add_neg]

theorem runKey_updateStorageSize {t t' : Manifest} (x : BitVec 64) :
    runKey .namespaceStorageSize (updateStorageSize t t') (counter x) =
      counter (x + (t'.storageSize - t.storageSize)) := by
  simp only [updateStorageSize, Manifest.getSummedFragmentSizes_eq]
  split
  · rename_i hzero
    rw [hzero, runKey_nil, add_zero]
  · simp only [runKey_cons, runKey_nil, Update.add, Update.act, if_true, intOf_counter]

theorem commit_updateUpdates {mapping osdSizes : List Upd}
    (h : commit Key.encode kv
      (updateUpdates namespaceId kv₀ objectId table versionId t mapping osdSizes) = some kv') :
    kvGet kv (.objects objectId) = some (.manifest t) ∧
      kvGet kv .gcEpochs = kvGet kv₀ .gcEpochs := by
  have hdeletes : ∀ u ∈ deleteKeysFromDevice namespaceId objectId
      (relocate table versionId t.locations).2.2, ∀ k : Key, k.kind ≠ .keysToBeDeleted →
        ¬u.Writes k := by
    intro u hu k hk hw
    obtain ⟨p, _, hp⟩ := mem_deleteKeysFromDevice.mp hu
    rcases mem_deleteKeys.mp hp with rfl | rfl
    · exact hk (by rw [← show Key.keysToBeDeleted _ _ = k from hw])
    · exact hk (by rw [← show Key.keysToBeDeleted _ _ = k from hw])
  rw [updateUpdates, flatten_cons, commit_append, Option.bind_eq_some_iff] at h
  obtain ⟨mid, hfirst, hrest⟩ := h
  have hmid : ∀ k : Key, k.kind ≠ .keysToBeDeleted → kvGet mid k = kvGet kv k := by
    intro k hk
    rw [← runKey_of_not_writes (kvGet kv k) fun u hu => hdeletes u hu k hk]
    exact commit_get Key.encode_injective hfirst k
  simp only [flatten_cons, Update.compareAndSwap, cons_append, nil_append] at hrest
  constructor
  · rw [← hmid _ (by simp)]
    exact commit_requires Key.encode_injective (p := []) hrest (by simp)
  · rw [← hmid _ (by simp)]
    exact commit_requires Key.encode_injective (p := [_, _]) hrest (by simp [Update.Writes])

theorem updateManifestGeneric_effect (hnode : nodeOf kv = nodeOf kv₀)
    (hop : updateManifestGeneric namespaceId cache kv₀ name objectId fus gcEpoch versionId = .ok us)
    (h : commit Key.encode kv us = some kv') :
    ∃ table t, fragmentTable fus = .ok table ∧ name = t.name ∧
      Effect namespaceId (.update objectId table gcEpoch versionId t) kv kv' := by
  obtain ⟨table, t, mapping, osdSizes, htable, _, hname, hversion, hvalid, hsizes, hmapping,
    hknown, rfl⟩ := updateManifestGeneric_eq_ok hop
  refine ⟨table, t, htable, hname, ?_⟩
  obtain ⟨hbefore, hepoch⟩ := commit_updateUpdates h
  obtain ⟨hadds, hindex, _⟩ := foldlM_updateOsdSizes hsizes (by simp [AddsSizes])
  have get : ∀ k, kvGet kv' k =
      updateAct namespaceId (nodeOf kv) objectId table versionId t osdSizes k (kvGet kv k) := by
    intro k
    rw [hnode, ← runKey_updateUpdates hadds hmapping]
    exact commit_get Key.encode_injective h k
  have other : ∀ i ∉ (Change.update objectId table gcEpoch versionId t).slots.map Slot.objectId,
      objectId ≠ i := by
    intro i hi he
    exact hi (by simp [Change.slots, he])
  constructor
  case ids => simp [Change.slots]
  case before => simpa [Change.slots] using hbefore
  case nameBefore => trivial
  case epoch => rwa [Change.EpochValid, getGcEpochs_congr hepoch]
  case legal =>
    obtain ⟨rfl, hnodup⟩ := fragmentTable_eq htable
    exact ⟨hnodup, fun fu hfu => hindex fu (mem_reverse.mp hfu), hversion⟩
  case known => simpa [Change.slots, hnode] using hknown
  case names => exact fun n => get (.names n)
  case after => simp [Change.slots, get, updateAct]
  case objects =>
    intro i hi
    simp [get, updateAct, other i hi]
  case marks =>
    intro s hs d hmark
    simp only [Change.slots, mem_singleton] at hs
    subst hs
    by_cases hold : t.LocatedOn d <;> by_cases hnew : (t.updateWith table versionId).LocatedOn d <;>
      simp_all [updateAct, mark]
  case osdObjects =>
    intro d i hi
    simp [get, updateAct, other i hi]
  case policyMarks =>
    intro s hs hmarks b
    simp only [Change.slots, mem_singleton] at hs
    subst hs
    simp only [get, updateAct, hmarks, policyMark_some]
    exact runKey_updateBuckets_mark
  case policies =>
    intro b i hi
    simp [get, updateAct, other i hi, runKey_updateBuckets_policies]
  case policiesCnt =>
    intro b x hx
    simp only [get, updateAct, hx, runKey_updateBuckets_cnt, gain, Change.slots, map_cons,
      map_nil, sum_cons, sum_nil, add_zero, Option.elim]
    rfl
  case logicalSize =>
    intro x hx
    simp [get, updateAct, hx, gain, Change.slots, Manifest.updateWith]
  case storageSize =>
    intro x hx
    simp [get, updateAct, hx, runKey_updateStorageSize, gain, Change.slots]
  case osdSize =>
    intro d x hx
    have hbytes : t.bytesOn d + addedTo (.osdSize d) osdSizes =
        (t.updateWith table versionId).bytesOn d := addedTo_updateOsdSizes htable hsizes d
    simp [get, updateAct, hx, hadds.runKey_size, gain, Change.slots, ← hbytes]
  case deletes => exact fun d key => get (.keysToBeDeleted d key)
  case frame => exact fun k hk => by rw [get, updateAct_frame hk]

end Update

end Alba.Nsm
