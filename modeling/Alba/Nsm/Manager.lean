import Alba.Nsm.Keys
import Alba.ProofKit.Cells
import Alba.ProofKit.Run

/-! The operations of `NamespaceManager`. Each reads the store of the namespace and computes the list of
updates that is then applied atomically, or raises. -/

namespace Alba.Nsm

open ProofKit Std

abbrev Store := ExtTreeMap Bytes Value

abbrev Upd := Update Key Value

section Lists

variable {α β γ δ ε : Type}

def flattenUnordered (lists : List (List α)) : List α :=
  lists.foldl (fun acc list => list.reverseAux acc) []

/-- `List.nth`, which raises on an index outside the list. -/
def nthExn (l : List α) (n : Int) : Except Exn α :=
  if n < 0 then .error .invalidArgument else
    match l[n.toNat]? with
    | some x => .ok x
    | none => .error .failure

def Layout.index (l : Layout α) (chunkId fragmentId : Int) : Except Exn α := do
  nthExn (← nthExn l chunkId) fragmentId

def Layout.mapIndexed (f : Nat → Nat → α → β) (l : Layout α) : Layout β :=
  l.mapIdx fun chunkId chunk => chunk.mapIdx fun fragmentId x => f chunkId fragmentId x

/-- `List.map4`, for a function that may itself raise. -/
def map4 (f : α → β → γ → δ → Except Exn ε) :
    List α → List β → List γ → List δ → Except Exn (List ε)
  | [], [], [], [] => .ok []
  | a :: as, b :: bs, c :: cs, d :: ds => do
    let e ← f a b c d
    let es ← map4 f as bs cs ds
    return e :: es
  | _, _, _, _ => .error .invalidArgument

def Layout.map4 (f : α → β → γ → δ → ε) :
    Layout α → Layout β → Layout γ → Layout δ → Except Exn (Layout ε) :=
  Nsm.map4 (Nsm.map4 fun a b c d => .ok (f a b c d))

end Lists

/-- A set of osds in increasing order. -/
abbrev DeviceSet := List OsdId

namespace DeviceSet

def add (osdId : OsdId) : DeviceSet → DeviceSet
  | [] => [osdId]
  | e :: s =>
    if osdId.val < e.val then osdId :: e :: s else if osdId = e then e :: s else e :: add osdId s

def diff (s t : DeviceSet) : DeviceSet := s.filter fun d => d ∉ t

end DeviceSet

namespace Manifest

def osdsUsed' {α : Type} (locOf : α → Option OsdId × Int32) (locations : Layout α) : DeviceSet :=
  locations.foldl (fun ds chunk => chunk.foldl (fun ds x =>
    (locOf x).1.elim ds fun osdId => DeviceSet.add osdId ds) ds) []

def osdsUsed (t : Manifest) : DeviceSet := osdsUsed' Fragment.locOf t.fragments

def locations (t : Manifest) : Layout (Option OsdId × Int32) :=
  t.fragments.map fun chunk => chunk.map Fragment.locOf

def getPackedSize (t : Manifest) (chunkId fragmentId : Int) : Except Exn Int := do
  return (← Layout.index t.fragments chunkId fragmentId).len

def getLocation (t : Manifest) (chunkId fragmentId : Int) : Except Exn (Option OsdId × Int32) := do
  return (← Layout.index t.fragments chunkId fragmentId).locOf

def getSummedFragmentSizes (t : Manifest) : BitVec 64 :=
  t.fragments.foldl (fun acc chunk => chunk.foldl (fun acc f => acc + BitVec.ofInt 64 f.len) acc) 0

/-- What is read back of a manifest that is written with version 1 of the serialization, which has
no file numbers. -/
def stored (t : Manifest) : Manifest :=
  { t with
    fragments := t.fragments.map fun chunk => chunk.map fun f => { f with fnr := none }
    counted := by simpa using t.counted }

end Manifest

section Reads

def kvGet (kv : Store) (k : Key) : Option Value := kv[k.encode]?

def kvGetExn (kv : Store) (k : Key) : Except Exn Value :=
  match kvGet kv k with
  | some v => .ok v
  | none => .error .keyNotFound

def asManifest : Value → Except Exn Manifest
  | .manifest m => .ok m
  | _ => .error .decodingFailure

def asObjectId : Value → Except Exn Bytes
  | .objectInfo objectId => .ok objectId
  | _ => .error .decodingFailure

def asOsdInfo : Value → Except Exn OsdInfo
  | .osdInfo info => .ok info
  | _ => .error .decodingFailure

def asGcEpochs : Value → Except Exn GcEpochs
  | .gcEpochs epochs => .ok epochs
  | _ => .error .decodingFailure

def asPreset : Value → Except Exn Preset
  | .preset p => .ok p
  | _ => .error .decodingFailure

def asInt64 : Value → Except Exn (BitVec 64)
  | .int64 x => .ok x
  | _ => .error .decodingFailure

def getOsdInfo (kv : Store) (osdId : OsdId) : Except Exn OsdInfo := do
  asOsdInfo (← kvGetExn kv (.osdInfo osdId))

def getObjectManifestById (kv : Store) (objectId : Bytes) : Except Exn Manifest :=
  match kvGet kv (.objects objectId) with
  | none => .error (.nsm .objectNotFound (.bytes objectId))
  | some v => asManifest v

def getObjectIdByName (kv : Store) (name : Bytes) : Except Exn (Option Bytes) :=
  match kvGet kv (.names name) with
  | none => .ok none
  | some v => some <$> asObjectId v

def getGcEpochs (kv : Store) : Except Exn (Option Value × GcEpochs) :=
  match kvGet kv .gcEpochs with
  | none => .ok (none, .initial)
  | some v => do return (some v, ← asGcEpochs v)

/-- `get_preset`, for any content of the cache of presets. -/
def getPreset (cache : Option (BitVec 64 × Preset)) (kv : Store) : Except Exn (Option Preset) :=
  match kvGet kv .presetVersion with
  | none => .ok none
  | some v => do
    let version ← asInt64 v
    match cache with
    | some (version', preset) =>
      if version' = version then return some preset
      else return some (← asPreset (← kvGetExn kv .preset))
    | none => return some (← asPreset (← kvGetExn kv .preset))

end Reads

def linkOsd (osdId : OsdId) (info : OsdInfo) : List Upd :=
  [.set (.activeOsds osdId) (some .empty), .set (.osdInfo osdId) (some (.osdInfo info))]

def unlinkOsd (osdId : OsdId) : List Upd := [.delete (.activeOsds osdId)]

/-- `check_fragment_osd_spread`: all fragments of a chunk are on different osds. -/
def checkFragmentOsdSpread (manifest : Manifest) : Except Exn Unit :=
  manifest.fragments.forM fun chunk => do
    let _ ← chunk.foldlM (fun acc f =>
      match f.osd with
      | none => .ok acc
      | some osdId =>
        if osdId ∈ acc then
          .error (.nsm .invalidFragmentSpread (.locations (chunk.map Fragment.locOf)))
        else .ok (DeviceSet.add osdId acc)) ([] : DeviceSet)
    return ()

def getOsdSizeUpdates (delete : Bool) (manifest : Manifest) : List Upd :=
  manifest.fragments.foldl (fun acc fds => fds.foldl (fun a f =>
    f.osd.elim a fun osdId =>
      .add (.osdSize osdId) (BitVec.ofInt 64 (if delete then -f.len else f.len)) :: a) acc) []

/-- The largest `int` of the source. -/
def maxInt : Nat := 2 ^ 62 - 1

/-- The osds seen on each node, the number of located fragments and the largest number of osds on
one node, after one more fragment. -/
def countFragment (kv : Store) (counts : ExtTreeMap Bytes Nat × Nat × Nat) (fragment : Fragment) :
    Except Exn (ExtTreeMap Bytes Nat × Nat × Nat) :=
  match fragment.osd with
  | none => .ok counts
  | some osdId => do
    let info ← getOsdInfo kv osdId
    let cnt := counts.1.getD info.nodeId 0 + 1
    return (counts.1.insert info.nodeId cnt, counts.2.1 + 1, max counts.2.2 cnt)

def getBlaPerChunk (kv : Store) (chunk : List Fragment) : Except Exn (Nat × Nat) := do
  return (← chunk.foldlM (countFragment kv) (∅, 0, 0)).2

def countChunk (kv : Store) (counts : Nat × Nat) (chunk : List Fragment) :
    Except Exn (Nat × Nat) := do
  let counts' ← getBlaPerChunk kv chunk
  return (min counts.1 counts'.1, max counts.2 counts'.2)

def validateBucket (k m : Int) (counts : Nat × Nat) (p : Preset) : Except Exn Unit :=
  match p.policies.find? fun policy =>
      k = policy.k ∧ m = policy.m ∧ (counts.1 : Int) ≥ policy.fragmentCount ∧
        (counts.2 : Int) ≤ policy.maxDisksPerNode with
  | none => .error (.nsm .invalidBucket (.bucket k m counts.1 counts.2 p.policies))
  | some _ => .ok ()

def getMinFragmentCountAndMaxDisksPerNode (cache : Option (BitVec 64 × Preset)) (kv : Store)
    (k m : Int) (fragments : Layout Fragment) (validate : Bool) : Except Exn (Nat × Nat) := do
  let counts ← fragments.foldlM (countChunk kv) (maxInt, 0)
  let maybePreset ← getPreset cache kv
  (maybePreset.filter fun _ => validate).elim (.ok ()) (validateBucket k m counts)
  return counts

/-- The bucket of `Keys.policies` and `Keys.policies_cnt`. -/
def bucket (k m : Int) (counts : Nat × Nat) : Bucket :=
  { k := BitVec.ofInt 32 k, m := BitVec.ofInt 32 m
    fragmentCount := BitVec.ofNat 32 counts.1, maxDisksPerNode := BitVec.ofNat 32 counts.2 }

def deleteKeys (namespaceId : NamespaceId) (osdId : OsdId) (objectId : Bytes)
    (versionId chunkId fragmentId : Int) : List Upd :=
  [fragment objectId versionId chunkId fragmentId,
    fragmentRecoveryInfo objectId versionId chunkId fragmentId].map fun key =>
      .set (.keysToBeDeleted osdId (toGlobalKey namespaceId key)) (some .empty)

def deleteChunk (namespaceId : NamespaceId) (objectId : Bytes) (chunkId : Nat)
    (chunk : List Fragment) : Nat × List Upd :=
  chunk.foldl (fun s f =>
    (s.1 + 1,
      (f.osd.elim [] fun osdId =>
        deleteKeys namespaceId osdId objectId f.ver.toInt chunkId s.1).reverseAux s.2)) (0, [])

def deleteFragments (namespaceId : NamespaceId) (objectId : Bytes) (fragments : Layout Fragment) :
    List Upd :=
  (fragments.foldl (fun (s : Nat × List Upd) chunk =>
    (s.1 + 1, (deleteChunk namespaceId objectId s.1 chunk).2.reverseAux s.2)) (0, [])).2

def deleteOsdObjects (objectId : Bytes) (devices : DeviceSet) : List Upd :=
  devices.foldl (fun acc osdId => .delete (.osdObjects osdId objectId) :: acc) []

section Operations

variable (namespaceId : NamespaceId) (cache : Option (BitVec 64 × Preset)) (kv : Store)

def cleanupForObjectId (oldObjectId : Bytes) : Except Exn (List Upd × Manifest) := do
  let oldManifest ← getObjectManifestById kv oldObjectId
  let counts ← getMinFragmentCountAndMaxDisksPerNode cache kv oldManifest.storageScheme.k
    oldManifest.storageScheme.m oldManifest.fragments false
  let oldBucket := bucket oldManifest.storageScheme.k oldManifest.storageScheme.m counts
  return (List.flatten [
    Update.compareAndSwap (.objects oldObjectId) (some (.manifest oldManifest)) none,
    [.delete (.policies oldBucket oldObjectId), .add (.policiesCnt oldBucket) (-1)],
    deleteFragments namespaceId oldObjectId oldManifest.fragments,
    deleteOsdObjects oldObjectId oldManifest.osdsUsed,
    getOsdSizeUpdates true oldManifest],
    oldManifest)

def disableGcEpoch (gcEpoch : Int64) : Except Exn (List Upd) := do
  let (gcEpochSo, epochs) ← getGcEpochs kv
  check (epochs.minimumEpoch = gcEpoch ∧ gcEpoch < epochs.nextEpoch) (.nsm .invalidGcEpoch .none)
  return Update.compareAndSwap .gcEpochs gcEpochSo
    (some (.gcEpochs { minimumEpoch := gcEpoch + 1, nextEpoch := epochs.nextEpoch }))

def enableNewGcEpoch (gcEpoch : Int64) : Except Exn (List Upd) := do
  let (gcEpochSo, epochs) ← getGcEpochs kv
  check (gcEpoch = epochs.nextEpoch) (.nsm .invalidGcEpoch .none)
  return Update.compareAndSwap .gcEpochs gcEpochSo
    (some (.gcEpochs { minimumEpoch := epochs.minimumEpoch, nextEpoch := gcEpoch + 1 }))

/-- `assert_gc_epoch` of `put_object` and of `update_manifest_generic`. -/
def assertGcEpoch (gcEpoch : Int64) : Except Exn Upd := do
  let (gcEpochSo, epochs) ← getGcEpochs kv
  check (epochs.isValidEpoch gcEpoch) (.nsm .invalidGcEpoch .none)
  return .assert .gcEpochs gcEpochSo

def addOsdObject (objectId : Bytes) (acc : List Upd) (osdId : OsdId) : Except Exn (List Upd) :=
  match kvGet kv (.activeOsds osdId) with
  | none => .error (.nsm .inactiveOsd (.osd osdId))
  | some v =>
    .ok (.assert (.activeOsds osdId) (some v) ::
      .set (.osdObjects osdId objectId) (some .empty) :: acc)

def updateDeviceObjectMapping (objectId : Bytes) (oldLocations : Layout (Option OsdId × Int32))
    (newFragments : Layout Fragment) : Except Exn (List Upd) := do
  let oldDevices := Manifest.osdsUsed' id oldLocations
  let newDevices := Manifest.osdsUsed' Fragment.locOf newFragments
  let removeUpds := deleteOsdObjects objectId (oldDevices.diff newDevices)
  let addUpds ← (newDevices.diff oldDevices).foldlM (addOsdObject kv objectId) []
  return addUpds.reverseAux removeUpds

def checkOverwrite (objectIdO : Option Bytes) : Overwrite → Except Exn Unit
  | .unconditionally => .ok ()
  | .noPrevious => check (objectIdO = none) (.nsm .overwriteNotAllowed .none)
  | .previousObjectId objectId =>
    check (objectIdO = some objectId) (.nsm .overwriteNotAllowed .none)
  | .anyPrevious => check (objectIdO ≠ none) (.nsm .overwriteNotAllowed .none)

def presetViolated (payload : String) : Exn := .nsm .presetViolated (.text payload)

/-- The checks that `put_object` makes against the preset of the namespace. -/
def checkPreset (p : Preset) (manifest : Manifest) : Except Exn Unit := do
  manifest.chunkSizes.forM fun chunkSize => do
    check (manifest.storageScheme.k ≠ 0) .divisionByZero
    check (chunkSize.tdiv manifest.storageScheme.k ≤ p.fragmentSize)
      (presetViolated "fragment_size mismatch")
  match manifest.encryptInfo, p.fragmentEncryption with
  | .noEncryption, .noEncryption => pure ()
  | .noEncryption, _ => .error (presetViolated "preset requires encryption")
  | .encrypted algo1 _, .algoWithKey algo2 _ =>
    check (algo1 = algo2) (presetViolated "preset needs different encryption")
  | .encrypted _ _, _ => .error (presetViolated "encryption")
  manifest.fragments.forM fun chunk => chunk.forM fun f =>
    check (p.fragmentChecksumAlgo = f.crc.algoOf) (presetViolated "fragment_checksum mismatch")
  check (manifest.checksum.algoOf ∈ p.objectChecksum.allowed)
    (presetViolated "object_checksum mismatch")
  check (manifest.storageScheme.w = p.w) (presetViolated "w mismatch")
  check (manifest.storageScheme.compression = p.compression) (presetViolated "compression mismatch")

/-- The cleanup of the object that a put replaces, with the changes of the two sizes. -/
def cleanOldInfo (manifest : Manifest) :
    Option Bytes → Except Exn (List Upd × Option Manifest × BitVec 64 × BitVec 64)
  | none => .ok ([], none, manifest.size, manifest.getSummedFragmentSizes)
  | some oldObjectId => do
    let (upds, oldManifest) ← cleanupForObjectId namespaceId cache kv oldObjectId
    check (¬manifest.timestamp.lt oldManifest.timestamp)
      (.nsm .oldTimestamp (.timestamp oldManifest.timestamp))
    return (upds, some oldManifest, manifest.size - oldManifest.size,
      manifest.getSummedFragmentSizes - oldManifest.getSummedFragmentSizes)

def putObject (overwrite : Overwrite) (manifest : Manifest) (gcEpoch : Int64) :
    Except Exn (List Upd × Option Manifest) := do
  let maybePreset ← getPreset cache kv
  maybePreset.elim (.ok ()) fun p => checkPreset p manifest
  let objectId := manifest.objectId
  check (kvGet kv (.objects objectId) = none) (.nsm .nonUniqueObjectId .none)
  checkFragmentOsdSpread manifest
  let oldObjectIdO ← getObjectIdByName kv manifest.name
  checkOverwrite oldObjectIdO overwrite
  let assertEpoch ← assertGcEpoch kv gcEpoch
  let (cleanOld, oldInfoO, logicalDelta, storageDelta) ←
    cleanOldInfo namespaceId cache kv manifest oldObjectIdO
  let mappingUpds ← updateDeviceObjectMapping kv objectId [] manifest.fragments
  let counts ← getMinFragmentCountAndMaxDisksPerNode cache kv manifest.storageScheme.k
    manifest.storageScheme.m manifest.fragments true
  let newBucket := bucket manifest.storageScheme.k manifest.storageScheme.m counts
  return (List.flatten [
    Update.compareAndSwap (.names manifest.name) (oldObjectIdO.map Value.objectInfo)
      (some (.objectInfo objectId)),
    Update.compareAndSwap (.objects objectId) none (some (.manifest manifest.stored)),
    [.set (.policies newBucket objectId) (some .empty), .add (.policiesCnt newBucket) 1],
    [assertEpoch, .add .namespaceLogicalSize logicalDelta,
      .add .namespaceStorageSize storageDelta],
    getOsdSizeUpdates false manifest,
    mappingUpds,
    cleanOld],
    oldInfoO)

def deleteObject (name : Bytes) (overwrite : Overwrite) :
    Except Exn (List Upd × Option Manifest) := do
  let objectIdO ← getObjectIdByName kv name
  checkOverwrite objectIdO overwrite
  match objectIdO with
  | none => return ([], none)
  | some objectId =>
    let (upds1, manifest) ← cleanupForObjectId namespaceId cache kv objectId
    let upds2 ← updateDeviceObjectMapping kv objectId manifest.locations []
    return (List.flatten [
      Update.compareAndSwap (.names name) (some (.objectInfo objectId)) none,
      upds1,
      upds2,
      [.add .namespaceLogicalSize (-manifest.size)],
      [.add .namespaceStorageSize (-manifest.getSummedFragmentSizes)]],
      some manifest)

/-- The store assertion of one assert of a sequence. -/
def updateForAssert (a : Assert) : Except Exn Upd :=
  let failed (name : Bytes) : Exn := .nsm .assertFailed (.bytes name)
  match a with
  | .objectExists name => do
    check (kvGet kv (.names name) ≠ none) (failed name)
    return .assert (.names name) (kvGet kv (.names name))
  | .objectDoesNotExist name => do
    check (kvGet kv (.names name) = none) (failed name)
    return .assert (.names name) none
  | .objectHasId name objectId => do
    let v ← (kvGet kv (.names name)).elim (.error (failed name)) .ok
    check (objectId = (← asObjectId v)) (failed name)
    return .assert (.names name) (some v)
  | .objectHasChecksum name cs => do
    let v ← (kvGet kv (.names name)).elim (.error (failed name)) .ok
    let manifest ← getObjectManifestById kv (← asObjectId v)
    check (manifest.checksum = cs) (failed name)
    return .assert (.names name) (some v)

/-- What a hash table on names keeps of a list of updates: the last one of each name. -/
def lastUpdates : List NsmUpdate → List NsmUpdate
  | [] => []
  | u :: us => if us.any (·.name = u.name) then lastUpdates us else u :: lastUpdates us

def updatesForUpdate : NsmUpdate → Except Exn (List Upd)
  | .putObject manifest gcEpoch =>
    Prod.fst <$> putObject namespaceId cache kv .unconditionally manifest gcEpoch
  | .deleteObject name => Prod.fst <$> deleteObject namespaceId cache kv name .unconditionally

/-- `apply_sequence`; `order` holds the updates that count, in the order in which the hash table
yields them. -/
def applySequence (asserts : List Assert) (updates order : List NsmUpdate) :
    Except Exn (List Upd) := do
  check (order.isPerm (lastUpdates updates)) .failure
  let updatesForAsserts ← asserts.mapM (updateForAssert kv)
  let updatesForUpdates ← order.mapM (updatesForUpdate namespaceId cache kv)
  return updatesForAsserts.reverseAux updatesForUpdates.flatten

end Operations

end Alba.Nsm
