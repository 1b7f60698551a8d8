import Alba.Nsm.UpdateManifest

/-! The remaining operations of `NamespaceManager` and the step that one request makes: its updates
are computed from the store and applied all together, or the store stays as it is. -/

namespace Alba.Nsm

open ProofKit Std

section Deletes

variable (kv : Store) (osdId : OsdId)

def keysInRange (first : Bytes) (finc : Bool) (last : Option (Bytes × Bool)) : List Bytes :=
  kv.keys.filter fun key =>
    (if finc then compare first key != .gt else compare first key == .lt) &&
      match last with
      | none => true
      | some (last, linc) => if linc then compare key last != .gt else compare key last == .lt

/-- `list_device_keys_to_be_deleted`: the keys, and whether there are more of them. A negative `max`
is no bound. -/
def listDeviceKeysToBeDeleted (first : Bytes) (finc : Bool) (last : Option (Bytes × Bool))
    (max : Int) (reverse : Bool) : List Bytes × Bool :=
  let last' := match last with
    | some (last, linc) => some ((Key.keysToBeDeleted osdId last).encode, linc)
    | none =>
      (Key.nextPrefix (Kind.keysToBeDeleted.start ++ xInt64BeTo osdId)).map fun next => (next, false)
  let keys := keysInRange kv (Key.keysToBeDeleted osdId first).encode finc last'
  let keys := (if reverse then keys.reverse else keys).map Key.keysToBeDeletedExtractKey
  if max < 0 then (keys, false) else (keys.take max.toNat, max.toNat < keys.length)

def markKeysDeleted (deviceKeys : List (OsdId × List Bytes)) : List Upd :=
  flattenUnordered (deviceKeys.map fun (osdId, keys) =>
    keys.map fun key => .delete (.keysToBeDeleted osdId key))

def cleanupOsdKeysToBeDeleted : List Upd × Nat :=
  let (keys, _) := listDeviceKeysToBeDeleted kv osdId [] true none (-1) false
  (markKeysDeleted [(osdId, keys)], keys.length)

end Deletes

def updatePreset (kv : Store) (preset : Preset) (version : Int64) : Except Exn (List Upd) := do
  let versionS := kvGet kv .presetVersion
  let version' ← versionS.elim (.ok (-1)) fun v => Int64.ofBitVec <$> asInt64 v
  return if version > version' then
    [.assert .presetVersion versionS,
      .set .presetVersion (some (.int64 version.toBitVec)),
      .set .preset (some (.preset preset))]
  else []

inductive Op
  | linkOsd (osdId : OsdId) (info : OsdInfo)
  | unlinkOsd (osdId : OsdId)
  | putObject (overwrite : Overwrite) (manifest : Manifest) (gcEpoch : Int64)
  | deleteObject (name : Bytes) (overwrite : Overwrite)
  | applySequence (asserts : List Assert) (updates order : List NsmUpdate)
  | updateManifest (objectName objectId : Bytes) (newFragments : List (Int × Int × Option OsdId))
      (gcEpoch : Int64) (versionId : Int32)
  | updateManifest2 (objectName objectId : Bytes) (newFragments : List FragmentUpdate)
      (gcEpoch : Int64) (versionId : Int32)
  | enableNewGcEpoch (gcEpoch : Int64)
  | disableGcEpoch (gcEpoch : Int64)
  | markKeysDeleted (deviceKeys : List (OsdId × List Bytes))
  | cleanupOsdKeysToBeDeleted (osdId : OsdId)
  | updatePreset (preset : Preset) (version : Int64)

/-- A request, with what the cache of presets holds when it is handled. -/
structure Request where
  op : Op
  cache : Option (BitVec 64 × Preset) := none

def updatesOf (namespaceId : NamespaceId) (kv : Store) (r : Request) : Except Exn (List Upd) :=
  match r.op with
  | .linkOsd osdId info => .ok (linkOsd osdId info)
  | .unlinkOsd osdId => .ok (unlinkOsd osdId)
  | .putObject overwrite manifest gcEpoch =>
    Prod.fst <$> putObject namespaceId r.cache kv overwrite manifest gcEpoch
  | .deleteObject name overwrite =>
    Prod.fst <$> deleteObject namespaceId r.cache kv name overwrite
  | .applySequence asserts updates order =>
    applySequence namespaceId r.cache kv asserts updates order
  | .updateManifest objectName objectId newFragments gcEpoch versionId =>
    updateManifest namespaceId r.cache kv objectName objectId newFragments gcEpoch versionId
  | .updateManifest2 objectName objectId newFragments gcEpoch versionId =>
    updateManifest2 namespaceId r.cache kv objectName objectId newFragments gcEpoch versionId
  | .enableNewGcEpoch gcEpoch => enableNewGcEpoch kv gcEpoch
  | .disableGcEpoch gcEpoch => disableGcEpoch kv gcEpoch
  | .markKeysDeleted deviceKeys => .ok (markKeysDeleted deviceKeys)
  | .cleanupOsdKeysToBeDeleted osdId => .ok (cleanupOsdKeysToBeDeleted kv osdId).1
  | .updatePreset preset version => updatePreset kv preset version

/-- The step of a request; `none` when an exception is raised or an assertion fails. -/
def exec (namespaceId : NamespaceId) (kv : Store) (r : Request) : Option Store :=
  match updatesOf namespaceId kv r with
  | .ok us => commit Key.encode kv us
  | .error _ => none

theorem exec_eq_some {namespaceId : NamespaceId} {kv kv' : Store} {r : Request} :
    exec namespaceId kv r = some kv' ↔
      ∃ us, updatesOf namespaceId kv r = .ok us ∧ commit Key.encode kv us = some kv' := by
  unfold exec
  cases updatesOf namespaceId kv r <;> simp

end Alba.Nsm
