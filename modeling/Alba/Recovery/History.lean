import Alba.Recovery.Rebuild
import Alba.Transfer.Repair

/-! The life of an object and of its recovery infos. A recovery info holds the sizes and the checksums of
the whole chunk; a repair writes those of the manifest it started from, with only the entry of its own
fragment replaced. -/

namespace Alba.Recovery

open ProofKit Nsm
open Transfer (Upload objectChecksumAlgo manifestChecksum hasOsd)

section Model

def objectInfo (t : Manifest) (checksum : Checksum) : ObjectInfo where
  storageScheme := t.storageScheme
  size := t.size
  checksum
  timestamp := t.timestamp

/-- The recovery info of a fragment; the last chunk also tells about the object. -/
def recoveryInfo (t : Manifest) (checksum : Checksum) (chunkId : Nat) (chunkSize : Int)
    (fragmentSizes : List Int) (fragmentChecksums : List Checksum) (fragmentCtr : Option Bytes) :
    RecoveryInfo where
  name := t.name
  chunkSize
  fragmentSizes
  fragmentChecksums
  fragmentCtr
  objectInfoO := if chunkId = t.fragments.length - 1 then some (objectInfo t checksum) else none

/-- An object with the recovery infos that were written for it. -/
structure History where
  manifest : Manifest
  infos : List FragmentInfo
  deriving DecidableEq

/-- The info that the upload writes for a fragment; `objectHash` is what the hash of the object gives. -/
def uploadedInfo (t : Manifest) (objectHash : Checksum) (chunkId fragmentId : Nat) (f : Fragment)
    (osdId : OsdId) : FragmentInfo where
  objectId := t.objectId
  chunkId
  fragmentId
  versionId := f.ver
  osdId
  recoveryInfo := recoveryInfo t objectHash chunkId (t.chunkSizes.getD chunkId 0)
    ((t.fragments.getD chunkId []).map Fragment.len) ((t.fragments.getD chunkId []).map Fragment.crc) f.ctr

def History.uploaded (t : Manifest) (objectHash : Checksum) : History where
  manifest := t
  infos := (cells t.fragments).filterMap fun e =>
    e.2.osd.map (uploadedInfo t objectHash e.1.1 e.1.2 e.2)

/-- A fragment that was packed again and uploaded to another osd. -/
structure Repacked where
  chunkId : Nat
  fragmentId : Nat
  osdId : OsdId
  packedSize : Int
  checksum : Checksum
  ctr : Option Bytes
  deriving DecidableEq

def Repacked.update (r : Repacked) : FragmentUpdate where
  chunkId := r.chunkId
  fragmentId := r.fragmentId
  osdIdO := some r.osdId
  sizeChange := some (r.packedSize, r.checksum)
  ctr := r.ctr
  fnr := none

/-- `_upload_missing_fragments`, for one of the fragments. -/
def repairedInfo (t : Manifest) (versionId : Int32) (r : Repacked) : Except Exn FragmentInfo := do
  check (r.fragmentId < (t.storageScheme.k + t.storageScheme.m).toNat) .failure
  let fragments ← nthExn t.fragments r.chunkId
  let chunkSize ← nthExn t.chunkSizes r.chunkId
  return {
    objectId := t.objectId, chunkId := r.chunkId, fragmentId := r.fragmentId, versionId, osdId := r.osdId
    recoveryInfo := recoveryInfo t t.checksum r.chunkId chunkSize
      ((fragments.map Fragment.len).set r.fragmentId r.packedSize)
      ((fragments.map Fragment.crc).set r.fragmentId r.checksum) r.ctr }

def sourceFragment (sourceOsd : OsdId) (fragments : List Fragment) : Except Exn (Fragment × Nat) :=
  (fragments.zipIdx.find? fun f => f.1.osd = some sourceOsd).elim (.error .failure) .ok

/-- `rebalance_object`, for one chunk: the fragment is copied as it is. -/
def rebalanceChunk (t : Manifest) (versionId : Int32) (sourceOsd targetOsd : OsdId)
    (chunk : List Fragment × Nat) : Except Exn (FragmentUpdate × FragmentInfo) := do
  let (fragments, chunkId) := chunk
  let (f, fragmentId) ← sourceFragment sourceOsd fragments
  let chunkSize ← nthExn t.chunkSizes chunkId
  return (
    { chunkId, fragmentId, osdIdO := some targetOsd, sizeChange := none, ctr := f.ctr, fnr := none },
    { objectId := t.objectId, chunkId, fragmentId, versionId, osdId := targetOsd
      recoveryInfo := recoveryInfo t t.checksum chunkId chunkSize (fragments.map Fragment.len)
        (fragments.map Fragment.crc) f.ctr })

/-- The part of `update_manifest` that concerns the manifest. -/
def commit (t : Manifest) (newFragments : List FragmentUpdate) (versionId : Int32) :
    Except Exn Manifest := do
  let table ← fragmentTable newFragments
  let expected := t.versionId.toInt + 1
  check (¬(versionId = 0 ∧ t.versionId ≠ 0) ∧ ¬(versionId ≠ 0 ∧ expected ≠ versionId.toInt))
    (.nsm .invalidVersionId (.versions expected versionId.toInt))
  let _ ← newFragments.foldlM (updateOsdSizes t) []
  let (_, locationsRev, _) := relocate table versionId t.locations
  let updated ← updatedManifest t table versionId locationsRev.reverse
  checkFragmentOsdSpread updated
  return updated.stored

inductive Maintenance where
  | repair (repacked : List Repacked)
  | rebalance (sourceOsd targetOsd : OsdId)
  deriving DecidableEq

/-- What a committed repair or rebalance makes of the manifest, and the infos it has written. -/
def maintain (t : Manifest) (versionId : Int32) :
    Maintenance → Except Exn (List FragmentUpdate × List FragmentInfo)
  | .repair repacked => do
    let infos ← repacked.mapM (repairedInfo t versionId)
    return (repacked.map Repacked.update, infos)
  | .rebalance sourceOsd targetOsd => do
    check (targetOsd ∉ t.osdsUsed) .failure
    let moved ← t.fragments.zipIdx.mapM (rebalanceChunk t versionId sourceOsd targetOsd)
    return (moved.map Prod.fst, moved.map Prod.snd)

def History.tryExec (s : History) (a : Maintenance) : Except Exn History := do
  let versionId := s.manifest.versionId + 1
  let (newFragments, infos) ← maintain s.manifest versionId a
  let manifest ← commit s.manifest newFragments versionId
  return { manifest, infos := s.infos ++ infos }

def History.exec (s : History) (a : Maintenance) : Option History := (s.tryExec a).toOption

def fragmentAt (t : Manifest) (chunkId fragmentId : Nat) : Option Fragment :=
  t.fragments[chunkId]?.bind (·[fragmentId]?)

/-- An info belongs to a fragment that is still where it was written. -/
def Located (t : Manifest) (i : FragmentInfo) : Prop :=
  ∃ f, fragmentAt t i.chunkId i.fragmentId = some f ∧ f.osd = some i.osdId ∧ f.ver = i.versionId

instance (t : Manifest) (i : FragmentInfo) : Decidable (Located t i) :=
  decidable_of_iff (∃ f ∈ fragmentAt t i.chunkId i.fragmentId, f.osd = some i.osdId ∧ f.ver = i.versionId)
    (by simp [Located])

def History.scanned (s : History) : List FragmentInfo := s.infos.filter fun i => Located s.manifest i

end Model

section Statement

/-- What `upload_object''` has established when its manifest is put, the fragments that were registered
late included. -/
structure Uploaded (u : Upload) (objectHash : Checksum) (t : Manifest) : Prop where
  algo : ∃ algo, objectChecksumAlgo u = .ok algo ∧ objectHash.algoOf = algo
  checksum : manifestChecksum u objectHash = .ok t.checksum
  versionId : t.versionId = 0
  versions : ∀ row ∈ t.fragments, ∀ f ∈ row, f.ver = 0
  chunks : 0 < t.fragments.length
  chunkSizes : t.chunkSizes.length = t.fragments.length
  rows : ∀ row ∈ t.fragments, row.length = (t.storageScheme.k + t.storageScheme.m).toNat
  positive : 0 < t.storageScheme.k
  located : ∀ row ∈ t.fragments, t.storageScheme.k ≤ row.countP hasOsd

structure Agrees (lost rebuilt : Manifest) : Prop where
  name : rebuilt.name = lost.name
  objectId : rebuilt.objectId = lost.objectId
  storageScheme : rebuilt.storageScheme = lost.storageScheme
  size : rebuilt.size = lost.size
  checksum : rebuilt.checksum = lost.checksum
  chunkSizes : rebuilt.chunkSizes = lost.chunkSizes
  fragments : ∀ chunkId fragmentId f, fragmentAt lost chunkId fragmentId = some f → f.osd.isSome →
    ∃ f', fragmentAt rebuilt chunkId fragmentId = some f' ∧ f'.osd = f.osd ∧ f'.ver = f.ver ∧
      f'.crc = f.crc ∧ f'.len = f.len ∧ f'.ctr = f.ctr

/-- Whatever order the infos are found in, they give the lost manifest. -/
def History.Recovers (s : History) : Prop :=
  ∀ (order : HashOrder) encryptInfo (acc : List FragmentInfo), (∀ i, i ∈ acc ↔ i ∈ s.scanned) →
    ∃ rebuilt, rebuild order encryptInfo acc = .ok rebuilt ∧ Agrees s.manifest rebuilt

def HashKept (u : Upload) : Prop :=
  u.checksumO = none ∨ u.objectChecksum.verifyUpload ∨ u.checksumO = some .noChecksum

/-- The size and the checksum of a repacked fragment are those it had. -/
def Repacked.Unchanged (t : Manifest) (r : Repacked) : Prop :=
  ∀ f ∈ fragmentAt t r.chunkId r.fragmentId, f.len = r.packedSize ∧ f.crc = r.checksum

/-- A repair repacks one fragment of a chunk, or does not change the fragments that it repacks. -/
def Separate (s : History) : Maintenance → Prop
  | .repair repacked => ∀ r ∈ repacked, ∀ r' ∈ repacked, r.chunkId = r'.chunkId →
      r.fragmentId ≠ r'.fragmentId → r'.Unchanged s.manifest
  | .rebalance _ _ => True

end Statement

end Alba.Recovery
