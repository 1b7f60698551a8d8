import Alba.Nsm.Keys

/-! The values of the alba manager. Namespace ids, work ids, message ids and preset versions count the
requests that made them and are not bounded; an osd id is an int64, since a request can set the next
one. -/

namespace Alba.Albamgr

open ProofKit

export Nsm (Nat63 OsdId Preset PresetOsds Policy Timestamp)

abbrev NamespaceId := Nat

abbrev WorkId := Nat

abbrev MsgId := Nat

/-- The number that follows in an int64 counter. `Int64.succ` of the last one is negative, and
`x_int64_to` writes its low 32 bits, which are read back as zero. -/
def nextId (i : Nat63) : Nat63 := { val := (i.val + 1) % 2 ^ 63, fits := Nat.mod_lt _ (by decide) }

theorem nextId_val {i : Nat63} (h : i.val < 2 ^ 63 - 1) : (nextId i).val = i.val + 1 :=
  Nat.mod_eq_of_lt (by omega)

/-- A nsm host: whether it is lost, and the configuration to reach it. -/
structure NsmHost where
  kind : Bytes
  lost : Bool
  deriving DecidableEq

inductive NamespaceState
  | creating
  | active
  | removing
  | recovering
  deriving DecidableEq

structure Namespace where
  id : NamespaceId
  nsmHostId : Bytes
  state : NamespaceState
  presetName : Bytes
  deriving DecidableEq

/-- What the manager reads and changes of an osd's information. -/
structure OsdInfo where
  longId : Bytes
  nodeId : Bytes
  decommissioned : Bool
  other : Bytes
  total : Int
  used : Int
  claimedSince : Option Timestamp
  deriving DecidableEq

/-- `Osd.Update.t`: the changes of an osd's information. -/
structure OsdUpdate where
  total : Option Int
  used : Option Int
  other : Option Bytes
  deriving DecidableEq

def OsdUpdate.apply (osd : OsdInfo) (u : OsdUpdate) : OsdInfo :=
  { osd with
    other := u.other.getD osd.other
    total := u.total.getD osd.total
    used := u.used.getD osd.used }

inductive ClaimInfo
  | thisAlba (osdId : OsdId)
  | anotherAlba (albaId : Bytes)
  | available
  deriving DecidableEq

/-- `NamespaceLink.state`. -/
inductive LinkState
  | adding
  | active
  | decommissioning
  | repairing
  deriving DecidableEq

inductive OsdMessage
  | addNamespace (name : Bytes) (namespaceId : NamespaceId)
  deriving DecidableEq

inductive NamespaceMessage
  | linkOsd (osdId : OsdId) (osdInfo : OsdInfo)
  | unlinkOsd (osdId : OsdId)
  deriving DecidableEq

inductive NsmMessage
  | createNamespace (name : Bytes) (namespaceId : NamespaceId)
  | deleteNamespace (namespaceId : NamespaceId)
  | recoverNamespace (name : Bytes) (namespaceId : NamespaceId)
  | namespaceMsg (namespaceId : NamespaceId) (msg : NamespaceMessage)
  deriving DecidableEq

inductive MsgLog
  | nsmHost
  | osd
  deriving DecidableEq

abbrev MsgLog.Dest : MsgLog → Type
  | .nsmHost => Bytes
  | .osd => OsdId

abbrev MsgLog.Msg : MsgLog → Type
  | .nsmHost => NsmMessage
  | .osd => OsdMessage

structure VerifyParams where
  checksum : Bool
  repairOsdUnavailable : Bool
  deriving DecidableEq

inductive Action
  | rewrite
  | verify (params : VerifyParams)
  deriving DecidableEq

inductive Work
  | cleanupNsmHostNamespace (nsmHostId : Bytes) (namespaceId : NamespaceId)
  | cleanupOsdNamespace (osdId : OsdId) (namespaceId : NamespaceId)
  | cleanupNamespaceOsd (namespaceId : NamespaceId) (osdId : OsdId)
  | repairBadFragment (namespaceId : NamespaceId) (objectId objectName : Bytes)
      (chunkId fragmentId version : Int)
  | rewriteObject (namespaceId : NamespaceId) (objectId : Bytes)
  | waitUntilRepaired (osdId : OsdId) (namespaceId : NamespaceId)
  | waitUntilDecommissioned (osdId : OsdId)
  | iterNamespace (action : Action) (namespaceId : NamespaceId) (name : Bytes) (cnt : Int)
  | iterNamespaceLeaf (action : Action) (namespaceId : NamespaceId) (name : Bytes)
      (range : Bytes × Option Bytes)
  | propagatePreset (presetName : Bytes)
  deriving DecidableEq

/-- `Progress.base`: the objects seen so far and where to go on. -/
structure ProgressBase where
  count : Int
  next : Option Bytes
  deriving DecidableEq

structure VerifyProgress where
  fragmentsDetectedMissing : Int
  fragmentsOsdUnavailable : Int
  fragmentsChecksumMismatch : Int
  deriving DecidableEq

inductive Progress
  | rewrite (base : ProgressBase)
  | verify (base : ProgressBase) (params : VerifyProgress)
  deriving DecidableEq

/-- `Preset.is_valid`. Every encryption algorithm has keys of 256 bits. -/
def presetIsValid (t : Preset) : Bool :=
  let encKeyLength :=
    match t.fragmentEncryption with
    | .noEncryption => true
    | .algoWithKey _ key => key.length == 32
  let policiesOk := t.policies != [] && t.policies.all fun p =>
    decide (p.k > 0) && decide (p.k ≤ p.fragmentCount) && decide (p.fragmentCount ≤ p.k + p.m)
  t.objectChecksum.allowed.contains t.objectChecksum.default && encKeyLength && policiesOk &&
    decide (t.fragmentSize ≥ 16)

/-- `Preset.Update.t`. -/
structure PresetUpdate where
  policies : Option (List Policy)
  fragmentSize : Option Int
  deriving DecidableEq

def PresetUpdate.apply (preset : Preset) (u : PresetUpdate) : Preset :=
  { preset with
    policies := u.policies.getD preset.policies
    fragmentSize := u.fragmentSize.getD preset.fragmentSize }

/-- `Preset._DEFAULT`. -/
def defaultPreset : Preset where
  policies := [⟨5, 4, 8, 3⟩, ⟨2, 2, 3, 4⟩]
  w := .w8
  fragmentSize := 1024 * 1024
  osds := .all
  compression := .snappy
  objectChecksum :=
    { allowed := [.noChecksum, .sha1, .crc32c], default := .crc32c, verifyUpload := true }
  fragmentChecksumAlgo := .crc32c
  fragmentEncryption := .noEncryption

theorem defaultPreset_isValid : presetIsValid defaultPreset = true := by decide

/-- `Prelude.get_start_key`: the four bytes at which the `i`th of `n` parts of the object ids
starts. -/
def getStartKey (i n : Int) : Option (Option Bytes) :=
  if i < 0 ∨ i > n then none
  else if i = n then some none
  else some (some (Nsm.int32BeTo (BitVec.ofInt 32 (i * 2 ^ 32 / n))))

/-- The exceptions that end a request: an `Albamgr_exn` with its code, or another exception. -/
inductive Failure
  | osdUnknown
  | osdAlreadyExists
  | osdAlreadyClaimed
  | osdAlreadyDecommissioned
  | osdAlreadyLinkedToNamespace
  | nsmHostUnknown
  | nsmHostAlreadyExists
  | nsmHostNotLost
  | namespaceAlreadyExists
  | namespaceDoesNotExist
  | presetAlreadyExists
  | presetDoesNotExist
  | presetCantDeleteInUse
  | invalidPreset
  | claimLeaseMismatch
  | progressDoesNotExist
  | progressCasFailed
  /-- `Bad_argument`, "job with name %S exists" -/
  | jobExists (name : Bytes)
  /-- `Unknown`, with its text -/
  | unknown (payload : String)
  /-- `failwith`, "%S version'=%Li <> preset_version=%Li" -/
  | versionMismatch (presetName : Bytes) (version presetVersion : Nat)
  /-- `Option.get_some` of `None` -/
  | getSome
  /-- `get_exn` of an absent key -/
  | notFound
  | assertFailure
  | invalidArgument
  deriving DecidableEq

end Alba.Albamgr
