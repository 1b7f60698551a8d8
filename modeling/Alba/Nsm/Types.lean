import Alba.ProofKit.Bytes
import Alba.ProofKit.Totals

/-! The values that the namespace manager stores and receives: manifests with their fragments,
fragment updates, gc epochs and presets. Integers that Llio carries in 32 or 64 bits and that end up
in a key have the type of that width. -/

namespace Alba.Nsm

open ProofKit

/-- An int64 that is not negative. -/
@[ext] structure Nat63 where
  val : Nat
  fits : val < 2 ^ 63
  deriving DecidableEq

instance (n : Nat) : OfNat Nat63 n where
  ofNat := { val := n % 2 ^ 63, fits := Nat.mod_lt _ (by decide) }

abbrev OsdId := Nat63

abbrev NamespaceId := Nat63

inductive Algo
  | noChecksum
  | sha1
  | crc32c
  deriving DecidableEq

inductive Checksum
  | noChecksum
  | sha1 (digest : Bytes)
  | crc32c (digest : BitVec 32)
  deriving DecidableEq

def Checksum.algoOf : Checksum → Algo
  | .noChecksum => .noChecksum
  | .sha1 _ => .sha1
  | .crc32c _ => .crc32c

inductive Compression
  | noCompression
  | snappy
  | bzip2
  | test
  deriving DecidableEq

inductive ChainingMode
  | cbc
  | ctr
  deriving DecidableEq

/-- `AES (mode, L256)`: 256 bits is the only key length. -/
structure EncryptionAlgo where
  mode : ChainingMode
  deriving DecidableEq

inductive Encryption
  | noEncryption
  | algoWithKey (algo : EncryptionAlgo) (key : Bytes)
  deriving DecidableEq

inductive EncryptInfo
  | noEncryption
  | encrypted (algo : EncryptionAlgo) (keySha256 : Bytes)
  deriving DecidableEq

inductive WordSize
  | w8
  deriving DecidableEq

/-- `EncodeCompressEncrypt (RSVM (k, m, w), compression)`. -/
structure StorageScheme where
  k : Int
  m : Int
  w : WordSize
  compression : Compression
  deriving DecidableEq

/-- The bits of an IEEE 754 double. -/
structure Timestamp where
  bits : BitVec 64
  deriving DecidableEq

namespace Timestamp

def magnitude (t : Timestamp) : Nat := t.bits.toNat % 2 ^ 63

def isNan (t : Timestamp) : Bool := 0x7ff0000000000000 < t.magnitude

def signed (t : Timestamp) : Int := if t.bits.msb then -t.magnitude else t.magnitude

/-- The order of floats: false as soon as one of the two is not a number. -/
def lt (a b : Timestamp) : Bool := !a.isNan && !b.isNan && decide (a.signed < b.signed)

end Timestamp

structure Fragment where
  osd : Option OsdId
  ver : Int32
  crc : Checksum
  len : Int
  ctr : Option Bytes
  fnr : Option Bytes
  deriving DecidableEq

namespace Fragment

def make' (loc : Option OsdId × Int32) (crc : Checksum) (len : Int) (ctr : Option Bytes) :
    Fragment :=
  { osd := loc.1, ver := loc.2, crc, len, ctr, fnr := none }

def locOf (f : Fragment) : Option OsdId × Int32 := (f.osd, f.ver)

end Fragment

abbrev Layout (α : Type) := List (List α)

/-- A manifest. Llio counts the elements of a list in 32 bits, which bounds the layout of every
manifest that a request or the store can hold. -/
structure Manifest where
  name : Bytes
  objectId : Bytes
  storageScheme : StorageScheme
  encryptInfo : EncryptInfo
  chunkSizes : List Int
  size : BitVec 64
  checksum : Checksum
  fragments : Layout Fragment
  versionId : Int32
  maxDisksPerNode : Int
  timestamp : Timestamp
  counted : fragments.length < 2 ^ 31 ∧ ∀ chunk ∈ fragments, chunk.length < 2 ^ 31
  deriving DecidableEq

structure FragmentUpdate where
  chunkId : Int
  fragmentId : Int
  osdIdO : Option OsdId
  sizeChange : Option (Int × Checksum)
  ctr : Option Bytes
  fnr : Option Bytes
  deriving DecidableEq

structure GcEpochs where
  minimumEpoch : Int64
  nextEpoch : Int64
  deriving DecidableEq

namespace GcEpochs

def initial : GcEpochs := { minimumEpoch := 0, nextEpoch := 1 }

def isValidEpoch (t : GcEpochs) (gcEpoch : Int64) : Bool :=
  decide (gcEpoch ≥ t.minimumEpoch) && decide (gcEpoch < t.nextEpoch)

end GcEpochs

structure Policy where
  k : Int
  m : Int
  fragmentCount : Int
  maxDisksPerNode : Int
  deriving DecidableEq

structure ObjectChecksum where
  allowed : List Algo
  default : Algo
  verifyUpload : Bool
  deriving DecidableEq

inductive PresetOsds
  | all
  | explicit (osds : List OsdId)
  deriving DecidableEq

structure Preset where
  w : WordSize
  policies : List Policy
  fragmentSize : Int
  osds : PresetOsds
  compression : Compression
  objectChecksum : ObjectChecksum
  fragmentChecksumAlgo : Algo
  fragmentEncryption : Encryption
  deriving DecidableEq

/-- What the namespace manager reads of an osd's information. -/
structure OsdInfo where
  nodeId : Bytes
  deriving DecidableEq

inductive Overwrite
  | unconditionally
  | noPrevious
  | previousObjectId (objectId : Bytes)
  | anyPrevious
  deriving DecidableEq

inductive Assert
  | objectExists (name : Bytes)
  | objectDoesNotExist (name : Bytes)
  | objectHasId (name objectId : Bytes)
  | objectHasChecksum (name : Bytes) (checksum : Checksum)
  deriving DecidableEq

inductive NsmUpdate
  | putObject (manifest : Manifest) (gcEpoch : Int64)
  | deleteObject (name : Bytes)
  deriving DecidableEq

def NsmUpdate.name : NsmUpdate → Bytes
  | .putObject manifest _ => manifest.name
  | .deleteObject name => name

inductive Err
  | unknown
  | invalidGcEpoch
  | objectNotFound
  | nonUniqueObjectId
  | namespaceIdNotFound
  | overwriteNotAllowed
  | notMaster
  | invalidVersionId
  | oldPluginVersion
  | unknownOperation
  | inconsistentRead
  | oldTimestamp
  | invalidFragmentSpread
  | inactiveOsd
  | tooManyDisksPerNode
  | insufficientFragments
  | assertFailed
  | invalidBucket
  | presetViolated
  deriving DecidableEq

/-- The payload of an `Nsm_exn`, as the data that the source prints into it. -/
inductive Payload
  | none
  | bytes (b : Bytes)
  | text (s : String)
  | osd (osdId : OsdId)
  | locations (l : List (Option OsdId × Int32))
  | versions (expected got : Int)
  | bucket (k m fragmentCount maxDisksPerNode : Int) (policies : List Policy)
  | timestamp (t : Timestamp)
  deriving DecidableEq

inductive Exn
  | nsm (err : Err) (payload : Payload)
  | keyNotFound
  | decodingFailure
  | divisionByZero
  | assertFailure
  | invalidArgument
  | failure
  deriving DecidableEq

/-- A stored value, as what it deserialises to. The empty string marks the presence of a key. -/
inductive Value
  | empty
  | osdInfo (info : OsdInfo)
  | objectInfo (objectId : Bytes)
  | manifest (m : Manifest)
  | int64 (x : BitVec 64)
  | gcEpochs (epochs : GcEpochs)
  | preset (p : Preset)
  deriving DecidableEq

instance : CounterValue Value where
  ofInt64 := .int64
  toInt64
    | .int64 x => some x
    | _ => none
  toInt64_ofInt64 _ := rfl

end Alba.Nsm
