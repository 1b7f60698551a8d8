import Alba.Transfer.FirstN
import Alba.Transfer.Chunks

/-! `upload_chunk` and `upload_object''`: an object is read chunk by chunk into one buffer, every chunk
is cut into fragments that are uploaded concurrently, and the manifest is made from the states that
these uploads have at that moment. -/

namespace Alba.Transfer

open ProofKit Nsm

structure FragmentKey where
  objectId : Bytes
  versionId : Int32
  chunkId : Nat
  fragmentId : Nat
  deriving DecidableEq

abbrev Osds := OsdId → FragmentKey → Option Bytes

def Osds.store (osds : Osds) (osdId : OsdId) (key : FragmentKey) (packed : Bytes) : Osds :=
  fun osdId' key' => if osdId' = osdId ∧ key' = key then some packed else osds osdId' key'

/-- Why a computation has not returned: it raised, it still waits, or its loop goes on. -/
inductive Stop
  | raised (e : Exn)
  | pending
  | diverges
  deriving DecidableEq

def raising {α : Type} (x : Except Exn α) : Except Stop α := x.mapError .raised

def hasOsd (f : Fragment) : Bool := f.osd.isSome

section Chunk

/-- How the attempt to store a fragment ends; one that fails may have stored it all the same. -/
inductive Attempt
  | stored (fnr : Option Bytes)
  | failed (kept : Bool)
  deriving DecidableEq

structure Target where
  packed : Codec.Packed
  osdIdO : Option OsdId
  deriving DecidableEq

def Target.fragment (t : Target) (versionId : Int32) (osdIdO : Option OsdId) (fnr : Option Bytes) :
    Fragment :=
  { osd := osdIdO, ver := versionId, crc := t.packed.checksum, len := t.packed.bytes.length,
    ctr := t.packed.ctr, fnr }

structure ChunkContext where
  objectId : Bytes
  versionId : Int32
  chunkId : Nat
  targets : List Target

def ChunkContext.key (ctx : ChunkContext) (fragmentId : Nat) : FragmentKey :=
  { objectId := ctx.objectId, versionId := ctx.versionId, chunkId := ctx.chunkId, fragmentId }

structure ChunkUpload where
  first : FirstN Fragment
  osds : Osds
  /-- The fragments have been added to the fragment cache, or are not to be. -/
  cached : Bool

inductive ChunkEvent
  | upload (fragmentId : Nat) (attempt : Attempt)
  | written
  | decided
  | expired
  | joined
  | cached
  deriving DecidableEq

variable (ctx : ChunkContext)

/-- `upload_fragment_and_finalize`: without an osd there is nothing to store. -/
def uploadFragment (osds : Osds) (fragmentId : Nat) (t : Target) (attempt : Attempt) :
    Reply Fragment × Osds :=
  match t.osdIdO with
  | none => (.value (t.fragment ctx.versionId none none), osds)
  | some osdId =>
    match attempt with
    | .stored fnr =>
      (.value (t.fragment ctx.versionId (some osdId) fnr),
        osds.store osdId (ctx.key fragmentId) t.packed.bytes)
    | .failed true => (.exn, osds.store osdId (ctx.key fragmentId) t.packed.bytes)
    | .failed false => (.exn, osds)

def ChunkUpload.own (u : ChunkUpload) (e : Event Fragment) : Option ChunkUpload :=
  (u.first.step hasOsd e).map fun first => { u with first }

def ChunkUpload.exec (u : ChunkUpload) : ChunkEvent → Option ChunkUpload
  | .upload fragmentId attempt => do
    let t ← ctx.targets[fragmentId]?
    let (reply, osds) := uploadFragment ctx u.osds fragmentId t attempt
    let first ← u.first.step hasOsd (.resolve fragmentId reply)
    return { u with first, osds }
  | .written => u.own .written
  | .decided => u.own .decided
  | .expired => u.own .expired
  | .joined => u.own .joined
  | .cached => some { u with cached := true }

/-- The fragment that the manifest gets for an upload in the given state: one that failed or still
runs has no osd. -/
def fragmentInfo (versionId : Int32) (t : Target) : Thread Fragment → Fragment
  | .resolved (.value f) => f
  | .resolved .exn | .logging _ | .running => t.fragment versionId none none

def fragmentInfos (threads : List (Thread Fragment)) : List Fragment :=
  List.zipWith (fragmentInfo ctx.versionId) ctx.targets threads

def ChunkUpload.result (objectName : Bytes) (u : ChunkUpload) : Except Stop (List Fragment × Osds) :=
  match u.first.wait, u.cached with
  | .returned true, true => .ok (fragmentInfos ctx u.first.threads, u.osds)
  | .returned false, true => .error (.raised (.chunkFailed ctx.chunkId objectName ctx.objectId))
  | _, _ => .error .pending

def ChunkUpload.start (minFragmentCount : Int) (cacheOnWrite : Bool) (osds : Osds) :
    Except Exn ChunkUpload :=
  match FirstN.start Fragment minFragmentCount ctx.targets.length with
  | some first => .ok { first, osds, cached := !cacheOnWrite }
  | none => .error .assertFailure

end Chunk

/-- What an upload gets from its caller, the preset of the namespace and the policy that it chose, and
the events of the upload of every chunk. -/
structure Upload where
  objectName : Bytes
  objectId : Bytes
  minFragmentCount : Int
  maxFragmentSize : Nat
  compression : Compression
  encryption : Encryption
  fragmentChecksumAlgo : Algo
  objectChecksum : ObjectChecksum
  checksumO : Option Checksum
  targetOsds : List (Option OsdId)
  cacheOnWrite : Bool
  schedule : Nat → List ChunkEvent

structure Manifest where
  name : Bytes
  objectId : Bytes
  k : Nat
  m : Nat
  compression : Compression
  encryptInfo : EncryptInfo
  chunkSizes : List Nat
  size : Nat
  checksum : Checksum
  fragments : Layout Fragment
  versionId : Int32
  deriving DecidableEq

section Encryption

variable (c : Codec)

def fromEncryption : Encryption → EncryptInfo
  | .noEncryption => .noEncryption
  | .algoWithKey algo key => .encrypted algo (c.sha256 key)

def getEncryption (encryption : Encryption) (encryptInfo : EncryptInfo) : Except Exn Encryption :=
  match encryption, encryptInfo with
  | .noEncryption, .noEncryption => .ok encryption
  | .algoWithKey algo key, .encrypted algo' id =>
    if algo = algo' then
      if id = c.sha256 key then .ok encryption else .error .otherKey
    else .error .algoMismatch
  | .noEncryption, .encrypted _ _ | .algoWithKey _ _, .noEncryption => .error .encryptionMismatch

theorem getEncryption_fromEncryption (encryption : Encryption) :
    getEncryption c encryption (fromEncryption c encryption) = .ok encryption := by
  cases encryption <;> simp [fromEncryption, getEncryption]

end Encryption

section Buffer

/-- The reader fills the first `n` bytes of the buffer. -/
def readInto (data : Bytes) (position n : Nat) (chunk : Bytes) : Except Exn Bytes :=
  if n ≤ chunk.length ∧ position + n ≤ data.length then
    .ok ((data.drop position).take n ++ chunk.drop n)
  else .error .outOfBounds

def fill (chunk : Bytes) (position n : Nat) : Except Exn Bytes :=
  if position + n ≤ chunk.length then
    .ok (chunk.take position ++ List.replicate n 0 ++ chunk.drop (position + n))
  else .error .outOfBounds

def extract (chunk : Bytes) (n : Nat) : Except Exn Bytes :=
  if n ≤ chunk.length then .ok (chunk.take n) else .error .outOfBounds

/-- The padding bytes are set to zero, so that nothing of an earlier chunk is stored in them. -/
def padChunk (k : Nat) (chunk : Bytes) (chunkSize : Nat) : Except Exn (Bytes × Nat) :=
  let kf := fragmentMultiple * k
  -- no padding for replication
  if chunkSize % kf = 0 ∨ k = 1 then .ok (chunk, chunkSize)
  else do
    let s := (chunkSize / kf + 1) * kf
    let chunk ← fill chunk chunkSize (s - chunkSize)
    return (chunk, s)

end Buffer

section Object

variable (c : Codec) {k m : Nat} (e : Erasure k m) (u : Upload)

def uploadChunk (osds : Osds) (chunkId : Nat) (chunk : Bytes) :
    Except Stop (List Fragment × Osds) := do
  let packed ← raising (chunkToPackedFragments c e u.encryption u.compression
    u.fragmentChecksumAlgo u.objectId chunkId chunk)
  raising (check (packed.length = u.targetOsds.length) .invalidArgument)
  let ctx : ChunkContext :=
    { objectId := u.objectId, versionId := 0, chunkId,
      targets := List.zipWith Target.mk packed u.targetOsds }
  let start ← raising (ChunkUpload.start ctx u.minFragmentCount u.cacheOnWrite osds)
  (run (ChunkUpload.exec ctx) start (u.schedule chunkId)).result ctx u.objectName

/-- The state of `fold_chunks`: the buffer and the accumulators, which are in reverse. -/
structure Progress where
  chunk : Bytes
  osds : Osds
  hashed : Bytes
  chunkSizes : List (Nat × Nat)
  fragments : Layout Fragment
  totalSize : Nat
  chunkId : Nat

/-- One chunk, and whether there are more. -/
def foldChunk (data : Bytes) (desiredChunkSize : Nat) (p : Progress) :
    Except Stop (Progress × Bool) := do
  let chunkSize := min desiredChunkSize (data.length - p.totalSize)
  let totalSize := p.totalSize + chunkSize
  let chunk ← raising (readInto data p.totalSize chunkSize p.chunk)
  let hashed := p.hashed ++ chunk.take chunkSize
  let (chunk, chunkSizeWithPadding) ← raising (padChunk k chunk chunkSize)
  let chunk' ← raising (extract chunk chunkSizeWithPadding)
  let (fragments, osds) ← uploadChunk c e u p.osds p.chunkId chunk'
  return (
    { chunk, osds, hashed, totalSize
      chunkSizes := (p.chunkId, chunkSizeWithPadding) :: p.chunkSizes
      fragments := fragments :: p.fragments
      chunkId := p.chunkId + 1 },
    decide (totalSize < data.length))

def foldChunks (data : Bytes) (desiredChunkSize : Nat) : Nat → Progress → Except Stop Progress
  | 0, _ => .error .diverges
  | fuel + 1, p => do
    let (p', hasMore) ← foldChunk c e u data desiredChunkSize p
    if hasMore then foldChunks data desiredChunkSize fuel p' else return p'

def objectChecksumAlgo : Except Exn Algo :=
  match u.checksumO with
  | none => .ok u.objectChecksum.default
  | some checksum => do
    check (checksum.algoOf ∈ u.objectChecksum.allowed) .checksumAlgoNotAllowed
    return if u.objectChecksum.verifyUpload then checksum.algoOf else .noChecksum

def manifestChecksum (objectChecksum : Checksum) : Except Exn Checksum :=
  match u.checksumO with
  | none => .ok objectChecksum
  | some checksum => do
    check (¬(u.objectChecksum.verifyUpload ∧ checksum ≠ objectChecksum)) .checksumMismatch
    return checksum

def Progress.initial (desiredChunkSize : Nat) (osds : Osds) : Progress :=
  { chunk := c.fresh desiredChunkSize, osds, hashed := [], chunkSizes := [], fragments := [],
    totalSize := 0, chunkId := 0 }

def uploadObject (osds : Osds) (data : Bytes) : Except Stop (Manifest × Osds) := do
  let algo ← raising (objectChecksumAlgo u)
  let desiredChunkSize ← raising (determineChunkSize data.length u.maxFragmentSize k)
  let p ← foldChunks c e u data desiredChunkSize (data.length + 1)
    (Progress.initial c desiredChunkSize osds)
  let checksum ← raising (manifestChecksum u (c.hash algo p.hashed))
  return (
    { name := u.objectName, objectId := u.objectId, k, m, compression := u.compression
      encryptInfo := fromEncryption c u.encryption
      chunkSizes := p.chunkSizes.reverse.map Prod.snd
      size := p.totalSize, checksum
      fragments := p.fragments.reverse
      versionId := 0 },
    p.osds)

end Object

section Sample

def sampleEvents (attempt : Attempt) : List ChunkEvent :=
  [.upload 0 attempt, .upload 2 attempt, .upload 1 attempt, .written, .decided, .written, .written,
    .written, .joined]

/-- Three fragments for each chunk, the last one without an osd. -/
def sampleUpload : Upload where
  objectName := [110]
  objectId := [111]
  minFragmentCount := 2
  maxFragmentSize := 16
  compression := .noCompression
  encryption := .algoWithKey { mode := .cbc } (List.replicate 32 1)
  fragmentChecksumAlgo := .sha1
  objectChecksum := { allowed := [.sha1], default := .sha1, verifyUpload := true }
  checksumO := none
  targetOsds := [some 1, some 2, none]
  cacheOnWrite := false
  schedule _ := sampleEvents (.stored none)

def sampleData : Bytes := (List.range 40).map UInt8.ofNat

end Sample

end Alba.Transfer
