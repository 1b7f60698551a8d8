import Alba.Transfer.Upload

/-! `download_fragment`, the second half of `download_chunk` and `download_object_generic''`: fragments
are fetched and unpacked, missing ones are rebuilt, and the data fragments are written one after the
other up to the size of the object. -/

namespace Alba.Transfer

open ProofKit Nsm

section Fragment

variable (c : Codec) (osds : Osds) (encryption : Encryption) (compression : Compression)
  (objectId : Bytes) (k chunkId : Nat)

def downloadPackedFragment (fragmentId : Nat) (location : OsdId × Int32) : Except Exn Bytes :=
  match osds location.1 { objectId, versionId := location.2, chunkId, fragmentId } with
  | some data => .ok data
  | none => .error .missingFragment

def downloadFragment (fragmentId : Nat) (location : OsdId × Int32) (fragmentChecksum : Checksum)
    (fragmentCtr : Option Bytes) : Except Exn Bytes := do
  let data ← downloadPackedFragment osds objectId chunkId fragmentId location
  c.unpackFragment encryption objectId chunkId fragmentId (k == 1) compression fragmentChecksum
    fragmentCtr data

/-- The download of a fragment of the manifest; one without an osd is not tried. -/
def downloadLocated (fragments : List Fragment) (fragmentId : Nat) : Except Exn (Nat × Bytes) :=
  match fragments[fragmentId]? with
  | some f =>
    match f.osd with
    | some osdId => (fragmentId, ·) <$> downloadFragment c osds encryption compression objectId k chunkId
        fragmentId (osdId, f.ver) f.crc f.ctr
    | none => .error .missingFragment
  | none => .error .missingFragment

end Fragment

section Decode

variable (c : Codec)

/-- A fragment of the table, or fresh memory for one that has to be rebuilt. -/
def gatherFragment (chunkId size : Nat) (fragments : List (Nat × Bytes)) (s : List Bytes × List Nat)
    (fragmentId : Nat) : Except Exn (List Bytes × List Nat) :=
  match fragments.lookup fragmentId with
  | some b => do
    check (b.length = size) (.fragmentSize chunkId fragmentId b.length size)
    return (b :: s.1, s.2)
  | none => .ok (c.fresh size :: s.1, fragmentId :: s.2)

/-- What `download_chunk` makes of the fragments that it has received. -/
def decodeChunk {k m : Nat} (e : Erasure k m) (chunkId : Nat) (fragments : List (Nat × Bytes)) :
    Except Exn (List Bytes × List Bytes) :=
  if fragments.length < k then .error .notEnoughFragments
  else
    match fragments with
    | [] => .error .invalidArgument
    | (_, b) :: _ => do
      let size := b.length
      let (dataRev, erasures) ←
        (List.range k).foldlM (gatherFragment c chunkId size fragments) ([], [])
      let (codingRev, erasures) ←
        (List.range' k m).foldlM (gatherFragment c chunkId size fragments) ([], erasures)
      return e.decode (erasures.reverse.map Int.ofNat ++ [-1]) dataRev.reverse codingRev.reverse size

end Decode

section Object

/-- One data fragment; the last ones are cut off at the size of the object. -/
def writeFragment (objectSize fragmentSize : Nat) (s : Nat × Bytes) (fragment : Bytes) :
    Except Exn (Nat × Bytes) := do
  let n : Int := if s.1 + fragmentSize < objectSize then fragmentSize else objectSize - s.1
  check (0 ≤ n ∧ n ≤ fragment.length) .outOfBounds
  return (s.1 + n.toNat, s.2 ++ fragment.take n.toNat)

variable (c : Codec) {k m : Nat} (e : Erasure k m) (manifest : Manifest) (osds : Osds)
  (encryption : Encryption) (received : Nat → List Nat)

def writeChunk (s : Nat × Bytes) (chunk : List Fragment × Nat) : Except Exn (Nat × Bytes) :=
  match manifest.chunkSizes[chunk.2]? with
  | none => .error .invalidArgument
  | some chunkSize => do
    let fragments ← (received chunk.2).mapM (downloadLocated c osds encryption manifest.compression
      manifest.objectId manifest.k chunk.2 chunk.1)
    let (data, _) ← decodeChunk c e chunk.2 fragments
    data.foldlM (writeFragment manifest.size (chunkSize / manifest.k)) s

/-- The bytes that are written, and whether they have the checksum of the object. -/
def downloadObject : Except Exn (Bytes × Except Exn Unit) := do
  let encryption ← getEncryption c encryption manifest.encryptInfo
  let (_, written) ←
    manifest.fragments.zipIdx.foldlM (writeChunk c e manifest osds encryption received) (0, [])
  return (written, check (manifest.checksum = c.hash manifest.checksum.algoOf written)
    (.failingChecksum manifest.name))

end Object

end Alba.Transfer
