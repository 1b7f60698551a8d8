import Alba.ProofKit.Readers
import Alba.Rora.Encoding
import Alba.Rora.Manifest

/-! How the C++ client reads a manifest. `from` gets a record to fill in; what it does not read stays as
it was. A message is the list of the bytes that are left of it. -/

namespace Alba.Rora

open ProofKit
open Nsm (Checksum Compression ChainingMode EncryptInfo EncryptionAlgo Timestamp)

inductive Broken
  | outside
  | unexpected
  | outOfBounds
  deriving DecidableEq

abbrev From := Reader Broken

section Llio

variable {α β : Type}

def fromUInt8 : From UInt8 := do
  let b ← nextBytes .outside 1
  return b.headD 0

def fromBool : From Bool := do
  let c ← fromUInt8
  if c = 1 then return true
  else if c = 0 then return false
  else throw .unexpected

def fromUInt32 : From UInt32 := do
  let b ← nextBytes .outside 4
  return UInt32.ofNat (ofLe b)

def fromUInt64 : From UInt64 := do
  let b ← nextBytes .outside 8
  return UInt64.ofNat (ofLe b)

def fromDouble : From Timestamp := do
  let b ← nextBytes .outside 8
  return ⟨BitVec.ofNat 64 (ofLe b)⟩

def fromString : From Bytes := do
  let size ← fromUInt32
  nextBytes .outside size.toNat

def fromVector (p : From α) : From (List α) := do
  let size ← fromUInt32
  readDown p size.toNat []

def fromOptional (p : From α) : From (Option α) := do
  if ← fromBool then return some (← p) else return none

def fromPair (p : From α) (q : From β) : From (α × β) := do
  let x ← p
  return (x, ← q)

/-- The loop of `varint_t`, with `uint64_t` words. -/
def varintLoop : Bytes → Nat → Nat → Except Broken (Nat × Bytes)
  | [], _, _ => .error .outside
  | b :: rest, r, shift =>
    if 128 ≤ b.toNat then varintLoop rest ((r + b.toNat % 128 * 2 ^ shift) % 2 ^ 64) (shift + 7)
    else .ok ((r + b.toNat * 2 ^ shift) % 2 ^ 64, rest)

def fromVarint : From Nat := fun b => varintLoop b 0 0

def fromSmallString : From Bytes := do
  let size ← fromVarint
  nextBytes .outside size

def fromXUInt64 : From UInt64 := do
  let i ← fromUInt32
  if i.toNat < 2 ^ 31 - 1 then return i.toUInt64 else fromUInt64

end Llio

def fromEncodingScheme : From EncodingScheme := do
  let version ← fromUInt8
  if version ≠ 1 then throw .unexpected
  let k ← fromUInt32
  let m ← fromUInt32
  let w ← fromUInt8
  return { k, m, w }

def fromCompression : From Compression := do
  match (← fromUInt8).toNat with
  | 1 => return .noCompression
  | 2 => return .snappy
  | 3 => return .bzip2
  | 4 => return .test
  | _ => throw .unexpected

def fromChainingMode : From ChainingMode := do
  match (← fromUInt8).toNat with
  | 1 => return .cbc
  | 2 => return .ctr
  | _ => throw .unexpected

/-- A tag with one value: the algorithm, the key length, the kind of key. -/
def fromTag : From Unit := do
  if (← fromUInt8) ≠ 1 then throw .unexpected

def fromEncryptInfo : From EncryptInfo := do
  match (← fromUInt8).toNat with
  | 1 => return .noEncryption
  | 2 =>
    fromTag
    let mode ← fromChainingMode
    fromTag
    fromTag
    let key ← fromString
    if key.length ≠ 32 then throw .unexpected
    return .encrypted ⟨mode⟩ key
  | _ => throw .unexpected

def fromChecksum : From Checksum := do
  match (← fromUInt8).toNat with
  | 1 => return .noChecksum
  | 2 => return .sha1 (← fromString)
  | 3 => return .crc32c (← fromUInt32).toBitVec
  | _ => throw .unexpected

def fromLocation : From (Option UInt64 × UInt32) := fromPair (fromOptional fromXUInt64) fromUInt32

/-- A field at the end of a message, which older writers leave out. -/
def fromRest (p : From (Option Bytes)) : From (Option Bytes) := do
  if (← get).length > 0 then p else return none

def innerFromFragment : From Fragment := do
  fromTag
  let loc ← fromLocation
  let crc ← fromChecksum
  let len ← fromUInt32
  let ctr ← fromRest (fromOptional fromSmallString)
  let fnr ← fromRest (fromOptional fromSmallString)
  return { loc, crc, len, ctr, fnr }

def fromFragment : From Fragment := do
  let size ← fromVarint
  let nested ← nextBytes .outside size
  match innerFromFragment.run nested with
  | .ok (f, _) => return f
  | .error e => throw e

section Manifest

/-- What both versions read first. -/
def fromHead (mf : Manifest) : From Manifest := do
  let name ← fromString
  let objectId ← fromString
  let chunkSizes ← fromVector fromUInt32
  fromTag
  let encodingScheme ← fromEncodingScheme
  let compression ← fromCompression
  let encryptInfo ← fromEncryptInfo
  let checksum ← fromChecksum
  let size ← fromUInt64
  return { mf with
    name, objectId, chunkSizes, encodingScheme, compression, encryptInfo, checksum, size }

def item {α : Type} (v : List α) (i : Nat) : Except Broken α :=
  match v[i]? with
  | some x => .ok x
  | none => .error .outOfBounds

/-- `build mf.fragments`: nobody sets `ctr` and `fnr`. -/
def buildFragments (locations : List (List (Option UInt64 × UInt32))) (checksums : List (List Checksum))
    (sizes : List (List UInt32)) : Except Broken (List (List Fragment)) :=
  (List.range checksums.length).mapM fun c => do
    let chunk ← item locations c
    (List.range chunk.length).mapM fun f => do
      return {
        loc := ← item chunk f
        crc := ← item (← item checksums c) f
        len := ← item (← item sizes c) f
        ctr := none
        fnr := none }

def innerFromVersion1 (mf : Manifest) : From Manifest := do
  let mf ← fromHead mf
  fromTag
  let locations ← fromVector (fromVector fromLocation)
  fromTag
  let checksums ← fromVector (fromVector fromChecksum)
  fromTag
  let sizes ← fromVector (fromVector fromUInt32)
  let fragments ← StateT.lift (buildFragments locations checksums sizes)
  let versionId ← fromUInt32
  let maxDisksPerNode ← fromUInt32
  let timestamp ← fromDouble
  return { mf with fragments := mf.fragments ++ fragments, versionId, maxDisksPerNode, timestamp }

def innerFromVersion2 (mf : Manifest) : From Manifest := do
  let mf ← fromHead mf
  fromTag
  let fragments ← fromVector (fromVector fromFragment)
  return { mf with fragments }

/-- `from` of a manifest, with `snappy::Uncompress`. -/
def fromManifest (uncompress : Bytes → Bytes) (mf : Manifest) : From Manifest := do
  let version ← fromUInt8
  match version.toNat with
  | 1 =>
    let compressed ← fromString
    let (mf, _) ← StateT.lift ((innerFromVersion1 mf).run (uncompress compressed))
    return mf
  | 2 =>
    let compressed ← fromString
    let (mf, _) ← StateT.lift ((innerFromVersion2 mf).run (uncompress compressed))
    return mf
  | _ => throw .unexpected

end Manifest

end Alba.Rora
