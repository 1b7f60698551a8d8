import Alba.NsmHost.Store

/-! `Manifest.to_buffer`: how the server writes a manifest, in both versions. -/

namespace Alba.Rora

open ProofKit
open Nsm (intTo stringTo Checksum Compression ChainingMode EncryptInfo StorageScheme)
open NsmHost (xInt64To)

section Llio

variable {α : Type}

def int8To (n : Nat) : Bytes := [UInt8.ofNat n]

/-- A list is written last element first. -/
def listTo (write : α → Bytes) (xs : List α) : Bytes := intTo xs.length ++ xs.reverse.flatMap write

def optionTo (write : α → Bytes) : Option α → Bytes
  | none => int8To 0
  | some x => int8To 1 ++ write x

def varintTo (i : Nat) : Bytes :=
  if i < 128 then int8To i else int8To (i % 128 + 128) ++ varintTo (i / 128)

def smallBytesTo (s : Bytes) : Bytes := varintTo s.length ++ s

def layoutOutput (write : α → Bytes) (t : Nsm.Layout α) : Bytes := int8To 1 ++ listTo (listTo write) t

end Llio

def checksumOutput : Checksum → Bytes
  | .noChecksum => int8To 1
  | .sha1 digest => int8To 2 ++ stringTo digest
  | .crc32c digest => int8To 3 ++ leBytes 4 digest.toNat

def compressionOutput : Compression → Bytes
  | .noCompression => int8To 1
  | .snappy => int8To 2
  | .bzip2 => int8To 3
  | .test => int8To 4

/-- `W8` has the value 1. -/
def encodingSchemeOutput (s : StorageScheme) : Bytes :=
  int8To 1 ++ (intTo s.k ++ (intTo s.m ++ int8To 1))

def storageSchemeOutput (s : StorageScheme) : Bytes :=
  int8To 1 ++ (encodingSchemeOutput s ++ compressionOutput s.compression)

def chainingModeTo : ChainingMode → Bytes
  | .cbc => int8To 1
  | .ctr => int8To 2

def encryptInfoTo : EncryptInfo → Bytes
  | .noEncryption => int8To 1
  | .encrypted algo keySha256 =>
    int8To 2 ++ (int8To 1 ++ (chainingModeTo algo.mode ++ (int8To 1 ++ (int8To 1 ++ stringTo keySha256))))

def locTo (loc : Option Nsm.OsdId × Int32) : Bytes := optionTo xInt64To loc.1 ++ intTo loc.2.toInt

/-- `_inner_fragment_to` -/
def innerFragmentTo (f : Nsm.Fragment) : Bytes :=
  int8To 1 ++ (locTo f.locOf ++ (checksumOutput f.crc ++ (intTo f.len ++
    (optionTo smallBytesTo f.ctr ++ optionTo smallBytesTo f.fnr))))

def fragmentTo (f : Nsm.Fragment) : Bytes := smallBytesTo (innerFragmentTo f)

section Manifest

variable (m : Nsm.Manifest)

/-- The fields that both versions start with. -/
def headTo : Bytes :=
  stringTo m.name ++ (stringTo m.objectId ++ (listTo intTo m.chunkSizes ++
    (storageSchemeOutput m.storageScheme ++ (encryptInfoTo m.encryptInfo ++
      (checksumOutput m.checksum ++ leBytes 8 m.size.toNat)))))

def tailTo : Bytes :=
  intTo m.versionId.toInt ++ (intTo m.maxDisksPerNode ++ leBytes 8 m.timestamp.bits.toNat)

def innerToBuffer1 : Bytes :=
  headTo m ++ (layoutOutput (fun f => locTo f.locOf) m.fragments ++
    (layoutOutput (fun f => checksumOutput f.crc) m.fragments ++
      (layoutOutput (fun f => intTo f.len) m.fragments ++
        (tailTo m ++ layoutOutput (fun f => optionTo stringTo f.ctr) m.fragments))))

def innerToBuffer2 : Bytes := headTo m ++ (layoutOutput fragmentTo m.fragments ++ tailTo m)

inductive Version
  | one
  | two
  deriving DecidableEq

def serialize : Version → Bytes
  | .one => innerToBuffer1 m
  | .two => innerToBuffer2 m

/-- `to_buffer`, with the compression of snappy. -/
def toBuffer (compress : Bytes → Bytes) (version : Version) : Bytes :=
  int8To (match version with | .one => 1 | .two => 2) ++ stringTo (compress (serialize m version))

end Manifest

end Alba.Rora
