import Alba.Nsm.Types

/-! The manifests of the C++ client. -/

namespace Alba.Rora

open ProofKit
open Nsm (Checksum Compression EncryptInfo Timestamp)

structure EncodingScheme where
  k : UInt32
  m : UInt32
  w : UInt8
  deriving DecidableEq

structure Fragment where
  loc : Option UInt64 × UInt32
  crc : Checksum
  len : UInt32
  ctr : Option Bytes
  fnr : Option Bytes
  deriving DecidableEq

structure Manifest where
  name : Bytes
  objectId : Bytes
  chunkSizes : List UInt32
  encodingScheme : EncodingScheme
  compression : Compression
  encryptInfo : EncryptInfo
  checksum : Checksum
  size : UInt64
  fragments : List (List Fragment)
  versionId : UInt32
  maxDisksPerNode : UInt32
  timestamp : Timestamp
  deriving DecidableEq

structure ManifestWithNamespaceId extends Manifest where
  namespaceId : UInt64
  deriving DecidableEq

def supportsPartialDecrypt : EncryptInfo → Bool
  | .noEncryption => true
  | .encrypted algo _ => algo.mode = .ctr

end Alba.Rora
