import Alba.Nsm.Keys
import Alba.ProofKit.Run

/-! `Fragment_helper`: compression, encryption and checksums of one fragment, and the erasure code over
the fragments of a chunk. The libraries below are parameters, with the laws that are assumed of
them. -/

namespace Alba.Transfer

open ProofKit Nsm List

inductive Exn
  | assertFailure
  | invalidArgument
  | outOfBounds
  | badPadding
  | badCompression
  | missingFragment
  | checksumMismatch
  | checksumAlgoNotAllowed
  | notEnoughFragments
  | fragmentSize (chunkId fragmentId size expected : Nat)
  | chunkFailed (chunkId : Nat) (objectName objectId : Bytes)
  | failingChecksum (objectName : Bytes)
  | otherKey
  | algoMismatch
  | encryptionMismatch
  | osd
  deriving DecidableEq

/-- The libraries for one fragment. `encrypt` and `decrypt` include the padding that the chaining mode
asks for. What is not well formed cannot be decrypted or decompressed. -/
structure Codec where
  compress : Compression → Bytes → Bytes
  decompress : Compression → Bytes → Option Bytes
  encrypt : ChainingMode → Bytes → Bytes → Bytes → Bytes
  decrypt : ChainingMode → Bytes → Bytes → Bytes → Option Bytes
  ivBlock : Bytes → Bytes → Bytes
  hash : Algo → Bytes → Checksum
  sha256 : Bytes → Bytes
  /-- The contents of memory that has not been written yet. -/
  fresh : Nat → Bytes
  decompress_compress : ∀ compression b, decompress compression (compress compression b) = some b
  decrypt_encrypt : ∀ mode key iv iv' b,
    decrypt mode key iv' (encrypt mode key iv b) = some b ↔ iv' = iv
  ivBlock_injective : ∀ key, Function.Injective (ivBlock key)
  algoOf_hash : ∀ algo b, (hash algo b).algoOf = algo
  length_fresh : ∀ n, (fresh n).length = n

/-- A codec that marks what it encrypts with the vector. -/
def markCodec : Codec where
  compress _ b := b
  decompress _ b := some b
  encrypt _ _ iv b := iv ++ b
  decrypt _ _ iv b := if iv <+: b then some (b.drop iv.length) else none
  ivBlock _ b := b
  hash
    | .noChecksum, _ => .noChecksum
    | .sha1, b => .sha1 b
    | .crc32c, _ => .crc32c 0
  sha256 b := b
  fresh n := List.replicate n 7
  decompress_compress _ _ := rfl
  decrypt_encrypt _ _ iv iv' b := by
    simp only [Option.ite_none_right_eq_some, Option.some.injEq]
    constructor
    · rintro ⟨⟨rest, hrest⟩, hdrop⟩
      rw [← hrest, drop_left] at hdrop
      subst hdrop
      exact append_cancel_right hrest
    · rintro rfl
      simp
  ivBlock_injective _ _ _ h := h
  algoOf_hash algo b := by cases algo <;> rfl
  length_fresh n := by simp

/-- The fragments that are stored for the data fragments of a chunk: copies when there is only one. -/
def fragmentsOf (encode : List Bytes → List Bytes) (k m : Nat) (data : List Bytes) : List Bytes :=
  if k = 1 then List.replicate (k + m) (data.headD []) else data ++ encode data

/-- The erasure code with `k` data and `m` parity fragments. `decode` gets the numbers of the
fragments to rebuild, closed by -1, and any contents for these. -/
structure Erasure (k m : Nat) where
  encode : List Bytes → List Bytes
  decode : List Int → List Bytes → List Bytes → Nat → List Bytes × List Bytes
  encode_length : ∀ data, data.length = k → (encode data).length = m
  encode_size : ∀ data size, data.length = k → (∀ d ∈ data, d.length = size) →
    ∀ f ∈ encode data, f.length = size
  decode_any : ∀ data size (erased : List Nat) (present : List Bytes), data.length = k →
    (∀ d ∈ data, d.length = size) → present.length = k + m → (∀ f ∈ present, f.length = size) →
    (∀ i, i < k + m → i ∉ erased → present[i]? = (fragmentsOf encode k m data)[i]?) →
    k ≤ ((List.range (k + m)).filter (· ∉ erased)).length →
    decode (erased.map Int.ofNat ++ [-1]) (present.take k) (present.drop k) size =
      ((fragmentsOf encode k m data).take k, (fragmentsOf encode k m data).drop k)

def xorBytes (a b : Bytes) : Bytes := List.zipWith (· ^^^ ·) a b

theorem xorBytes_cancel {a b : Bytes} (h : a.length = b.length) :
    xorBytes (xorBytes a b) b = a ∧ xorBytes a (xorBytes a b) = b := by
  unfold xorBytes
  induction a generalizing b with
  | nil => simp [length_eq_zero_iff.mp h.symm]
  | cons x a ih =>
    cases b with
    | nil => simp at h
    | cons y b =>
      obtain ⟨hleft, hright⟩ := ih (b := b) (by simpa using h)
      simp [hleft, hright, ← UInt8.xor_assoc x x y]

def xorParity : Erasure 2 1 where
  encode data := [xorBytes (data.getD 0 []) (data.getD 1 [])]
  decode erasures data parity _ :=
    let a := data.getD 0 []
    let b := data.getD 1 []
    let p := parity.getD 0 []
    if 0 ∈ erasures then ([xorBytes p b, b], [p])
    else if 1 ∈ erasures then ([a, xorBytes a p], [p])
    else ([a, b], [xorBytes a b])
  encode_length _ _ := rfl
  encode_size data size hdata hsize f hf := by
    obtain ⟨a, b, rfl⟩ := length_eq_two.mp hdata
    simp only [mem_cons, not_mem_nil, or_false, forall_eq_or_imp, forall_eq] at hsize hf
    simp [hf, xorBytes, hsize]
  decode_any data size erased present hdata hsize hpresent _ hsame hcount := by
    obtain ⟨a, b, rfl⟩ := length_eq_two.mp hdata
    obtain ⟨x, y, z, rfl⟩ := length_eq_three.mp hpresent
    have hlength : a.length = b.length := by rw [hsize a (by simp), hsize b (by simp)]
    obtain ⟨hleft, hright⟩ := xorBytes_cancel hlength
    have hfirst := hsame 0 (by decide)
    have hsecond := hsame 1 (by decide)
    have hthird := hsame 2 (by decide)
    have hrange : List.range (2 + 1) = [0, 1, 2] := rfl
    simp [fragmentsOf] at hfirst hsecond hthird ⊢
    rw [hrange] at hcount
    -- at most one of the three fragments is missing
    by_cases h0 : 0 ∈ erased <;> by_cases h1 : 1 ∈ erased <;> by_cases h2 : 2 ∈ erased <;> simp_all

namespace Codec

variable (c : Codec)

/-- The number that stands for a fragment in its initialisation vector. -/
def ivNumber (fragmentId : Nat) (ignoreFragmentId : Bool) : Nat :=
  if ignoreFragmentId then 0 else fragmentId

/-- The initialisation vector of a fragment: the last block of its serialised ids. -/
def getIv (key objectId : Bytes) (chunkId fragmentId : Nat) (ignoreFragmentId : Bool) : Bytes :=
  c.ivBlock key (stringTo objectId ++
    (intTo chunkId ++ intTo (ivNumber fragmentId ignoreFragmentId)))

def hardCodedIv : Bytes :=
  [192, 157, 86, 25, 215, 44, 40, 236, 17, 226, 209, 69, 205, 118, 159, 92]

def verifyKeyLength (key : Bytes) : Except Exn Unit := check (key.length = 32) .assertFailure

section Fragment

variable (encryption : Encryption) (objectId : Bytes) (chunkId fragmentId : Nat)
  (ignoreFragmentId : Bool)

def maybeEncrypt (plain : Bytes) : Except Exn (Bytes × Option Bytes) :=
  match encryption with
  | .noEncryption => .ok (plain, none)
  | .algoWithKey algo key => do
    verifyKeyLength key
    match algo.mode with
    | .cbc =>
      let iv := c.getIv key objectId chunkId fragmentId ignoreFragmentId
      return (c.encrypt .cbc key iv plain, none)
    | .ctr => return (c.encrypt .ctr key hardCodedIv plain, some hardCodedIv)

def decryptWith (mode : ChainingMode) (key iv data : Bytes) : Except Exn Bytes :=
  match c.decrypt mode key iv data with
  | some plain => .ok plain
  | none => .error .badPadding

def maybeDecrypt (fragmentCtr : Option Bytes) (data : Bytes) : Except Exn Bytes :=
  match encryption with
  | .noEncryption => .ok data
  | .algoWithKey algo key => do
    verifyKeyLength key
    match algo.mode, fragmentCtr with
    | .cbc, _ =>
      c.decryptWith .cbc key (c.getIv key objectId chunkId fragmentId ignoreFragmentId) data
    | .ctr, some ctr => c.decryptWith .ctr key ctr data
    | .ctr, none => .error .invalidArgument

structure Packed where
  bytes : Bytes
  checksum : Checksum
  ctr : Option Bytes
  deriving DecidableEq

def maybeDecompress (compression : Compression) (compressed : Bytes) : Except Exn Bytes :=
  match c.decompress compression compressed with
  | some plain => .ok plain
  | none => .error .badCompression

def packFragment (compression : Compression) (checksumAlgo : Algo) (fragment : Bytes) :
    Except Exn Packed := do
  let (final, ctr) ← c.maybeEncrypt encryption objectId chunkId fragmentId ignoreFragmentId
    (c.compress compression fragment)
  return { bytes := final, checksum := c.hash checksumAlgo final, ctr }

def verify (data : Bytes) (checksum : Checksum) : Bool := c.hash checksum.algoOf data = checksum

/-- What `download_fragment` makes of the bytes that an osd returned. -/
def unpackFragment (compression : Compression) (fragmentChecksum : Checksum)
    (fragmentCtr : Option Bytes) (data : Bytes) : Except Exn Bytes := do
  check (c.verify data fragmentChecksum) .checksumMismatch
  let plain ← c.maybeDecrypt encryption objectId chunkId fragmentId ignoreFragmentId fragmentCtr data
  c.maybeDecompress compression plain

end Fragment

section RoundTrip

variable {c} {encryption : Encryption} {objectId : Bytes} {chunkId fragmentId : Nat}
  {ignore : Bool}

theorem intTo_natCast_inj {a b : Nat} (ha : a < 2 ^ 32) (hb : b < 2 ^ 32) :
    intTo a = intTo b ↔ a = b := by
  rw [intTo_eq_iff, BitVec.ofInt_natCast, BitVec.ofInt_natCast, ← BitVec.toNat_inj,
    BitVec.toNat_ofNat, BitVec.toNat_ofNat, Nat.mod_eq_of_lt ha, Nat.mod_eq_of_lt hb]

theorem getIv_inj {key : Bytes} {fragmentId' : Nat} {ignore' : Bool} :
    c.getIv key objectId chunkId fragmentId ignore = c.getIv key objectId chunkId fragmentId' ignore' ↔
      intTo (ivNumber fragmentId ignore) = intTo (ivNumber fragmentId' ignore') := by
  rw [getIv, getIv, (c.ivBlock_injective key).eq_iff, append_cancel_left_eq,
    append_cancel_left_eq]

theorem decryptWith_eq_ok {mode : ChainingMode} {key iv iv' b : Bytes} :
    c.decryptWith mode key iv' (c.encrypt mode key iv b) = .ok b ↔ iv' = iv := by
  rw [← c.decrypt_encrypt mode key iv iv' b, decryptWith]
  cases c.decrypt mode key iv' (c.encrypt mode key iv b) <;> simp

/-- The encryption whose vector depends on the number of the fragment. -/
def isCbc : Encryption → Bool
  | .noEncryption => false
  | .algoWithKey algo _ => algo.mode = .cbc

theorem maybeDecrypt_maybeEncrypt {plain : Bytes} {r : Bytes × Option Bytes} {fragmentId' : Nat}
    {ignore' : Bool} (h : c.maybeEncrypt encryption objectId chunkId fragmentId ignore plain = .ok r) :
    c.maybeDecrypt encryption objectId chunkId fragmentId' ignore' r.2 r.1 = .ok plain ↔
      (isCbc encryption → intTo (ivNumber fragmentId' ignore') = intTo (ivNumber fragmentId ignore)) := by
  cases encryption with
  | noEncryption =>
    cases h
    simp [maybeDecrypt, isCbc]
  | algoWithKey algo key =>
    simp only [maybeEncrypt, bind_eq_ok] at h
    obtain ⟨_, hkey, h⟩ := h
    rcases hmode : algo.mode with _ | _ <;> simp only [hmode] at h <;> cases h
    · simp only [maybeDecrypt, hkey, hmode, isCbc, decide_true, forall_const]
      exact decryptWith_eq_ok.trans getIv_inj
    · refine iff_of_true ?_ (by simp [isCbc, hmode])
      simp only [maybeDecrypt, hkey, hmode]
      exact decryptWith_eq_ok.mpr rfl

theorem packFragment_eq_ok {compression : Compression} {algo : Algo} {fragment : Bytes} {p : Packed} :
    c.packFragment encryption objectId chunkId fragmentId ignore compression algo fragment = .ok p ↔
      c.maybeEncrypt encryption objectId chunkId fragmentId ignore (c.compress compression fragment) =
        .ok (p.bytes, p.ctr) ∧ p.checksum = c.hash algo p.bytes := by
  simp only [packFragment, bind_eq_ok]
  constructor
  · rintro ⟨⟨final, ctr⟩, h, hp⟩
    cases hp
    exact ⟨h, rfl⟩
  · rintro ⟨h, hchecksum⟩
    exact ⟨_, h, by rw [← hchecksum]; rfl⟩

section Unpack

variable {compression : Compression} {algo : Algo} {fragment : Bytes} {p : Packed}
  {fragmentId' : Nat} {ignore' : Bool}

section

variable (h : c.packFragment encryption objectId chunkId fragmentId ignore compression algo fragment = .ok p)
include h

theorem unpackFragment_packed :
    c.unpackFragment encryption objectId chunkId fragmentId' ignore' compression p.checksum p.ctr
        p.bytes =
      c.maybeDecrypt encryption objectId chunkId fragmentId' ignore' p.ctr p.bytes >>=
        c.maybeDecompress compression := by
  have hchecksum := (packFragment_eq_ok.mp h).2
  have hverify : c.verify p.bytes p.checksum := by
    rw [verify, hchecksum, c.algoOf_hash, decide_eq_true_iff]
  rw [unpackFragment, check, if_pos hverify]
  rfl

theorem unpackFragment_of_packFragment
    (hiv : isCbc encryption → ivNumber fragmentId' ignore' = ivNumber fragmentId ignore) :
    c.unpackFragment encryption objectId chunkId fragmentId' ignore' compression p.checksum p.ctr
      p.bytes = .ok fragment := by
  have hplain := (maybeDecrypt_maybeEncrypt (packFragment_eq_ok.mp h).1).mpr fun hcbc => by
    rw [hiv hcbc]
  rw [unpackFragment_packed h, bind_eq_ok]
  exact ⟨_, hplain, by rw [maybeDecompress, c.decompress_compress]⟩

end

theorem agree_of_unpackFragment
    (exact_inverse : ∀ y x, c.decompress compression y = some x → y = c.compress compression x)
    (h : c.packFragment encryption objectId chunkId fragmentId ignore compression algo fragment = .ok p)
    (hread : c.unpackFragment encryption objectId chunkId fragmentId' ignore' compression p.checksum
      p.ctr p.bytes = .ok fragment) :
    isCbc encryption → intTo (ivNumber fragmentId' ignore') = intTo (ivNumber fragmentId ignore) := by
  rw [unpackFragment_packed h, bind_eq_ok] at hread
  obtain ⟨plain, hplain, hread⟩ := hread
  have hcompressed : plain = c.compress compression fragment := by
    refine exact_inverse plain fragment ?_
    rw [maybeDecompress] at hread
    split at hread
    · rename_i hd
      cases hread
      exact hd
    · cases hread
  rw [hcompressed] at hplain
  exact (maybeDecrypt_maybeEncrypt (packFragment_eq_ok.mp h).1).mp hplain

end Unpack

end RoundTrip

end Codec

end Alba.Transfer
