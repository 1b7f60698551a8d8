import Alba.Rora.Agreement

/-! `_fragment_key`: the key under which the C++ client looks for a fragment, and the one under which the
server stores it. -/

namespace Alba.Rora

open ProofKit Nsm
open NsmHost (xInt64To)

/-- `to_be` of a `uint32_t`: its bytes are swapped, and it is written as it lies in memory. -/
def toBe32 (i : UInt32) : Bytes :=
  leBytes 4 (i >>> 24 ||| (i <<< 8) &&& (0x00ff0000 : UInt32) |||
    (i >>> 8) &&& (0x0000ff00 : UInt32) ||| i <<< 24).toNat

def toBe64 (i : UInt64) : Bytes :=
  leBytes 8 ((i &&& 0xff00000000000000) >>> 56 ||| (i &&& 0x00ff000000000000) >>> 40 |||
    (i &&& 0x0000ff0000000000) >>> 24 ||| (i &&& 0x000000ff00000000) >>> 8 |||
    (i &&& 0x00000000ff000000) <<< 8 ||| (i &&& 0x0000000000ff0000) <<< 24 |||
    (i &&& 0x000000000000ff00) <<< 40 ||| (i &&& 0x00000000000000ff) <<< 56).toNat

def maxInt32 : UInt32 := 2147483647

/-- `to_be` of an `x_uint64_t`. -/
def toBeX (t : UInt64) : Bytes :=
  if t < maxInt32.toUInt64 then toBe32 t.toUInt32 else toBe32 maxInt32 ++ toBe64 t

/-- `to` of a string, which counts its bytes in 32 bits. -/
def toString (s : Bytes) : Bytes :=
  let size := UInt32.ofNat s.length
  leBytes 4 size.toNat ++ s.take size.toNat

def fragmentKey (namespaceId : UInt64) (objectId : Bytes) (versionId chunkId fragmentId : UInt32) :
    Bytes :=
  ascii ['p'] ++ (leBytes 4 0 ++ (ascii ['n'] ++ (toBeX namespaceId ++ (ascii ['o'] ++
    (toString objectId ++ (leBytes 4 chunkId.toNat ++ (leBytes 4 fragmentId.toNat ++
      leBytes 4 versionId.toNat)))))))

theorem byte_eq {w : Nat} {x y : BitVec w} {a b : Nat}
    (h : ∀ k < 8, x.getLsbD (8 * a + k) = y.getLsbD (8 * b + k)) :
    UInt8.ofNat (x.toNat / 256 ^ a) = UInt8.ofNat (y.toNat / 256 ^ b) := by
  have hbits : ∀ (z : BitVec w) (c : Nat), UInt8.ofNat (z.toNat / 256 ^ c) =
      UInt8.ofBitVec (z.extractLsb' (8 * c) 8) := by
    intro z c
    refine UInt8.toBitVec_inj.mp (BitVec.eq_of_toNat_eq ?_)
    simp [BitVec.extractLsb'_toNat, Nat.shiftRight_eq_div_pow, pow_mul]
  rw [hbits, hbits]
  refine congrArg _ (BitVec.eq_of_getLsbD_eq fun k hk => ?_)
  simp [hk, h k hk]

theorem getElem?_leBytes {n a : Nat} (h : a < n) (v : Nat) :
    (leBytes n v)[a]? = some (UInt8.ofNat (v / 256 ^ a)) := by
  induction n generalizing a v with
  | zero => exact absurd h (Nat.not_lt_zero a)
  | succ n ih =>
    cases a with
    | zero => simp [leBytes]
    | succ a =>
      rw [leBytes, List.getElem?_cons_succ, ih (by omega), Nat.div_div_eq_div_mul, ← Nat.pow_succ']

theorem getElem?_beBytes {n a : Nat} (h : a < n) (v : Nat) :
    (beBytes n v)[a]? = some (UInt8.ofNat (v / 256 ^ (n - 1 - a))) := by
  induction n generalizing a with
  | zero => exact absurd h (Nat.not_lt_zero a)
  | succ n ih =>
    cases a with
    | zero => rfl
    | succ a =>
      rw [beBytes, List.getElem?_cons_succ, ih (by omega), show n - 1 - a = n + 1 - 1 - (a + 1) by omega]

theorem leBytes_of_swapped {w n : Nat} {x y : BitVec w}
    (h : ∀ a < n, ∀ k < 8, x.getLsbD (8 * a + k) = y.getLsbD (8 * (n - 1 - a) + k)) :
    leBytes n x.toNat = beBytes n y.toNat := by
  refine List.ext_getElem? fun a => ?_
  by_cases ha : a < n
  · rw [getElem?_leBytes ha, getElem?_beBytes ha, byte_eq (h a ha)]
  · rw [List.getElem?_eq_none (by simpa using ha), List.getElem?_eq_none (by simpa using ha)]

theorem toBe32_eq (i : UInt32) : toBe32 i = beBytes 4 i.toNat := by
  refine leBytes_of_swapped fun a ha k hk => ?_
  interval_cases a <;> interval_cases k <;> simp

theorem toBe64_eq (i : UInt64) : toBe64 i = beBytes 8 i.toNat := by
  refine leBytes_of_swapped fun a ha k hk => ?_
  interval_cases a <;> interval_cases k <;> simp

theorem toBeX_eq (i : Nat63) : toBeX (UInt64.ofNat i.val) = xInt64BeTo i := by
  have hi := i.fits
  have hval : (UInt64.ofNat i.val).toNat = i.val := by
    simp
    omega
  unfold toBeX xInt64BeTo
  simp only [UInt64.lt_iff_toNat_lt, hval, toBe32_eq, toBe64_eq]
  refine ite_congr rfl (fun h => ?_) fun _ => rfl
  rw [UInt64.toNat_toUInt32, hval, Nat.mod_eq_of_lt (by omega)]

theorem leBytes_uint32 (n : Nat) : leBytes 4 (UInt32.ofNat n).toNat = intTo n := by simp [intTo]

theorem toString_eq {s : Bytes} (h : s.length < 2 ^ 32) : toString s = stringTo s := by
  have hsize : (UInt32.ofNat s.length).toNat = s.length := UInt32.toNat_ofNat_of_lt' h
  rw [toString, leBytes_uint32, hsize, List.take_length, stringTo]

/-- The client looks for a fragment under the key under which the server has stored it, and reads the
ids that the server writes. -/
theorem fragmentKey_agrees (i : Nat63) {objectId : Bytes} (hid : objectId.length < 2 ^ 32)
    (versionId chunkId fragmentId : Nat) :
    fragmentKey (UInt64.ofNat i.val) objectId (UInt32.ofNat versionId) (UInt32.ofNat chunkId)
        (UInt32.ofNat fragmentId) =
      toGlobalKey i (fragment objectId versionId chunkId fragmentId) ∧
    Reads fromXUInt64 (xInt64To i) (UInt64.ofNat i.val) := by
  refine ⟨?_, reads_xuint64 i⟩
  simp only [fragmentKey, toGlobalKey, namespacePrefix, fragment, fragmentSuffix, toBeX_eq,
    toString_eq hid, leBytes_uint32, List.append_assoc]
  rfl

/-- A namespace id that is written in eight bytes. -/
theorem fragmentKey_agrees_large :
    fragmentKey 2147483647 [111] 0 1 2 = toGlobalKey 2147483647 (fragment [111] 0 1 2) :=
  (fragmentKey_agrees 2147483647 (show [(111 : UInt8)].length < 2 ^ 32 by decide) 0 1 2).1

end Alba.Rora
