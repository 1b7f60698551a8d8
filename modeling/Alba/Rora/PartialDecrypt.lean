import Alba.ProofKit.CounterMode
import Alba.ProofKit.Words
import Alba.Transfer.Codec

/-! Decrypting a part of a fragment in counter mode, by the proxy and by the client. Both move the
counter, given as two halves of 64 bits, to the block of the first byte, and burn the bytes before it. -/

namespace Alba.Rora

open List hiding Vector
open ProofKit
open Nsm (Encryption ChainingMode)
open Transfer (Exn)

abbrev Cipher := Bytes → BlockCipher

/-- `get_int64` (big-endian) at a position. -/
def int64At (b : Bytes) (pos : Nat) : BitVec 64 := BitVec.ofNat 64 (ofBe ((b.drop pos).take 8))

def int64To (i : BitVec 64) : Bytes := beBytes 8 i.toNat

def setCtr (ctr : Bytes) : CounterMode := ⟨BitVec.ofNat 128 (ofBe ctr), 0⟩

section Decrypt

variable (E : Cipher)

/-- The counter that `set_ctr_with_offset` sets. -/
def ctrWithOffset (ctr : Bytes) (offset : Nat) : Bytes :=
  let skipBlocks64 := BitVec.ofNat 64 (offset / 16)
  let low := int64At ctr 8 + skipBlocks64
  -- the comparisons of `int64` are signed
  let high := if (0#64).sle low ∧ low.slt skipBlocks64 then int64At ctr 0 + 1 else int64At ctr 0
  int64To high ++ int64To low

/-- `burned` are the contents of `_burn_buf`, which nobody reads. -/
def setCtrWithOffset (key ctr : Bytes) (offset : Nat) (burned : Vector UInt8 16) : Except Exn CounterMode := do
  check (ctr.length = 16) .assertFailure
  let handle := setCtr (ctrWithOffset ctr offset)
  let toBurn := offset - offset / 16 * 16
  return (handle.crypt (E key) (burned.toList.take toBurn)).2

/-- `maybe_partial_decrypt`: `length` bytes of `data` are decrypted in place. -/
def maybePartialDecrypt (encryption : Encryption) (fragmentCtr : Option Bytes) (data : Bytes)
    (offset length fragmentOffset : Nat) (burned : Vector UInt8 16) : Except Exn Bytes :=
  match encryption, fragmentCtr with
  | .noEncryption, _ => .ok data
  | .algoWithKey ⟨.cbc⟩ _, _ => .error .algoMismatch
  | .algoWithKey ⟨.ctr⟩ _, none => .error .invalidArgument
  | .algoWithKey ⟨.ctr⟩ key, some ctr => do
    let handle ← setCtrWithOffset E key ctr fragmentOffset burned
    let plain := (handle.crypt (E key) ((data.drop offset).take length)).1
    return data.take offset ++ plain ++ data.drop (offset + length)

/-- `Encrypted::partial_decrypt`, with the words of `uint64_t`; nothing when it returns false and when
its assertion fails. -/
def partialDecrypt (mode : ChainingMode) (buf encKey ctr : Bytes) (offset : Nat) (burned : Vector UInt8 16) :
    Option Bytes :=
  if mode ≠ .ctr then none
  else if ctr.length ≠ 16 then none
  else
    let skipBlocks := BitVec.ofNat 64 (offset / 16)
    let high := int64At ctr 0
    let low := int64At ctr 8
    let low2 := low + skipBlocks
    let high2 := if BitVec.allOnes 64 - low < skipBlocks then high + 1 else high
    let handle := setCtr (int64To high2 ++ int64To low2)
    let toBurn := offset % 16
    let handle := if toBurn > 0 then (handle.crypt (E encKey) (burned.toList.take toBurn)).2 else handle
    some (handle.crypt (E encKey) buf).1

/-- A whole fragment, as `maybe_decrypt` decrypts it in counter mode. -/
def decryptFragment (key ctr data : Bytes) : Bytes := ((setCtr ctr).crypt (E key) data).1

end Decrypt

section Counter

theorem sle_slt_add_iff {low skip : BitVec 64} (h : skip.toNat < 2 ^ 63) :
    (0#64).sle (low + skip) ∧ (low + skip).slt skip ↔ 2 ^ 64 ≤ low.toNat + skip.toNat := by
  rw [BitVec.sle_iff_toInt_le, BitVec.slt_iff_toInt_lt, BitVec.toInt_eq_toNat_cond (low + skip),
    BitVec.toInt_eq_toNat_cond skip, BitVec.toNat_add]
  have hlow := low.isLt
  simp only [BitVec.toInt_zero]
  split <;> split <;> omega

theorem allOnes_sub_lt_iff {low skip : BitVec 64} :
    BitVec.allOnes 64 - low < skip ↔ 2 ^ 64 ≤ low.toNat + skip.toNat := by
  rw [BitVec.lt_def, BitVec.toNat_sub, BitVec.toNat_allOnes]
  have hlow := low.isLt
  have hskip := skip.isLt
  omega

theorem carry_eq (high low skip : BitVec 64) (carry : Prop) [Decidable carry]
    (hcarry : carry ↔ 2 ^ 64 ≤ low.toNat + skip.toNat) :
    ofBe (int64To (if carry then high + 1 else high) ++ int64To (low + skip)) % 2 ^ 128 =
      (high.toNat * 2 ^ 64 + low.toNat + skip.toNat) % 2 ^ 128 := by
  have hlow := low.isLt
  have hskip := skip.isLt
  have hhigh := high.isLt
  rw [ofBe_append, int64To, int64To, beBytes_length, ofBe_beBytes, ofBe_beBytes, BitVec.toNat_add]
  by_cases hc : carry
  · have := hcarry.mp hc
    have hone : (1 : BitVec 64).toNat = 1 := rfl
    simp only [hc, if_true, BitVec.toNat_add, hone]
    omega
  · have := mt hcarry.mpr hc
    simp only [hc, if_false]
    omega

theorem ofBe_halves {ctr : Bytes} (h : ctr.length = 16) :
    ofBe ctr = (int64At ctr 0).toNat * 2 ^ 64 + (int64At ctr 8).toNat := by
  have hhigh := ofBe_lt (ctr.take 8)
  have hlow := ofBe_lt (ctr.drop 8)
  have hwhole : (ctr.drop 8).take 8 = ctr.drop 8 := take_of_length_le (by simp [h])
  rw [length_take, h] at hhigh
  rw [length_drop, h] at hlow
  rw [int64At, int64At, hwhole, drop_zero, BitVec.toNat_ofNat, BitVec.toNat_ofNat]
  conv_lhs => rw [← take_append_drop 8 ctr, ofBe_append, length_drop]
  have hmin : min 8 16 = 8 := rfl
  rw [h]
  rw [hmin] at hhigh
  omega

theorem setCtr_carry {ctr : Bytes} {offset : Nat} (hctr : ctr.length = 16) (hoffset : offset < 2 ^ 31)
    (carry : Prop) [Decidable carry]
    (hcarry : carry ↔ 2 ^ 64 ≤ (int64At ctr 8).toNat + (BitVec.ofNat 64 (offset / 16)).toNat) :
    setCtr (int64To (if carry then int64At ctr 0 + 1 else int64At ctr 0) ++
        int64To (int64At ctr 8 + BitVec.ofNat 64 (offset / 16))) =
      ⟨BitVec.ofNat 128 (ofBe ctr) + BitVec.ofNat 128 (offset / 16), 0⟩ := by
  have hskip : (BitVec.ofNat 64 (offset / 16)).toNat = offset / 16 := by
    rw [BitVec.toNat_ofNat]
    omega
  rw [setCtr, ← BitVec.ofNat_add, CounterMode.mk.injEq]
  refine ⟨BitVec.eq_of_toNat_eq ?_, rfl⟩
  rw [BitVec.toNat_ofNat, BitVec.toNat_ofNat, carry_eq _ _ _ carry hcarry, hskip, ofBe_halves hctr]

end Counter

section Slices

variable (E : Cipher) (key : Bytes) {ctr : Bytes} {offset : Nat}

theorem crypt_slice (ctr : Bytes) (offset : Nat) (fragment : Bytes) (length : Nat) :
    (CounterMode.crypt (E key)
        ⟨BitVec.ofNat 128 (ofBe ctr) + BitVec.ofNat 128 (offset / 16), offset % 16⟩
        ((fragment.drop offset).take length)).1 =
      ((decryptFragment E key ctr fragment).drop offset).take length := by
  have hoffset : 16 * (offset / 16) + offset % 16 = 0 + offset := by omega
  rw [decryptFragment, setCtr, CounterMode.crypt, CounterMode.crypt, CounterMode.slice_xorFrom,
    CounterMode.xorFrom_skip, hoffset]

theorem length_burned (burned : Vector UInt8 16) :
    (burned.toList.take (offset % 16)).length = offset % 16 := by
  rw [length_take, Vector.length_toList]
  omega

theorem setCtrWithOffset_eq (hctr : ctr.length = 16) (hoffset : offset < 2 ^ 31)
    (burned : Vector UInt8 16) :
    setCtrWithOffset E key ctr offset burned =
      .ok ⟨BitVec.ofNat 128 (ofBe ctr) + BitVec.ofNat 128 (offset / 16), offset % 16⟩ := by
  have hskip : (BitVec.ofNat 64 (offset / 16)).toNat < 2 ^ 63 := by
    rw [BitVec.toNat_ofNat]
    omega
  have hburn : offset - offset / 16 * 16 = offset % 16 := by omega
  have hset := setCtr_carry hctr hoffset _ (sle_slt_add_iff hskip)
  rw [setCtrWithOffset, check, if_pos hctr, hburn, ctrWithOffset, hset]
  simp only [CounterMode.crypt, length_burned, Nat.zero_add]
  rfl

theorem partialDecrypt_eq (hctr : ctr.length = 16) (hoffset : offset < 2 ^ 31) (buf : Bytes)
    (burned : Vector UInt8 16) :
    partialDecrypt E .ctr buf key ctr offset burned = some (CounterMode.crypt (E key)
        ⟨BitVec.ofNat 128 (ofBe ctr) + BitVec.ofNat 128 (offset / 16), offset % 16⟩ buf).1 := by
  have hset := setCtr_carry hctr hoffset _ allOnes_sub_lt_iff
  simp only [partialDecrypt, ne_eq, not_true, if_false, hctr, hset, CounterMode.crypt, length_burned,
    Nat.zero_add]
  split
  · rfl
  · rw [show offset % 16 = 0 by omega]

/-- Decrypting a part of a fragment gives that part of the decrypted fragment, for the proxy, which
decrypts it inside a larger buffer, and for the client. -/
theorem partial_decrypt_eq_slice (hctr : ctr.length = 16) (hoffset : offset < 2 ^ 31)
    (fragment before after : Bytes) (length : Nat) (burned : Vector UInt8 16) :
    let slice := (fragment.drop offset).take length
    let plain := ((decryptFragment E key ctr fragment).drop offset).take length
    maybePartialDecrypt E (.algoWithKey ⟨.ctr⟩ key) (some ctr) (before ++ slice ++ after) before.length
        slice.length offset burned = .ok (before ++ plain ++ after) ∧
      partialDecrypt E .ctr slice key ctr offset burned = some plain := by
  intro slice plain
  have hplain := crypt_slice E key ctr offset fragment length
  constructor
  · have hslice : ((before ++ slice ++ after).drop before.length).take slice.length = slice := by
      rw [append_assoc, drop_left, take_left]
    have hafter : (before ++ slice ++ after).drop (before.length + slice.length) = after := by
      rw [← length_append, drop_left]
    have hbefore : (before ++ slice ++ after).take before.length = before := by
      rw [append_assoc, take_left]
    simp only [maybePartialDecrypt, setCtrWithOffset_eq E key hctr hoffset, hslice, hafter, hbefore]
    exact congrArg (fun p => Except.ok (before ++ p ++ after)) hplain
  · rw [partialDecrypt_eq E key hctr hoffset, hplain]

/-- The counter of all ones: both halves wrap around when the first block is skipped. -/
theorem partial_decrypt_eq_slice_allOnes :
    let E : Cipher := fun key c i => UInt8.ofNat (key.length + 7 * c.toNat + i)
    let ctr : Bytes := List.replicate 16 255
    let fragment : Bytes := List.replicate 50 1
    ctr.length = 16 ∧ 20 < 2 ^ 31 ∧
      partialDecrypt E .ctr ((fragment.drop 20).take 25) [5] ctr 20 (Vector.replicate 16 0) =
        some (((decryptFragment E [5] ctr fragment).drop 20).take 25) :=
  ⟨rfl, by decide, (partial_decrypt_eq_slice _ _ rfl (by decide) _ [] [] 25 _).2⟩

end Slices

end Alba.Rora
