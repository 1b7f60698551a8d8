import Alba.ProofKit.Bytes

/-! Counter mode: byte `i` of a text is xored with byte `i % 16` of the block that belongs to the
counter `i / 16` steps on. Counters have 128 bits and wrap around. -/

namespace Alba.ProofKit

/-- One block of 16 bytes for every counter. -/
abbrev BlockCipher := BitVec 128 → Fin 16 → UInt8

/-- A cipher in counter mode: the counter that was set, and how many bytes have been handled since. -/
structure CounterMode where
  start : BitVec 128
  used : Nat
  deriving DecidableEq

namespace CounterMode

variable (E : BlockCipher)

def keyStream (start : BitVec 128) (i : Nat) : UInt8 :=
  E (start + BitVec.ofNat 128 (i / 16)) ⟨i % 16, Nat.mod_lt _ (by decide)⟩

/-- The text `d`, xored with the key stream from byte `n` on. -/
def xorFrom (start : BitVec 128) (n : Nat) (d : Bytes) : Bytes :=
  d.mapIdx fun i x => x ^^^ keyStream E start (n + i)

/-- Encrypting and decrypting are one function, which goes on where the last call stopped. -/
def crypt (h : CounterMode) (d : Bytes) : Bytes × CounterMode :=
  (xorFrom E h.start h.used d, { h with used := h.used + d.length })

theorem getElem?_xorFrom (start : BitVec 128) (n : Nat) (d : Bytes) (i : Nat) :
    (xorFrom E start n d)[i]? = d[i]?.map (· ^^^ keyStream E start (n + i)) := by
  rw [xorFrom, List.getElem?_mapIdx]

theorem slice_xorFrom (start : BitVec 128) (n offset length : Nat) (d : Bytes) :
    ((xorFrom E start n d).drop offset).take length =
      xorFrom E start (n + offset) ((d.drop offset).take length) := by
  refine List.ext_getElem? fun i => ?_
  rw [getElem?_xorFrom, List.getElem?_take, List.getElem?_take, List.getElem?_drop,
    List.getElem?_drop, getElem?_xorFrom, Nat.add_assoc]
  split <;> rfl

theorem keyStream_skip (start : BitVec 128) (blocks i : Nat) :
    keyStream E (start + BitVec.ofNat 128 blocks) i = keyStream E start (16 * blocks + i) := by
  have hdiv : (16 * blocks + i) / 16 = blocks + i / 16 := by omega
  have hmod : (16 * blocks + i) % 16 = i % 16 := by omega
  simp only [keyStream, hdiv, hmod, BitVec.ofNat_add, BitVec.add_assoc]

theorem xorFrom_skip (start : BitVec 128) (blocks n : Nat) (d : Bytes) :
    xorFrom E (start + BitVec.ofNat 128 blocks) n d = xorFrom E start (16 * blocks + n) d := by
  simp only [xorFrom, keyStream_skip, Nat.add_assoc]

end CounterMode

end Alba.ProofKit
