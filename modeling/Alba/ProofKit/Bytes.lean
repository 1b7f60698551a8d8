import Mathlib

/-! Byte strings and the fixed-width integers written into them: big-endian and little-endian words,
and the facts that let a reader tell two serialised values apart. -/

namespace Alba.ProofKit

abbrev Bytes := List UInt8

def ascii (text : List Char) : Bytes := text.map fun c => UInt8.ofNat c.toNat

/-- The `width` low bytes of `n`, most significant first. -/
def beBytes : Nat → Nat → Bytes
  | 0, _ => []
  | width + 1, n => UInt8.ofNat (n / 256 ^ width) :: beBytes width n

/-- The `width` low bytes of `n`, least significant first. -/
def leBytes : Nat → Nat → Bytes
  | 0, _ => []
  | width + 1, n => UInt8.ofNat n :: leBytes width (n / 256)

@[simp] theorem beBytes_length (width n : Nat) : (beBytes width n).length = width := by
  induction width with
  | zero => rfl
  | succ width ih => simp [beBytes, ih]

@[simp] theorem leBytes_length (width n : Nat) : (leBytes width n).length = width := by
  induction width generalizing n with
  | zero => rfl
  | succ width ih => simp [leBytes, ih]

theorem ofNat_eq_iff (a b : Nat) : UInt8.ofNat a = UInt8.ofNat b ↔ a % 256 = b % 256 := by
  rw [← UInt8.toNat_inj]
  simp

/-- Words of `width` bytes agree on their bytes exactly when they agree modulo `256 ^ width`. -/
theorem leBytes_eq_iff (width a b : Nat) :
    leBytes width a = leBytes width b ↔ a % 256 ^ width = b % 256 ^ width := by
  induction width generalizing a b with
  | zero => simp [leBytes, Nat.mod_one]
  | succ width ih =>
    rw [leBytes, leBytes, List.cons.injEq, ofNat_eq_iff, ih, Nat.pow_succ', Nat.mod_mul, Nat.mod_mul]
    have ha := Nat.mod_lt a (show 0 < 256 by decide)
    have hb := Nat.mod_lt b (show 0 < 256 by decide)
    constructor
    · rintro ⟨h0, h1⟩
      rw [h0, h1]
    · intro h
      omega

theorem beBytes_eq_iff (width a b : Nat) :
    beBytes width a = beBytes width b ↔ a % 256 ^ width = b % 256 ^ width := by
  induction width with
  | zero => simp [beBytes, Nat.mod_one]
  | succ width ih =>
    rw [beBytes, beBytes, List.cons.injEq, ofNat_eq_iff, ih, Nat.pow_succ, Nat.mod_mul, Nat.mod_mul]
    have hpos : 0 < 256 ^ width := Nat.pow_pos (by decide)
    constructor
    · rintro ⟨h0, h1⟩
      rw [h0, h1]
    · intro h
      have hlow : a % 256 ^ width = b % 256 ^ width := by
        have := congrArg (· % 256 ^ width) h
        simpa [Nat.add_mul_mod_self_left] using this
      refine ⟨?_, hlow⟩
      rw [hlow] at h
      exact Nat.eq_of_mul_eq_mul_left hpos (Nat.add_left_cancel h)

end Alba.ProofKit
