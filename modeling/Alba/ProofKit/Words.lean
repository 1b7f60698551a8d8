import Alba.ProofKit.Bytes

/-! Reading back the numbers that `beBytes` and `leBytes` write. -/

namespace Alba.ProofKit

/-- The number that `b` spells, most significant byte first. -/
def ofBe (b : Bytes) : Nat := b.foldl (fun n x => 256 * n + x.toNat) 0

/-- The number that `b` spells, least significant byte first. -/
def ofLe : Bytes → Nat
  | [] => 0
  | x :: b => x.toNat + 256 * ofLe b

theorem toNat_ofNat (n : Nat) : (UInt8.ofNat n).toNat = n % 256 := by simp

@[simp] theorem ofBe_nil : ofBe [] = 0 := rfl

theorem foldl_ofBe (n : Nat) (b : Bytes) :
    b.foldl (fun n x => 256 * n + x.toNat) n = n * 256 ^ b.length + ofBe b := by
  induction b generalizing n with
  | nil => simp
  | cons x b ih =>
    rw [ofBe, List.foldl_cons, List.foldl_cons, ih, ih (256 * 0 + x.toNat), List.length_cons, pow_succ]
    ring

theorem ofBe_append (a b : Bytes) : ofBe (a ++ b) = ofBe a * 256 ^ b.length + ofBe b := by
  rw [ofBe, List.foldl_append, foldl_ofBe]
  rfl

theorem ofBe_cons (x : UInt8) (b : Bytes) : ofBe (x :: b) = x.toNat * 256 ^ b.length + ofBe b := by
  rw [← List.singleton_append, ofBe_append]
  simp [ofBe]

theorem ofBe_lt (b : Bytes) : ofBe b < 256 ^ b.length := by
  induction b with
  | nil => simp
  | cons x b ih =>
    have hx := x.toNat_lt
    have hstep : x.toNat * 256 ^ b.length + 256 ^ b.length ≤ 256 * 256 ^ b.length := by
      rw [← Nat.succ_mul]
      exact Nat.mul_le_mul_right _ (by omega)
    rw [ofBe_cons, List.length_cons, pow_succ']
    omega

theorem ofBe_beBytes (width n : Nat) : ofBe (beBytes width n) = n % 256 ^ width := by
  induction width with
  | zero => simp [beBytes, Nat.mod_one]
  | succ width ih =>
    rw [beBytes, ofBe_cons, beBytes_length, ih, toNat_ofNat, pow_succ, Nat.mod_mul]
    ring

theorem ofLe_leBytes (width n : Nat) : ofLe (leBytes width n) = n % 256 ^ width := by
  induction width generalizing n with
  | zero => simp [leBytes, ofLe, Nat.mod_one]
  | succ width ih => rw [leBytes, ofLe, ih, toNat_ofNat, pow_succ', Nat.mod_mul]

end Alba.ProofKit
