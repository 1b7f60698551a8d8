import Alba.ProofKit.Scans

/-! Numbers written with a fixed number of hexadecimal digits. The texts come in the order of the numbers,
also when they are cut into names of directories, and a text is read back to its number. -/

namespace Alba.ProofKit

def hexDigit (d : Nat) : UInt8 := UInt8.ofNat (if d < 10 then 48 + d else 87 + d)

/-- The last `width` digits of `n`. -/
def hexDigits : Nat → Nat → Bytes
  | 0, _ => []
  | width + 1, n => hexDigit (n / 16 ^ width % 16) :: hexDigits width n

def hexValue (c : UInt8) : Option Nat :=
  if 48 ≤ c.toNat ∧ c.toNat < 58 then some (c.toNat - 48)
  else if 97 ≤ c.toNat ∧ c.toNat < 103 then some (c.toNat - 87)
  else if 65 ≤ c.toNat ∧ c.toNat < 71 then some (c.toNat - 55)
  else none

/-- The number that the digits at the start of a text spell, after the digits of `n`. -/
def readHex (n : Nat) : Bytes → Nat
  | [] => n
  | c :: text =>
    match hexValue c with
    | none => n
    | some d => readHex (16 * n + d) text

theorem hexValue_hexDigit : ∀ d < 16, hexValue (hexDigit d) = some d := by decide

theorem readHex_hexDigits (m width n : Nat) :
    readHex m (hexDigits width n) = n % 16 ^ width + 16 ^ width * m := by
  induction width generalizing m with
  | zero => simp [hexDigits, readHex, Nat.mod_one]
  | succ width ih =>
    have hd : n / 16 ^ width % 16 < 16 := Nat.mod_lt _ (by decide)
    simp only [hexDigits, readHex, hexValue_hexDigit _ hd, ih, pow_succ, Nat.mod_mul]
    ring

theorem compare_hexDigit : ∀ d < 16, ∀ e < 16, compare (hexDigit d) (hexDigit e) = compare d e := by
  decide

theorem compare_hexDigits (width a b : Nat) :
    compare (hexDigits width a) (hexDigits width b) = compare (a % 16 ^ width) (b % 16 ^ width) := by
  induction width with
  | zero =>
    rw [pow_zero, Nat.mod_one, Nat.mod_one]
    rfl
  | succ width ih =>
    have hpos : 0 < 16 ^ width := Nat.pow_pos (by decide)
    rw [hexDigits, hexDigits, compare_cons, ih, Nat.pow_succ, Nat.mod_mul, Nat.mod_mul,
      compare_digits _ _ (Nat.mod_lt a hpos) (Nat.mod_lt b hpos),
      compare_hexDigit _ (Nat.mod_lt _ (by decide)) _ (Nat.mod_lt _ (by decide))]

/-- Lists of names come in the order of the texts that they make up, when their names are equally long. -/
theorem compare_flatten {ds es : List Bytes} (h : List.Forall₂ (fun d e => d.length = e.length) ds es) :
    compare ds es = compare ds.flatten es.flatten := by
  induction h with
  | nil => rfl
  | cons hlength _ ih => rw [compare_cons, List.flatten_cons, List.flatten_cons,
      compare_append_append hlength, ih]

end Alba.ProofKit
