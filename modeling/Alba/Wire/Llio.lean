import Alba.Rora.Agreement

/-! The readers of the OCaml code, and what they get out of what its writers write. -/

namespace Alba.Wire

open ProofKit
open Nsm (intTo stringTo)
open Rora (int8To listTo InInt32)

inductive Exn
  | invalidArgument
  | assertFailure
  | decodingFailure (hint : String) (tag : Nat)
  deriving DecidableEq

/-- The bytes between the position and `max_pos` are the state. -/
abbrev From := Reader Exn

section Readers

variable {α γ : Type} {p : From α} {xs : List γ} {write : γ → Bytes} {value : γ → α}

def raiseBadTag (hint : String) (k : Nat) : From α := throw (.decodingFailure hint k)

def int8From : From Nat := do
  let b ← nextBytes .invalidArgument 1
  return ofLe b

def intFrom : From Int := do
  let b ← nextBytes .invalidArgument 4
  return (BitVec.ofNat 32 (ofLe b)).toInt

/-- What follows a length. Neither a string nor a list of a negative length is ever read. -/
def sized (len : Int) (p : Nat → From α) : From α :=
  if len < 0 then throw .invalidArgument else p len.toNat

def stringFrom : From Bytes := do
  let len ← intFrom
  sized len (nextBytes .invalidArgument)

def countedListFrom (eFrom : From α) : From (Int × List α) := do
  let size ← intFrom
  return (size, ← sized size fun n => readDown eFrom n [])

def listFrom (eFrom : From α) : From (List α) := do
  let r ← countedListFrom eFrom
  return r.2

/-- The position is set back to the end of the payload when too much was read; a negative length, which
would set it back further, is not followed. -/
def deserializeLengthPrefixed (aFrom : From α) : From α := do
  let len ← intFrom
  let before ← get
  let a ← aFrom
  let after ← get
  match compare len (before.length - after.length : Int) with
  | .lt => sized len fun n => set (before.drop n)
  | .eq => pure ()
  | .gt => throw .assertFailure
  return a

def serializeWithLength (b : Bytes) : Bytes := intTo b.length ++ b

theorem inInt32_natCast {n : Nat} (h : n < 2 ^ 31) : InInt32 n := ⟨by omega, by omega⟩

@[simp] theorem sized_natCast (n : Nat) (p : Nat → From α) : sized n p = p n := by
  simp [sized]

theorem reads_int8 {n : Nat} (h : n < 256) : Reads int8From (int8To n) n := by
  have hread := (reads_nextBytes Exn.invalidArgument (int8To n)).bind_ret ofLe
  rwa [show ofLe (int8To n) = n by simp [int8To, ofLe, Nat.mod_eq_of_lt h]] at hread

theorem reads_int {i : Int} (h : InInt32 i) : Reads intFrom (intTo i) i := by
  have hlt : (BitVec.ofInt 32 i).toNat < 256 ^ 4 := (BitVec.ofInt 32 i).isLt
  have hread := reads_word (e := Exn.invalidArgument) 4 (BitVec.ofInt 32 i).toNat
    (fun n => (BitVec.ofNat 32 n).toInt) (by rw [Nat.mod_eq_of_lt hlt])
  rwa [BitVec.ofNat_toNat, BitVec.setWidth_eq, BitVec.toInt_ofInt, Int.bmod_eq_of_le (by
    have := h.1
    omega) (by have := h.2; omega)] at hread

theorem reads_string {s : Bytes} (h : s.length < 2 ^ 31) : Reads stringFrom (stringTo s) s := by
  refine (reads_int (inInt32_natCast h)).bind ?_
  rw [sized_natCast]
  exact reads_nextBytes _ s

theorem reads_countedList (hlength : xs.length < 2 ^ 31) (h : ∀ x ∈ xs, Reads p (write x) (value x)) :
    Reads (countedListFrom p) (listTo write xs) (xs.length, xs.map value) := by
  refine (reads_int (inInt32_natCast hlength)).bind ?_
  rw [sized_natCast]
  exact (reads_readDown xs h).bind_ret _

theorem reads_list (hlength : xs.length < 2 ^ 31) (h : ∀ x ∈ xs, Reads p (write x) (value x)) :
    Reads (listFrom p) (listTo write xs) (xs.map value) :=
  (reads_countedList hlength h).bind_ret _

theorem refuses_countedList (hlength : xs.length < 2 ^ 31)
    (h : ∀ x ∈ xs, Reads p (write x) (value x) ∨ Refuses p (write x))
    (hbad : ∃ x ∈ xs, Refuses p (write x)) : Refuses (countedListFrom p) (listTo write xs) := by
  refine (reads_int (inInt32_natCast hlength)).bind_refuses ?_
  rw [sized_natCast, ← List.length_reverse]
  have hdown : Refuses (readDown p xs.reverse.length []) (xs.reverse.flatMap write) :=
    refuses_readDown (fun x hx => h x (List.mem_reverse.mp hx)) (by simpa using hbad) []
  rw [← List.append_nil (xs.reverse.flatMap write)]
  exact hdown.bind

/-- A payload that the reader of its content does not use up is not skipped. -/
theorem run_lengthPrefixed {b more : Bytes} {a : α} (h : Reads p b a)
    (hlength : (b ++ more).length < 2 ^ 31) (rest : Bytes) :
    (deserializeLengthPrefixed p).run (serializeWithLength (b ++ more) ++ rest) =
      if more = [] then .ok (a, rest) else .error .assertFailure := by
  have hlen := reads_int (inInt32_natCast hlength) (b ++ (more ++ rest))
  have htaken : ((b ++ (more ++ rest)).length - (more ++ rest).length : Int) = b.length := by
    simp only [List.length_append]
    omega
  simp only [deserializeLengthPrefixed, serializeWithLength, List.append_assoc, StateT.run_bind, hlen,
    ok_bind, StateT.run_get, pure_bind, h (more ++ rest), htaken]
  cases more with
  | nil =>
    have hsame : compare (b.length : Int) b.length = .eq := Std.ReflCmp.compare_self
    rw [List.append_nil, hsame]
    rfl
  | cons x more =>
    rw [show compare ((b ++ x :: more).length : Int) b.length = .gt by
      rw [Int.compare_eq_gt]
      simp only [List.length_append, List.length_cons]
      omega]
    rfl

end Readers

end Alba.Wire
