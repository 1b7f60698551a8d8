import Alba.ProofKit.Words

/-! Readers that take a value off the front of a byte string, and how they follow each other. -/

namespace Alba.ProofKit

open List

variable {ε α β : Type}

abbrev Reader (ε α : Type) := StateT Bytes (Except ε) α

/-- The reader gets `a` out of `b`, whatever comes behind it. -/
def Reads (p : Reader ε α) (b : Bytes) (a : α) : Prop := ∀ rest, p.run (b ++ rest) = .ok (a, rest)

namespace Reads

theorem ret (a : α) : Reads (pure a : Reader ε α) [] a := fun _ => rfl

theorem bind {p : Reader ε α} {f : α → Reader ε β} {b b' : Bytes} {a : α} {c : β} (h : Reads p b a)
    (h' : Reads (f a) b' c) : Reads (p >>= f) (b ++ b') c := fun rest => by
  rw [StateT.run_bind, append_assoc, h (b' ++ rest)]
  exact h' rest

theorem bind_pure {p : Reader ε α} {f : α → Reader ε β} {b : Bytes} {a : α} {c : β} (h : Reads p b a)
    (hf : f a = pure c) : Reads (p >>= f) b c := by
  rw [← append_nil b]
  exact h.bind (hf ▸ ret c)

theorem bind_ret {p : Reader ε α} {b : Bytes} {a : α} (h : Reads p b a) (f : α → β) :
    Reads (p >>= fun x => pure (f x)) b (f a) :=
  h.bind_pure rfl

theorem lift {x : Except ε α} {a : α} (h : x = .ok a) : Reads (StateT.lift x) [] a := fun rest => by
  subst h
  rfl

end Reads

/-- The reader raises on `b`, whatever comes behind it. -/
def Refuses (p : Reader ε α) (b : Bytes) : Prop := ∀ rest, ∃ e, p.run (b ++ rest) = .error e

theorem Refuses.bind {p : Reader ε α} {f : α → Reader ε β} {b b' : Bytes} (h : Refuses p b) :
    Refuses (p >>= f) (b ++ b') := fun rest => by
  obtain ⟨e, he⟩ := h (b' ++ rest)
  refine ⟨e, ?_⟩
  rw [StateT.run_bind, append_assoc, he]
  rfl

theorem Reads.bind_refuses {p : Reader ε α} {f : α → Reader ε β} {b b' : Bytes} {a : α}
    (h : Reads p b a) (h' : Refuses (f a) b') : Refuses (p >>= f) (b ++ b') := fun rest => by
  obtain ⟨e, he⟩ := h' rest
  refine ⟨e, ?_⟩
  rw [StateT.run_bind, append_assoc, h (b' ++ rest)]
  exact he

/-- The next `n` bytes, or the error `e` when there are not so many. -/
def nextBytes (e : ε) (n : Nat) : Reader ε Bytes := fun b =>
  if n ≤ b.length then .ok (b.take n, b.drop n) else .error e

theorem reads_nextBytes (e : ε) (b : Bytes) : Reads (nextBytes e b.length) b b := fun rest => by
  simp [nextBytes, StateT.run]

theorem reads_bytes {e : ε} {b : Bytes} {width : Nat} (hwidth : b.length = width) (value : Bytes → α) :
    Reads (nextBytes e width >>= fun b => pure (value b)) b (value b) := by
  subst hwidth
  exact (reads_nextBytes e b).bind_ret value

/-- A little-endian word of `width` bytes. -/
theorem reads_word {e : ε} (width n : Nat) (value : Nat → α)
    (hvalue : value (n % 256 ^ width) = value n) :
    Reads (nextBytes e width >>= fun b => pure (value (ofLe b))) (leBytes width n) (value n) := by
  have hread := reads_bytes (e := e) (leBytes_length width n) fun b => value (ofLe b)
  rwa [ofLe_leBytes, hvalue] at hread

/-- `n` values, each put in front of the ones before it. -/
def readDown (p : Reader ε α) : Nat → List α → Reader ε (List α)
  | 0, read => pure read
  | n + 1, read => do
    let a ← p
    readDown p n (a :: read)

theorem reads_readDown {γ : Type} {p : Reader ε α} {write : γ → Bytes} {value : γ → α} (xs : List γ)
    (h : ∀ x ∈ xs, Reads p (write x) (value x)) :
    Reads (readDown p xs.length []) (xs.reverse.flatMap write) (xs.map value) := by
  suffices hall : ∀ (xs : List γ) (read : List α), (∀ x ∈ xs, Reads p (write x) (value x)) →
      Reads (readDown p xs.length read) (xs.flatMap write) ((xs.reverse.map value) ++ read) by
    have hdown := hall xs.reverse [] fun x hx => h x (mem_reverse.mp hx)
    rwa [length_reverse, reverse_reverse, append_nil] at hdown
  intro xs
  induction xs with
  | nil => exact fun read _ => Reads.ret read
  | cons x xs ih =>
    intro read h
    have hrest := ih (value x :: read) fun y hy => h y (mem_cons_of_mem _ hy)
    rw [reverse_cons, map_append, append_assoc]
    exact (h x mem_cons_self).bind hrest

theorem refuses_readDown {γ : Type} {p : Reader ε α} {write : γ → Bytes} {value : γ → α} {xs : List γ}
    (h : ∀ x ∈ xs, Reads p (write x) (value x) ∨ Refuses p (write x))
    (hbad : ∃ x ∈ xs, Refuses p (write x)) (read : List α) :
    Refuses (readDown p xs.length read) (xs.flatMap write) := by
  induction xs generalizing read with
  | nil =>
    obtain ⟨_, hx, _⟩ := hbad
    cases hx
  | cons x xs ih =>
    rw [flatMap_cons]
    obtain ⟨hx, hxs⟩ := forall_mem_cons.mp h
    rcases hx with hreads | hrefuses
    · obtain ⟨y, hy, hbad⟩ := hbad
      rcases mem_cons.mp hy with rfl | hy
      · exact hbad.bind
      · exact hreads.bind_refuses (ih hxs ⟨y, hy, hbad⟩ _)
    · exact hrefuses.bind

theorem Reads.not_refuses {p : Reader ε α} {b : Bytes} {a : α} (h : Reads p b a) : ¬Refuses p b := by
  intro hrefuses
  obtain ⟨e, he⟩ := hrefuses []
  rw [h []] at he
  cases he

end Alba.ProofKit
