import Mathlib

/-! A database with a write-ahead log. A crash keeps the logged writes in order, at least up to the last
sync, and whichever of the others happened to be flushed. -/

namespace Alba.ProofKit

open List

/-- What has been flushed, the writes since then, and how many of them the log is known to hold. -/
structure Disk (σ ω : Type) where
  base : σ
  history : List ω
  synced : Nat
  fits : synced ≤ history.length

namespace Disk

variable {σ ω : Type} (apply : σ → ω → σ) (logged : ω → Bool)

def empty (base : σ) : Disk σ ω := ⟨base, [], 0, Nat.le_refl 0⟩

/-- What readers see. -/
def view (d : Disk σ ω) : σ := d.history.foldl apply d.base

/-- The database with only the logged ones of the first `n` writes. -/
def loggedAt (d : Disk σ ω) (n : Nat) : σ := ((d.history.take n).filter logged).foldl apply d.base

def write (d : Disk σ ω) (w : ω) : Disk σ ω :=
  ⟨d.base, d.history ++ [w], d.synced, by simpa using Nat.le_succ_of_le d.fits⟩

def sync (d : Disk σ ω) : Disk σ ω := ⟨d.base, d.history, d.history.length, Nat.le_refl _⟩

/-- The first `n` writes reach the tables. -/
def flush (d : Disk σ ω) (n : Nat) : Disk σ ω :=
  ⟨(d.history.take n).foldl apply d.base, d.history.drop n, d.synced - n, by
    simpa using Nat.sub_le_sub_right d.fits n⟩

/-- The logged ones of the first `n` writes, and the other writes at the places in `kept`. -/
def survivors (d : Disk σ ω) (n : Nat) (kept : List Nat) : List ω :=
  (d.history.zipIdx.filter fun e => if logged e.1 then e.2 < n else e.2 ∈ kept).map Prod.fst

def crash (d : Disk σ ω) (n : Nat) (kept : List Nat) : Disk σ ω :=
  .empty ((d.survivors logged n kept).foldl apply d.base)

/-- A relation to a database without the writes that are not logged. -/
structure Weakening (R : σ → σ → Prop) : Prop where
  refl : ∀ a, R a a
  keep : ∀ a b w, R a b → logged w → R (apply a w) (apply b w)
  skip : ∀ a b w, R a b → logged w = false → R (apply a w) b

/-- The property holds for every number of logged writes that a crash may leave. -/
def Durable (P : σ → Prop) (d : Disk σ ω) : Prop :=
  ∀ n, d.synced ≤ n → n ≤ d.history.length → P (d.loggedAt apply logged n)

variable {apply logged} {d : Disk σ ω} {P Q : σ → Prop}

section Views

theorem loggedAt_write {n : Nat} (hn : n ≤ d.history.length) (w : ω) :
    (d.write w).loggedAt apply logged n = d.loggedAt apply logged n := by
  simp only [loggedAt, write]
  rw [take_append_of_le_length hn]

theorem loggedAt_write_length (w : ω) :
    (d.write w).loggedAt apply logged (d.history.length + 1) =
      if logged w then apply (d.loggedAt apply logged d.history.length) w
      else d.loggedAt apply logged d.history.length := by
  have hall : (d.history ++ [w]).take (d.history.length + 1) = d.history ++ [w] :=
    take_of_length_le (by simp)
  simp only [loggedAt, write, hall, filter_append, foldl_append, take_length]
  cases h : logged w <;> simp [h]

end Views

section Weakening

variable {R : σ → σ → Prop} (hR : Weakening apply logged R)
include hR

theorem Weakening.foldl {a b : σ} (hab : R a b) (writes : List ω) :
    R (writes.foldl apply a) ((writes.filter logged).foldl apply b) := by
  induction writes generalizing a b with
  | nil => exact hab
  | cons w writes ih =>
    cases hw : logged w with
    | true => simpa [hw] using ih (hR.keep a b w hab hw)
    | false => simpa [hw] using ih (hR.skip a b w hab hw)

/-- The induction is over the writes, `first` being the place of the first of them. -/
theorem Weakening.foldl_survivors {a b : σ} (hab : R a b) (n : Nat) (kept : List Nat)
    (writes : List ω) (first : Nat) :
    R ((((writes.zipIdx first).filter fun e =>
          if logged e.1 then decide (e.2 < n) else decide (e.2 ∈ kept)).map Prod.fst).foldl apply a)
      (((writes.take (n - first)).filter logged).foldl apply b) := by
  induction writes generalizing a b first with
  | nil => simpa using hab
  | cons w writes ih =>
    rw [zipIdx_cons, filter_cons]
    by_cases hn : first < n
    · have htake : n - first = (n - (first + 1)) + 1 := by omega
      rw [htake, take_succ_cons, filter_cons]
      cases hw : logged w with
      | true => simpa [hw, hn] using ih (hR.keep a b w hab hw) (first + 1)
      | false =>
        by_cases hk : first ∈ kept
        · simpa [hw, hk] using ih (hR.skip a b w hab hw) (first + 1)
        · simpa [hw, hk] using ih hab (first + 1)
    · -- no logged write survives from here on
      have hrest : n - (first + 1) = 0 := by omega
      have hzero : n - first = 0 := by omega
      have hnone : ∀ a', R a' b → R _ b := fun a' ha' => by
        simpa [hrest] using ih ha' (first + 1)
      rw [hzero]
      cases hw : logged w with
      | true => simpa [hw, hn] using hnone a hab
      | false =>
        by_cases hk : first ∈ kept
        · simpa [hw, hk] using hnone _ (hR.skip a b w hab hw)
        · simpa [hw, hk] using hnone a hab

theorem Weakening.view : R (d.view apply) (d.loggedAt apply logged d.history.length) := by
  simpa [Disk.view, loggedAt] using hR.foldl (hR.refl d.base) d.history

theorem Weakening.crash (n : Nat) (kept : List Nat) :
    R (d.crash apply logged n kept).base (d.loggedAt apply logged n) := by
  simpa [Disk.crash, Disk.empty, survivors, loggedAt] using
    hR.foldl_survivors (hR.refl d.base) n kept d.history 0

theorem Weakening.flush (m n : Nat) :
    R ((d.flush apply m).loggedAt apply logged n) (d.loggedAt apply logged (m + n)) := by
  have htake : d.history.take (m + n) = d.history.take m ++ (d.history.drop m).take n :=
    take_add
  simp only [loggedAt, Disk.flush, htake, filter_append, foldl_append]
  have hfirst := hR.foldl (hR.refl d.base) (d.history.take m)
  have hrest := hR.foldl hfirst (((d.history.drop m).take n).filter logged)
  simpa only [filter_filter, Bool.and_self] using hrest

end Weakening

section Rules

section

variable (h : Durable apply logged P d)
include h

theorem Durable.now : P (d.loggedAt apply logged d.history.length) :=
  h d.history.length d.fits (Nat.le_refl _)

theorem Durable.mono (hPQ : ∀ a, P a → Q a) :
    Durable apply logged Q d := fun n hn hle => hPQ _ (h n hn hle)

theorem Durable.write {w : ω} (hw : logged w → P (apply (d.loggedAt apply logged d.history.length) w)) :
    Durable apply logged P (d.write w) := by
  intro n hn hle
  have hlength : (d.write w).history.length = d.history.length + 1 := by simp [Disk.write]
  rw [hlength] at hle
  by_cases hlast : n ≤ d.history.length
  · rw [loggedAt_write hlast]
    exact h n hn hlast
  · have heq : n = d.history.length + 1 := by omega
    subst heq
    rw [loggedAt_write_length]
    split
    · exact hw ‹_›
    · exact h.now

theorem Durable.sync : Durable apply logged P d.sync :=
  fun n hn hle => h n (d.fits.trans hn) hle

end

/-- A property of the present database is durable once everything is synced. -/
theorem durable_sync (h : P (d.loggedAt apply logged d.history.length)) :
    Durable apply logged P d.sync := by
  intro n hn hle
  have heq : n = d.history.length := Nat.le_antisymm hle hn
  subst heq
  exact h

variable {R : σ → σ → Prop}

section

variable (h : Durable apply logged P d) (hR : Weakening apply logged R) (hP : ∀ a b, R a b → P b → P a)
include h hR hP

theorem Durable.flush {m : Nat} (hm : m ≤ d.history.length) :
    Durable apply logged P (d.flush apply m) := by
  intro n hn hle
  have hn' : d.synced - m ≤ n := hn
  have hle' : n ≤ d.history.length - m := by simpa [Disk.flush] using hle
  exact hP _ _ (hR.flush m n) (h (m + n) (by omega) (by omega))

theorem Durable.crash {n : Nat} (hn : d.synced ≤ n) (hle : n ≤ d.history.length)
    (kept : List Nat) : Durable apply logged P (d.crash apply logged n kept) := by
  intro k _ hk
  have hzero : k = 0 := by simpa [Disk.crash, Disk.empty] using hk
  subst hzero
  exact hP _ _ (hR.crash n kept) (h n hn hle)

end

end Rules

end Disk

end Alba.ProofKit
