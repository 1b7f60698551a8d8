import Mathlib

/-! Count-down latches, and the race of two of them. With thresholds that add up to one more than the
number of tasks, exactly one of the two latches opens. -/

namespace Alba.ProofKit

structure Latch where
  needed : Nat
  deriving DecidableEq

namespace Latch

/-- A latch with a negative count cannot be made. -/
def create (count : Int) : Option Latch :=
  if 0 ≤ count then some { needed := count.toNat } else none

def countDown (l : Latch) : Latch := { needed := l.needed - 1 }

def finished (l : Latch) : Bool := l.needed = 0

theorem finished_iff {l : Latch} : l.finished ↔ l.needed = 0 := by simp [finished]

end Latch

section Race

variable {τ : Type} {verdict : τ → Option Bool}

/-- The number of tasks with the verdict `v`. -/
def tally (verdict : τ → Option Bool) (v : Option Bool) (tasks : List τ) : Nat :=
  tasks.countP fun t => verdict t = v

theorem tally_set (verdict : τ → Option Bool) {tasks : List τ} {i : Nat} {t : τ}
    (hi : tasks[i]? = some t) (t' : τ) (v : Option Bool) :
    tally verdict v (tasks.set i t') + (if verdict t = v then 1 else 0) =
      tally verdict v tasks + (if verdict t' = v then 1 else 0) := by
  induction tasks generalizing i with
  | nil => simp at hi
  | cons head tasks ih =>
    cases i with
    | zero =>
      obtain rfl : head = t := by simpa using hi
      simp only [tally, List.set_cons_zero, List.countP_cons, decide_eq_true_eq]
      omega
    | succ i =>
      have h := ih (i := i) (by simpa using hi)
      simp only [tally, List.set_cons_succ, List.countP_cons, decide_eq_true_eq] at h ⊢
      omega

theorem tally_total (verdict : τ → Option Bool) (tasks : List τ) :
    tally verdict (some true) tasks + tally verdict (some false) tasks +
      tally verdict none tasks = tasks.length := by
  induction tasks with
  | nil => rfl
  | cons t tasks ih =>
    simp only [tally, List.countP_cons, decide_eq_true_eq, List.length_cons] at ih ⊢
    rcases hv : verdict t with _ | _ | _ <;> simp <;> omega

theorem tally_none_eq_zero {tasks : List τ} :
    tally verdict none tasks = 0 ↔ ∀ t ∈ tasks, verdict t ≠ none := by
  simp [tally]

/-- Two latches, of `a` successes and `b` failures, counted down by the tasks that have ended. -/
structure Fed (verdict : τ → Option Bool) (a b : Nat) (tasks : List τ) (success failures : Latch) :
    Prop where
  success : success.needed = a - tally verdict (some true) tasks
  failures : failures.needed = b - tally verdict (some false) tasks

variable {a b : Nat} {tasks : List τ} {success failures : Latch}

theorem fed_start (h : ∀ t ∈ tasks, verdict t = none) :
    Fed verdict a b tasks { needed := a } { needed := b } := by
  have hnone : ∀ v, tally verdict (some v) tasks = 0 := fun v =>
    List.countP_eq_zero.mpr fun t ht => by simp [h t ht]
  constructor
  · simp [hnone]
  · simp [hnone]

namespace Fed

section

variable (fed : Fed verdict a b tasks success failures)
include fed

/-- A task that ends counts down the latch of its verdict. -/
theorem ends {i : Nat} {t : τ} (hi : tasks[i]? = some t) (ht : verdict t = none) (t' : τ) {v : Bool}
    (ht' : verdict t' = some v) :
    Fed verdict a b (tasks.set i t') (if v then success.countDown else success)
      (if v then failures else failures.countDown) := by
  have htrue := tally_set verdict hi t' (some true)
  have hfalse := tally_set verdict hi t' (some false)
  have hs := fed.success
  have hf := fed.failures
  cases v <;> simp [ht, ht'] at htrue hfalse
  · refine ⟨?_, ?_⟩
    · simpa [htrue] using hs
    · simp only [Bool.false_eq_true, if_false, Latch.countDown]
      omega
  · refine ⟨?_, ?_⟩
    · simp only [if_true, Latch.countDown]
      omega
    · simpa [hfalse] using hf

/-- A task whose verdict stays the same leaves the latches as they are. -/
theorem keeps {i : Nat} {t : τ} (hi : tasks[i]? = some t) (t' : τ) (ht : verdict t' = verdict t) :
    Fed verdict a b (tasks.set i t') success failures := by
  have hsame : ∀ v, tally verdict v (tasks.set i t') = tally verdict v tasks := fun v => by
    have h := tally_set verdict hi t' v
    rw [ht] at h
    omega
  exact ⟨by rw [hsame, fed.success], by rw [hsame, fed.failures]⟩

theorem success_finished : success.finished ↔ a ≤ tally verdict (some true) tasks := by
  rw [Latch.finished_iff, fed.success]
  omega

theorem failures_finished : failures.finished ↔ b ≤ tally verdict (some false) tasks := by
  rw [Latch.finished_iff, fed.failures]
  omega

/-- When all tasks have ended, one of the latches is open. -/
theorem decided (hab : a + b ≤ tasks.length + 1)
    (hall : ∀ t ∈ tasks, verdict t ≠ none) : success.finished ∨ failures.finished := by
  have htotal := tally_total verdict tasks
  have hnone := tally_none_eq_zero.mpr hall
  rw [fed.success_finished, fed.failures_finished]
  omega

/-- Once the latch of failures is open, the one of successes stays closed. -/
theorem exclusive (hab : tasks.length < a + b)
    (hf : failures.finished) : tally verdict (some true) tasks < a := by
  have htotal := tally_total verdict tasks
  rw [fed.failures_finished] at hf
  omega

end

end Fed

end Race

end Alba.ProofKit
