import Mathlib

/-! Systems in which every step lowers a rank: all runs are finite, and every run can be continued to a
state without further steps. -/

namespace Alba.ProofKit

variable {σ α : Type} {exec : σ → α → Option σ} {rank : σ → Nat} {s s' : σ} {actions : List α}

/-- The actions are steps that lead from the first state to the second. -/
def Leads (exec : σ → α → Option σ) (s : σ) (actions : List α) (s' : σ) : Prop :=
  actions.foldlM exec s = some s'

def Stuck (exec : σ → α → Option σ) (s : σ) : Prop := ∀ a, exec s a = none

theorem leads_nil : Leads exec s [] s' ↔ s = s' := by simp [Leads]

theorem leads_cons {a : α} :
    Leads exec s (a :: actions) s' ↔ ∃ mid, exec s a = some mid ∧ Leads exec mid actions s' := by
  simp [Leads, List.foldlM_cons, Option.bind_eq_some_iff]

theorem Leads.invariant {I : σ → Prop} (keeps : ∀ s a s', I s → exec s a = some s' → I s')
    (hs : I s) (h : Leads exec s actions s') : I s' := by
  induction actions generalizing s with
  | nil => exact leads_nil.mp h ▸ hs
  | cons a actions ih =>
    obtain ⟨mid, hstep, hrest⟩ := leads_cons.mp h
    exact ih (keeps s a mid hs hstep) hrest

theorem Leads.length_le (lowers : ∀ s a s', exec s a = some s' → rank s' < rank s)
    (h : Leads exec s actions s') : actions.length + rank s' ≤ rank s := by
  induction actions generalizing s with
  | nil =>
    rw [leads_nil.mp h]
    simp
  | cons a actions ih =>
    obtain ⟨mid, hstep, hrest⟩ := leads_cons.mp h
    have hmid := lowers s a mid hstep
    have hlength := ih hrest
    rw [List.length_cons]
    omega

theorem exists_stuck (lowers : ∀ s a s', exec s a = some s' → rank s' < rank s) (s : σ) :
    ∃ actions s', Leads exec s actions s' ∧ Stuck exec s' := by
  induction hn : rank s using Nat.strong_induction_on generalizing s with
  | _ n ih =>
    by_cases hstuck : Stuck exec s
    · exact ⟨[], s, leads_nil.mpr rfl, hstuck⟩
    · simp only [Stuck, not_forall] at hstuck
      obtain ⟨a, ha⟩ := hstuck
      obtain ⟨mid, hmid⟩ := Option.ne_none_iff_exists'.mp ha
      obtain ⟨actions, s', hrun, hend⟩ := ih (rank mid) (hn ▸ lowers s a mid hmid) mid rfl
      exact ⟨a :: actions, s', leads_cons.mpr ⟨mid, hmid, hrun⟩, hend⟩

theorem sum_map_set {f : α → Nat} {l : List α} {i : Nat} {a : α} (ha : l[i]? = some a) (a' : α) :
    ((l.set i a').map f).sum + f a = (l.map f).sum + f a' := by
  induction l generalizing i with
  | nil => cases ha
  | cons b l ih =>
    cases i with
    | zero =>
      cases ha
      simp only [List.set_cons_zero, List.map_cons, List.sum_cons]
      omega
    | succ i =>
      have hrest := ih (i := i) (by simpa using ha)
      simp only [List.set_cons_succ, List.map_cons, List.sum_cons]
      omega

end Alba.ProofKit
