import Alba.ProofKit.Run

/-! Properties of all states of a run, and the steps on which they depend: when an invariant is kept by the
steps that meet a condition, and every other step breaks the property at once. -/

namespace Alba.ProofKit

variable {σ α : Type} {exec : σ → α → Option σ} {P : σ → Prop} {s : σ} {actions : List α}
  {I : σ → Prop}

/-- `P` holds in every state of the run, the first and the last one included. -/
def AllStates (exec : σ → α → Option σ) (P : σ → Prop) (s : σ) (actions : List α) : Prop :=
  ∀ before, before <+: actions → P (run exec s before)

theorem allStates_nil : AllStates exec P s [] ↔ P s := by
  simp [AllStates]

theorem allStates_cons {a : α} :
    AllStates exec P s (a :: actions) ↔ P s ∧ AllStates exec P (next exec s a) actions := by
  constructor
  · intro h
    refine ⟨h [] List.nil_prefix, fun before hbefore => ?_⟩
    exact h (a :: before) ((List.prefix_cons_inj a).mpr hbefore)
  · rintro ⟨hs, hrest⟩ before hbefore
    rcases List.prefix_cons_iff.mp hbefore with rfl | ⟨rest, rfl, hprefixed⟩
    · exact hs
    · exact hrest rest hprefixed

theorem AllStates.last (h : AllStates exec P s actions) : P (run exec s actions) :=
  h actions List.prefix_rfl

/-- In runs of steps that meet `D`, the property is kept by those that meet `G`, and by no other one. -/
theorem allStates_iff_allSteps_of {D G : σ → α → Prop} (hP : ∀ s, I s → P s)
    (keeps : ∀ s a s', I s → exec s a = some s' → D s a → G s a → I s')
    (breaks : ∀ s a s', I s → exec s a = some s' → D s a → ¬ G s a → ¬ P s') (hs : I s)
    (hD : AllSteps exec D s actions) : AllStates exec P s actions ↔ AllSteps exec G s actions := by
  induction actions generalizing s with
  | nil => exact allStates_nil.trans (iff_of_true (hP s hs) trivial)
  | cons a actions ih =>
    obtain ⟨hfirst, hrest⟩ := hD
    rw [allStates_cons, AllSteps, and_iff_right (hP s hs)]
    cases hexec : exec s a with
    | none =>
      have hnext : next exec s a = s := by rw [next, hexec]; rfl
      rw [hnext] at hrest ⊢
      rw [ih hs hrest]
      simp
    | some s' =>
      have hnext : next exec s a = s' := by rw [next, hexec]; rfl
      have hstep := hfirst (by simp [hexec])
      rw [hnext] at hrest ⊢
      by_cases hG : G s a
      · rw [ih (keeps s a s' hs hexec hstep hG) hrest]
        simp [hG]
      · refine iff_of_false (fun h => ?_) (fun h => hG (h.1 (by simp)))
        exact breaks s a s' hs hexec hstep hG (h [] List.nil_prefix)

theorem allStates_iff_allSteps {G : σ → α → Prop} (hP : ∀ s, I s → P s)
    (keeps : ∀ s a s', I s → exec s a = some s' → G s a → I s')
    (breaks : ∀ s a s', I s → exec s a = some s' → ¬ G s a → ¬ P s') (hs : I s) (actions : List α) :
    AllStates exec P s actions ↔ AllSteps exec G s actions :=
  allStates_iff_allSteps_of (D := fun _ _ => True) hP
    (fun s a s' h hexec _ hG => keeps s a s' h hexec hG)
    (fun s a s' h hexec _ hG => breaks s a s' h hexec hG) hs
    (allSteps_of_forall (fun _ _ _ => trivial) s)

/-- What follows from an invariant holds in every state of a run whose steps keep the invariant. -/
theorem allStates_of_allSteps {G : σ → α → Prop} (hP : ∀ s, I s → P s)
    (keeps : ∀ s a s', I s → exec s a = some s' → G s a → I s') (hs : I s)
    (hG : AllSteps exec G s actions) : AllStates exec P s actions := by
  induction actions generalizing s with
  | nil => exact allStates_nil.mpr (hP s hs)
  | cons a actions ih =>
    obtain ⟨hfirst, hrest⟩ := hG
    refine allStates_cons.mpr ⟨hP s hs, ih (next_invariant hs fun s' hexec => ?_) hrest⟩
    exact keeps s a s' hs hexec (hfirst (by simp [hexec]))

/-- What follows of a step from an invariant holds of all steps that keep the invariant. -/
theorem allSteps_of_invariant {G Q : σ → α → Prop}
    (keeps : ∀ s a s', I s → exec s a = some s' → G s a → I s') (hQ : ∀ s a, I s → Q s a) (hs : I s)
    (hG : AllSteps exec G s actions) : AllSteps exec Q s actions := by
  induction actions generalizing s with
  | nil => trivial
  | cons a actions ih =>
    obtain ⟨hfirst, hrest⟩ := hG
    refine ⟨fun _ => hQ s a hs, ih (next_invariant hs fun s' hexec => ?_) hrest⟩
    exact keeps s a s' hs hexec (hfirst (by simp [hexec]))

end Alba.ProofKit
