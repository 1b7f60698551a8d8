import Alba.ProofKit.Run

/-! Clients that work on a store without locks. A request computes what it wants to change from the
store as it is; the change is applied later, when others may have been applied in between, and a
change that cannot be applied any more is dropped. -/

namespace Alba.ProofKit

open List

variable {S R U : Type}

/-- A store, the changes that are computed and not yet applied, and the requests that were applied,
the last one first. -/
structure Pool (S R U : Type) where
  store : S
  pending : List (R × U) := []
  applied : List R := []

inductive PoolEvent (R : Type)
  | compute (r : R)
  | apply (i : Nat)
  deriving DecidableEq

namespace Pool

section Exec

variable (compute : S → R → Option U) (apply : S → U → Option S)

def exec (p : Pool S R U) : PoolEvent R → Option (Pool S R U)
  | .compute r => (compute p.store r).map fun u => { p with pending := p.pending ++ [(r, u)] }
  | .apply i =>
    match p.pending[i]? with
    | none => none
    | some (r, u) =>
      match apply p.store u with
      | none => some { p with pending := p.pending.eraseIdx i }
      | some s =>
        some { store := s, pending := p.pending.eraseIdx i, applied := r :: p.applied }

end Exec

variable {compute : S → R → Option U} {apply : S → U → Option S} {p p' : Pool S R U}
  {e : PoolEvent R}

theorem exec_apply_cases {i : Nat} (h : p.exec compute apply (.apply i) = some p') :
    ∃ r u, p.pending[i]? = some (r, u) ∧
      (p' = { p with pending := p.pending.eraseIdx i } ∨
        ∃ s, apply p.store u = some s ∧
          p' = { store := s, pending := p.pending.eraseIdx i, applied := r :: p.applied }) := by
  simp only [exec] at h
  cases hi : p.pending[i]? with
  | none => simp [hi] at h
  | some ru =>
    obtain ⟨r, u⟩ := ru
    simp only [hi] at h
    refine ⟨r, u, rfl, ?_⟩
    cases hs : apply p.store u with
    | none =>
      simp only [hs, Option.some.injEq] at h
      exact Or.inl h.symm
    | some s =>
      simp only [hs, Option.some.injEq] at h
      exact Or.inr ⟨s, rfl, h.symm⟩

/-- The invariant `I` of the store and the applied requests holds, and every pending change was
computed in an earlier state in which it held. -/
structure Valid (compute : S → R → Option U) (I : S → List R → Prop)
    (Before : S × List R → S × List R → Prop) (p : Pool S R U) : Prop where
  now : I p.store p.applied
  pending : ∀ r u, (r, u) ∈ p.pending → ∃ s l, I s l ∧ compute s r = some u ∧
    Before (s, l) (p.store, p.applied)

/-- The condition `C` holds of the store, the request and its change when the event applies a
change. -/
def Meets (apply : S → U → Option S) (C : S → R → U → Prop) (p : Pool S R U) : PoolEvent R → Prop
  | .compute _ => True
  | .apply i => ∀ ru ∈ p.pending[i]?, (apply p.store ru.2).isSome → C p.store ru.1 ru.2

instance Meets.decidable {C : S → R → U → Prop} [∀ s r u, Decidable (C s r u)] (p : Pool S R U) :
    ∀ e : PoolEvent R, Decidable (Meets apply C p e)
  | .compute _ => isTrue trivial
  | .apply i =>
    match h : p.pending[i]? with
    | none => isTrue fun ru hru => absurd hru (by simp [h])
    | some ru =>
      decidable_of_iff ((apply p.store ru.2).isSome → C p.store ru.1 ru.2)
        ⟨fun hC ru' hru' => by simp_all, fun hC => hC ru (by simp [h])⟩

theorem meets_of_requests {A : R → Prop} {events : List (PoolEvent R)}
    (h : ∀ r, .compute r ∈ events → A r) {p : Pool S R U} (hp : ∀ ru ∈ p.pending, A ru.1) :
    AllSteps (exec compute apply) (Meets apply fun _ r _ => A r) p events := by
  induction events generalizing p with
  | nil => trivial
  | cons e events ih =>
    refine ⟨fun _ => ?_, ih (fun r hr => h r (mem_cons_of_mem e hr)) ?_⟩
    · cases e with
      | compute r => trivial
      | apply i => exact fun ru hru _ => hp ru (mem_of_getElem? hru)
    · refine next_invariant (P := fun p : Pool S R U => ∀ ru ∈ p.pending, A ru.1) hp fun p' he => ?_
      cases e with
      | compute r =>
        obtain ⟨u, _, rfl⟩ := Option.map_eq_some_iff.mp he
        intro ru hru
        rcases mem_append.mp hru with hold | hnew
        · exact hp ru hold
        · cases mem_singleton.mp hnew
          exact h r mem_cons_self
      | apply i =>
        obtain ⟨_, _, _, rfl | ⟨_, _, rfl⟩⟩ := exec_apply_cases he <;>
          exact fun ru hru => hp ru (mem_of_mem_eraseIdx hru)

section Invariant

variable {I : S → List R → Prop} {Before : S × List R → S × List R → Prop} {C : S → R → U → Prop}
  (refl : ∀ x, Before x x) (trans : ∀ x y z, Before x y → Before y z → Before x z)
include refl trans

section

variable (step : ∀ s₀ l₀ r u s l s', I s₀ l₀ → compute s₀ r = some u → Before (s₀, l₀) (s, l) →
    I s l → C s r u → apply s u = some s' → I s' (r :: l) ∧ Before (s, l) (s', r :: l))
  (h : Valid compute I Before p)
include step h

/-- One event, where a change is only applied under the condition `C`. -/
theorem exec_valid_of (hC : Meets apply C p e) (he : p.exec compute apply e = some p') :
    Valid compute I Before p' ∧ Before (p.store, p.applied) (p'.store, p'.applied) := by
  cases e with
  | compute r =>
    obtain ⟨u, hu, rfl⟩ := Option.map_eq_some_iff.mp he
    refine ⟨⟨h.now, fun r' u' hmem => ?_⟩, refl _⟩
    rcases mem_append.mp hmem with hold | hnew
    · exact h.pending r' u' hold
    · cases mem_singleton.mp hnew
      exact ⟨p.store, p.applied, h.now, hu, refl _⟩
  | apply i =>
    obtain ⟨r, u, hi, rfl | ⟨s, hs, rfl⟩⟩ := exec_apply_cases he
    · exact ⟨⟨h.now, fun r' u' hmem => h.pending r' u' (mem_of_mem_eraseIdx hmem)⟩, refl _⟩
    · obtain ⟨s₀, l₀, h₀, hu, hbefore⟩ := h.pending r u (mem_of_getElem? hi)
      obtain ⟨hnow, hafter⟩ := step s₀ l₀ r u p.store p.applied s h₀ hu hbefore h.now
        (hC (r, u) hi (by simp [hs])) hs
      refine ⟨⟨hnow, fun r' u' hmem => ?_⟩, hafter⟩
      obtain ⟨s₁, l₁, h₁, hu₁, hbefore₁⟩ := h.pending r' u' (mem_of_mem_eraseIdx hmem)
      exact ⟨s₁, l₁, h₁, hu₁, trans _ _ _ hbefore₁ hafter⟩

/-- A run whose changes are all applied under the condition `C`. -/
theorem run_valid_of {events : List (PoolEvent R)}
    (hC : AllSteps (exec compute apply) (Meets apply C) p events) :
    Valid compute I Before (run (exec compute apply) p events) ∧
      Before (p.store, p.applied) ((run (exec compute apply) p events).store,
        (run (exec compute apply) p events).applied) := by
  refine run_invariant_of (P := fun q => Valid compute I Before q ∧
    Before (p.store, p.applied) (q.store, q.applied)) (fun q e q' hq hmeets hstep => ?_)
    ⟨h, refl _⟩ hC
  obtain ⟨hvalid, hbefore⟩ := exec_valid_of refl trans step hq.1 hmeets hstep
  exact ⟨hvalid, trans _ _ _ hq.2 hbefore⟩

end

theorem run_valid
    (step : ∀ s₀ l₀ r u s l s', I s₀ l₀ → compute s₀ r = some u → Before (s₀, l₀) (s, l) → I s l →
      apply s u = some s' → I s' (r :: l) ∧ Before (s, l) (s', r :: l))
    (h : Valid compute I Before p) (events : List (PoolEvent R)) :
    Valid compute I Before (run (exec compute apply) p events) ∧
      Before (p.store, p.applied) ((run (exec compute apply) p events).store,
        (run (exec compute apply) p events).applied) := by
  have hC : AllSteps (exec compute apply) (Meets apply fun _ _ _ => True) p events :=
    allSteps_of_forall (fun e _ q => by cases e with
      | compute => trivial
      | apply => exact fun _ _ _ => trivial) p
  exact run_valid_of refl trans
    (fun s₀ l₀ r u s l s' h₀ hu hbefore hs _ happly => step s₀ l₀ r u s l s' h₀ hu hbefore hs happly)
    h hC

omit refl trans in
theorem Valid.start {s : S} (h : I s []) : Valid compute I Before { store := s } := by
  refine ⟨h, fun r u hmem => ?_⟩
  cases hmem

end Invariant

end Pool

end Alba.ProofKit
