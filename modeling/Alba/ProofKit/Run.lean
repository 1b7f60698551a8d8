import Mathlib

/-! Runs of a system whose steps may fail. A step that fails leaves the state as it is, so a run is a
fold over its actions and an invariant only has to be kept by the steps that succeed. -/

namespace Alba.ProofKit

open List

section Except

variable {ε α β : Type} {f : α → Except ε β} {l : List α} {x : Except ε α} {r : List β}

theorem ok_bind (a : α) (f : α → Except ε β) : (Except.ok a >>= f) = f a := rfl

theorem bind_eq_ok {b : β} : (x >>= f) = .ok b ↔ ∃ a, x = .ok a ∧ f a = .ok b := by
  cases x <;> simp [bind, Except.bind]

theorem ite_error_eq_ok {c : Prop} [Decidable c] {e : ε} {a : α} :
    (if c then .error e else x) = .ok a ↔ ¬c ∧ x = .ok a := by
  split <;> simp_all

theorem map_eq_ok {f : α → β} {b : β} : f <$> x = .ok b ↔ ∃ a, x = .ok a ∧ f a = b := by
  cases x <;> simp

theorem bind_congr_ok {f g : α → Except ε β} (h : ∀ a, x = .ok a → f a = g a) :
    (x >>= f) = (x >>= g) := by
  cases x with
  | error e => rfl
  | ok a => exact h a rfl

/-- Raise `e` unless `p` holds. -/
def check (p : Prop) [Decidable p] (e : ε) : Except ε Unit := if p then .ok () else .error e

@[simp] theorem check_eq_ok {p : Prop} [Decidable p] {e : ε} {u : Unit} : check p e = .ok u ↔ p := by
  unfold check
  split <;> simp_all

theorem foldlM_invariant {step : β → α → Except ε β} {P : List α → β → Prop}
    (keep : ∀ p b a b', P p b → step b a = .ok b' → P (p ++ [a]) b')
    {p l : List α} {b r : β} (hb : P p b) (h : l.foldlM step b = .ok r) : P (p ++ l) r := by
  induction l generalizing p b with
  | nil =>
    cases h
    simpa using hb
  | cons a l ih =>
    rw [foldlM_cons, bind_eq_ok] at h
    obtain ⟨mid, hstep, hrest⟩ := h
    simpa using ih (keep p b a mid hb hstep) hrest

theorem mapM_eq_ok (h : l.mapM f = .ok r) : List.Forall₂ (fun a b => f a = .ok b) l r := by
  induction l generalizing r with
  | nil =>
    cases h
    exact .nil
  | cons a l ih =>
    simp only [mapM_cons, bind_eq_ok] at h
    obtain ⟨b, hb, rest, hrest, h⟩ := h
    cases h
    exact .cons hb (ih hrest)

theorem mapM_mem (h : l.mapM f = .ok r) :
    (∀ b ∈ r, ∃ a ∈ l, f a = .ok b) ∧ ∀ a ∈ l, ∃ b ∈ r, f a = .ok b := by
  have hrows := mapM_eq_ok h
  clear h
  induction hrows with
  | nil => simp
  | cons hab _ ih =>
    simp only [mem_cons, forall_eq_or_imp, exists_eq_or_imp]
    exact ⟨⟨.inl hab, fun b hb => .inr (ih.1 b hb)⟩, .inl hab, fun a ha => .inr (ih.2 a ha)⟩

theorem mapM_of_forall {g : α → β} (h : ∀ a ∈ l, f a = .ok (g a)) : l.mapM f = .ok (l.map g) := by
  induction l with
  | nil => rfl
  | cons a l ih =>
    rw [mapM_cons, h a (by simp), ok_bind, ih fun b hb => h b (mem_cons_of_mem a hb)]
    rfl

theorem mapM_of_exists (h : ∀ a ∈ l, ∃ b, f a = .ok b) : ∃ r, l.mapM f = .ok r := by
  induction l with
  | nil => exact ⟨[], rfl⟩
  | cons a l ih =>
    obtain ⟨b, hb⟩ := h a mem_cons_self
    obtain ⟨r, hr⟩ := ih fun a' ha' => h a' (mem_cons_of_mem a ha')
    exact ⟨b :: r, by rw [mapM_cons, hb, ok_bind, hr]; rfl⟩

theorem mapM_range {γ : Type} {f : Nat → Except ε β} {value : γ → β} {xs : List γ}
    (h : ∀ i x, xs[i]? = some x → f i = .ok (value x)) :
    (List.range xs.length).mapM f = .ok (xs.map value) := by
  have hall : xs.zipIdx.mapM (f ∘ Prod.snd) = .ok (xs.zipIdx.map (value ∘ Prod.fst)) :=
    mapM_of_forall fun e he => h e.2 e.1 (mem_zipIdx_iff_getElem?.mp he)
  rw [range_eq_range', ← zipIdx_map_snd 0 xs, mapM_map, hall, ← map_map,
    zipIdx_map_fst]

/-- The result of a computation, or `d` when it raises. -/
def resultD (x : Except ε α) (d : α) : α :=
  match x with
  | .ok a => a
  | .error _ => d

theorem mapM_eq_ok_resultD (h : l.mapM f = .ok r) (d : β) :
    (∀ a ∈ l, f a = .ok (resultD (f a) d)) ∧ r = l.map fun a => resultD (f a) d := by
  have hrows := mapM_eq_ok h
  clear h
  induction hrows with
  | nil => simp
  | cons hab _ ih =>
    refine ⟨forall_mem_cons.mpr ⟨by rw [hab]; rfl, ih.1⟩, ?_⟩
    rw [map_cons, ← ih.2, hab]
    rfl

theorem forM_eq_ok {f : α → Except ε Unit} {u : Unit} (h : l.forM f = .ok u) :
    ∀ a ∈ l, f a = .ok () := by
  induction l with
  | nil => simp
  | cons a l ih =>
    change (f a >>= fun _ => l.forM f) = .ok u at h
    obtain ⟨_, ha, hrest⟩ := bind_eq_ok.mp h
    exact forall_mem_cons.mpr ⟨ha, ih hrest⟩

end Except

section Option

variable {α β : Type}

theorem mapM_some_mem {f : α → Option β} {l : List α} {r : List β} (h : l.mapM f = some r) :
    ∀ a ∈ l, ∃ b ∈ r, f a = some b := by
  induction l generalizing r with
  | nil => simp
  | cons a l ih =>
    simp only [mapM_cons, Option.bind_eq_bind, Option.bind_eq_some_iff] at h
    obtain ⟨b, hb, rest, hrest, h⟩ := h
    cases h
    simp only [mem_cons, forall_eq_or_imp, exists_eq_or_imp]
    exact ⟨.inl hb, fun a' ha' => .inr (ih hrest a' ha')⟩

end Option

variable {σ α : Type} {s : σ} {actions : List α} {G : σ → α → Prop} {P : σ → Prop}

def next (exec : σ → α → Option σ) (s : σ) (a : α) : σ := (exec s a).getD s

def run (exec : σ → α → Option σ) (s : σ) (actions : List α) : σ := actions.foldl (next exec) s

variable {exec : σ → α → Option σ}

@[simp] theorem run_nil (s : σ) : run exec s [] = s := rfl

@[simp] theorem run_cons (s : σ) (a : α) (actions : List α) :
    run exec s (a :: actions) = run exec (next exec s a) actions := rfl

theorem run_append (s : σ) (before after : List α) :
    run exec s (before ++ after) = run exec (run exec s before) after := by
  simp [run, foldl_append]

/-- Every action of the list that succeeds meets `G` in the state in which it is taken. -/
def AllSteps (exec : σ → α → Option σ) (G : σ → α → Prop) : σ → List α → Prop
  | _, [] => True
  | s, a :: actions => (exec s a ≠ none → G s a) ∧ AllSteps exec G (next exec s a) actions

instance AllSteps.decidable {G : σ → α → Prop} [∀ s a, Decidable (G s a)] :
    ∀ (s : σ) (actions : List α), Decidable (AllSteps exec G s actions)
  | _, [] => isTrue trivial
  | s, a :: actions =>
    have : Decidable (exec s a = none) := decidable_of_iff _ Option.isNone_iff_eq_none
    have : Decidable (AllSteps exec G (next exec s a) actions) :=
      AllSteps.decidable (next exec s a) actions
    inferInstanceAs (Decidable ((exec s a ≠ none → G s a) ∧ AllSteps exec G (next exec s a) actions))

theorem allSteps_of_forall (h : ∀ a ∈ actions, ∀ s, G s a) (s : σ) : AllSteps exec G s actions := by
  induction actions generalizing s with
  | nil => trivial
  | cons a actions ih =>
    exact ⟨fun _ => h a mem_cons_self s, ih (fun b hb => h b (mem_cons_of_mem a hb)) _⟩

theorem allSteps_append {before after : List α} :
    AllSteps exec G s (before ++ after) ↔
      AllSteps exec G s before ∧ AllSteps exec G (run exec s before) after := by
  induction before generalizing s with
  | nil => simp [AllSteps]
  | cons a before ih => simp [AllSteps, ih, and_assoc]

theorem AllSteps.mono {G G' : σ → α → Prop} (hG : ∀ s a, G s a → G' s a)
    (h : AllSteps exec G s actions) : AllSteps exec G' s actions := by
  induction actions generalizing s with
  | nil => trivial
  | cons a actions ih => exact ⟨fun ha => hG s a (h.1 ha), ih h.2⟩

theorem AllSteps.and {G G' : σ → α → Prop} (h : AllSteps exec G s actions)
    (h' : AllSteps exec G' s actions) : AllSteps exec (fun s a => G s a ∧ G' s a) s actions := by
  induction actions generalizing s with
  | nil => trivial
  | cons a actions ih => exact ⟨fun ha => ⟨h.1 ha, h'.1 ha⟩, ih h.2 h'.2⟩

theorem next_invariant {a : α} (hs : P s) (step : ∀ s', exec s a = some s' → P s') :
    P (next exec s a) := by
  unfold next
  cases h : exec s a with
  | none => exact hs
  | some s' => exact step s' h

/-- What every successful step that meets `G` keeps, holds at the end of a run of such steps. -/
theorem run_invariant_of (step : ∀ s a s', P s → G s a → exec s a = some s' → P s') (hs : P s)
    (hG : AllSteps exec G s actions) : P (run exec s actions) := by
  induction actions generalizing s with
  | nil => exact hs
  | cons a actions ih =>
    refine ih (next_invariant hs fun s' h => step s a s' hs (hG.1 (by simp [h])) h) hG.2

theorem run_invariant (step : ∀ s a s', P s → exec s a = some s' → P s') (actions : List α)
    (hs : P s) : P (run exec s actions) := by
  induction actions generalizing s with
  | nil => exact hs
  | cons a actions ih => exact ih (next_invariant hs fun s' h => step s a s' hs h)

/-- A run of a system with more state, seen through a map that its steps respect. -/
theorem run_map {τ : Type} {exec' : τ → α → Option τ} (f : σ → τ)
    (h : ∀ s a, (exec s a).map f = exec' (f s) a) (s : σ) (actions : List α) :
    f (run exec s actions) = run exec' (f s) actions := by
  induction actions generalizing s with
  | nil => rfl
  | cons a actions ih =>
    have hnext : f (next exec s a) = next exec' (f s) a := by
      unfold next
      rw [← h]
      cases exec s a <;> rfl
    rw [run_cons, run_cons, ih, hnext]

end Alba.ProofKit
