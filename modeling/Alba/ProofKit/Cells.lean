import Mathlib

/-! Lists of lists with the position of every element, and folds that count as they go. -/

namespace Alba.ProofKit

open List

variable {α β τ K M : Type}

/-- The elements of a list of lists with the row and the place in the row of each. -/
def cells (l : List (List α)) : List ((Nat × Nat) × α) :=
  l.zipIdx.flatMap fun row => row.1.zipIdx.map fun x => ((row.2, x.2), x.1)

theorem mem_cells {l : List (List α)} {c i : Nat} {x : α} :
    ((c, i), x) ∈ cells l ↔ ∃ row, l[c]? = some row ∧ row[i]? = some x := by
  simp [cells, mk_mem_zipIdx_iff_getElem?, and_assoc]

theorem zipIdx_mapIdx (f : Nat → α → β) (l : List α) :
    (l.mapIdx f).zipIdx = l.zipIdx.map fun x => (f x.2 x.1, x.2) := by
  refine ext_getElem (by simp) fun i h₁ h₂ => ?_
  simp

theorem cells_mapIdx (g : Nat → Nat → α → β) (l : List (List α)) :
    cells (l.mapIdx fun c row => row.mapIdx fun i x => g c i x) =
      (cells l).map fun e => (e.1, g e.1.1 e.1.2 e.2) := by
  simp [cells, zipIdx_mapIdx, flatMap_map, map_flatMap, Function.comp_def]

theorem cells_map (f : α → β) (l : List (List α)) :
    cells (l.map fun row => row.map f) = (cells l).map fun e => (e.1, f e.2) := by
  simp [cells, zipIdx_map, flatMap_map, map_flatMap, Function.comp_def]

theorem flatten_eq_cells (l : List (List α)) : l.flatten = (cells l).map Prod.snd := by
  simp [cells, Function.comp_def, flatMap_def]

theorem zipIdx_numbers_ne (l : List α) : l.zipIdx.Pairwise fun x y => x.2 ≠ y.2 := by
  have numbers : (l.zipIdx.map Prod.snd).Nodup := by
    rw [zipIdx_map_snd]
    exact nodup_range'
  exact pairwise_map.mp numbers

theorem cells_keys_nodup (l : List (List α)) : ((cells l).map Prod.fst).Nodup := by
  rw [cells, map_flatMap, nodup_flatMap]
  constructor
  · intro row _
    rw [map_map, nodup_iff_pairwise_ne, pairwise_map]
    exact (zipIdx_numbers_ne row.1).imp fun hne h => hne (Prod.mk.inj h).2
  · refine (zipIdx_numbers_ne l).imp fun {r s} hne p hr hs => hne ?_
    simp only [map_map, mem_map, Function.comp_apply] at hr hs
    obtain ⟨_, _, rfl⟩ := hr
    obtain ⟨_, _, h⟩ := hs
    exact (Prod.mk.inj h).1.symm

theorem foldl_counted (g : Nat → α → β → β) (l : List α) (n : Nat) (b : β) :
    l.foldl (fun s x => (s.1 + 1, g s.1 x s.2)) (n, b) =
      (n + l.length, (l.zipIdx n).foldl (fun b x => g x.2 x.1 b) b) := by
  induction l generalizing n b with
  | nil => rfl
  | cons x l ih =>
    rw [foldl_cons, ih, zipIdx_cons, foldl_cons, length_cons]
    congr 1
    omega

section Sums

variable [DecidableEq K] [AddCommMonoid M] {l : List α} {a : α → K}

theorem find?_of_nodup (hl : (l.map a).Nodup) {e : α} (he : e ∈ l) :
    l.find? (fun x => a x = a e) = some e := by
  induction l with
  | nil => simp at he
  | cons x l ih =>
    rw [map_cons, nodup_cons] at hl
    rcases mem_cons.mp he with rfl | hmem
    · simp
    · have hne : a x ≠ a e := fun h => hl.1 (by rw [h]; exact mem_map_of_mem hmem)
      rw [find?_cons_of_neg (by simpa using hne), ih hl.2 hmem]

omit [DecidableEq K] [AddCommMonoid M] in
theorem eq_of_filterMap_nodup {f : α → Option K} (hl : (l.filterMap f).Nodup) {x y : α} (hx : x ∈ l)
    (hy : y ∈ l) {k : K} (hfx : f x = some k) (hfy : f y = some k) : x = y := by
  induction l with
  | nil => cases hx
  | cons a l ih =>
    have fresh : ∀ z ∈ l, f a = some k → f z = some k → False := by
      intro z hz hfa hfz
      rw [filterMap_cons, hfa] at hl
      exact (nodup_cons.mp hl).1 (mem_filterMap.mpr ⟨z, hz, hfz⟩)
    have hl' : (l.filterMap f).Nodup := by
      rw [filterMap_cons] at hl
      split at hl
      · exact hl
      · exact (nodup_cons.mp hl).2
    rcases mem_cons.mp hx with rfl | hx' <;> rcases mem_cons.mp hy with rfl | hy'
    · rfl
    · exact (fresh y hy' hfx hfy).elim
    · exact (fresh x hx' hfy hfx).elim
    · exact ih hl' hx' hy'

theorem sum_at (hl : (l.map a).Nodup) (k : K) (f : α → M) :
    (l.map fun x => if k = a x then f x else 0).sum = (l.find? fun x => a x = k).elim 0 f := by
  induction l with
  | nil => rfl
  | cons x l ih =>
    rw [map_cons, nodup_cons] at hl
    rw [map_cons, sum_cons]
    by_cases hx : a x = k
    · have others : ∀ y ∈ l, (if k = a y then f y else 0) = 0 := fun y hy =>
        if_neg fun h => hl.1 (by rw [hx, h]; exact mem_map_of_mem hy)
      rw [map_congr_left others, find?_cons_of_pos (by simpa using hx), if_pos hx.symm]
      simp
    · rw [if_neg (Ne.symm hx), zero_add, ih hl.2, find?_cons_of_neg (by simpa using hx)]

/-- A sum over the pairs of an element of `l` and an element of `t` with the same key, taken from
either side. -/
theorem sum_find_comm {t : List τ} {b : τ → K} (f : α → τ → M) (hl : (l.map a).Nodup)
    (ht : (t.map b).Nodup) :
    (l.map fun e => (t.find? fun u => b u = a e).elim 0 (f e)).sum =
      (t.map fun u => (l.find? fun e => a e = b u).elim 0 fun e => f e u).sum := by
  induction t with
  | nil => simp
  | cons u t ih =>
    rw [map_cons, nodup_cons] at ht
    have split : ∀ x ∈ l, ((u :: t).find? fun u => b u = a x).elim 0 (f x) =
        (if b u = a x then f x u else 0) + (t.find? fun u => b u = a x).elim 0 (f x) := by
      intro x _
      by_cases hx : b u = a x
      · have none : (t.find? fun u => b u = a x) = none := by
          rw [find?_eq_none]
          intro v hv h
          exact ht.1 (by rw [hx, ← of_decide_eq_true h]; exact mem_map_of_mem hv)
        rw [none, find?_cons_of_pos (by simpa using hx), if_pos hx]
        simp
      · rw [find?_cons_of_neg (by simpa using hx), if_neg hx, zero_add]
    rw [map_congr_left split, sum_map_add, sum_at hl (b u) fun x => f x u, map_cons,
      sum_cons, ih ht.2]

end Sums

theorem flatMap_set_sublist {l : List α} {f : α → List β} {i : Nat} {a a' : α}
    (h : l[i]? = some a) (hsub : (f a').Sublist (f a)) :
    ((l.set i a').flatMap f).Sublist (l.flatMap f) := by
  induction l generalizing i with
  | nil => cases h
  | cons b l ih =>
    cases i with
    | zero =>
      cases h
      exact hsub.append (List.Sublist.refl (l.flatMap f))
    | succ i => exact (List.Sublist.refl (f b)).append (ih (by simpa using h))

theorem mem_of_mem_flatMap_set {l : List α} {f : α → List β} (hl : (l.flatMap f).Nodup) {i : Nat}
    {a a' : α} (h : l[i]? = some a) {b : β} (hb : b ∈ (l.set i a').flatMap f) (hold : b ∈ f a) :
    b ∈ f a' := by
  induction l generalizing i with
  | nil => cases h
  | cons c l ih =>
    rw [flatMap_cons, nodup_append] at hl
    obtain ⟨_, hl', hapart⟩ := hl
    cases i with
    | zero =>
      cases h
      rw [set_cons_zero, flatMap_cons, mem_append] at hb
      exact hb.resolve_right fun hrest => hapart b hold b hrest rfl
    | succ i =>
      have hmem : a ∈ l := mem_of_getElem? (by simpa using h)
      rw [set_cons_succ, flatMap_cons, mem_append] at hb
      refine ih hl' (by simpa using h) (hb.resolve_left fun hfirst => ?_)
      exact hapart b hfirst b (mem_flatMap.mpr ⟨a, hmem, hold⟩) rfl

end Alba.ProofKit
