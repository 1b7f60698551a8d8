import Alba.ProofKit.Totals

/-! Lists grouped by a key, and counts that take at most a given number from each group. The number of
elements is the sum of the counts of the groups; a capped count falls short of it by what the groups have
beyond the cap. -/

set_option linter.unusedSectionVars false

namespace Alba.ProofKit

open Std List

variable {α κ : Type}

section Grouping

variable [Ord κ] [TransOrd κ] [LawfulEqOrd κ] [DecidableEq κ]

/-- The elements of a list by key, those of a key with the last one first. -/
def groupBy (f : α → κ) (l : List α) : ExtTreeMap κ (List α) :=
  l.foldl (fun h item => h.insert (f item) (item :: h.getD (f item) [])) ∅

theorem getD_groupBy (f : α → κ) (l : List α) (k : κ) :
    (groupBy f l).getD k [] = (l.filter fun a => f a = k).reverse := by
  have h : ∀ (l : List α) (m : ExtTreeMap κ (List α)),
      (l.foldl (fun h item => h.insert (f item) (item :: h.getD (f item) [])) m).getD k [] =
        (l.filter fun a => f a = k).reverse ++ m.getD k [] := by
    intro l
    induction l with
    | nil => simp
    | cons a l ih =>
      intro m
      rw [foldl_cons, ih, ExtTreeMap.getD_insert]
      by_cases hk : f a = k
      · simp [hk]
      · simp [hk]
  rw [groupBy, h l ∅, ExtTreeMap.getD_empty, append_nil]

theorem mem_groupBy {f : α → κ} {l : List α} {k : κ} : k ∈ groupBy f l ↔ ∃ a ∈ l, f a = k := by
  have h : ∀ (l : List α) (m : ExtTreeMap κ (List α)),
      k ∈ l.foldl (fun h item => h.insert (f item) (item :: h.getD (f item) [])) m ↔
        k ∈ m ∨ ∃ a ∈ l, f a = k := by
    intro l
    induction l with
    | nil => simp
    | cons a l ih =>
      intro m
      rw [foldl_cons, ih, ExtTreeMap.mem_insert]
      simp only [LawfulEqOrd.compare_eq_iff_eq, mem_cons, exists_eq_or_imp]
      tauto
  rw [groupBy, h l ∅]
  simp

theorem getElem?_groupBy {f : α → κ} {l : List α} {k : κ} {group : List α} :
    (groupBy f l)[k]? = some group ↔ group = (l.filter fun a => f a = k).reverse ∧ group ≠ [] := by
  have hd := getD_groupBy f l k
  rw [ExtTreeMap.getD_eq_getD_getElem?] at hd
  constructor
  · intro hget
    have hmem : k ∈ groupBy f l := by
      rw [ExtTreeMap.mem_iff_isSome_getElem?, hget]
      rfl
    rw [hget, Option.getD_some] at hd
    refine ⟨hd, fun hnil => ?_⟩
    obtain ⟨a, ha, hfa⟩ := mem_groupBy.mp hmem
    have hin : a ∈ (l.filter fun a => f a = k).reverse := by simp [ha, hfa]
    rw [← hd, hnil] at hin
    cases hin
  · rintro ⟨rfl, hne⟩
    cases hget : (groupBy f l)[k]? with
    | none =>
      rw [hget, Option.getD_none] at hd
      exact absurd hd.symm hne
    | some group =>
      rw [hget, Option.getD_some] at hd
      rw [hd]

theorem sum_groupBy (f : α → κ) (l : List α) {g : List α → Int} (hnil : g [] = 0)
    (hrev : ∀ l, g l.reverse = g l) :
    ((groupBy f l).toList.map fun e => g e.2).sum =
      ∑ k ∈ (l.map f).toFinset, g (l.filter fun a => f a = k) := by
  have hkeys : keySet (groupBy f l) ⊆ (l.map f).toFinset := by
    intro k hk
    rw [keySet, mem_toFinset] at hk
    obtain ⟨e, he, rfl⟩ := mem_map.mp hk
    have hget : (groupBy f l)[e.1]? = some e.2 := ExtTreeMap.mem_toList_iff_getElem?_eq_some.mp he
    have hmem : e.1 ∈ groupBy f l := by
      rw [ExtTreeMap.mem_iff_isSome_getElem?, hget]
      rfl
    obtain ⟨a, ha, hfa⟩ := mem_groupBy.mp hmem
    exact mem_toFinset.mpr (mem_map.mpr ⟨a, ha, hfa⟩)
  refine (total_eq_sum (g := fun _ group => g group) hkeys).trans (Finset.sum_congr rfl fun k _ => ?_)
  unfold share
  have hd := getD_groupBy f l k
  rw [ExtTreeMap.getD_eq_getD_getElem?] at hd
  cases hget : (groupBy f l)[k]? with
  | none =>
    rw [hget, Option.getD_none] at hd
    rw [← hrev, ← hd, hnil]
    rfl
  | some group =>
    rw [hget, Option.getD_some] at hd
    rw [← hrev, ← hd]
    rfl

end Grouping

section Capped

variable [DecidableEq κ]

/-- The number of elements with at most `p` of each group. -/
def cappedCount (p : Int) (f : α → κ) (l : List α) : Int :=
  ∑ k ∈ (l.map f).toFinset, min p (l.countP fun a => f a = k)

theorem sum_countP_eq_length {f : α → κ} {l : List α} {s : Finset κ} (h : ∀ a ∈ l, f a ∈ s) :
    ∑ k ∈ s, l.countP (fun a => f a = k) = l.length := by
  induction l with
  | nil => simp
  | cons a l ih =>
    obtain ⟨ha, hl⟩ := forall_mem_cons.mp h
    simp only [countP_cons, Finset.sum_add_distrib, ih hl, decide_eq_true_eq, Finset.sum_ite_eq, ha,
      if_true, length_cons]

/-- A list with at most `p` elements of each group, no group larger than in `l`, is not longer than the
capped count. -/
theorem length_le_cappedCount {f : α → κ} {l l' : List α} {p : Int}
    (hsub : ∀ k, l'.countP (fun a => f a = k) ≤ l.countP fun a => f a = k)
    (hcap : ∀ k, (l'.countP (fun a => f a = k) : Int) ≤ p) : (l'.length : Int) ≤ cappedCount p f l := by
  have hkeys : ∀ a ∈ l', f a ∈ (l.map f).toFinset := by
    intro a ha
    have hpos : 0 < l.countP fun b => f b = f a :=
      Nat.lt_of_lt_of_le (countP_pos_iff.mpr ⟨a, ha, by simp⟩) (hsub (f a))
    obtain ⟨b, hb, hfb⟩ := countP_pos_iff.mp hpos
    exact mem_toFinset.mpr (mem_map.mpr ⟨b, hb, by simpa using hfb⟩)
  rw [← sum_countP_eq_length hkeys, Nat.cast_sum]
  exact Finset.sum_le_sum fun k _ => le_min (hcap k) (by exact_mod_cast hsub k)

/-- Conversely, a list with the smaller of `p` and the whole group of each group. -/
theorem cappedCount_le_length {f : α → κ} {l l' : List α} {p : Int} (hkeys : ∀ a ∈ l', f a ∈ l.map f)
    (h : ∀ k ∈ l.map f, min p (l.countP fun a => f a = k) ≤ (l'.countP (fun a => f a = k) : Int)) :
    cappedCount p f l ≤ l'.length := by
  have hsum := sum_countP_eq_length (s := (l.map f).toFinset) fun a ha =>
    mem_toFinset.mpr (hkeys a ha)
  rw [← hsum, Nat.cast_sum]
  exact Finset.sum_le_sum fun k hk => h k (mem_toFinset.mp hk)

theorem cappedCount_mono {p q : Int} (h : p ≤ q) (f : α → κ) (l : List α) :
    cappedCount p f l ≤ cappedCount q f l :=
  Finset.sum_le_sum fun _ _ => min_le_min_right _ h

end Capped

end Alba.ProofKit
