import Alba.ProofKit.Cursors

/-! Scans of the keys of an ordered store that jump from one group of keys to the next, and the
gathering of items until they weigh enough. -/

namespace Alba.ProofKit

open Std List

section Order

theorem compare_append_append {a b : Bytes} (h : a.length = b.length) (s t : Bytes) :
    compare (a ++ s) (b ++ t) = (compare a b).then (compare s t) := by
  induction a generalizing b with
  | nil =>
    rw [eq_nil_of_length_eq_zero h.symm]
    rfl
  | cons x a ih =>
    cases b with
    | nil => exact nomatch h
    | cons y b =>
      rw [cons_append, cons_append, compare_cons, compare_cons, ih (Nat.succ.inj h),
        Ordering.then_assoc]

/-- Neither text starts with the other one. -/
def Apart (a b : Bytes) : Prop := ¬ a <+: b ∧ ¬ b <+: a

theorem Apart.compare_append {a b : Bytes} (h : Apart a b) (s t : Bytes) :
    compare (a ++ s) (b ++ t) = compare a b := by
  induction a generalizing b with
  | nil => exact absurd List.nil_prefix h.1
  | cons x a ih =>
    cases b with
    | nil => exact absurd List.nil_prefix h.2
    | cons y b =>
      rw [cons_append, cons_append, compare_cons, compare_cons]
      cases hxy : compare x y with
      | lt => rfl
      | gt => rfl
      | eq =>
        obtain rfl := LawfulEqOrd.eq_of_compare hxy
        exact ih ⟨fun hp => h.1 ((List.prefix_cons_inj x).mpr hp),
          fun hp => h.2 ((List.prefix_cons_inj x).mpr hp)⟩

theorem not_lt_iff {a b : Bytes} : compare a b ≠ .lt ↔ compare b a ≠ .gt := by
  rw [ne_eq, ne_eq, OrientedCmp.gt_iff_lt]

end Order

theorem filter_eq_dropWhile {α : Type} {r : α → α → Prop} {p : α → Bool} {l : List α}
    (sorted : l.Pairwise r) (hmono : ∀ a b, r a b → p a = true → p b = true) :
    l.filter p = l.dropWhile fun a => !p a := by
  induction l with
  | nil => rfl
  | cons a l ih =>
    obtain ⟨hfirst, hrest⟩ := pairwise_cons.mp sorted
    by_cases ha : p a = true
    · rw [dropWhile_cons_of_neg (by simp [ha]), filter_eq_self]
      exact forall_mem_cons.mpr ⟨ha, fun b hb => hmono a b (hfirst b hb) ha⟩
    · rw [filter_cons_of_neg ha, dropWhile_cons_of_pos (by simpa using ha), ih hrest]

section Seek

variable {keys : List Bytes} {x k : Bytes}

theorem seek_right_eq_none :
    Direction.right.seek true x keys = none ↔ ∀ k ∈ keys, compare k x = .lt := by
  simp [Direction.seek, Direction.along, Direction.ahead]

theorem seek_nearest {dir : Direction} (sorted : (dir.along keys).Pairwise fun a b => dir.ahead a b = true)
    (h : dir.seek true x keys = some k) :
    k ∈ keys ∧ dir.ahead k x = false ∧
      ∀ k' ∈ keys, dir.ahead k' x = false → dir.ahead k' k = false := by
  simpa using find?_nearest sorted (show (dir.along keys).find? _ = some k from h)

theorem seek_right_lowest (sorted : keys.Pairwise fun a b => compare a b = .lt)
    (h : Direction.right.seek true x keys = some k) :
    k ∈ keys ∧ compare k x ≠ .lt ∧ ∀ k' ∈ keys, compare k' x ≠ .lt → compare k k' ≠ .gt := by
  have hsorted : (Direction.right.along keys).Pairwise fun a b => Direction.right.ahead a b = true :=
    sorted.imp fun h => by simp [Direction.ahead, h]
  simpa [Direction.ahead, OrientedCmp.gt_iff_lt] using seek_nearest hsorted h

theorem seek_right_eq_some (sorted : keys.Pairwise fun a b => compare a b = .lt) :
    Direction.right.seek true x keys = some k ↔
      k ∈ keys ∧ compare k x ≠ .lt ∧ ∀ k' ∈ keys, compare k' x ≠ .lt → compare k k' ≠ .gt := by
  refine ⟨seek_right_lowest sorted, fun ⟨hk, hge, hlowest⟩ => ?_⟩
  cases hseek : Direction.right.seek true x keys with
  | none => exact absurd (seek_right_eq_none.mp hseek k hk) hge
  | some k₀ =>
    obtain ⟨hk₀, hge₀, hlowest₀⟩ := seek_right_lowest sorted hseek
    have hle := hlowest₀ k hk hge
    have hle' := hlowest k₀ hk₀ hge₀
    cases hc : compare k₀ k with
    | lt => exact absurd (OrientedCmp.gt_of_lt hc) hle'
    | eq => exact congrArg some (LawfulEqOrd.eq_of_compare hc)
    | gt => exact absurd hc hle

end Seek

section Gather

variable {α : Type} {weight : α → Int} {enough : Int}

/-- Items are taken until they weigh enough, the last one first; with their number and weight. -/
def gather (weight : α → Int) (enough : Int) : List α → List α → Nat → Int → List α × Nat × Int
  | [], taken, n, sum => (taken, n, sum)
  | a :: rest, taken, n, sum =>
    if sum ≥ enough then (taken, n, sum)
    else gather weight enough rest (a :: taken) (n + 1) (sum + weight a)

theorem gather_of_enough {l taken : List α} {n : Nat} {sum : Int} (h : sum ≥ enough) :
    gather weight enough l taken n sum = (taken, n, sum) := by
  cases l with
  | nil => rfl
  | cons a l => rw [gather, if_pos h]

/-- The items that are taken are the first ones, all of them if they do not weigh enough. -/
theorem gather_eq (l taken : List α) (n : Nat) (sum : Int) :
    ∃ first rest, l = first ++ rest ∧ gather weight enough l taken n sum =
        (first.reverse ++ taken, n + first.length, sum + (first.map weight).sum) ∧
      (rest = [] ∨ sum + (first.map weight).sum ≥ enough) := by
  induction l generalizing taken n sum with
  | nil => exact ⟨[], [], rfl, by simp [gather], .inl rfl⟩
  | cons a l ih =>
    by_cases h : sum ≥ enough
    · exact ⟨[], a :: l, rfl, by simp [gather_of_enough h], .inr (by simpa using h)⟩
    · obtain ⟨first, rest, hl, hgather, hend⟩ := ih (a :: taken) (n + 1) (sum + weight a)
      refine ⟨a :: first, rest, by rw [hl]; rfl, ?_, ?_⟩
      · rw [gather, if_neg h, hgather]
        simp only [reverse_cons, append_assoc, singleton_append, length_cons,
          map_cons, sum_cons, Prod.mk.injEq, true_and]
        omega
      · simp only [map_cons, sum_cons]
        rwa [← Int.add_assoc]

/-- A loop that puts its findings in front of the earlier ones and raises at an element it cannot
examine. -/
theorem foldlM_collect {β ε : Type} {step : List β → α → Except ε (List β)} {known : α → Prop}
    [DecidablePred known] {found : α → List β} {e : ε} {l : List α} (acc : List β)
    (hstep : ∀ acc, ∀ a ∈ l, step acc a = if known a then .ok (found a ++ acc) else .error e) :
    l.foldlM step acc =
      if ∀ a ∈ l, known a then .ok (l.reverse.flatMap found ++ acc) else .error e := by
  induction l generalizing acc with
  | nil => simp [pure, Except.pure]
  | cons a l ih =>
    rw [foldlM_cons, hstep acc a mem_cons_self]
    by_cases ha : known a
    · rw [if_pos ha]
      change l.foldlM step (found a ++ acc) = _
      rw [ih _ fun acc b hb => hstep acc b (mem_cons_of_mem a hb)]
      simp only [forall_mem_cons, ha, true_and, reverse_cons, flatMap_append,
        flatMap_singleton, append_assoc]
    · rw [if_neg ha, if_neg fun h => ha (h a mem_cons_self)]
      rfl

end Gather

end Alba.ProofKit
