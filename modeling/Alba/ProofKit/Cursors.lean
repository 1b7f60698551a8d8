import Alba.ProofKit.Texts

/-! Cursors on the keys of an ordered store. What a cursor finds among the keys that start with a text is
what it would find in the store that holds only those. -/

namespace Alba.ProofKit

open Std List

variable {α V : Type}

inductive Direction
  | left
  | right
  deriving DecidableEq

namespace Direction

/-- `b` comes after `a` on the way in this direction. -/
def ahead : Direction → Bytes → Bytes → Bool
  | right, a, b => compare a b == .lt
  | left, a, b => compare b a == .lt

/-- A list in increasing order, as it is met in this direction. -/
def along : Direction → List α → List α
  | right, l => l
  | left, l => l.reverse

/-- The first key at or past `key`; past it, when `inc` is false. -/
def seek (dir : Direction) (inc : Bool) (key : Bytes) (keys : List Bytes) : Option Bytes :=
  (dir.along keys).find? fun k => if inc then !dir.ahead k key else dir.ahead key k

variable {dir : Direction}

theorem mem_along (dir : Direction) {l : List α} {a : α} : a ∈ dir.along l ↔ a ∈ l := by
  cases dir with
  | left => exact mem_reverse
  | right => exact Iff.rfl

@[simp] theorem length_along (dir : Direction) (l : List α) : (dir.along l).length = l.length := by
  cases dir with
  | left => exact length_reverse
  | right => rfl

theorem along_map {β : Type} (f : α → β) (l : List α) : dir.along (l.map f) = (dir.along l).map f := by
  cases dir with
  | left => exact map_reverse.symm
  | right => rfl

theorem along_filter (q : α → Bool) (l : List α) : dir.along (l.filter q) = (dir.along l).filter q := by
  cases dir with
  | left => exact filter_reverse.symm
  | right => rfl

theorem ahead_append (p a b : Bytes) : dir.ahead (p ++ a) (p ++ b) = dir.ahead a b := by
  cases dir <;> simp [ahead, compare_append_left]

theorem ahead_asymm {a b : Bytes} (h : dir.ahead a b = true) : dir.ahead b a = false := by
  cases dir with
  | left =>
    have hlt : compare b a = .lt := by simpa [ahead] using h
    simp [ahead, OrientedCmp.gt_of_lt hlt]
  | right =>
    have hlt : compare a b = .lt := by simpa [ahead] using h
    simp [ahead, OrientedCmp.gt_of_lt hlt]

@[simp] theorem ahead_self (a : Bytes) : dir.ahead a a = false := by
  cases dir <;> simp [ahead, ReflOrd.compare_self]

theorem ahead_trans {a b c : Bytes} (hab : dir.ahead a b = true) (hbc : dir.ahead b c = true) :
    dir.ahead a c = true := by
  cases dir with
  | left =>
    simp only [ahead, beq_iff_eq] at *
    exact TransCmp.lt_trans hbc hab
  | right =>
    simp only [ahead, beq_iff_eq] at *
    exact TransCmp.lt_trans hab hbc

theorem ahead_of_not_ahead {a b : Bytes} (h : dir.ahead a b = false) (hne : a ≠ b) :
    dir.ahead b a = true := by
  cases dir with
  | left =>
    have hlt : compare b a ≠ .lt := by simpa [ahead] using h
    cases hc : compare b a with
    | lt => exact absurd hc hlt
    | eq => exact absurd (LawfulEqOrd.eq_of_compare hc).symm hne
    | gt => simp [ahead, OrientedCmp.lt_of_gt hc]
  | right =>
    have hlt : compare a b ≠ .lt := by simpa [ahead] using h
    cases hc : compare a b with
    | lt => exact absurd hc hlt
    | eq => exact absurd (LawfulEqOrd.eq_of_compare hc) hne
    | gt => simp [ahead, OrientedCmp.lt_of_gt hc]

theorem along_keys_pairwise (dir : Direction) (db : ExtTreeMap Bytes V) :
    (dir.along db.keys).Pairwise fun a b => dir.ahead a b = true := by
  cases dir with
  | left =>
    rw [along, pairwise_reverse]
    exact ExtTreeMap.ordered_keys.imp fun h => by simp [ahead, h]
  | right => exact ExtTreeMap.ordered_keys.imp fun h => by simp [ahead, h]

end Direction

section Lists

variable {l : List Bytes} {dir : Direction} {q : Bytes → Bool}

theorem append_filter_of_closed (sorted : l.Pairwise fun a b => dir.ahead a b = true)
    (closed : ∀ a b, dir.ahead a b = true → q a = true → q b = true) :
    ∃ skipped, l = skipped ++ l.filter q ∧ ∀ a ∈ skipped, q a = false := by
  induction l with
  | nil => exact ⟨[], rfl, nofun⟩
  | cons k l ih =>
    obtain ⟨hk, hl⟩ := pairwise_cons.mp sorted
    by_cases hq : q k = true
    · have hall : l.filter q = l := filter_eq_self.mpr fun b hb => closed k b (hk b hb) hq
      exact ⟨[], by rw [filter_cons_of_pos hq, hall]; rfl, nofun⟩
    · obtain ⟨skipped, heq, hskipped⟩ := ih hl
      refine ⟨k :: skipped, by rw [filter_cons_of_neg hq, cons_append, ← heq], ?_⟩
      rintro a (_ | ⟨_, ha⟩)
      · exact Bool.eq_false_of_not_eq_true hq
      · exact hskipped a ha

theorem takeWhile_eq_filter_of_closed (sorted : l.Pairwise fun a b => dir.ahead a b = true)
    (closed : ∀ a b, dir.ahead a b = true → q b = true → q a = true) : l.takeWhile q = l.filter q := by
  induction l with
  | nil => rfl
  | cons k l ih =>
    obtain ⟨hk, hl⟩ := pairwise_cons.mp sorted
    by_cases hq : q k = true
    · rw [takeWhile_cons_of_pos hq, filter_cons_of_pos hq, ih hl]
    · have hnone : l.filter q = [] :=
        filter_eq_nil_iff.mpr fun b hb hqb => hq (closed k b (hk b hb) hqb)
      rw [takeWhile_cons_of_neg hq, filter_cons_of_neg hq, hnone]

theorem find?_ahead {skipped rest : List Bytes} {k : Bytes}
    (sorted : (skipped ++ k :: rest).Pairwise fun a b => dir.ahead a b = true) :
    (skipped ++ k :: rest).find? (dir.ahead k) = rest.head? := by
  obtain ⟨-, hrest, hskipped⟩ := pairwise_append.mp sorted
  have hnone : skipped.find? (dir.ahead k) = none := by
    refine find?_eq_none.mpr fun a ha => ?_
    simp [Direction.ahead_asymm (hskipped a ha k mem_cons_self)]
  rw [find?_append, hnone, Option.none_or, find?_cons_of_neg (by simp),
    ← head?_filter]
  rw [filter_eq_self.mpr fun b hb => (pairwise_cons.mp hrest).1 b hb]

theorem find?_nearest {k : Bytes} (sorted : (dir.along l).Pairwise fun a b => dir.ahead a b = true)
    (h : (dir.along l).find? q = some k) :
    k ∈ l ∧ q k = true ∧ ∀ k' ∈ l, q k' = true → dir.ahead k' k = false := by
  obtain ⟨hk, before, after, heq, hbefore⟩ := find?_eq_some_iff_append.mp h
  rw [heq] at sorted
  obtain ⟨-, hrest, -⟩ := pairwise_append.mp sorted
  have hmem : ∀ k', k' ∈ l ↔ k' ∈ before ++ k :: after := fun k' => by
    rw [← heq, Direction.mem_along]
  refine ⟨(hmem k).mpr (by simp), hk, fun k' hk' hq => ?_⟩
  rcases mem_append.mp ((hmem k').mp hk') with hmem | hmem
  · have hno := hbefore k' hmem
    simp [hq] at hno
  · rcases mem_cons.mp hmem with rfl | hmem
    · exact Direction.ahead_self k'
    · exact Direction.ahead_asymm ((pairwise_cons.mp hrest).1 k' hmem)

end Lists

section Within

variable {p : Bytes} {db : ExtTreeMap Bytes V}

theorem find?_middle {out own rest : List α} {q inside : α → Bool} (hout : ∀ a ∈ out, q a = false)
    (hown : ∀ a ∈ own, inside a = true) (hrest : ∀ a ∈ rest, inside a = false) :
    ((out ++ (own ++ rest)).find? q).filter inside = own.find? q := by
  have hnone : out.find? q = none := find?_eq_none.mpr fun a ha => by simp [hout a ha]
  rw [find?_append, hnone, Option.none_or, find?_append]
  cases hfound : own.find? q with
  | some a => simp [hown a (mem_of_find?_eq_some hfound)]
  | none =>
    rw [Option.none_or]
    cases hlater : rest.find? q with
    | none => rfl
    | some b => simp [hrest b (mem_of_find?_eq_some hlater)]

/-- What a cursor finds among the keys that start with `p`, when none of the keys that it meets before
them is looked for. -/
theorem find?_within (dir : Direction) {q : Bytes → Bool}
    (hq : ∀ k, (∀ s, dir.ahead k (p ++ s) = true) → q k = false) :
    ((dir.along db.keys).find? q).filter (p.isPrefixOf ·) =
      ((dir.along (within p db).keys).find? fun k => q (p ++ k)).map (p ++ ·) := by
  obtain ⟨below, above, hsplit, hbelow, habove⟩ :=
    split_at_start (p := p) (ExtTreeMap.ordered_keys (t := db))
  have hown : (dir.along (within p db).keys).map (p ++ ·) =
      dir.along (db.keys.filter (p.isPrefixOf ·)) := by
    rw [← keys_within, Direction.along_map]
  have hfound : ((dir.along (within p db).keys).find? fun k => q (p ++ k)).map (p ++ ·) =
      (dir.along (db.keys.filter (p.isPrefixOf ·))).find? q := by
    rw [← hown, find?_map]
    rfl
  have hinside : ∀ k ∈ dir.along (db.keys.filter (p.isPrefixOf ·)), p.isPrefixOf k = true :=
    fun k hk => (mem_filter.mp ((Direction.mem_along dir).mp hk)).2
  have houtside : ∀ k, (∀ s, compare k (p ++ s) ≠ .eq) → p.isPrefixOf k = false := by
    intro k hk
    rw [← Bool.not_eq_true, List.isPrefixOf_iff_prefix]
    rintro ⟨s, rfl⟩
    exact hk s ReflOrd.compare_self
  have hlower : ∀ k ∈ below, p.isPrefixOf k = false :=
    fun k hk => houtside k fun s => by simp [hbelow k hk s]
  have hupper : ∀ k ∈ above, p.isPrefixOf k = false :=
    fun k hk => houtside k fun s => by simp [habove k hk s]
  rw [hfound]
  cases dir with
  | right =>
    have hskip : ∀ k ∈ below, q k = false :=
      fun k hk => hq k fun s => by simp [Direction.ahead, hbelow k hk s]
    have h := find?_middle hskip hinside hupper
    rwa [Direction.along, ← hsplit] at h
  | left =>
    have hskip : ∀ k ∈ above.reverse, q k = false :=
      fun k hk => hq k fun s => by
        simp [Direction.ahead, OrientedCmp.lt_of_gt (habove k (mem_reverse.mp hk) s)]
    have h := find?_middle hskip hinside fun k hk => hlower k (mem_reverse.mp hk)
    have hreverse : above.reverse ++ (Direction.left.along (db.keys.filter (p.isPrefixOf ·)) ++
        below.reverse) = Direction.left.along db.keys := by
      rw [Direction.along, Direction.along, ← reverse_append, ← reverse_append,
        append_assoc, ← hsplit]
    rwa [hreverse] at h

theorem seek_within (dir : Direction) (inc : Bool) (key : Bytes) :
    (dir.seek inc (p ++ key) db.keys).filter (p.isPrefixOf ·) =
      (dir.seek inc key (within p db).keys).map (p ++ ·) := by
  rw [Direction.seek, find?_within dir]
  · simp only [Direction.seek, Direction.ahead_append]
  · intro k hk
    cases inc with
    | true => simp [hk key]
    | false => simp [Direction.ahead_asymm (hk key)]

end Within

end Alba.ProofKit
