import Mathlib

/-! Doubly linked lists between two fixed nodes: a node is a number, and its neighbours are found in two
tables. Taking a node out and putting one in after the first write two or four entries of these tables. -/

namespace Alba.ProofKit

open List

structure Links where
  prev : Nat → Nat
  next : Nat → Nat

namespace Links

/-- `pn.next := n.next; nn.prev := n.prev`, the second one with what the first has left of `n.next`. -/
def unlink (t : Links) (n : Nat) : Links :=
  let next := Function.update t.next (t.prev n) (t.next n)
  { next, prev := Function.update t.prev (next n) (t.prev n) }

/-- `n` is put between `front` and the node after it. -/
def insert (t : Links) (front n : Nat) : Links :=
  let first := t.next front
  { next := Function.update (Function.update t.next n first) front n
    prev := Function.update (Function.update t.prev first n) n front }

/-- The nodes follow one another, seen from both ends. -/
structure Chained (t : Links) (nodes : List Nat) : Prop where
  next : nodes.IsChain fun a b => t.next a = b
  prev : nodes.IsChain fun a b => t.prev b = a
  distinct : nodes.Nodup

section Updates

variable {f : Nat → Nat} {a v : Nat} {nodes : List Nat}

theorem isChain_update_next (ha : a ∉ nodes) (last : Nat)
    (h : (nodes ++ [last]).IsChain fun a b => f a = b) :
    (nodes ++ [last]).IsChain fun x y => Function.update f a v x = y := by
  induction nodes with
  | nil => simp
  | cons n nodes ih =>
    simp only [mem_cons, not_or] at ha
    cases nodes with
    | nil =>
      simp only [nil_append, cons_append, isChain_cons_cons] at h ⊢
      exact ⟨by rw [Function.update_of_ne (Ne.symm ha.1)]; exact h.1, isChain_singleton _⟩
    | cons m nodes =>
      simp only [cons_append, isChain_cons_cons] at h ih ⊢
      exact ⟨by rw [Function.update_of_ne (Ne.symm ha.1)]; exact h.1, ih ha.2 h.2⟩

theorem isChain_update_prev (ha : a ∉ nodes) {first : Nat}
    (h : (first :: nodes).IsChain fun a b => f b = a) :
    (first :: nodes).IsChain fun x y => Function.update f a v y = x := by
  induction nodes generalizing first with
  | nil => simp
  | cons n nodes ih =>
    simp only [mem_cons, not_or] at ha
    simp only [isChain_cons_cons] at h ⊢
    exact ⟨by rw [Function.update_of_ne (Ne.symm ha.1)]; exact h.1, ih ha.2 h.2⟩

theorem isChain_update_next_of_not_mem (ha : a ∉ nodes) (h : nodes.IsChain fun a b => f a = b) :
    nodes.IsChain fun x y => Function.update f a v x = y := by
  rcases eq_nil_or_concat nodes with rfl | ⟨rest, last, rfl⟩
  · exact isChain_nil
  · rw [concat_eq_append] at h ha ⊢
    exact isChain_update_next (fun hmem => ha (mem_append_left _ hmem)) last h

theorem isChain_update_prev_of_not_mem (ha : a ∉ nodes) (h : nodes.IsChain fun a b => f b = a) :
    nodes.IsChain fun x y => Function.update f a v y = x := by
  cases nodes with
  | nil => exact isChain_nil
  | cons n nodes => exact isChain_update_prev (fun hmem => ha (mem_cons_of_mem n hmem)) h

end Updates

variable {t : Links}

theorem Chained.unlink {before after : List Nat} {p n s : Nat}
    (h : t.Chained (before ++ p :: n :: s :: after)) :
    (t.unlink n).Chained (before ++ p :: s :: after) := by
  obtain ⟨hnextBefore, hnext⟩ := isChain_split.mp h.next
  obtain ⟨hprevBefore, hprev⟩ := isChain_split.mp h.prev
  simp only [isChain_cons_cons] at hnext hprev
  obtain ⟨hpn, hns, hnextAfter⟩ := hnext
  obtain ⟨hnp, hsn, hprevAfter⟩ := hprev
  have hdistinct := h.distinct
  simp only [nodup_append, nodup_cons, mem_cons, not_or] at hdistinct
  obtain ⟨hbefore, ⟨⟨hpn', hps, hpafter⟩, ⟨hns', hnafter⟩, hsafter, hafter⟩, hapart⟩ := hdistinct
  have hp : p ∉ before := fun hmem => hapart p hmem p (.inl rfl) rfl
  have hs : s ∉ before := fun hmem => hapart s hmem s (.inr (.inr (.inl rfl))) rfl
  have hlinks : t.unlink n =
      { next := Function.update t.next p s, prev := Function.update t.prev s p } := by
    simp only [Links.unlink, hnp, hns, Function.update_of_ne (Ne.symm hpn')]
  rw [hlinks]
  constructor
  · refine isChain_split.mpr ⟨isChain_update_next hp p hnextBefore, ?_⟩
    refine isChain_cons_cons.mpr ⟨Function.update_self .., ?_⟩
    exact isChain_update_next_of_not_mem (by simp [hps, hpafter]) hnextAfter
  · refine isChain_split.mpr ⟨isChain_update_prev_of_not_mem ?_ hprevBefore, ?_⟩
    · simp [hs, Ne.symm hps]
    · exact isChain_cons_cons.mpr ⟨Function.update_self .., isChain_update_prev hsafter hprevAfter⟩
  · refine h.distinct.sublist (List.Sublist.append_left ?_ before)
    exact (sublist_cons_self n _).cons_cons p

theorem Chained.erase {first last n : Nat} {before after : List Nat}
    (h : t.Chained (first :: (before ++ n :: after) ++ [last])) :
    (t.unlink n).Chained (first :: (before ++ after) ++ [last]) := by
  obtain ⟨init, p, hinit⟩ : ∃ init p, first :: before = init ++ [p] := by
    rcases eq_nil_or_concat (first :: before) with hnil | ⟨init, p, hsnoc⟩
    · cases hnil
    · exact ⟨init, p, by rw [hsnoc, concat_eq_append]⟩
  obtain ⟨s, tail, htail⟩ : ∃ s tail, after ++ [last] = s :: tail :=
    exists_cons_of_ne_nil (by simp)
  have hfull : first :: (before ++ n :: after) ++ [last] = init ++ p :: n :: s :: tail := by
    rw [← cons_append, hinit]
    simp only [append_assoc, cons_append, htail]
    simp
  have hrest : first :: (before ++ after) ++ [last] = init ++ p :: s :: tail := by
    rw [← cons_append, hinit]
    simp only [append_assoc, htail]
    simp
  rw [hfull] at h
  rw [hrest]
  exact h.unlink

theorem Chained.insert {front first n : Nat} {after : List Nat} (h : t.Chained (front :: first :: after))
    (hn : n ∉ front :: first :: after) : (t.insert front n).Chained (front :: n :: first :: after) := by
  obtain ⟨hfirst, hnext⟩ := isChain_cons_cons.mp h.next
  obtain ⟨-, hprev⟩ := isChain_cons_cons.mp h.prev
  obtain ⟨hfront, hafter⟩ := nodup_cons.mp h.distinct
  obtain ⟨hfirstAfter, -⟩ := nodup_cons.mp hafter
  simp only [mem_cons, not_or] at hn hfront
  obtain ⟨hnfront, hnfirst, hnafter⟩ := hn
  have hlinks : t.insert front n =
      { next := Function.update (Function.update t.next n first) front n
        prev := Function.update (Function.update t.prev first n) n front } := by
    simp only [Links.insert, hfirst]
  rw [hlinks]
  constructor
  · refine isChain_cons_cons.mpr ⟨Function.update_self .., isChain_cons_cons.mpr ⟨?_, ?_⟩⟩
    · exact (Function.update_of_ne hnfront _ _).trans (Function.update_self ..)
    · refine isChain_update_next_of_not_mem (by simp [hfront]) ?_
      exact isChain_update_next_of_not_mem (by simp [hnfirst, hnafter]) hnext
  · refine isChain_cons_cons.mpr ⟨Function.update_self .., isChain_cons_cons.mpr ⟨?_, ?_⟩⟩
    · exact (Function.update_of_ne (Ne.symm hnfirst) _ _).trans (Function.update_self ..)
    · refine isChain_update_prev_of_not_mem (by simp [hnfirst, hnafter]) ?_
      exact isChain_update_prev hfirstAfter hprev
  · refine nodup_cons.mpr ⟨?_, nodup_cons.mpr ⟨?_, hafter⟩⟩
    · simp [Ne.symm hnfront, hfront]
    · simp [hnfirst, hnafter]

theorem Chained.prev_last {init : List Nat} {p last : Nat} (h : t.Chained (init ++ [p, last])) :
    t.prev last = p := by
  have hpair := (isChain_split.mp h.prev).2
  exact (isChain_cons_cons.mp hpair).1

theorem Chained.update {nodes : List Nat} {n : Nat} (h : t.Chained nodes) (hn : n ∉ nodes) (p s : Nat) :
    Chained { prev := Function.update t.prev n p, next := Function.update t.next n s } nodes where
  next := isChain_update_next_of_not_mem hn h.next
  prev := isChain_update_prev_of_not_mem hn h.prev
  distinct := h.distinct

end Links

end Alba.ProofKit
