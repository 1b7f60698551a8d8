import Mathlib

/-! Pieces that follow each other without a gap. -/

namespace Alba.ProofKit

open List

variable {α β : Type}

/-- The pieces cover `length` places from `start` on, one after the other and none of them empty; `good`
says what the piece that starts at a place has to be. -/
def Tiles (width : α → Nat) (good : Nat → α → Prop) : Nat → Nat → List α → Prop
  | _, length, [] => length = 0
  | start, length, x :: rest =>
    0 < width x ∧ width x ≤ length ∧ good start x ∧
      Tiles width good (start + width x) (length - width x) rest

namespace Tiles

variable {width : α → Nat} {good : Nat → α → Prop} {start length : Nat} {xs : List α}

theorem append {length' : Nat} {ys : List α} (hx : Tiles width good start length xs)
    (hy : Tiles width good (start + length) length' ys) :
    Tiles width good start (length + length') (xs ++ ys) := by
  induction xs generalizing start length with
  | nil =>
    cases hx
    simpa using hy
  | cons x xs ih =>
    obtain ⟨hpos, hle, hgood, hrest⟩ := hx
    refine ⟨hpos, by omega, hgood, ?_⟩
    have hlength : length + length' - width x = length - width x + length' := by omega
    rw [hlength]
    exact ih hrest (by rwa [Nat.add_assoc, Nat.add_sub_of_le hle])

section

variable (h : Tiles width good start length xs)
include h

theorem shift {good' : Nat → α → Prop} {d : Nat}
    (hgood : ∀ p x, good p x → good' (p + d) x) : Tiles width good' (start + d) length xs := by
  induction xs generalizing start length with
  | nil => exact h
  | cons x xs ih =>
    obtain ⟨hpos, hle, hx, hrest⟩ := h
    exact ⟨hpos, hle, hgood _ _ hx, by rw [Nat.add_right_comm]; exact ih hrest⟩

theorem sum_width : (xs.map width).sum = length := by
  induction xs generalizing start length with
  | nil => exact h.symm
  | cons x xs ih =>
    obtain ⟨_, hle, _, hrest⟩ := h
    rw [map_cons, sum_cons, ih hrest]
    omega

theorem bounded :
    Tiles width (fun p x => good p x ∧ 0 < width x ∧ p + width x ≤ start + length) start length xs := by
  induction xs generalizing start length with
  | nil => exact h
  | cons x xs ih =>
    obtain ⟨hpos, hle, hx, hrest⟩ := h
    have hend : start + width x + (length - width x) = start + length := by omega
    have hrest := ih hrest
    rw [hend] at hrest
    exact ⟨hpos, hle, ⟨hx, hpos, by omega⟩, hrest⟩

theorem mem {x : α} (hx : x ∈ xs) :
    ∃ p, good p x ∧ 0 < width x ∧ start ≤ p ∧ p + width x ≤ start + length := by
  induction xs generalizing start length with
  | nil => cases hx
  | cons y xs ih =>
    obtain ⟨hpos, hle, hgood, hrest⟩ := h
    rcases mem_cons.mp hx with rfl | hx
    · exact ⟨start, hgood, hpos, Nat.le_refl _, by omega⟩
    · obtain ⟨p, hp, hwidth, hlow, hhigh⟩ := ih hrest hx
      exact ⟨p, hp, hwidth, by omega, by omega⟩

theorem covers {p : Nat} (hlow : start ≤ p)
    (hhigh : p < start + length) : ∃ x ∈ xs, ∃ q, good q x ∧ q ≤ p ∧ p < q + width x := by
  induction xs generalizing start length with
  | nil =>
    cases h
    omega
  | cons y xs ih =>
    obtain ⟨hpos, hle, hgood, hrest⟩ := h
    by_cases hp : p < start + width y
    · exact ⟨y, mem_cons_self, start, hgood, hlow, hp⟩
    · obtain ⟨x, hx, q, hq⟩ := ih hrest (by omega) (by omega)
      exact ⟨x, mem_cons_of_mem _ hx, q, hq⟩

theorem flatten {width' : β → Nat} {good' : Nat → β → Prop} {parts : List (List β)}
    (hparts : List.Forall₂
      (fun x part => ∀ p, good p x → Tiles width' good' p (width x) part) xs parts) :
    Tiles width' good' start length parts.flatten := by
  induction hparts generalizing length start with
  | nil => exact h
  | cons hpart _ ih =>
    obtain ⟨_, hle, hgood, hrest⟩ := h
    rw [← Nat.add_sub_of_le hle, flatten_cons]
    exact append (hpart start hgood) (ih hrest)

end

end Tiles

theorem getElem?_flatMap_block {xs : List α} {g : α → List β} {i q : Nat} {x : α}
    (hx : xs[i]? = some x) (hq : q < (g x).length) :
    (xs.flatMap g)[((xs.take i).map fun x => (g x).length).sum + q]? = (g x)[q]? := by
  induction xs generalizing i with
  | nil => simp at hx
  | cons y xs ih =>
    rw [flatMap_cons]
    cases i with
    | zero =>
      cases hx
      simp [getElem?_append_left hq]
    | succ i =>
      rw [take_succ_cons, map_cons, sum_cons, Nat.add_assoc,
        getElem?_append_right (Nat.le_add_right _ _), Nat.add_sub_cancel_left]
      exact ih hx

end Alba.ProofKit
