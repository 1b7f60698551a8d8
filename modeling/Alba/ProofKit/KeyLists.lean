import Mathlib

/-! Lists of keys with their values in which no key is twice, as the caches keep them in the order of
use. -/

namespace Alba.ProofKit

open List

variable {K V : Type} [DecidableEq K]

def hasKey (l : List (K × V)) (k : K) : Bool := l.any fun e => e.1 = k

def eraseKey (l : List (K × V)) (k : K) : List (K × V) := l.filter fun e => e.1 ≠ k

variable {l l' : List (K × V)} {k : K} {e : K × V}

theorem hasKey_eq_true : hasKey l k = true ↔ ∃ v, (k, v) ∈ l := by
  simp only [hasKey, any_eq_true, decide_eq_true_eq]
  constructor
  · rintro ⟨⟨k', v⟩, he, rfl⟩
    exact ⟨v, he⟩
  · rintro ⟨v, he⟩
    exact ⟨_, he, rfl⟩

theorem hasKey_eq_false : hasKey l k = false ↔ ∀ e ∈ l, e.1 ≠ k := by
  simp [hasKey]

theorem eraseKey_append : eraseKey (l ++ l') k = eraseKey l k ++ eraseKey l' k := filter_append ..

theorem mem_eraseKey : e ∈ eraseKey l k ↔ e ∈ l ∧ e.1 ≠ k := by simp [eraseKey]

theorem eraseKey_of_not_hasKey (h : hasKey l k = false) : eraseKey l k = l := by
  rw [eraseKey, filter_eq_self]
  simpa using hasKey_eq_false.mp h

def KeysNodup (l : List (K × V)) : Prop := (l.map Prod.fst).Nodup

theorem KeysNodup.eraseKey (h : KeysNodup l) : KeysNodup (eraseKey l k) :=
  h.sublist (filter_sublist.map Prod.fst)

theorem KeysNodup.snoc_eraseKey (h : KeysNodup l) (v : V) : KeysNodup (ProofKit.eraseKey l k ++ [(k, v)]) := by
  rw [KeysNodup, map_append, nodup_append]
  refine ⟨h.eraseKey, by simp, ?_⟩
  intro a ha b hb heq
  obtain ⟨e, he, rfl⟩ := mem_map.mp ha
  rw [map_singleton, mem_singleton] at hb
  exact (mem_eraseKey.mp he).2 (heq.trans hb)

theorem KeysNodup.not_hasKey_left (h : KeysNodup (l ++ l')) (hk : hasKey l' k = true) :
    hasKey l k = false := by
  rw [KeysNodup, map_append, nodup_append] at h
  obtain ⟨v, hv⟩ := hasKey_eq_true.mp hk
  refine hasKey_eq_false.mpr fun e he heq => ?_
  exact h.2.2 e.1 (mem_map_of_mem he) k (mem_map.mpr ⟨_, hv, rfl⟩) heq

theorem KeysNodup.eraseKey_eq {before after : List (K × V)} (h : KeysNodup (before ++ e :: after)) :
    ProofKit.eraseKey (before ++ e :: after) e.1 = before ++ after := by
  have hbefore : hasKey before e.1 = false := h.not_hasKey_left (by simp [hasKey])
  have hafter : hasKey after e.1 = false := by
    rw [KeysNodup, map_append, nodup_append, map_cons, nodup_cons] at h
    refine hasKey_eq_false.mpr fun x hx heq => h.2.1.1 ?_
    exact mem_map.mpr ⟨x, hx, heq⟩
  have hself : ProofKit.eraseKey (e :: after) e.1 = ProofKit.eraseKey after e.1 := by
    simp [ProofKit.eraseKey]
  rw [eraseKey_append, hself, eraseKey_of_not_hasKey hbefore, eraseKey_of_not_hasKey hafter]

theorem KeysNodup.perm_cons_eraseKey (h : KeysNodup l) (he : e ∈ l) :
    l.Perm (e :: ProofKit.eraseKey l e.1) := by
  obtain ⟨before, after, rfl⟩ := append_of_mem he
  rw [h.eraseKey_eq]
  exact perm_middle

theorem KeysNodup.length_eraseKey (h : KeysNodup l) (hk : hasKey l k = true) :
    (ProofKit.eraseKey l k).length + 1 = l.length := by
  obtain ⟨v, hv⟩ := hasKey_eq_true.mp hk
  exact (h.perm_cons_eraseKey hv).length_eq.symm

end Alba.ProofKit
