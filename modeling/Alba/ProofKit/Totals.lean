import Alba.ProofKit.UpdateList

/-! Totals over a store: sums over its entries, and how they and the counters kept beside them
change when the store changes. -/

set_option linter.unusedSectionVars false

namespace Alba.ProofKit

open Std

variable {κ K V M : Type}

section Total

variable [Ord K] [TransOrd K] [LawfulEqOrd K] [DecidableEq K] [AddCommGroup M] {g : K → V → M}
  {kv : ExtTreeMap K V}

/-- The sum of `g` over the entries of a store. -/
def total (g : K → V → M) (kv : ExtTreeMap K V) : M := (kv.toList.map fun e => g e.1 e.2).sum

def share (g : K → V → M) (kv : ExtTreeMap K V) (k : K) : M := (kv[k]?).elim 0 (g k)

def keySet (kv : ExtTreeMap K V) : Finset K := (kv.toList.map Prod.fst).toFinset

theorem share_of_not_mem {k : K} (h : k ∉ keySet kv) : share g kv k = 0 := by
  unfold share
  cases hk : kv[k]? with
  | none => rfl
  | some v =>
    refine absurd ?_ h
    rw [keySet, List.mem_toFinset, List.mem_map]
    exact ⟨(k, v), ExtTreeMap.mem_toList_iff_getElem?_eq_some.mpr hk, rfl⟩

theorem keys_nodup (kv : ExtTreeMap K V) : (kv.toList.map Prod.fst).Nodup := by
  rw [List.nodup_iff_pairwise_ne, List.pairwise_map]
  exact (ExtTreeMap.distinct_keys_toList (t := kv)).imp fun h he => h (by simp [he])

theorem total_eq_sum_keys (g : K → V → M) (kv : ExtTreeMap K V) :
    total g kv = ∑ k ∈ keySet kv, share g kv k := by
  rw [keySet, List.sum_toFinset _ (keys_nodup kv), total, List.map_map]
  congr 1
  refine List.map_congr_left fun e he => ?_
  have hget : kv[e.1]? = some e.2 := ExtTreeMap.mem_toList_iff_getElem?_eq_some.mp he
  simp [share, hget]

theorem total_eq_sum {s : Finset K} (h : keySet kv ⊆ s) : total g kv = ∑ k ∈ s, share g kv k := by
  rw [total_eq_sum_keys]
  exact Finset.sum_subset h fun k _ hk => share_of_not_mem hk

/-- Two stores that agree outside `s` differ in a total by their shares in `s`. -/
theorem total_change {kv kv' : ExtTreeMap K V} (s : Finset K)
    (h : ∀ k ∉ s, share g kv' k = share g kv k) :
    total g kv' = total g kv + ∑ k ∈ s, (share g kv' k - share g kv k) := by
  have hold : total g kv = ∑ k ∈ keySet kv ∪ keySet kv' ∪ s, share g kv k :=
    total_eq_sum fun k hk => by simp [hk]
  have hnew : total g kv' = ∑ k ∈ keySet kv ∪ keySet kv' ∪ s, share g kv' k :=
    total_eq_sum fun k hk => by simp [hk]
  have hdiff : ∑ k ∈ s, (share g kv' k - share g kv k) =
      ∑ k ∈ keySet kv ∪ keySet kv' ∪ s, (share g kv' k - share g kv k) :=
    Finset.sum_subset Finset.subset_union_right fun k _ hk => by rw [h k hk, sub_self]
  rw [hold, hnew, hdiff, ← Finset.sum_add_distrib]
  exact Finset.sum_congr rfl fun k _ => by abel

theorem total_of_share_eq {kv kv' : ExtTreeMap K V} (h : ∀ k, share g kv' k = share g kv k) :
    total g kv' = total g kv := by
  simpa using total_change ∅ fun k _ => h k

@[simp] theorem total_empty (g : K → V → M) : total g (∅ : ExtTreeMap K V) = 0 := by
  rw [total_eq_sum_keys]
  exact Finset.sum_eq_zero fun k _ => by simp [share]

theorem total_eq_finsum (g : K → V → M) (kv : ExtTreeMap K V) : total g kv = ∑ᶠ k, share g kv k := by
  rw [total_eq_sum_keys]
  refine (finsum_eq_sum_of_support_subset _ fun k hk => ?_).symm
  by_contra hnot
  exact hk (share_of_not_mem hnot)

theorem total_eq_of_families {ι : Type} {g g' : K → V → M} {d e : ι → K} (hd : Function.Injective d)
    (he : Function.Injective e) (hzero : ∀ k ∉ Set.range d, share g kv k = 0)
    (hzero' : ∀ k ∉ Set.range e, share g' kv k = 0) (h : ∀ i, share g kv (d i) = share g' kv (e i)) :
    total g kv = total g' kv := by
  have along : ∀ (f : K → V → M) (d : ι → K), Function.Injective d →
      (∀ k ∉ Set.range d, share f kv k = 0) → total f kv = ∑ᶠ i, share f kv (d i) := by
    intro f d hd hout
    have hsupport : ∀ k ∈ Function.support (share f kv), k ∈ Set.univ ↔ k ∈ Set.range d := by
      intro k hk
      have hin : k ∈ Set.range d := by
        by_contra hnot
        exact hk (hout k hnot)
      simp [hin]
    rw [total_eq_finsum, ← finsum_mem_univ, finsum_mem_inter_support_eq' _ _ _ hsupport,
      finsum_mem_range hd]
  rw [along g d hd hzero, along g' e he hzero']
  exact finsum_congr h

end Total

theorem total_count [Ord K] [TransOrd K] [AddCommGroupWithOne M] (p : K → Prop)
    [DecidablePred p] (kv : ExtTreeMap K V) :
    total (fun k _ => if p k then (1 : M) else 0) kv = ((kv.keys.filter p).length : M) := by
  rw [total, ← ExtTreeMap.map_fst_toList_eq_keys]
  induction kv.toList with
  | nil => simp
  | cons e es ih =>
    by_cases he : p e.1
    · simp [he, ih, add_comm]
    · simp [he, ih]

section Counters

variable [DecidableEq κ] [CounterValue V]

/-- What an update adds to the counter `k`. -/
def Update.added (k : κ) : Update κ V → BitVec 64
  | .transform k' (.add x) => if k' = k then x else 0
  | _ => 0

/-- What a list of updates adds to the counter `k`. -/
def addedTo (k : κ) (us : List (Update κ V)) : BitVec 64 := (us.map (Update.added k)).sum

@[simp] theorem addedTo_nil (k : κ) : addedTo k ([] : List (Update κ V)) = 0 := rfl

@[simp] theorem addedTo_cons (k : κ) (u : Update κ V) (us : List (Update κ V)) :
    addedTo k (u :: us) = u.added k + addedTo k us := by simp [addedTo]

@[simp] theorem addedTo_append (k : κ) (us vs : List (Update κ V)) :
    addedTo k (us ++ vs) = addedTo k us + addedTo k vs := by simp [addedTo]

theorem addedTo_perm {k : κ} {us vs : List (Update κ V)} (h : us.Perm vs) :
    addedTo k us = addedTo k vs :=
  (h.map _).sum_eq

theorem runKey_counter {k : κ} {us : List (Update κ V)} (h : ∀ v, .set k v ∉ us)
    (x : BitVec 64) : runKey k us (counter x) = counter (x + addedTo k us) := by
  induction us generalizing x with
  | nil => simp
  | cons u us ih =>
    have hrest : ∀ v, .set k v ∉ us := fun v hv => h v (List.mem_cons_of_mem _ hv)
    rw [runKey_cons, addedTo_cons]
    cases u with
    | assert => simpa [Update.act, Update.added] using ih hrest x
    | set k' v =>
      have hne : ¬k' = k := fun he => h v (by simp [he])
      simpa [Update.act, Update.added, hne] using ih hrest x
    | transform k' t =>
      obtain ⟨y⟩ := t
      by_cases hk : k' = k
      · simpa [Update.act, Update.added, hk, BitVec.add_assoc] using ih hrest (x + y)
      · simpa [Update.act, Update.added, hk] using ih hrest x

end Counters

end Alba.ProofKit
