import Alba.Placement.Choose

/-! The number of osds that are needed of a node: after `j` rounds the possible fragments are the osds with
at most `j` of each node. -/

namespace Alba.Placement

open ProofKit Nsm List

section Rounds

variable {α : Type}

/-- The elements of the lists with at most `j` of each. -/
def upTo (j : Nat) (lists : List (List α)) : Int := (lists.map fun l => ((min j l.length : Nat) : Int)).sum

@[simp] theorem upTo_nil (j : Nat) : upTo j ([] : List (List α)) = 0 := rfl

@[simp] theorem upTo_cons (j : Nat) (l : List α) (lists : List (List α)) :
    upTo j (l :: lists) = (min j l.length : Nat) + upTo j lists := by
  simp [upTo]

/-- One round of the search and `j` more are `j + 1` rounds. -/
theorem upTo_peel (j : Nat) (lists : List (List α)) (c : Int) :
    (peel lists c).2 + upTo j (peel lists c).1 = c + upTo (j + 1) lists := by
  have h : ∀ (lists acc : List (List α)) (c : Int),
      (lists.foldl peelNode (acc, c)).2 + upTo j (lists.foldl peelNode (acc, c)).1 =
        c + upTo (j + 1) lists + upTo j acc := by
    intro lists
    induction lists with
    | nil => simp
    | cons l lists ih =>
      intro acc c
      cases l with
      | nil => simpa [peelNode] using ih acc c
      | cons x tl =>
        have hround := ih (tl :: acc) (c + 1)
        simp only [foldl_cons, peelNode, upTo_cons, length_cons] at hround ⊢
        omega
  simpa [peel] using h lists [] c

theorem peel_count (lists : List (List α)) (c : Int) : (peel lists c).2 = c + upTo 1 lists := by
  have h : _ = c + upTo 1 lists := upTo_peel 0 lists c
  have hzero : upTo 0 (peel lists c).1 = 0 := by simp [upTo]
  omega

theorem requiredInner_eq_some {desired : Int} {fuel : Nat} {lists : List (List α)} {start c p : Int}
    (h : requiredInner desired fuel lists start c = some p) :
    ∃ j : Nat, p = start + j ∧ desired ≤ c + upTo (j + 1) lists ∧
      ∀ i < j, c + upTo (i + 1) lists < desired := by
  induction fuel generalizing lists start c with
  | zero => cases h
  | succ fuel ih =>
    simp only [requiredInner] at h
    have hcount := peel_count lists c
    split at h
    · rename_i henough
      cases h
      exact ⟨0, by simp, by simpa [← hcount] using henough, by simp⟩
    · rename_i hmore
      obtain ⟨j, rfl, henough, hleast⟩ := ih h
      refine ⟨j + 1, by push_cast; omega, ?_, fun i hi => ?_⟩
      · have := upTo_peel (j + 1) lists c
        omega
      · cases i with
        | zero => simpa [← hcount] using hmore
        | succ i =>
          have := upTo_peel (i + 1) lists c
          have := hleast i (by omega)
          omega

theorem requiredInner_terminates {desired : Int} {fuel j : Nat} {lists : List (List α)} {start c : Int}
    (henough : desired ≤ c + upTo (j + 1) lists) (hfuel : j < fuel) :
    ∃ p, requiredInner desired fuel lists start c = some p := by
  induction fuel generalizing lists start c j with
  | zero => omega
  | succ fuel ih =>
    simp only [requiredInner]
    have hcount := peel_count lists c
    split
    · exact ⟨start, rfl⟩
    · rename_i hmore
      cases j with
      | zero =>
        rw [hcount] at hmore
        exact absurd henough (by simpa using hmore)
      | succ j =>
        have := upTo_peel (j + 1) lists c
        exact ih (j := j) (by omega) (by omega)

end Rounds

section Osds

variable {osds : List (OsdId × Bytes)}

theorem upTo_groups (j : Nat) (osds : List (OsdId × Bytes)) :
    upTo j ((groupBy Prod.snd osds).toList.map Prod.snd) = cappedCount j Prod.snd osds := by
  rw [← getApplicableOsdCount_eq (Int.natCast_nonneg j), getApplicableOsdCount, foldl_add_eq_sum, Int.zero_add,
    upTo, map_map]
  congr 1
  refine map_congr_left fun e _ => ?_
  simp

theorem cappedCount_length {α κ : Type} [DecidableEq κ] (f : α → κ) (l : List α) {p : Int}
    (hp : l.length ≤ p) : cappedCount p f l = l.length := by
  rw [cappedCount, ← sum_countP_eq_length (s := (l.map f).toFinset) fun a ha =>
    mem_toFinset.mpr (mem_map_of_mem ha), Nat.cast_sum]
  refine Finset.sum_congr rfl fun k _ => min_eq_right ?_
  have := l.countP_le_length (p := fun a => f a = k)
  omega

theorem cappedCount_nonpos {α κ : Type} [DecidableEq κ] (f : α → κ) (l : List α) {p : Int} (hp : p ≤ 0) :
    cappedCount p f l ≤ 0 :=
  Finset.sum_nonpos fun _ _ => (min_le_left _ _).trans hp

theorem getApplicableOsdCount_nonpos (osds : List (OsdId × Bytes)) {p : Int} (hp : p ≤ 0) : getApplicableOsdCount p osds ≤ 0 := by
  rw [getApplicableOsdCount, foldl_add_eq_sum, Int.zero_add]
  induction (groupBy Prod.snd osds).toList with
  | nil => simp
  | cons e groups ih =>
    rw [map_cons, sum_cons]
    have := min_le_left p e.2.length
    omega

/-- `p` is the least number of osds per node that gives `cnt` fragments. -/
structure IsRequired (osds : List (OsdId × Bytes)) (cnt p : Int) : Prop where
  enough : cnt ≤ cappedCount p Prod.snd osds
  least : ∀ q < p, cappedCount q Prod.snd osds < cnt

theorem isRequired_of_some {fuel : Nat} {cnt p : Int} (hcnt : 0 < cnt)
    (h : requiredOsdsPerNode fuel osds cnt = some p) : IsRequired osds cnt p := by
  obtain ⟨j, rfl, henough, hleast⟩ := requiredInner_eq_some h
  have hgroups : ∀ i : Nat, (0 : Int) + upTo (i + 1) ((groupBy Prod.snd osds).toList.map Prod.snd) =
      cappedCount (i + 1) Prod.snd osds := by
    intro i
    rw [Int.zero_add, upTo_groups]
    push_cast
    rfl
  rw [hgroups] at henough
  refine ⟨by rwa [Int.add_comm], fun q hq => ?_⟩
  by_cases hpos : q ≤ 0
  · exact (cappedCount_nonpos Prod.snd osds hpos).trans_lt hcnt
  · have hlt := hleast (q - 1).toNat (by omega)
    rw [hgroups] at hlt
    have hq : ((q - 1).toNat : Int) + 1 = q := by omega
    rwa [hq] at hlt

theorem requiredOsdsPerNode_terminates {fuel : Nat} {cnt : Int} (hcnt : cnt ≤ osds.length)
    (hfuel : osds.length < fuel) : ∃ p, requiredOsdsPerNode fuel osds cnt = some p := by
  refine requiredInner_terminates (j := osds.length) ?_ hfuel
  rw [Int.zero_add, upTo_groups, cappedCount_length Prod.snd osds (by push_cast; omega)]
  exact hcnt

/-- `Preset.is_valid` accepts the policy. -/
def PolicyValid (policy : Policy) : Prop :=
  0 < policy.k ∧ policy.k ≤ policy.fragmentCount ∧ policy.fragmentCount ≤ policy.k + policy.m

theorem getFirstApplicablePolicy_eq_some {policies : List Policy} {policy : Policy} {cnt : Int}
    (h : getFirstApplicablePolicy policies osds = some (policy, cnt)) :
    ∃ before after, policies = before ++ policy :: after ∧
      (∀ q ∈ before, ¬q.fragmentCount ≤ getApplicableOsdCount q.maxDisksPerNode osds) ∧
      policy.fragmentCount ≤ getApplicableOsdCount policy.maxDisksPerNode osds ∧
      cnt = min (getApplicableOsdCount policy.maxDisksPerNode osds) (policy.k + policy.m) := by
  obtain ⟨before, q, after, hpolicies, hq, hbefore⟩ := findSome?_eq_some_iff.mp h
  obtain ⟨cnt', hcnt', hpair⟩ := Option.map_eq_some_iff.mp hq
  cases hpair
  unfold applicableCount at hcnt'
  obtain ⟨happlicable, hcnt'⟩ := Option.ite_none_right_eq_some.mp hcnt'
  refine ⟨before, after, hpolicies, fun r hr happ => ?_, happlicable, (Option.some.inj hcnt').symm⟩
  have hnone := hbefore r hr
  simp [applicableCount, happ] at hnone

end Osds

end Alba.Placement
