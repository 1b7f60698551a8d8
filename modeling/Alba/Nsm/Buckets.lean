import Alba.Nsm.Change

/-! The counts of a bucket. The source counts the osds of each node in a hash table as it goes over a
chunk; here that count is shown to be the largest number of fragments on one node. -/

namespace Alba.Nsm

open ProofKit Std List

section Counts

variable {node : OsdId → Option Bytes}

theorem foldr_max_le_iff {l : List Nat} {b : Nat} : l.foldr max 0 ≤ b ↔ ∀ x ∈ l, x ≤ b := by
  induction l with
  | nil => simp
  | cons x l ih => simp [ih]

theorem maxOnNode_le_iff {chunk : List Fragment} {b : Nat} :
    maxOnNode node chunk ≤ b ↔ ∀ n, countOnNode node chunk n ≤ b := by
  rw [maxOnNode, foldr_max_le_iff]
  constructor
  · intro h n
    rcases Nat.eq_zero_or_pos (countOnNode node chunk n) with hzero | hpos
    · omega
    · obtain ⟨f, hf, hn⟩ := countP_pos_iff.mp hpos
      refine h _ (mem_map_of_mem (mem_filterMap.mpr ⟨f, hf, ?_⟩))
      simpa using hn
  · intro h x hx
    obtain ⟨n, _, rfl⟩ := mem_map.mp hx
    exact h n

theorem countOnNode_append (p : List Fragment) (f : Fragment) (n : Bytes) :
    countOnNode node (p ++ [f]) n =
      countOnNode node p n + if f.osd.bind node = some n then 1 else 0 := by
  simp [countOnNode, countP_append, countP_cons]

theorem locatedCount_append (p : List Fragment) (f : Fragment) :
    locatedCount (p ++ [f]) = locatedCount p + if f.osd.isSome then 1 else 0 := by
  simp [locatedCount, countP_append, countP_cons]

theorem maxOnNode_append {p : List Fragment} {f : Fragment} {n : Bytes}
    (hn : f.osd.bind node = some n) :
    maxOnNode node (p ++ [f]) = max (maxOnNode node p) (countOnNode node p n + 1) := by
  refine eq_of_forall_ge_iff fun b => ?_
  rw [Nat.max_le, maxOnNode_le_iff, maxOnNode_le_iff]
  simp only [countOnNode_append, hn, Option.some.injEq]
  constructor
  · intro h
    refine ⟨fun m => ?_, ?_⟩
    · have := h m
      omega
    · simpa using h n
  · rintro ⟨hall, hlast⟩ m
    by_cases hm : n = m
    · subst hm
      simpa using hlast
    · simpa [hm] using hall m

theorem maxOnNode_append_none {p : List Fragment} {f : Fragment} (hn : f.osd.bind node = none) :
    maxOnNode node (p ++ [f]) = maxOnNode node p := by
  refine eq_of_forall_ge_iff fun b => ?_
  rw [maxOnNode_le_iff, maxOnNode_le_iff]
  simp [countOnNode_append, hn]

end Counts

section Source

variable {kv : Store}

theorem getOsdInfo_node {d : OsdId} {info : OsdInfo} (h : getOsdInfo kv d = .ok info) :
    nodeOf kv d = some info.nodeId := by
  simp only [getOsdInfo, kvGetExn, bind_eq_ok] at h
  obtain ⟨v, hv, hinfo⟩ := h
  split at hv
  · rename_i hget
    cases hv
    cases v <;> simp [asOsdInfo] at hinfo
    rw [nodeOf, hget, hinfo]
  · cases hv

/-- What the fold over a chunk holds after the fragments `p`. -/
structure Counted (kv : Store) (p : List Fragment) (s : ExtTreeMap Bytes Nat × Nat × Nat) :
    Prop where
  perNode : ∀ n, s.1.getD n 0 = countOnNode (nodeOf kv) p n
  count : s.2.1 = locatedCount p
  most : s.2.2 = maxOnNode (nodeOf kv) p
  known : ∀ f ∈ p, ∀ d, f.osd = some d → (nodeOf kv d).isSome

theorem Counted.step {p : List Fragment} {s s' : ExtTreeMap Bytes Nat × Nat × Nat} {f : Fragment}
    (hs : Counted kv p s) (h : countFragment kv s f = .ok s') : Counted kv (p ++ [f]) s' := by
  unfold countFragment at h
  split at h
  · rename_i hosd
    cases h
    constructor
    · intro n
      rw [hs.perNode, countOnNode_append]
      simp [hosd]
    · rw [hs.count, locatedCount_append]
      simp [hosd]
    · rw [hs.most, maxOnNode_append_none (by simp [hosd])]
    · intro g hg d hd
      rcases mem_append.mp hg with hg | hg
      · exact hs.known g hg d hd
      · rw [mem_singleton.mp hg, hosd] at hd
        cases hd
  · rename_i osdId hosd
    simp only [bind_eq_ok] at h
    obtain ⟨info, hinfo, h⟩ := h
    cases h
    have hnode := getOsdInfo_node hinfo
    have hbind : f.osd.bind (nodeOf kv) = some info.nodeId := by simp [hosd, hnode]
    constructor
    · intro n
      rw [countOnNode_append, hbind, ← hs.perNode n]
      by_cases hn : info.nodeId = n
      · simp [hn]
      · simp [ExtTreeMap.getD_insert, hn]
    · simp [locatedCount_append, hosd, hs.count]
    · rw [maxOnNode_append hbind, ← hs.most, ← hs.perNode]
    · intro g hg d hd
      rcases mem_append.mp hg with hg | hg
      · exact hs.known g hg d hd
      · rw [mem_singleton.mp hg, hosd] at hd
        cases hd
        simp [hnode]

theorem getBlaPerChunk_eq {chunk : List Fragment} {counts : Nat × Nat}
    (h : getBlaPerChunk kv chunk = .ok counts) :
    counts = (locatedCount chunk, maxOnNode (nodeOf kv) chunk) ∧
      ∀ f ∈ chunk, ∀ d, f.osd = some d → (nodeOf kv d).isSome := by
  simp only [getBlaPerChunk, bind_eq_ok] at h
  obtain ⟨s, hs, h⟩ := h
  cases h
  have start : Counted kv [] (∅, 0, 0) :=
    ⟨by simp [countOnNode], rfl, rfl, by simp⟩
  have final := foldlM_invariant (fun _ _ _ _ h => h.step) start hs
  exact ⟨Prod.ext final.count final.most, final.known⟩

theorem countChunk_eq {chunk : List Fragment} {s s' : Nat × Nat} (h : countChunk kv s chunk = .ok s') :
    s' = (min s.1 (locatedCount chunk), max s.2 (maxOnNode (nodeOf kv) chunk)) ∧
      ∀ f ∈ chunk, ∀ d, f.osd = some d → (nodeOf kv d).isSome := by
  simp only [countChunk, bind_eq_ok] at h
  obtain ⟨counts, hcounts, h⟩ := h
  cases h
  obtain ⟨rfl, hknown⟩ := getBlaPerChunk_eq hcounts
  exact ⟨rfl, hknown⟩

/-- The counts that the source computes are those of the chunks and the stored nodes, and the node
of every osd in use is stored. -/
theorem getMinFragmentCountAndMaxDisksPerNode_eq {cache : Option (BitVec 64 × Preset)} {k m : Int}
    {fragments : Layout Fragment} {validate : Bool} {counts : Nat × Nat}
    (h : getMinFragmentCountAndMaxDisksPerNode cache kv k m fragments validate = .ok counts) :
    counts = countsOf (nodeOf kv) fragments ∧
      ∀ f ∈ fragments.flatten, ∀ d, f.osd = some d → (nodeOf kv d).isSome := by
  simp only [getMinFragmentCountAndMaxDisksPerNode, bind_eq_ok] at h
  obtain ⟨found, hfold, _, _, _, _, h⟩ := h
  cases h
  have keep : ∀ (p : Layout Fragment) (s : Nat × Nat) (chunk : List Fragment) (s' : Nat × Nat),
      (s = countsOf (nodeOf kv) p ∧
        ∀ f ∈ p.flatten, ∀ d, f.osd = some d → (nodeOf kv d).isSome) →
      countChunk kv s chunk = .ok s' → s' = countsOf (nodeOf kv) (p ++ [chunk]) ∧
        ∀ f ∈ (p ++ [chunk]).flatten, ∀ d, f.osd = some d → (nodeOf kv d).isSome := by
    rintro p s chunk s' ⟨rfl, hknown⟩ hstep
    obtain ⟨rfl, hchunk⟩ := countChunk_eq hstep
    refine ⟨by simp [countsOf], fun f hf => ?_⟩
    rw [flatten_append, mem_append] at hf
    rcases hf with hf | hf
    · exact hknown f hf
    · exact hchunk f (by simpa using hf)
  have start : ((maxInt, 0) : Nat × Nat) = countsOf (nodeOf kv) [] ∧
      ∀ f ∈ ([] : Layout Fragment).flatten, ∀ d, f.osd = some d → (nodeOf kv d).isSome :=
    ⟨rfl, by simp⟩
  exact foldlM_invariant keep start hfold

end Source

end Alba.Nsm
