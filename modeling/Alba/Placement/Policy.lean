import Alba.Nsm.Buckets
import Alba.Nsm.Layouts
import Alba.ProofKit.Groups

/-! Policies: how many osds of a namespace a policy can use when it takes a limited number of each node,
which policy of a preset is applied, and how safe the objects of a bucket are when some osds are dead. -/

namespace Alba.Placement

open ProofKit Nsm List

/-- `Policy.get_applicable_osd_count`. -/
def getApplicableOsdCount (maxOsdsPerNode : Int) (osds : List (OsdId × Bytes)) : Int :=
  (groupBy Prod.snd osds).toList.foldl (fun acc e => acc + min maxOsdsPerNode e.2.length) 0

section Counting

variable {osds : List (OsdId × Bytes)}

theorem foldl_add_eq_sum {α : Type} (g : α → Int) (l : List α) (start : Int) :
    l.foldl (fun acc a => acc + g a) start = start + (l.map g).sum := by
  induction l generalizing start with
  | nil => simp
  | cons a l ih =>
    rw [foldl_cons, ih, map_cons, sum_cons, Int.add_assoc]

theorem getApplicableOsdCount_eq {maxOsdsPerNode : Int} (h : 0 ≤ maxOsdsPerNode) :
    getApplicableOsdCount maxOsdsPerNode osds = cappedCount maxOsdsPerNode Prod.snd osds := by
  rw [getApplicableOsdCount, foldl_add_eq_sum, Int.zero_add,
    sum_groupBy Prod.snd osds (g := fun group => min maxOsdsPerNode group.length) (by simpa using h)
      (by simp)]
  refine Finset.sum_congr rfl fun k _ => ?_
  rw [countP_eq_length_filter]

end Counting

/-! ### Disk safety -/

structure BucketSafety where
  bucket : Policy
  count : Int
  applicableDeadOsds : Int
  remainingSafety : Int

/-- `Disk_safety.get_namespace_safety`, with the nodes of the osds and the counts of the buckets as the
clients read them. -/
def getNamespaceSafety (node : OsdId → Bytes) (deadNsOsds : List OsdId) (bucketCount : List (Policy × Int)) :
    List BucketSafety :=
  let osdsWithNodeId := deadNsOsds.map fun osdId => (osdId, node osdId)
  let safeties := (bucketCount.filter fun e => e.2 > 0).map fun e =>
    let applicableDeadOsds := getApplicableOsdCount e.1.maxDisksPerNode osdsWithNodeId
    { bucket := e.1
      count := e.2
      applicableDeadOsds
      remainingSafety := max (e.1.fragmentCount - e.1.k - applicableDeadOsds) (-e.1.k) : BucketSafety }
  safeties.mergeSort fun s₁ s₂ => s₁.remainingSafety ≤ s₂.remainingSafety

def livingCount (dead : List OsdId) (chunk : List Fragment) : Nat :=
  chunk.countP fun f => f.osd.any fun d => d ∉ dead

section Safety

variable {chunk : List Fragment}

def chunkOsds (chunk : List Fragment) : List OsdId := chunk.filterMap fun f => f.osd

theorem nodup_of_spread {manifest : Manifest} (h : checkFragmentOsdSpread manifest = .ok ())
    (hchunk : chunk ∈ manifest.fragments) : (chunkOsds chunk).Nodup := by
  have hfold := forM_eq_ok h chunk hchunk
  rw [bind_eq_ok] at hfold
  obtain ⟨seen, hseen, _⟩ := hfold
  refine (foldlM_invariant (P := fun p (acc : DeviceSet) =>
    (chunkOsds p).Nodup ∧ ∀ d, d ∈ acc ↔ d ∈ chunkOsds p) ?_ (p := []) (by simp [chunkOsds]) hseen).1
  intro p acc f acc' ⟨hnodup, hacc⟩ hstep
  have hosds : chunkOsds (p ++ [f]) = chunkOsds p ++ f.osd.toList := by
    cases hosd : f.osd <;> simp [chunkOsds, hosd]
  rw [hosds]
  cases hosd : f.osd with
  | none =>
    rw [hosd] at hstep
    cases hstep
    simpa using ⟨hnodup, hacc⟩
  | some osdId =>
    simp only [hosd] at hstep
    split at hstep
    · cases hstep
    · rename_i hnew
      cases hstep
      rw [hacc] at hnew
      refine ⟨nodup_append.mpr ⟨hnodup, by simp, ?_⟩, fun d => ?_⟩
      · intro a ha b hb hab
        rw [Option.toList_some, mem_singleton] at hb
        exact hnew (hb ▸ hab ▸ ha)
      · rw [DeviceSet.mem_add, hacc, mem_append]
        simp [or_comm]

theorem locatedCount_eq (dead : List OsdId) (chunk : List Fragment) :
    locatedCount chunk = livingCount dead chunk + ((chunkOsds chunk).filter fun d => d ∈ dead).length := by
  induction chunk with
  | nil => rfl
  | cons f chunk ih =>
    unfold locatedCount livingCount at ih ⊢
    rw [countP_cons, countP_cons]
    cases hosd : f.osd with
    | none =>
      have hcons : chunkOsds (f :: chunk) = chunkOsds chunk := filterMap_cons_none hosd
      simp [hcons, ih]
    | some d =>
      have hcons : chunkOsds (f :: chunk) = d :: chunkOsds chunk := filterMap_cons_some hosd
      by_cases hd : d ∈ dead
      · simp [hcons, hd, ih]
        omega
      · simp [hcons, hd, ih]
        omega

theorem countP_node_le {node : OsdId → Bytes} {kv : Store} (dead : List OsdId) (n : Bytes)
    (hnode : ∀ f ∈ chunk, ∀ d, f.osd = some d → nodeOf kv d = some (node d)) :
    ((chunkOsds chunk).filter fun d => d ∈ dead).countP (fun d => node d = n) ≤
      countOnNode (nodeOf kv) chunk n := by
  refine ((filter_sublist).countP_le).trans ?_
  unfold chunkOsds countOnNode
  rw [countP_filterMap]
  refine countP_mono_left fun f hf hon => ?_
  cases hd : f.osd with
  | none => simp [hd] at hon
  | some d =>
    rw [Option.bind_some, hnode f hf d hd]
    simpa [hd] using hon

theorem deadCount_le {node : OsdId → Bytes} {kv : Store} (dead : List OsdId) {maxDisksPerNode : Nat}
    (hnodup : (chunkOsds chunk).Nodup) (hmost : maxOnNode (nodeOf kv) chunk ≤ maxDisksPerNode)
    (hnode : ∀ f ∈ chunk, ∀ d, f.osd = some d → nodeOf kv d = some (node d)) :
    (((chunkOsds chunk).filter fun d => d ∈ dead).length : Int) ≤
      getApplicableOsdCount maxDisksPerNode (dead.map fun d => (d, node d)) := by
  rw [getApplicableOsdCount_eq (Int.natCast_nonneg _)]
  have hcapped : cappedCount (maxDisksPerNode : Int) Prod.snd (dead.map fun d => (d, node d)) =
      cappedCount maxDisksPerNode node dead := by
    unfold cappedCount
    rw [map_map]
    refine Finset.sum_congr rfl fun n _ => ?_
    rw [countP_map]
    rfl
  rw [hcapped]
  refine length_le_cappedCount (fun n => ?_) fun n => ?_
  · have hsub : ((chunkOsds chunk).filter fun d => d ∈ dead).Subperm dead :=
      (hnodup.filter _).subperm fun d hd => by simpa using (mem_filter.mp hd).2
    exact hsub.countP_le _
  · have hon := countP_node_le dead n hnode
    have hbound := maxOnNode_le_iff.mp hmost n
    exact_mod_cast hon.trans hbound

theorem foldl_min_le (l : List Nat) (start : Nat) :
    l.foldl min start ≤ start ∧ ∀ x ∈ l, l.foldl min start ≤ x := by
  induction l generalizing start with
  | nil => simp
  | cons x l ih =>
    obtain ⟨hstart, hrest⟩ := ih (min start x)
    refine ⟨hstart.trans (min_le_left _ _), forall_mem_cons.mpr ⟨?_, hrest⟩⟩
    exact hstart.trans (min_le_right _ _)

theorem le_foldl_max (l : List Nat) (start : Nat) :
    start ≤ l.foldl max start ∧ ∀ x ∈ l, x ≤ l.foldl max start := by
  induction l generalizing start with
  | nil => simp
  | cons x l ih =>
    obtain ⟨hstart, hrest⟩ := ih (max start x)
    refine ⟨(le_max_left _ _).trans hstart, forall_mem_cons.mpr ⟨?_, hrest⟩⟩
    exact (le_max_right _ _).trans hstart

/-- The safety that is reported for the bucket of an object is not more than the number of fragments of
any of its chunks that can be lost before the chunk is. -/
theorem remainingSafety_le (cache : Option (BitVec 64 × Preset)) (kv : Store) (manifest : Manifest)
    (k m : Int) (validate : Bool) (counts : Nat × Nat) (node : OsdId → Bytes) (dead : List OsdId)
    (bucketCount : List (Policy × Int)) (safety : BucketSafety) (chunk : List Fragment)
    (hspread : checkFragmentOsdSpread manifest = .ok ())
    (hcounts : getMinFragmentCountAndMaxDisksPerNode cache kv k m manifest.fragments validate = .ok counts)
    (hnode : ∀ f ∈ manifest.fragments.flatten, ∀ d, f.osd = some d → nodeOf kv d = some (node d))
    (hsafety : safety ∈ getNamespaceSafety node dead bucketCount)
    (hbucket : safety.bucket = ⟨k, m, counts.1, counts.2⟩) (hchunk : chunk ∈ manifest.fragments) :
    safety.remainingSafety ≤ (livingCount dead chunk : Int) - k := by
  obtain ⟨rfl, _⟩ := getMinFragmentCountAndMaxDisksPerNode_eq hcounts
  have hleast : (countsOf (nodeOf kv) manifest.fragments).1 ≤ locatedCount chunk :=
    (foldl_min_le _ _).2 _ (mem_map_of_mem hchunk)
  have hmost : maxOnNode (nodeOf kv) chunk ≤ (countsOf (nodeOf kv) manifest.fragments).2 :=
    (le_foldl_max _ _).2 _ (mem_map_of_mem hchunk)
  have hdead := deadCount_le dead (nodup_of_spread hspread hchunk) hmost fun f hf =>
    hnode f (mem_flatten.mpr ⟨chunk, hchunk, hf⟩)
  have hlocated := locatedCount_eq dead chunk
  simp only [getNamespaceSafety, mem_mergeSort, mem_map] at hsafety
  obtain ⟨⟨bucket, count⟩, _, rfl⟩ := hsafety
  subst hbucket
  refine max_le ?_ ?_
  · simp only
    omega
  · simp only
    omega

/-- Two fragments on a node and one on another, one of the first two being lost. -/
def threeFragments : Manifest where
  name := ascii ['a']
  objectId := ascii ['x']
  storageScheme := { k := 2, m := 1, w := .w8, compression := .noCompression }
  encryptInfo := .noEncryption
  chunkSizes := [32]
  size := 32
  checksum := .noChecksum
  fragments := [[1, 2, 3].map fun osdId =>
    { osd := some osdId, ver := 0, crc := .noChecksum, len := 16, ctr := none, fnr := none }]
  versionId := 0
  maxDisksPerNode := 2
  timestamp := { bits := 0 }
  counted := by decide

def nodeOfThree (osdId : OsdId) : Bytes := if osdId = 3 then ascii ['q'] else ascii ['p']

def threeOsds : Store :=
  [1, 2, 3].foldl (fun kv osdId => kv.insert (Key.osdInfo osdId).encode (.osdInfo ⟨nodeOfThree osdId⟩)) ∅

theorem remainingSafety_threeFragments :
    max (3 - 2 - getApplicableOsdCount 2 [((2 : OsdId), nodeOfThree 2)]) (-2) ≤
      (livingCount [2] threeFragments.fragments.flatten : Int) - 2 :=
  remainingSafety_le none threeOsds threeFragments 2 1 false (3, 2) nodeOfThree [2] [(⟨2, 1, 3, 2⟩, 1)]
    ⟨⟨2, 1, 3, 2⟩, 1, getApplicableOsdCount 2 [(2, nodeOfThree 2)], _⟩ threeFragments.fragments.flatten
    (by decide +kernel) (by decide +kernel) (by decide +kernel)
    (by simp [getNamespaceSafety]) rfl (by decide +kernel)

end Safety

end Alba.Placement
