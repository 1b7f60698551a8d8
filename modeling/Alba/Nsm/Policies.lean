import Alba.Nsm.Sizes

/-! Policy accounting of a namespace: every object is marked in the bucket of its manifest, and the
count of a bucket is the number of its marks. -/

namespace Alba.Nsm

open ProofKit Std List

/-- The text that the keys of the marks in a bucket start with. -/
def bucketStart (b : Bucket) : Bytes :=
  Kind.policies.start ++ (int32BeTo b.k ++ (int32BeTo b.m ++ (int32BeTo b.fragmentCount ++
    int32BeTo (-b.maxDisksPerNode))))

def policiesKeys (b : Bucket) (kv : Store) : List Bytes :=
  kv.keys.filter fun key => decide (bucketStart b <+: key)

theorem policies_encode (b : Bucket) (id : Bytes) :
    (Key.policies b id).encode = bucketStart b ++ stringTo id := by
  simp [Key.encode, Key.rest, bucketStart]

theorem policies_of_start {k : Key} (h : Kind.policies.start <+: k.encode) :
    ∃ b id, k = .policies b id := by
  have hkind := Key.kind_of_start (by decide) (by decide) h
  cases k with
  | policies b id => exact ⟨b, id, rfl⟩
  | _ => cases hkind

theorem bucketStart_length (b : Bucket) : (bucketStart b).length = 25 := by
  simp [bucketStart]
  rfl

theorem bucketStart_inj {b b' : Bucket} (h : bucketStart b = bucketStart b') : b = b' :=
  (Key.policiesRest_inj (s := []) (t := []) (by
    have h' := congrArg (· ++ stringTo []) h
    simp only [← policies_encode] at h'
    exact append_cancel_left h')).1

theorem policies_of_bucketStart {b : Bucket} {k : Key} (h : bucketStart b <+: k.encode) :
    ∃ id, k = .policies b id := by
  obtain ⟨b', id, rfl⟩ := policies_of_start ((List.prefix_append _ _).trans h)
  rw [policies_encode] at h
  have he : bucketStart b = bucketStart b' :=
    (List.prefix_of_prefix_length_le h (List.prefix_append _ _)
      (by simp [bucketStart_length])).eq_of_length (by simp [bucketStart_length])
  exact ⟨id, by rw [bucketStart_inj he]⟩

section Nodes

variable {node node' : OsdId → Option Bytes}

theorem countsOf_agree {fragments : Layout Fragment}
    (h : ∀ f ∈ fragments.flatten, ∀ d, f.osd = some d → node' d = node d) :
    countsOf node' fragments = countsOf node fragments := by
  have hbind : ∀ chunk ∈ fragments, ∀ f ∈ chunk, f.osd.bind node' = f.osd.bind node := by
    intro chunk hchunk f hf
    cases hd : f.osd with
    | none => rfl
    | some d => exact h f (mem_flatten.mpr ⟨chunk, hchunk, hf⟩) d hd
  have hmax : ∀ chunk ∈ fragments, maxOnNode node' chunk = maxOnNode node chunk := by
    intro chunk hchunk
    have hcount : countOnNode node' chunk = countOnNode node chunk := by
      funext n
      refine countP_congr fun f hf => ?_
      rw [hbind chunk hchunk f hf]
    rw [maxOnNode, maxOnNode, hcount, filterMap_congr (hbind chunk hchunk)]
  rw [countsOf, countsOf, map_congr_left hmax]

theorem bucketOf_agree {t : Manifest} (h : ∀ d, t.LocatedOn d → node' d = node d) :
    bucketOf node' t = bucketOf node t := by
  rw [bucketOf, bucketOf, countsOf_agree fun f hf d hd => h d ⟨f, hf, hd⟩]

end Nodes

def inBucket (node : OsdId → Option Bytes) (b : Bucket) (t : Manifest) : BitVec 64 :=
  if bucketOf node t = b then 1 else 0

/-- The marks and their counts follow the manifests, and the nodes of the osds in use are stored. -/
structure Bucketed (kv : Store) : Prop where
  known : ∀ id, ∀ t ∈ manifestAt kv id, ∀ d, t.LocatedOn d → (nodeOf kv d).isSome
  marks : ∀ b id, kvGet kv (.policies b id) = policyMark (nodeOf kv) b (manifestAt kv id)
  counts : ∀ b, kvGet kv (.policiesCnt b) = counter (sumOver (inBucket (nodeOf kv) b) kv)

theorem Bucketed.empty : Bucketed ∅ := by
  constructor <;>
    simp [kvGet, manifestAt, policyMark, sumOver_eq_total, counter]

theorem Bucketed.congr {kv kv' : Store} (hb : Bucketed kv)
    (h : ∀ k : Key, k.kind ∈ [.objects, .policies, .policiesCnt] → kvGet kv' k = kvGet kv k)
    (hnode : ∀ d, (nodeOf kv d).isSome → nodeOf kv' d = nodeOf kv d) : Bucketed kv' := by
  have hat : ∀ id, manifestAt kv' id = manifestAt kv id :=
    fun id => manifestAt_congr (h _ (by simp))
  have hbucket : ∀ id, ∀ t ∈ manifestAt kv id, bucketOf (nodeOf kv') t = bucketOf (nodeOf kv) t :=
    fun id t ht => bucketOf_agree fun d hd => hnode d (hb.known id t ht d hd)
  constructor
  · intro id t ht d hd
    rw [hat] at ht
    have hsome := hb.known id t ht d hd
    rwa [hnode d hsome]
  · intro b id
    rw [h _ (by simp), hb.marks, hat]
    cases ht : manifestAt kv id with
    | none => rfl
    | some t => simp [policyMark, hbucket id t ht]
  · intro b
    rw [h _ (by simp), hb.counts]
    rw [sumOver_congr _ hat, sumOver, sumOver]
    refine congrArg (fun xs : List (BitVec 64) => counter xs.sum) (map_congr_left fun t ht => ?_)
    obtain ⟨id, hid⟩ := mem_storedManifests.mp ht
    rw [inBucket, inBucket, hbucket id t hid]

theorem Effect.bucketed {namespaceId : NamespaceId} {c : Change} {kv kv' : Store}
    (h : Effect namespaceId c kv kv') (hb : Bucketed kv) : Bucketed kv' := by
  constructor
  · intro id t ht d hd
    rw [h.nodeOf]
    by_cases hid : id ∈ c.slots.map Slot.objectId
    · obtain ⟨s, hs, rfl⟩ := mem_map.mp hid
      rw [manifestAt_of_get (h.after s hs)] at ht
      exact h.known s hs t ht d hd
    · rw [manifestAt_congr (h.objects id hid)] at ht
      exact hb.known id t ht d hd
  · intro b id
    rw [h.nodeOf]
    by_cases hid : id ∈ c.slots.map Slot.objectId
    · obtain ⟨s, hs, rfl⟩ := mem_map.mp hid
      rw [manifestAt_of_get (h.after s hs)]
      refine h.policyMarks s hs (fun b => ?_) b
      rw [hb.marks, manifestAt_of_get (h.before s hs)]
    · rw [h.policies b id hid, hb.marks, manifestAt_congr (h.objects id hid)]
  · intro b
    rw [h.nodeOf, h.sumOver, h.policiesCnt b _ (hb.counts b)]
    rfl

/-- The stored nodes are the ones of `node`. -/
def NodesFrom (node : OsdId → Bytes) (kv : Store) : Prop := ∀ d n, nodeOf kv d = some n → n = node d

/-- A request that links an osd links it with its node. -/
def LinksNode (node : OsdId → Bytes) (r : Request) : Prop :=
  ∀ d info, r.op = .linkOsd d info → info.nodeId = node d

theorem exec_bucketed {namespaceId : NamespaceId} {node : OsdId → Bytes} {kv kv' : Store}
    {r : Request} (hr : LinksNode node r) (hb : NodesFrom node kv ∧ Bucketed kv)
    (h : exec namespaceId kv r = some kv') : NodesFrom node kv' ∧ Bucketed kv' := by
  obtain ⟨hnodes, hb⟩ := hb
  cases exec_outcome h with
  | changes cs chain _ _ _ =>
    refine ⟨?_, chain.preserves (fun _ _ _ effect => effect.bucketed) hb⟩
    rw [NodesFrom, chain.nodeOf]
    exact hnodes
  | linked osdId info request same stored =>
    have hnew : nodeOf kv' osdId = some (node osdId) := by
      rw [← hr osdId info request]
      simp [nodeOf, stored]
    have hold : ∀ d, d ≠ osdId → nodeOf kv' d = nodeOf kv d := by
      intro d hd
      simp only [nodeOf]
      rw [same (.osdInfo d) (by simp) (by simpa using hd)]
    have hfrom : NodesFrom node kv' := by
      intro d n hn
      by_cases hd : d = osdId
      · rw [hd, hnew] at hn
        rw [hd, Option.some.inj hn]
      · exact hnodes d n (by rw [← hold d hd, hn])
    refine ⟨hfrom, hb.congr (fun k hk => same k ?_ ?_) fun d hd => ?_⟩
    · rintro rfl
      simp at hk
    · rintro rfl
      simp at hk
    · by_cases he : d = osdId
      · obtain ⟨n, hn⟩ := Option.isSome_iff_exists.mp hd
        rw [hn, hnodes d n hn, he, hnew]
      · exact hold d he
  | settings same _ =>
    have hnode : nodeOf kv' = nodeOf kv := nodeOf_congr fun d => same _ (by simp)
    refine ⟨by rw [NodesFrom, hnode]; exact hnodes, hb.congr (fun k hk => same k fun hk' => ?_)
      fun d _ => by rw [hnode]⟩
    simp only [mem_cons, not_mem_nil, or_false] at hk hk'
    rcases hk with hk | hk | hk <;> simp [hk] at hk'
  | cleared _ same _ =>
    have hnode : nodeOf kv' = nodeOf kv := nodeOf_congr fun d => same _ (by simp)
    refine ⟨by rw [NodesFrom, hnode]; exact hnodes, hb.congr (fun k hk => same k fun hk' => ?_)
      fun d _ => by rw [hnode]⟩
    simp [hk'] at hk

theorem run_encoded (namespaceId : NamespaceId) (requests : List Request) (key : Bytes)
    (hkey : ∀ k : Key, k.encode ≠ key) : (run (exec namespaceId) ∅ requests)[key]? = none :=
  run_invariant (P := fun kv : Store => kv[key]? = none)
    (fun kv _ kv' hkv h => by rw [exec_other h hkey, hkv]) requests (by simp)

section Counts

variable {kv : Store} (hencoded : ∀ key, (∀ k : Key, k.encode ≠ key) → kv[key]? = none)
include hencoded

theorem stored_key_encoded {key : Bytes} (hkey : kv[key]? ≠ none) : ∃ k : Key, k.encode = key := by
  by_contra hnone
  exact hkey (hencoded key fun k hk => hnone ⟨k, hk⟩)

theorem length_policiesKeys (hb : Bucketed kv) (b : Bucket) :
    BitVec.ofNat 64 (policiesKeys b kv).length = sumOver (inBucket (nodeOf kv) b) kv := by
  rw [← BitVec.natCast_eq_ofNat, policiesKeys, ← total_count, sumOver_eq_total]
  refine total_eq_of_families (d := fun id => (Key.policies b id).encode)
    (e := fun id => (Key.objects id).encode) ?_ ?_ ?_ ?_ ?_
  · exact fun a b h => by simpa using h
  · exact fun a b h => by simpa using h
  · intro key hkey
    unfold share
    cases hget : kv[key]? with
    | none => rfl
    | some v =>
      obtain ⟨k, rfl⟩ := stored_key_encoded hencoded (by simp [hget] : kv[key]? ≠ none)
      refine if_neg fun hstart => hkey ?_
      obtain ⟨id, rfl⟩ := policies_of_bucketStart hstart
      exact ⟨id, rfl⟩
  · intro key hkey
    refine share_eq_zero _ kv fun hstart => hkey ?_
    obtain ⟨id, rfl⟩ := hstart
    exact ⟨id, rfl⟩
  · intro id
    have hmark := hb.marks b id
    have hstart : bucketStart b <+: (Key.policies b id).encode := by
      rw [policies_encode]
      exact List.prefix_append _ _
    rw [share_objects]
    rw [kvGet] at hmark
    simp only [share, hmark, policyMark]
    cases manifestAt kv id with
    | none => rfl
    | some t => by_cases ht : bucketOf (nodeOf kv) t = b <;> simp [ht, hstart, inBucket]

end Counts

/-- Every request that links one osd gives it one node. -/
def OneNode (requests : List Request) : Prop :=
  ∀ r ∈ requests, ∀ r' ∈ requests, ∀ d info info', r.op = .linkOsd d info →
    r'.op = .linkOsd d info' → info.nodeId = info'.nodeId

theorem OneNode.exists_node {requests : List Request} (h : OneNode requests) :
    ∃ node : OsdId → Bytes, ∀ r ∈ requests, LinksNode node r := by
  classical
  have hchoice : ∀ d, ∃ n : Bytes, ∀ r ∈ requests, ∀ info, r.op = .linkOsd d info →
      info.nodeId = n := by
    intro d
    by_cases hd : ∃ r ∈ requests, ∃ info, r.op = .linkOsd d info
    · obtain ⟨r, hr, info, hop⟩ := hd
      exact ⟨info.nodeId, fun r' hr' info' hop' => h r' hr' r hr d info' info hop' hop⟩
    · exact ⟨[], fun r hr info hop => absurd ⟨r, hr, info, hop⟩ hd⟩
  choose node hnode using hchoice
  exact ⟨node, fun r hr d info hop => hnode d r hr info hop⟩

/-- After any requests that give every osd one node, a stored object is marked in the bucket of its
manifest and in no other one, an object that is not stored has no mark, the marks are all the keys
under `policies/`, and the count of a bucket is the number of the keys of its marks. -/
theorem policies_reachable (namespaceId : NamespaceId) (requests : List Request)
    (hnode : OneNode requests) :
    let kv := run (exec namespaceId) ∅ requests
    (∀ id t, kvGet kv (.objects id) = some (.manifest t) →
      ∀ b, (kvGet kv (.policies b id)).isSome ↔ b = bucketOf (nodeOf kv) t) ∧
    (∀ id, kvGet kv (.objects id) = none → ∀ b, kvGet kv (.policies b id) = none) ∧
    (∀ key, Kind.policies.start <+: key → kv[key]? ≠ none →
      ∃ b id, key = (Key.policies b id).encode) ∧
    ∀ b, kvGet kv (.policiesCnt b) = counter (BitVec.ofNat 64 (policiesKeys b kv).length) := by
  intro kv
  have hencoded : ∀ key, (∀ k : Key, k.encode ≠ key) → kv[key]? = none :=
    run_encoded namespaceId requests
  obtain ⟨node, hlinks⟩ := hnode.exists_node
  have hb : Bucketed kv := (run_invariant_of (P := fun kv => NodesFrom node kv ∧ Bucketed kv)
    (G := fun _ r => LinksNode node r) (fun _ _ _ hb hr h => exec_bucketed hr hb h)
    ⟨fun d n h => by simp [nodeOf, kvGet] at h, .empty⟩
    (allSteps_of_forall (fun r hr _ => hlinks r hr) _)).2
  refine ⟨fun id t ht b => ?_, fun id hid b => ?_, fun key hstart hkey => ?_, fun b => ?_⟩
  · rw [hb.marks, manifestAt_eq_some.mpr ht]
    by_cases hbucket : bucketOf (nodeOf kv) t = b
    · simp [policyMark, hbucket]
    · simp [policyMark, hbucket, Ne.symm hbucket]
  · rw [hb.marks, manifestAt_of_get (m := none) hid]
    rfl
  · obtain ⟨k, rfl⟩ := stored_key_encoded hencoded hkey
    obtain ⟨b, id, rfl⟩ := policies_of_start hstart
    exact ⟨b, id, rfl⟩
  · rw [length_policiesKeys hencoded hb, hb.counts]

def sampleManifest : Manifest where
  name := ascii ['a']
  objectId := ascii ['x']
  storageScheme := { k := 1, m := 0, w := .w8, compression := .noCompression }
  encryptInfo := .noEncryption
  chunkSizes := [5]
  size := 5
  checksum := .noChecksum
  fragments :=
    [[{ osd := some 1, ver := 0, crc := .noChecksum, len := 5, ctr := none, fnr := none }]]
  versionId := 0
  maxDisksPerNode := 1
  timestamp := { bits := 0 }
  counted := by decide

def sampleRequests : List Request :=
  [{ op := .linkOsd 1 { nodeId := ascii ['n'] } },
    { op := .putObject .unconditionally sampleManifest 0 }]

theorem policies_reachable_sample :
    OneNode sampleRequests ∧
    kvGet (run (exec 0) ∅ sampleRequests) (.objects (ascii ['x'])) =
      some (.manifest sampleManifest) ∧
    ∀ b, (kvGet (run (exec 0) ∅ sampleRequests) (.policies b (ascii ['x']))).isSome ↔
      b = bucketOf (nodeOf (run (exec 0) ∅ sampleRequests)) sampleManifest := by
  have hnode : OneNode sampleRequests := by simp [OneNode, sampleRequests]
  have hstored : kvGet (run (exec 0) ∅ sampleRequests) (.objects (ascii ['x'])) =
      some (.manifest sampleManifest) := by decide +kernel
  exact ⟨hnode, hstored, (policies_reachable 0 sampleRequests hnode).1 _ _ hstored⟩

end Alba.Nsm
