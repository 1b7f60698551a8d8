import Alba.Nsm.Index

/-! Space accounting of a namespace: the sizes kept under their own keys are sums over the stored
manifests. -/

namespace Alba.Nsm

open ProofKit Std List

/-- The manifest of an entry of the store whose key is the key of an object. -/
def storedManifest (key : Bytes) (v : Value) : Option Manifest :=
  if Kind.objects.start <+: key then
    match v with
    | .manifest t => some t
    | _ => none
  else none

def storedManifests (kv : Store) : List Manifest :=
  kv.toList.filterMap fun e => storedManifest e.1 e.2

theorem mem_storedManifests {kv : Store} {t : Manifest} :
    t ∈ storedManifests kv ↔ ∃ id, manifestAt kv id = some t := by
  simp only [storedManifests, mem_filterMap, Prod.exists,
    ExtTreeMap.mem_toList_iff_getElem?_eq_some, manifestAt_eq_some, kvGet]
  constructor
  · rintro ⟨key, v, hget, hv⟩
    unfold storedManifest at hv
    split at hv
    · rename_i hstart
      obtain ⟨id, rfl⟩ := hstart
      split at hv
      · cases hv
        exact ⟨id, hget⟩
      · cases hv
    · cases hv
  · rintro ⟨id, hget⟩
    refine ⟨_, _, hget, ?_⟩
    have hstart : Kind.objects.start <+: (Key.objects id).encode := List.prefix_append _ _
    simp [storedManifest, hstart]

/-- The sum of `g` over the stored manifests. -/
def sumOver (g : Manifest → BitVec 64) (kv : Store) : BitVec 64 := ((storedManifests kv).map g).sum

section Sums

variable (g : Manifest → BitVec 64)

def manifestShare (key : Bytes) (v : Value) : BitVec 64 := (storedManifest key v).elim 0 g

theorem sumOver_eq_total (kv : Store) : sumOver g kv = total (manifestShare g) kv := by
  unfold sumOver total storedManifests
  induction kv.toList with
  | nil => rfl
  | cons e es ih =>
    cases h : storedManifest e.1 e.2 <;>
      simp only [filterMap_cons, map_cons, sum_cons, manifestShare, h, Option.elim,
        ih, zero_add]

theorem share_objects (kv : Store) (id : Bytes) :
    share (manifestShare g) kv (Key.objects id).encode = (manifestAt kv id).elim 0 g := by
  have hstart : Kind.objects.start <+: (Key.objects id).encode := List.prefix_append _ _
  unfold share manifestAt kvGet
  cases kv[(Key.objects id).encode]? with
  | none => rfl
  | some v => cases v <;> simp [manifestShare, storedManifest, hstart]

theorem share_eq_zero {key : Bytes} (kv : Store) (h : ¬Kind.objects.start <+: key) :
    share (manifestShare g) kv key = 0 := by
  unfold share
  cases kv[key]? <;> simp [manifestShare, storedManifest, h]

theorem sumOver_congr {kv kv' : Store} (h : ∀ id, manifestAt kv' id = manifestAt kv id) :
    sumOver g kv' = sumOver g kv := by
  rw [sumOver_eq_total, sumOver_eq_total]
  refine total_of_share_eq fun key => ?_
  by_cases hstart : Kind.objects.start <+: key
  · obtain ⟨id, rfl⟩ := hstart
    exact (share_objects g kv' id).trans (by rw [h]; exact (share_objects g kv id).symm)
  · rw [share_eq_zero g kv hstart, share_eq_zero g kv' hstart]

theorem Effect.sumOver {namespaceId : NamespaceId} {c : Change} {kv kv' : Store}
    (h : Effect namespaceId c kv kv') : sumOver g kv' = sumOver g kv + gain c.slots g := by
  have hnodup : (c.slots.map fun s => (Key.objects s.objectId).encode).Nodup := by
    have hids := h.ids.map (f := fun id => (Key.objects id).encode) fun a b he => by simpa using he
    rwa [map_map] at hids
  rw [sumOver_eq_total, sumOver_eq_total,
    total_change (c.slots.map fun s => (Key.objects s.objectId).encode).toFinset]
  · congr 1
    rw [sum_toFinset _ hnodup, map_map, gain]
    congr 1
    refine map_congr_left fun s hs => ?_
    rw [Function.comp_apply, share_objects, share_objects, manifestAt_of_get (h.after s hs),
      manifestAt_of_get (h.before s hs)]
  · intro key hkey
    by_cases hstart : Kind.objects.start <+: key
    · obtain ⟨id, rfl⟩ := hstart
      have hid : id ∉ c.slots.map Slot.objectId := by
        intro hid
        obtain ⟨s, hs, rfl⟩ := mem_map.mp hid
        exact hkey (mem_toFinset.mpr (mem_map.mpr ⟨s, hs, rfl⟩))
      calc share (manifestShare g) kv' (Key.objects id).encode
          = (manifestAt kv' id).elim 0 g := share_objects g kv' id
        _ = (manifestAt kv id).elim 0 g := by rw [manifestAt_congr (h.objects id hid)]
        _ = share (manifestShare g) kv (Key.objects id).encode := (share_objects g kv id).symm
    · rw [share_eq_zero g kv hstart, share_eq_zero g kv' hstart]

end Sums

/-- The size keys are counters of what is stored. -/
structure Accounted (kv : Store) : Prop where
  logicalSize : kvGet kv .namespaceLogicalSize = counter (sumOver Manifest.size kv)
  storageSize : kvGet kv .namespaceStorageSize = counter (sumOver Manifest.storageSize kv)
  osdSize : ∀ d, kvGet kv (.osdSize d) = counter (sumOver (Manifest.bytesOn d) kv)

theorem Accounted.empty : Accounted ∅ := by
  constructor <;> simp [kvGet, sumOver_eq_total, counter]

theorem Accounted.congr {kv kv' : Store} (ha : Accounted kv)
    (h : ∀ k : Key, k.kind ∈ [.objects, .namespaceLogicalSize, .namespaceStorageSize, .osdSize] →
      kvGet kv' k = kvGet kv k) : Accounted kv' := by
  have hsum : ∀ g, sumOver g kv' = sumOver g kv :=
    fun g => sumOver_congr g fun id => manifestAt_congr (h _ (by simp))
  constructor
  · rw [h _ (by simp), hsum, ha.logicalSize]
  · rw [h _ (by simp), hsum, ha.storageSize]
  · intro d
    rw [h _ (by simp), hsum, ha.osdSize]

theorem Effect.accounted {namespaceId : NamespaceId} {c : Change} {kv kv' : Store}
    (h : Effect namespaceId c kv kv') (ha : Accounted kv) : Accounted kv' := by
  constructor
  · rw [h.sumOver, h.logicalSize _ ha.logicalSize]
  · rw [h.sumOver, h.storageSize _ ha.storageSize]
  · intro d
    rw [h.sumOver, h.osdSize d _ (ha.osdSize d)]

theorem exec_accounted {namespaceId : NamespaceId} {kv kv' : Store} {r : Request}
    (ha : Accounted kv) (h : exec namespaceId kv r = some kv') : Accounted kv' :=
  exec_preserves [.objects, .namespaceLogicalSize, .namespaceStorageSize, .osdSize] (by decide)
    (fun _ _ _ effect ha => effect.accounted ha) (fun _ _ same ha => ha.congr same) ha h

/-- After any requests the logical size, the storage size and the size of every osd are the sums over
the stored manifests, where a sum of zero has no key. -/
theorem sizes_reachable (namespaceId : NamespaceId) (requests : List Request) :
    kvGet (run (exec namespaceId) ∅ requests) .namespaceLogicalSize =
      counter ((storedManifests (run (exec namespaceId) ∅ requests)).map Manifest.size).sum ∧
    kvGet (run (exec namespaceId) ∅ requests) .namespaceStorageSize =
      counter ((storedManifests (run (exec namespaceId) ∅ requests)).map Manifest.storageSize).sum ∧
    ∀ d, kvGet (run (exec namespaceId) ∅ requests) (.osdSize d) =
        counter ((storedManifests (run (exec namespaceId) ∅ requests)).map (Manifest.bytesOn d)).sum ∧
      ((∀ t ∈ storedManifests (run (exec namespaceId) ∅ requests), ∀ f ∈ t.fragments.flatten,
          f.osd = some d → f.len = 0) →
        kvGet (run (exec namespaceId) ∅ requests) (.osdSize d) = none) := by
  have ha : Accounted (run (exec namespaceId) ∅ requests) :=
    run_invariant (fun _ _ _ ha h => exec_accounted ha h) requests .empty
  generalize run (exec namespaceId) ∅ requests = kv at ha
  refine ⟨ha.logicalSize, ha.storageSize, fun d => ⟨ha.osdSize d, fun hnone => ?_⟩⟩
  have hsum : sumOver (Manifest.bytesOn d) kv = 0 := by
    refine sum_eq_zero fun x hx => ?_
    obtain ⟨t, ht, rfl⟩ := mem_map.mp hx
    refine sum_eq_zero fun x hx => ?_
    obtain ⟨f, hf, rfl⟩ := mem_map.mp hx
    by_cases hosd : f.osd = some d
    · simp [hosd, hnone t ht f hf hosd]
    · simp [hosd]
  rw [ha.osdSize, hsum]
  rfl

end Alba.Nsm
