import Alba.Nsm.Change

/-! The lists that the operations compute from the layout of a manifest: the new locations and the
obsolete ones, the osds in use, the keys to delete and the changes of the osd sizes. -/

namespace Alba.Nsm

open ProofKit Std List

section Folds

variable {α β γ δ ε : Type}

theorem mem_foldl_reverseAux {h : α → List β} {l : List α} {b : List β} {x : β} :
    x ∈ l.foldl (fun acc a => (h a).reverseAux acc) b ↔ x ∈ b ∨ ∃ a ∈ l, x ∈ h a := by
  induction l generalizing b with
  | nil => simp
  | cons a l ih =>
    rw [foldl_cons, ih]
    simp only [reverseAux_eq, mem_append, mem_reverse, exists_mem_cons_iff]
    tauto

theorem mem_flattenUnordered {ls : List (List α)} {x : α} :
    x ∈ flattenUnordered ls ↔ ∃ l ∈ ls, x ∈ l := by
  rw [flattenUnordered, mem_foldl_reverseAux (h := fun l => l)]
  simp only [not_mem_nil, false_or]

theorem map4_mapIdx {f : α → β → γ → δ → Except Exn ε} {τ : Type} (l : List τ)
    {a : Nat → τ → α} {b : Nat → τ → β} {c : Nat → τ → γ} {d : Nat → τ → δ} {e : Nat → τ → ε}
    (h : ∀ i x, f (a i x) (b i x) (c i x) (d i x) = .ok (e i x)) :
    map4 f (l.mapIdx a) (l.mapIdx b) (l.mapIdx c) (l.mapIdx d) = .ok (l.mapIdx e) := by
  induction l generalizing a b c d e with
  | nil => rfl
  | cons x l ih =>
    have hrest := ih fun i y => h (i + 1) y
    simp only [mapIdx_cons, map4, h, hrest]
    rfl

theorem Layout.map4_mapIndexed {τ : Type} (f : α → β → γ → δ → ε) (l : Layout τ)
    (a : Nat → Nat → τ → α) (b : Nat → Nat → τ → β) (c : Nat → Nat → τ → γ) (d : Nat → Nat → τ → δ) :
    Layout.map4 f (l.mapIndexed a) (l.mapIndexed b) (l.mapIndexed c) (l.mapIndexed d) =
      .ok (l.mapIndexed fun i j x => f (a i j x) (b i j x) (c i j x) (d i j x)) :=
  map4_mapIdx l fun _ row => map4_mapIdx row fun _ _ => rfl

end Folds

section Relocation

variable (table : List FragmentUpdate) (versionId : Int32)

def newLoc (chunkId fragmentId : Nat) (oldLoc : Loc) : Loc :=
  (findUpdate table chunkId fragmentId).elim oldLoc fun fu => (fu.osdIdO, versionId)

def obsoleteAt (chunkId fragmentId : Nat) (oldLoc : Loc) : Option Obsolete :=
  if (findUpdate table chunkId fragmentId).isSome then some ((chunkId, fragmentId), oldLoc) else none

theorem foldl_relocateFragment (chunkId : Nat) (chunk : List Loc) (n : Nat) (locs : List Loc)
    (obsolete : List Obsolete) :
    chunk.foldl (relocateFragment table versionId chunkId) (n, locs, obsolete) =
      (n + chunk.length,
        ((chunk.zipIdx n).map fun x => newLoc table versionId chunkId x.2 x.1).reverse ++ locs,
        ((chunk.zipIdx n).filterMap fun x => obsoleteAt table chunkId x.2 x.1).reverse ++
          obsolete) := by
  induction chunk generalizing n locs obsolete with
  | nil => rfl
  | cons oldLoc chunk ih =>
    rw [foldl_cons, zipIdx_cons, length_cons, map_cons, filterMap_cons]
    cases hfind : findUpdate table chunkId n with
    | none => simp [relocateFragment, newLoc, obsoleteAt, hfind, ih, Nat.add_assoc, Nat.add_comm 1]
    | some fu =>
      simp [relocateFragment, newLoc, obsoleteAt, hfind, ih, Nat.add_assoc, Nat.add_comm 1]

theorem foldl_relocateChunk (locations : Layout Loc) (n : Nat) (locs : Layout Loc)
    (obsolete : List Obsolete) :
    locations.foldl (relocateChunk table versionId) (n, locs, obsolete) =
      (n + locations.length,
        ((locations.zipIdx n).map fun row =>
          row.1.mapIdx (newLoc table versionId row.2)).reverse ++ locs,
        ((locations.zipIdx n).flatMap fun row =>
          row.1.zipIdx.filterMap fun x => obsoleteAt table row.2 x.2 x.1).reverse ++ obsolete) := by
  induction locations generalizing n locs obsolete with
  | nil => rfl
  | cons chunk locations ih =>
    rw [foldl_cons, relocateChunk, foldl_relocateFragment]
    dsimp only
    rw [ih]
    simp [mapIdx_eq_zipIdx_map, Nat.add_assoc, Nat.add_comm 1]

theorem relocate_eq (locations : Layout Loc) :
    relocate table versionId locations =
      (locations.length, (locations.mapIndexed (newLoc table versionId)).reverse,
        ((cells locations).filterMap fun e => obsoleteAt table e.1.1 e.1.2 e.2).reverse) := by
  rw [relocate, foldl_relocateChunk, Layout.mapIndexed, mapIdx_eq_zipIdx_map, cells]
  simp [filterMap_flatMap, filterMap_map]

theorem newLocations_eq (t : Manifest) :
    (relocate table versionId t.locations).2.1.reverse =
      t.fragments.mapIndexed fun c i f => newLoc table versionId c i f.locOf := by
  rw [relocate_eq, reverse_reverse, Manifest.locations, Layout.mapIndexed, Layout.mapIndexed]
  simp [mapIdx_eq_zipIdx_map, zipIdx_map, Function.comp_def]

theorem updatedManifest_eq (t : Manifest) :
    updatedManifest t table versionId (relocate table versionId t.locations).2.1.reverse =
      .ok (t.updateWith table versionId) := by
  have hfragments : newFragments table (relocate table versionId t.locations).2.1.reverse
      t.fragments = .ok (t.fragments.mapIndexed (updateFragment table versionId)) := by
    rw [newLocations_eq, newFragments, Layout.map4_mapIndexed]
    congr 2
    funext c i f
    cases hfind : findUpdate table c i with
    | none =>
      simp [updateFragment, hfind, Fragment.make', maybeReplace, newLoc, Fragment.locOf]
    | some fu => simp [updateFragment, hfind, Fragment.make', maybeReplace, newLoc]
  unfold updatedManifest
  split
  · rename_i h
    rw [hfragments] at h
    cases h
  · rename_i h
    rw [hfragments] at h
    cases h
    rfl

end Relocation

section Devices

variable {d : OsdId}

theorem DeviceSet.mem_add {x d : OsdId} {s : DeviceSet} : x ∈ DeviceSet.add d s ↔ x = d ∨ x ∈ s := by
  induction s with
  | nil => simp [DeviceSet.add]
  | cons e s ih =>
    rw [DeviceSet.add]
    split
    · simp
    · split
      · rename_i hde
        simp [hde]
      · simp only [mem_cons, ih]
        tauto

theorem Manifest.mem_osdsUsed' {α : Type} {locOf : α → Loc} {l : Layout α} :
    d ∈ Manifest.osdsUsed' locOf l ↔ ∃ x ∈ l.flatten, (locOf x).1 = some d := by
  have general : ∀ (xs : List α) (s : DeviceSet),
      d ∈ xs.foldl (fun ds x => (locOf x).1.elim ds fun osdId => DeviceSet.add osdId ds) s ↔
        d ∈ s ∨ ∃ x ∈ xs, (locOf x).1 = some d := by
    intro xs
    induction xs with
    | nil => simp
    | cons x xs ih =>
      intro s
      rw [foldl_cons, ih]
      cases hx : (locOf x).1 with
      | none => simp [hx]
      | some osdId =>
        simp only [Option.elim, DeviceSet.mem_add, exists_mem_cons_iff, hx, Option.some.injEq]
        tauto
  rw [Manifest.osdsUsed', ← foldl_flatten, general]
  simp only [not_mem_nil, false_or]

theorem Manifest.mem_osdsUsed {t : Manifest} : d ∈ t.osdsUsed ↔ t.LocatedOn d := by
  rw [Manifest.osdsUsed, Manifest.mem_osdsUsed']
  rfl

theorem Manifest.mem_osdsUsed'_locations {t : Manifest} :
    d ∈ Manifest.osdsUsed' id t.locations ↔ t.LocatedOn d := by
  rw [Manifest.mem_osdsUsed', Manifest.locations, ← map_flatten]
  constructor
  · rintro ⟨x, hx, hd⟩
    obtain ⟨f, hf, rfl⟩ := mem_map.mp hx
    exact ⟨f, hf, hd⟩
  · rintro ⟨f, hf, hd⟩
    exact ⟨f.locOf, mem_map_of_mem hf, hd⟩

theorem DeviceSet.mem_diff {x : OsdId} {s t : DeviceSet} : x ∈ s.diff t ↔ x ∈ s ∧ x ∉ t := by
  simp [DeviceSet.diff]

end Devices

section Mapping

variable {kv : Store} {objectId : Bytes}

theorem mem_deleteOsdObjects {ds : DeviceSet} {u : Upd} :
    u ∈ deleteOsdObjects objectId ds ↔ ∃ d ∈ ds, u = .delete (.osdObjects d objectId) := by
  have general : ∀ (ds : DeviceSet) (acc : List Upd),
      u ∈ ds.foldl (fun acc osdId => .delete (.osdObjects osdId objectId) :: acc) acc ↔
        u ∈ acc ∨ ∃ d ∈ ds, u = .delete (.osdObjects d objectId) := by
    intro ds
    induction ds with
    | nil => simp
    | cons d ds ih =>
      intro acc
      rw [foldl_cons, ih, exists_mem_cons_iff, mem_cons]
      tauto
  rw [deleteOsdObjects, general]
  simp only [not_mem_nil, false_or]

theorem mem_foldlM_addOsdObject {ds : List OsdId} {acc us : List Upd}
    (h : ds.foldlM (addOsdObject kv objectId) acc = .ok us) {u : Upd} :
    u ∈ us ↔ u ∈ acc ∨ ∃ d ∈ ds, u = .assert (.activeOsds d) (kvGet kv (.activeOsds d)) ∨
      u = .set (.osdObjects d objectId) (some .empty) := by
  induction ds generalizing acc with
  | nil =>
    cases h
    simp
  | cons d ds ih =>
    rw [foldlM_cons, bind_eq_ok] at h
    obtain ⟨acc', hstep, hrest⟩ := h
    rw [ih hrest]
    unfold addOsdObject at hstep
    split at hstep
    · cases hstep
    · rename_i v hv
      cases hstep
      rw [exists_mem_cons_iff, mem_cons, mem_cons, hv]
      simp only [or_assoc, or_left_comm]

@[simp] theorem runKey_deleteOsdObjects (ds : DeviceSet) (k : Key) (v : Option Value) :
    runKey k (deleteOsdObjects objectId ds) v =
      if ∃ d ∈ ds, k = .osdObjects d objectId then none else v := by
  have hall : ∀ u ∈ deleteOsdObjects objectId ds, u.Writes k → u = (.set k none : Upd) := by
    intro u hu hw
    obtain ⟨d, _, rfl⟩ := mem_deleteOsdObjects.mp hu
    rw [show Key.osdObjects d objectId = k from hw]
    rfl
  rw [runKey_sets hall]
  simp only [mem_deleteOsdObjects]
  simp only [Update.delete, Update.set.injEq, and_true]

section Device

variable {oldLocations : Layout Loc} {newFragments : Layout Fragment} {us : List Upd}

theorem runKey_mapping (h : updateDeviceObjectMapping kv objectId oldLocations newFragments = .ok us)
    (d : OsdId) (i : Bytes) (v : Option Value) :
    runKey (.osdObjects d i) us v =
      if (d ∈ Manifest.osdsUsed' id oldLocations ∧
          d ∉ Manifest.osdsUsed' Fragment.locOf newFragments) ∧ objectId = i then none
      else if (d ∈ Manifest.osdsUsed' Fragment.locOf newFragments ∧
          d ∉ Manifest.osdsUsed' id oldLocations) ∧ objectId = i then some .empty
      else v := by
  simp only [updateDeviceObjectMapping, bind_eq_ok] at h
  obtain ⟨adds, hadds, h⟩ := h
  cases h
  have hall : ∀ u ∈ adds.reverse, u.Writes (.osdObjects d i) →
      u = (.set (.osdObjects d i) (some .empty) : Upd) := by
    intro u hu hw
    rw [mem_reverse, mem_foldlM_addOsdObject hadds] at hu
    rcases hu with hu | ⟨d', _, rfl | rfl⟩
    · simp at hu
    · exact absurd hw id
    · rw [show Key.osdObjects d' objectId = .osdObjects d i from hw]
  rw [reverseAux_eq, runKey_append, runKey_deleteOsdObjects, runKey_sets hall]
  refine if_congr ?_ rfl (if_congr ?_ rfl rfl)
  · constructor
    · rintro ⟨e, he, hk⟩
      cases hk
      exact ⟨DeviceSet.mem_diff.mp he, rfl⟩
    · rintro ⟨hd, rfl⟩
      exact ⟨d, DeviceSet.mem_diff.mpr hd, rfl⟩
  · rw [mem_reverse, mem_foldlM_addOsdObject hadds]
    constructor
    · rintro (hu | ⟨e, he, hu | hu⟩)
      · simp at hu
      · cases hu
      · cases hu
        exact ⟨DeviceSet.mem_diff.mp he, rfl⟩
    · rintro ⟨hd, rfl⟩
      exact Or.inr ⟨d, DeviceSet.mem_diff.mpr hd, Or.inr rfl⟩

theorem runKey_mapping_other
    (h : updateDeviceObjectMapping kv objectId oldLocations newFragments = .ok us) {k : Key}
    (hk : k.kind ≠ .osdObjects) (v : Option Value) : runKey k us v = v := by
  simp only [updateDeviceObjectMapping, bind_eq_ok] at h
  obtain ⟨adds, hadds, h⟩ := h
  cases h
  refine runKey_of_not_writes v fun u hu hw => hk ?_
  rw [reverseAux_eq, mem_append, mem_reverse, mem_foldlM_addOsdObject hadds,
    mem_deleteOsdObjects] at hu
  rcases hu with (hu | ⟨d, _, rfl | rfl⟩) | ⟨d, _, rfl⟩
  · simp at hu
  · exact absurd hw id
  · rw [← show Key.osdObjects d objectId = k from hw]
  · rw [← show Key.osdObjects d objectId = k from hw]

end Device

end Mapping

section Deletes

variable {namespaceId : NamespaceId} {objectId : Bytes} {u : Upd}

def Placed.deleteKeys (namespaceId : NamespaceId) (p : Placed) : List Upd :=
  Nsm.deleteKeys namespaceId p.osdId p.objectId p.versionId.toInt p.chunkId p.fragmentId

theorem mem_placed {q : Nat × Nat → Bool} {fragments : Layout Fragment} {p : Placed} :
    p ∈ placed objectId q fragments ↔ ∃ f, ((p.chunkId, p.fragmentId), f) ∈ cells fragments ∧
      q (p.chunkId, p.fragmentId) ∧ p.objectId = objectId ∧ f.osd = some p.osdId ∧
        f.ver = p.versionId := by
  simp only [placed, mem_filterMap, Prod.exists, Option.ite_none_right_eq_some,
    Option.map_eq_some_iff]
  constructor
  · rintro ⟨c, i, f, hmem, hq, d, hd, rfl⟩
    exact ⟨f, hmem, hq, rfl, hd, rfl⟩
  · rintro ⟨f, hmem, hq, hid, hd, hver⟩
    refine ⟨_, _, f, hmem, hq, p.osdId, hd, ?_⟩
    rw [← hid, hver]

theorem mem_scheduled {ps : List Placed} {d : OsdId} {key : Bytes} :
    (d, key) ∈ scheduled namespaceId ps ↔
      ∃ p ∈ ps, p.osdId = d ∧ (key = p.fragmentKey namespaceId ∨ key = p.recoveryKey namespaceId) := by
  simp only [scheduled, mem_flatMap, mem_cons, Prod.mk.injEq, not_mem_nil, or_false]
  constructor
  · rintro ⟨p, hp, ⟨rfl, h⟩ | ⟨rfl, h⟩⟩
    · exact ⟨p, hp, rfl, Or.inl h⟩
    · exact ⟨p, hp, rfl, Or.inr h⟩
  · rintro ⟨p, hp, rfl, h | h⟩
    · exact ⟨p, hp, Or.inl ⟨rfl, h⟩⟩
    · exact ⟨p, hp, Or.inr ⟨rfl, h⟩⟩

theorem mem_deleteKeys {p : Placed} :
    u ∈ p.deleteKeys namespaceId ↔
      u = .set (.keysToBeDeleted p.osdId (p.fragmentKey namespaceId)) (some .empty) ∨
        u = .set (.keysToBeDeleted p.osdId (p.recoveryKey namespaceId)) (some .empty) := by
  simp [Placed.deleteKeys, deleteKeys, Placed.fragmentKey, Placed.recoveryKey]

theorem runKey_scheduled {us : List Upd} {ps : List Placed}
    (h : ∀ u, u ∈ us ↔ ∃ p ∈ ps, u ∈ p.deleteKeys namespaceId) (k : Key) (v : Option Value) :
    runKey k us v =
      if ∃ e ∈ scheduled namespaceId ps, k = .keysToBeDeleted e.1 e.2 then some .empty else v := by
  have hall : ∀ u ∈ us, u.Writes k → u = (.set k (some .empty) : Upd) := by
    intro u hu hw
    obtain ⟨p, _, hu⟩ := (h u).mp hu
    rcases mem_deleteKeys.mp hu with rfl | rfl
    · rw [show Key.keysToBeDeleted _ _ = k from hw]
    · rw [show Key.keysToBeDeleted _ _ = k from hw]
  have hset : (.set k (some .empty) : Upd) ∈ us ↔
      ∃ e ∈ scheduled namespaceId ps, k = .keysToBeDeleted e.1 e.2 := by
    rw [h]
    simp only [mem_deleteKeys, Update.set.injEq, and_true, Prod.exists, mem_scheduled]
    constructor
    · rintro ⟨p, hp, hk | hk⟩
      · exact ⟨_, _, ⟨p, hp, rfl, Or.inl rfl⟩, hk⟩
      · exact ⟨_, _, ⟨p, hp, rfl, Or.inr rfl⟩, hk⟩
    · rintro ⟨d, key, ⟨p, hp, rfl, rfl | rfl⟩, hk⟩
      · exact ⟨p, hp, Or.inl hk⟩
      · exact ⟨p, hp, Or.inr hk⟩
  rw [runKey_sets hall]
  simp only [hset]

theorem mem_deleteChunk {chunkId : Nat} {chunk : List Fragment} :
    u ∈ (deleteChunk namespaceId objectId chunkId chunk).2 ↔ ∃ x ∈ chunk.zipIdx,
      u ∈ x.1.osd.elim [] fun d =>
        deleteKeys namespaceId d objectId x.1.ver.toInt chunkId x.2 := by
  rw [deleteChunk, foldl_counted fun i (f : Fragment) acc => (f.osd.elim [] fun osdId =>
    deleteKeys namespaceId osdId objectId f.ver.toInt chunkId i).reverseAux acc,
    mem_foldl_reverseAux]
  simp only [not_mem_nil, false_or]

theorem mem_deleteFragments {fragments : Layout Fragment} :
    u ∈ deleteFragments namespaceId objectId fragments ↔
      ∃ p ∈ placed objectId (fun _ => true) fragments, u ∈ p.deleteKeys namespaceId := by
  rw [deleteFragments, foldl_counted fun c chunk acc =>
    (deleteChunk namespaceId objectId c chunk).2.reverseAux acc, mem_foldl_reverseAux]
  simp only [not_mem_nil, false_or, mem_deleteChunk]
  constructor
  · rintro ⟨row, hrow, x, hx, hu⟩
    cases hd : x.1.osd with
    | none => simp [hd] at hu
    | some d =>
      rw [hd] at hu
      refine ⟨⟨d, objectId, x.1.ver, row.2, x.2⟩, mem_placed.mpr ⟨x.1, ?_, rfl, rfl, hd, rfl⟩, hu⟩
      exact mem_flatMap.mpr ⟨row, hrow, mem_map.mpr ⟨x, hx, rfl⟩⟩
  · rintro ⟨p, hp, hu⟩
    obtain ⟨f, hcell, _, rfl, hd, hver⟩ := mem_placed.mp hp
    obtain ⟨row, hrow, hmap⟩ := mem_flatMap.mp hcell
    obtain ⟨x, hx, he⟩ := mem_map.mp hmap
    simp only [Prod.mk.injEq] at he
    obtain ⟨⟨hc, hi⟩, rfl⟩ := he
    refine ⟨row, hrow, x, hx, ?_⟩
    rw [hd, hver, hc, hi]
    exact hu

theorem mem_deleteKeysFromDevice {t : Manifest} {table : List FragmentUpdate} {versionId : Int32} :
    u ∈ deleteKeysFromDevice namespaceId objectId (relocate table versionId t.locations).2.2 ↔
      ∃ p ∈ placed objectId (fun p => (findUpdate table p.1 p.2).isSome) t.fragments,
        u ∈ p.deleteKeys namespaceId := by
  rw [deleteKeysFromDevice, mem_flattenUnordered, relocate_eq, Manifest.locations, cells_map]
  simp only [mem_map, mem_reverse, mem_filterMap, obsoleteAt,
    Option.ite_none_right_eq_some, Option.some.injEq]
  constructor
  · rintro ⟨_, ⟨o, ⟨_, ⟨⟨⟨c, i⟩, f⟩, hcell, rfl⟩, hfind, rfl⟩, rfl⟩, hu⟩
    cases hd : f.osd with
    | none => simp [Fragment.locOf, hd] at hu
    | some d =>
      simp only [Fragment.locOf, hd, Option.elim] at hu
      exact ⟨⟨d, objectId, f.ver, c, i⟩, mem_placed.mpr ⟨f, hcell, hfind, rfl, hd, rfl⟩, hu⟩
  · rintro ⟨p, hp, hu⟩
    obtain ⟨f, hcell, hfind, rfl, hd, hver⟩ := mem_placed.mp hp
    refine ⟨_, ⟨_, ⟨_, ⟨_, hcell, rfl⟩, hfind, rfl⟩, rfl⟩, ?_⟩
    simp only [Fragment.locOf, hd, hver, Option.elim]
    exact hu

end Deletes

section Sizes

variable {t : Manifest}

/-- The list adds to osd sizes and does nothing else. -/
def AddsSizes (us : List Upd) : Prop := ∀ u ∈ us, ∃ d x, u = .add (.osdSize d) x

theorem AddsSizes.runKey_other {us : List Upd} (h : AddsSizes us) {k : Key}
    (hk : k.kind ≠ .osdSize) (v : Option Value) : runKey k us v = v := by
  refine runKey_of_not_writes v fun u hu hw => hk ?_
  obtain ⟨d, x, rfl⟩ := h u hu
  rw [← show Key.osdSize d = k from hw]

theorem AddsSizes.runKey_size {us : List Upd} (h : AddsSizes us) (d : OsdId) (x : BitVec 64) :
    runKey (.osdSize d) us (counter x) = counter (x + addedTo (.osdSize d) us) := by
  refine runKey_counter (fun v hv => ?_) x
  obtain ⟨d', y, he⟩ := h _ hv
  cases he

theorem Manifest.getSummedFragmentSizes_eq (t : Manifest) :
    t.getSummedFragmentSizes = t.storageSize := by
  have general : ∀ (fs : List Fragment) (x : BitVec 64),
      fs.foldl (fun acc f => acc + BitVec.ofInt 64 f.len) x =
        x + (fs.map fun f => BitVec.ofInt 64 f.len).sum := by
    intro fs
    induction fs with
    | nil => simp
    | cons f fs ih =>
      intro x
      rw [foldl_cons, ih, map_cons, sum_cons, add_assoc]
  rw [Manifest.getSummedFragmentSizes, ← foldl_flatten, general, Manifest.storageSize]
  simp

theorem getOsdSizeUpdates_adds (delete : Bool) (t : Manifest) :
    AddsSizes (getOsdSizeUpdates delete t) := by
  have general : ∀ (fs : List Fragment) (acc : List Upd), AddsSizes acc →
      AddsSizes (fs.foldl (fun a f => f.osd.elim a fun osdId =>
        .add (.osdSize osdId) (BitVec.ofInt 64 (if delete then -f.len else f.len)) :: a) acc) := by
    intro fs
    induction fs with
    | nil => exact fun _ h => h
    | cons f fs ih =>
      intro acc hacc
      refine ih _ ?_
      dsimp only
      cases f.osd with
      | none => exact hacc
      | some d => exact forall_mem_cons.mpr ⟨⟨d, _, rfl⟩, hacc⟩
  rw [getOsdSizeUpdates, ← foldl_flatten]
  exact general _ [] (by simp [AddsSizes])

theorem addedTo_getOsdSizeUpdates (delete : Bool) (t : Manifest) (d : OsdId) :
    addedTo (.osdSize d) (getOsdSizeUpdates delete t) =
      if delete then -t.bytesOn d else t.bytesOn d := by
  have general : ∀ (fs : List Fragment) (acc : List Upd),
      addedTo (.osdSize d) (fs.foldl (fun a f => f.osd.elim a fun osdId =>
        .add (.osdSize osdId) (BitVec.ofInt 64 (if delete then -f.len else f.len)) :: a) acc) =
        addedTo (.osdSize d) acc + (fs.map fun f => if f.osd = some d then
          BitVec.ofInt 64 (if delete then -f.len else f.len) else 0).sum := by
    intro fs
    induction fs with
    | nil => simp
    | cons f fs ih =>
      intro acc
      rw [foldl_cons, ih, map_cons, sum_cons, ← add_assoc]
      congr 1
      cases f.osd with
      | none => simp
      | some e =>
        simp [Update.add, Update.added, add_comm]
  have hnegated : ∀ fs : List Fragment,
      (fs.map fun f => if f.osd = some d then BitVec.ofInt 64 (-f.len) else 0).sum =
        -(fs.map fun f => if f.osd = some d then BitVec.ofInt 64 f.len else 0).sum := by
    intro fs
    induction fs with
    | nil => simp
    | cons f fs ih =>
      rw [map_cons, sum_cons, ih, map_cons, sum_cons, neg_add]
      congr 1
      split
      · exact BitVec.ofInt_neg
      · exact neg_zero.symm
  rw [getOsdSizeUpdates, ← foldl_flatten, general, addedTo_nil, zero_add, Manifest.bytesOn]
  cases delete with
  | true => simpa using hnegated t.fragments.flatten
  | false => simp

/-- The index of a cell, as an update gives it. -/
def cellIndex (e : (Nat × Nat) × Fragment) : Int × Int := ((e.1.1 : Int), (e.1.2 : Int))

theorem cellIndex_nodup (fragments : Layout Fragment) : ((cells fragments).map cellIndex).Nodup := by
  have h := (cells_keys_nodup fragments).map (f := fun p : Nat × Nat => ((p.1 : Int), (p.2 : Int)))
    fun p q h => by simpa [Prod.ext_iff] using h
  rwa [map_map] at h

theorem nthExn_eq_ok {α : Type} {l : List α} {n : Int} {x : α} :
    nthExn l n = .ok x ↔ ∃ i : Nat, (i : Int) = n ∧ l[i]? = some x := by
  unfold nthExn
  by_cases hn : n < 0
  · rw [if_pos hn]
    constructor
    · intro h
      cases h
    · rintro ⟨i, hi, _⟩
      omega
  · rw [if_neg hn]
    have hcast : ((n.toNat : Nat) : Int) = n := Int.toNat_of_nonneg (by omega)
    constructor
    · intro h
      refine ⟨n.toNat, hcast, ?_⟩
      cases hget : l[n.toNat]? <;> simp_all
    · rintro ⟨i, rfl, hget⟩
      simp [hget]

theorem Layout.index_eq_ok {fragments : Layout Fragment} {c i : Int} {f : Fragment} :
    Layout.index fragments c i = .ok f ↔ ∃ e ∈ cells fragments, cellIndex e = (c, i) ∧ e.2 = f := by
  simp only [Layout.index, bind_eq_ok, nthExn_eq_ok, cellIndex, Prod.mk.injEq]
  constructor
  · rintro ⟨row, ⟨c', rfl, hrow⟩, i', rfl, hf⟩
    exact ⟨((c', i'), f), mem_cells.mpr ⟨row, hrow, hf⟩, ⟨rfl, rfl⟩, rfl⟩
  · rintro ⟨⟨⟨c', i'⟩, f'⟩, hmem, ⟨rfl, rfl⟩, rfl⟩
    obtain ⟨row, hrow, hf⟩ := mem_cells.mp hmem
    exact ⟨row, ⟨c', rfl, hrow⟩, i', rfl, hf⟩

def sizeDelta (d : OsdId) (e : (Nat × Nat) × Fragment) (fu : FragmentUpdate) : BitVec 64 :=
  (if fu.osdIdO = some d then BitVec.ofInt 64 (fu.sizeChange.elim e.2.len Prod.fst) else 0) +
    -(if e.2.osd = some d then BitVec.ofInt 64 e.2.len else 0)

theorem updateOsdSizes_spec {acc us : List Upd} {fu : FragmentUpdate}
    (h : updateOsdSizes t acc fu = .ok us) (hacc : AddsSizes acc) :
    AddsSizes us ∧ ∃ e ∈ cells t.fragments, cellIndex e = fu.index ∧
      ∀ d, addedTo (.osdSize d) us = addedTo (.osdSize d) acc + sizeDelta d e fu := by
  simp only [updateOsdSizes, Manifest.getPackedSize, Manifest.getLocation, bind_eq_ok] at h
  obtain ⟨_, ⟨f, hf, hlen⟩, _, ⟨f', hf', hloc⟩, h⟩ := h
  rw [hf] at hf'
  cases hf'
  cases hlen
  cases hloc
  cases h
  obtain ⟨e, he, hindex, rfl⟩ := Layout.index_eq_ok.mp hf
  have hnegated : BitVec.ofInt 64 (-e.2.len) = -BitVec.ofInt 64 e.2.len := BitVec.ofInt_neg
  refine ⟨?_, e, he, hindex, fun d => ?_⟩
  · intro u hu
    obtain ⟨l, hl, hul⟩ := mem_flattenUnordered.mp hu
    simp only [mem_cons, not_mem_nil, or_false] at hl
    rcases hl with rfl | rfl | rfl
    · split at hul
      · simp at hul
      · exact ⟨_, _, by simpa using hul⟩
      · exact ⟨_, _, by simpa using hul⟩
    · split at hul
      · simp at hul
      · exact ⟨_, _, by simpa using hul⟩
    · exact hacc u hul
  · have hsum : ∀ l₁ l₂ : List Upd, addedTo (.osdSize d) (flattenUnordered [l₁, l₂, acc]) =
        addedTo (.osdSize d) acc + (addedTo (.osdSize d) l₁ + addedTo (.osdSize d) l₂) := by
      intro l₁ l₂
      have hperm : (flattenUnordered [l₁, l₂, acc]).Perm (acc ++ (l₁ ++ l₂)) := by
        simp only [flattenUnordered, foldl_cons, foldl_nil, reverseAux_eq,
          append_nil]
        refine (reverse_perm acc).append ?_
        exact ((reverse_perm l₂).append (reverse_perm l₁)).trans perm_append_comm
      rw [addedTo_perm hperm, addedTo_append, addedTo_append]
    rw [hsum, sizeDelta]
    congr 2
    · cases fu.osdIdO with
      | none => simp
      | some o => cases fu.sizeChange <;> simp [Update.add, Update.added]
    · cases ho : e.2.osd with
      | none => simp [Fragment.locOf, ho]
      | some o =>
        by_cases hd : o = d <;> simp [Fragment.locOf, ho, Update.add, Update.added, hd, hnegated]

theorem foldlM_updateOsdSizes {fus : List FragmentUpdate} {acc us : List Upd}
    (h : fus.foldlM (updateOsdSizes t) acc = .ok us) (hacc : AddsSizes acc) :
    AddsSizes us ∧ (∀ fu ∈ fus, ∃ e ∈ cells t.fragments, cellIndex e = fu.index) ∧
      ∀ d, addedTo (.osdSize d) us = addedTo (.osdSize d) acc + (fus.map fun fu =>
        ((cells t.fragments).find? fun e => cellIndex e = fu.index).elim 0 fun e =>
          sizeDelta d e fu).sum := by
  induction fus generalizing acc with
  | nil =>
    cases h
    simp [hacc]
  | cons fu fus ih =>
    rw [foldlM_cons, bind_eq_ok] at h
    obtain ⟨mid, hstep, hrest⟩ := h
    obtain ⟨hmid, e, he, hindex, hadded⟩ := updateOsdSizes_spec hstep hacc
    obtain ⟨hus, hfound, hsum⟩ := ih hrest hmid
    refine ⟨hus, forall_mem_cons.mpr ⟨⟨e, he, hindex⟩, hfound⟩, fun d => ?_⟩
    have hfind : ((cells t.fragments).find? fun e => cellIndex e = fu.index) = some e := by
      rw [← hindex]
      exact find?_of_nodup (cellIndex_nodup t.fragments) he
    rw [hsum, hadded, map_cons, sum_cons, hfind, add_assoc]
    rfl

theorem fragmentTable_eq {fus table : List FragmentUpdate} (h : fragmentTable fus = .ok table) :
    table = fus.reverse ∧ (table.map FragmentUpdate.index).Nodup := by
  have general : ∀ (l acc table : List FragmentUpdate), (acc.map FragmentUpdate.index).Nodup →
      l.foldlM (fun table fu =>
        if table.any (·.index = fu.index) then
          .error (.nsm .unknown (.text "duplicate chunk_id,fragment_id for update_manifest"))
        else .ok (fu :: table)) acc = (.ok table : Except Exn _) →
      table = l.reverse ++ acc ∧ (table.map FragmentUpdate.index).Nodup := by
    intro l
    induction l with
    | nil =>
      intro acc table hacc h
      cases h
      exact ⟨rfl, hacc⟩
    | cons fu l ih =>
      intro acc table hacc h
      rw [foldlM_cons, bind_eq_ok] at h
      obtain ⟨mid, hstep, hrest⟩ := h
      split at hstep
      · cases hstep
      · rename_i hnew
        cases hstep
        have hfresh : fu.index ∉ acc.map FragmentUpdate.index := by
          simpa [any_eq_true] using hnew
        obtain ⟨rfl, hnodup⟩ := ih _ _ (by simpa using ⟨by simpa using hfresh, hacc⟩) hrest
        exact ⟨by simp, hnodup⟩
  obtain ⟨heq, hnodup⟩ := general fus [] table (by simp) h
  exact ⟨by simpa using heq, hnodup⟩

theorem Manifest.cells_updateWith (t : Manifest) (table : List FragmentUpdate) (versionId : Int32) :
    cells (t.updateWith table versionId).fragments = (cells t.fragments).map fun e =>
      (e.1, updateFragment table versionId e.1.1 e.1.2 e.2) :=
  cells_mapIdx _ _

theorem Manifest.bytesOn_updateWith (t : Manifest) (table : List FragmentUpdate)
    (versionId : Int32) (d : OsdId) :
    (t.updateWith table versionId).bytesOn d = t.bytesOn d +
      ((cells t.fragments).map fun e =>
        (table.find? fun fu => fu.index = cellIndex e).elim 0 (sizeDelta d e)).sum := by
  rw [Manifest.bytesOn, Manifest.bytesOn, flatten_eq_cells, flatten_eq_cells,
    Manifest.cells_updateWith, map_map, map_map, map_map, ← sum_map_add]
  congr 1
  refine map_congr_left fun e _ => ?_
  have hfind : (table.find? fun fu => fu.index = cellIndex e) = findUpdate table e.1.1 e.1.2 := rfl
  rw [hfind]
  simp only [Function.comp_apply, updateFragment]
  cases findUpdate table e.1.1 e.1.2 with
  | none => simp
  | some fu =>
    simp only [Option.elim, sizeDelta]
    abel

theorem addedTo_updateOsdSizes {fus table us : List _} {versionId : Int32}
    (htable : fragmentTable fus = .ok table) (h : fus.foldlM (updateOsdSizes t) [] = .ok us)
    (d : OsdId) : t.bytesOn d + addedTo (.osdSize d) us = (t.updateWith table versionId).bytesOn d := by
  obtain ⟨rfl, hnodup⟩ := fragmentTable_eq htable
  obtain ⟨_, _, hsum⟩ := foldlM_updateOsdSizes h (by simp [AddsSizes])
  rw [hsum, Manifest.bytesOn_updateWith,
    sum_find_comm (sizeDelta d) (cellIndex_nodup t.fragments) hnodup, addedTo_nil, zero_add]
  congr 1
  exact ((reverse_perm fus).map _).symm.sum_eq

end Sizes

section Stored

variable (t : Manifest)

@[simp] theorem Manifest.stored_name : t.stored.name = t.name := rfl

@[simp] theorem Manifest.stored_objectId : t.stored.objectId = t.objectId := rfl

@[simp] theorem Manifest.stored_size : t.stored.size = t.size := rfl

@[simp] theorem Manifest.stored_storageSize : t.stored.storageSize = t.storageSize := by
  simp [Manifest.storageSize, Manifest.stored, ← map_flatten, Function.comp_def]

@[simp] theorem Manifest.stored_bytesOn (d : OsdId) : t.stored.bytesOn d = t.bytesOn d := by
  simp [Manifest.bytesOn, Manifest.stored, ← map_flatten, Function.comp_def]

@[simp] theorem Manifest.stored_locatedOn (d : OsdId) : t.stored.LocatedOn d ↔ t.LocatedOn d := by
  rw [Manifest.LocatedOn, Manifest.stored, ← map_flatten]
  constructor
  · rintro ⟨_, hmap, hd⟩
    obtain ⟨f, hf, rfl⟩ := mem_map.mp hmap
    exact ⟨f, hf, hd⟩
  · rintro ⟨f, hf, hd⟩
    exact ⟨_, mem_map_of_mem hf, hd⟩

theorem countsOf_congr {node : OsdId → Option Bytes} {g : Fragment → Fragment}
    (hg : ∀ f, (g f).osd = f.osd) (fragments : Layout Fragment) :
    countsOf node (fragments.map fun chunk => chunk.map g) = countsOf node fragments := by
  have hcount : ∀ chunk : List Fragment,
      countOnNode node (chunk.map g) = countOnNode node chunk := by
    intro chunk
    funext n
    simp [countOnNode, countP_map, Function.comp_def, hg]
  have hmost : ∀ chunk : List Fragment, maxOnNode node (chunk.map g) = maxOnNode node chunk := by
    intro chunk
    rw [maxOnNode, hcount, filterMap_map]
    simp only [Function.comp_def, hg]
    rfl
  have hlocated : ∀ chunk : List Fragment, locatedCount (chunk.map g) = locatedCount chunk := by
    intro chunk
    simp [locatedCount, countP_map, Function.comp_def, hg]
  simp [countsOf, Function.comp_def, hmost, hlocated]

@[simp] theorem bucketOf_stored (node : OsdId → Option Bytes) :
    bucketOf node t.stored = bucketOf node t := by
  simp [bucketOf, Manifest.stored, countsOf_congr]

@[simp] theorem Manifest.stored_updateWith (table : List FragmentUpdate) (versionId : Int32) :
    (t.updateWith table versionId).stored = t.updateWith table versionId := by
  have hfnr : ∀ (c i : Nat) (f : Fragment),
      { updateFragment table versionId c i f with fnr := none } =
        updateFragment table versionId c i f := by
    intro c i f
    unfold updateFragment
    split <;> rfl
  simp [Manifest.stored, Manifest.updateWith, Layout.mapIndexed, mapIdx_eq_zipIdx_map, hfnr,
    Function.comp_def]

end Stored

end Alba.Nsm
