import Alba.Nsm.Index
import Alba.ProofKit.Commute

/-! What the updates of an object touch and what their computation reads. The list of a put or a deletion
is owned by its name and by the ids of the objects that it stores and replaces; lists of updates with
other names and ids commute. What is read is asserted, except for the absence of a deleted name. -/

namespace Alba.Nsm

open ProofKit Std List

/-- The key belongs to one of the names or to one of the object ids. -/
def Key.Owned (names ids : Bytes → Prop) : Key → Prop
  | .names n => names n
  | .objects id => ids id
  | .policies _ id => ids id
  | .osdObjects _ id => ids id
  | _ => False

/-- The keys that hold a sum over objects. -/
def Key.IsSum : Key → Prop
  | .namespaceLogicalSize => True
  | .namespaceStorageSize => True
  | .policiesCnt _ => True
  | .osdSize _ => True
  | _ => False

/-- The update is owned by the names and ids, or one that the updates of other objects may make as
well. -/
inductive Within (names ids : Bytes → Prop) : Upd → Prop
  | owned {u : Upd} (h : u.key.Owned names ids) : Within names ids u
  | epochs (v : Option Value) : Within names ids (.assert .gcEpochs v)
  | active (d : OsdId) (v : Option Value) : Within names ids (.assert (.activeOsds d) v)
  | scheduled (d : OsdId) (key : Bytes) :
    Within names ids (.set (.keysToBeDeleted d key) (some .empty))
  | added {k : Key} (h : k.IsSum) (x : BitVec 64) : Within names ids (.add k x)

section Within

variable {names names' ids ids' : Bytes → Prop} {u v : Upd} {k : Key}

theorem Key.Owned.disjoint (h : k.Owned names ids) (h' : k.Owned names' ids')
    (hnames : ∀ n, names n → ¬names' n) (hids : ∀ id, ids id → ¬ids' id) : False := by
  cases k <;> first | exact hnames _ h h' | exact hids _ h h' | exact h

theorem Key.Owned.not_isSum (h : k.Owned names ids) : ¬k.IsSum := by
  intro h'
  cases k <;> first | exact h | exact h'

theorem Key.Owned.key_ne (h : k.Owned names ids) (h' : Within names' ids' v)
    (hnames : ∀ n, names n → ¬names' n) (hids : ∀ id, ids id → ¬ids' id) : k ≠ v.key := by
  rintro rfl
  cases h' with
  | owned h' => exact h.disjoint h' hnames hids
  | epochs v => exact h
  | active d v => exact h
  | scheduled d key => exact h
  | added h' x => exact h.not_isSum h'

theorem Within.not_writes_frame (h : Within names ids u) (hk : k.kind ∈ frameKinds) : ¬u.Writes k := by
  intro hw
  have he := hw.key_eq
  cases h with
  | owned h =>
    rw [he] at h
    cases k <;> first | exact h | simp [frameKinds] at hk
  | epochs | active => exact hw
  | scheduled d key =>
    subst he
    simp [frameKinds] at hk
  | @added k' h x =>
    have hk' : k'.kind ∈ frameKinds := by
      rw [← he] at hk
      exact hk
    cases k' <;> first | exact h | simp [frameKinds] at hk'

theorem Within.commutes (h : Within names ids u) (h' : Within names' ids' v)
    (hnames : ∀ n, names n → ¬names' n) (hids : ∀ id, ids id → ¬ids' id) : u.Commutes v := by
  intro hk
  by_cases hu : u.key.Owned names ids
  · exact absurd hk (hu.key_ne h' hnames hids)
  by_cases hv : v.key.Owned names' ids'
  · exact absurd hk.symm (hv.key_ne h (fun n hn hn' => hnames n hn' hn) fun i hi hi' => hids i hi' hi)
  cases h with
  | owned h => exact absurd h hu
  | epochs x =>
    cases h' with
    | owned h' => exact absurd h' hv
    | epochs | active => trivial
    | scheduled => cases hk
    | added h' =>
      cases hk
      exact absurd h' id
  | active d x =>
    cases h' with
    | owned h' => exact absurd h' hv
    | epochs | active => trivial
    | scheduled => cases hk
    | added h' =>
      cases hk
      exact absurd h' id
  | scheduled d key =>
    cases h' with
    | owned h' => exact absurd h' hv
    | epochs | active => cases hk
    | scheduled => rfl
    | added h' =>
      cases hk
      exact absurd h' id
  | added h x =>
    cases h' with
    | owned h' => exact absurd h' hv
    | epochs | active | scheduled =>
      cases hk
      exact absurd h id
    | added => trivial

theorem listsCommute_of_within {us vs : List Upd} (h : ∀ u ∈ us, Within names ids u)
    (h' : ∀ v ∈ vs, Within names' ids' v) (hnames : ∀ n, names n → ¬names' n)
    (hids : ∀ id, ids id → ¬ids' id) : ListsCommute us vs :=
  fun u hu v hv => (h u hu).commutes (h' v hv) hnames hids

theorem runKey_of_within {us : List Upd} (h : ∀ u ∈ us, Within names ids u)
    (hk : k.Owned names' ids') (hnames : ∀ n, names' n → ¬names n)
    (hids : ∀ id, ids' id → ¬ids id) (v : Option Value) : runKey k us v = v :=
  runKey_of_not_writes v fun u hu hw => hk.key_ne (h u hu) hnames hids hw.key_eq.symm

end Within

/-- The kinds of keys that the updates of an object assert before they write them. -/
def guardedKinds : List Kind := [.names, .objects, .gcEpochs, .activeOsds]

section Pieces

variable {namespaceId : NamespaceId} {cache : Option (BitVec 64 × Preset)} {kv : Store}
  {objectId : Bytes} {us : List Upd} {t : Manifest} {names ids : Bytes → Prop}
  {newFragments : Layout Fragment} {oldLocations : Layout Loc}

theorem deleteFragments_scheduled {fragments : Layout Fragment} {u : Upd}
    (h : u ∈ deleteFragments namespaceId objectId fragments) :
    ∃ d key, u = .set (.keysToBeDeleted d key) (some .empty) := by
  obtain ⟨p, _, hp⟩ := mem_deleteFragments.mp h
  rcases mem_deleteKeys.mp hp with rfl | rfl <;> exact ⟨_, _, rfl⟩

section

variable (h : updateDeviceObjectMapping kv objectId oldLocations newFragments = .ok us)
include h

theorem mem_mapping
    {u : Upd} (hu : u ∈ us) : (∃ d, u = .assert (.activeOsds d) (kvGet kv (.activeOsds d))) ∨
      ∃ d v, u = .set (.osdObjects d objectId) v := by
  simp only [updateDeviceObjectMapping, bind_eq_ok] at h
  obtain ⟨adds, hadds, h⟩ := h
  cases h
  rw [reverseAux_eq, mem_append, mem_reverse, mem_foldlM_addOsdObject hadds,
    mem_deleteOsdObjects] at hu
  rcases hu with (hu | ⟨d, _, rfl | rfl⟩) | ⟨d, _, rfl⟩
  · simp at hu
  · exact Or.inl ⟨d, rfl⟩
  · exact Or.inr ⟨d, _, rfl⟩
  · exact Or.inr ⟨d, _, rfl⟩

theorem mapping_within (hid : ids objectId) : ∀ u ∈ us, Within names ids u := by
  intro u hu
  rcases mem_mapping h hu with ⟨d, rfl⟩ | ⟨d, v, rfl⟩
  · exact .active d _
  · exact .owned hid

theorem mapping_guards : Guards Key.kind guardedKinds (kvGet kv) us := by
  refine .of_asserts fun u hu hk => ?_
  rcases mem_mapping h hu with ⟨d, rfl⟩ | ⟨d, v, rfl⟩
  · rfl
  · simp [guardedKinds] at hk

end

theorem osdSizes_within (hadds : AddsSizes us) : ∀ u ∈ us, Within names ids u := by
  intro u hu
  obtain ⟨d, x, rfl⟩ := hadds u hu
  exact .added (show (Key.osdSize d).IsSum from trivial) x

theorem osdSizes_guards (hadds : AddsSizes us) : Guards Key.kind guardedKinds (kvGet kv) us := by
  refine .of_outside fun u hu => ?_
  obtain ⟨d, x, rfl⟩ := hadds u hu
  simp [guardedKinds]

section

variable (h : cleanupForObjectId namespaceId cache kv objectId = .ok (us, t))
include h

theorem cleanup_within (hid : ids objectId) : ∀ u ∈ us, Within names ids u := by
  obtain ⟨_, rfl⟩ := cleanupForObjectId_eq_ok h
  simp only [flatten_cons, flatten_nil, append_nil, forall_mem_append,
    Update.compareAndSwap, forall_mem_cons, not_mem_nil, false_implies, implies_true,
    and_true]
  have hcount : (Key.policiesCnt (bucketOf (nodeOf kv) t)).IsSum := trivial
  refine ⟨⟨.owned hid, .owned hid⟩, ⟨.owned hid, .added hcount _⟩, ?_, ?_,
    osdSizes_within (getOsdSizeUpdates_adds true t)⟩
  · intro u hu
    obtain ⟨d, key, rfl⟩ := deleteFragments_scheduled hu
    exact .scheduled d key
  · intro u hu
    obtain ⟨d, _, rfl⟩ := mem_deleteOsdObjects.mp hu
    exact .owned hid

theorem cleanup_guards : Guards Key.kind guardedKinds (kvGet kv) us := by
  obtain ⟨hget, rfl⟩ := cleanupForObjectId_eq_ok h
  refine .flatten fun l hl => ?_
  simp only [mem_cons, not_mem_nil, or_false] at hl
  rcases hl with rfl | rfl | rfl | rfl | rfl
  · exact .compareAndSwap hget.symm none
  · exact .of_outside (by simp [guardedKinds])
  · refine .of_outside fun u hu => ?_
    obtain ⟨d, key, rfl⟩ := deleteFragments_scheduled hu
    simp [guardedKinds]
  · refine .of_outside fun u hu => ?_
    obtain ⟨d, _, rfl⟩ := mem_deleteOsdObjects.mp hu
    simp [guardedKinds]
  · exact osdSizes_guards (getOsdSizeUpdates_adds true t)

theorem mem_cleanup : .assert (.objects objectId) (kvGet kv (.objects objectId)) ∈ us := by
  obtain ⟨hget, rfl⟩ := cleanupForObjectId_eq_ok h
  simp [Update.compareAndSwap, hget]

end

theorem updateBuckets_within {k m : Int} {c c' : Nat × Nat} (hid : ids objectId) :
    ∀ u ∈ updateBuckets k m objectId c c', Within names ids u := by
  unfold updateBuckets
  split
  · simp only [forall_mem_cons, not_mem_nil, false_implies, implies_true, and_true]
    have hold : (Key.policiesCnt (bucket k m c)).IsSum := trivial
    have hnew : (Key.policiesCnt (bucket k m c')).IsSum := trivial
    exact ⟨.owned hid, .added hold _, .owned hid, .added hnew _⟩
  · simp

theorem updateStorageSize_within {t t' : Manifest} :
    ∀ u ∈ updateStorageSize t t', Within names ids u := by
  have hstorage : Key.namespaceStorageSize.IsSum := trivial
  simp only [updateStorageSize]
  split
  · simp
  · simp only [forall_mem_cons, not_mem_nil, false_implies, implies_true, and_true]
    exact .added hstorage _

theorem updateManifestGeneric_within {name : Bytes} {fus : List FragmentUpdate} {gcEpoch : Int64}
    {versionId : Int32}
    (h : updateManifestGeneric namespaceId cache kv name objectId fus gcEpoch versionId = .ok us)
    (hid : ids objectId) : ∀ u ∈ us, Within names ids u := by
  obtain ⟨table, t, mapping, osdSizes, _, _, _, _, _, hsizes, hmapping, _, rfl⟩ :=
    updateManifestGeneric_eq_ok h
  obtain ⟨hadds, _⟩ := foldlM_updateOsdSizes hsizes (by simp [AddsSizes])
  simp only [updateUpdates, flatten_cons, flatten_nil, append_nil,
    forall_mem_append, Update.compareAndSwap, forall_mem_cons, not_mem_nil,
    false_implies, implies_true, and_true]
  refine ⟨?_, ⟨.owned hid, .owned hid⟩, .epochs _, mapping_within hmapping hid,
    osdSizes_within hadds, updateBuckets_within hid, updateStorageSize_within⟩
  intro u hu
  obtain ⟨p, _, hp⟩ := mem_deleteKeysFromDevice.mp hu
  rcases mem_deleteKeys.mp hp with rfl | rfl <;> exact .scheduled _ _

end Pieces

namespace NsmUpdate

/-- The ids of the object that the update stores and of the one it replaces or deletes. -/
def Ids (kv : Store) (u : NsmUpdate) (id : Bytes) : Prop :=
  (∃ p ∈ u.put?, p.1.objectId = id) ∨ kvGet kv (.names u.name) = some (.objectInfo id)

end NsmUpdate

/-- What the list of updates computed for `u` from `kv` does and asserts. -/
structure Footprint (kv : Store) (u : NsmUpdate) (us : List Upd) : Prop where
  within : ∀ w ∈ us, Within (· = u.name) (u.Ids kv) w
  guards : Guards Key.kind guardedKinds (kvGet kv) us
  name : .assert (.names u.name) (kvGet kv (.names u.name)) ∈ us
  objects : ∀ id, u.Ids kv id → .assert (.objects id) (kvGet kv (.objects id)) ∈ us
  epochs : u.put? ≠ none → .assert .gcEpochs (kvGet kv .gcEpochs) ∈ us
  fresh : ∀ p ∈ u.put?, kvGet kv (.objects p.1.objectId) = none
  old : ∀ id, kvGet kv (.names u.name) = some (.objectInfo id) → kvGet kv (.objects id) ≠ none
  nameAfter : ∀ v, runKey (.names u.name) us v = u.put?.map fun p => .objectInfo p.1.objectId
  stored : ∀ p ∈ u.put?, ∀ v,
    runKey (.objects p.1.objectId) us v = some (.manifest p.1.stored)

section Footprint

variable {namespaceId : NamespaceId} {cache : Option (BitVec 64 × Preset)} {kv : Store}
  {us : List Upd}

theorem putObject_footprint {overwrite : Overwrite} {m : Manifest} {gcEpoch : Int64}
    {oldInfo : Option Manifest}
    (h : putObject namespaceId cache kv overwrite m gcEpoch = .ok (us, oldInfo)) :
    Footprint kv (.putObject m gcEpoch) us := by
  obtain ⟨oldId, cleanOld, logicalDelta, storageDelta, mapping, hnew, hname, hclean, _, hmapping, _,
    rfl⟩ := putObject_eq_ok h
  have hown : (NsmUpdate.putObject m gcEpoch).Ids kv m.objectId := Or.inl ⟨_, rfl, rfl⟩
  have hold := cleanOldInfo_eq_ok hclean
  constructor
  case within =>
    rw [forall_mem_append]
    refine ⟨?_, ?_⟩
    · simp only [putUpdates, flatten_cons, flatten_nil, append_nil,
        forall_mem_append, Update.compareAndSwap, forall_mem_cons, not_mem_nil,
        false_implies, implies_true, and_true]
      have hlogical : Key.namespaceLogicalSize.IsSum := trivial
      have hstorage : Key.namespaceStorageSize.IsSum := trivial
      have hcount : (Key.policiesCnt (bucketOf (nodeOf kv) m)).IsSum := trivial
      exact ⟨⟨.owned rfl, .owned rfl⟩, ⟨.owned hown, .owned hown⟩,
        ⟨.owned hown, .added hcount _⟩, ⟨.epochs _, .added hlogical _, .added hstorage _⟩,
        osdSizes_within (getOsdSizeUpdates_adds false m), mapping_within hmapping hown⟩
    · rcases hold with ⟨_, rfl, _⟩ | ⟨id, t, rfl, hcleanup, _⟩
      · simp
      · exact cleanup_within hcleanup (Or.inr hname)
  case guards =>
    refine .append (.flatten fun l hl => ?_) ?_
    · simp only [mem_cons, not_mem_nil, or_false] at hl
      rcases hl with rfl | rfl | rfl | rfl | rfl | rfl
      · exact .compareAndSwap hname.symm _
      · exact .compareAndSwap hnew.symm _
      · exact .of_outside (by simp [guardedKinds])
      · exact .of_asserts (by simp [guardedKinds])
      · exact osdSizes_guards (getOsdSizeUpdates_adds false m)
      · exact mapping_guards hmapping
    · rcases hold with ⟨_, rfl, _⟩ | ⟨id, t, rfl, hcleanup, _⟩
      · exact .nil
      · exact cleanup_guards hcleanup
  case name => simp [putUpdates, Update.compareAndSwap, NsmUpdate.name, hname]
  case objects =>
    rintro id (⟨p, hp, rfl⟩ | hid)
    · cases hp
      simp [putUpdates, Update.compareAndSwap, hnew]
    · rcases hold with ⟨rfl, _⟩ | ⟨id', t, rfl, hcleanup, _⟩
      · rw [show kvGet kv (.names m.name) = some (.objectInfo id) from hid] at hname
        cases hname
      · rw [show kvGet kv (.names m.name) = some (.objectInfo id) from hid] at hname
        cases hname
        exact mem_append_right _ (mem_cleanup hcleanup)
  case epochs => simp [putUpdates]
  case fresh =>
    intro p hp
    cases hp
    exact hnew
  case old =>
    intro id hid
    rw [show kvGet kv (.names m.name) = some (.objectInfo id) from hid] at hname
    rcases hold with ⟨rfl, _⟩ | ⟨id', t, rfl, hcleanup, _⟩
    · cases hname
    · cases hname
      simp [(cleanupForObjectId_eq_ok hcleanup).1]
  case nameAfter =>
    intro v
    rw [runKey_append, runKey_putUpdates hmapping]
    rcases hold with ⟨_, rfl, _⟩ | ⟨id, t, rfl, hcleanup, _⟩
    · simp [putAct, NsmUpdate.name, NsmUpdate.put?]
    · simp [runKey_cleanup hcleanup, cleanupAct, putAct, NsmUpdate.name, NsmUpdate.put?]
  case stored =>
    intro p hp v
    cases hp
    rw [runKey_append, runKey_putUpdates hmapping]
    rcases hold with ⟨_, rfl, _⟩ | ⟨id, t, rfl, hcleanup, _⟩
    · simp [putAct]
    · have hne : id ≠ m.objectId := by
        rintro rfl
        rw [(cleanupForObjectId_eq_ok hcleanup).1] at hnew
        cases hnew
      simp [runKey_cleanup hcleanup, cleanupAct, putAct, hne]

theorem deleteObject_footprint {overwrite : Overwrite} {name : Bytes} {deleted : Option Manifest}
    (h : deleteObject namespaceId cache kv name overwrite = .ok (us, deleted)) :
    (kvGet kv (.names name) = none ∧ us = []) ∨ Footprint kv (.deleteObject name) us := by
  rcases deleteObject_eq_ok h with
    ⟨hname, rfl, _⟩ | ⟨id, t, cleanup, mapping, _, hname, hclean, hmapping, rfl⟩
  · exact Or.inl ⟨hname, rfl⟩
  refine Or.inr ?_
  have hown : (NsmUpdate.deleteObject name).Ids kv id := Or.inr hname
  constructor
  case within =>
    simp only [deleteUpdates, flatten_cons, flatten_nil, append_nil,
      forall_mem_append, Update.compareAndSwap, forall_mem_cons, not_mem_nil,
      false_implies, implies_true, and_true]
    have hlogical : Key.namespaceLogicalSize.IsSum := trivial
    have hstorage : Key.namespaceStorageSize.IsSum := trivial
    exact ⟨⟨.owned rfl, .owned rfl⟩, cleanup_within hclean hown, mapping_within hmapping hown,
      .added hlogical _, .added hstorage _⟩
  case guards =>
    refine .flatten fun l hl => ?_
    simp only [mem_cons, not_mem_nil, or_false] at hl
    rcases hl with rfl | rfl | rfl | rfl | rfl
    · exact .compareAndSwap hname.symm none
    · exact cleanup_guards hclean
    · exact mapping_guards hmapping
    · exact .of_outside (by simp [guardedKinds])
    · exact .of_outside (by simp [guardedKinds])
  case name => simp [deleteUpdates, Update.compareAndSwap, NsmUpdate.name, hname]
  case objects =>
    rintro id' (⟨p, hp, _⟩ | hid)
    · cases hp
    · rw [show kvGet kv (.names name) = some (.objectInfo id') from hid] at hname
      cases hname
      simp [deleteUpdates, mem_cleanup hclean]
  case epochs => simp [NsmUpdate.put?]
  case fresh =>
    intro p hp
    cases hp
  case old =>
    intro id' hid
    rw [show kvGet kv (.names name) = some (.objectInfo id') from hid] at hname
    cases hname
    simp [(cleanupForObjectId_eq_ok hclean).1]
  case nameAfter =>
    intro v
    simp [runKey_deleteObject hclean hmapping, deleteAct, NsmUpdate.name, NsmUpdate.put?]
  case stored =>
    intro p hp
    cases hp

theorem updatesForUpdate_footprint {u : NsmUpdate}
    (h : updatesForUpdate namespaceId cache kv u = .ok us) :
    (u.put? = none ∧ kvGet kv (.names u.name) = none ∧ us = []) ∨ Footprint kv u us := by
  cases u with
  | putObject m gcEpoch =>
    obtain ⟨⟨us', oldInfo⟩, hput, rfl⟩ := map_eq_ok.mp h
    exact Or.inr (putObject_footprint hput)
  | deleteObject name =>
    obtain ⟨⟨us', deleted⟩, hdelete, rfl⟩ := map_eq_ok.mp h
    exact (deleteObject_footprint hdelete).imp (fun hmissing => ⟨rfl, hmissing⟩) id

end Footprint

end Alba.Nsm
