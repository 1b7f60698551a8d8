import Alba.Nsm.Step

/-! What an operation does to the objects of a namespace, apart from how its updates are listed. A
change gives every object id that it touches the manifest before and the manifest after; `Effect`
says what becomes of each kind of key when a change is applied. -/

namespace Alba.Nsm

open ProofKit Std

namespace Manifest

def LocatedOn (t : Manifest) (d : OsdId) : Prop := ∃ f ∈ t.fragments.flatten, f.osd = some d

instance (t : Manifest) (d : OsdId) : Decidable (t.LocatedOn d) :=
  inferInstanceAs (Decidable (∃ f ∈ t.fragments.flatten, f.osd = some d))

def storageSize (t : Manifest) : BitVec 64 :=
  (t.fragments.flatten.map fun f => BitVec.ofInt 64 f.len).sum

def bytesOn (d : OsdId) (t : Manifest) : BitVec 64 :=
  (t.fragments.flatten.map fun f => if f.osd = some d then BitVec.ofInt 64 f.len else 0).sum

end Manifest

def locatedCount (chunk : List Fragment) : Nat := chunk.countP fun f => f.osd.isSome

def countOnNode (nodeOf : OsdId → Option Bytes) (chunk : List Fragment) (node : Bytes) : Nat :=
  chunk.countP fun f => (f.osd.bind nodeOf) = some node

def maxOnNode (nodeOf : OsdId → Option Bytes) (chunk : List Fragment) : Nat :=
  ((chunk.filterMap fun f => f.osd.bind nodeOf).map (countOnNode nodeOf chunk)).foldr max 0

/-- The least count of located fragments over the chunks and the largest count on one node. -/
def countsOf (nodeOf : OsdId → Option Bytes) (fragments : Layout Fragment) : Nat × Nat :=
  ((fragments.map locatedCount).foldl min maxInt,
    (fragments.map (maxOnNode nodeOf)).foldl max 0)

def bucketOf (nodeOf : OsdId → Option Bytes) (t : Manifest) : Bucket :=
  bucket t.storageScheme.k t.storageScheme.m (countsOf nodeOf t.fragments)

def nodeOf (kv : Store) (osdId : OsdId) : Option Bytes :=
  match kvGet kv (.osdInfo osdId) with
  | some (.osdInfo info) => some info.nodeId
  | _ => none

structure Placed where
  osdId : OsdId
  objectId : Bytes
  versionId : Int32
  chunkId : Nat
  fragmentId : Nat
  deriving DecidableEq

namespace Placed

def fragmentKey (namespaceId : NamespaceId) (p : Placed) : Bytes :=
  toGlobalKey namespaceId (fragment p.objectId p.versionId.toInt p.chunkId p.fragmentId)

def recoveryKey (namespaceId : NamespaceId) (p : Placed) : Bytes :=
  toGlobalKey namespaceId (fragmentRecoveryInfo p.objectId p.versionId.toInt p.chunkId p.fragmentId)

end Placed

/-- The located fragments of a layout that `p` selects. -/
def placed (objectId : Bytes) (p : Nat × Nat → Bool) (fragments : Layout Fragment) : List Placed :=
  (cells fragments).filterMap fun ((chunkId, fragmentId), f) =>
    if p (chunkId, fragmentId) then
      f.osd.map fun osdId => { osdId, objectId, versionId := f.ver, chunkId, fragmentId }
    else none

def Manifest.placed (t : Manifest) : List Placed := Nsm.placed t.objectId (fun _ => true) t.fragments

def updateFragment (table : List FragmentUpdate) (versionId : Int32) (chunkId fragmentId : Nat)
    (f : Fragment) : Fragment :=
  match findUpdate table chunkId fragmentId with
  | none => { f with fnr := none }
  | some fu =>
    { osd := fu.osdIdO, ver := versionId, crc := fu.sizeChange.elim f.crc Prod.snd
      len := fu.sizeChange.elim f.len Prod.fst, ctr := fu.ctr, fnr := none }

def Manifest.updateWith (t : Manifest) (table : List FragmentUpdate) (versionId : Int32) : Manifest :=
  { t with
    versionId, fragments := t.fragments.mapIndexed (updateFragment table versionId)
    counted := Layout.mapIndexed_counted _ t.counted }

inductive Change
  | put (manifest : Manifest) (gcEpoch : Int64) (old : Option (Bytes × Manifest))
  | delete (name objectId : Bytes) (manifest : Manifest)
  | update (objectId : Bytes) (table : List FragmentUpdate) (gcEpoch : Int64)
      (versionId : Int32) (manifestOld : Manifest)

structure Slot where
  objectId : Bytes
  before : Option Manifest
  after : Option Manifest

namespace Change

def slots : Change → List Slot
  | put manifest _ old =>
    { objectId := manifest.objectId, before := none, after := some manifest } ::
      old.toList.map fun (objectId, m) => { objectId, before := some m, after := none }
  | delete _ objectId manifest => [{ objectId, before := some manifest, after := none }]
  | update objectId table _ versionId manifestOld =>
    [{ objectId, before := some manifestOld, after := some (manifestOld.updateWith table versionId) }]

/-- What the change finds under the name it replaces or removes. -/
def NameBefore (kv : Store) : Change → Prop
  | put manifest _ old => kvGet kv (.names manifest.name) = old.map fun o => .objectInfo o.1
  | delete name objectId _ => kvGet kv (.names name) = some (.objectInfo objectId)
  | update _ _ _ _ _ => True

def nameAfter (n : Bytes) (v : Option Value) : Change → Option Value
  | put manifest _ _ => if manifest.name = n then some (.objectInfo manifest.objectId) else v
  | delete name _ _ => if name = n then none else v
  | update _ _ _ _ _ => v

/-- The fragments that the change takes from their osds. -/
def retired : Change → List Placed
  | put _ _ old => old.toList.flatMap fun o => placed o.1 (fun _ => true) o.2.fragments
  | delete _ objectId manifest => placed objectId (fun _ => true) manifest.fragments
  | update objectId table _ _ manifestOld =>
    placed objectId (fun p => (findUpdate table p.1 p.2).isSome) manifestOld.fragments

def EpochValid (kv : Store) : Change → Prop
  | put _ gcEpoch _ | update _ _ gcEpoch _ _ =>
    ∃ v epochs, getGcEpochs kv = .ok (v, epochs) ∧ epochs.isValidEpoch gcEpoch = true
  | delete _ _ _ => True

/-- What the manager has checked of an update: every index lies in the manifest and occurs once, and
the version follows the one of the manifest, or both are zero. -/
def Legal : Change → Prop
  | update _ table _ versionId manifestOld =>
    (table.map FragmentUpdate.index).Nodup ∧
      (∀ fu ∈ table, ∃ e ∈ cells manifestOld.fragments, ((e.1.1 : Int), (e.1.2 : Int)) = fu.index) ∧
      ((versionId = 0 ∧ manifestOld.versionId = 0) ∨
        (versionId ≠ 0 ∧ versionId.toInt = manifestOld.versionId.toInt + 1))
  | _ => True

end Change

/-- The keys under which a list of placed fragments is scheduled for deletion. -/
def scheduled (namespaceId : NamespaceId) (ps : List Placed) : List (OsdId × Bytes) :=
  ps.flatMap fun p => [(p.osdId, p.fragmentKey namespaceId), (p.osdId, p.recoveryKey namespaceId)]

def mark (d : OsdId) (m : Option Manifest) : Option Value :=
  if ∃ t ∈ m, t.LocatedOn d then some .empty else none

def policyMark (nodeOf : OsdId → Option Bytes) (b : Bucket) (m : Option Manifest) : Option Value :=
  if m.map (bucketOf nodeOf) = some b then some .empty else none

/-- What a counter gains by the slots of a change. -/
def gain (slots : List Slot) (g : Manifest → BitVec 64) : BitVec 64 :=
  (slots.map fun s => s.after.elim 0 g - s.before.elim 0 g).sum

/-- The kinds of keys that no change of objects touches. -/
def frameKinds : List Kind := [.gcEpochs, .preset, .presetVersion, .osdInfo, .activeOsds]

structure Effect (namespaceId : NamespaceId) (c : Change) (kv kv' : Store) : Prop where
  ids : (c.slots.map Slot.objectId).Nodup
  before : ∀ s ∈ c.slots, kvGet kv (.objects s.objectId) = s.before.map .manifest
  nameBefore : c.NameBefore kv
  epoch : c.EpochValid kv
  legal : c.Legal
  known : ∀ s ∈ c.slots, ∀ t ∈ s.after, ∀ d, t.LocatedOn d → (nodeOf kv d).isSome
  names : ∀ n, kvGet kv' (.names n) = c.nameAfter n (kvGet kv (.names n))
  after : ∀ s ∈ c.slots, kvGet kv' (.objects s.objectId) = s.after.map .manifest
  objects : ∀ id ∉ c.slots.map Slot.objectId, kvGet kv' (.objects id) = kvGet kv (.objects id)
  marks : ∀ s ∈ c.slots, ∀ d, kvGet kv (.osdObjects d s.objectId) = mark d s.before →
    kvGet kv' (.osdObjects d s.objectId) = mark d s.after
  osdObjects : ∀ d, ∀ id ∉ c.slots.map Slot.objectId,
    kvGet kv' (.osdObjects d id) = kvGet kv (.osdObjects d id)
  policyMarks : ∀ s ∈ c.slots,
    (∀ b, kvGet kv (.policies b s.objectId) = policyMark (nodeOf kv) b s.before) →
      ∀ b, kvGet kv' (.policies b s.objectId) = policyMark (nodeOf kv) b s.after
  policies : ∀ b, ∀ id ∉ c.slots.map Slot.objectId,
    kvGet kv' (.policies b id) = kvGet kv (.policies b id)
  policiesCnt : ∀ b x, kvGet kv (.policiesCnt b) = counter x → kvGet kv' (.policiesCnt b) =
    counter (x + gain c.slots fun m => if bucketOf (nodeOf kv) m = b then 1 else 0)
  logicalSize : ∀ x, kvGet kv .namespaceLogicalSize = counter x →
    kvGet kv' .namespaceLogicalSize = counter (x + gain c.slots Manifest.size)
  storageSize : ∀ x, kvGet kv .namespaceStorageSize = counter x →
    kvGet kv' .namespaceStorageSize = counter (x + gain c.slots Manifest.storageSize)
  osdSize : ∀ d x, kvGet kv (.osdSize d) = counter x →
    kvGet kv' (.osdSize d) = counter (x + gain c.slots (Manifest.bytesOn d))
  deletes : ∀ d key, kvGet kv' (.keysToBeDeleted d key) =
    if (d, key) ∈ scheduled namespaceId c.retired then some .empty
    else kvGet kv (.keysToBeDeleted d key)
  frame : ∀ k, k.kind ∈ frameKinds → kvGet kv' k = kvGet kv k

namespace Effect

variable {namespaceId : NamespaceId} {kv kv' : Store} {name objectId : Bytes} {m t : Manifest}
  {gcEpoch : Int64} {old : Option (Bytes × Manifest)} {table : List FragmentUpdate}
  {versionId : Int32}

theorem put_before (h : Effect namespaceId (.put m gcEpoch old) kv kv') :
    kvGet kv (.objects m.objectId) = none :=
  h.before ⟨m.objectId, none, some m⟩ (by simp [Change.slots])

theorem put_after (h : Effect namespaceId (.put m gcEpoch old) kv kv') :
    kvGet kv' (.objects m.objectId) = some (.manifest m) :=
  h.after ⟨m.objectId, none, some m⟩ (by simp [Change.slots])

theorem old_before (h : Effect namespaceId (.put m gcEpoch (some (objectId, t))) kv kv') :
    kvGet kv (.objects objectId) = some (.manifest t) :=
  h.before ⟨objectId, some t, none⟩ (by simp [Change.slots])

theorem old_after (h : Effect namespaceId (.put m gcEpoch (some (objectId, t))) kv kv') :
    kvGet kv' (.objects objectId) = none :=
  h.after ⟨objectId, some t, none⟩ (by simp [Change.slots])

theorem delete_before (h : Effect namespaceId (.delete name objectId t) kv kv') :
    kvGet kv (.objects objectId) = some (.manifest t) :=
  h.before ⟨objectId, some t, none⟩ (by simp [Change.slots])

theorem delete_after (h : Effect namespaceId (.delete name objectId t) kv kv') :
    kvGet kv' (.objects objectId) = none :=
  h.after ⟨objectId, some t, none⟩ (by simp [Change.slots])

theorem update_before (h : Effect namespaceId (.update objectId table gcEpoch versionId t) kv kv') :
    kvGet kv (.objects objectId) = some (.manifest t) :=
  h.before ⟨objectId, some t, some (t.updateWith table versionId)⟩ (by simp [Change.slots])

theorem update_after (h : Effect namespaceId (.update objectId table gcEpoch versionId t) kv kv') :
    kvGet kv' (.objects objectId) = some (.manifest (t.updateWith table versionId)) :=
  h.after ⟨objectId, some t, some (t.updateWith table versionId)⟩ (by simp [Change.slots])

end Effect

end Alba.Nsm
