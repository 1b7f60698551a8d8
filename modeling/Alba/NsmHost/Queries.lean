import Alba.NsmHost.Wrapped

/-! The queries of a namespace, as `handle_query` runs them through `WrapReadUserDb`. -/

namespace Alba.NsmHost

open ProofKit Nsm Std

section Decoding

def beNat (bytes : Bytes) : Nat := bytes.foldl (fun n b => 256 * n + b.toNat) 0

def int32BeFrom (buf : Bytes) : Except Exn (BitVec 32 × Bytes) :=
  if buf.length < 4 then .error .decodingFailure
  else .ok (BitVec.ofNat 32 (beNat (buf.take 4)), buf.drop 4)

def int64BeFrom (buf : Bytes) : Except Exn (BitVec 64 × Bytes) :=
  if buf.length < 8 then .error .decodingFailure
  else .ok (BitVec.ofNat 64 (beNat (buf.take 8)), buf.drop 8)

def xInt64BeFrom (buf : Bytes) : Except Exn (BitVec 64 × Bytes) := do
  let (i, rest) ← int32BeFrom buf
  if i.toInt < 2 ^ 31 - 1 then return (i.signExtend 64, rest) else int64BeFrom rest

/-- `Llio.string_from`, which reads the length least significant byte first. -/
def stringFrom (buf : Bytes) : Except Exn Bytes := do
  let (length, _) ← int32BeFrom (buf.take 4).reverse
  let rest := buf.drop 4
  if length.toInt < 0 ∨ rest.length < length.toNat then .error .decodingFailure
  else return rest.take length.toNat

def extractOsdIdFrom (prefixLen : Nat) (key : Bytes) : Except Exn (BitVec 64) :=
  Prod.fst <$> xInt64BeFrom (key.drop prefixLen)

def parsePoliciesCnt (key : Bytes) : Except Exn Bucket := do
  let (k, buf) ← int32BeFrom (key.drop Kind.policiesCnt.start.length)
  let (m, buf) ← int32BeFrom buf
  let (fragmentCount, buf) ← int32BeFrom buf
  let (maxDisksPerNode, _) ← int32BeFrom buf
  return { k, m, fragmentCount, maxDisksPerNode }

def parsePoliciesKey (key : Bytes) : Except Exn (Bucket × Bytes) := do
  let (k, buf) ← int32BeFrom (key.drop Kind.policies.start.length)
  let (m, buf) ← int32BeFrom buf
  let (fragmentCount, buf) ← int32BeFrom buf
  let (maxDisksPerNode, buf) ← int32BeFrom buf
  let objectId ← stringFrom buf
  return ({ k, m, fragmentCount, maxDisksPerNode := -maxDisksPerNode }, objectId)

end Decoding

structure RangeQueryArgs (κ : Type) where
  first : κ
  finc : Bool
  last : Option (κ × Bool)
  max : Int
  reverse : Bool

def capMax (max : Int) : Int := if max < 0 ∨ max > 200 then 200 else max

structure NamespaceStats where
  logicalSize : BitVec 64
  storageSize : BitVec 64
  storageSizePerOsd : Int × List (BitVec 64 × BitVec 64)
  bucketCount : Int × List (Bucket × BitVec 64)

section Reads

variable (pfx : Bytes) (db : ExtTreeMap Bytes Value)

def queryManifestById (objectId : Bytes) : Except Exn Manifest :=
  match wrapGet pfx db (Key.objects objectId).encode with
  | none => .error (.nsm .objectNotFound (.bytes objectId))
  | some v => asManifest v

def queryManifestByName (name : Bytes) : Except Exn (Option Manifest) :=
  match wrapGet pfx db (Key.names name).encode with
  | none => .ok none
  | some v => do
    let objectId ← asObjectId v
    match wrapGet pfx db (Key.objects objectId).encode with
    | none => .error .keyNotFound
    | some v => some <$> asManifest v

/-- The keys of one kind, from `first` to `last`; with no last one, up to `nextPrefix`. -/
def listRange {κ α : Type} (key : κ → Bytes) (nextPrefix : Option Bytes) (args : RangeQueryArgs κ)
    (f : Bytes → Value → Except Exn α) : Except Exn ((Int × List α) × Bool) :=
  mapRange pfx db (key args.first) args.finc
    (match args.last with
      | some (last, linc) => some (key last, linc)
      | none => nextPrefix.map fun next => (next, false))
    (capMax args.max) args.reverse f

def listObjects (args : RangeQueryArgs Bytes) : Except Exn ((Int × List Bytes) × Bool) :=
  listRange pfx db (fun name => (Key.names name).encode) (Key.nextPrefix Kind.names.start) args
    fun key _ => .ok (key.drop Kind.names.start.length)

def listObjectsById (args : RangeQueryArgs Bytes) : Except Exn ((Int × List Manifest) × Bool) :=
  listRange pfx db (fun objectId => (Key.objects objectId).encode)
    (Key.nextPrefix Kind.objects.start) args fun _ v => asManifest v

def multiExists (names : List Bytes) : List Bool :=
  names.map fun name => (wrapGet pfx db (Key.names name).encode).isSome

/-- The object id is read off the key as `keys_to_be_deleted_extract_key` reads a key. -/
def listDeviceObjects (osdId : OsdId) (args : RangeQueryArgs Bytes) :
    Except Exn ((Int × List Manifest) × Bool) :=
  listRange pfx db (fun objectId => (Key.osdObjects osdId objectId).encode)
    (Key.nextPrefix (Key.osdObjects osdId []).encode) args
    fun key _ => queryManifestById pfx db (Key.keysToBeDeletedExtractKey key)

def listKeysToBeDeleted (osdId : OsdId) (args : RangeQueryArgs Bytes) :
    Except Exn ((Int × List Bytes) × Bool) :=
  listRange pfx db (fun key => (Key.keysToBeDeleted osdId key).encode)
    (Key.nextPrefix (Kind.keysToBeDeleted.start ++ xInt64BeTo osdId)) args
    fun key _ => .ok (Key.keysToBeDeletedExtractKey key)

def listActiveOsds (args : RangeQueryArgs OsdId) : Except Exn ((Int × List (BitVec 64)) × Bool) :=
  listRange pfx db (fun osdId => (Key.activeOsds osdId).encode)
    (Key.nextPrefix Kind.activeOsds.start) args
    fun key _ => extractOsdIdFrom Kind.activeOsds.start.length key

def listObjectsByPolicy (args : RangeQueryArgs (Bucket × Bytes)) :
    Except Exn ((Int × List Manifest) × Bool) :=
  listRange pfx db (fun p => (Key.policies p.1 p.2).encode)
    (Key.nextPrefix (ascii ['p', 'o', 'l', 'i', 'c', 'i', 'e', 's'])) args
    fun key _ => do
      let (_, objectId) ← parsePoliciesKey key
      queryManifestById pfx db objectId

def queryGcEpochs : Except Exn GcEpochs :=
  match wrapGet pfx db Key.gcEpochs.encode with
  | none => .ok .initial
  | some v => asGcEpochs v

def readCount (key : Key) : Except Exn (BitVec 64) :=
  match wrapGet pfx db key.encode with
  | none => .ok 0
  | some v => asInt64 v

def getStats : Except Exn NamespaceStats := do
  let logicalSize ← readCount pfx db .namespaceLogicalSize
  let storageSize ← readCount pfx db .namespaceStorageSize
  let (bucketCount, _) ← mapRange pfx db (Key.policiesCnt ⟨0, 0, 0, 0⟩).encode true
    ((Key.nextPrefix (ascii ['p', 'o', 'l', 'i', 'c', 'i', 'e', 's', '_', 'c', 'n', 't'])).map
      fun next => (next, false)) (-1) false fun key v => do
        return (← parsePoliciesCnt key, ← asInt64 v)
  let (storageSizePerOsd, _) ← mapRange pfx db Kind.osdSize.start true
    ((Key.nextPrefix Kind.osdSize.start).map fun next => (next, false)) (-1) false fun key v => do
      return (← extractOsdIdFrom Kind.osdSize.start.length key, ← asInt64 v)
  return { logicalSize, storageSize, storageSizePerOsd, bucketCount }

inductive Query
  | getObjectManifestByName (name : Bytes)
  | getObjectManifestsByName (names : List Bytes)
  | getObjectManifestById (objectId : Bytes)
  | listObjects (args : RangeQueryArgs Bytes)
  | listObjectsById (args : RangeQueryArgs Bytes)
  | listDeviceKeysToBeDeleted (osdId : OsdId) (args : RangeQueryArgs Bytes)
  | listObjectsByOsd (osdId : OsdId) (args : RangeQueryArgs Bytes)
  | multiExists (names : List Bytes)
  | getGcEpochs
  | getStats
  | listObjectsByPolicy (args : RangeQueryArgs (Bucket × Bytes))
  | listActiveOsds (args : RangeQueryArgs OsdId)

inductive Answer
  | manifest (m : Option Manifest)
  | manifests (ms : List (Option Manifest))
  | manifestRange (r : (Int × List Manifest) × Bool)
  | keyRange (r : (Int × List Bytes) × Bool)
  | osdRange (r : (Int × List (BitVec 64)) × Bool)
  | exist (l : List Bool)
  | gcEpochs (epochs : GcEpochs)
  | stats (s : NamespaceStats)

def execQuery : Query → Except Exn Answer
  | .getObjectManifestByName name => .manifest <$> queryManifestByName pfx db name
  | .getObjectManifestsByName names => .manifests <$> names.mapM (queryManifestByName pfx db)
  | .getObjectManifestById objectId =>
    match queryManifestById pfx db objectId with
    | .ok manifest => .ok (.manifest (some manifest))
    | .error (.nsm .objectNotFound _) => .ok (.manifest none)
    | .error e => .error e
  | .listObjects args => .keyRange <$> NsmHost.listObjects pfx db args
  | .listObjectsById args => .manifestRange <$> NsmHost.listObjectsById pfx db args
  | .listDeviceKeysToBeDeleted osdId args => .keyRange <$> listKeysToBeDeleted pfx db osdId args
  | .listObjectsByOsd osdId args => .manifestRange <$> listDeviceObjects pfx db osdId args
  | .multiExists names => .ok (.exist (NsmHost.multiExists pfx db names))
  | .getGcEpochs => .gcEpochs <$> queryGcEpochs pfx db
  | .getStats => .stats <$> NsmHost.getStats pfx db
  | .listObjectsByPolicy args => .manifestRange <$> NsmHost.listObjectsByPolicy pfx db args
  | .listActiveOsds args => .osdRange <$> NsmHost.listActiveOsds pfx db args

end Reads

section Within

variable {V : Type} {pfx : Bytes} {db : ExtTreeMap Bytes V}

theorem wrapGet_within (key : Bytes) : wrapGet pfx db key = wrapGet [] (within pfx db) key :=
  (getElem?_within db key).symm

theorem mapRange_within {α : Type} (hpfx : pfx.getLast? ≠ some 255) (first : Bytes) (finc : Bool)
    (last : Option (Bytes × Bool)) (max : Int) (reverse : Bool) (f : Bytes → V → Except Exn α) :
    mapRange pfx db first finc last max reverse f =
      mapRange [] (within pfx db) first finc last max reverse f := by
  have hnil : ([] : Bytes).getLast? ≠ some 255 := by simp
  rw [mapRange_eq hpfx, mapRange_eq hnil, within_nil]

end Within

section Namespace

variable {pfx : Bytes} {db : ExtTreeMap Bytes Value}

theorem queryManifestById_within : queryManifestById pfx db = queryManifestById [] (within pfx db) :=
  funext fun objectId => by rw [queryManifestById, wrapGet_within, ← queryManifestById]

theorem queryManifestByName_within :
    queryManifestByName pfx db = queryManifestByName [] (within pfx db) := by
  funext name
  have hget : wrapGet pfx db = wrapGet [] (within pfx db) := funext wrapGet_within
  rw [queryManifestByName, hget, ← queryManifestByName]

theorem listRange_within {κ α : Type} (hpfx : pfx.getLast? ≠ some 255) (key : κ → Bytes)
    (nextPrefix : Option Bytes) (args : RangeQueryArgs κ) (f : Bytes → Value → Except Exn α) :
    listRange pfx db key nextPrefix args f = listRange [] (within pfx db) key nextPrefix args f :=
  mapRange_within hpfx _ _ _ _ _ _

theorem getStats_within (hpfx : pfx.getLast? ≠ some 255) :
    getStats pfx db = getStats [] (within pfx db) := by
  have hread : readCount pfx db = readCount [] (within pfx db) :=
    funext fun key => by rw [readCount, wrapGet_within, ← readCount]
  simp only [getStats, hread, mapRange_within hpfx]

theorem execQuery_within (hpfx : pfx.getLast? ≠ some 255) (q : Query) :
    execQuery pfx db q = execQuery [] (within pfx db) q := by
  cases q with
  | getObjectManifestByName name => rw [execQuery, execQuery, queryManifestByName_within]
  | getObjectManifestsByName names => rw [execQuery, execQuery, queryManifestByName_within]
  | getObjectManifestById objectId =>
    have hmanifest : queryManifestById pfx db = queryManifestById [] (within pfx db) :=
      queryManifestById_within
    rw [execQuery, execQuery, hmanifest]
  | listObjects args => rw [execQuery, execQuery, listObjects, listRange_within hpfx, ← listObjects]
  | listObjectsById args =>
    rw [execQuery, execQuery, listObjectsById, listRange_within hpfx, ← listObjectsById]
  | listDeviceKeysToBeDeleted osdId args =>
    rw [execQuery, execQuery, listKeysToBeDeleted, listRange_within hpfx, ← listKeysToBeDeleted]
  | listObjectsByOsd osdId args =>
    rw [execQuery, execQuery, listDeviceObjects, listRange_within hpfx, queryManifestById_within,
      ← listDeviceObjects]
  | multiExists names =>
    have hget : wrapGet pfx db = wrapGet [] (within pfx db) := funext wrapGet_within
    rw [execQuery, execQuery, multiExists, hget, ← multiExists]
  | getGcEpochs => rw [execQuery, execQuery, queryGcEpochs, wrapGet_within, ← queryGcEpochs]
  | getStats => rw [execQuery, execQuery, getStats_within hpfx]
  | listObjectsByPolicy args =>
    rw [execQuery, execQuery, listObjectsByPolicy, listRange_within hpfx, queryManifestById_within,
      ← listObjectsByPolicy]
  | listActiveOsds args =>
    rw [execQuery, execQuery, listActiveOsds, listRange_within hpfx, ← listActiveOsds]

end Namespace

end Alba.NsmHost
