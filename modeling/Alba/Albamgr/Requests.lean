import Alba.Albamgr.Manager

/-! The update requests of the alba manager, as `handle_update` answers them: each reads the database
and returns its reply and what is to be applied to the database. -/

namespace Alba.Albamgr

open ProofKit

inductive Request
  | addNsmHost (id : Bytes) (nsmHost : NsmHost)
  | updateNsmHost (id : Bytes) (nsmHost : NsmHost)
  | addOsd (osd : OsdInfo)
  | updateOsd (longId : Bytes) (changes : OsdUpdate)
  | updateOsds (updates : List (Bytes × OsdUpdate))
  | decommissionOsd (longId : Bytes)
  | markOsdClaimed (longId : Bytes) (now : Timestamp)
  | markOsdClaimedByOther (longId albaId : Bytes)
  | createNamespace (name nsmHostId : Bytes) (preset : Option Bytes)
  | deleteNamespace (name : Bytes)
  | recoverNamespace (name nsmHostId : Bytes)
  | markMsgDelivered (t : MsgLog) (dest : t.Dest) (msgId : MsgId)
  | markMsgsDelivered (t : MsgLog) (dest : t.Dest) (msgId : MsgId)
  | addWork (work : List Work)
  | markWorkCompleted (id : WorkId)
  | createPreset (name : Bytes) (preset : Preset)
  | deletePreset (name : Bytes)
  | setDefaultPreset (name : Bytes)
  | addOsdsToPreset (name : Bytes) (osdIds : List OsdId)
  | updatePreset (name : Bytes) (update : PresetUpdate)
  | updatePresetPropagationState (name : Bytes) (version : Nat) (namespaceIds : List NamespaceId)
  | tryGetLease (name : Bytes) (counter : Int)
  | updateProgress (name : Bytes) (old : Progress) (new : Option Progress)
  | purgeOsd (longId : Bytes)
  | bumpNextOsdId (newNextId : OsdId)

inductive Reply
  | unit
  | osdId (id : OsdId)
  | namespace (info : Namespace)
  | nsmHostId (id : Bytes)
  deriving DecidableEq

/-- What is applied to the database: a sequence of updates, or the user function that delivers the
messages of a destination. -/
inductive Plan
  | updates (us : List Update)
  | markMsgs (t : MsgLog) (dest : t.Dest) (msgId : MsgId)

def Plan.apply (db : Db) : Plan → Option Db
  | updates us => applyAll db us
  | markMsgs t dest msgId => markMsgsDelivered db t dest msgId

section Osds

def makeUpdateOsdUpdates (db : Db) (longId : Bytes) (changes : OsdUpdate) (acc : List Update) :
    Except Failure (List Update) := do
  let (claimInfo, osdInfo) ← getOr db .osdInfo longId .osdUnknown
  return .assert .osdInfo longId (some (claimInfo, osdInfo)) ::
    .set .osdInfo longId (some (claimInfo, changes.apply osdInfo)) :: acc

def updateOsds (db : Db) (updates : List (Bytes × OsdUpdate)) : Except Failure (List Update) :=
  updates.foldlM (fun acc u => makeUpdateOsdUpdates db u.1 u.2 acc) []

def addOsd (db : Db) (osd : OsdInfo) : Except Failure (List Update) :=
  if (db.get .osdInfo osd.longId).isSome then .error .osdAlreadyExists
  else .ok [.assert .osdInfo osd.longId none, .set .osdInfo osd.longId (some (.available, osd))]

def unlinkMsg (db : Db) (osdId : OsdId) (namespaceId : NamespaceId) :
    Except Failure (List Update) := do
  let (_, info) ← getSome (getNamespaceById db namespaceId)
  return addMsg .nsmHost info.nsmHostId (.namespaceMsg namespaceId (.unlinkOsd osdId))

def decommissionOsd (db : Db) (longId : Bytes) : Except Failure (List Update) := do
  let (claimInfo, osdInfo) ← getOr db .osdInfo longId .osdUnknown
  match claimInfo with
  | .anotherAlba _ | .available => .error (.unknown "osd not claimed by this instance")
  | .thisAlba osdId =>
    if osdInfo.decommissioned then .error .osdAlreadyDecommissioned
    else
      let namespaceIds := listOsdNamespaces db osdId
      let unlinkFromNamespaces ← namespaceIds.mapM (unlinkMsg db osdId)
      let addWorkItem ← addWorkItems db [.waitUntilDecommissioned osdId]
      let updNamespaceLinks := namespaceIds.foldl (fun acc namespaceId =>
        updateNamespaceLink namespaceId osdId .active .decommissioning ++ acc) []
      return addWorkItem ++ [.set .decommissioning osdId (some ())] ++
        unlinkFromNamespaces.reverse.flatten ++ updNamespaceLinks ++
        [.assert .osdInfo longId (some (claimInfo, osdInfo)),
          .set .osdInfo longId (some (claimInfo, { osdInfo with decommissioned := true }))]

/-- `purge_osd`. -/
def purgeUpdates (longId : Bytes) (osdId : OsdId) : List Update :=
  [.delete .osdInfo longId, .delete .osdLongId osdId, .deleteMsgs osdId]

def addNamespaceOsd (db : Db) (osdId : OsdId) (namespaceId : NamespaceId) (name : Bytes)
    (info : Namespace) : Except Failure (List Update) :=
  match info.state with
  | .removing => .ok []
  | .creating | .active | .recovering =>
    if (db.get .namespaceOsds (namespaceId, osdId)).isSome then .error .osdAlreadyLinkedToNamespace
    else .ok ([.assert .namespaceInfo name (some info)] ++
      [.assert .namespaceOsds (namespaceId, osdId) none,
        .set .namespaceOsds (namespaceId, osdId) (some .adding)] ++
      addMsg .osd osdId (.addNamespace name namespaceId))

/-- The link of an osd to a namespace that is looked up by its id. -/
def linkById (db : Db) (osdId : OsdId) (namespaceId : NamespaceId) :
    Except Failure (List Update) := do
  let (name, info) ← getSome (getNamespaceById db namespaceId)
  addNamespaceOsd db osdId namespaceId name info

def presetsWithAllOsds (db : Db) : List Bytes :=
  (db.rows .presets).filterMap fun e => if e.2.1.osds = .all then some e.1 else none

def osdNextId (db : Db) : OsdId := (db.get .osdNextId ()).getD 0

def markOsdClaimed (db : Db) (longId : Bytes) (now : Timestamp) :
    Except Failure (OsdId × List Update) := do
  let (claimInfo, osdInfo) ← getOr db .osdInfo longId .osdUnknown
  if claimInfo ≠ .available then .error .osdAlreadyClaimed
  else
    let nextIdSo := db.get .osdNextId ()
    let osdId := osdNextId db
    let presetNames := presetsWithAllOsds db
    let addOsdToNamespaces ← presetNames.mapM fun presetName => do
      return flattenUnordered (← (listPresetNamespaces db presetName).mapM (linkById db osdId))
    let assertNamespacesInPresets := presetNames.map fun presetName =>
      Update.assertRange presetName (listPresetNamespaces db presetName)
    return (osdId,
      [.assert .osdInfo longId (some (claimInfo, osdInfo)),
        .set .osdInfo longId
          (some (.thisAlba osdId, { osdInfo with claimedSince := some now })),
        .assert .osdNextId () nextIdSo,
        .set .osdNextId () (some (nextId osdId)),
        .assert .osdLongId osdId none,
        .set .osdLongId osdId (some longId)] ++
      assertNamespacesInPresets ++ flattenUnordered addOsdToNamespaces)

def markOsdClaimedByOther (db : Db) (longId albaId : Bytes) : Except Failure (List Update) := do
  if (db.get .albaId ()) = some albaId then .error (.unknown "")
  else
    let (claimInfo, osdInfo) ← getOr db .osdInfo longId .osdUnknown
    if claimInfo ≠ .available then .error .osdAlreadyClaimed
    else return [.assert .osdInfo longId (some (claimInfo, osdInfo)),
      .set .osdInfo longId (some (.anotherAlba albaId, osdInfo))]

def purgeOsd (db : Db) (longId : Bytes) : Except Failure (List Update) := do
  let (claimInfo, osdInfo) ← getOr db .osdInfo longId .osdUnknown
  let assertOsdInfo := Update.assert .osdInfo longId (some (claimInfo, osdInfo))
  match claimInfo with
  | .anotherAlba _ | .available => return [assertOsdInfo, .delete .osdInfo longId]
  | .thisAlba osdId =>
    match db.get .purging osdId with
    -- already purging
    | some _ => return []
    | none =>
      let setPurging := Update.set .purging osdId (some ())
      if ¬osdInfo.decommissioned then return setPurging :: (← decommissionOsd db longId)
      else
        match db.get .decommissioning osdId with
        | none => return assertOsdInfo :: setPurging :: purgeUpdates longId osdId
        | some v => return [assertOsdInfo, setPurging, .assert .decommissioning osdId (some v)]

/-- `_bump_int64_next_id` of the osd ids. -/
def bumpNextOsdId (db : Db) (newNextId : OsdId) : Except Failure (List Update) :=
  if newNextId.val < (osdNextId db).val then .error (.unknown "")
  else .ok [.assert .osdNextId () (db.get .osdNextId ()), .set .osdNextId () (some newNextId)]

end Osds

section Namespaces

def addToPropagation (db : Db) (presetName : Bytes) (presetVersion : Nat)
    (namespaceId : NamespaceId) : Except Failure (List Update) :=
  match db.get .propagation presetName with
  | none => .ok [.assert .propagation presetName none,
      .set .propagation presetName (some (presetVersion, [namespaceId]))]
  | some (version', namespaceIds') =>
    if version' = presetVersion then
      .ok [.assert .propagation presetName (some (version', namespaceIds')),
        .set .propagation presetName (some (version', namespaceId :: namespaceIds'))]
    else .error (.versionMismatch presetName version' presetVersion)

def isUsable (db : Db) (osdId : OsdId) : Except Failure Bool := do
  let (_, osdInfo) ← getSome (← getOsdById db osdId)
  return !osdInfo.decommissioned

def osdsOfPreset (db : Db) (preset : Preset) : Except Failure (List OsdId) := do
  let ids ← match preset.osds with
    | .all => listAllOsds db
    | .explicit osdIds => .ok osdIds
  ids.filterM (isUsable db)

def createNamespace (db : Db) (name nsmHostId : Bytes) (presetO : Option Bytes) :
    Except Failure (Namespace × List Update) := do
  let presetName ← match presetO with
    | none => getOr db .presetDefault () .invalidPreset
    | some p => .ok p
  if (db.get .namespaceInfo name).isSome then .error .namespaceAlreadyExists
  else
    let nextIdS := db.get .namespaceNextId ()
    let namespaceId := nextIdS.getD 0
    let info : Namespace := { id := namespaceId, nsmHostId, state := .creating, presetName }
    let (preset, presetVersion) ← getOr db .presets presetName .presetDoesNotExist
    let addPresetWorkItem ← addWorkItems db [.propagatePreset presetName]
    let updatePropagationState ← addToPropagation db presetName presetVersion namespaceId
    let osdIds ← osdsOfPreset db preset
    let addOsds := flattenUnordered (osdIds.map fun osdId =>
      .set .namespaceOsds (namespaceId, osdId) (some .adding) ::
        addMsg .osd osdId (.addNamespace name namespaceId))
    return (info,
      addMsg .nsmHost nsmHostId (.createNamespace name namespaceId) ++
      [.assert .namespaceNextId () nextIdS, .set .namespaceNextId () (some (namespaceId + 1))] ++
      [.assert .namespaceInfo name none, .set .namespaceInfo name (some info),
        .set .namespaceName namespaceId (some name)] ++
      addOsds ++
      [.set .presetNamespaces (presetName, namespaceId) (some ())] ++
      addPresetWorkItem ++ updatePropagationState ++
      [.plusEq (.nsmHost nsmHostId) 1 true])

def removeFromPropagation (db : Db) (presetName : Bytes) (namespaceId : NamespaceId) : List Update :=
  match db.get .propagation presetName with
  | none => []
  | some (version, namespaceIds) =>
    [.assert .propagation presetName (some (version, namespaceIds)),
      .set .propagation presetName
        (some (version, (namespaceIds.filter fun id => id ≠ namespaceId).reverse))]

def deleteNamespace (db : Db) (name : Bytes) : Except Failure (Bytes × List Update) := do
  let info ← getOr db .namespaceInfo name .namespaceDoesNotExist
  if info.state ≠ .active then .error (.unknown "")
  else
    return (info.nsmHostId,
      [.plusEq (.nsmHost info.nsmHostId) (-1) true] ++
      updateNamespaceInfo name info { info with state := .removing } ++
      addMsg .nsmHost info.nsmHostId (.deleteNamespace info.id) ++
      removeFromPropagation db info.presetName info.id)

def recoverNamespace (db : Db) (name nsmHostId : Bytes) : Except Failure (List Update) := do
  let info ← getOr db .namespaceInfo name .namespaceDoesNotExist
  let oldNsmHost ← getExn db .nsmHostInfo info.nsmHostId
  if ¬oldNsmHost.lost then .error .nsmHostNotLost
  else
    let updateStateSendMsg := fun (state' : NamespaceState) (msg : NsmMessage) =>
      updateNamespaceInfo name info { info with state := state', nsmHostId } ++
        addMsg .nsmHost nsmHostId msg
    match info.state with
    | .creating => return updateStateSendMsg .creating (.createNamespace name info.id)
    | .active | .recovering =>
      return updateStateSendMsg .recovering (.recoverNamespace name info.id)
    | .removing => .error (.unknown "")

end Namespaces

section WorkItems

/-- The name of a leaf of a job: the name of the job and four bytes. -/
def leafName (name : Bytes) (i : Int) : Bytes := name ++ Nsm.intTo i

def startProgress (action : Action) (start : Bytes) : Progress :=
  match action with
  | .rewrite => .rewrite { count := 0, next := some start }
  | .verify _ => .verify { count := 0, next := some start } ⟨0, 0, 0⟩

/-- The `i`th leaf of a job, with the update that stores its progress. -/
def leafOf (action : Action) (namespaceId : NamespaceId) (name : Bytes) (cnt i : Int) :
    Except Failure (Work × Update) :=
  match getStartKey i cnt, getStartKey (i + 1) cnt with
  | some (some start), some stop =>
    .ok (.iterNamespaceLeaf action namespaceId (leafName name i) (start, stop),
      .set .progress (leafName name i) (some (startProgress action start)))
  | some none, _ => .error .getSome
  | _, _ => .error (.unknown "bad input for get_start_key")

/-- `Int.range 0 cnt`. -/
def intRange (cnt : Int) : List Int := (List.range cnt.toNat).map Int.ofNat

/-- What follows from the completion of a work item. -/
def followUps (db : Db) : Work → Except Failure (List Update)
  | .cleanupNsmHostNamespace .. | .cleanupOsdNamespace .. | .cleanupNamespaceOsd ..
  | .repairBadFragment .. | .rewriteObject .. | .iterNamespaceLeaf .. => .ok []
  | .iterNamespace action namespaceId name cnt => do
    let items ← (intRange cnt).mapM (leafOf action namespaceId name cnt)
    return (← addWorkItems db (items.map Prod.fst)) ++ items.map Prod.snd
  | .waitUntilRepaired osdId namespaceId => do
    let addWork ← addWorkItems db
      [.cleanupNamespaceOsd namespaceId osdId, .cleanupOsdNamespace osdId namespaceId]
    return addWork ++ [.set .namespaceOsds (namespaceId, osdId) none,
      .set .osdNamespaces (osdId, namespaceId) none]
  | .waitUntilDecommissioned osdId =>
    let removeX := Update.set .decommissioning osdId none
    match db.get .purging osdId with
    | none => .ok [removeX]
    | some v => do
      let longId ← getExn db .osdLongId osdId
      return .assert .purging osdId (some v) :: removeX :: purgeUpdates longId osdId
  | .propagatePreset _ => .ok []

def markWorkCompleted (db : Db) (id : WorkId) : Except Failure (List Update) := do
  let upds ← match db.get .workItems id with
    | none => .ok []
    | some work => followUps db work
  return .plusEq .work (-1) false :: .assertExists .workItems id :: .delete .workItems id :: upds

def updateProgress (db : Db) (name : Bytes) (old : Progress) (new : Option Progress) :
    Except Failure (List Update) := do
  let p ← getOr db .progress name .progressDoesNotExist
  if old ≠ p then .error .progressCasFailed
  else
    let extra ←
      if new.isSome then .ok []
      -- `String.sub` raises on a name that is too short
      else if name.length < 4 then .error .invalidArgument
      else if name.drop (name.length - 4) = Nsm.intTo 0 then
        .ok [Update.set .jobName (name.take (name.length - 4)) none]
      else .ok []
    return [.assert .progress name (some p), .set .progress name new] ++ extra

end WorkItems

section Presets

/-- `propagate_preset_version`. -/
def propagatePresetVersion (db : Db) (presetName : Bytes) (version : Nat) :
    Except Failure (List Update) := do
  let namespaceIds := listPresetNamespaces db presetName
  let workItem ← addWorkItems db [.propagatePreset presetName]
  let propagationStateUpdates : List Update :=
    match db.get .propagation presetName with
    | none => [.assert .propagation presetName none,
        .set .propagation presetName (some (version, namespaceIds))]
    | some v =>
      if version ≥ v.1 then [.assert .propagation presetName (some v),
        .set .propagation presetName (some (version, namespaceIds))]
      else []
  return workItem ++ .assertRange presetName namespaceIds :: propagationStateUpdates

def createPreset (db : Db) (presetName : Bytes) (preset : Preset) : Except Failure (List Update) :=
  if !presetIsValid preset then .error .invalidPreset
  else if (db.get .presets presetName).isSome then .error .presetAlreadyExists
  else .ok [.assert .presets presetName none, .set .presets presetName (some (preset, 0))]

def deletePreset (db : Db) (presetName : Bytes) : Except Failure (List Update) := do
  let currentDefault := db.get .presetDefault ()
  let maybeRemoveDefault :=
    if currentDefault = some presetName then
      [Update.assert .presetDefault () currentDefault, .delete .presetDefault ()]
    else []
  if listPresetNamespaces db presetName ≠ [] then .error .presetCantDeleteInUse
  else
    let _ ← getOr db .presets presetName .presetDoesNotExist
    return [.assertRange presetName [], .delete .presets presetName,
      .set .propagation presetName none] ++ maybeRemoveDefault

def setDefaultPreset (db : Db) (presetName : Bytes) : Except Failure (List Update) := do
  let presetV ← getOr db .presets presetName .presetDoesNotExist
  return [.set .presetDefault () (some presetName), .assert .presets presetName (some presetV)]

/-- `List.sort_uniq compare`. -/
def sortUniq (osdIds : List OsdId) : List OsdId := osdIds.dedup.insertionSort fun a b => a.val ≤ b.val

def addOsdsToPreset (db : Db) (presetName : Bytes) (osdIds : List OsdId) :
    Except Failure (List Update) := do
  let (preset, version) ← getOr db .presets presetName .presetDoesNotExist
  match preset.osds with
  | .all => .error (.unknown "")
  | .explicit currentOsdIds =>
    let preset' : Preset := { preset with osds := .explicit (sortUniq (currentOsdIds ++ osdIds)) }
    let namespaceIds := listPresetNamespaces db presetName
    let addNamespaceOsds ← osdIds.mapM fun osdId => do
      return (← namespaceIds.mapM (linkById db osdId)).flatten
    return [.assertRange presetName namespaceIds,
        .assert .presets presetName (some (preset, version)),
        .set .presets presetName (some (preset', version + 1))] ++ addNamespaceOsds.flatten

def updatePreset (db : Db) (presetName : Bytes) (update : PresetUpdate) :
    Except Failure (List Update) := do
  let (preset, version) ← getOr db .presets presetName .presetDoesNotExist
  return .assert .presets presetName (some (preset, version)) ::
    .set .presets presetName (some (update.apply preset, version + 1)) ::
    (← propagatePresetVersion db presetName (version + 1))

def updatePresetPropagationState (db : Db) (presetName : Bytes) (presetVersion : Nat)
    (namespaceIds : List NamespaceId) : List Update :=
  match db.get .propagation presetName with
  | none => []
  | some (version', namespaceIds') =>
    if presetVersion ≠ version' then []
    else [.assert .propagation presetName (some (version', namespaceIds')),
      .set .propagation presetName
        (some (version', namespaceIds'.filter fun id => !namespaceIds.contains id))]

end Presets

section Hosts

def addNsmHost (db : Db) (id : Bytes) (nsmHost : NsmHost) : Except Failure (List Update) :=
  if (db.get .nsmHostInfo id).isSome then .error .nsmHostAlreadyExists
  else .ok [.testAndSet .nsmHostInfo id none (some nsmHost)]

def updateNsmHost (db : Db) (id : Bytes) (nsmHost : NsmHost) : Except Failure (List Update) := do
  let nsmHostOld ← getOr db .nsmHostInfo id .nsmHostUnknown
  if nsmHostOld.lost ∧ ¬nsmHost.lost then .error .assertFailure
  else return [.set .nsmHostInfo id (some nsmHost)]

/-- `get_lease`. -/
def getLease (db : Db) (name : Bytes) : Int := (db.get .lease name).getD 0

def tryGetLease (db : Db) (name : Bytes) (counter : Int) : Except Failure (List Update) :=
  if getLease db name ≠ counter then .error .claimLeaseMismatch
  else .ok [.assert .lease name (db.get .lease name),
    .set .lease name (some (getLease db name + 1))]

end Hosts

def returnUpds (us : List Update) : Reply × Plan := (.unit, .updates us)

def handleUpdate (db : Db) : Request → Except Failure (Reply × Plan)
  | .addNsmHost id nsmHost => returnUpds <$> addNsmHost db id nsmHost
  | .updateNsmHost id nsmHost => returnUpds <$> updateNsmHost db id nsmHost
  | .addOsd osd => returnUpds <$> addOsd db osd
  | .updateOsd longId changes => returnUpds <$> makeUpdateOsdUpdates db longId changes []
  | .updateOsds updates => returnUpds <$> updateOsds db updates
  | .decommissionOsd longId => returnUpds <$> decommissionOsd db longId
  | .markOsdClaimed longId now =>
    (fun r => (Reply.osdId r.1, Plan.updates r.2)) <$> markOsdClaimed db longId now
  | .markOsdClaimedByOther longId albaId => returnUpds <$> markOsdClaimedByOther db longId albaId
  | .createNamespace name nsmHostId preset =>
    (fun r => (Reply.namespace r.1, Plan.updates r.2)) <$> createNamespace db name nsmHostId preset
  | .deleteNamespace name =>
    (fun r => (Reply.nsmHostId r.1, Plan.updates r.2)) <$> deleteNamespace db name
  | .recoverNamespace name nsmHostId => returnUpds <$> recoverNamespace db name nsmHostId
  | .markMsgDelivered t dest msgId => returnUpds <$> markMsgDelivered db t dest msgId
  | .markMsgsDelivered t dest msgId => .ok (.unit, .markMsgs t dest msgId)
  | .addWork work => returnUpds <$> addWorkItems db work
  | .markWorkCompleted id => returnUpds <$> markWorkCompleted db id
  | .createPreset name preset => returnUpds <$> createPreset db name preset
  | .deletePreset name => returnUpds <$> deletePreset db name
  | .setDefaultPreset name => returnUpds <$> setDefaultPreset db name
  | .addOsdsToPreset name osdIds => returnUpds <$> addOsdsToPreset db name osdIds
  | .updatePreset name update => returnUpds <$> updatePreset db name update
  | .updatePresetPropagationState name version namespaceIds =>
    .ok (returnUpds (updatePresetPropagationState db name version namespaceIds))
  | .tryGetLease name counter => returnUpds <$> tryGetLease db name counter
  | .updateProgress name old new => returnUpds <$> updateProgress db name old new
  | .purgeOsd longId => returnUpds <$> purgeOsd db longId
  | .bumpNextOsdId newNextId => returnUpds <$> bumpNextOsdId db newNextId

end Alba.Albamgr
