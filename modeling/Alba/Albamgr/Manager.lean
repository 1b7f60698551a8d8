import Alba.Albamgr.Database

/-! What the alba manager reads, and the updates it makes for added work, for messages and for
messages that were delivered. -/

namespace Alba.Albamgr

open ProofKit

/-- `Option.get_some`. -/
def getSome {α : Type} : Option α → Except Failure α
  | some a => .ok a
  | none => .error .getSome

@[simp] theorem getSome_eq_ok {α : Type} {o : Option α} {a : α} : getSome o = .ok a ↔ o = some a := by
  cases o <;> simp [getSome]

/-- `get_exn`. -/
def getExn (db : Db) (t : Table) (key : t.Key) : Except Failure t.Val :=
  match db.get t key with
  | some v => .ok v
  | none => .error .notFound

@[simp] theorem getExn_eq_ok {db : Db} {t : Table} {key : t.Key} {v : t.Val} :
    getExn db t key = .ok v ↔ db.get t key = some v := by
  unfold getExn
  split <;> simp_all

/-- The value of a key, or the failure of the request. -/
def getOr (db : Db) (t : Table) (key : t.Key) (failure : Failure) : Except Failure t.Val :=
  match db.get t key with
  | some v => .ok v
  | none => .error failure

@[simp] theorem getOr_eq_ok {db : Db} {t : Table} {key : t.Key} {failure : Failure} {v : t.Val} :
    getOr db t key failure = .ok v ↔ db.get t key = some v := by
  unfold getOr
  split <;> simp_all

/-- `List.flatten_unordered`. -/
def flattenUnordered {α : Type} (lists : List (List α)) : List α := lists.flatten.reverse

section Reads

def getNamespaceById (db : Db) (namespaceId : NamespaceId) : Option (Bytes × Namespace) :=
  match db.get .namespaceName namespaceId with
  | none => none
  | some name =>
    match db.get .namespaceInfo name with
    | none => none
    | some info => some (name, info)

theorem getNamespaceById_eq_some {db : Db} {namespaceId : NamespaceId} {name : Bytes}
    {info : Namespace} :
    getNamespaceById db namespaceId = some (name, info) ↔
      db.get .namespaceName namespaceId = some name ∧ db.get .namespaceInfo name = some info := by
  unfold getNamespaceById
  split
  · simp_all
  · split
    · simp_all
      intro h
      simp_all
    · simp_all
      intro h
      simp_all

/-- `get_namespace_osds` of all osds. -/
def getNamespaceOsds (db : Db) (namespaceId : NamespaceId) : List (OsdId × LinkState) :=
  (db.rows .namespaceOsds).filterMap fun e => if e.1.1 = namespaceId then some (e.1.2, e.2) else none

def listOsdNamespaces (db : Db) (osdId : OsdId) : List NamespaceId :=
  (db.rows .osdNamespaces).filterMap fun e => if e.1.1 = osdId then some e.1.2 else none

def getOsdById (db : Db) (osdId : OsdId) : Except Failure (Option (ClaimInfo × OsdInfo)) :=
  match db.get .osdLongId osdId with
  | none => .ok none
  | some longId => some <$> getSome (db.get .osdInfo longId)

/-- The ids that `list_all_osds` returns. -/
def listAllOsds (db : Db) : Except Failure (List OsdId) :=
  (db.rows .osdLongId).mapM fun e => do
    let _ ← getSome (db.get .osdInfo e.2)
    return e.1

end Reads

section Work

/-- The job names of the items, the last item first checked. -/
def jobNames (db : Db) : List Work → Except Failure (List (Option Bytes) × List Bytes)
  | [] => .ok ([], [])
  | item :: items => do
    let (acc, names) ← jobNames db items
    match item with
    | .iterNamespace _ _ name _ =>
      if names.contains name || (db.get .jobName name).isSome then .error (.jobExists name)
      else .ok (some name :: acc, name :: names)
    | _ => .ok (none :: acc, names)

def addWorkItems (db : Db) (workItems : List Work) : Except Failure (List Update) := do
  let (secondary, _) ← jobNames db workItems
  return [.logWork workItems secondary, .plusEq .work workItems.length false]

def addMsgs (t : MsgLog) (dest : t.Dest) (msgs : List t.Msg) : List Update := [.log t dest msgs]

def addMsg (t : MsgLog) (dest : t.Dest) (msg : t.Msg) : List Update := addMsgs t dest [msg]

end Work

section Delivered

def updateNamespaceLink (namespaceId : NamespaceId) (osdId : OsdId) (before after : LinkState) :
    List Update :=
  [.assert .namespaceOsds (namespaceId, osdId) (some before),
    .set .namespaceOsds (namespaceId, osdId) (some after)]

/-- `update_namespace_info` of a namespace that exists. -/
def updateNamespaceInfo (name : Bytes) (before after : Namespace) : List Update :=
  [.assert .namespaceInfo name (some before), .set .namespaceInfo name (some after)]

/-- The removal of one link of a namespace that is deleted. -/
def cleanupOsd (db : Db) (namespaceId : NamespaceId) (osdId : OsdId) :
    Except Failure (List Update) := do
  let work ← addWorkItems db [.cleanupOsdNamespace osdId namespaceId]
  return .set .namespaceOsds (namespaceId, osdId) none ::
    .set .osdNamespaces (osdId, namespaceId) none :: work

/-- `upds_for_delivered_msg` of a message to a nsm host. -/
def updsForNsmMsg (db : Db) : NsmMessage → Except Failure (List Update)
  | .createNamespace name _ =>
    match db.get .namespaceInfo name with
    | none => .ok []
    | some info => .ok (updateNamespaceInfo name info { info with state := .active })
  | .deleteNamespace namespaceId =>
    match getNamespaceById db namespaceId with
    | none => .ok []
    | some (name, info) => do
      let addWorkItem ← addWorkItems db [.cleanupNsmHostNamespace info.nsmHostId namespaceId]
      let cleanupOsds ← ((getNamespaceOsds db namespaceId).map Prod.fst).mapM (cleanupOsd db namespaceId)
      return addWorkItem ++ cleanupOsds.reverse.flatten ++
        [.assert .namespaceInfo name (some info), .delete .namespaceInfo name,
          .delete .namespaceName namespaceId] ++
        [.set .presetNamespaces (info.presetName, namespaceId) none]
  | .recoverNamespace _ namespaceId => do
    let (_, info) ← getSome (getNamespaceById db namespaceId)
    let msgs ← (getNamespaceOsds db namespaceId).mapM fun e => do
      let (_, osdInfo) ← getSome (← getOsdById db e.1)
      return NsmMessage.namespaceMsg namespaceId (.linkOsd e.1 osdInfo)
    return addMsgs .nsmHost info.nsmHostId msgs
  | .namespaceMsg _ (.linkOsd _ _) => .ok []
  | .namespaceMsg namespaceId (.unlinkOsd osdId) => do
    let addWorkItem ← addWorkItems db [.waitUntilRepaired osdId namespaceId]
    return addWorkItem ++ updateNamespaceLink namespaceId osdId .decommissioning .repairing

/-- `upds_for_delivered_msg` of a message to an osd. -/
def updsForOsdMsg (db : Db) (osdId : OsdId) : OsdMessage → Except Failure (List Update)
  | .addNamespace _ namespaceId => do
    let longId ← getExn db .osdLongId osdId
    let (claimInfo, osdInfo) ← getExn db .osdInfo longId
    if osdInfo.decommissioned then
      let work ← addWorkItems db [.cleanupOsdNamespace osdId namespaceId]
      return [.set .namespaceOsds (namespaceId, osdId) none,
        .set .osdNamespaces (osdId, namespaceId) none] ++ work
    else
      match getNamespaceById db namespaceId with
      | none => return []
      | some (_, info) =>
        return [.assert .osdInfo longId (some (claimInfo, osdInfo)),
            .set .osdNamespaces (osdId, namespaceId) (some ())] ++
          updateNamespaceLink namespaceId osdId .adding .active ++
          addMsg .nsmHost info.nsmHostId (.namespaceMsg namespaceId (.linkOsd osdId osdInfo))

def updsForDeliveredMsg (db : Db) : (t : MsgLog) → t.Dest → t.Msg → Except Failure (List Update)
  | .nsmHost, _, msg => updsForNsmMsg db msg
  | .osd, osdId, msg => updsForOsdMsg db osdId msg

/-- The messages of a destination in the order of their ids. -/
def pendingMsgs (db : Db) (t : MsgLog) (dest : t.Dest) : List (MsgId × t.Msg) :=
  (db.rows (.msgs t)).filterMap fun e => if e.1.1 = dest then some (e.1.2, e.2) else none

theorem mem_pendingMsgs {db : Db} {t : MsgLog} {dest : t.Dest} {id : MsgId} {msg : t.Msg} :
    (id, msg) ∈ pendingMsgs db t dest ↔ db.get (.msgs t) (dest, id) = some msg := by
  rw [pendingMsgs, List.mem_filterMap]
  constructor
  · rintro ⟨⟨⟨d, i⟩, v⟩, hmem, h⟩
    simp only [Option.ite_none_right_eq_some, Option.some.injEq, Prod.mk.injEq] at h
    obtain ⟨rfl, rfl, rfl⟩ := h
    exact Tables.mem_rows.mp hmem
  · intro h
    exact ⟨((dest, id), msg), Tables.mem_rows.mpr h, by simp⟩

def markMsgDelivered (db : Db) (t : MsgLog) (dest : t.Dest) (msgId : MsgId) :
    Except Failure (List Update) :=
  match (pendingMsgs db t dest).head? with
  | none => .ok []
  | some (id, msg) =>
    if id ≠ msgId then .error (.unknown "Wrong msg_id for mark_msg_delivered")
    else do
      let upds ← updsForDeliveredMsg db t dest msg
      return .assert (.msgs t) (dest, id) (some msg) :: .delete (.msgs t) (dest, id) :: upds

/-- One message of `mark_msgs_delivered`: its updates are made on the database as it is and applied
at once, without their assertions. -/
def deliverOne (t : MsgLog) (dest : t.Dest) (db : Db) (e : MsgId × t.Msg) : Option Db :=
  match updsForDeliveredMsg db t dest e.2 with
  | .error _ => none
  | .ok upds => upds.foldlM Update.applyNow (db.put (.msgs t) (dest, e.1) none)

/-- The user function of `mark_msgs_delivered`. It reads the first four bytes of the message id, and
the range that it scans ends with them: an id that takes more bytes is behind the end. -/
def markMsgsDelivered (db : Db) (t : MsgLog) (dest : t.Dest) (msgId : MsgId) : Option Db :=
  ((pendingMsgs db t dest).filter fun e => e.1 ≤ msgId ∧ e.1 < 2 ^ 31 - 1).foldlM
    (deliverOne t dest) db

end Delivered

end Alba.Albamgr
