import Alba.NsmHost.Queries
import Alba.Nsm.Views

/-! The requests of an nsm host. Messages of the albamgr create and delete namespaces in the list of
namespaces; `CleanupForNamespace` removes the keys of a deleted one, a batch at a time. -/

namespace Alba.NsmHost

open ProofKit Nsm Std

inductive NamespaceState
  | active (name : Bytes)
  | recovering (name : Bytes)
  deriving DecidableEq

/-- A value in the database of the host, as what it deserialises to. -/
inductive HostValue
  | msgId (id : Nat)
  | state (s : NamespaceState)
  | nsm (v : Value)
  deriving DecidableEq

abbrev HostDb := ExtTreeMap Bytes HostValue

abbrev HostUpd := Update Bytes HostValue

instance : CounterValue HostValue where
  ofInt64 x := .nsm (.int64 x)
  toInt64
    | .nsm (.int64 x) => some x
    | _ => none
  toInt64_ofInt64 _ := rfl

/-- What a namespace reads; it can deserialise none of the other values. -/
def HostValue.toNsm : HostValue → Value
  | .nsm v => v
  | _ => .empty

/-- The database with the values as namespaces read them. -/
def nsmView (db : HostDb) : ExtTreeMap Bytes Value := db.map fun _ v => v.toNsm

/-- The keys of a namespace, as its namespace manager sees them. -/
def content (db : HostDb) (namespaceId : NamespaceId) : Store :=
  within (Keys.namespaceContent namespaceId) (nsmView db)

def transformUpdates (namespaceId : NamespaceId) (us : List Upd) : List HostUpd :=
  let withPrefix (k : Key) : Bytes := Keys.namespaceContent namespaceId ++ k.encode
  us.map fun
    | .set k none => .set (withPrefix k) none
    | .set k (some v) => .set (withPrefix k) (some (.nsm v))
    | .assert k vo => .assert (withPrefix k) (vo.map .nsm)
    | .transform k t => .transform (withPrefix k) t

def handleQuery (db : HostDb) (namespaceId : NamespaceId) (q : Query) : Except Exn Answer :=
  if Keys.namespaceInfo namespaceId ∈ db then
    execQuery (Keys.namespaceContent namespaceId) (nsmView db) q
  else .error (.nsm .namespaceIdNotFound (.osd namespaceId))

/-- `NsmUpdate`: the namespace must be in the list of namespaces when its updates are computed. -/
def nsmUpdate (db : HostDb) (namespaceId : NamespaceId) (r : Request) :
    Except Exn (List HostUpd × Result) :=
  if Keys.namespaceInfo namespaceId ∈ db then do
    let (us, res) ← perform namespaceId (content db namespaceId) r
    return (transformUpdates namespaceId us, res)
  else .error (.nsm .namespaceIdNotFound (.osd namespaceId))

/-- `NsmsUpdate`: all requests are computed from the same database, and one that fails has no
updates. -/
def nsmsUpdate (db : HostDb) (reqs : List (NamespaceId × Request)) :
    Except Exn (List HostUpd × List (Except Err Result)) := do
  let r ← reqs.mapM fun req =>
    match nsmUpdate db req.1 req.2 with
    | .ok (us, res) => .ok (us, .ok res)
    | .error (.nsm err _) => .ok ([], .error err)
    | .error exn => .error exn
  return ((r.map Prod.fst).flatten, r.map Prod.snd)

def cleanupForNamespace (db : HostDb) (namespaceId : NamespaceId) :
    Except Exn (Int × List HostUpd) := do
  let pfx := Keys.namespaceContent namespaceId
  let ((cnt, keys), _) ← range pfx db [] true none 1000 false
  return (cnt, keys.map fun k => .set (pfx ++ k) none)

inductive NamespaceMessage
  | linkOsd (osdId : OsdId) (info : OsdInfo)
  | unlinkOsd (osdId : OsdId)

inductive Message
  | createNamespace (name : Bytes) (namespaceId : NamespaceId)
  | deleteNamespace (namespaceId : NamespaceId)
  | recoverNamespace (name : Bytes) (namespaceId : NamespaceId)
  | namespaceMsg (namespaceId : NamespaceId) (msg : NamespaceMessage)

def NamespaceMessage.updates : NamespaceMessage → List Upd
  | linkOsd osdId info => Nsm.linkOsd osdId info
  | unlinkOsd osdId => Nsm.unlinkOsd osdId

def handleMsg (db : HostDb) : Message → List HostUpd
  | .createNamespace name namespaceId =>
    [.assert (Keys.namespaceInfo namespaceId) none,
      .set (Keys.namespaceInfo namespaceId) (some (.state (.active name)))]
  | .deleteNamespace namespaceId => [.set (Keys.namespaceInfo namespaceId) none]
  | .recoverNamespace name namespaceId =>
    [.assert (Keys.namespaceInfo namespaceId) none,
      .set (Keys.namespaceInfo namespaceId) (some (.state (.recovering name)))]
  | .namespaceMsg namespaceId msg =>
    if Keys.namespaceInfo namespaceId ∈ db then transformUpdates namespaceId msg.updates else []

def getNextMsgId (db : HostDb) : Except Exn (Option HostValue × Nat) :=
  match db[Keys.nextMsg]? with
  | none => .ok (none, 0)
  | some (.msgId id) => .ok (some (.msgId id), id)
  | some _ => .error .decodingFailure

/-- `apply_update` inside a user function, where assertions are not checked. -/
def applyUpdate (db : HostDb) : HostUpd → HostDb
  | .assert _ _ => db
  | .set k v => put db k v
  | .transform k t => ((Update.transform k t).apply db).getD db

def deliverOne (firstMsgId : Nat) (db : HostDb) (m : Nat × Message) : HostDb :=
  if m.1 ≥ firstMsgId then
    put ((handleMsg db m.2).foldl applyUpdate db) Keys.nextMsg (some (.msgId (m.1 + 1)))
  else db

/-- `deliver_msgs`, the user function: messages that were delivered before are skipped. -/
def deliverMsgs (db : HostDb) (msgs : List (Nat × Message)) : Except Exn HostDb := do
  let (_, firstMsgId) ← getNextMsgId db
  return msgs.foldl (deliverOne firstMsgId) db

end Alba.NsmHost
