import Alba.Nsm.Types
import Alba.ProofKit.WriteAhead
import Alba.ProofKit.Run

/-! A blob storage device: small values in a RocksDB database, large ones in files of their own, with
the Apply request, the cleanup of replaced files, and the recovery at startup. -/

namespace Alba.Asd

open Nsm ProofKit Std

/-- The bytes of a blob, as one word. -/
structure Blob where
  length : Nat
  bytes : BitVec (8 * length)
  deriving DecidableEq

def blobThreshold : Nat := 16 * 1024

inductive Value
  | direct (blob : Blob)
  | onFs (fnr size : Nat)
  deriving DecidableEq

/-- `Update.Set`, which deletes when there is no value. -/
structure Update where
  key : Bytes
  value : Option (Blob × Checksum)
  deriving DecidableEq

/-- `Assert.Value`, which wants the key absent when there is no blob. -/
structure Assert where
  key : Bytes
  expected : Option Blob
  deriving DecidableEq

/-- The database. `applied` lists the Apply requests whose batch it holds: it stands for what the
device owes to its clients and is not stored. -/
structure Db where
  values : ExtTreeMap Bytes (Checksum × Value)
  fileToKeyMapping : ExtTreeMap Nat Bytes
  toBeDeleted : List Nat
  checkGarbageFrom : Option Nat
  applied : List (Nat × List Update)

inductive Op
  | putValue (key : Bytes) (value : Checksum × Value)
  | deleteValue (key : Bytes)
  | putMapping (fnr : Nat) (key : Bytes)
  | deleteMapping (fnr : Nat)
  | putToBeDeleted (fnr : Nat)

inductive Write
  /-- The WriteBatch of an Apply request. -/
  | batch (id : Nat) (updates : List Update) (ops : List Op)
  | checkGarbageFrom (fnr : Nat)
  /-- What is written with `wo_no_wal`. -/
  | removeToBeDeleted (fnr : Nat)
  | advanceCheckGarbageFrom (fnr : Nat)

def Write.logged : Write → Bool
  | batch _ _ _ | checkGarbageFrom _ => true
  | removeToBeDeleted _ | advanceCheckGarbageFrom _ => false

namespace Db

def empty : Db := ⟨∅, ∅, [], none, []⟩

def applyOp (db : Db) : Op → Db
  | .putValue key value => { db with values := db.values.insert key value }
  | .deleteValue key => { db with values := db.values.erase key }
  | .putMapping fnr key => { db with fileToKeyMapping := db.fileToKeyMapping.insert fnr key }
  | .deleteMapping fnr => { db with fileToKeyMapping := db.fileToKeyMapping.erase fnr }
  | .putToBeDeleted fnr => { db with toBeDeleted := db.toBeDeleted.insert fnr }

def apply (db : Db) : Write → Db
  | .batch id updates ops =>
    { ops.foldl applyOp db with applied := db.applied ++ [(id, updates)] }
  | .checkGarbageFrom fnr | .advanceCheckGarbageFrom fnr => { db with checkGarbageFrom := some fnr }
  | .removeToBeDeleted fnr => { db with toBeDeleted := db.toBeDeleted.filter fun f => f ≠ fnr }

def nextFnr (db : Db) : Nat := db.fileToKeyMapping.keys.foldr (fun fnr n => max (fnr + 1) n) 0

end Db

def lastUpdates : List Update → List Update
  | [] => []
  | u :: us => if us.any fun v => v.key = u.key then lastUpdates us else u :: lastUpdates us

inductive Phase
  /-- Blobs are being written, or the asserts are to be looked at (again). -/
  | writing (attempt : Nat)
  /-- `transform_asserts` has read these values. -/
  | asserted (attempt : Nat) (values : List (Bytes × (Checksum × Value)))
  /-- The batch is in the database, these files are to be deleted. -/
  | committed (filesToDelete : List Nat)
  /-- The log is synced; of the files to delete, these are still there. -/
  | cleaning (unlinks filesToDelete : List Nat)
  /-- The request has failed; `maybe_delete_file` is used unless an assert failed. -/
  | failed (assertFailed : Bool)
  deriving DecidableEq

/-- An update with the file number that a large blob has been given. -/
inductive Immediate
  | direct (key : Bytes) (blob : Blob) (checksum : Checksum)
  | onFs (key : Bytes) (blob : Blob) (checksum : Checksum) (fnr : Nat)
  | delete (key : Bytes)

namespace Immediate

def update : Immediate → Update
  | direct key blob checksum | onFs key blob checksum _ => ⟨key, some (blob, checksum)⟩
  | delete key => ⟨key, none⟩

def key (u : Immediate) : Bytes := u.update.key

def value : Immediate → Option (Checksum × Value)
  | direct _ blob checksum => some (checksum, .direct blob)
  | onFs _ blob checksum fnr => some (checksum, .onFs fnr blob.length)
  | delete _ => none

def fnr? : Immediate → Option Nat
  | onFs _ _ _ fnr => some fnr
  | direct _ _ _ | delete _ => none

def replaces (db : Db) (u : Immediate) : Option Nat :=
  match db.values[u.key]? with
  | some (_, .onFs fnr _) => some fnr
  | _ => none

/-- A replaced file is to be deleted and belongs to no key. -/
def replaceOps : Option Nat → List Op
  | some fnr => [.putToBeDeleted fnr, .deleteMapping fnr]
  | none => []

def setOps : Immediate → List Op
  | direct key blob checksum => [.putValue key (checksum, .direct blob)]
  | onFs key blob checksum fnr =>
    [.putMapping fnr key, .putValue key (checksum, .onFs fnr blob.length)]
  | delete key => [.deleteValue key]

/-- The part of the batch that is for the key of the update. -/
def ops (db : Db) (u : Immediate) : List Op := replaceOps (u.replaces db) ++ u.setOps

/-- The updates in order, a large blob with the next file number. -/
def assign : List Update → Nat → List Immediate
  | [], _ => []
  | ⟨key, none⟩ :: us, fnr => delete key :: assign us fnr
  | ⟨key, some (blob, checksum)⟩ :: us, fnr =>
    if blob.length < blobThreshold then direct key blob checksum :: assign us fnr
    else onFs key blob checksum fnr :: assign us (fnr + 1)

end Immediate

structure Request where
  id : Nat
  asserts : List Assert
  updates : List Immediate
  /-- The files that are not in the database yet, and those of them that are created and complete. -/
  files : List Nat
  created : List Nat
  written : List Nat
  phase : Phase

inductive Server
  | down
  /-- Garbage collection: the files still to be looked at. -/
  | collecting (todo : List Nat)
  /-- `cleanup_files_to_delete`: the files still to be unlinked, and all of them. -/
  | cleaning (unlinks filesToDelete : List Nat)
  | cleaned
  | running (nextFnr : Nat)

structure State where
  disk : Disk Db Write
  files : ExtTreeMap Nat Blob
  server : Server
  requests : List Request
  /-- How many requests have been made, and those that have been acknowledged. -/
  started : Nat
  acknowledged : List (Nat × List Update)

def State.initial : State := ⟨.empty .empty, ∅, .down, [], 0, []⟩

inductive Action
  | apply (asserts : List Assert) (updates : List Update)
  | createFile (i fnr : Nat) (content : Blob)
  | writeBlob (i fnr : Nat)
  | transformAsserts (i : Nat)
  | tryApplyImmediate (i : Nat)
  | syncRocksdb (i : Nat)
  | unlink (i fnr : Nat)
  | removeToBeDeleted (i : Nat)
  | fail (i : Nat)
  | removeFile (i fnr : Nat)
  | release (fnr : Nat)
  | flush (n : Nat)
  | crash (n : Nat) (kept : List Nat)
  | start
  | collect (fnr : Nat)
  | listToBeDeleted
  | startupUnlink (fnr : Nat)
  | startupRemoveToBeDeleted
  | serve

namespace State

variable (s : State)

/-- The database as the server reads it. -/
def db : Db := s.disk.view Db.apply

def write (w : Write) : State := { s with disk := s.disk.write w }

def withRequest (i : Nat) (r : Request) : State := { s with requests := s.requests.set i r }

/-- `maybe_delete_file`. -/
def maybeDeleteFile (fnr : Nat) : State :=
  match s.db.fileToKeyMapping[fnr]? with
  | some _ => s
  | none => { s.write (.removeToBeDeleted fnr) with files := s.files.erase fnr }

def readValue : Value → Option Blob
  | .direct blob => some blob
  | .onFs fnr size => s.files[fnr]?.filter fun blob => blob.length = size

/-- `transform_asserts` for an assert that wants a value. -/
def transformAssert (a : Assert) : Option (Option (Bytes × (Checksum × Value))) :=
  match a.expected with
  | none => some none
  | some expected =>
    s.db.values[a.key]?.bind fun value =>
      if s.readValue value.2 = some expected then some (some (a.key, value)) else none

end State

namespace Request

def batch (r : Request) (db : Db) : Write :=
  .batch r.id (r.updates.map Immediate.update) (r.updates.flatMap (Immediate.ops db))

def filesToDelete (r : Request) (db : Db) : List Nat := r.updates.filterMap (Immediate.replaces db)

def blobOf (r : Request) (fnr : Nat) : Option Blob :=
  r.updates.findSome? fun
    | .onFs _ blob _ fnr' => if fnr' = fnr then some blob else none
    | _ => none

end Request

inductive Refusal
  | assertFailed
  | concurrentModification
  deriving DecidableEq

/-- The asserts as `try_apply_immediate` checks them, with the values read before. -/
def checkAsserts (db : Db) (asserts : List Assert) (values : List (Bytes × (Checksum × Value))) :
    Except Refusal Unit := do
  asserts.forM fun a =>
    check (a.expected = none → db.values[a.key]? = none) .assertFailed
  values.forM fun v => do
    check (db.values[v.1]? ≠ none) .assertFailed
    check (db.values[v.1]? = some v.2) .concurrentModification

namespace State

variable (s : State)

def apply (asserts : List Assert) (updates : List Update) (nextFnr : Nat) : State :=
  let immediate := Immediate.assign (lastUpdates updates) nextFnr
  let files := immediate.filterMap Immediate.fnr?
  { s with
    server := .running (nextFnr + files.length)
    requests := s.requests ++ [⟨s.started, asserts, immediate, files, [], [], .writing 0⟩]
    started := s.started + 1 }

def transformAsserts (i attempt : Nat) (r : Request) : State :=
  match r.asserts.mapM s.transformAssert with
  | some values => s.withRequest i { r with phase := .asserted attempt (values.filterMap id) }
  | none => s.withRequest i { r with phase := .failed true }

def tryApplyImmediate (i attempt : Nat) (values : List (Bytes × (Checksum × Value)))
    (r : Request) : State :=
  match checkAsserts s.db r.asserts values with
  | .ok () =>
    (s.write (r.batch s.db)).withRequest i
      { r with files := [], phase := .committed (r.filesToDelete s.db) }
  | .error .assertFailed => s.withRequest i { r with phase := .failed true }
  | .error .concurrentModification =>
    -- the fifth attempt fails
    if attempt + 1 = 5 then s.withRequest i { r with phase := .failed false }
    else s.withRequest i { r with phase := .writing (attempt + 1) }

def removeToBeDeleted (filesToDelete : List Nat) : State :=
  filesToDelete.foldl (fun s fnr => s.write (.removeToBeDeleted fnr)) s

/-- The files that are looked at, by directories of 256. -/
def garbageCandidates : List Nat :=
  s.files.keys.filter fun fnr => s.db.checkGarbageFrom.getD 0 / 256 ≤ fnr / 256

/-- `check_garbage_from` is written with a sync. -/
def serve : State :=
  { s with
    disk := (s.disk.write (.checkGarbageFrom s.db.nextFnr)).sync
    server := .running s.db.nextFnr }

end State

/-- One step; `none` when a process is not at that point. -/
def exec (s : State) : Action → Option State
  | .apply asserts updates =>
    match s.server with
    | .running nextFnr => some (s.apply asserts updates nextFnr)
    | _ => none
  | .createFile i fnr content =>
    s.requests[i]?.bind fun r =>
      if fnr ∈ r.files ∧ fnr ∉ r.created ∧ s.files[fnr]? = none then
        some { s.withRequest i { r with created := fnr :: r.created } with
          files := s.files.insert fnr content }
      else none
  | .writeBlob i fnr =>
    s.requests[i]?.bind fun r => (r.blobOf fnr).bind fun blob =>
      if fnr ∈ r.files ∧ fnr ∈ r.created then
        some { s.withRequest i { r with written := fnr :: r.written } with
          files := s.files.insert fnr blob }
      else none
  | .transformAsserts i =>
    s.requests[i]?.bind fun r =>
      match r.phase with
      | .writing attempt =>
        if ∀ fnr ∈ r.files, fnr ∈ r.written then some (s.transformAsserts i attempt r) else none
      | _ => none
  | .tryApplyImmediate i =>
    s.requests[i]?.bind fun r =>
      match r.phase with
      | .asserted attempt values => some (s.tryApplyImmediate i attempt values r)
      | _ => none
  | .syncRocksdb i =>
    s.requests[i]?.bind fun r =>
      match r.phase with
      | .committed filesToDelete =>
        -- from here on the client may be told
        some { s.withRequest i { r with phase := .cleaning filesToDelete filesToDelete } with
          disk := s.disk.sync
          acknowledged := (r.id, r.updates.map Immediate.update) :: s.acknowledged }
      | _ => none
  | .unlink i fnr =>
    s.requests[i]?.bind fun r =>
      match r.phase with
      | .cleaning unlinks filesToDelete =>
        if fnr ∈ unlinks ∧ s.files[fnr]? ≠ none then
          some { s.withRequest i
              { r with phase := .cleaning (unlinks.filter fun f => f ≠ fnr) filesToDelete } with
            files := s.files.erase fnr }
        else none
      | _ => none
  | .removeToBeDeleted i =>
    s.requests[i]?.bind fun r =>
      match r.phase with
      | .cleaning [] filesToDelete =>
        some ((s.removeToBeDeleted filesToDelete).withRequest i { r with phase := .cleaning [] [] })
      | _ => none
  | .fail i =>
    s.requests[i]?.bind fun r =>
      match r.phase with
      | .writing _ | .asserted _ _ => some (s.withRequest i { r with phase := .failed false })
      | _ => none
  | .removeFile i fnr =>
    s.requests[i]?.bind fun r =>
      match r.phase with
      | .failed assertFailed =>
        if fnr ∈ r.files then
          let r' := { r with files := r.files.filter fun f => f ≠ fnr }
          if assertFailed then some { s.withRequest i r' with files := s.files.erase fnr }
          else some ((s.maybeDeleteFile fnr).withRequest i r')
        else none
      | _ => none
  | .release fnr =>
    match s.server with
    | .running _ => some (s.write (.advanceCheckGarbageFrom fnr))
    | _ => none
  | .flush n =>
    if n ≤ s.disk.history.length then some { s with disk := s.disk.flush Db.apply n } else none
  | .crash n kept =>
    if s.disk.synced ≤ n ∧ n ≤ s.disk.history.length then
      some { s with
        disk := s.disk.crash Db.apply Write.logged n kept
        server := .down
        requests := [] }
    else none
  | .start =>
    match s.server with
    | .down => some { s with server := .collecting s.garbageCandidates }
    | _ => none
  | .collect fnr =>
    match s.server with
    | .collecting todo =>
      if fnr ∈ todo then
        some { s.maybeDeleteFile fnr with server := .collecting (todo.filter fun f => f ≠ fnr) }
      else none
    | _ => none
  | .listToBeDeleted =>
    match s.server with
    | .collecting [] => some { s with server := .cleaning s.db.toBeDeleted s.db.toBeDeleted }
    | _ => none
  | .startupUnlink fnr =>
    match s.server with
    | .cleaning unlinks filesToDelete =>
      if fnr ∈ unlinks then
        some { s with
          files := s.files.erase fnr
          server := .cleaning (unlinks.filter fun f => f ≠ fnr) filesToDelete }
      else none
    | _ => none
  | .startupRemoveToBeDeleted =>
    match s.server with
    | .cleaning [] filesToDelete =>
      some { s.removeToBeDeleted filesToDelete with server := .cleaned }
    | _ => none
  | .serve =>
    match s.server with
    | .cleaned => some s.serve
    | _ => none

end Alba.Asd
