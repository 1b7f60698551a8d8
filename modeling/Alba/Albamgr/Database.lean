import Alba.Albamgr.Types
import Alba.ProofKit.Tables

/-! The database of the alba manager. A key prefix of the source is a table here. The updates are those
of an Arakoon sequence with the user functions of the log and arith64 plugins. -/

namespace Alba.Albamgr

open ProofKit Std List

/-- The key prefixes of the database. -/
inductive Table
  /-- `/alba/id` -/
  | albaId
  /-- `/alba/nsm_host/info/` -/
  | nsmHostInfo
  /-- `/alba/nsm_host/count/` -/
  | nsmHostCount
  /-- `/alba/osds/info/`, by long id -/
  | osdInfo
  /-- `/alba/osd/byosd_id/` -/
  | osdLongId
  /-- `/alba/osd/next_id` -/
  | osdNextId
  /-- `/alba/osds/ns/`, by osd and namespace -/
  | osdNamespaces
  /-- `/alba/osds/repairing/` -/
  | decommissioning
  /-- `/alba/osds/purging/` -/
  | purging
  /-- `/alba/ns/list/`, by name -/
  | namespaceInfo
  /-- `/alba/ns/by_id/` -/
  | namespaceName
  /-- `/alba/ns/next_id` -/
  | namespaceNextId
  /-- `/alba/ns/osds/`, by namespace and osd -/
  | namespaceOsds
  /-- the next message id of each destination of a log -/
  | nextMsg (t : MsgLog)
  /-- the messages of a log, by destination and id -/
  | msgs (t : MsgLog)
  /-- `/alba/work/id/` -/
  | workNextId
  /-- `/alba/work/count` -/
  | workCount
  /-- `/alba/work/items/` -/
  | workItems
  /-- `/alba/work/job_name/` -/
  | jobName
  /-- `/alba/preset/default` -/
  | presetDefault
  /-- `/alba/preset/list/`: a preset with its version -/
  | presets
  /-- `/alba/preset/namespaces`, by preset and namespace -/
  | presetNamespaces
  /-- `/alba/preset/propagation/`: the version and the namespaces it still has to reach -/
  | propagation
  /-- `/alba/lease/` -/
  | lease
  /-- `/alba/progress/` -/
  | progress
  deriving DecidableEq

abbrev Table.Key : Table → Type
  | .nsmHostInfo | .nsmHostCount | .osdInfo | .namespaceInfo | .jobName => Bytes
  | .presets | .propagation | .lease | .progress => Bytes
  | .osdLongId | .decommissioning | .purging => OsdId
  | .albaId | .osdNextId | .namespaceNextId | .workNextId | .workCount | .presetDefault => Unit
  | .namespaceName => NamespaceId
  | .workItems => WorkId
  | .osdNamespaces => OsdId × NamespaceId
  | .namespaceOsds => NamespaceId × OsdId
  | .nextMsg t => t.Dest
  | .msgs t => t.Dest × MsgId
  | .presetNamespaces => Bytes × NamespaceId

abbrev Table.Val : Table → Type
  | .nsmHostInfo => NsmHost
  | .nsmHostCount | .workCount | .lease => Int
  | .osdInfo => ClaimInfo × OsdInfo
  | .albaId | .osdLongId | .namespaceName | .presetDefault => Bytes
  | .osdNextId => OsdId
  | .osdNamespaces | .decommissioning | .purging | .presetNamespaces => Unit
  | .namespaceInfo => Namespace
  | .namespaceNextId | .nextMsg _ | .workNextId | .jobName => Nat
  | .namespaceOsds => LinkState
  | .msgs t => t.Msg
  | .workItems => Work
  | .presets => Preset × Nat
  | .propagation => Nat × List NamespaceId
  | .progress => Progress

section Instances

instance : Ord Nat63 where
  compare := compareOn Nsm.Nat63.val

instance : TransOrd Nat63 := inferInstanceAs (TransCmp (compareOn Nsm.Nat63.val))

instance : LawfulEqOrd Nat63 where
  compare_self := ReflCmp.compare_self
  eq_of_compare h := Nsm.Nat63.ext (Nat.compare_eq_eq.mp h)

instance (t : MsgLog) : DecidableEq t.Dest :=
  match t with
  | .nsmHost => inferInstanceAs (DecidableEq Bytes)
  | .osd => inferInstanceAs (DecidableEq OsdId)

instance (t : MsgLog) : DecidableEq t.Msg :=
  match t with
  | .nsmHost => inferInstanceAs (DecidableEq NsmMessage)
  | .osd => inferInstanceAs (DecidableEq OsdMessage)

instance (t : MsgLog) : Ord t.Dest :=
  match t with
  | .nsmHost => inferInstanceAs (Ord Bytes)
  | .osd => inferInstanceAs (Ord OsdId)

instance (t : MsgLog) : TransOrd t.Dest :=
  match t with
  | .nsmHost => inferInstanceAs (TransOrd Bytes)
  | .osd => inferInstanceAs (TransOrd OsdId)

instance (t : MsgLog) : LawfulEqOrd t.Dest :=
  match t with
  | .nsmHost => inferInstanceAs (LawfulEqOrd Bytes)
  | .osd => inferInstanceAs (LawfulEqOrd OsdId)

/-- The one key of a table that holds a single record. -/
instance unitOrd : Ord Unit where
  compare _ _ := .eq

instance unitTransOrd : TransOrd Unit where
  eq_swap := rfl
  isLE_trans _ _ := rfl

instance unitLawfulEqOrd : LawfulEqOrd Unit where
  compare_self := rfl
  eq_of_compare _ := rfl

attribute [local instance] lexOrd

instance (t : Table) : DecidableEq t.Key :=
  match t with
  | .nsmHostInfo | .nsmHostCount | .osdInfo | .namespaceInfo | .jobName | .presets | .propagation
  | .lease | .progress => inferInstanceAs (DecidableEq Bytes)
  | .osdLongId | .decommissioning | .purging => inferInstanceAs (DecidableEq OsdId)
  | .albaId | .osdNextId | .namespaceNextId | .workNextId | .workCount | .presetDefault =>
    inferInstanceAs (DecidableEq Unit)
  | .namespaceName | .workItems => inferInstanceAs (DecidableEq Nat)
  | .osdNamespaces => inferInstanceAs (DecidableEq (OsdId × NamespaceId))
  | .namespaceOsds => inferInstanceAs (DecidableEq (NamespaceId × OsdId))
  | .nextMsg t => inferInstanceAs (DecidableEq t.Dest)
  | .msgs t => inferInstanceAs (DecidableEq (t.Dest × MsgId))
  | .presetNamespaces => inferInstanceAs (DecidableEq (Bytes × NamespaceId))

instance (t : Table) : DecidableEq t.Val :=
  match t with
  | .nsmHostInfo => inferInstanceAs (DecidableEq NsmHost)
  | .nsmHostCount | .workCount | .lease => inferInstanceAs (DecidableEq Int)
  | .osdInfo => inferInstanceAs (DecidableEq (ClaimInfo × OsdInfo))
  | .albaId | .osdLongId | .namespaceName | .presetDefault => inferInstanceAs (DecidableEq Bytes)
  | .osdNextId => inferInstanceAs (DecidableEq OsdId)
  | .osdNamespaces | .decommissioning | .purging | .presetNamespaces =>
    inferInstanceAs (DecidableEq Unit)
  | .namespaceInfo => inferInstanceAs (DecidableEq Namespace)
  | .namespaceNextId | .nextMsg _ | .workNextId | .jobName => inferInstanceAs (DecidableEq Nat)
  | .namespaceOsds => inferInstanceAs (DecidableEq LinkState)
  | .msgs t => inferInstanceAs (DecidableEq t.Msg)
  | .workItems => inferInstanceAs (DecidableEq Work)
  | .presets => inferInstanceAs (DecidableEq (Preset × Nat))
  | .propagation => inferInstanceAs (DecidableEq (Nat × List NamespaceId))
  | .progress => inferInstanceAs (DecidableEq Progress)

instance (t : Table) : Ord t.Key :=
  match t with
  | .nsmHostInfo | .nsmHostCount | .osdInfo | .namespaceInfo | .jobName | .presets | .propagation
  | .lease | .progress => inferInstanceAs (Ord Bytes)
  | .osdLongId | .decommissioning | .purging => inferInstanceAs (Ord OsdId)
  | .albaId | .osdNextId | .namespaceNextId | .workNextId | .workCount | .presetDefault => unitOrd
  | .namespaceName | .workItems => inferInstanceAs (Ord Nat)
  | .osdNamespaces => inferInstanceAs (Ord (OsdId × NamespaceId))
  | .namespaceOsds => inferInstanceAs (Ord (NamespaceId × OsdId))
  | .nextMsg t => inferInstanceAs (Ord t.Dest)
  | .msgs t => inferInstanceAs (Ord (t.Dest × MsgId))
  | .presetNamespaces => inferInstanceAs (Ord (Bytes × NamespaceId))

instance (t : Table) : TransOrd t.Key := by
  cases t <;> exact inferInstance

instance (t : Table) : LawfulEqOrd t.Key := by
  cases t <;> exact inferInstance

end Instances

abbrev Db := Tables Table.Key Table.Val

/-- `list_preset_namespaces` of all namespaces. -/
def listPresetNamespaces (db : Db) (presetName : Bytes) : List NamespaceId :=
  (db.rows .presetNamespaces).filterMap fun e => if e.1.1 = presetName then some e.1.2 else none

/-- The keys that arith64 updates count in. -/
inductive Counter
  | work
  | nsmHost (nsmHostId : Bytes)
  deriving DecidableEq

def Counter.table : Counter → Table
  | work => .workCount
  | nsmHost _ => .nsmHostCount

def Counter.get (db : Db) : Counter → Option Int
  | work => db.get .workCount ()
  | nsmHost nsmHostId => db.get .nsmHostCount nsmHostId

def Counter.put (db : Db) (v : Option Int) : Counter → Db
  | work => db.put .workCount () v
  | nsmHost nsmHostId => db.put .nsmHostCount nsmHostId v

inductive Update
  | assert (t : Table) (key : t.Key) (value : Option t.Val)
  | assertExists (t : Table) (key : t.Key)
  /-- `Assert_range`: exactly these namespaces use the preset. -/
  | assertRange (presetName : Bytes) (namespaceIds : List NamespaceId)
  /-- `Set` and `Replace` -/
  | set (t : Table) (key : t.Key) (value : Option t.Val)
  /-- `Delete`, which raises when the key is absent -/
  | delete (t : Table) (key : t.Key)
  | testAndSet (t : Table) (key : t.Key) (expected value : Option t.Val)
  /-- `DeletePrefix` of the messages of an osd -/
  | deleteMsgs (osdId : OsdId)
  /-- `Log_plugin.make_update_x64` -/
  | log (t : MsgLog) (dest : t.Dest) (msgs : List t.Msg)
  /-- `Log_plugin.make_update_x64_with_secondary` -/
  | logWork (items : List Work) (secondary : List (Option Bytes))
  /-- `Arith64.make_update` with `PLUS_EQ` -/
  | plusEq (counter : Counter) (x : Int) (clearIfZero : Bool)

/-- `Log_plugin.user_function_x64`. -/
def logMsgs (db : Db) (t : MsgLog) (dest : t.Dest) (msgs : List t.Msg) : Db :=
  let nextId := (db.get (.nextMsg t) dest).getD 0
  let s := msgs.foldl (fun (s : Db × MsgId) msg =>
    (s.1.put (.msgs t) (dest, s.2) (some msg), s.2 + 1)) (db, nextId)
  s.1.put (.nextMsg t) dest (some s.2)

/-- One item of `Log_plugin.user_function_x64_sec`. -/
def logItem (s : Db × WorkId) (e : Work × Option Bytes) : Option (Db × WorkId) :=
  match e.2 with
  | none => some (s.1.put .workItems s.2 (some e.1), s.2 + 1)
  | some name =>
    if (s.1.get .jobName name).isSome then none
    else some ((s.1.put .jobName name (some s.2)).put .workItems s.2 (some e.1), s.2 + 1)

/-- `Log_plugin.user_function_x64_sec`, which raises when the two lists differ in length. -/
def logWork (db : Db) (items : List Work) (secondary : List (Option Bytes)) : Option Db :=
  if items.length = secondary.length then
    ((items.zip secondary).foldlM logItem (db, (db.get .workNextId ()).getD 0)).map fun s =>
      s.1.put .workNextId () (some s.2)
  else none

/-- `Arith64.user_function`. -/
def plusEq (db : Db) (counter : Counter) (x : Int) (clearIfZero : Bool) : Db :=
  let a := (counter.get db).getD 0 + x
  counter.put db (if a = 0 ∧ clearIfZero then none else some a)

def deleteMsgs (db : Db) (osdId : OsdId) : Db :=
  ((db.rows (.msgs .osd)).filter fun e => e.1.1 = osdId).foldl
    (fun db e => db.put (.msgs .osd) e.1 none) db

/-- One update of a sequence; the sequence as a whole fails when it raises. -/
def Update.apply (db : Db) : Update → Option Db
  | assert t key value => if db.get t key = value then some db else none
  | assertExists t key => if (db.get t key).isSome then some db else none
  | assertRange presetName namespaceIds =>
    if listPresetNamespaces db presetName = namespaceIds then some db else none
  | set t key value => some (db.put t key value)
  | delete t key => if (db.get t key).isSome then some (db.put t key none) else none
  | testAndSet t key expected value =>
    some (if db.get t key = expected then db.put t key value else db)
  | deleteMsgs osdId => some (Albamgr.deleteMsgs db osdId)
  | log t dest msgs => some (logMsgs db t dest msgs)
  | logWork items secondary => Albamgr.logWork db items secondary
  | plusEq counter x clearIfZero => some (Albamgr.plusEq db counter x clearIfZero)

/-- `Plugin_extra.apply_update`: asserts are not checked, and some updates are not supported. -/
def Update.applyNow (db : Db) : Update → Option Db
  | assert .. | assertExists .. | assertRange .. => some db
  | set t key value => some (db.put t key value)
  | delete t key => some (db.put t key none)
  | testAndSet .. | deleteMsgs _ => none
  | log t dest msgs => some (logMsgs db t dest msgs)
  | logWork items secondary => Albamgr.logWork db items secondary
  | plusEq counter x clearIfZero => some (Albamgr.plusEq db counter x clearIfZero)

def applyAll (db : Db) (us : List Update) : Option Db := us.foldlM Update.apply db

section ApplyAll

variable {db db' : Db} {t : Table} {key : t.Key} {value : Option t.Val} {us vs : List Update}

@[simp] theorem applyAll_nil : applyAll db [] = some db' ↔ db = db' := by simp [applyAll]

theorem applyAll_append :
    applyAll db (us ++ vs) = some db' ↔ ∃ mid, applyAll db us = some mid ∧ applyAll mid vs = some db' :=
  foldlM_append_some

theorem applyAll_cons {u : Update} :
    applyAll db (u :: us) = some db' ↔ ∃ mid, u.apply db = some mid ∧ applyAll mid us = some db' :=
  foldlM_cons_some

@[simp] theorem applyAll_assert_cons :
    applyAll db (.assert t key value :: us) = some db' ↔
      db.get t key = value ∧ applyAll db us = some db' := by
  simp [applyAll_cons, Update.apply, and_assoc]

@[simp] theorem applyAll_assertExists_cons :
    applyAll db (.assertExists t key :: us) = some db' ↔
      (db.get t key).isSome ∧ applyAll db us = some db' := by
  simp [applyAll_cons, Update.apply, and_assoc]

@[simp] theorem applyAll_assertRange_cons {presetName : Bytes} {namespaceIds : List NamespaceId} :
    applyAll db (.assertRange presetName namespaceIds :: us) = some db' ↔
      listPresetNamespaces db presetName = namespaceIds ∧ applyAll db us = some db' := by
  simp [applyAll_cons, Update.apply, and_assoc]

@[simp] theorem applyAll_set_cons :
    applyAll db (.set t key value :: us) = some db' ↔ applyAll (db.put t key value) us = some db' := by
  simp [applyAll_cons, Update.apply]

@[simp] theorem applyAll_delete_cons :
    applyAll db (.delete t key :: us) = some db' ↔
      (db.get t key).isSome ∧ applyAll (db.put t key none) us = some db' := by
  simp [applyAll_cons, Update.apply, and_assoc]

@[simp] theorem applyAll_deleteMsgs_cons {osdId : OsdId} :
    applyAll db (.deleteMsgs osdId :: us) = some db' ↔
      applyAll (deleteMsgs db osdId) us = some db' := by
  simp [applyAll_cons, Update.apply]

@[simp] theorem applyAll_log_cons {log : MsgLog} {dest : log.Dest} {msgs : List log.Msg} :
    applyAll db (.log log dest msgs :: us) = some db' ↔
      applyAll (logMsgs db log dest msgs) us = some db' := by
  simp [applyAll_cons, Update.apply]

@[simp] theorem applyAll_plusEq_cons {counter : Counter} {x : Int} {clearIfZero : Bool} :
    applyAll db (.plusEq counter x clearIfZero :: us) = some db' ↔
      applyAll (plusEq db counter x clearIfZero) us = some db' := by
  simp [applyAll_cons, Update.apply]

end ApplyAll

/-! ### What an update changes -/

abbrev Cell := (t : Table) × t.Key

def Update.Writes (c : Cell) : Update → Prop
  | assert .. | assertExists .. | assertRange .. => False
  | set t key _ | delete t key | testAndSet t key _ _ => c = ⟨t, key⟩
  | deleteMsgs osdId => ∃ id, c = ⟨.msgs .osd, (osdId, id)⟩
  | log t dest _ => c = ⟨.nextMsg t, dest⟩ ∨ ∃ id, c = ⟨.msgs t, (dest, id)⟩
  | logWork _ secondary =>
    c = ⟨.workNextId, ()⟩ ∨ (∃ id, c = ⟨.workItems, id⟩) ∨ ∃ name, some name ∈ secondary ∧
      c = ⟨.jobName, name⟩
  | plusEq .work _ _ => c = ⟨.workCount, ()⟩
  | plusEq (.nsmHost nsmHostId) _ _ => c = ⟨.nsmHostCount, nsmHostId⟩

def Update.tables : Update → List Table
  | assert .. | assertExists .. | assertRange .. => []
  | set t _ _ | delete t _ | testAndSet t _ _ _ => [t]
  | deleteMsgs _ => [.msgs .osd]
  | log t _ _ => [.nextMsg t, .msgs t]
  | logWork _ _ => [.workNextId, .workItems, .jobName]
  | plusEq counter _ _ => [counter.table]

/-- What an update does to the database when nothing is checked. -/
def Update.effect (db : Db) : Update → Option Db
  | assert .. | assertExists .. | assertRange .. => some db
  | set t key value => some (db.put t key value)
  | delete t key => some (db.put t key none)
  | testAndSet t key expected value =>
    some (if db.get t key = expected then db.put t key value else db)
  | deleteMsgs osdId => some (Albamgr.deleteMsgs db osdId)
  | log t dest msgs => some (logMsgs db t dest msgs)
  | logWork items secondary => Albamgr.logWork db items secondary
  | plusEq counter x clearIfZero => some (Albamgr.plusEq db counter x clearIfZero)

theorem Update.effect_of_apply {db db' : Db} {u : Update} (h : u.apply db = some db') :
    u.effect db = some db' := by
  cases u <;> simp_all [apply, effect]

theorem Update.effect_of_applyNow {db db' : Db} {u : Update} (h : u.applyNow db = some db') :
    u.effect db = some db' := by
  cases u <;> simp_all [applyNow, effect]

section Frame

variable {db db' : Db} {c : Cell} {t : Table} {u : Update}

theorem foldl_put_get {α : Type} {key : α → t.Key} {value : α → Option t.Val} {l : List α}
    (h : ∀ a ∈ l, c ≠ ⟨t, key a⟩) (db : Db) :
    (l.foldl (fun db a => db.put t (key a) (value a)) db).get c.1 c.2 = db.get c.1 c.2 := by
  induction l generalizing db with
  | nil => rfl
  | cons a l ih =>
    rw [foldl_cons, ih fun b hb => h b (mem_cons_of_mem a hb)]
    exact Tables.get_put_cell _ (h a mem_cons_self)

theorem deleteMsgs_get {osdId : OsdId} (h : ∀ id, c ≠ ⟨.msgs .osd, (osdId, id)⟩) :
    (deleteMsgs db osdId).get c.1 c.2 = db.get c.1 c.2 := by
  refine foldl_put_get (fun e he => ?_) db
  obtain ⟨⟨dest, id⟩, msg⟩ := e
  have hdest : dest = osdId := by simpa using (mem_filter.mp he).2
  subst hdest
  exact h id

theorem logMsgs_get {t : MsgLog} {dest : t.Dest} {msgs : List t.Msg} (h : c ≠ ⟨.nextMsg t, dest⟩)
    (h' : ∀ id, c ≠ ⟨.msgs t, (dest, id)⟩) : (logMsgs db t dest msgs).get c.1 c.2 = db.get c.1 c.2 := by
  rw [logMsgs, Tables.get_put_cell _ h]
  generalize (db.get (.nextMsg t) dest).getD 0 = id
  induction msgs generalizing db id with
  | nil => rfl
  | cons msg msgs ih =>
    rw [foldl_cons, ih]
    exact Tables.get_put_cell _ (h' id)

theorem logItem_get {s s' : Db × WorkId} {e : Work × Option Bytes} (h : logItem s e = some s')
    (hitem : c ≠ ⟨.workItems, s.2⟩) (hname : ∀ name, e.2 = some name → c ≠ ⟨.jobName, name⟩) :
    s'.1.get c.1 c.2 = s.1.get c.1 c.2 := by
  obtain ⟨work, secondary⟩ := e
  cases secondary with
  | none =>
    simp only [logItem, Option.some.injEq] at h
    rw [← h]
    exact Tables.get_put_cell _ hitem
  | some name =>
    simp only [logItem, Option.ite_none_left_eq_some, Option.some.injEq] at h
    rw [← h.2, Tables.get_put_cell _ hitem]
    exact Tables.get_put_cell _ (hname name rfl)

theorem logWork_get {items : List Work} {secondary : List (Option Bytes)}
    (h : logWork db items secondary = some db') (hnext : c ≠ ⟨.workNextId, ()⟩)
    (hitem : ∀ id, c ≠ ⟨.workItems, id⟩) (hname : ∀ name, some name ∈ secondary → c ≠ ⟨.jobName, name⟩) :
    db'.get c.1 c.2 = db.get c.1 c.2 := by
  rw [logWork, Option.ite_none_right_eq_some, Option.map_eq_some_iff] at h
  obtain ⟨_, s, hs, rfl⟩ := h
  rw [Tables.get_put_cell _ hnext]
  refine foldlM_keeps (f := fun s : Db × WorkId => s.1.get c.1 c.2) (fun e he s s' hstep => ?_) hs
  exact logItem_get hstep (hitem s.2) fun name hsome => hname name (hsome ▸ (of_mem_zip he).2)

theorem Update.effect_get (h : u.effect db = some db') (hc : ¬u.Writes c) :
    db'.get c.1 c.2 = db.get c.1 c.2 := by
  cases u with
  | assert | assertExists | assertRange =>
    cases h
    rfl
  | set t key value | delete t key =>
    cases h
    exact Tables.get_put_cell _ hc
  | testAndSet t key expected value =>
    cases h
    split
    · exact Tables.get_put_cell _ hc
    · rfl
  | deleteMsgs osdId =>
    cases h
    exact deleteMsgs_get fun id hid => hc ⟨id, hid⟩
  | log t dest msgs =>
    cases h
    exact logMsgs_get (fun hn => hc (.inl hn)) fun id hid => hc (.inr ⟨id, hid⟩)
  | logWork items secondary =>
    exact logWork_get h (fun hn => hc (.inl hn)) (fun id hid => hc (.inr (.inl ⟨id, hid⟩)))
      fun name hmem hn => hc (.inr (.inr ⟨name, hmem, hn⟩))
  | plusEq counter x clearIfZero =>
    cases h
    cases counter <;> exact Tables.get_put_cell _ hc

theorem Update.table_of_writes (h : u.Writes c) : c.1 ∈ u.tables := by
  cases u with
  | assert | assertExists | assertRange => exact h.elim
  | set | delete | testAndSet =>
    cases h
    exact mem_singleton_self _
  | deleteMsgs =>
    obtain ⟨id, rfl⟩ := h
    exact mem_singleton_self _
  | log t =>
    rcases h with rfl | ⟨id, rfl⟩ <;> simp [tables]
  | logWork =>
    rcases h with rfl | ⟨id, rfl⟩ | ⟨name, _, rfl⟩ <;> simp [tables]
  | plusEq counter =>
    cases counter <;> (cases h; exact mem_singleton_self _)

theorem Update.effect_table (h : u.effect db = some db') (ht : t ∉ u.tables) :
    db'.table t = db.table t :=
  Tables.table_congr fun k => u.effect_get (c := ⟨t, k⟩) h fun hw => ht (table_of_writes hw)

variable {us : List Update}

theorem effects_get (h : us.foldlM Update.effect db = some db') (hc : ∀ u ∈ us, ¬u.Writes c) :
    db'.get c.1 c.2 = db.get c.1 c.2 :=
  foldlM_keeps (f := fun db : Db => db.get c.1 c.2)
    (fun u hu _ _ hstep => u.effect_get hstep (hc u hu)) h

theorem effects_table (h : us.foldlM Update.effect db = some db') (ht : ∀ u ∈ us, t ∉ u.tables) :
    db'.table t = db.table t :=
  foldlM_keeps (f := fun db : Db => db.table t)
    (fun u hu _ _ hstep => u.effect_table hstep (ht u hu)) h

theorem effects_set {key : t.Key} {value : Option t.Val} (h : us.foldlM Update.effect db = some db')
    (hmem : .set t key value ∈ us) (hw : ∀ u ∈ us, u.Writes ⟨t, key⟩ → u = .set t key value) :
    db'.get t key = value := by
  refine foldlM_sets (f := fun db : Db => db.get t key) hmem (fun s s' hs => ?_)
    (fun u hu s s' hs => ?_) h
  · cases hs
    exact Tables.get_put_self ..
  · by_cases hwu : u.Writes ⟨t, key⟩
    · rw [hw u hu hwu] at hs
      cases hs
      exact .inr (Tables.get_put_self ..)
    · exact .inl (u.effect_get (c := ⟨t, key⟩) hs hwu)

theorem effects_of_applyAll (h : applyAll db us = some db') : us.foldlM Update.effect db = some db' := by
  rw [applyAll] at h
  induction us generalizing db with
  | nil => exact h
  | cons u us ih =>
    obtain ⟨mid, hu, hrest⟩ := foldlM_cons_some.mp h
    exact foldlM_cons_some.mpr ⟨mid, u.effect_of_apply hu, ih hrest⟩

theorem effects_of_applyNow (h : us.foldlM Update.applyNow db = some db') :
    us.foldlM Update.effect db = some db' := by
  induction us generalizing db with
  | nil => exact h
  | cons u us ih =>
    obtain ⟨mid, hu, hrest⟩ := foldlM_cons_some.mp h
    exact foldlM_cons_some.mpr ⟨mid, u.effect_of_applyNow hu, ih hrest⟩

end Frame

end Alba.Albamgr
