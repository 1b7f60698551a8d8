import Alba.Albamgr.Footprint
import Alba.ProofKit.Texts
import Alba.ProofKit.Words

/-! `MarkMsgsDelivered`: the id of the last message travels to the user function as the bytes of a
variable-length integer, of which the function reads four, and the range of the messages ends with
these four bytes in big-endian order. -/

namespace Alba.Albamgr

open List hiding next
open ProofKit
open Nsm (intTo)

section Bound

/-- `x_int64_to` -/
def xInt64To (i : Int64) : Bytes :=
  if i.toInt < 2 ^ 31 - 1 then intTo i.toInt
  else intTo (2 ^ 31 - 1) ++ leBytes 8 (BitVec.ofInt 64 i.toInt).toNat

/-- `x_int64_be_to` of the id of a message, which ends the key of the message. -/
def xInt64BeTo (id : Nat) : Bytes :=
  if id < 2 ^ 31 - 1 then beBytes 4 id else beBytes 4 (2 ^ 31 - 1) ++ beBytes 8 id

/-- The end of the range: the user function reads an `int32` and writes it with `int32_be_to`. -/
def lastKey (msgId : Int64) : Bytes := beBytes 4 (ofLe ((xInt64To msgId).take 4))

/-- The word that the user function reads. -/
def wordOf (msgId : Int64) : Nat :=
  if msgId.toInt < 2 ^ 31 - 1 then (msgId.toInt % 2 ^ 32).toNat else 2 ^ 31 - 1

theorem wordOf_lt (msgId : Int64) : wordOf msgId < 2 ^ 32 := by
  unfold wordOf
  split <;> omega

theorem lastKey_eq (msgId : Int64) : lastKey msgId = beBytes 4 (wordOf msgId) := by
  have hword : ∀ i : Int, ofLe (intTo i) = (i % 2 ^ 32).toNat := by
    intro i
    rw [intTo, ofLe_leBytes, BitVec.toNat_ofInt]
    exact Nat.mod_eq_of_lt (by omega)
  unfold lastKey wordOf xInt64To
  split
  · rw [take_of_length_le (by simp [intTo]), hword]
  · rw [take_left' (by simp [intTo]), hword]
    rfl

def InRange (msgId : Int64) (id : Nat) : Prop := compare (xInt64BeTo id) (lastKey msgId) ≠ .gt

instance (msgId : Int64) (id : Nat) : Decidable (InRange msgId id) :=
  inferInstanceAs (Decidable (_ ≠ _))

theorem inRange_iff (msgId : Int64) (id : Nat) :
    InRange msgId id ↔ (id < 2 ^ 31 - 1 ∧ id ≤ wordOf msgId) ∨
      (2 ^ 31 - 1 ≤ id ∧ 2 ^ 31 - 1 < wordOf msgId) := by
  have hlt := wordOf_lt msgId
  rw [InRange, lastKey_eq, xInt64BeTo]
  split
  · rename_i hid
    have hcompare := compare_beBytes 4 id (wordOf msgId) [] []
    rw [append_nil, append_nil, Nat.mod_eq_of_lt (by omega), Nat.mod_eq_of_lt (by omega)]
      at hcompare
    rw [hcompare]
    simp only [Std.ReflOrd.compare_self, Ordering.then_eq, ne_eq, Nat.compare_eq_gt]
    omega
  · rename_i hid
    have hcompare := compare_beBytes 4 (2 ^ 31 - 1) (wordOf msgId) (beBytes 8 id) []
    rw [append_nil, Nat.mod_eq_of_lt (by omega), Nat.mod_eq_of_lt (by omega)] at hcompare
    have hlong : compare (beBytes 8 id) [] = .gt := rfl
    rw [hcompare, hlong]
    rcases Nat.lt_or_ge (2 ^ 31 - 1) (wordOf msgId) with hlt | hge
    · rw [Nat.compare_eq_lt.mpr hlt]
      exact iff_of_true nofun (.inr ⟨by omega, hlt⟩)
    · refine iff_of_false (not_not.mpr ?_) (by omega)
      have hne : compare (2 ^ 31 - 1) (wordOf msgId) ≠ .lt := by
        rw [ne_eq, Nat.compare_eq_lt]
        omega
      cases hc : compare (2 ^ 31 - 1) (wordOf msgId) with
      | lt => exact absurd hc hne
      | eq => rfl
      | gt => rfl

end Bound

section Selected

variable {db db' : Db} {t : MsgLog} {dest : t.Dest}

/-- `mark_msgs_delivered` with the range of keys that the user function scans. -/
def markMsgs (db : Db) (t : MsgLog) (dest : t.Dest) (msgId : Int64) : Option Db :=
  ((pendingMsgs db t dest).filter fun e => InRange msgId e.1).foldlM (deliverOne t dest) db

end Selected

section Log

variable {db db' db'' : Db} {t : MsgLog} {dest : t.Dest}

def nextMsgId (db : Db) (t : MsgLog) (dest : t.Dest) : Nat := (db.get (.nextMsg t) dest).getD 0

/-- The ids of the messages of a log have been given out. -/
def LogOk (db : Db) (t : MsgLog) (dest : t.Dest) : Prop :=
  ∀ id : Nat, (db.get (.msgs t) (dest, id)).isSome → id < nextMsgId db t dest

/-- Messages were put behind those of the log, if anything was done to it. -/
structure Grows (t : MsgLog) (dest : t.Dest) (db db' : Db) : Prop where
  next : nextMsgId db t dest ≤ nextMsgId db' t dest
  kept : ∀ id : Nat, id < nextMsgId db t dest → db'.get (.msgs t) (dest, id) = db.get (.msgs t) (dest, id)
  above : ∀ id : Nat, nextMsgId db' t dest ≤ id → db'.get (.msgs t) (dest, id) = db.get (.msgs t) (dest, id)

namespace Grows

theorem refl (db : Db) : Grows t dest db db := ⟨Nat.le_refl _, fun _ _ => rfl, fun _ _ => rfl⟩

theorem trans (h : Grows t dest db db') (h' : Grows t dest db' db'') : Grows t dest db db'' where
  next := h.next.trans h'.next
  kept id hid := (h'.kept id (hid.trans_le h.next)).trans (h.kept id hid)
  above id hid := (h'.above id hid).trans (h.above id (h'.next.trans hid))

theorem of_tables (hnext : db'.table (.nextMsg t) = db.table (.nextMsg t))
    (hmsgs : db'.table (.msgs t) = db.table (.msgs t)) : Grows t dest db db' where
  next := by rw [nextMsgId, nextMsgId, Tables.get_congr hnext]
  kept id _ := Tables.get_congr hmsgs _
  above id _ := Tables.get_congr hmsgs _

theorem logOk (h : Grows t dest db db') (hlog : LogOk db t dest) : LogOk db' t dest := by
  intro id hid
  by_contra hge
  rw [h.above id (Nat.le_of_not_lt hge)] at hid
  have hlt := hlog id hid
  have hnext := h.next
  omega

end Grows

theorem foldl_log_get {msgs : List t.Msg} {id next : Nat} (h : id < next ∨ next + msgs.length ≤ id) :
    ((msgs.foldl (fun (s : Db × Nat) msg =>
      (s.1.put (.msgs t) (dest, s.2) (some msg), s.2 + 1)) (db, next)).1).get (.msgs t) (dest, id) =
        db.get (.msgs t) (dest, id) := by
  induction msgs generalizing db next with
  | nil => rfl
  | cons msg msgs ih =>
    rw [length_cons] at h
    have hne : (dest, next) ≠ (dest, id) := by
      rintro heq
      cases heq
      omega
    rw [foldl_cons, ih (by omega)]
    exact Tables.get_put_of_ne _ hne

theorem foldl_log_next {msgs : List t.Msg} {next : Nat} :
    (msgs.foldl (fun (s : Db × Nat) msg =>
      (s.1.put (.msgs t) (dest, s.2) (some msg), s.2 + 1)) (db, next)).2 = next + msgs.length := by
  induction msgs generalizing db next with
  | nil => rfl
  | cons msg msgs ih =>
    rw [foldl_cons, ih, length_cons]
    omega

theorem grows_logMsgs (t : MsgLog) (dest : t.Dest) (t' : MsgLog) (dest' : t'.Dest) (db : Db)
    (msgs : List t'.Msg) : Grows t dest db (logMsgs db t' dest' msgs) := by
  by_cases hsame : (⟨t', dest'⟩ : (t : MsgLog) × t.Dest) = ⟨t, dest⟩
  · cases hsame
    have hnext : nextMsgId (logMsgs db t dest msgs) t dest = nextMsgId db t dest + msgs.length := by
      rw [nextMsgId, logMsgs, Tables.get_put_self, Option.getD_some, foldl_log_next]
      rfl
    refine ⟨by omega, fun id hid => ?_, fun id hid => ?_⟩
    · exact (Tables.get_put_table _ _ _ (by simp)).trans (foldl_log_get (.inl hid))
    · rw [hnext] at hid
      exact (Tables.get_put_table _ _ _ (by simp)).trans (foldl_log_get (.inr hid))
  · -- another log: no row of this one is written
    have hother : ∀ c : Cell, (c = ⟨.nextMsg t, dest⟩ ∨ ∃ id, c = ⟨.msgs t, (dest, id)⟩) →
        (logMsgs db t' dest' msgs).get c.1 c.2 = db.get c.1 c.2 := by
      intro c hc
      refine logMsgs_get (fun h => hsame ?_) (fun id h => hsame ?_)
      · rcases hc with rfl | ⟨id', rfl⟩ <;> cases h
        rfl
      · rcases hc with rfl | ⟨id', rfl⟩ <;> cases h
        rfl
    refine ⟨Nat.le_of_eq ?_, fun id _ => hother ⟨.msgs t, (dest, id)⟩ (.inr ⟨id, rfl⟩),
      fun id _ => hother ⟨.msgs t, (dest, id)⟩ (.inr ⟨id, rfl⟩)⟩
    exact congrArg (Option.getD · 0) (hother ⟨.nextMsg t, dest⟩ (.inl rfl)).symm

/-- The updates of deliveries: they change logs only by adding messages to them, and `apply_update`
supports them. -/
def Plain : Update → Prop
  | .set table _ _ | .delete table _ => ∀ l, table ≠ .nextMsg l ∧ table ≠ .msgs l
  | .testAndSet .. | .deleteMsgs _ => False
  | _ => True

theorem Plain.applyNow {u : Update} (hu : Plain u) (db : Db) : u.applyNow db = u.effect db := by
  cases u with
  | testAndSet | deleteMsgs => exact hu.elim
  | _ => rfl

theorem Plain.grows {u : Update} (hu : Plain u) (h : u.effect db = some db') : Grows t dest db db' := by
  have hother : (∀ l, .nextMsg l ∉ u.tables ∧ .msgs l ∉ u.tables) → Grows t dest db db' := fun h' =>
    .of_tables (u.effect_table h (h' t).1) (u.effect_table h (h' t).2)
  cases u with
  | testAndSet | deleteMsgs => exact hu.elim
  | log t' dest' msgs =>
    cases h
    exact grows_logMsgs t dest t' dest' db msgs
  | set table | delete table =>
    refine hother fun l => ?_
    simp only [Update.tables, mem_singleton]
    exact ⟨(hu l).1.symm, (hu l).2.symm⟩
  | plusEq counter => exact hother fun l => by cases counter <;> simp [Update.tables, Counter.table]
  | _ => exact hother fun l => by simp [Update.tables]

theorem grows_of_plain {us : List Update} (hus : ∀ u ∈ us, Plain u)
    (h : us.foldlM Update.effect db = some db') : Grows t dest db db' :=
  foldlM_preserves (P := fun s => Grows t dest db s)
    (fun u hu _ _ hs hstep => hs.trans ((hus u hu).grows hstep)) (.refl db) h

theorem foldlM_applyNow {us : List Update} (hus : ∀ u ∈ us, Plain u) (db : Db) :
    us.foldlM Update.applyNow db = us.foldlM Update.effect db := by
  induction us generalizing db with
  | nil => rfl
  | cons u us ih =>
    rw [foldlM_cons, foldlM_cons, (hus u mem_cons_self).applyNow]
    exact congrArg _ (funext fun mid => ih (fun v hv => hus v (mem_cons_of_mem u hv)) mid)

end Log

section Delivered

variable {db db' : Db} {t : MsgLog} {dest : t.Dest} {us : List Update} {osdId : OsdId}

theorem plain_workUpdates (items : List Work) : ∀ u ∈ workUpdates items, Plain u := by
  simp [workUpdates, Plain]

theorem plain_cleanupUpdates (nsmHostId : Bytes) (namespaceId : NamespaceId)
    (osds : List (OsdId × LinkState)) : ∀ u ∈ cleanupUpdates nsmHostId namespaceId osds, Plain u := by
  refine forall_mem_append.mpr ⟨plain_workUpdates _, fun u hu => ?_⟩
  obtain ⟨us, hus, hu⟩ := mem_flatten.mp hu
  obtain ⟨e, _, rfl⟩ := mem_map.mp (mem_reverse.mp hus)
  refine forall_mem_append.mpr ⟨?_, plain_workUpdates _⟩ u hu
  simp [Plain]

theorem plain_nsmDelivery {msg : NsmMessage} (h : NsmDelivery db msg us) : ∀ u ∈ us, Plain u := by
  cases h with
  | deleted namespaceId name info =>
    simp only [forall_mem_append]
    exact ⟨⟨plain_cleanupUpdates _ _ _, by simp [Plain]⟩, by simp [Plain]⟩
  | _ => simp [updateNamespaceInfo, updateNamespaceLink, workUpdates, Plain]

theorem plain_osdDelivery {msg : OsdMessage} (h : OsdDelivery db osdId msg us) : ∀ u ∈ us, Plain u := by
  cases h <;> simp [updateNamespaceLink, workUpdates, Plain]

theorem plain_delivered {msg : t.Msg} (h : updsForDeliveredMsg db t dest msg = .ok us) :
    ∀ u ∈ us, Plain u := by
  cases t with
  | nsmHost => exact plain_nsmDelivery (updsForNsmMsg_eq_ok h)
  | osd => exact plain_osdDelivery (updsForOsdMsg_eq_ok h)

/-- What the delivery of a message to a nsm host asserts or reads without a check. -/
def NsmDeliverable (db : Db) : NsmMessage → Prop
  | .recoverNamespace _ namespaceId => (getNamespaceById db namespaceId).isSome ∧
      ∀ e ∈ getNamespaceOsds db namespaceId, ∃ info, getOsdById db e.1 = .ok (some info)
  | .namespaceMsg namespaceId (.unlinkOsd osdId) =>
    db.get .namespaceOsds (namespaceId, osdId) = some .decommissioning
  | _ => True

/-- What the delivery of a message to an osd asserts or reads without a check. -/
def OsdDeliverable (db : Db) (osdId : OsdId) : OsdMessage → Prop
  | .addNamespace _ namespaceId => ∃ longId claimInfo osdInfo,
      db.get .osdLongId osdId = some longId ∧ db.get .osdInfo longId = some (claimInfo, osdInfo) ∧
        (osdInfo.decommissioned = true ∨ getNamespaceById db namespaceId = none ∨
          db.get .namespaceOsds (namespaceId, osdId) = some .adding)

def Deliverable (db : Db) : (t : MsgLog) → t.Dest → t.Msg → Prop
  | .nsmHost, _, msg => NsmDeliverable db msg
  | .osd, osdId, msg => OsdDeliverable db osdId msg

def Accepted (db : Db) (us : List Update) : Prop := ∃ db', applyAll db us = some db'

section Accepted

variable {table : Table} {key : table.Key} {value : Option table.Val}

@[simp] theorem accepted_nil : Accepted db [] := ⟨db, applyAll_nil.mpr rfl⟩

@[simp] theorem accepted_assert :
    Accepted db (.assert table key value :: us) ↔ db.get table key = value ∧ Accepted db us := by
  simp [Accepted]

@[simp] theorem accepted_set :
    Accepted db (.set table key value :: us) ↔ Accepted (db.put table key value) us := by
  simp [Accepted]

@[simp] theorem accepted_delete :
    Accepted db (.delete table key :: us) ↔
      (db.get table key).isSome ∧ Accepted (db.put table key none) us := by
  simp [Accepted]

@[simp] theorem accepted_log {l : MsgLog} {dest' : l.Dest} {msgs : List l.Msg} :
    Accepted db (.log l dest' msgs :: us) ↔ Accepted (logMsgs db l dest' msgs) us := by
  simp [Accepted]

theorem accepted_append {vs : List Update} :
    Accepted db (us ++ vs) ↔ ∃ mid, applyAll db us = some mid ∧ Accepted mid vs := by
  simp only [Accepted, applyAll_append]
  tauto

end Accepted

/-- The updates are applied whatever the database holds. -/
def Always (us : List Update) : Prop := ∀ db, Accepted db us

theorem Always.append {us vs : List Update} (hus : Always us) (hvs : Always vs) : Always (us ++ vs) := by
  intro db
  obtain ⟨mid, hmid⟩ := hus db
  exact accepted_append.mpr ⟨mid, hmid, hvs mid⟩

theorem always_flatten {l : List (List Update)} (h : ∀ us ∈ l, Always us) : Always l.flatten := by
  induction l with
  | nil => exact fun db => accepted_nil
  | cons us l ih =>
    exact (h us mem_cons_self).append (ih fun vs hvs => h vs (mem_cons_of_mem us hvs))

theorem always_workUpdates {work : Work} (h : work.job = none) : Always (workUpdates [work]) := by
  intro db
  obtain ⟨mid, hmid⟩ : ∃ mid, logWork db [work] [work.job] = some mid := by
    simp [logWork, logItem, h]
  exact ⟨_, applyAll_cons.mpr ⟨mid, hmid, applyAll_plusEq_cons.mpr (applyAll_nil.mpr rfl)⟩⟩

theorem always_cleanupUpdates (nsmHostId : Bytes) (namespaceId : NamespaceId)
    (osds : List (OsdId × LinkState)) : Always (cleanupUpdates nsmHostId namespaceId osds) := by
  refine (always_workUpdates rfl).append (always_flatten fun us hus => ?_)
  obtain ⟨e, _, rfl⟩ := mem_map.mp (mem_reverse.mp hus)
  exact Always.append (fun db => by simp) (always_workUpdates rfl)

theorem accepted_deleted {cleared : Db} {namespaceId : NamespaceId} {name : Bytes} {info : Namespace}
    (osds : List (OsdId × LinkState)) (hname : cleared.get .namespaceName namespaceId = some name)
    (hinfo : cleared.get .namespaceInfo name = some info) :
    Accepted cleared (cleanupUpdates info.nsmHostId namespaceId osds ++
      [.assert .namespaceInfo name (some info), .delete .namespaceInfo name,
        .delete .namespaceName namespaceId] ++
      [.set .presetNamespaces (info.presetName, namespaceId) none]) := by
  obtain ⟨mid, hmid⟩ := always_cleanupUpdates info.nsmHostId namespaceId osds cleared
  have hwithin := cleanupUpdates_within info.nsmHostId namespaceId osds
  have heffects := effects_of_applyAll hmid
  have hname' : mid.get .namespaceName namespaceId = some name := by
    rw [hwithin.get heffects (by simp [workTables]), hname]
  have hinfo' : mid.get .namespaceInfo name = some info := by
    rw [hwithin.get heffects (by simp [workTables]), hinfo]
  rw [append_assoc]
  exact accepted_append.mpr ⟨mid, hmid, by simp [hname', hinfo']⟩

variable {cleared : Db}

theorem accepted_unlinked_iff (namespaceId : NamespaceId) (osdId : OsdId) :
    Accepted cleared (workUpdates [.waitUntilRepaired osdId namespaceId] ++
        updateNamespaceLink namespaceId osdId .decommissioning .repairing) ↔
      cleared.get .namespaceOsds (namespaceId, osdId) = some .decommissioning := by
  obtain ⟨mid, hmid⟩ : Accepted cleared (workUpdates [.waitUntilRepaired osdId namespaceId]) :=
    always_workUpdates rfl cleared
  have hlink : mid.get .namespaceOsds (namespaceId, osdId) =
      cleared.get .namespaceOsds (namespaceId, osdId) :=
    (workUpdates_within _).get (effects_of_applyAll hmid) (by simp [workTables]) _
  simp [accepted_append, hmid, updateNamespaceLink, hlink]

theorem updsForNsmMsg_deleted (db : Db) (namespaceId : NamespaceId) :
    ∃ us, updsForNsmMsg db (.deleteNamespace namespaceId) = .ok us := by
  cases hinfo : getNamespaceById db namespaceId with
  | none => exact ⟨[], by simp [updsForNsmMsg, hinfo]⟩
  | some found =>
    obtain ⟨cleanup, hcleanup⟩ : ∃ cleanup, ((getNamespaceOsds db namespaceId).map Prod.fst).mapM
        (cleanupOsd db namespaceId) = .ok cleanup := mapM_of_exists fun osdId _ => ⟨_, rfl⟩
    simp only [updsForNsmMsg, hinfo, hcleanup]
    exact ⟨_, rfl⟩

theorem updsForNsmMsg_recovered (db : Db) (name : Bytes) (namespaceId : NamespaceId) :
    (∃ us, updsForNsmMsg db (.recoverNamespace name namespaceId) = .ok us) ↔
      NsmDeliverable db (.recoverNamespace name namespaceId) := by
  constructor
  · rintro ⟨us, hus⟩
    simp only [updsForNsmMsg, bind_eq_ok] at hus
    obtain ⟨info, hinfo, msgs, hmsgs, _⟩ := hus
    refine ⟨Option.isSome_iff_exists.mpr ⟨info, getSome_eq_ok.mp hinfo⟩, fun e he => ?_⟩
    obtain ⟨msg, _, hmsg⟩ := (mapM_mem hmsgs).2 e he
    simp only [bind_eq_ok] at hmsg
    obtain ⟨found, hfound, osdInfo, hosd, _⟩ := hmsg
    exact ⟨osdInfo, hfound.trans (congrArg _ (getSome_eq_ok.mp hosd))⟩
  · rintro ⟨hinfo, hosds⟩
    obtain ⟨info, hinfo⟩ := Option.isSome_iff_exists.mp hinfo
    simp only [updsForNsmMsg, hinfo, getSome, ok_bind]
    refine (mapM_of_exists fun e he => ?_).elim fun msgs hmsgs =>
      ⟨_, bind_eq_ok.mpr ⟨msgs, hmsgs, rfl⟩⟩
    obtain ⟨osdInfo, hosd⟩ := hosds e he
    rw [hosd]
    exact ⟨_, rfl⟩

section

variable (hsame : ∀ table, (∀ l, table ≠ .msgs l) → cleared.table table = db.table table)
include hsame

theorem accepted_nsm_iff {msg : NsmMessage} :
    (∃ us, updsForNsmMsg db msg = .ok us ∧ Accepted cleared us) ↔ NsmDeliverable db msg := by
  have hget : ∀ (table : Table) (key : table.Key), (∀ l, table ≠ .msgs l) →
      cleared.get table key = db.get table key := fun table key h => Tables.get_congr (hsame table h) key
  cases msg with
  | createNamespace name namespaceId =>
    refine iff_of_true ?_ trivial
    cases hinfo : db.get .namespaceInfo name with
    | none => exact ⟨[], by simp [updsForNsmMsg, hinfo]⟩
    | some info =>
      exact ⟨_, by simp [updsForNsmMsg, hinfo]; rfl, by simp [updateNamespaceInfo, hget, hinfo]⟩
  | deleteNamespace namespaceId =>
    refine iff_of_true ?_ trivial
    obtain ⟨us, hus⟩ := updsForNsmMsg_deleted db namespaceId
    refine ⟨us, hus, ?_⟩
    cases updsForNsmMsg_eq_ok hus with
    | none => exact accepted_nil
    | deleted _ name info stored =>
      obtain ⟨hname, hinfo⟩ := getNamespaceById_eq_some.mp stored
      exact accepted_deleted _ ((hget _ _ (by simp)).trans hname) ((hget _ _ (by simp)).trans hinfo)
  | recoverNamespace name namespaceId =>
    rw [← updsForNsmMsg_recovered]
    refine exists_congr fun us => and_iff_left_of_imp fun hus => ?_
    cases updsForNsmMsg_eq_ok hus <;> simp
  | namespaceMsg namespaceId msg =>
    cases msg with
    | linkOsd osdId osdInfo => exact iff_of_true ⟨[], rfl, accepted_nil⟩ trivial
    | unlinkOsd osdId =>
      have hiff := @accepted_unlinked_iff cleared namespaceId osdId
      rw [hget _ _ (by simp)] at hiff
      constructor
      · rintro ⟨us, hus, haccepted⟩
        cases hus
        exact hiff.mp haccepted
      · exact fun h => ⟨_, rfl, hiff.mpr h⟩

theorem accepted_added_iff {name' longId : Bytes} {namespaceId : NamespaceId}
    {claimInfo : ClaimInfo} {osdInfo : OsdInfo} (hlong : db.get .osdLongId osdId = some longId)
    (hinfo : db.get .osdInfo longId = some (claimInfo, osdInfo)) :
    (∃ us, updsForOsdMsg db osdId (.addNamespace name' namespaceId) = .ok us ∧ Accepted cleared us) ↔
      osdInfo.decommissioned = true ∨ getNamespaceById db namespaceId = none ∨
        db.get .namespaceOsds (namespaceId, osdId) = some .adding := by
  have hget : ∀ (table : Table) (key : table.Key), (∀ l, table ≠ .msgs l) →
      cleared.get table key = db.get table key := fun table key h => Tables.get_congr (hsame table h) key
  simp only [updsForOsdMsg, getExn, hlong, hinfo, ok_bind]
  split
  · rename_i hdecommissioned
    exact iff_of_true ⟨_, rfl, Always.append (fun db => by simp) (always_workUpdates rfl) _⟩
      (.inl hdecommissioned)
  · rename_i hused
    split
    · rename_i hnone
      exact iff_of_true ⟨[], rfl, accepted_nil⟩ (.inr (.inl hnone))
    · rename_i name info hsome
      have hlink : Accepted cleared ([.assert .osdInfo longId (some (claimInfo, osdInfo)),
            .set .osdNamespaces (osdId, namespaceId) (some ())] ++
          updateNamespaceLink namespaceId osdId .adding .active ++
          addMsg .nsmHost info.nsmHostId (.namespaceMsg namespaceId (.linkOsd osdId osdInfo))) ↔
          db.get .namespaceOsds (namespaceId, osdId) = some .adding := by
        simp [updateNamespaceLink, addMsg, addMsgs, hget, hinfo]
      constructor
      · rintro ⟨us, hus, haccepted⟩
        cases hus
        exact .inr (.inr (hlink.mp haccepted))
      · rintro (hdecommissioned | hnone | hadding)
        · exact absurd hdecommissioned hused
        · cases hsome.symm.trans hnone
        · exact ⟨_, rfl, hlink.mpr hadding⟩

theorem accepted_osd_iff {msg : OsdMessage} :
    (∃ us, updsForOsdMsg db osdId msg = .ok us ∧ Accepted cleared us) ↔ OsdDeliverable db osdId msg := by
  obtain ⟨name', namespaceId⟩ := msg
  constructor
  · intro h
    have ⟨us, hus, _⟩ := h
    simp only [updsForOsdMsg, bind_eq_ok] at hus
    obtain ⟨longId, hlong, ⟨claimInfo, osdInfo⟩, hinfo, -⟩ := hus
    have hlong := getExn_eq_ok.mp hlong
    have hinfo := getExn_eq_ok.mp hinfo
    exact ⟨longId, claimInfo, osdInfo, hlong, hinfo, (accepted_added_iff hsame hlong hinfo).mp h⟩
  · rintro ⟨longId, claimInfo, osdInfo, hlong, hinfo, hstate⟩
    exact (accepted_added_iff hsame hlong hinfo).mpr hstate

theorem accepted_iff {msg : t.Msg} :
    (∃ us, updsForDeliveredMsg db t dest msg = .ok us ∧ Accepted cleared us) ↔
      Deliverable db t dest msg := by
  cases t with
  | nsmHost => exact accepted_nsm_iff hsame
  | osd => exact accepted_osd_iff hsame

end

end Delivered

section Turns

variable {db db' : Db} {t : MsgLog} {dest : t.Dest} {l : List (MsgId × t.Msg)} {e : MsgId × t.Msg}

theorem pendingMsgs_sorted (db : Db) (t : MsgLog) (dest : t.Dest) :
    (pendingMsgs db t dest).Pairwise fun a b => (a.1 : Nat) < b.1 := by
  rw [pendingMsgs, pairwise_filterMap]
  refine (db.rows_sorted (.msgs t)).imp ?_
  rintro ⟨⟨d, i⟩, v⟩ ⟨⟨d', j⟩, w⟩ hlt a ha b hb
  simp only [Option.ite_none_right_eq_some, Option.some.injEq] at ha hb
  obtain ⟨rfl, rfl⟩ := ha
  obtain ⟨rfl, rfl⟩ := hb
  have hthen : (compare d' d').then (compare i j) = .lt := hlt
  rw [Std.ReflOrd.compare_self, Ordering.eq_then] at hthen
  exact Nat.compare_eq_lt.mp hthen

theorem head_pendingMsgs {id : Nat} {msg : t.Msg} (hmsg : db.get (.msgs t) (dest, id) = some msg)
    (hlowest : ∀ id' : Nat, (db.get (.msgs t) (dest, id')).isSome → id ≤ id') :
    (pendingMsgs db t dest).head? = some (id, msg) := by
  have hmem := mem_pendingMsgs.mpr hmsg
  have hsorted := pendingMsgs_sorted db t dest
  cases hpending : pendingMsgs db t dest with
  | nil =>
    rw [hpending] at hmem
    cases hmem
  | cons e rest =>
    rw [hpending] at hmem hsorted
    have he : db.get (.msgs t) (dest, e.1) = some e.2 :=
      mem_pendingMsgs.mp (hpending ▸ mem_cons_self)
    have hle := hlowest e.1 (by rw [he]; rfl)
    rcases mem_cons.mp hmem with rfl | hrest
    · rfl
    · have hlt := (pairwise_cons.mp hsorted).1 _ hrest
      exact absurd hle (Nat.not_le.mpr hlt)

variable {id : Nat} {msg : t.Msg}

/-- `MarkMsgDelivered` of the first message. -/
theorem exec_markMsgDelivered (hhead : (pendingMsgs db t dest).head? = some (id, msg)) :
    exec db (.markMsgDelivered t dest id) = some db' ↔ ∃ us, updsForDeliveredMsg db t dest msg = .ok us ∧
      applyAll (db.put (.msgs t) (dest, id) none) us = some db' := by
  have hmsg := mem_pendingMsgs.mp (mem_of_mem_head? hhead)
  simp only [exec, handleUpdate, markMsgDelivered, hhead, ne_eq, not_true_eq_false, if_false]
  cases hupds : updsForDeliveredMsg db t dest msg with
  | error e => simp [bind, Except.bind, Functor.map, Except.map]
  | ok us => simp [bind, Except.bind, pure, Except.pure, Functor.map, Except.map, returnUpds, Plan.apply,
      hmsg]

theorem exec_markMsgDelivered_other (hhead : (pendingMsgs db t dest).head? = some (id, msg)) {id' : Nat}
    (h : id ≠ id') : exec db (.markMsgDelivered t dest id') = none := by
  simp [exec, handleUpdate, markMsgDelivered, hhead, h, Functor.map, Except.map]

theorem cleared_table (db : Db) (t : MsgLog) (dest : t.Dest) (id : Nat) {table : Table}
    (h : ∀ l, table ≠ .msgs l) : (db.put (.msgs t) (dest, id) none).table table = db.table table :=
  Tables.put_table _ _ (h t)

theorem exec_head (hhead : (pendingMsgs db t dest).head? = some (id, msg)) :
    (Deliverable db t dest msg ∧ ∃ db', exec db (.markMsgDelivered t dest id) = some db' ∧
        deliverOne t dest db (id, msg) = some db') ∨
      (¬ Deliverable db t dest msg ∧ exec db (.markMsgDelivered t dest id) = none) := by
  have hiff := @accepted_iff db t dest _ (fun table h => cleared_table db t dest id h) msg
  by_cases hdeliverable : Deliverable db t dest msg
  · obtain ⟨us, hus, db', hdb'⟩ := hiff.mpr hdeliverable
    refine .inl ⟨hdeliverable, db', (exec_markMsgDelivered hhead).mpr ⟨us, hus, hdb'⟩, ?_⟩
    rw [deliverOne, hus]
    exact (foldlM_applyNow (plain_delivered hus) _).trans (effects_of_applyAll hdb')
  · refine .inr ⟨hdeliverable, Option.eq_none_iff_forall_ne_some.mpr fun db' hdb' => hdeliverable ?_⟩
    obtain ⟨us, hus, happly⟩ := (exec_markMsgDelivered hhead).mp hdb'
    exact hiff.mp ⟨us, hus, db', happly⟩

theorem deliverOne_get (h : deliverOne t dest db e = some db') :
    nextMsgId db t dest ≤ nextMsgId db' t dest ∧ (LogOk db t dest → LogOk db' t dest) ∧
      ∀ id : Nat, id < nextMsgId db t dest → db'.get (.msgs t) (dest, id) =
        if id = e.1 then none else db.get (.msgs t) (dest, id) := by
  unfold deliverOne at h
  split at h
  · cases h
  · rename_i us hus
    rw [foldlM_applyNow (plain_delivered hus)] at h
    have hgrows : Grows t dest (db.put (.msgs t) (dest, e.1) none) db' :=
      grows_of_plain (plain_delivered hus) h
    have hnext : nextMsgId (db.put (.msgs t) (dest, e.1) none) t dest = nextMsgId db t dest := by
      rw [nextMsgId, nextMsgId, Tables.get_put_table _ _ _ (by simp)]
    have hput : ∀ id : Nat, (db.put (.msgs t) (dest, e.1) none).get (.msgs t) (dest, id) =
        if id = e.1 then none else db.get (.msgs t) (dest, id) := by
      intro id
      split
      · rename_i hid
        rw [hid, Tables.get_put_self]
      · rename_i hid
        exact Tables.get_put_of_ne _ fun heq => hid (congrArg Prod.snd heq).symm
    refine ⟨hnext ▸ hgrows.next, fun hlog => hgrows.logOk fun id hid => ?_, fun id hid => ?_⟩
    · rw [hput] at hid
      rw [hnext]
      refine hlog id ?_
      split at hid
      · cases hid
      · exact hid
    · rw [hgrows.kept id (hnext.symm ▸ hid), hput]

theorem deliver_get (h : l.foldlM (deliverOne t dest) db = some db') :
    nextMsgId db t dest ≤ nextMsgId db' t dest ∧
      ∀ id : Nat, id < nextMsgId db t dest → db'.get (.msgs t) (dest, id) =
        if id ∈ l.map Prod.fst then none else db.get (.msgs t) (dest, id) := by
  induction l generalizing db with
  | nil =>
    cases h
    exact ⟨Nat.le_refl _, fun id _ => by simp⟩
  | cons e l ih =>
    obtain ⟨mid, hmid, hrest⟩ := foldlM_cons_some.mp h
    obtain ⟨hnext, -, hget⟩ := deliverOne_get hmid
    obtain ⟨hnext', hget'⟩ := ih hrest
    refine ⟨hnext.trans hnext', fun id hid => ?_⟩
    rw [hget' id (hid.trans_le hnext), hget id hid]
    by_cases hl : id ∈ l.map Prod.fst <;> by_cases he : id = e.1 <;> simp [hl, he]

/-- Each message can be delivered when its turn comes. -/
def DeliverableInTurn (t : MsgLog) (dest : t.Dest) : Db → List (MsgId × t.Msg) → Prop
  | _, [] => True
  | db, e :: rest => Deliverable db t dest e.2 ∧
      ∀ db', deliverOne t dest db e = some db' → DeliverableInTurn t dest db' rest

theorem deliverableInTurn_of_forall (h : ∀ e ∈ l, ∀ db, Deliverable db t dest e.2) :
    DeliverableInTurn t dest db l := by
  induction l generalizing db with
  | nil => trivial
  | cons e l ih =>
    exact ⟨h e mem_cons_self db, fun db' _ => ih fun e' he' => h e' (mem_cons_of_mem e he')⟩

/-- `MarkMsgDelivered` of one message after the other. -/
def deliveredOneByOne (db : Db) (t : MsgLog) (dest : t.Dest) (ids : List MsgId) : Db :=
  run exec db (ids.map (.markMsgDelivered t dest))

/-- The log starts with these messages. -/
structure Starts (db : Db) (t : MsgLog) (dest : t.Dest) (l : List (MsgId × t.Msg)) : Prop where
  sorted : l.Pairwise fun a b => (a.1 : Nat) < b.1
  stored : ∀ e ∈ l, db.get (.msgs t) (dest, e.1) = some e.2
  first : ∀ id : Nat, (db.get (.msgs t) (dest, id)).isSome → id ∈ l.map Prod.fst ∨ ∀ e ∈ l, (e.1 : Nat) < id

theorem Starts.head (h : Starts db t dest (e :: l)) : (pendingMsgs db t dest).head? = some e := by
  refine head_pendingMsgs (h.stored e mem_cons_self) fun id hid => ?_
  rcases h.first id hid with hmem | habove
  · rcases mem_cons.mp hmem with rfl | hmem
    · exact Nat.le_refl _
    · obtain ⟨e', he', rfl⟩ := mem_map.mp hmem
      exact Nat.le_of_lt ((pairwise_cons.mp h.sorted).1 e' he')
  · exact Nat.le_of_lt (habove e mem_cons_self)

theorem Starts.tail (h : Starts db t dest (e :: l)) (hlog : LogOk db t dest)
    (hone : deliverOne t dest db e = some db') : Starts db' t dest l := by
  obtain ⟨hnext, -, hget⟩ := deliverOne_get hone
  obtain ⟨hlowest, hsorted⟩ := pairwise_cons.mp h.sorted
  have hbelow : ∀ e' ∈ l, (e'.1 : Nat) < nextMsgId db t dest := fun e' he' =>
    hlog e'.1 (by rw [h.stored e' (mem_cons_of_mem e he')]; rfl)
  refine ⟨hsorted, fun e' he' => ?_, fun id hid => ?_⟩
  · have hne : e'.1 ≠ e.1 := Nat.ne_of_gt (hlowest e' he')
    rw [hget e'.1 (hbelow e' he'), if_neg hne, h.stored e' (mem_cons_of_mem e he')]
  · rcases Nat.lt_or_ge id (nextMsgId db t dest) with hlt | hge
    · rw [hget id hlt] at hid
      split at hid
      · cases hid
      · rename_i hne
        rcases h.first id hid with hmem | habove
        · exact .inl ((mem_cons.mp hmem).resolve_left hne)
        · exact .inr fun e' he' => habove e' (mem_cons_of_mem e he')
    · exact .inr fun e' he' => (hbelow e' he').trans_le hge

theorem deliveredOneByOne_refused (hhead : (pendingMsgs db t dest).head? = some (id, msg))
    {ids : List MsgId} (h : id ∉ ids) : deliveredOneByOne db t dest ids = db := by
  induction ids with
  | nil => rfl
  | cons id' ids ih =>
    obtain ⟨hne, hrest⟩ := ne_and_not_mem_of_not_mem_cons h
    have hrefused := exec_markMsgDelivered_other hhead hne
    rw [deliveredOneByOne, map_cons, run_cons, next, hrefused]
    exact ih hrest

theorem turns (hlog : LogOk db t dest) (h : Starts db t dest l) :
    (DeliverableInTurn t dest db l ∧
        l.foldlM (deliverOne t dest) db = some (deliveredOneByOne db t dest (l.map Prod.fst))) ∨
      (¬ DeliverableInTurn t dest db l ∧
        ∃ e ∈ l, ((deliveredOneByOne db t dest (l.map Prod.fst)).get (.msgs t) (dest, e.1)).isSome) := by
  induction l generalizing db with
  | nil => exact .inl ⟨trivial, rfl⟩
  | cons e l ih =>
    rcases exec_head h.head with ⟨hdeliverable, db', hexec, hone⟩ | ⟨hdeliverable, hexec⟩
    · have hstep : deliveredOneByOne db t dest ((e :: l).map Prod.fst) =
          deliveredOneByOne db' t dest (l.map Prod.fst) := by
        rw [deliveredOneByOne, map_cons, map_cons, run_cons, next, hexec]
        rfl
      rw [hstep]
      rcases ih ((deliverOne_get hone).2.1 hlog) (h.tail hlog hone) with ⟨hturn, hrun⟩ | ⟨hturn, e', he', hkept⟩
      · refine .inl ⟨⟨hdeliverable, fun db'' hone' => ?_⟩, foldlM_cons_some.mpr ⟨db', hone, hrun⟩⟩
        cases hone.symm.trans hone'
        exact hturn
      · exact .inr ⟨fun hall => hturn (hall.2 db' hone), e', mem_cons_of_mem e he', hkept⟩
    · -- the log keeps its first message, so that every later call has the wrong id
      have hnot : e.1 ∉ l.map Prod.fst := by
        intro hmem
        obtain ⟨e', he', heq⟩ := mem_map.mp hmem
        exact absurd heq (Nat.ne_of_gt ((pairwise_cons.mp h.sorted).1 e' he'))
      have hstep : deliveredOneByOne db t dest ((e :: l).map Prod.fst) = db := by
        have hrest := deliveredOneByOne_refused h.head hnot
        rwa [deliveredOneByOne, map_cons, map_cons, run_cons, next, hexec]
      refine .inr ⟨fun hall => hdeliverable hall.1, e, mem_cons_self, ?_⟩
      rw [hstep, h.stored e mem_cons_self]
      rfl

end Turns

section Marks

variable {db db' : Db} {t : MsgLog} {dest : t.Dest} {msgId : Int64} {id : Nat} {msg : NsmMessage}

def Pending (db : Db) (t : MsgLog) (dest : t.Dest) (id : Nat) : Prop :=
  (db.get (.msgs t) (dest, id)).isSome

/-- The message was in the log and is not any more. -/
def Removed (t : MsgLog) (dest : t.Dest) (db db' : Db) (id : Nat) : Prop :=
  Pending db t dest id ∧ ¬ Pending db' t dest id

def upTo (db : Db) (t : MsgLog) (dest : t.Dest) (msgId : Int64) : List (MsgId × t.Msg) :=
  (pendingMsgs db t dest).filter fun e => (e.1 : Int) ≤ msgId.toInt

theorem mem_ids_filter {p : MsgId × t.Msg → Bool} {q : Nat → Prop} (h : ∀ e, p e = true ↔ q e.1) :
    id ∈ ((pendingMsgs db t dest).filter p).map Prod.fst ↔ Pending db t dest id ∧ q id := by
  rw [mem_map, Pending, Option.isSome_iff_exists]
  constructor
  · rintro ⟨⟨id', msg⟩, he, rfl⟩
    obtain ⟨hmem, hp⟩ := mem_filter.mp he
    exact ⟨⟨msg, mem_pendingMsgs.mp hmem⟩, (h _).mp hp⟩
  · rintro ⟨⟨msg, hmsg⟩, hq⟩
    exact ⟨(id, msg), mem_filter.mpr ⟨mem_pendingMsgs.mpr hmsg, (h _).mpr hq⟩, rfl⟩

theorem mem_ids_upTo : id ∈ (upTo db t dest msgId).map Prod.fst ↔
    Pending db t dest id ∧ (id : Int) ≤ msgId.toInt :=
  mem_ids_filter (q := fun id : Nat => (id : Int) ≤ msgId.toInt) fun _ => decide_eq_true_iff

theorem starts_upTo (db : Db) (t : MsgLog) (dest : t.Dest) (msgId : Int64) :
    Starts db t dest (upTo db t dest msgId) := by
  refine ⟨(pendingMsgs_sorted db t dest).filter _, fun e he => ?_, fun id hid => ?_⟩
  · exact mem_pendingMsgs.mp (mem_filter.mp he).1
  · by_cases hle : (id : Int) ≤ msgId.toInt
    · exact .inl (mem_ids_upTo.mpr ⟨hid, hle⟩)
    · refine .inr fun e he => ?_
      have hup : (e.1 : Int) ≤ msgId.toInt := by simpa using (mem_filter.mp he).2
      exact Int.ofNat_lt.mp (lt_of_le_of_lt hup (not_le.mp hle))

theorem removed_iff {p : MsgId × t.Msg → Bool} {q : Nat → Prop} (hp : ∀ e, p e = true ↔ q e.1)
    (hlog : LogOk db t dest)
    (h : ((pendingMsgs db t dest).filter p).foldlM (deliverOne t dest) db = some db') (id : Nat) :
    Removed t dest db db' id ↔ Pending db t dest id ∧ q id := by
  refine and_congr_right fun hpending => ?_
  rw [Pending, (deliver_get h).2 id (hlog id hpending)]
  split
  · rename_i hmem
    exact iff_of_true (by simp) ((mem_ids_filter hp).mp hmem).2
  · rename_i hmem
    refine iff_of_false (not_not.mpr hpending) fun hq => hmem ((mem_ids_filter hp).mpr ⟨hpending, hq⟩)

/-- `MarkMsgsDelivered` removes exactly the messages up to `msgId`, and `MarkMsgDelivered` of each of
them removes the same. -/
def MarksUpTo (db : Db) (t : MsgLog) (dest : t.Dest) (msgId : Int64) : Prop :=
  ∃ db', markMsgs db t dest msgId = some db' ∧
    (∀ id, Removed t dest db db' id ↔ Pending db t dest id ∧ (id : Int) ≤ msgId.toInt) ∧
    ∀ id, Removed t dest db db' id ↔
      Removed t dest db (deliveredOneByOne db t dest ((upTo db t dest msgId).map Prod.fst)) id

/-- The bytes of the bound and of the key compare as the ids do. -/
def Aligned (msgId : Int64) (id : Nat) : Prop :=
  if 0 ≤ msgId.toInt then (id : Int) ≤ msgId.toInt → id < 2 ^ 31 - 1
  else (id < 2 ^ 31 - 1 → msgId.toInt % 2 ^ 32 < id) ∧ (2 ^ 31 - 1 ≤ id → msgId.toInt % 2 ^ 32 < 2 ^ 31)

theorem aligned_iff (msgId : Int64) (id : Nat) :
    Aligned msgId id ↔ (InRange msgId id ↔ (id : Int) ≤ msgId.toInt) := by
  rw [inRange_iff, Aligned, wordOf]
  split <;> split <;> omega

theorem MarksUpTo.aligned (hlog : LogOk db t dest) (h : MarksUpTo db t dest msgId)
    (hpending : Pending db t dest id) : Aligned msgId id := by
  obtain ⟨db', hbatch, hremoved, -⟩ := h
  have hselected := removed_iff (q := InRange msgId) (fun _ => decide_eq_true_iff) hlog hbatch id
  rw [hremoved id] at hselected
  exact (aligned_iff msgId id).mpr ((and_congr_right_iff.mp hselected) hpending).symm

theorem MarksUpTo.deliverable (hlog : LogOk db t dest) (h : MarksUpTo db t dest msgId) :
    DeliverableInTurn t dest db (upTo db t dest msgId) := by
  obtain ⟨db', -, hremoved, hsame⟩ := h
  rcases turns hlog (starts_upTo db t dest msgId) with ⟨hturn, _⟩ | ⟨_, e, he, hkept⟩
  · exact hturn
  · have hup := mem_ids_upTo.mp (mem_map_of_mem he)
    exact absurd hkept ((hsame e.1).mp ((hremoved e.1).mpr hup)).2

/-- The batch does what its messages do in turn exactly when the ids compare as their bytes do and each
message can be delivered at its turn. -/
theorem marks_up_to_iff (hlog : LogOk db t dest) :
    MarksUpTo db t dest msgId ↔ (∀ id, Pending db t dest id → Aligned msgId id) ∧
      DeliverableInTurn t dest db (upTo db t dest msgId) := by
  constructor
  · exact fun h => ⟨fun id => h.aligned hlog, h.deliverable hlog⟩
  · rintro ⟨haligned, hturn⟩
    have hselected : (pendingMsgs db t dest).filter (fun e => InRange msgId e.1) =
        upTo db t dest msgId := by
      refine filter_congr fun e he => ?_
      have hpending : Pending db t dest e.1 := by
        rw [Pending, mem_pendingMsgs.mp he]
        rfl
      exact decide_eq_decide.mpr ((aligned_iff msgId e.1).mp (haligned e.1 hpending))
    rcases turns hlog (starts_upTo db t dest msgId) with ⟨_, hrun⟩ | ⟨hnot, _⟩
    · have hbatch : markMsgs db t dest msgId =
          some (deliveredOneByOne db t dest ((upTo db t dest msgId).map Prod.fst)) := by
        rw [markMsgs, hselected]
        exact hrun
      exact ⟨_, hbatch, removed_iff (fun _ => decide_eq_true_iff) hlog hrun, fun id => Iff.rfl⟩
    · exact absurd hturn hnot

/-- A log with one message, to the nsm host `h`. -/
def oneMsg (id : Nat) (msg : NsmMessage) : Db :=
  ((Tables.empty : Db).put (.nextMsg .nsmHost) [0x68] (some (id + 1))).put (.msgs .nsmHost) ([0x68], id)
    (some msg)

theorem get_oneMsg (id id' : Nat) (msg : NsmMessage) :
    (oneMsg id msg).get (.msgs .nsmHost) ([0x68], id') = if id' = id then some msg else none := by
  split
  · rename_i h
    rw [h]
    exact Tables.get_put_self ..
  · rename_i h
    rw [oneMsg, Tables.get_put_of_ne _ fun heq => h (congrArg Prod.snd heq).symm,
      Tables.get_put_table _ _ _ (by simp)]
    exact Std.ExtTreeMap.getElem?_empty

theorem pending_oneMsg {id id' : Nat} : Pending (oneMsg id msg) .nsmHost [0x68] id' ↔ id' = id := by
  rw [Pending, get_oneMsg]
  split <;> simp_all

theorem logOk_oneMsg (id : Nat) (msg : NsmMessage) : LogOk (oneMsg id msg) .nsmHost [0x68] := by
  intro id' hid'
  have hnext : nextMsgId (oneMsg id msg) .nsmHost [0x68] = id + 1 := by
    rw [nextMsgId, oneMsg, Tables.get_put_table _ _ _ (by simp), Tables.get_put_self]
    rfl
  rw [hnext, pending_oneMsg.mp hid']
  exact Nat.lt_succ_self id

theorem upTo_oneMsg {e : MsgId × NsmMessage} (he : e ∈ upTo (oneMsg id msg) .nsmHost [0x68] msgId) :
    e.2 = msg := by
  have hget := mem_pendingMsgs.mp (mem_filter.mp he).1
  rw [get_oneMsg] at hget
  split at hget
  · exact (Option.some.inj hget).symm
  · cases hget

theorem deliverable_oneMsg (hle : (id : Int) ≤ msgId.toInt)
    (h : DeliverableInTurn .nsmHost [0x68] (oneMsg id msg) (upTo (oneMsg id msg) .nsmHost [0x68] msgId)) :
    NsmDeliverable (oneMsg id msg) msg := by
  have hmem : id ∈ (upTo (oneMsg id msg) .nsmHost [0x68] msgId).map Prod.fst :=
    mem_ids_upTo.mpr ⟨pending_oneMsg.mpr rfl, hle⟩
  cases hup : upTo (oneMsg id msg) .nsmHost [0x68] msgId with
  | nil =>
    rw [hup] at hmem
    cases hmem
  | cons e rest =>
    have hmsg : e.2 = msg := upTo_oneMsg (hup ▸ mem_cons_self)
    rw [hup] at h
    exact hmsg ▸ h.1

/-- A message with the id 2^31 - 1 stays in the log, and a message whose assertion fails leaves the log
with the batch only. -/
theorem oneMsg_not_marked :
    (LogOk (oneMsg (2 ^ 31 - 1) (.createNamespace [] 0)) .nsmHost [0x68] ∧
      ¬ MarksUpTo (oneMsg (2 ^ 31 - 1) (.createNamespace [] 0)) .nsmHost [0x68] (2 ^ 31 - 1)) ∧
    LogOk (oneMsg 0 (.namespaceMsg 1 (.unlinkOsd 2))) .nsmHost [0x68] ∧
      ¬ MarksUpTo (oneMsg 0 (.namespaceMsg 1 (.unlinkOsd 2))) .nsmHost [0x68] 0 := by
  refine ⟨⟨logOk_oneMsg _ _, fun h => ?_⟩, logOk_oneMsg _ _, fun h => ?_⟩
  · have haligned := h.aligned (logOk_oneMsg _ _) (pending_oneMsg.mpr rfl)
    revert haligned
    simp only [Aligned]
    decide
  · have hlink := deliverable_oneMsg (by decide) (h.deliverable (logOk_oneMsg _ _))
    have hnone : (oneMsg 0 (.namespaceMsg 1 (.unlinkOsd 2))).get .namespaceOsds (1, 2) = none := by
      rw [oneMsg, Tables.get_put_table _ _ _ (by simp), Tables.get_put_table _ _ _ (by simp)]
      exact Std.ExtTreeMap.getElem?_empty
    exact nomatch hnone.symm.trans hlink

theorem marks_up_to_iff_oneMsg : LogOk (oneMsg 3 (.createNamespace [] 0)) .nsmHost [0x68] ∧
    MarksUpTo (oneMsg 3 (.createNamespace [] 0)) .nsmHost [0x68] 5 := by
  refine ⟨logOk_oneMsg _ _, (marks_up_to_iff (logOk_oneMsg _ _)).mpr ⟨fun id hid => ?_, ?_⟩⟩
  · rw [pending_oneMsg.mp hid, Aligned]
    decide
  · refine deliverableInTurn_of_forall fun e he db => ?_
    rw [upTo_oneMsg he]
    trivial

end Marks

end Alba.Albamgr
