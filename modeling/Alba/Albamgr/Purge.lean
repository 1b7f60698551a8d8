import Alba.Albamgr.Osds

/-! Purges of osds by several clients. An osd is deleted by the client that asks for the purge or by the
one that completes the decommissioning, whoever comes last; the purge is not lost as long as the latter
does not overlook the former. -/

namespace Alba.Albamgr

open ProofKit

/-- When the purge of the osd was asked for and it is not being decommissioned, it has no id. -/
def NotLost (db : Db) (o : OsdId) : Prop :=
  db.get .purging o = some () → db.get .decommissioning o = none → db.get .osdLongId o = none

def Request.IsPurge : Request → Prop
  | .purgeOsd _ | .decommissionOsd _ | .markWorkCompleted _ => True
  | _ => False

/-- A client that completes a decommissioning and has seen no purge is not overtaken by one. -/
def NotOvertaken (db : Db) (r : Request) (c : Computed) : Prop :=
  match r with
  | .markWorkCompleted id =>
    match c.snapshot.get .workItems id with
    | some (.waitUntilDecommissioned o) =>
      c.snapshot.get .purging o = none → db.get .purging o = none
    | _ => True
  | _ => True

instance (db : Db) (r : Request) (c : Computed) : Decidable (NotOvertaken db r c) := by
  unfold NotOvertaken
  split
  · split <;> infer_instance
  · infer_instance

/-- No osd has got an id. -/
def NoNewIds (db db' : Db) : Prop :=
  ∀ o, db'.get .osdLongId o = db.get .osdLongId o ∨ db'.get .osdLongId o = none

section Steps

variable {db db' : Db} {o : OsdId} {us : List Update} {snapshot : Db} {l : Bytes}

theorem NoNewIds.trans {db'' : Db} (h : NoNewIds db db') (h' : NoNewIds db' db'') : NoNewIds db db'' := by
  intro o
  rcases h' o with heq | hnone
  · rw [heq]
    exact h o
  · exact .inr hnone

theorem NoNewIds.keeps (h : NoNewIds db db') : (osdView db).Keeps (osdView db') := by
  intro o l hl
  rw [← hl]
  exact h o

theorem noNewIds_of_step {v₀ : OsdView} (h : OsdStep v₀ (osdView db) none (osdView db')) :
    NoNewIds db db' := by
  intro o
  change (osdView db').longId o = (osdView db).longId o ∨ (osdView db').longId o = none
  generalize osdView db' = v' at h
  cases h with
  | purge l o' =>
    by_cases ho : o = o'
    · subst ho
      exact .inr (Function.update_self ..)
    · exact .inl (Function.update_of_ne ho ..)
  | keep | register | claimOther | forget | bump => exact .inl rfl

theorem notLost_congr (h : NotLost db o) (hpurging : db'.get .purging o = db.get .purging o)
    (hdec : db'.get .decommissioning o = db.get .decommissioning o)
    (hlong : db'.get .osdLongId o = db.get .osdLongId o) : NotLost db' o := by
  unfold NotLost
  rw [hpurging, hdec, hlong]
  exact h

theorem Within.notLost {ts : List Table} (h : Within ts us) (hrun : applyAll db us = some db')
    (hts : ∀ t ∈ [Table.purging, .decommissioning, .osdLongId], t ∉ ts) (hdb : NotLost db o) :
    NotLost db' o :=
  notLost_congr hdb (h.get (effects_of_applyAll hrun) (hts .purging (by simp)) o)
    (h.get (effects_of_applyAll hrun) (hts .decommissioning (by simp)) o)
    (h.get (effects_of_applyAll hrun) (hts .osdLongId (by simp)) o)

theorem mem_decommissionUpdates {unlink : List (List Update)}
    (h : (listOsdNamespaces snapshot o).mapM (unlinkMsg snapshot o) = .ok unlink) {u : Update}
    (hu : u ∈ decommissionUpdates o (listOsdNamespaces snapshot o) unlink)
    (ht : .decommissioning ∈ u.tables) : u = .set .decommissioning o (some ()) := by
  simp only [decommissionUpdates, List.mem_append, List.mem_singleton] at hu
  rcases hu with ((hwork | hset) | hmsg) | hlink
  · exact absurd (workUpdates_within _ u hwork _ ht) (by simp [workTables])
  · exact hset
  · exact absurd (unlinkMsgs_within h u hmsg _ ht) (by simp [logTables])
  · exact absurd (foldl_updateNamespaceLink_within _ within_nil u hlink _ ht) (by simp)

theorem decommissionOsd_marks (h : decommissionOsd snapshot l = .ok us)
    (hrun : applyAll db us = some db') :
    db'.table .purging = db.table .purging ∧ db'.table .osdLongId = db.table .osdLongId ∧
      ∃ o info, snapshot.get .osdInfo l = some (.thisAlba o, info) ∧
        db'.get .decommissioning o = some () ∧
        ∀ o' ≠ o, db'.get .decommissioning o' = db.get .decommissioning o' := by
  have hwithin := decommissionOsd_within h
  have heffects := effects_of_applyAll hrun
  obtain ⟨o, info, unlink, hinfo, _, hunlink, rfl⟩ := decommissionOsd_eq_ok h
  refine ⟨hwithin.table heffects (by simp [Request.tables, workTables, logTables]),
    hwithin.table heffects (by simp [Request.tables, workTables, logTables]), o, info, hinfo, ?_⟩
  obtain ⟨mid, hmid, hlast⟩ := applyAll_append.mp hrun
  rw [applyAll_assert_cons, applyAll_set_cons, applyAll_nil] at hlast
  obtain ⟨_, rfl⟩ := hlast
  have hmid := effects_of_applyAll hmid
  simp only [ne_eq, reduceCtorEq, not_false_eq_true, Tables.get_put_table]
  constructor
  · refine effects_set hmid (by simp [decommissionUpdates]) fun u hu hw => ?_
    exact mem_decommissionUpdates hunlink hu (Update.table_of_writes hw)
  · intro o' ho
    refine effects_get (c := ⟨.decommissioning, o'⟩) hmid fun u hu hw => ?_
    rw [mem_decommissionUpdates hunlink hu (Update.table_of_writes hw)] at hw
    exact ho (by simpa [Update.Writes] using hw)

theorem notLost_decommissionOsd (h : decommissionOsd snapshot l = .ok us)
    (hrun : applyAll db us = some db')
    (hdb : NotLost db o ∨ ∃ info, snapshot.get .osdInfo l = some (.thisAlba o, info)) :
    NotLost db' o := by
  obtain ⟨hpurging, hlong, o', info', hinfo', hmarked, hother⟩ := decommissionOsd_marks h hrun
  by_cases ho : o = o'
  · subst ho
    intro _ hnone
    rw [hmarked] at hnone
    cases hnone
  · rcases hdb with hdb | ⟨info, hinfo⟩
    · exact notLost_congr hdb (Tables.get_congr hpurging o) (hother o ho) (Tables.get_congr hlong o)
    · rw [hinfo] at hinfo'
      cases hinfo'
      exact absurd rfl ho

theorem notLost_purgeUpdates {o' : OsdId} (hrun : applyAll db (purgeUpdates l o') = some db')
    (hdb : o ≠ o' → NotLost db o) : NotLost db' o := by
  simp only [purgeUpdates, applyAll_delete_cons, applyAll_deleteMsgs_cons, applyAll_nil] at hrun
  obtain ⟨_, _, rfl⟩ := hrun
  have hmsgs : applyAll ((db.put .osdInfo l none).put .osdLongId o' none) [.deleteMsgs o'] =
      some (deleteMsgs ((db.put .osdInfo l none).put .osdLongId o' none) o') := rfl
  by_cases ho : o = o'
  · subst ho
    intro _ _
    rw [(deleteMsgs_within o).get (effects_of_applyAll hmsgs) (by simp), Tables.get_put_self]
  · refine (deleteMsgs_within o').notLost hmsgs (by simp) ?_
    refine notLost_congr (hdb ho) (by simp) (by simp) ?_
    rw [Tables.get_put_of_ne _ (Ne.symm ho), Tables.get_put_table _ _ _ (by simp)]

theorem notLost_followUp {work : Work} (h : FollowUp snapshot work us)
    (hrun : applyAll db us = some db')
    (hseen : ∀ o, work = .waitUntilDecommissioned o → snapshot.get .purging o = none →
      db.get .purging o = none) (hdb : NotLost db o) : NotLost db' o := by
  cases h with
  | none =>
    cases applyAll_nil.mp hrun
    exact hdb
  | leaves _ _ _ _ items hitems => exact (leaves_within hitems).notLost hrun (by simp [workTables]) hdb
  | repaired osdId namespaceId =>
    exact (repaired_within osdId namespaceId _).notLost hrun (by simp [workTables]) hdb
  | decommissioned o' hpurging =>
    rw [applyAll_set_cons, applyAll_nil] at hrun
    subst hrun
    by_cases ho : o' = o
    · subst ho
      intro hpurged
      rw [Tables.get_put_table _ _ _ (by simp), hseen o' rfl hpurging] at hpurged
      cases hpurged
    · exact notLost_congr hdb (by simp) (Tables.get_put_of_ne _ ho) (by simp)
  | purged o' longId =>
    rw [applyAll_assert_cons, applyAll_set_cons] at hrun
    refine notLost_purgeUpdates hrun.2 fun ho => ?_
    exact notLost_congr hdb (by simp) (Tables.get_put_of_ne _ (Ne.symm ho)) (by simp)

theorem notLost_step {r : Request} {c : Computed} (hr : r.IsPurge)
    (h : handleUpdate c.snapshot r = .ok (c.reply, c.plan)) (hseen : NotOvertaken db r c)
    (happly : c.plan.apply db = some db') (hdb : NotLost db o) : NotLost db' o := by
  cases r with
  | purgeOsd l =>
    obtain ⟨us, hus, hplan⟩ := map_eq_ok.mp h
    rw [← (Prod.mk.inj hplan).2] at happly
    -- the purge of `o'` is noted; for another osd that changes nothing
    have hnoted : ∀ o', o ≠ o' → NotLost (db.put .purging o' (some ())) o := fun o' ho =>
      notLost_congr hdb (Tables.get_put_of_ne _ (Ne.symm ho)) (by simp) (by simp)
    cases purgeOsd_eq_ok hus with
    | unused claim info =>
      simp only [Plan.apply, applyAll_assert_cons, applyAll_delete_cons, applyAll_nil] at happly
      obtain ⟨_, _, rfl⟩ := happly
      exact notLost_congr hdb (by simp) (by simp) (by simp)
    | already =>
      cases applyAll_nil.mp happly
      exact hdb
    | decommission o' info us hinfo _ _ hdec =>
      rw [Plan.apply, applyAll_set_cons] at happly
      refine notLost_decommissionOsd hdec happly ?_
      by_cases ho : o = o'
      · exact .inr ⟨info, ho ▸ hinfo⟩
      · exact .inl (hnoted o' ho)
    | now o' info =>
      simp only [Plan.apply, applyAll_assert_cons, applyAll_set_cons] at happly
      exact notLost_purgeUpdates happly.2 (hnoted o')
    | later o' info =>
      simp only [Plan.apply, applyAll_assert_cons, applyAll_set_cons, applyAll_nil] at happly
      obtain ⟨_, hdec, rfl⟩ := happly
      by_cases ho : o = o'
      · subst ho
        intro _ hnone
        rw [hdec] at hnone
        cases hnone
      · exact hnoted o' ho
  | decommissionOsd l =>
    obtain ⟨us, hus, hplan⟩ := map_eq_ok.mp h
    rw [← (Prod.mk.inj hplan).2] at happly
    exact notLost_decommissionOsd hus happly (.inl hdb)
  | markWorkCompleted id =>
    obtain ⟨us, hus, hplan⟩ := map_eq_ok.mp h
    rw [← (Prod.mk.inj hplan).2] at happly
    obtain ⟨upds, hupds, rfl⟩ := markWorkCompleted_eq_ok hus
    simp only [Plan.apply, applyAll_plusEq_cons, applyAll_assertExists_cons, applyAll_delete_cons,
      plusEq, Counter.put] at happly
    obtain ⟨_, _, hrun⟩ := happly
    have hmid : NotLost ((db.put .workCount () (some ((Counter.work.get db).getD 0 + -1))).put .workItems
        id none) o := notLost_congr hdb (by simp) (by simp) (by simp)
    obtain ⟨_, rfl⟩ | ⟨work, hitem, hwork⟩ := hupds
    · cases applyAll_nil.mp hrun
      simpa using hmid
    · refine notLost_followUp (followUps_eq_ok hwork) hrun (fun o hwork hnone => ?_) (by simpa using hmid)
      rw [hwork] at hitem
      simp only [NotOvertaken, hitem] at hseen
      simpa using hseen hnone
  | _ => exact absurd hr id

end Steps

/-- In every run of purges, decommissionings and their completions in which no completion is overtaken
by a purge that it has not seen, an osd whose purge was asked for and that is not being decommissioned
is gone, and the purge of an osd that is still there is not ignored. -/
theorem purge_not_lost (db : Db) (hclaimed : (osdView db).Claimed) (hstart : ∀ o, NotLost db o)
    (events : List (PoolEvent Request)) (hrequests : ∀ r, .compute r ∈ events → r.IsPurge)
    (hseen : AllSteps serve (Applies NotOvertaken) { store := { db } } events) :
    let db' := (run serve { store := { db } } events).store.db
    (∀ o, db'.get .purging o = some () → db'.get .decommissioning o = none →
      db'.get .osdLongId o = none ∧ ∀ l info, db'.get .osdInfo l ≠ some (.thisAlba o, info)) ∧
      ∀ l o info, db'.get .osdInfo l = some (.thisAlba o, info) → db'.get .decommissioning o = none →
        purgeOsd db' l ≠ .ok [] := by
  intro db'
  have step : ∀ r c db db', (osdView c.snapshot).Claimed ∧ (∀ o, NotLost c.snapshot o) →
      handleUpdate c.snapshot r = .ok (c.reply, c.plan) → NoNewIds c.snapshot db →
      ((osdView db).Claimed ∧ ∀ o, NotLost db o) → r.IsPurge ∧ NotOvertaken db r c →
      c.plan.apply db = some db' →
      ((osdView db').Claimed ∧ ∀ o, NotLost db' o) ∧ NoNewIds db db' := by
    intro r c db db' _ hplan hbefore hdb hr happly
    have hstep := osdStep_of_apply hplan happly
    have hno : c.reply.handedOut = none := handedOut_of_handleUpdate hplan fun l now heq => by
      rw [heq] at hr
      exact hr.1
    rw [hno] at hstep
    exact ⟨⟨hstep.claimed hbefore.keeps hdb.1, fun o => notLost_step hr.1 hplan hr.2 happly (hdb.2 o)⟩,
      noNewIds_of_step hstep⟩
  obtain ⟨hclaimed', hlost'⟩ := serve_holds (I := fun db => (osdView db).Claimed ∧ ∀ o, NotLost db o)
    (B := NoNewIds) (fun _ _ => .inl rfl) (fun _ _ _ => NoNewIds.trans) step ⟨hclaimed, hstart⟩
    (applies_of_requests hrequests hseen)
  have hgone : ∀ o l info, db'.get .purging o = some () → db'.get .decommissioning o = none →
      db'.get .osdInfo l ≠ some (.thisAlba o, info) := by
    intro o l info hpurging hdec hinfo
    have hlong : db'.get .osdLongId o = some l := (hclaimed' o l).mpr (claimOf_of_get hinfo)
    have hnone : db'.get .osdLongId o = none := hlost' o hpurging hdec
    rw [hnone] at hlong
    cases hlong
  refine ⟨fun o hpurging hdec => ⟨hlost' o hpurging hdec, fun l info =>
    hgone o l info hpurging hdec⟩, fun l o info hinfo hdec hpurge => ?_⟩
  -- the request is ignored only when the purge has been noted before
  have hignored : ∃ o info, db'.get .osdInfo l = some (.thisAlba o, info) ∧
      (db'.get .purging o).isSome := by
    generalize hus : ([] : List Update) = us at hpurge
    cases purgeOsd_eq_ok hpurge with
    | already o info hinfo hpurging => exact ⟨o, info, hinfo, hpurging⟩
    | unused | decommission | now | later => cases hus
  obtain ⟨o', info', hinfo', hpurging⟩ := hignored
  rw [hinfo] at hinfo'
  cases hinfo'
  obtain ⟨u, hu⟩ := Option.isSome_iff_exists.mp hpurging
  exact hgone o l info hu hdec hinfo

def decommissioningOsd : Db :=
  let db := (Tables.empty : Db).put .osdInfo freeOsd.longId
    (some (.thisAlba 0, { freeOsd with decommissioned := true }))
  let db := db.put .osdLongId 0 (some freeOsd.longId)
  let db := db.put .decommissioning 0 (some ())
  db.put .workItems 0 (some (.waitUntilDecommissioned 0))

theorem decommissioningOsd_claimed : (osdView decommissioningOsd).Claimed := by
  intro o l
  simp only [decommissioningOsd, osdView_put (t := .workItems) (by simp),
    osdView_put (t := .decommissioning) (by simp), osdView_putLongId, osdView_putInfo]
  simp only [osdView, claimOf, get_empty, Function.update_apply]
  by_cases ho : o = 0
  · simp [ho, eq_comm]
  · by_cases hl : l = freeOsd.longId
    · simp [ho, hl, Ne.symm ho]
    · simp [ho, hl]

theorem decommissioningOsd_notLost (o : OsdId) : NotLost decommissioningOsd o := by
  intro hpurging
  simp [decommissioningOsd, get_empty] at hpurging

/-- One client completes the decommissioning, and before its updates are applied another one asks for
the purge. -/
theorem purge_lost : let db := (run serve { store := { db := decommissioningOsd } }
      [.compute (.markWorkCompleted 0), .compute (.purgeOsd freeOsd.longId), .apply 1, .apply 0]).store.db
    db.get .purging 0 = some () ∧ db.get .decommissioning 0 = none ∧
      db.get .osdLongId 0 = some freeOsd.longId := by
  decide +kernel

/-- The purge is asked for before the client reads the database that completes the decommissioning. -/
theorem purge_not_lost_inTurn : let db := (run serve { store := { db := decommissioningOsd } }
      (inTurn [.purgeOsd freeOsd.longId, .markWorkCompleted 0])).store.db
    db.get .purging 0 = some () ∧ db.get .decommissioning 0 = none ∧ db.get .osdLongId 0 = none := by
  have hrequests : ∀ r, .compute r ∈ inTurn [.purgeOsd freeOsd.longId, .markWorkCompleted 0] →
      r.IsPurge := by
    intro r hr
    simp only [inTurn, List.flatMap_cons, List.flatMap_nil, List.mem_append, List.mem_cons,
      PoolEvent.compute.injEq, reduceCtorEq, List.not_mem_nil, or_false] at hr
    rcases hr with rfl | rfl <;> trivial
  have hpurged := (purge_not_lost decommissioningOsd decommissioningOsd_claimed
    decommissioningOsd_notLost _ hrequests (by decide +kernel)).1 0
  exact ⟨by decide +kernel, by decide +kernel, (hpurged (by decide +kernel) (by decide +kernel)).1⟩

end Alba.Albamgr
