import Alba.Albamgr.Step

/-! What a request of the alba manager that is not refused has read, and the updates it makes. -/

namespace Alba.Albamgr

open ProofKit

section Work

def Work.job : Work → Option Bytes
  | iterNamespace _ _ name _ => some name
  | _ => none

def workUpdates (items : List Work) : List Update :=
  [.logWork items (items.map Work.job), .plusEq .work items.length false]

theorem jobNames_eq_ok {db : Db} {items : List Work} {secondary : List (Option Bytes)}
    {names : List Bytes} (h : jobNames db items = .ok (secondary, names)) :
    secondary = items.map Work.job ∧ names = items.filterMap Work.job ∧ names.Nodup ∧
      ∀ name ∈ names, db.get .jobName name = none := by
  induction items generalizing secondary names with
  | nil =>
    cases h
    simp
  | cons item items ih =>
    rw [jobNames, bind_eq_ok] at h
    obtain ⟨⟨acc, rest⟩, hrest, h⟩ := h
    obtain ⟨rfl, rfl, hnodup, hfree⟩ := ih hrest
    cases item with
    | iterNamespace action namespaceId name cnt =>
      simp only at h
      split at h
      · cases h
      · rename_i hfresh
        cases h
        simp only [Bool.or_eq_true, List.contains_eq_mem, decide_eq_true_eq, not_or,
          Bool.not_eq_true, Option.isSome_eq_false_iff, Option.isNone_iff_eq_none] at hfresh
        exact ⟨rfl, rfl, List.nodup_cons.mpr ⟨hfresh.1, hnodup⟩,
          List.forall_mem_cons.mpr ⟨hfresh.2, hfree⟩⟩
    | _ =>
      cases h
      exact ⟨rfl, rfl, hnodup, hfree⟩

theorem addWorkItems_eq_ok {db : Db} {items : List Work} {us : List Update}
    (h : addWorkItems db items = .ok us) :
    us = workUpdates items ∧ (items.filterMap Work.job).Nodup ∧
      ∀ name ∈ items.filterMap Work.job, db.get .jobName name = none := by
  rw [addWorkItems, bind_eq_ok] at h
  obtain ⟨⟨secondary, names⟩, hnames, h⟩ := h
  obtain ⟨rfl, rfl, hnodup, hfree⟩ := jobNames_eq_ok hnames
  cases h
  exact ⟨rfl, hnodup, hfree⟩

end Work

section Osds

variable {db : Db} {us : List Update} {longId : Bytes} {osdId : OsdId} {namespaceId : NamespaceId}

theorem makeUpdateOsdUpdates_eq_ok {changes : OsdUpdate} {acc : List Update}
    (h : makeUpdateOsdUpdates db longId changes acc = .ok us) :
    ∃ claimInfo osdInfo, db.get .osdInfo longId = some (claimInfo, osdInfo) ∧
      us = .assert .osdInfo longId (some (claimInfo, osdInfo)) ::
        .set .osdInfo longId (some (claimInfo, changes.apply osdInfo)) :: acc := by
  rw [makeUpdateOsdUpdates, bind_eq_ok] at h
  obtain ⟨⟨claimInfo, osdInfo⟩, hinfo, h⟩ := h
  cases h
  exact ⟨claimInfo, osdInfo, getOr_eq_ok.mp hinfo, rfl⟩

theorem addOsd_eq_ok {osd : OsdInfo} (h : addOsd db osd = .ok us) :
    db.get .osdInfo osd.longId = none ∧
      us = [.assert .osdInfo osd.longId none, .set .osdInfo osd.longId (some (.available, osd))] := by
  rw [addOsd, ite_error_eq_ok] at h
  obtain ⟨hnone, h⟩ := h
  cases h
  exact ⟨by simpa using hnone, rfl⟩

def linkUpdates (osdId : OsdId) (namespaceId : NamespaceId) (name : Bytes) (info : Namespace) :
    List Update :=
  [.assert .namespaceInfo name (some info), .assert .namespaceOsds (namespaceId, osdId) none,
    .set .namespaceOsds (namespaceId, osdId) (some .adding),
    .log .osd osdId [.addNamespace name namespaceId]]

theorem linkById_eq_ok (h : linkById db osdId namespaceId = .ok us) :
    ∃ name info, getNamespaceById db namespaceId = some (name, info) ∧
      (info.state = .removing ∧ us = [] ∨ info.state ≠ .removing ∧
        db.get .namespaceOsds (namespaceId, osdId) = none ∧
        us = linkUpdates osdId namespaceId name info) := by
  rw [linkById, bind_eq_ok] at h
  obtain ⟨⟨name, info⟩, hname, h⟩ := h
  refine ⟨name, info, getSome_eq_ok.mp hname, ?_⟩
  by_cases hstate : info.state = .removing
  · simp only [addNamespaceOsd, hstate] at h
    cases h
    exact .inl ⟨hstate, rfl⟩
  · refine .inr ⟨hstate, ?_⟩
    have hlinked : addNamespaceOsd db osdId namespaceId name info =
        if (db.get .namespaceOsds (namespaceId, osdId)).isSome then .error .osdAlreadyLinkedToNamespace
        else .ok (linkUpdates osdId namespaceId name info) := by
      unfold addNamespaceOsd
      split <;> first | contradiction | rfl
    simp only [hlinked, ite_error_eq_ok] at h
    obtain ⟨hnone, h⟩ := h
    cases h
    exact ⟨by simpa using hnone, rfl⟩

/-- The updates that start the decommissioning of an osd, without those of its record. -/
def decommissionUpdates (osdId : OsdId) (namespaceIds : List NamespaceId)
    (unlink : List (List Update)) : List Update :=
  workUpdates [.waitUntilDecommissioned osdId] ++ [.set .decommissioning osdId (some ())] ++
    unlink.reverse.flatten ++
    namespaceIds.foldl (fun acc namespaceId =>
      updateNamespaceLink namespaceId osdId .active .decommissioning ++ acc) []

theorem decommissionOsd_eq_ok (h : decommissionOsd db longId = .ok us) :
    ∃ osdId osdInfo unlink, db.get .osdInfo longId = some (.thisAlba osdId, osdInfo) ∧
      osdInfo.decommissioned = false ∧
      (listOsdNamespaces db osdId).mapM (unlinkMsg db osdId) = .ok unlink ∧
      us = decommissionUpdates osdId (listOsdNamespaces db osdId) unlink ++
        [.assert .osdInfo longId (some (.thisAlba osdId, osdInfo)),
          .set .osdInfo longId (some (.thisAlba osdId, { osdInfo with decommissioned := true }))] := by
  rw [decommissionOsd, bind_eq_ok] at h
  obtain ⟨⟨claimInfo, osdInfo⟩, hinfo, h⟩ := h
  cases claimInfo with
  | anotherAlba => cases h
  | available => cases h
  | thisAlba osdId =>
    simp only [ite_error_eq_ok, bind_eq_ok] at h
    obtain ⟨hdec, unlink, hunlink, work, hwork, h⟩ := h
    cases h
    rw [(addWorkItems_eq_ok hwork).1]
    exact ⟨osdId, osdInfo, unlink, getOr_eq_ok.mp hinfo, by simpa using hdec, hunlink, rfl⟩

theorem unlinkMsg_eq_ok (h : unlinkMsg db osdId namespaceId = .ok us) :
    ∃ name info, getNamespaceById db namespaceId = some (name, info) ∧
      us = [.log .nsmHost info.nsmHostId [.namespaceMsg namespaceId (.unlinkOsd osdId)]] := by
  rw [unlinkMsg, bind_eq_ok] at h
  obtain ⟨⟨name, info⟩, hname, h⟩ := h
  cases h
  exact ⟨name, info, getSome_eq_ok.mp hname, rfl⟩

theorem markOsdClaimed_eq_ok {now : Timestamp} (h : markOsdClaimed db longId now = .ok (osdId, us)) :
    ∃ osdInfo links, db.get .osdInfo longId = some (.available, osdInfo) ∧ osdId = osdNextId db ∧
      ((presetsWithAllOsds db).mapM fun presetName => do
        return flattenUnordered (← (listPresetNamespaces db presetName).mapM (linkById db osdId))) =
        .ok links ∧
      us = ([.assert .osdInfo longId (some (.available, osdInfo)),
          .set .osdInfo longId (some (.thisAlba osdId, { osdInfo with claimedSince := some now })),
          .assert .osdNextId () (db.get .osdNextId ()), .set .osdNextId () (some (nextId osdId)),
          .assert .osdLongId osdId none, .set .osdLongId osdId (some longId)] : List Update) ++
        ((presetsWithAllOsds db).map fun presetName =>
          .assertRange presetName (listPresetNamespaces db presetName)) ++
        flattenUnordered links := by
  rw [markOsdClaimed, bind_eq_ok] at h
  obtain ⟨⟨claimInfo, osdInfo⟩, hinfo, h⟩ := h
  rw [ite_error_eq_ok, bind_eq_ok] at h
  obtain ⟨hclaim, links, hlinks, h⟩ := h
  cases h
  obtain rfl : claimInfo = .available := by simpa using hclaim
  exact ⟨osdInfo, links, getOr_eq_ok.mp hinfo, rfl, hlinks, rfl⟩

theorem markOsdClaimedByOther_eq_ok {albaId : Bytes} (h : markOsdClaimedByOther db longId albaId = .ok us) :
    ∃ osdInfo, db.get .osdInfo longId = some (.available, osdInfo) ∧
      us = [.assert .osdInfo longId (some (.available, osdInfo)),
        .set .osdInfo longId (some (.anotherAlba albaId, osdInfo))] := by
  rw [markOsdClaimedByOther, ite_error_eq_ok, bind_eq_ok] at h
  obtain ⟨_, ⟨claimInfo, osdInfo⟩, hinfo, h⟩ := h
  obtain ⟨hclaim, h⟩ := ite_error_eq_ok.mp h
  cases h
  obtain rfl : claimInfo = .available := by simpa using hclaim
  exact ⟨osdInfo, getOr_eq_ok.mp hinfo, rfl⟩

inductive Purge (db : Db) (longId : Bytes) : List Update → Prop
  | unused (claimInfo : ClaimInfo) (osdInfo : OsdInfo)
      (info : db.get .osdInfo longId = some (claimInfo, osdInfo))
      (claim : ∀ osdId, claimInfo ≠ .thisAlba osdId) :
      Purge db longId [.assert .osdInfo longId (some (claimInfo, osdInfo)), .delete .osdInfo longId]
  | already (osdId : OsdId) (osdInfo : OsdInfo)
      (info : db.get .osdInfo longId = some (.thisAlba osdId, osdInfo))
      (purging : (db.get .purging osdId).isSome) : Purge db longId []
  | decommission (osdId : OsdId) (osdInfo : OsdInfo) (us : List Update)
      (info : db.get .osdInfo longId = some (.thisAlba osdId, osdInfo))
      (purging : db.get .purging osdId = none) (used : osdInfo.decommissioned = false)
      (updates : decommissionOsd db longId = .ok us) :
      Purge db longId (.set .purging osdId (some ()) :: us)
  | now (osdId : OsdId) (osdInfo : OsdInfo)
      (info : db.get .osdInfo longId = some (.thisAlba osdId, osdInfo))
      (purging : db.get .purging osdId = none) (unused : osdInfo.decommissioned = true)
      (decommissioning : db.get .decommissioning osdId = none) :
      Purge db longId (.assert .osdInfo longId (some (.thisAlba osdId, osdInfo)) ::
        .set .purging osdId (some ()) :: purgeUpdates longId osdId)
  | later (osdId : OsdId) (osdInfo : OsdInfo)
      (info : db.get .osdInfo longId = some (.thisAlba osdId, osdInfo))
      (purging : db.get .purging osdId = none) (unused : osdInfo.decommissioned = true)
      (decommissioning : db.get .decommissioning osdId = some ()) :
      Purge db longId [.assert .osdInfo longId (some (.thisAlba osdId, osdInfo)),
        .set .purging osdId (some ()), .assert .decommissioning osdId (some ())]

theorem purgeOsd_eq_ok (h : purgeOsd db longId = .ok us) : Purge db longId us := by
  rw [purgeOsd, bind_eq_ok] at h
  obtain ⟨⟨claimInfo, osdInfo⟩, hinfo, h⟩ := h
  have hinfo := getOr_eq_ok.mp hinfo
  cases claimInfo with
  | anotherAlba albaId =>
    cases h
    exact .unused _ osdInfo hinfo fun _ => nofun
  | available =>
    cases h
    exact .unused _ osdInfo hinfo fun _ => nofun
  | thisAlba osdId =>
    simp only at h
    split at h
    · rename_i hpurging
      cases h
      exact .already osdId osdInfo hinfo (by simp [hpurging])
    · rename_i hpurging
      split at h
      · rename_i hdec
        rw [bind_eq_ok] at h
        obtain ⟨us', hus', h⟩ := h
        cases h
        exact .decommission osdId osdInfo us' hinfo hpurging (by simpa using hdec) hus'
      · rename_i hdec
        split at h
        · rename_i hnone
          cases h
          exact .now osdId osdInfo hinfo hpurging (by simpa using hdec) hnone
        · rename_i hsome
          cases h
          exact .later osdId osdInfo hinfo hpurging (by simpa using hdec) hsome

theorem bumpNextOsdId_eq_ok {newNextId : OsdId} (h : bumpNextOsdId db newNextId = .ok us) :
    (osdNextId db).val ≤ newNextId.val ∧
      us = [.assert .osdNextId () (db.get .osdNextId ()), .set .osdNextId () (some newNextId)] := by
  rw [bumpNextOsdId, ite_error_eq_ok] at h
  obtain ⟨hid, h⟩ := h
  cases h
  exact ⟨by omega, rfl⟩

end Osds

section Namespaces

variable {db : Db} {us : List Update} {name nsmHostId presetName : Bytes} {namespaceId : NamespaceId}

theorem addToPropagation_eq_ok {presetVersion : Nat}
    (h : addToPropagation db presetName presetVersion namespaceId = .ok us) :
    ∃ namespaceIds, (∀ v, db.get .propagation presetName = some v → v = (presetVersion, namespaceIds)) ∧
      us = [.assert .propagation presetName (db.get .propagation presetName),
        .set .propagation presetName (some (presetVersion, namespaceId :: namespaceIds))] := by
  unfold addToPropagation at h
  split at h
  · rename_i hnone
    cases h
    exact ⟨[], by simp [hnone], by rw [hnone]⟩
  · rename_i version' namespaceIds' hsome
    split at h
    · rename_i hversion
      cases h
      subst hversion
      exact ⟨namespaceIds', by simp [hsome], by rw [hsome]⟩
    · cases h

def presetOf (db : Db) (presetO : Option Bytes) : Option Bytes :=
  presetO <|> db.get .presetDefault ()

def namespaceNextId (db : Db) : NamespaceId := (db.get .namespaceNextId ()).getD 0

def newLinks (name : Bytes) (namespaceId : NamespaceId) (osdIds : List OsdId) : List Update :=
  flattenUnordered (osdIds.map fun osdId =>
    [.set .namespaceOsds (namespaceId, osdId) (some .adding),
      .log .osd osdId [.addNamespace name namespaceId]])

theorem createNamespace_eq_ok {presetO : Option Bytes} {info : Namespace}
    (h : createNamespace db name nsmHostId presetO = .ok (info, us)) :
    ∃ presetName preset version propagation osdIds, presetOf db presetO = some presetName ∧
      db.get .namespaceInfo name = none ∧ db.get .presets presetName = some (preset, version) ∧
      addToPropagation db presetName version (namespaceNextId db) = .ok propagation ∧
      osdsOfPreset db preset = .ok osdIds ∧
      info = { id := namespaceNextId db, nsmHostId, state := .creating, presetName } ∧
      us = ([.log .nsmHost nsmHostId [.createNamespace name info.id]] : List Update) ++
        ([.assert .namespaceNextId () (db.get .namespaceNextId ()),
          .set .namespaceNextId () (some (info.id + 1))] : List Update) ++
        ([.assert .namespaceInfo name none, .set .namespaceInfo name (some info),
          .set .namespaceName info.id (some name)] : List Update) ++
        newLinks name info.id osdIds ++
        ([.set .presetNamespaces (presetName, info.id) (some ())] : List Update) ++
        workUpdates [.propagatePreset presetName] ++ propagation ++
        [.plusEq (.nsmHost nsmHostId) 1 true] := by
  obtain ⟨presetName, hname, h⟩ : ∃ presetName, presetOf db presetO = some presetName ∧
      createNamespace db name nsmHostId (some presetName) = .ok (info, us) := by
    cases presetO with
    | none =>
      rw [createNamespace.eq_def, bind_eq_ok] at h
      obtain ⟨presetName, hpreset, h⟩ := h
      exact ⟨presetName, getOr_eq_ok.mp hpreset, h⟩
    | some presetName => exact ⟨presetName, rfl, h⟩
  simp only [createNamespace, ok_bind, ite_error_eq_ok, bind_eq_ok] at h
  obtain ⟨hnone, ⟨preset, version⟩, hp, work, hwork, propagation, hprop, osdIds, hosds, h⟩ := h
  cases h
  rw [(addWorkItems_eq_ok hwork).1]
  exact ⟨presetName, preset, version, propagation, osdIds, hname, by simpa using hnone,
    getOr_eq_ok.mp hp, hprop, hosds, rfl, rfl⟩

theorem deleteNamespace_eq_ok {host : Bytes} (h : deleteNamespace db name = .ok (host, us)) :
    ∃ info, db.get .namespaceInfo name = some info ∧ info.state = .active ∧ host = info.nsmHostId ∧
      us = [.plusEq (.nsmHost info.nsmHostId) (-1) true] ++
        updateNamespaceInfo name info { info with state := .removing } ++
        [.log .nsmHost info.nsmHostId [.deleteNamespace info.id]] ++
        removeFromPropagation db info.presetName info.id := by
  simp only [deleteNamespace, bind_eq_ok, ite_error_eq_ok] at h
  obtain ⟨info, hinfo, hstate, h⟩ := h
  cases h
  exact ⟨info, getOr_eq_ok.mp hinfo, by simpa using hstate, rfl, rfl⟩

theorem recoverNamespace_eq_ok (h : recoverNamespace db name nsmHostId = .ok us) :
    ∃ info oldHost state' msg, db.get .namespaceInfo name = some info ∧
      db.get .nsmHostInfo info.nsmHostId = some oldHost ∧ oldHost.lost = true ∧
      (info.state = .creating ∧ state' = .creating ∧ msg = .createNamespace name info.id ∨
        (info.state = .active ∨ info.state = .recovering) ∧ state' = .recovering ∧
          msg = .recoverNamespace name info.id) ∧
      us = updateNamespaceInfo name info { info with state := state', nsmHostId } ++
        [.log .nsmHost nsmHostId [msg]] := by
  simp only [recoverNamespace, bind_eq_ok, ite_error_eq_ok] at h
  obtain ⟨info, hinfo, oldHost, hhost, hlost, h⟩ := h
  have hlost : oldHost.lost = true := by simpa using hlost
  split at h <;> rename_i hstate <;> cases h <;>
    refine ⟨info, oldHost, _, _, getOr_eq_ok.mp hinfo, getExn_eq_ok.mp hhost, hlost, ?_, rfl⟩
  · exact .inl ⟨hstate, rfl, rfl⟩
  · exact .inr ⟨.inl hstate, rfl, rfl⟩
  · exact .inr ⟨.inr hstate, rfl, rfl⟩

end Namespaces

section WorkItems

variable {db : Db} {us : List Update}

theorem markWorkCompleted_eq_ok {id : WorkId} (h : markWorkCompleted db id = .ok us) :
    ∃ upds, (db.get .workItems id = none ∧ upds = [] ∨
        ∃ work, db.get .workItems id = some work ∧ followUps db work = .ok upds) ∧
      us = .plusEq .work (-1) false :: .assertExists .workItems id :: .delete .workItems id :: upds := by
  unfold markWorkCompleted at h
  cases hwork : db.get .workItems id with
  | none =>
    simp only [hwork] at h
    cases h
    exact ⟨[], .inl ⟨rfl, rfl⟩, rfl⟩
  | some work =>
    simp only [hwork, bind_eq_ok] at h
    obtain ⟨upds, hupds, h⟩ := h
    cases h
    exact ⟨upds, .inr ⟨work, rfl, hupds⟩, rfl⟩

inductive FollowUp (db : Db) : Work → List Update → Prop
  | none (work : Work) : FollowUp db work []
  | leaves (action : Action) (namespaceId : NamespaceId) (name : Bytes) (cnt : Int)
      (items : List (Work × Update))
      (leaves : (intRange cnt).mapM (leafOf action namespaceId name cnt) = .ok items) :
      FollowUp db (.iterNamespace action namespaceId name cnt)
        (workUpdates (items.map Prod.fst) ++ items.map Prod.snd)
  | repaired (osdId : OsdId) (namespaceId : NamespaceId) :
      FollowUp db (.waitUntilRepaired osdId namespaceId)
        (workUpdates [.cleanupNamespaceOsd namespaceId osdId, .cleanupOsdNamespace osdId namespaceId] ++
          [.set .namespaceOsds (namespaceId, osdId) none, .set .osdNamespaces (osdId, namespaceId) none])
  | decommissioned (osdId : OsdId) (purging : db.get .purging osdId = Option.none) :
      FollowUp db (.waitUntilDecommissioned osdId) [.set .decommissioning osdId Option.none]
  | purged (osdId : OsdId) (longId : Bytes) (purging : db.get .purging osdId = some ())
      (mapped : db.get .osdLongId osdId = some longId) :
      FollowUp db (.waitUntilDecommissioned osdId) (.assert .purging osdId (some ()) ::
        .set .decommissioning osdId Option.none :: purgeUpdates longId osdId)

theorem followUps_eq_ok {work : Work} (h : followUps db work = .ok us) : FollowUp db work us := by
  cases work with
  | iterNamespace action namespaceId name cnt =>
    simp only [followUps, bind_eq_ok] at h
    obtain ⟨items, hitems, added, hadded, h⟩ := h
    cases h
    rw [(addWorkItems_eq_ok hadded).1]
    exact .leaves action namespaceId name cnt items hitems
  | waitUntilRepaired osdId namespaceId =>
    simp only [followUps, bind_eq_ok] at h
    obtain ⟨added, hadded, h⟩ := h
    cases h
    rw [(addWorkItems_eq_ok hadded).1]
    exact .repaired osdId namespaceId
  | waitUntilDecommissioned osdId =>
    simp only [followUps] at h
    split at h
    · rename_i hnone
      cases h
      exact .decommissioned osdId hnone
    · rename_i hsome
      rw [bind_eq_ok] at h
      obtain ⟨longId, hlong, h⟩ := h
      cases h
      exact .purged osdId longId hsome (getExn_eq_ok.mp hlong)
  | _ =>
    cases h
    exact .none _

theorem updateProgress_eq_ok {name : Bytes} {old : Progress} {new : Option Progress}
    (h : updateProgress db name old new = .ok us) :
    db.get .progress name = some old ∧ ∃ extra,
      (extra = [] ∧ (new = none → name.drop (name.length - 4) ≠ Nsm.intTo 0) ∨
        new = none ∧ 4 ≤ name.length ∧ name.drop (name.length - 4) = Nsm.intTo 0 ∧
          extra = [.set .jobName (name.take (name.length - 4)) none]) ∧
      us = [.assert .progress name (some old), .set .progress name new] ++ extra := by
  simp only [updateProgress, bind_eq_ok, ite_error_eq_ok] at h
  obtain ⟨p, hp, hold, h⟩ := h
  obtain rfl : old = p := by simpa using hold
  refine ⟨getOr_eq_ok.mp hp, ?_⟩
  split at h
  · rename_i hnew
    cases h
    refine ⟨[], .inl ⟨rfl, fun hnone => ?_⟩, rfl⟩
    rw [hnone] at hnew
    cases hnew
  · rename_i hnew
    obtain ⟨hlength, h⟩ := ite_error_eq_ok.mp h
    split at h
    · rename_i hzero
      cases h
      exact ⟨_, .inr ⟨by simpa using hnew, by omega, hzero, rfl⟩, rfl⟩
    · rename_i hzero
      cases h
      exact ⟨[], .inl ⟨rfl, fun _ => hzero⟩, rfl⟩

end WorkItems

section Presets

variable {db : Db} {us : List Update} {presetName : Bytes}

theorem createPreset_eq_ok {preset : Preset} (h : createPreset db presetName preset = .ok us) :
    presetIsValid preset = true ∧ db.get .presets presetName = none ∧
      us = [.assert .presets presetName none, .set .presets presetName (some (preset, 0))] := by
  simp only [createPreset, ite_error_eq_ok] at h
  obtain ⟨hvalid, hnone, h⟩ := h
  cases h
  exact ⟨by simpa using hvalid, by simpa using hnone, rfl⟩

theorem deletePreset_eq_ok (h : deletePreset db presetName = .ok us) :
    ∃ extra, us = [.assertRange presetName [], .delete .presets presetName,
        .set .propagation presetName none] ++ extra ∧
      (db.get .presetDefault () ≠ some presetName ∧ extra = [] ∨
        db.get .presetDefault () = some presetName ∧
          extra = [.assert .presetDefault () (some presetName), .delete .presetDefault ()]) := by
  simp only [deletePreset, ite_error_eq_ok, bind_eq_ok] at h
  obtain ⟨_, _, _, h⟩ := h
  cases h
  refine ⟨_, rfl, ?_⟩
  split
  · rename_i hdefault
    exact .inr ⟨hdefault, by rw [hdefault]⟩
  · rename_i hdefault
    exact .inl ⟨hdefault, rfl⟩

theorem setDefaultPreset_eq_ok (h : setDefaultPreset db presetName = .ok us) :
    ∃ v, db.get .presets presetName = some v ∧
      us = [.set .presetDefault () (some presetName), .assert .presets presetName (some v)] := by
  rw [setDefaultPreset, bind_eq_ok] at h
  obtain ⟨v, hv, h⟩ := h
  cases h
  exact ⟨v, getOr_eq_ok.mp hv, rfl⟩

theorem addOsdsToPreset_eq_ok {osdIds : List OsdId} (h : addOsdsToPreset db presetName osdIds = .ok us) :
    ∃ preset version current links, db.get .presets presetName = some (preset, version) ∧
      preset.osds = .explicit current ∧
      (osdIds.mapM fun osdId => do
        return (← (listPresetNamespaces db presetName).mapM (linkById db osdId)).flatten) = .ok links ∧
      us = [.assertRange presetName (listPresetNamespaces db presetName),
          .assert .presets presetName (some (preset, version)),
          .set .presets presetName
            (some ({ preset with osds := .explicit (sortUniq (current ++ osdIds)) }, version + 1))] ++
        links.flatten := by
  rw [addOsdsToPreset, bind_eq_ok] at h
  obtain ⟨⟨preset, version⟩, hp, h⟩ := h
  simp only at h
  split at h
  · cases h
  · rename_i current hcurrent
    rw [bind_eq_ok] at h
    obtain ⟨links, hlinks, h⟩ := h
    cases h
    exact ⟨preset, version, current, links, getOr_eq_ok.mp hp, hcurrent, hlinks, rfl⟩

theorem updatePreset_eq_ok {update : PresetUpdate} (h : updatePreset db presetName update = .ok us) :
    ∃ preset version record, db.get .presets presetName = some (preset, version) ∧
      us = .assert .presets presetName (some (preset, version)) ::
        .set .presets presetName (some (update.apply preset, version + 1)) ::
        (workUpdates [.propagatePreset presetName] ++
          .assertRange presetName (listPresetNamespaces db presetName) :: record) ∧
      (record = [.assert .propagation presetName (db.get .propagation presetName),
          .set .propagation presetName (some (version + 1, listPresetNamespaces db presetName))] ∨
        record = [] ∧ ∃ v, db.get .propagation presetName = some v ∧ version + 1 < v.1) := by
  simp only [updatePreset, propagatePresetVersion, bind_eq_ok] at h
  obtain ⟨⟨preset, version⟩, hp, rest, ⟨work, hwork, hrest⟩, h⟩ := h
  cases h
  cases hrest
  rw [(addWorkItems_eq_ok hwork).1]
  refine ⟨preset, version, _, getOr_eq_ok.mp hp, rfl, ?_⟩
  cases hprop : db.get .propagation presetName with
  | none => exact .inl rfl
  | some v =>
    by_cases hge : version + 1 ≥ v.1
    · exact .inl (by simp [hge])
    · exact .inr ⟨by simp [hge], v, rfl, by omega⟩

end Presets

section Hosts

variable {db : Db} {us : List Update}

theorem addNsmHost_eq_ok {id : Bytes} {nsmHost : NsmHost} (h : addNsmHost db id nsmHost = .ok us) :
    db.get .nsmHostInfo id = none ∧ us = [.testAndSet .nsmHostInfo id none (some nsmHost)] := by
  rw [addNsmHost, ite_error_eq_ok] at h
  obtain ⟨hnone, h⟩ := h
  cases h
  exact ⟨by simpa using hnone, rfl⟩

theorem updateNsmHost_eq_ok {id : Bytes} {nsmHost : NsmHost} (h : updateNsmHost db id nsmHost = .ok us) :
    ∃ old, db.get .nsmHostInfo id = some old ∧ (old.lost → nsmHost.lost) ∧
      us = [.set .nsmHostInfo id (some nsmHost)] := by
  simp only [updateNsmHost, bind_eq_ok, ite_error_eq_ok] at h
  obtain ⟨old, hold, hlost, h⟩ := h
  cases h
  exact ⟨old, getOr_eq_ok.mp hold, by simpa using hlost, rfl⟩

theorem tryGetLease_eq_ok {name : Bytes} {counter : Int} (h : tryGetLease db name counter = .ok us) :
    getLease db name = counter ∧
      us = [.assert .lease name (db.get .lease name), .set .lease name (some (counter + 1))] := by
  rw [tryGetLease, ite_error_eq_ok] at h
  obtain ⟨hlease, h⟩ := h
  cases h
  have hlease : getLease db name = counter := by simpa using hlease
  exact ⟨hlease, by rw [hlease]⟩

end Hosts

section Messages

variable {db : Db} {us : List Update}

def cleanupUpdates (nsmHostId : Bytes) (namespaceId : NamespaceId) (osds : List (OsdId × LinkState)) :
    List Update :=
  workUpdates [.cleanupNsmHostNamespace nsmHostId namespaceId] ++
    (osds.map fun e => [.set .namespaceOsds (namespaceId, e.1) none,
      .set .osdNamespaces (e.1, namespaceId) none] ++
      workUpdates [.cleanupOsdNamespace e.1 namespaceId]).reverse.flatten

inductive NsmDelivery (db : Db) : NsmMessage → List Update → Prop
  | none (msg : NsmMessage) : NsmDelivery db msg []
  | created (name : Bytes) (namespaceId : NamespaceId) (info : Namespace)
      (stored : db.get .namespaceInfo name = some info) :
      NsmDelivery db (.createNamespace name namespaceId)
        (updateNamespaceInfo name info { info with state := .active })
  | deleted (namespaceId : NamespaceId) (name : Bytes) (info : Namespace)
      (stored : getNamespaceById db namespaceId = some (name, info)) :
      NsmDelivery db (.deleteNamespace namespaceId)
        (cleanupUpdates info.nsmHostId namespaceId (getNamespaceOsds db namespaceId) ++
          [.assert .namespaceInfo name (some info), .delete .namespaceInfo name,
            .delete .namespaceName namespaceId] ++
          [.set .presetNamespaces (info.presetName, namespaceId) Option.none])
  | recovered (name' : Bytes) (namespaceId : NamespaceId) (name : Bytes) (info : Namespace)
      (msgs : List NsmMessage) (stored : getNamespaceById db namespaceId = some (name, info)) :
      NsmDelivery db (.recoverNamespace name' namespaceId) [.log .nsmHost info.nsmHostId msgs]
  | unlinked (namespaceId : NamespaceId) (osdId : OsdId) :
      NsmDelivery db (.namespaceMsg namespaceId (.unlinkOsd osdId))
        (workUpdates [.waitUntilRepaired osdId namespaceId] ++
          updateNamespaceLink namespaceId osdId .decommissioning .repairing)

theorem updsForNsmMsg_eq_ok {msg : NsmMessage} (h : updsForNsmMsg db msg = .ok us) :
    NsmDelivery db msg us := by
  cases msg with
  | createNamespace name namespaceId =>
    simp only [updsForNsmMsg] at h
    split at h
    · cases h
      exact .none _
    · rename_i info hinfo
      cases h
      exact .created name namespaceId info hinfo
  | deleteNamespace namespaceId =>
    simp only [updsForNsmMsg] at h
    split at h
    · cases h
      exact .none _
    · rename_i name info hinfo
      simp only [bind_eq_ok] at h
      obtain ⟨work, hwork, cleanup, hcleanup, h⟩ := h
      cases h
      rw [(addWorkItems_eq_ok hwork).1]
      have hone : ∀ e ∈ getNamespaceOsds db namespaceId, cleanupOsd db namespaceId e.1 =
          .ok ([.set .namespaceOsds (namespaceId, e.1) none,
            .set .osdNamespaces (e.1, namespaceId) none] ++
              workUpdates [.cleanupOsdNamespace e.1 namespaceId]) := fun e _ => rfl
      rw [List.mapM_map, Function.comp_def, mapM_of_forall hone] at hcleanup
      cases hcleanup
      exact .deleted namespaceId name info hinfo
  | recoverNamespace name' namespaceId =>
    simp only [updsForNsmMsg, bind_eq_ok] at h
    obtain ⟨⟨name, info⟩, hinfo, msgs, _, h⟩ := h
    cases h
    exact .recovered name' namespaceId name info msgs (getSome_eq_ok.mp hinfo)
  | namespaceMsg namespaceId msg =>
    cases msg with
    | linkOsd osdId osdInfo =>
      cases h
      exact .none _
    | unlinkOsd osdId =>
      cases h
      exact .unlinked namespaceId osdId

inductive OsdDelivery (db : Db) (osdId : OsdId) : OsdMessage → List Update → Prop
  | removed (name' : Bytes) (namespaceId : NamespaceId) (longId : Bytes) (claimInfo : ClaimInfo)
      (osdInfo : OsdInfo) (mapped : db.get .osdLongId osdId = some longId)
      (info : db.get .osdInfo longId = some (claimInfo, osdInfo))
      (decommissioned : osdInfo.decommissioned = true) :
      OsdDelivery db osdId (.addNamespace name' namespaceId)
        ([.set .namespaceOsds (namespaceId, osdId) Option.none,
          .set .osdNamespaces (osdId, namespaceId) Option.none] ++
          workUpdates [.cleanupOsdNamespace osdId namespaceId])
  | none (msg : OsdMessage) : OsdDelivery db osdId msg []
  | added (name' : Bytes) (namespaceId : NamespaceId) (longId : Bytes) (claimInfo : ClaimInfo)
      (osdInfo : OsdInfo) (name : Bytes) (info : Namespace)
      (mapped : db.get .osdLongId osdId = some longId)
      (stored : db.get .osdInfo longId = some (claimInfo, osdInfo))
      (used : osdInfo.decommissioned = false)
      (linked : getNamespaceById db namespaceId = some (name, info)) :
      OsdDelivery db osdId (.addNamespace name' namespaceId)
        ([.assert .osdInfo longId (some (claimInfo, osdInfo)),
            .set .osdNamespaces (osdId, namespaceId) (some ())] ++
          updateNamespaceLink namespaceId osdId .adding .active ++
          [.log .nsmHost info.nsmHostId [.namespaceMsg namespaceId (.linkOsd osdId osdInfo)]])

theorem updsForOsdMsg_eq_ok {osdId : OsdId} {msg : OsdMessage} (h : updsForOsdMsg db osdId msg = .ok us) :
    OsdDelivery db osdId msg us := by
  obtain ⟨name', namespaceId⟩ := msg
  simp only [updsForOsdMsg, bind_eq_ok] at h
  obtain ⟨longId, hlong, ⟨claimInfo, osdInfo⟩, hinfo, h⟩ := h
  split at h
  · rename_i hdec
    cases h
    exact .removed name' namespaceId longId claimInfo osdInfo (getExn_eq_ok.mp hlong)
      (getExn_eq_ok.mp hinfo) hdec
  · rename_i hdec
    split at h
    · cases h
      exact .none _
    · rename_i name info hname
      cases h
      exact .added name' namespaceId longId claimInfo osdInfo name info (getExn_eq_ok.mp hlong)
        (getExn_eq_ok.mp hinfo) (by simpa using hdec) hname

theorem markMsgDelivered_eq_ok {t : MsgLog} {dest : t.Dest} {msgId : MsgId}
    (h : markMsgDelivered db t dest msgId = .ok us) :
    us = [] ∨ ∃ msg upds, db.get (.msgs t) (dest, msgId) = some msg ∧
      updsForDeliveredMsg db t dest msg = .ok upds ∧
      us = .assert (.msgs t) (dest, msgId) (some msg) :: .delete (.msgs t) (dest, msgId) :: upds := by
  unfold markMsgDelivered at h
  split at h
  · cases h
    exact .inl rfl
  · rename_i id msg hhead
    rw [ite_error_eq_ok, bind_eq_ok] at h
    obtain ⟨hid, upds, hupds, h⟩ := h
    obtain rfl : id = msgId := by simpa using hid
    cases h
    exact .inr ⟨msg, upds, mem_pendingMsgs.mp (List.mem_of_mem_head? hhead), hupds, rfl⟩

end Messages

end Alba.Albamgr
