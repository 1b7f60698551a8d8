import Alba.Albamgr.Outcome

/-! The tables that each request of the alba manager may change. -/

namespace Alba.Albamgr

open ProofKit List

variable {reply : Reply} {r : Request}

/-- The list changes rows of the given tables only. -/
def Within (ts : List Table) (us : List Update) : Prop := ∀ u ∈ us, ∀ t ∈ u.tables, t ∈ ts

section Within

variable {ts ts' : List Table} {us vs : List Update}

@[simp] theorem within_nil : Within ts [] := by simp [Within]

@[simp] theorem within_cons {u : Update} :
    Within ts (u :: us) ↔ (∀ t ∈ u.tables, t ∈ ts) ∧ Within ts us := by
  simp [Within]

@[simp] theorem within_append : Within ts (us ++ vs) ↔ Within ts us ∧ Within ts vs := by
  simp only [Within, mem_append]
  exact ⟨fun h => ⟨fun u hu => h u (.inl hu), fun u hu => h u (.inr hu)⟩,
    fun h u hu => hu.elim (h.1 u) (h.2 u)⟩

theorem within_flatten {l : List (List Update)} (h : ∀ us ∈ l, Within ts us) : Within ts l.flatten := by
  intro u hu
  obtain ⟨us, hus, hmem⟩ := mem_flatten.mp hu
  exact h us hus u hmem

theorem within_reverse (h : Within ts us) : Within ts us.reverse :=
  fun u hu => h u (mem_reverse.mp hu)

theorem Within.mono (h : Within ts us) (hts : ts ⊆ ts') : Within ts' us :=
  fun u hu t ht => hts (h u hu t ht)

theorem within_mapM {α : Type} {f : α → Except Failure (List Update)} {l : List α}
    {r : List (List Update)} (h : l.mapM f = .ok r) (hf : ∀ a us, f a = .ok us → Within ts us) :
    ∀ us ∈ r, Within ts us := by
  intro us hus
  obtain ⟨a, _, ha⟩ := (mapM_mem h).1 us hus
  exact hf a us ha

theorem Within.table {db db' : Db} (h : Within ts us) (hrun : us.foldlM Update.effect db = some db')
    {t : Table} (ht : t ∉ ts) : db'.table t = db.table t :=
  effects_table hrun fun u hu hmem => ht (h u hu t hmem)

theorem Within.get {db db' : Db} (h : Within ts us) (hrun : us.foldlM Update.effect db = some db')
    {t : Table} (ht : t ∉ ts) (key : t.Key) : db'.get t key = db.get t key :=
  Tables.get_congr (h.table hrun ht) key

end Within

def workTables : List Table := [.workNextId, .workItems, .jobName, .workCount]

def logTables (t : MsgLog) : List Table := [.nextMsg t, .msgs t]

def Request.tables : Request → List Table
  | .addNsmHost .. | .updateNsmHost .. => [.nsmHostInfo]
  | .addOsd .. | .updateOsd .. | .updateOsds .. | .markOsdClaimedByOther .. => [.osdInfo]
  | .decommissionOsd _ =>
    [.osdInfo, .decommissioning, .namespaceOsds] ++ workTables ++ logTables .nsmHost
  | .markOsdClaimed .. => [.osdInfo, .osdNextId, .osdLongId, .namespaceOsds] ++ logTables .osd
  | .createNamespace .. =>
    [.namespaceNextId, .namespaceInfo, .namespaceName, .namespaceOsds, .presetNamespaces, .propagation,
      .nsmHostCount] ++ workTables ++ logTables .nsmHost ++ logTables .osd
  | .deleteNamespace _ => [.nsmHostCount, .namespaceInfo, .propagation] ++ logTables .nsmHost
  | .recoverNamespace .. => [.namespaceInfo] ++ logTables .nsmHost
  | .markMsgDelivered .nsmHost _ _ | .markMsgsDelivered .nsmHost _ _ =>
    [.namespaceInfo, .namespaceName, .presetNamespaces, .namespaceOsds, .osdNamespaces] ++
      workTables ++ logTables .nsmHost
  | .markMsgDelivered .osd _ _ | .markMsgsDelivered .osd _ _ =>
    [.namespaceOsds, .osdNamespaces, .msgs .osd] ++ workTables ++ logTables .nsmHost
  | .addWork _ => workTables
  | .markWorkCompleted _ =>
    [.progress, .namespaceOsds, .osdNamespaces, .decommissioning, .osdInfo, .osdLongId, .msgs .osd] ++
      workTables
  | .createPreset .. => [.presets]
  | .deletePreset _ => [.presets, .propagation, .presetDefault]
  | .setDefaultPreset _ => [.presetDefault]
  | .addOsdsToPreset .. => [.presets, .namespaceOsds] ++ logTables .osd
  | .updatePreset .. => [.presets, .propagation] ++ workTables
  | .updatePresetPropagationState .. => [.propagation]
  | .tryGetLease .. => [.lease]
  | .updateProgress .. => [.progress, .jobName]
  | .purgeOsd _ =>
    [.osdInfo, .purging, .osdLongId, .decommissioning, .namespaceOsds, .msgs .osd] ++ workTables ++
      logTables .nsmHost
  | .bumpNextOsdId _ => [.osdNextId]

section Parts

variable {db : Db} {us : List Update} {ts : List Table} {osdId : OsdId}

theorem workUpdates_within (items : List Work) : Within workTables (workUpdates items) := by
  simp [workUpdates, workTables, Update.tables, Counter.table]

theorem linkUpdates_within (osdId : OsdId) (namespaceId : NamespaceId) (name : Bytes)
    (info : Namespace) :
    Within (.namespaceOsds :: logTables .osd) (linkUpdates osdId namespaceId name info) := by
  simp [linkUpdates, logTables, Update.tables]

theorem linkById_within {namespaceId : NamespaceId} (h : linkById db osdId namespaceId = .ok us) :
    Within (.namespaceOsds :: logTables .osd) us := by
  obtain ⟨name, info, _, ⟨_, rfl⟩ | ⟨_, _, rfl⟩⟩ := linkById_eq_ok h
  · exact within_nil
  · exact linkUpdates_within osdId namespaceId name info

theorem claimLinks_within {links : List (List Update)}
    (h : ((presetsWithAllOsds db).mapM fun presetName => do
      return flattenUnordered (← (listPresetNamespaces db presetName).mapM (linkById db osdId))) =
      .ok links) : Within (.namespaceOsds :: logTables .osd) (flattenUnordered links) := by
  refine within_reverse (within_flatten (within_mapM h fun presetName us hus => ?_))
  rw [bind_eq_ok] at hus
  obtain ⟨lists, hlists, hus⟩ := hus
  cases hus
  exact within_reverse (within_flatten (within_mapM hlists fun _ _ => linkById_within))

theorem presetLinks_within {presetName : Bytes} {osdIds : List OsdId} {links : List (List Update)}
    (h : (osdIds.mapM fun osdId => do
      return (← (listPresetNamespaces db presetName).mapM (linkById db osdId)).flatten) = .ok links) :
    Within (.namespaceOsds :: logTables .osd) links.flatten := by
  refine within_flatten (within_mapM h fun osdId us hus => ?_)
  rw [bind_eq_ok] at hus
  obtain ⟨lists, hlists, hus⟩ := hus
  cases hus
  exact within_flatten (within_mapM hlists fun _ _ => linkById_within)

theorem newLinks_within (name : Bytes) (namespaceId : NamespaceId) (osdIds : List OsdId) :
    Within (.namespaceOsds :: logTables .osd) (newLinks name namespaceId osdIds) := by
  refine within_reverse (within_flatten fun us hus => ?_)
  obtain ⟨osdId, _, rfl⟩ := mem_map.mp hus
  simp [logTables, Update.tables]

theorem unlinkMsgs_within {unlink : List (List Update)}
    (h : (listOsdNamespaces db osdId).mapM (unlinkMsg db osdId) = .ok unlink) :
    Within (logTables .nsmHost) unlink.reverse.flatten := by
  refine within_flatten fun us hus => within_mapM h (fun namespaceId us hus => ?_) us
    (mem_reverse.mp hus)
  obtain ⟨_, _, _, rfl⟩ := unlinkMsg_eq_ok hus
  simp [logTables, Update.tables]

theorem foldl_updateNamespaceLink_within {before after : LinkState}
    (namespaceIds : List NamespaceId) {acc : List Update} (hacc : Within [.namespaceOsds] acc) :
    Within [.namespaceOsds] (namespaceIds.foldl (fun acc namespaceId =>
      updateNamespaceLink namespaceId osdId before after ++ acc) acc) := by
  induction namespaceIds generalizing acc with
  | nil => exact hacc
  | cons id rest ih => exact ih (by simpa [updateNamespaceLink, Update.tables] using hacc)

theorem decommissionUpdates_within {unlink : List (List Update)}
    (h : (listOsdNamespaces db osdId).mapM (unlinkMsg db osdId) = .ok unlink) :
    Within ([.decommissioning, .namespaceOsds] ++ workTables ++ logTables .nsmHost)
      (decommissionUpdates osdId (listOsdNamespaces db osdId) unlink) := by
  simp only [decommissionUpdates, within_append]
  refine ⟨⟨⟨?_, ?_⟩, ?_⟩, ?_⟩
  · exact (workUpdates_within _).mono (by simp [workTables])
  · simp [Update.tables]
  · exact (unlinkMsgs_within h).mono (by simp [logTables])
  · exact (foldl_updateNamespaceLink_within _ within_nil).mono (by simp)

theorem decommissionOsd_within {longId : Bytes} (h : decommissionOsd db longId = .ok us) :
    Within (Request.decommissionOsd longId).tables us := by
  obtain ⟨osdId, osdInfo, unlink, _, _, hunlink, rfl⟩ := decommissionOsd_eq_ok h
  rw [within_append]
  refine ⟨(decommissionUpdates_within hunlink).mono ?_, by simp [Request.tables, Update.tables]⟩
  simp [Request.tables, workTables, logTables]

theorem deleteMsgs_within (osdId : OsdId) : Within [.msgs .osd] [.deleteMsgs osdId] := by
  simp [Update.tables]

theorem purgeUpdates_within (longId : Bytes) (osdId : OsdId) :
    Within [.osdInfo, .osdLongId, .msgs .osd] (purgeUpdates longId osdId) := by
  simp [purgeUpdates, Update.tables]

theorem purgeOsd_within {longId : Bytes} (h : purgeOsd db longId = .ok us) :
    Within (Request.purgeOsd longId).tables us := by
  cases purgeOsd_eq_ok h with
  | unused => simp [Request.tables, Update.tables]
  | already => exact within_nil
  | decommission osdId osdInfo us _ _ _ hus =>
    rw [within_cons]
    refine ⟨by simp [Request.tables, Update.tables], (decommissionOsd_within hus).mono ?_⟩
    intro t ht
    simp only [Request.tables, mem_append, mem_cons] at ht ⊢
    tauto
  | now osdId =>
    simp only [within_cons]
    refine ⟨by simp [Update.tables], by simp [Request.tables, Update.tables],
      (purgeUpdates_within longId osdId).mono ?_⟩
    simp [Request.tables]
  | later => simp [Request.tables, Update.tables]

theorem leaves_within {action : Action} {namespaceId : NamespaceId} {name : Bytes} {cnt : Int}
    {items : List (Work × Update)}
    (h : (intRange cnt).mapM (leafOf action namespaceId name cnt) = .ok items) :
    Within (.progress :: workTables) (workUpdates (items.map Prod.fst) ++ items.map Prod.snd) := by
  rw [within_append]
  refine ⟨(workUpdates_within _).mono (subset_cons_self _ _), fun u hu => ?_⟩
  obtain ⟨item, hitem, rfl⟩ := mem_map.mp hu
  obtain ⟨i, _, hi⟩ := (mapM_mem h).1 item hitem
  unfold leafOf at hi
  split at hi
  · cases hi
    simp [Update.tables]
  · cases hi
  · cases hi

theorem repaired_within (osdId : OsdId) (namespaceId : NamespaceId) (items : List Work) :
    Within ([.namespaceOsds, .osdNamespaces] ++ workTables) (workUpdates items ++
      [.set .namespaceOsds (namespaceId, osdId) none, .set .osdNamespaces (osdId, namespaceId) none]) := by
  rw [within_append]
  exact ⟨(workUpdates_within _).mono (subset_append_right _ _), by simp [Update.tables]⟩

theorem followUp_within {work : Work} (h : FollowUp db work us) :
    Within ([.progress, .namespaceOsds, .osdNamespaces, .decommissioning, .osdInfo, .osdLongId,
      .msgs .osd] ++ workTables) us := by
  cases h with
  | none => exact within_nil
  | leaves action namespaceId name cnt items hitems =>
    exact (leaves_within hitems).mono (by simp [workTables])
  | repaired osdId namespaceId =>
    exact (repaired_within osdId namespaceId _).mono (by simp [workTables])
  | decommissioned => simp [Update.tables]
  | purged osdId longId =>
    simp only [within_cons]
    exact ⟨by simp [Update.tables], by simp [Update.tables], (purgeUpdates_within longId osdId).mono
      (by simp)⟩

theorem cleanupUpdates_within (nsmHostId : Bytes) (namespaceId : NamespaceId)
    (osds : List (OsdId × LinkState)) : Within ([.namespaceOsds, .osdNamespaces] ++ workTables)
      (cleanupUpdates nsmHostId namespaceId osds) := by
  refine within_append.mpr ⟨(workUpdates_within _).mono (by simp [workTables]),
    within_flatten fun us hus => ?_⟩
  obtain ⟨e, _, rfl⟩ := mem_map.mp (mem_reverse.mp hus)
  rw [within_append]
  exact ⟨by simp [Update.tables], (workUpdates_within _).mono (by simp [workTables])⟩

theorem nsmDelivery_within {msg : NsmMessage} (h : NsmDelivery db msg us) :
    Within ([.namespaceInfo, .namespaceName, .presetNamespaces, .namespaceOsds, .osdNamespaces] ++
      workTables ++ logTables .nsmHost) us := by
  have hwork : ∀ items, Within ([.namespaceInfo, .namespaceName, .presetNamespaces, .namespaceOsds,
      .osdNamespaces] ++ workTables ++ logTables .nsmHost) (workUpdates items) := fun items =>
    (workUpdates_within items).mono fun t ht => by simp [ht]
  cases h with
  | none => exact within_nil
  | created => simp [updateNamespaceInfo, Update.tables]
  | deleted namespaceId name info =>
    simp only [within_append]
    refine ⟨⟨(cleanupUpdates_within _ _ _).mono ?_, by simp [Update.tables]⟩, by simp [Update.tables]⟩
    simp [workTables]
  | recovered => simp [logTables, Update.tables]
  | unlinked =>
    rw [within_append]
    exact ⟨hwork _, by simp [updateNamespaceLink, Update.tables]⟩

theorem osdDelivery_within {msg : OsdMessage} (h : OsdDelivery db osdId msg us) :
    Within ([.namespaceOsds, .osdNamespaces, .msgs .osd] ++ workTables ++ logTables .nsmHost) us := by
  cases h with
  | removed =>
    rw [within_append]
    exact ⟨by simp [Update.tables], (workUpdates_within _).mono fun t ht => by simp [ht]⟩
  | none => exact within_nil
  | added => simp [updateNamespaceLink, logTables, Update.tables]

theorem delivered_within {t : MsgLog} {dest : t.Dest} {msg : t.Msg} {id : MsgId}
    (h : updsForDeliveredMsg db t dest msg = .ok us) :
    Within (Request.markMsgDelivered t dest id).tables us := by
  cases t with
  | nsmHost => exact nsmDelivery_within (updsForNsmMsg_eq_ok h)
  | osd => exact osdDelivery_within (updsForOsdMsg_eq_ok h)

theorem msgs_mem_tables (t : MsgLog) (dest : t.Dest) (id : MsgId) :
    .msgs t ∈ (Request.markMsgDelivered t dest id).tables := by
  cases t <;> simp [Request.tables, logTables]

theorem updateOsds_within {updates : List (Bytes × OsdUpdate)} {acc : List Update}
    (hacc : Within [.osdInfo] acc)
    (h : updates.foldlM (fun acc u => makeUpdateOsdUpdates db u.1 u.2 acc) acc = .ok us) :
    Within [.osdInfo] us := by
  refine foldlM_invariant (P := fun _ us => Within [.osdInfo] us) (p := [])
    (fun _ acc u us hacc hu => ?_) hacc h
  obtain ⟨_, _, _, rfl⟩ := makeUpdateOsdUpdates_eq_ok hu
  simpa [Update.tables] using hacc

end Parts

theorem handleUpdate_within {db : Db} {us : List Update}
    (h : handleUpdate db r = .ok (reply, .updates us)) : Within r.tables us := by
  cases r with
  | markMsgsDelivered => cases h
  | updatePresetPropagationState name version namespaceIds =>
    cases h
    unfold updatePresetPropagationState
    split
    · exact within_nil
    · split
      · exact within_nil
      · simp [Request.tables, Update.tables]
  | addNsmHost =>
    obtain ⟨us, hus, h⟩ := map_eq_ok.mp h
    cases h
    obtain ⟨_, rfl⟩ := addNsmHost_eq_ok hus
    simp [Request.tables, Update.tables]
  | updateNsmHost =>
    obtain ⟨us, hus, h⟩ := map_eq_ok.mp h
    cases h
    obtain ⟨_, _, _, rfl⟩ := updateNsmHost_eq_ok hus
    simp [Request.tables, Update.tables]
  | addOsd =>
    obtain ⟨us, hus, h⟩ := map_eq_ok.mp h
    cases h
    obtain ⟨_, rfl⟩ := addOsd_eq_ok hus
    simp [Request.tables, Update.tables]
  | updateOsd =>
    obtain ⟨us, hus, h⟩ := map_eq_ok.mp h
    cases h
    obtain ⟨_, _, _, rfl⟩ := makeUpdateOsdUpdates_eq_ok hus
    simp [Request.tables, Update.tables]
  | updateOsds updates =>
    obtain ⟨us, hus, h⟩ := map_eq_ok.mp h
    cases h
    exact updateOsds_within within_nil hus
  | decommissionOsd longId =>
    obtain ⟨us, hus, h⟩ := map_eq_ok.mp h
    cases h
    exact decommissionOsd_within hus
  | markOsdClaimed longId now =>
    obtain ⟨⟨osdId, us⟩, hus, h⟩ := map_eq_ok.mp h
    cases h
    obtain ⟨_, links, _, _, hlinks, rfl⟩ := markOsdClaimed_eq_ok hus
    simp only [within_append]
    refine ⟨⟨by simp [Request.tables, Update.tables], fun u hu => ?_⟩, (claimLinks_within hlinks).mono ?_⟩
    · obtain ⟨_, _, rfl⟩ := mem_map.mp hu
      simp [Update.tables]
    · simp [Request.tables, logTables]
  | markOsdClaimedByOther =>
    obtain ⟨us, hus, h⟩ := map_eq_ok.mp h
    cases h
    obtain ⟨_, _, rfl⟩ := markOsdClaimedByOther_eq_ok hus
    simp [Request.tables, Update.tables]
  | createNamespace name nsmHostId presetO =>
    obtain ⟨⟨info, us⟩, hus, h⟩ := map_eq_ok.mp h
    cases h
    obtain ⟨presetName, preset, version, propagation, osdIds, _, _, _, hprop, _, _, rfl⟩ :=
      createNamespace_eq_ok hus
    obtain ⟨_, _, rfl⟩ := addToPropagation_eq_ok hprop
    simp only [within_append]
    refine ⟨⟨⟨⟨⟨⟨⟨?_, ?_⟩, ?_⟩, ?_⟩, ?_⟩, ?_⟩, ?_⟩, ?_⟩
    · simp [Request.tables, logTables, Update.tables]
    · simp [Request.tables, Update.tables]
    · simp [Request.tables, Update.tables]
    · exact (newLinks_within name _ osdIds).mono (by simp [Request.tables, workTables, logTables])
    · simp [Request.tables, Update.tables]
    · exact (workUpdates_within _).mono fun t ht => by simp [Request.tables, ht]
    · simp [Request.tables, Update.tables]
    · simp [Request.tables, Update.tables, Counter.table]
  | deleteNamespace name =>
    obtain ⟨⟨host, us⟩, hus, h⟩ := map_eq_ok.mp h
    cases h
    obtain ⟨info, _, _, _, rfl⟩ := deleteNamespace_eq_ok hus
    simp only [within_append, removeFromPropagation]
    refine ⟨⟨⟨?_, ?_⟩, ?_⟩, ?_⟩
    · simp [Request.tables, Update.tables, Counter.table]
    · simp [Request.tables, updateNamespaceInfo, Update.tables]
    · simp [Request.tables, logTables, Update.tables]
    · split
      · exact within_nil
      · simp [Request.tables, Update.tables]
  | recoverNamespace =>
    obtain ⟨us, hus, h⟩ := map_eq_ok.mp h
    cases h
    obtain ⟨_, _, _, _, _, _, _, _, rfl⟩ := recoverNamespace_eq_ok hus
    simp [Request.tables, updateNamespaceInfo, logTables, Update.tables]
  | markMsgDelivered t dest msgId =>
    obtain ⟨us, hus, h⟩ := map_eq_ok.mp h
    cases h
    obtain rfl | ⟨msg, upds, _, hupds, rfl⟩ := markMsgDelivered_eq_ok hus
    · exact within_nil
    · simp only [within_cons]
      refine ⟨by simp [Update.tables], ?_, delivered_within hupds⟩
      simpa [Update.tables] using msgs_mem_tables t dest msgId
  | addWork work =>
    obtain ⟨us, hus, h⟩ := map_eq_ok.mp h
    cases h
    rw [(addWorkItems_eq_ok hus).1]
    exact workUpdates_within work
  | markWorkCompleted id =>
    obtain ⟨us, hus, h⟩ := map_eq_ok.mp h
    cases h
    obtain ⟨upds, hupds, rfl⟩ := markWorkCompleted_eq_ok hus
    simp only [within_cons]
    refine ⟨by simp [Request.tables, workTables, Update.tables, Counter.table], by simp [Update.tables],
      by simp [Request.tables, workTables, Update.tables], ?_⟩
    obtain ⟨_, rfl⟩ | ⟨work, _, hwork⟩ := hupds
    · exact within_nil
    · exact followUp_within (followUps_eq_ok hwork)
  | createPreset =>
    obtain ⟨us, hus, h⟩ := map_eq_ok.mp h
    cases h
    obtain ⟨_, _, rfl⟩ := createPreset_eq_ok hus
    simp [Request.tables, Update.tables]
  | deletePreset =>
    obtain ⟨us, hus, h⟩ := map_eq_ok.mp h
    cases h
    obtain ⟨extra, rfl, ⟨_, rfl⟩ | ⟨_, rfl⟩⟩ := deletePreset_eq_ok hus <;>
      simp [Request.tables, Update.tables]
  | setDefaultPreset =>
    obtain ⟨us, hus, h⟩ := map_eq_ok.mp h
    cases h
    obtain ⟨_, _, rfl⟩ := setDefaultPreset_eq_ok hus
    simp [Request.tables, Update.tables]
  | addOsdsToPreset =>
    obtain ⟨us, hus, h⟩ := map_eq_ok.mp h
    cases h
    obtain ⟨_, _, _, links, _, _, hlinks, rfl⟩ := addOsdsToPreset_eq_ok hus
    rw [within_append]
    exact ⟨by simp [Request.tables, Update.tables], (presetLinks_within hlinks).mono
      (by simp [Request.tables, logTables])⟩
  | updatePreset =>
    obtain ⟨us, hus, h⟩ := map_eq_ok.mp h
    cases h
    obtain ⟨_, _, record, _, rfl, hrecord⟩ := updatePreset_eq_ok hus
    simp only [within_cons, within_append]
    refine ⟨by simp [Update.tables], by simp [Request.tables, Update.tables],
      (workUpdates_within _).mono (by simp [Request.tables, workTables]), by simp [Update.tables], ?_⟩
    obtain rfl | ⟨rfl, _⟩ := hrecord
    · simp [Request.tables, Update.tables]
    · exact within_nil
  | tryGetLease =>
    obtain ⟨us, hus, h⟩ := map_eq_ok.mp h
    cases h
    obtain ⟨_, rfl⟩ := tryGetLease_eq_ok hus
    simp [Request.tables, Update.tables]
  | updateProgress =>
    obtain ⟨us, hus, h⟩ := map_eq_ok.mp h
    cases h
    obtain ⟨_, extra, ⟨rfl, _⟩ | ⟨_, _, _, rfl⟩, rfl⟩ := updateProgress_eq_ok hus <;>
      simp [Request.tables, Update.tables]
  | purgeOsd longId =>
    obtain ⟨us, hus, h⟩ := map_eq_ok.mp h
    cases h
    exact purgeOsd_within hus
  | bumpNextOsdId =>
    obtain ⟨us, hus, h⟩ := map_eq_ok.mp h
    cases h
    obtain ⟨_, rfl⟩ := bumpNextOsdId_eq_ok hus
    simp [Request.tables, Update.tables]

theorem markMsgsDelivered_table {db db' : Db} {t : MsgLog} {dest : t.Dest} {msgId : MsgId}
    (h : markMsgsDelivered db t dest msgId = some db') {table : Table}
    (ht : table ∉ (Request.markMsgsDelivered t dest msgId).tables) : db'.table table = db.table table := by
  have ht : table ∉ (Request.markMsgDelivered t dest msgId).tables := by
    cases t <;> exact ht
  refine foldlM_keeps (f := fun db : Db => db.table table) (fun e _ db db' hstep => ?_) h
  unfold deliverOne at hstep
  split at hstep
  · cases hstep
  · rename_i upds hupds
    rw [(delivered_within hupds).table (effects_of_applyNow hstep) ht]
    exact Tables.put_table _ _ fun heq => ht (heq ▸ msgs_mem_tables t dest msgId)

section

variable {db₀ db db' : Db} {plan : Plan} {t : Table} (h : handleUpdate db₀ r = .ok (reply, plan))
  (happly : plan.apply db = some db') (ht : t ∉ r.tables)
include h happly ht

theorem table_of_apply : db'.table t = db.table t := by
  cases plan with
  | updates us =>
    exact (handleUpdate_within h).table (effects_of_applyAll happly) ht
  | markMsgs t' dest msgId =>
    cases r with
    | markMsgsDelivered t'' dest' msgId' =>
      cases h
      exact markMsgsDelivered_table happly ht
    | updatePresetPropagationState => cases h
    | _ =>
      obtain ⟨_, _, h⟩ := map_eq_ok.mp h
      cases h

theorem get_of_apply (key : t.Key) : db'.get t key = db.get t key :=
  Tables.get_congr (table_of_apply h happly ht) key

end

/-! ### Leases -/

/-- The numbers of the lease that were granted, the last one first. -/
def granted (name : Bytes) (applied : List Request) : List Int :=
  applied.filterMap fun
    | .tryGetLease name' counter => if name' = name then some counter else none
    | _ => none

/-- The numbers below the current one were granted, each of them once and in their order. -/
def GrantedInTurn (name : Bytes) (db : Db) (applied : List Request) : Prop :=
  ∃ n : Nat, getLease db name = n ∧ granted name applied = ((range n).map Int.ofNat).reverse

theorem GrantedInTurn.apply {name : Bytes} {db₀ db db' : Db} {applied : List Request} {plan : Plan}
    (h : GrantedInTurn name db applied) (hplan : handleUpdate db₀ r = .ok (reply, plan))
    (happly : plan.apply db = some db') : GrantedInTurn name db' (r :: applied) := by
  obtain ⟨n, hn, hgranted⟩ := h
  by_cases ht : .lease ∈ r.tables
  · obtain ⟨name', counter, rfl⟩ : ∃ name' counter, r = .tryGetLease name' counter := by
      unfold Request.tables at ht
      split at ht <;> simp_all [workTables, logTables]
    obtain ⟨us, hus, h⟩ := map_eq_ok.mp hplan
    obtain ⟨hcounter, rfl⟩ := tryGetLease_eq_ok hus
    cases h
    simp only [Plan.apply, applyAll_assert_cons, applyAll_set_cons, applyAll_nil] at happly
    obtain ⟨hsame, rfl⟩ := happly
    by_cases hname : name' = name
    · subst hname
      have hnow : n = counter := by rw [← hn, getLease, hsame, ← hcounter, getLease]
      exact ⟨n + 1, by simp [getLease, hnow], by simpa [granted, range_succ, hnow] using hgranted⟩
    · exact ⟨n, by rwa [getLease, Tables.get_put_of_ne _ hname], by simpa [granted, hname] using hgranted⟩
  · refine ⟨n, by rwa [getLease, get_of_apply hplan happly ht], ?_⟩
    cases r with
    | tryGetLease => simp [Request.tables] at ht
    | _ => exact hgranted

end Alba.Albamgr
