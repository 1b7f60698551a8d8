import Alba.Albamgr.Footprint

/-! The osds that the alba manager knows: who has claimed them, and the ids that it hands out. The
database is seen as an `OsdView`, every request of the manager makes one of a few steps on it, and the
properties of the ids are proved of these steps. -/

namespace Alba.Albamgr

open ProofKit

/-- Which osds are known and who has claimed them, the osds that have an id, and the next id. -/
structure OsdView where
  claim : Bytes → Option ClaimInfo
  longId : OsdId → Option Bytes
  next : OsdId

/-- One change of the view, with the id that is handed out. A client that purges an osd may have looked
up the long id in an earlier view `v₀`. -/
inductive OsdStep (v₀ v : OsdView) : Option OsdId → OsdView → Prop
  | keep : OsdStep v₀ v none v
  | register (l : Bytes) (unknown : v.claim l = none) :
      OsdStep v₀ v none { v with claim := Function.update v.claim l (some .available) }
  | claim (l : Bytes) (available : v.claim l = some .available) (free : v.longId v.next = none) :
      OsdStep v₀ v (some v.next)
        { claim := Function.update v.claim l (some (.thisAlba v.next))
          longId := Function.update v.longId v.next (some l)
          next := nextId v.next }
  | claimOther (l albaId : Bytes) (available : v.claim l = some .available) :
      OsdStep v₀ v none { v with claim := Function.update v.claim l (some (.anotherAlba albaId)) }
  | forget (l : Bytes) (c : ClaimInfo) (known : v.claim l = some c) (unused : ∀ o, c ≠ .thisAlba o) :
      OsdStep v₀ v none { v with claim := Function.update v.claim l none }
  | purge (l : Bytes) (o : OsdId) (found : v.claim l = some (.thisAlba o) ∨ v₀.longId o = some l)
      (known : (v.claim l).isSome) (mapped : (v.longId o).isSome) :
      OsdStep v₀ v none { v with
        claim := Function.update v.claim l none
        longId := Function.update v.longId o none }
  | bump (n : OsdId) (above : v.next.val ≤ n.val) : OsdStep v₀ v none { v with next := n }

namespace OsdView

/-- The osds with an id are exactly those that this alba has claimed. -/
def Claimed (v : OsdView) : Prop := ∀ o l, v.longId o = some l ↔ v.claim l = some (.thisAlba o)

/-- Moreover, the ids of the osds have been handed out. -/
structure Consistent (v : OsdView) : Prop where
  claimed : v.Claimed
  below : ∀ o l, v.longId o = some l → o.val < v.next.val

/-- An osd that has an id in the first view has the same or none in the second one. -/
def Keeps (v v' : OsdView) : Prop :=
  ∀ o l, v.longId o = some l → v'.longId o = some l ∨ v'.longId o = none

/-- The next id does not decrease, and an id that has been handed out keeps its osd or loses it. -/
structure Before (v v' : OsdView) : Prop where
  next : v.next.val ≤ v'.next.val
  longId : ∀ o, o.val < v.next.val → v'.longId o = v.longId o ∨ v'.longId o = none

theorem Before.refl (v : OsdView) : v.Before v := ⟨le_refl _, fun _ _ => .inl rfl⟩

theorem Before.trans {v v' v'' : OsdView} (h : v.Before v') (h' : v'.Before v'') : v.Before v'' := by
  refine ⟨h.next.trans h'.next, fun o ho => ?_⟩
  rcases h'.longId o (ho.trans_le h.next) with heq | hnone
  · rw [heq]
    exact h.longId o ho
  · exact .inr hnone

/-- The ids that were handed out are below the next one, and no id was handed out twice. -/
def HandedOut (v : OsdView) (ids : List OsdId) : Prop := (∀ o ∈ ids, o.val < v.next.val) ∧ ids.Nodup

end OsdView

section Steps

variable {v₀ v v' : OsdView} {id : Option OsdId}

/-- An id is only handed out while there is a next one. -/
def Spare (v : OsdView) (id : Option OsdId) : Prop := id.isSome → v.next.val < 2 ^ 63 - 1

theorem OsdStep.next_le (h : OsdStep v₀ v id v') (hspare : Spare v id) :
    v.next.val ≤ v'.next.val ∧ ∀ o ∈ id, v.next.val = o.val ∧ o.val < v'.next.val := by
  cases h with
  | claim =>
    have hval := nextId_val (hspare rfl)
    refine ⟨by simp only [hval]; omega, fun o ho => ?_⟩
    cases ho
    exact ⟨rfl, by simp only [hval]; omega⟩
  | bump n above => exact ⟨above, nofun⟩
  | keep | register | claimOther | forget | purge => exact ⟨le_refl _, nofun⟩

theorem OsdStep.handedOut (h : OsdStep v₀ v id v') (hspare : Spare v id) {ids : List OsdId}
    (hids : v.HandedOut ids) : v'.HandedOut (id.toList ++ ids) := by
  obtain ⟨hnext, hnew⟩ := h.next_le hspare
  have hold : ∀ o ∈ ids, o.val < v'.next.val := fun o ho => (hids.1 o ho).trans_le hnext
  cases id with
  | none => exact ⟨hold, hids.2⟩
  | some o =>
    obtain ⟨heq, hlt⟩ := hnew o rfl
    refine ⟨List.forall_mem_cons.mpr ⟨hlt, hold⟩, List.nodup_cons.mpr ⟨fun hmem => ?_, hids.2⟩⟩
    have := hids.1 o hmem
    omega

theorem OsdView.Before.keeps (h : v.Before v') (hv : v.Consistent) : v.Keeps v' := by
  intro o l hl
  rw [← hl]
  exact h.longId o (hv.below o l hl)

theorem purge_claimed {l : Bytes} {o : OsdId} (hkeeps : v₀.Keeps v) (hv : v.Claimed)
    (found : v.claim l = some (.thisAlba o) ∨ v₀.longId o = some l)
    (mapped : (v.longId o).isSome) : v.longId o = some l := by
  rcases found with hclaim | hread
  · exact (hv o l).mpr hclaim
  · rcases hkeeps o l hread with heq | hnone
    · exact heq
    · rw [hnone] at mapped
      cases mapped

theorem OsdView.Claimed.replace (hv : v.Claimed) {l : Bytes} {c : Option ClaimInfo}
    (hold : ∀ o, v.claim l ≠ some (.thisAlba o)) (hnew : ∀ o, c ≠ some (.thisAlba o)) :
    OsdView.Claimed { v with claim := Function.update v.claim l c } := by
  intro o l'
  rw [hv]
  by_cases hl : l' = l
  · subst hl
    simp [hold, hnew]
  · simp [hl]

theorem OsdStep.claimed (h : OsdStep v₀ v id v') (hkeeps : v₀.Keeps v) (hv : v.Claimed) :
    v'.Claimed := by
  cases h with
  | keep | bump => exact hv
  | register l unknown => exact hv.replace (by simp [unknown]) (by simp)
  | claimOther l albaId available => exact hv.replace (by simp [available]) (by simp)
  | forget l c known unused => exact hv.replace (by simpa [known] using unused) (by simp)
  | claim l available free =>
    intro o l'
    simp only [Function.update_apply]
    by_cases ho : o = v.next
    · by_cases hl : l' = l
      · simp [ho, hl]
      · have hnone : v.claim l' ≠ some (.thisAlba v.next) := by
          rw [Ne, ← hv, free]
          nofun
        simp [ho, Ne.symm hl, hl, hnone]
    · by_cases hl : l' = l
      · have hnone : v.longId o ≠ some l := by
          rw [Ne, hv, available]
          nofun
        simp [ho, Ne.symm ho, hl, hnone]
      · simp only [ho, hl, if_false]
        exact hv o l'
  | purge l o found known mapped =>
    have hl := purge_claimed hkeeps hv found mapped
    intro o' l'
    simp only [Function.update_apply]
    by_cases ho : o' = o
    · by_cases heq : l' = l
      · simp [ho, heq]
      · have hne : v.claim l' ≠ some (.thisAlba o) := by
          rw [Ne, ← hv, hl]
          exact fun h => heq (Option.some.inj h).symm
        simp [ho, heq, hne]
    · by_cases heq : l' = l
      · have hne : v.longId o' ≠ some l := by
          rw [Ne, hv, (hv o l).mp hl]
          intro h
          cases h
          exact ho rfl
        simp [ho, heq, hne]
      · simp only [ho, heq, if_false]
        exact hv o' l'

theorem OsdStep.below (h : OsdStep v₀ v id v') (hspare : Spare v id) (hv : v.Consistent) :
    ∀ o l, v'.longId o = some l → o.val < v'.next.val := by
  have hnext := h.next_le hspare
  have hbelow := fun o l hl => (hv.below o l hl).trans_le hnext.1
  intro o l hl
  cases h with
  | keep | register | claimOther | forget | bump => exact hbelow o l hl
  | claim l' =>
    simp only [Function.update_apply] at hl
    split at hl
    · rename_i ho
      subst ho
      exact (hnext.2 v.next rfl).2
    · exact hbelow o l hl
  | purge l' o' =>
    simp only [Function.update_apply] at hl
    split at hl
    · cases hl
    · exact hbelow o l hl

theorem OsdStep.before (h : OsdStep v₀ v id v') (hspare : Spare v id) : v.Before v' := by
  refine ⟨(h.next_le hspare).1, fun o ho => ?_⟩
  cases h with
  | claim l =>
    refine .inl (Function.update_of_ne (fun heq => ?_) _ _)
    rw [heq] at ho
    exact lt_irrefl _ ho
  | purge l o' =>
    by_cases heq : o = o'
    · subst heq
      exact .inr (Function.update_self ..)
    · exact .inl (Function.update_of_ne heq _ _)
  | keep | register | claimOther | forget | bump => exact .inl rfl

end Steps

section Refinement

def claimOf (db : Db) (longId : Bytes) : Option ClaimInfo := (db.get .osdInfo longId).map Prod.fst

def osdView (db : Db) : OsdView where
  claim := claimOf db
  longId := db.get .osdLongId
  next := osdNextId db

def Reply.handedOut : Reply → Option OsdId
  | osdId id => some id
  | _ => none

variable {db db' : Db} {l : Bytes} {us : List Update} {snapshot : Db} {c : ClaimInfo}

theorem claimOf_eq_some : claimOf db l = some c ↔ ∃ info, db.get .osdInfo l = some (c, info) := by
  simp [claimOf]

theorem claimOf_of_get {info : OsdInfo} (h : db.get .osdInfo l = some (c, info)) :
    (osdView db).claim l = some c :=
  claimOf_eq_some.mpr ⟨info, h⟩

theorem osdView_congr (hinfo : db'.table .osdInfo = db.table .osdInfo)
    (hlong : db'.table .osdLongId = db.table .osdLongId)
    (hnext : db'.table .osdNextId = db.table .osdNextId) : osdView db' = osdView db := by
  simp [osdView, claimOf, osdNextId, Tables.get_congr hinfo, Tables.get_congr hlong,
    Tables.get_congr hnext, funext_iff]

theorem osdView_put {t : Table} {key : t.Key} {v : Option t.Val}
    (ht : t ∉ [Table.osdInfo, .osdLongId, .osdNextId]) : osdView (db.put t key v) = osdView db := by
  simp only [List.mem_cons, List.not_mem_nil, or_false, not_or] at ht
  exact osdView_congr (Tables.put_table _ _ (Ne.symm ht.1)) (Tables.put_table _ _ (Ne.symm ht.2.1))
    (Tables.put_table _ _ (Ne.symm ht.2.2))

theorem osdView_putInfo (db : Db) (l : Bytes) (v : Option (ClaimInfo × OsdInfo)) :
    osdView (db.put .osdInfo l v) =
      { osdView db with claim := Function.update (osdView db).claim l (v.map Prod.fst) } := by
  have hclaim : claimOf (db.put .osdInfo l v) = Function.update (claimOf db) l (v.map Prod.fst) := by
    funext l'
    rw [claimOf, Tables.get_put, Function.update_apply]
    by_cases hl : l = l'
    · simp [hl]
    · simp [hl, Ne.symm hl, claimOf]
  simp [osdView, hclaim, osdNextId, funext_iff]

theorem osdView_putLongId (db : Db) (o : OsdId) (v : Option Bytes) :
    osdView (db.put .osdLongId o v) =
      { osdView db with longId := Function.update (osdView db).longId o v } := by
  have hlong : (db.put .osdLongId o v).get .osdLongId = Function.update (db.get .osdLongId) o v := by
    funext o'
    rw [Tables.get_put, Function.update_apply]
    simp only [eq_comm]
  simp [osdView, hlong, osdNextId, claimOf, funext_iff]

theorem osdView_putNextId (db : Db) (n : OsdId) :
    osdView (db.put .osdNextId () (some n)) = { osdView db with next := n } := by
  simp [osdView, claimOf, osdNextId, funext_iff]

theorem osdView_putInfo_same {info : OsdInfo} (h : db.get .osdInfo l = some (c, info))
    (info' : OsdInfo) : osdView (db.put .osdInfo l (some (c, info'))) = osdView db := by
  rw [osdView_putInfo, Option.map_some, ← claimOf_of_get h, Function.update_eq_self]

theorem Within.osdView {ts : List Table} (h : Within ts us) (hrun : applyAll db us = some db')
    (hts : ∀ t ∈ [Table.osdInfo, .osdLongId, .osdNextId], t ∉ ts) : osdView db' = osdView db :=
  osdView_congr (h.table (effects_of_applyAll hrun) (hts _ (by simp)))
    (h.table (effects_of_applyAll hrun) (hts _ (by simp)))
    (h.table (effects_of_applyAll hrun) (hts _ (by simp)))

theorem osdView_updateOsds {updates : List (Bytes × OsdUpdate)} {acc us : List Update}
    (h : updates.foldlM (fun acc u => makeUpdateOsdUpdates snapshot u.1 u.2 acc) acc = .ok us)
    (hacc : ∀ db db', applyAll db acc = some db' → osdView db' = osdView db)
    (hrun : applyAll db us = some db') : osdView db' = osdView db := by
  refine foldlM_invariant (p := []) (P := fun _ us => ∀ db db', applyAll db us = some db' →
    osdView db' = osdView db) (fun _ acc u us ih hu db db' hrun => ?_) hacc h db db' hrun
  obtain ⟨c, info, _, rfl⟩ := makeUpdateOsdUpdates_eq_ok hu
  rw [applyAll_assert_cons, applyAll_set_cons] at hrun
  rw [ih _ _ hrun.2, osdView_putInfo_same hrun.1]

theorem osdView_decommissionOsd (h : decommissionOsd snapshot l = .ok us)
    (hrun : applyAll db us = some db') : osdView db' = osdView db := by
  obtain ⟨o, info, unlink, _, _, hunlink, rfl⟩ := decommissionOsd_eq_ok h
  obtain ⟨mid, hmid, hlast⟩ := applyAll_append.mp hrun
  have hframe : osdView mid = osdView db :=
    (decommissionUpdates_within hunlink).osdView hmid (by simp [workTables, logTables])
  rw [applyAll_assert_cons, applyAll_set_cons, applyAll_nil] at hlast
  rw [← hlast.2, osdView_putInfo_same hlast.1, hframe]

theorem purgeUpdates_step {v₀ : OsdView} {o : OsdId} (hrun : applyAll db (purgeUpdates l o) = some db')
    (hfound : (osdView db).claim l = some (.thisAlba o) ∨ v₀.longId o = some l) :
    OsdStep v₀ (osdView db) none (osdView db') := by
  simp only [purgeUpdates, applyAll_delete_cons, applyAll_deleteMsgs_cons, applyAll_nil] at hrun
  obtain ⟨hknown, hmapped, rfl⟩ := hrun
  have hframe : osdView (deleteMsgs ((db.put .osdInfo l none).put .osdLongId o none) o) =
      osdView ((db.put .osdInfo l none).put .osdLongId o none) :=
    (deleteMsgs_within o).osdView rfl (by simp)
  rw [hframe, osdView_putLongId, osdView_putInfo]
  refine .purge l o hfound ?_ ?_
  · simpa [Albamgr.osdView, claimOf] using hknown
  · simpa [Albamgr.osdView] using hmapped

theorem followUp_step {work : Work} (h : FollowUp snapshot work us) (hrun : applyAll db us = some db') :
    OsdStep (osdView snapshot) (osdView db) none (osdView db') := by
  have keep : osdView db' = osdView db → OsdStep (osdView snapshot) (osdView db) none (osdView db') :=
    fun heq => heq ▸ .keep
  cases h with
  | none =>
    cases applyAll_nil.mp hrun
    exact .keep
  | leaves _ _ _ _ items hitems =>
    exact keep ((leaves_within hitems).osdView hrun (by simp [workTables]))
  | repaired osdId namespaceId =>
    exact keep ((repaired_within osdId namespaceId _).osdView hrun (by simp [workTables]))
  | decommissioned osdId =>
    rw [applyAll_set_cons, applyAll_nil] at hrun
    subst hrun
    exact keep (osdView_put (by simp))
  | purged osdId longId _ hmapped =>
    rw [applyAll_assert_cons, applyAll_set_cons] at hrun
    have hpurge : OsdStep (osdView snapshot) _ none _ := purgeUpdates_step hrun.2 (.inr hmapped)
    rwa [osdView_put (by simp)] at hpurge

theorem markWorkCompleted_step {id : WorkId} (h : markWorkCompleted snapshot id = .ok us)
    (hrun : applyAll db us = some db') :
    OsdStep (osdView snapshot) (osdView db) none (osdView db') := by
  obtain ⟨upds, hupds, rfl⟩ := markWorkCompleted_eq_ok h
  simp only [applyAll_plusEq_cons, applyAll_assertExists_cons, applyAll_delete_cons, plusEq,
    Counter.put] at hrun
  obtain ⟨_, _, hrun⟩ := hrun
  obtain ⟨_, rfl⟩ | ⟨work, _, hwork⟩ := hupds
  · rw [← applyAll_nil.mp hrun, osdView_put (by simp), osdView_put (by simp)]
    exact .keep
  · have hstep := followUp_step (followUps_eq_ok hwork) hrun
    rwa [osdView_put (by simp), osdView_put (by simp)] at hstep

theorem handedOut_of_handleUpdate {r : Request} {reply : Reply} {plan : Plan}
    (h : handleUpdate db r = .ok (reply, plan)) (hr : ∀ l now, r ≠ .markOsdClaimed l now) :
    reply.handedOut = none := by
  cases r with
  | markOsdClaimed l now => exact absurd rfl (hr l now)
  | markMsgsDelivered | updatePresetPropagationState =>
    cases h
    rfl
  | _ =>
    obtain ⟨_, _, h⟩ := map_eq_ok.mp h
    cases h
    rfl

theorem markOsdClaimed_step {v₀ : OsdView} {now : Timestamp} {o : OsdId}
    (h : markOsdClaimed snapshot l now = .ok (o, us)) (hrun : applyAll db us = some db') :
    OsdStep v₀ (osdView db) (some o) (osdView db') := by
  obtain ⟨info, links, _, ho, hlinks, rfl⟩ := markOsdClaimed_eq_ok h
  rw [List.append_assoc] at hrun
  obtain ⟨mid, hclaim, hrest⟩ := applyAll_append.mp hrun
  have hframe : osdView db' = osdView mid := by
    have hwithin : Within (.namespaceOsds :: logTables .osd) (((presetsWithAllOsds snapshot).map
        fun presetName => .assertRange presetName (listPresetNamespaces snapshot presetName)) ++
        flattenUnordered links) := by
      refine within_append.mpr ⟨fun u hu => ?_, claimLinks_within hlinks⟩
      obtain ⟨_, _, rfl⟩ := List.mem_map.mp hu
      simp [Update.tables]
    exact hwithin.osdView hrest (by simp [logTables])
  simp only [applyAll_assert_cons, applyAll_set_cons, applyAll_nil] at hclaim
  obtain ⟨havailable, hnext, hfree, rfl⟩ := hclaim
  obtain rfl : o = osdNextId db := by
    rw [Tables.get_put_table _ _ _ (by simp)] at hnext
    rw [ho, osdNextId, osdNextId, hnext]
  rw [hframe, osdView_putLongId, osdView_putNextId, osdView_putInfo]
  refine .claim l (claimOf_of_get havailable) ?_
  simpa [Albamgr.osdView] using hfree

theorem osdStep_of_apply {r : Request} {c : Computed}
    (h : handleUpdate c.snapshot r = .ok (c.reply, c.plan)) (happly : c.plan.apply db = some db') :
    OsdStep (osdView c.snapshot) (osdView db) c.reply.handedOut (osdView db') := by
  by_cases hr : ∃ l now, r = .markOsdClaimed l now
  · obtain ⟨l, now, rfl⟩ := hr
    obtain ⟨⟨o, us⟩, hus, hplan⟩ := map_eq_ok.mp h
    rw [← (Prod.mk.inj hplan).1]
    rw [← (Prod.mk.inj hplan).2] at happly
    exact markOsdClaimed_step hus happly
  rw [handedOut_of_handleUpdate h fun l now heq => hr ⟨l, now, heq⟩]
  have keep : osdView db' = osdView db → OsdStep (osdView c.snapshot) (osdView db) none (osdView db') :=
    fun heq => heq ▸ .keep
  cases r with
  | markOsdClaimed l now => exact absurd ⟨l, now, rfl⟩ hr
  | addOsd osd =>
    obtain ⟨us, hus, hplan⟩ := map_eq_ok.mp h
    rw [← (Prod.mk.inj hplan).2] at happly
    obtain ⟨_, rfl⟩ := addOsd_eq_ok hus
    simp only [Plan.apply, applyAll_assert_cons, applyAll_set_cons, applyAll_nil] at happly
    obtain ⟨hnone, rfl⟩ := happly
    rw [osdView_putInfo]
    exact .register osd.longId (by simp [Albamgr.osdView, claimOf, hnone])
  | updateOsd l changes =>
    obtain ⟨us, hus, hplan⟩ := map_eq_ok.mp h
    rw [← (Prod.mk.inj hplan).2] at happly
    obtain ⟨claim, info, _, rfl⟩ := makeUpdateOsdUpdates_eq_ok hus
    simp only [Plan.apply, applyAll_assert_cons, applyAll_set_cons, applyAll_nil] at happly
    obtain ⟨hinfo, rfl⟩ := happly
    exact keep (osdView_putInfo_same hinfo _)
  | updateOsds updates =>
    obtain ⟨us, hus, hplan⟩ := map_eq_ok.mp h
    rw [← (Prod.mk.inj hplan).2] at happly
    refine keep (osdView_updateOsds hus (fun db db' hnil => ?_) happly)
    rw [applyAll_nil.mp hnil]
  | decommissionOsd l =>
    obtain ⟨us, hus, hplan⟩ := map_eq_ok.mp h
    rw [← (Prod.mk.inj hplan).2] at happly
    exact keep (osdView_decommissionOsd hus happly)
  | markOsdClaimedByOther l albaId =>
    obtain ⟨us, hus, hplan⟩ := map_eq_ok.mp h
    rw [← (Prod.mk.inj hplan).2] at happly
    obtain ⟨info, _, rfl⟩ := markOsdClaimedByOther_eq_ok hus
    simp only [Plan.apply, applyAll_assert_cons, applyAll_set_cons, applyAll_nil] at happly
    obtain ⟨hinfo, rfl⟩ := happly
    rw [osdView_putInfo]
    exact .claimOther l albaId (claimOf_of_get hinfo)
  | markWorkCompleted id =>
    obtain ⟨us, hus, hplan⟩ := map_eq_ok.mp h
    rw [← (Prod.mk.inj hplan).2] at happly
    exact markWorkCompleted_step hus happly
  | purgeOsd l =>
    obtain ⟨us, hus, hplan⟩ := map_eq_ok.mp h
    rw [← (Prod.mk.inj hplan).2] at happly
    cases purgeOsd_eq_ok hus with
    | unused claim info _ hclaim =>
      simp only [Plan.apply, applyAll_assert_cons, applyAll_delete_cons, applyAll_nil] at happly
      obtain ⟨hinfo, _, rfl⟩ := happly
      rw [osdView_putInfo]
      exact .forget l claim (claimOf_of_get hinfo) hclaim
    | already =>
      cases applyAll_nil.mp happly
      exact .keep
    | decommission o info us _ _ _ hdec =>
      rw [Plan.apply, applyAll_set_cons] at happly
      exact keep ((osdView_decommissionOsd hdec happly).trans (osdView_put (by simp)))
    | now o info =>
      simp only [Plan.apply, applyAll_assert_cons, applyAll_set_cons] at happly
      have hframe : osdView (db.put .purging o (some ())) = osdView db := osdView_put (by simp)
      have hpurge : OsdStep (osdView c.snapshot) _ none _ := purgeUpdates_step happly.2 (.inl (by
        rw [hframe]
        exact claimOf_of_get happly.1))
      rwa [hframe] at hpurge
    | later o info =>
      simp only [Plan.apply, applyAll_assert_cons, applyAll_set_cons, applyAll_nil] at happly
      obtain ⟨_, _, rfl⟩ := happly
      exact keep (osdView_put (by simp))
  | bumpNextOsdId n =>
    obtain ⟨us, hus, hplan⟩ := map_eq_ok.mp h
    rw [← (Prod.mk.inj hplan).2] at happly
    obtain ⟨hle, rfl⟩ := bumpNextOsdId_eq_ok hus
    simp only [Plan.apply, applyAll_assert_cons, applyAll_set_cons, applyAll_nil] at happly
    obtain ⟨hnext, rfl⟩ := happly
    rw [osdView_putNextId]
    refine .bump n ?_
    rwa [osdNextId, ← hnext] at hle
  | markMsgDelivered t => 
    refine keep (osdView_congr ?_ ?_ ?_) <;>
      exact table_of_apply h happly (by cases t <;> simp [Request.tables, workTables, logTables])
  | markMsgsDelivered t =>
    refine keep (osdView_congr ?_ ?_ ?_) <;>
      exact table_of_apply h happly (by cases t <;> simp [Request.tables, workTables, logTables])
  | _ =>
    refine keep (osdView_congr ?_ ?_ ?_) <;>
      exact table_of_apply h happly (by simp [Request.tables, workTables, logTables])

end Refinement

section Ids

/-- The osd ids that were handed out, the last one first. -/
def Server.handedOut (s : Server) : List OsdId := s.replies.filterMap Reply.handedOut

/-- An osd is only claimed while there is an id after the next one. -/
def IdsLeft (db : Db) (r : Request) (_ : Computed) : Prop :=
  match r with
  | .markOsdClaimed _ _ => (osdNextId db).val < 2 ^ 63 - 1
  | _ => True

instance (db : Db) (r : Request) (c : Computed) : Decidable (IdsLeft db r c) := by
  unfold IdsLeft
  split <;> infer_instance

theorem spare_of_idsLeft {r : Request} {c : Computed} {db : Db}
    (h : handleUpdate c.snapshot r = .ok (c.reply, c.plan)) (hleft : IdsLeft db r c) :
    Spare (osdView db) c.reply.handedOut := by
  intro hsome
  by_cases hr : ∃ l now, r = .markOsdClaimed l now
  · obtain ⟨l, now, rfl⟩ := hr
    exact hleft
  · rw [handedOut_of_handleUpdate h fun l now heq => hr ⟨l, now, heq⟩] at hsome
    cases hsome

theorem osdView_initial (albaId : Bytes) : osdView (initial albaId) =
    { claim := fun _ => none, longId := fun _ => none, next := 0 } := by
  simp only [initial, osdView_put (t := .albaId) (by simp), osdView_put (t := .presetDefault) (by simp),
    osdView_put (t := .presets) (by simp), osdView_put (t := .workCount) (by simp),
    osdView_put (t := .workItems) (by simp), osdView_put (t := .workNextId) (by simp),
    osdView_put (t := .propagation) (by simp)]
  simp [osdView, claimOf, osdNextId, get_empty, funext_iff]

theorem consistent_initial (albaId : Bytes) : (osdView (initial albaId)).Consistent := by
  rw [osdView_initial]
  exact ⟨by simp [OsdView.Claimed], by simp⟩

/-- The osds and the ids that were handed out are as they should be. -/
def IdsValid (s : Server) : Prop := (osdView s.db).Consistent ∧ (osdView s.db).HandedOut s.handedOut

theorem idsValid_step {s₀ s s' : Server} {r : Request} {c : Computed} (h₀ : IdsValid s₀)
    (hsnapshot : c.snapshot = s₀.db) (h : handleUpdate c.snapshot r = .ok (c.reply, c.plan))
    (hbefore : (osdView s₀.db).Before (osdView s.db)) (hs : IdsValid s) (hleft : IdsLeft s.db r c)
    (hdb : c.plan.apply s.db = some s'.db) (hreplies : s'.replies = c.reply :: s.replies) :
    IdsValid s' ∧ (osdView s.db).Before (osdView s'.db) := by
  have hstep := osdStep_of_apply h hdb
  have hspare := spare_of_idsLeft h hleft
  rw [hsnapshot] at hstep
  refine ⟨⟨⟨hstep.claimed (hbefore.keeps h₀.1) hs.1.claimed, hstep.below hspare hs.1⟩, ?_⟩,
    hstep.before hspare⟩
  have hids := hstep.handedOut hspare hs.2
  rw [Server.handedOut, hreplies]
  cases hreply : c.reply.handedOut with
  | none =>
    rw [List.filterMap_cons_none hreply]
    rwa [hreply] at hids
  | some o =>
    rw [List.filterMap_cons_some hreply]
    rwa [hreply] at hids

/-- In every run in which osds are claimed while there are ids left, the osds with an id are exactly
those that are claimed with it, every id that was handed out is below the next one, and none was handed
out twice. -/
theorem osdIds_bijective (albaId : Bytes) (events : List (PoolEvent Request))
    (hleft : AllSteps serve (Applies IdsLeft) { store := { db := initial albaId } } events) :
    let s := (run serve { store := { db := initial albaId } } events).store
    (∀ o l, s.db.get .osdLongId o = some l ↔ ∃ info, s.db.get .osdInfo l = some (.thisAlba o, info)) ∧
      (∀ o ∈ s.handedOut, o.val < (osdNextId s.db).val) ∧ s.handedOut.Nodup := by
  intro s
  have hstart : IdsValid { db := initial albaId } :=
    ⟨consistent_initial albaId, by simp [Server.handedOut, OsdView.HandedOut]⟩
  obtain ⟨hvalid, _⟩ := serve_valid (B := fun s s' => (osdView s.db).Before (osdView s'.db))
    (fun s => OsdView.Before.refl _) (fun _ _ _ => OsdView.Before.trans)
    (fun _ _ _ _ _ => idsValid_step) (Pool.Valid.start hstart) hleft
  obtain ⟨hconsistent, hbelow, hnodup⟩ := hvalid.now
  exact ⟨fun o l => (hconsistent.claimed o l).trans claimOf_eq_some, hbelow, hnodup⟩

def freeOsd : OsdInfo where
  longId := ascii ['a']
  nodeId := ascii ['n']
  decommissioned := false
  other := []
  total := 0
  used := 0
  claimedSince := none

/-- Requests that are each applied before the next one is computed. -/
def inTurn (requests : List Request) : List (PoolEvent Request) :=
  requests.flatMap fun r => [.compute r, .apply 0]

/-- An osd is claimed after the next id was bumped to the last one there is. -/
theorem lastId_above_next :
    let s := (run serve { store := { db := initial [] } } (inTurn [.addOsd freeOsd,
      .bumpNextOsdId { val := 2 ^ 63 - 1, fits := by decide },
      .markOsdClaimed freeOsd.longId { bits := 0 }])).store
    ¬∀ o ∈ s.handedOut, o.val < (osdNextId s.db).val := by
  decide +kernel

/-- An osd is claimed, purged, registered and claimed again. -/
def registeredTwice : List (PoolEvent Request) :=
  inTurn [.addOsd freeOsd, .markOsdClaimed freeOsd.longId { bits := 0 }, .purgeOsd freeOsd.longId,
    .markWorkCompleted 1, .addOsd freeOsd, .markOsdClaimed freeOsd.longId { bits := 0 }]

theorem osdIds_bijective_registeredTwice :
    let s := (run serve { store := { db := initial [] } } registeredTwice).store
    s.handedOut.map Nsm.Nat63.val = [1, 0] ∧ s.handedOut.Nodup := by
  have hleft : AllSteps serve (Applies IdsLeft) { store := { db := initial [] } } registeredTwice := by
    decide +kernel
  exact ⟨by decide +kernel, (osdIds_bijective [] registeredTwice hleft).2.2⟩

end Ids

end Alba.Albamgr
