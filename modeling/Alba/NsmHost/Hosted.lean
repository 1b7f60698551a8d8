import Alba.NsmHost.Deletion

/-! A namespace on a host is a namespace: whatever the host does for the others, and whichever messages
the albamgr delivers, its keys are those of a namespace manager of its own. -/

namespace Alba.NsmHost

open List hiding next
open ProofKit Nsm Std

/-- A request that is applied before the next one is computed. -/
def handle (log : MessageLog) (h : Host) (r : HostRequest) : Option Host :=
  match getUpdates log h r with
  | .ok u => apply h u
  | .error _ => none

/-- The request does not clean up the keys of the namespace. A batch computes all its requests from one
database, so it is not a sequence of requests. -/
def HostRequest.Serves (a : NamespaceId) : HostRequest → Prop
  | nsmsUpdate reqs => a ∉ reqs.map Prod.fst
  | cleanupForNamespace c => c ≠ a
  | _ => True

/-- The second database comes from the first by requests to the namespace. -/
def Follows (a : NamespaceId) (db db' : HostDb) : Prop :=
  ∃ requests, content db' a = run (Nsm.exec a) (content db a) requests

variable {db d db' : HostDb} {a c : NamespaceId} {log : MessageLog}

theorem Follows.trans {mid : HostDb} (h : Follows a db mid) (h' : Follows a mid db') : Follows a db db' := by
  obtain ⟨requests, h⟩ := h
  obtain ⟨more, h'⟩ := h'
  exact ⟨requests ++ more, by rw [run_append, ← h, h']⟩

theorem getElem?_content (db : HostDb) (a : NamespaceId) (k : Bytes) :
    (content db a)[k]? = db[Keys.namespaceContent a ++ k]?.map HostValue.toNsm := by
  simp [content, nsmView, ExtTreeMap.getElem?_map]

theorem content_congr
    (h : ∀ k, db'[Keys.namespaceContent a ++ k]? = db[Keys.namespaceContent a ++ k]?) :
    content db' a = content db a :=
  ExtTreeMap.ext_getElem? fun k => by rw [getElem?_content, getElem?_content, h]

theorem content_put (db : HostDb) (a : NamespaceId) (k : Bytes) (v : Option HostValue) :
    content (put db (Keys.namespaceContent a ++ k) v) a =
      put (content db a) k (v.map HostValue.toNsm) := by
  refine ExtTreeMap.ext_getElem? fun k' => ?_
  simp only [getElem?_content, getElem?_put, append_cancel_left_eq]
  split <;> rfl

theorem toNsm_counter (x : BitVec 64) : (counter x).map HostValue.toNsm = counter x := by
  unfold counter
  split <;> rfl

theorem apply_content {u : Upd} {v : HostUpd} (hv : transformUpdates a [u] = [v])
    (h : v.apply db = some db') : (u.mapKey Key.encode).apply (content db a) = some (content db' a) := by
  cases u with
  | assert k vo =>
    cases hv
    obtain ⟨hget, heq⟩ := Option.ite_none_right_eq_some.mp h
    cases heq
    exact if_pos (by simp [getElem?_content, hget, HostValue.toNsm, Function.comp_def])
  | set k vo =>
    cases vo <;> cases hv <;> cases h <;> simp [Update.apply, Update.mapKey, content_put, HostValue.toNsm]
  | transform k t =>
    cases hv
    obtain ⟨x⟩ := t
    simp only [Update.apply, Update.mapKey, getElem?_content] at h ⊢
    cases hget : db[Keys.namespaceContent a ++ k.encode]? with
    | none =>
      simp only [hget] at h
      cases h
      simp [content_put, toNsm_counter]
    | some value =>
      simp only [hget] at h
      obtain ⟨n, hn, rfl⟩ := Option.map_eq_some_iff.mp h
      have hvalue : CounterValue.toInt64 value.toNsm = some n := by
        cases value with
        | nsm v => cases v <;> exact hn
        | _ => cases hn
      simp [hvalue, content_put, toNsm_counter]

theorem commit_content {us : List Upd} (h : applyAll db (transformUpdates a us) = some db') :
    commit Key.encode (content db a) us = some (content db' a) := by
  induction us generalizing db with
  | nil =>
    cases h
    rfl
  | cons u us ih =>
    obtain ⟨mid, hmid, hrest⟩ := Option.bind_eq_some_iff.mp ((applyAll_cons _ _ _).symm.trans h)
    exact (applyAll_cons _ _ _).trans
      (Option.bind_eq_some_iff.mpr ⟨content mid a, apply_content rfl hmid, ih hrest⟩)

theorem follows_other {us : List HostUpd} (h : applyAll db us = some db')
    (hus : ∀ u ∈ us, ∃ c, c ≠ a ∧ Touches c u) : Follows a db db' := by
  refine ⟨[], content_congr fun k => applyAll_other h fun u hu he => ?_⟩
  obtain ⟨c, hne, k', hk'⟩ := hus u hu
  exact hne (Keys.namespaceContent_append_inj (hk'.symm.trans he)).1

theorem follows_update {us : List Upd} (h : applyAll db (transformUpdates c us) = some db')
    (hus : c = a → ∃ r, updatesOf a (content db a) r = .ok us) : Follows a db db' := by
  by_cases hca : c = a
  · obtain ⟨r, hr⟩ := hus hca
    subst hca
    exact ⟨[r], by rw [run_cons, next, exec_eq_some.mpr ⟨us, hr, commit_content h⟩]; rfl⟩
  · exact follows_other h fun u hu => ⟨c, hca, transformUpdates_touches u hu⟩

/-- Whether the asserts of its updates are checked or not, a message links or unlinks an osd. -/
theorem follows_message {m : Message} (hget : ∀ k, db'[Keys.namespaceContent a ++ k]? =
      runKey (Keys.namespaceContent a ++ k) (handleMsg d m) db[Keys.namespaceContent a ++ k]?) :
    Follows a db db' := by
  have other (h : ∀ u ∈ handleMsg d m, ∀ k, keyOf u ≠ Keys.namespaceContent a ++ k) : Follows a db db' :=
    ⟨[], content_congr fun k => by
      rw [hget, runKey_of_not_writes _ fun u hu hw => h u hu k (keyOf_of_writes hw)]⟩
  cases m with
  | namespaceMsg c msg =>
    by_cases hc : Keys.namespaceInfo c ∈ d
    · obtain ⟨mid, hmid⟩ : ∃ mid, applyAll db (transformUpdates c msg.updates) = some mid := by
        cases msg <;> exact ⟨_, rfl⟩
      have hsame : content db' a = content mid a := content_congr fun k => by
        rw [hget, handleMsg, if_pos hc, applyAll_get hmid]
      obtain ⟨requests, h⟩ : Follows a db mid := follows_update hmid fun _ => by
        cases msg with
        | linkOsd d info => exact ⟨{ op := .linkOsd d info }, rfl⟩
        | unlinkOsd d => exact ⟨{ op := .unlinkOsd d }, rfl⟩
      exact ⟨requests, hsame.trans h⟩
    · exact other (by simp [handleMsg, hc])
  | _ =>
    refine other fun u hu k he => ?_
    simp only [handleMsg, mem_cons, not_mem_nil, or_false] at hu
    rcases hu with rfl | rfl <;> exact Keys.content_ne_info a _ k he.symm

theorem follows_deliverMsgs (first : Nat) (msgs : List (Nat × Message)) (db : HostDb) :
    Follows a db (msgs.foldl (deliverOne first) db) := by
  induction msgs generalizing db with
  | nil => exact ⟨[], rfl⟩
  | cons m msgs ih =>
    refine .trans ?_ (ih _)
    unfold deliverOne
    split
    · exact follows_message fun k => by
        rw [getElem?_put, if_neg (Keys.content_ne_nextMsg a k).symm,
          foldl_applyUpdate_get (handleMsg_plain db m.2)]
    · exact ⟨[], rfl⟩

theorem follows_handle {h h' : Host} {r : HostRequest} (hr : r.Serves a) (hstep : handle log h r = some h') :
    Follows a h.db h'.db := by
  obtain ⟨u, hu, happly⟩ : ∃ u, getUpdates log h r = .ok u ∧ apply h u = some h' := by
    unfold handle at hstep
    split at hstep
    · exact ⟨_, ‹_›, hstep⟩
    · cases hstep
  cases r with
  | nsmUpdate c req =>
    obtain ⟨⟨us, res⟩, hus, rfl⟩ := map_eq_ok.mp hu
    obtain ⟨db', hdb', rfl⟩ := Option.map_eq_some_iff.mp happly
    unfold nsmUpdate at hus
    split at hus
    · obtain ⟨p, hperform, hp⟩ := bind_eq_ok.mp hus
      cases hp
      exact follows_update hdb' fun hca => ⟨req, hca ▸ updatesOf_of_perform hperform⟩
    · cases hus
  | nsmsUpdate reqs =>
    obtain ⟨⟨us, res⟩, hus, rfl⟩ := map_eq_ok.mp hu
    obtain ⟨db', hdb', rfl⟩ := Option.map_eq_some_iff.mp happly
    refine follows_other hdb' fun w hw => ?_
    obtain ⟨c, hc, htouches⟩ := nsmsUpdate_touches hus w hw
    exact ⟨c, fun hca => hr (hca ▸ hc), htouches⟩
  | cleanupForNamespace c =>
    obtain ⟨⟨cnt, us⟩, hus, rfl⟩ := map_eq_ok.mp hu
    obtain ⟨db', hdb', rfl⟩ := Option.map_eq_some_iff.mp happly
    rw [cleanupForNamespace_eq] at hus
    cases hus
    refine follows_other hdb' fun w hw => ⟨c, hr, ?_⟩
    obtain ⟨k, _, rfl⟩ := mem_map.mp hw
    exact ⟨k, rfl⟩
  | deliverMsg id =>
    obtain rfl | ⟨-, rfl⟩ := deliverMsg_eq_ok hu
    · cases happly
      exact ⟨[], rfl⟩
    · obtain ⟨db', hdb', rfl⟩ := Option.map_eq_some_iff.mp happly
      refine follows_message (d := h.db) (m := log id) fun k => ?_
      rw [applyAll_get hdb', runKey_append]
      simp [runKey_cons, Update.act, (Keys.content_ne_nextMsg a k).symm]
  | deliverMsgs first count =>
    cases hu
    simp only [apply] at happly
    split at happly
    · rename_i hdb'
      obtain ⟨_, _, hfold⟩ := bind_eq_ok.mp hdb'
      cases hfold
      cases happly
      exact follows_deliverMsgs _ _ _
    · cases happly

end Alba.NsmHost
