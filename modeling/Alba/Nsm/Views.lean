import Alba.Nsm.Sequence

/-! Requests on objects, seen as their asserts and the lists of their updates. Whatever the store to
which such a list is applied, each name and object that it touches is what the list of one of its
updates makes of it. -/

namespace Alba.Nsm

open ProofKit Std List

variable {kv : Store} {namespaceId : NamespaceId}

inductive Result
  | unit
  | manifest (old : Option Manifest)
  | count (n : Nat)
  deriving DecidableEq

def perform (namespaceId : NamespaceId) (kv : Store) (r : Request) :
    Except Exn (List Upd × Result) :=
  match r.op with
  | .putObject overwrite manifest gcEpoch =>
    (fun p => (p.1, .manifest p.2)) <$>
      putObject namespaceId r.cache kv overwrite manifest gcEpoch
  | .deleteObject name overwrite =>
    (fun p => (p.1, .manifest p.2)) <$> deleteObject namespaceId r.cache kv name overwrite
  | .cleanupOsdKeysToBeDeleted osdId =>
    .ok ((cleanupOsdKeysToBeDeleted kv osdId).1, .count (cleanupOsdKeysToBeDeleted kv osdId).2)
  | _ => (fun us => (us, .unit)) <$> updatesOf namespaceId kv r

theorem updatesOf_of_perform {r : Request} {us : List Upd} {res : Result}
    (h : perform namespaceId kv r = .ok (us, res)) : updatesOf namespaceId kv r = .ok us := by
  obtain ⟨op, cache⟩ := r
  cases op with
  | putObject | deleteObject =>
    obtain ⟨⟨us', old⟩, hop, he⟩ := map_eq_ok.mp h
    cases he
    exact map_eq_ok.mpr ⟨_, hop, rfl⟩
  | cleanupOsdKeysToBeDeleted =>
    cases h
    rfl
  | _ =>
    obtain ⟨us', hop, he⟩ := map_eq_ok.mp h
    cases he
    exact hop

def Op.fromClient : Op → Bool
  | .putObject _ _ _ => true
  | .deleteObject _ _ => true
  | .applySequence _ _ _ => true
  | .updateManifest _ _ _ _ _ => true
  | .updateManifest2 _ _ _ _ _ => true
  | .updatePreset _ _ => true
  | .enableNewGcEpoch _ => true
  | .disableGcEpoch _ => true
  | _ => false

def Op.nsmUpdates : Op → List NsmUpdate
  | .putObject _ manifest gcEpoch => [.putObject manifest gcEpoch]
  | .deleteObject name _ => [.deleteObject name]
  | .applySequence _ _ order => order
  | _ => []

def Op.asserts : Op → List Assert
  | .applySequence asserts _ _ => asserts
  | _ => []

theorem commit_checksOf (asserts : List Assert) (vs : List Upd) :
    commit Key.encode kv ((checksOf kv asserts).reverse ++ vs) = commit Key.encode kv vs := by
  have general : ∀ l : List Upd, (∀ u ∈ l, ∃ k, u = .assert k (kvGet kv k)) →
      commit Key.encode kv (l ++ vs) = commit Key.encode kv vs := by
    intro l
    induction l with
    | nil => intro _; rfl
    | cons u l ih =>
      intro hl
      obtain ⟨k, rfl⟩ := hl u mem_cons_self
      rw [← ih fun w hw => hl w (mem_cons_of_mem _ hw)]
      simp [commit, applyAll_cons, Update.mapKey, Update.apply, kvGet]
  refine general _ fun u hu => ?_
  obtain ⟨a, _, rfl⟩ := mem_map.mp (mem_reverse.mp hu)
  exact ⟨_, rfl⟩

/-- The request puts or deletes objects. -/
def Op.OnObjects : Op → Prop
  | .putObject _ _ _ => True
  | .deleteObject _ _ => True
  | .applySequence _ _ _ => True
  | _ => False

theorem putObject_unconditionally {cache : Option (BitVec 64 × Preset)} {overwrite : Overwrite}
    {m : Manifest} {gcEpoch : Int64} {r : List Upd × Option Manifest}
    (h : putObject namespaceId cache kv overwrite m gcEpoch = .ok r) :
    putObject namespaceId cache kv .unconditionally m gcEpoch = .ok r := by
  simp only [putObject, bind_eq_ok] at h ⊢
  obtain ⟨preset, hpreset, _, hcheck, _, hfresh, _, hspread, oldId, hname, _, _, rest⟩ := h
  exact ⟨preset, hpreset, (), hcheck, (), hfresh, (), hspread, oldId, hname, (), rfl, rest⟩

theorem deleteObject_unconditionally {cache : Option (BitVec 64 × Preset)} {overwrite : Overwrite}
    {name : Bytes} {r : List Upd × Option Manifest}
    (h : deleteObject namespaceId cache kv name overwrite = .ok r) :
    deleteObject namespaceId cache kv name .unconditionally = .ok r := by
  simp only [deleteObject, bind_eq_ok] at h ⊢
  obtain ⟨idO, hname, _, _, rest⟩ := h
  exact ⟨idO, hname, (), rfl, rest⟩

/-- A request on objects as its asserts and the lists of its updates, all computed from `kv`. -/
structure View (namespaceId : NamespaceId) (kv : Store) (r : Request) (us : List Upd) : Prop where
  names : (r.op.nsmUpdates.map NsmUpdate.name).Nodup
  computes : ∀ u ∈ r.op.nsmUpdates, Computes namespaceId r.cache kv u
  holds : ∀ a ∈ r.op.asserts, a.Holds kv
  list : us = (checksOf kv r.op.asserts).reverse ++
    (r.op.nsmUpdates.map (listFor namespaceId r.cache kv)).flatten

section View

variable {namespaceId : NamespaceId} {kv kv' kv₁ kv₂ : Store} {r : Request} {us : List Upd}
  {res : Result} {u : NsmUpdate}

theorem view_of_single (hupdates : r.op.nsmUpdates = [u]) (hasserts : r.op.asserts = [])
    (h : updatesForUpdate namespaceId r.cache kv u = .ok us) : View namespaceId kv r us := by
  have hlist : listFor namespaceId r.cache kv u = us := by rw [listFor, h]; rfl
  constructor
  · simp [hupdates]
  · rw [hupdates, forall_mem_singleton, Computes, hlist, h]
  · simp [hasserts]
  · simp [hupdates, hasserts, checksOf, hlist]

theorem perform_view (hop : r.op.OnObjects) (h : perform namespaceId kv r = .ok (us, res)) :
    View namespaceId kv r us := by
  obtain ⟨op, cache⟩ := r
  cases op with
  | putObject overwrite m gcEpoch =>
    obtain ⟨p, hput, he⟩ := map_eq_ok.mp h
    cases he
    exact view_of_single rfl rfl (map_eq_ok.mpr ⟨p, putObject_unconditionally hput, rfl⟩)
  | deleteObject name overwrite =>
    obtain ⟨p, hdelete, he⟩ := map_eq_ok.mp h
    cases he
    exact view_of_single rfl rfl (map_eq_ok.mpr ⟨p, deleteObject_unconditionally hdelete, rfl⟩)
  | applySequence asserts updates order =>
    obtain ⟨us', hseq, he⟩ := map_eq_ok.mp h
    cases he
    obtain ⟨hperm, hall, checks, hchecks, rfl⟩ := applySequence_eq_ok hseq
    obtain ⟨hholds, rfl⟩ := mapM_updateForAssert_ok_iff.mp hchecks
    exact ⟨(hperm.map _).nodup_iff.mpr (lastUpdates_names_nodup updates), hall, hholds, rfl⟩
  | _ => exact absurd hop id

/-- A request on objects gives the same lists and the same result from a store on which its asserts
hold and that agrees on what its updates read. -/
theorem perform_of_agree (hop : r.op.OnObjects) (h : perform namespaceId kv r = .ok (us, res))
    (hagree : ∀ u ∈ r.op.nsmUpdates, Agree u kv kv') (hholds : ∀ a ∈ r.op.asserts, a.Holds kv') :
    perform namespaceId kv' r = .ok ((checksOf kv' r.op.asserts).reverse ++
      (r.op.nsmUpdates.map (listFor namespaceId r.cache kv)).flatten, res) := by
  have hview := perform_view hop h
  have hlist := hview.list
  obtain ⟨op, cache⟩ := r
  cases op with
  | putObject overwrite m gcEpoch =>
    have hsame : perform namespaceId kv' ⟨.putObject overwrite m gcEpoch, cache⟩ =
        perform namespaceId kv ⟨.putObject overwrite m gcEpoch, cache⟩ := by
      simp only [perform, (hagree _ mem_cons_self).putObject]
    rw [hsame, h, hlist]
    rfl
  | deleteObject name overwrite =>
    have hsame : perform namespaceId kv' ⟨.deleteObject name overwrite, cache⟩ =
        perform namespaceId kv ⟨.deleteObject name overwrite, cache⟩ := by
      simp only [perform, (hagree _ mem_cons_self).deleteObject]
    rw [hsame, h, hlist]
    rfl
  | applySequence asserts updates order =>
    obtain ⟨us', hseq, he⟩ := map_eq_ok.mp h
    cases he
    have hperm := (applySequence_eq_ok hseq).1
    have hfor : ∀ u ∈ order, updatesForUpdate namespaceId cache kv' u =
        updatesForUpdate namespaceId cache kv u := fun u hu => (hagree u hu).updatesForUpdate
    have hlists : order.map (listFor namespaceId cache kv') =
        order.map (listFor namespaceId cache kv) :=
      map_congr_left fun u hu => by simp only [listFor, hfor u hu]
    have hall : ∀ u ∈ order, Computes namespaceId cache kv' u := by
      intro u hu
      have hu' : updatesForUpdate namespaceId cache kv u = .ok (listFor namespaceId cache kv u) :=
        hview.computes u hu
      simp only [Computes, listFor, hfor u hu]
      exact hu'
    have hrun := applySequence_of_computes hperm hall
      (mapM_updateForAssert_ok_iff.mpr ⟨hholds, rfl⟩)
    rw [hlists] at hrun
    exact map_eq_ok.mpr ⟨_, hrun, rfl⟩
  | _ => exact absurd hop id

/-- The update does nothing: it deletes a name that does not exist. -/
def NsmUpdate.Idle (kv : Store) (u : NsmUpdate) : Prop :=
  u.put? = none ∧ kvGet kv (.names u.name) = none

theorem listFor_of_idle {cache : Option (BitVec 64 × Preset)} (h : Computes namespaceId cache kv u)
    (hidle : u.Idle kv) : listFor namespaceId cache kv u = [] := by
  rcases updatesForUpdate_footprint h with ⟨_, _, hnil⟩ | hfoot
  · exact hnil
  · have hassert := hfoot.name
    cases u with
    | putObject m gcEpoch => cases hidle.1
    | deleteObject name =>
      obtain ⟨⟨us, deleted⟩, hdelete, he⟩ := map_eq_ok.mp h
      rcases deleteObject_eq_ok hdelete with ⟨_, rfl, _⟩ | ⟨id, _, _, _, _, hname, _⟩
      · exact he.symm
      · rw [show kvGet kv (.names name) = none from hidle.2] at hname
        cases hname

theorem footprint_of_not_idle {cache : Option (BitVec 64 × Preset)}
    (h : Computes namespaceId cache kv u) (hidle : ¬u.Idle kv) :
    Footprint kv u (listFor namespaceId cache kv u) :=
  (updatesForUpdate_footprint h).resolve_left fun hmissing => hidle ⟨hmissing.1, hmissing.2.1⟩

namespace View

section After

variable (h : View namespaceId kv r us) (hi : Indexed kv) (hc : commit Key.encode kv₁ us = some kv₂)
  {u : NsmUpdate}

include h

theorem guards : Guards Key.kind guardedKinds (kvGet kv) us := by
  rw [h.list]
  refine .append (.of_asserts fun u hu _ => ?_) (.flatten fun l hl => ?_)
  · obtain ⟨a, _, rfl⟩ := mem_map.mp (mem_reverse.mp hu)
    rfl
  · obtain ⟨u, hu, rfl⟩ := mem_map.mp hl
    exact (h.computes u hu).guards

theorem mem_of_mem_list (hu : u ∈ r.op.nsmUpdates) {w : Upd}
    (hw : w ∈ listFor namespaceId r.cache kv u) : w ∈ us := by
  rw [h.list]
  exact mem_append_right _ (mem_flatten.mpr ⟨_, mem_map.mpr ⟨u, hu, rfl⟩, hw⟩)

include hc

theorem commit_lists :
    commit Key.encode kv₁ (r.op.nsmUpdates.map (listFor namespaceId r.cache kv)).flatten =
      some kv₂ := by
  rw [h.list, commit_append, Option.bind_eq_some_iff] at hc
  obtain ⟨mid, hchecks, hc⟩ := hc
  rwa [commit_of_asserts (checksOf_asserts _) hchecks] at hc

theorem get (k : Key) :
    kvGet kv₂ k =
      runKey k (r.op.nsmUpdates.map (listFor namespaceId r.cache kv)).flatten (kvGet kv₁ k) :=
  commit_get Key.encode_injective (h.commit_lists hc) k

theorem get_of_not_writes {k : Key}
    (hk : ∀ u ∈ r.op.nsmUpdates, ∀ w ∈ listFor namespaceId r.cache kv u, ¬w.Writes k) :
    kvGet kv₂ k = kvGet kv₁ k := by
  rw [h.get hc]
  refine runKey_of_not_writes _ fun w hw => ?_
  obtain ⟨l, hl, hwl⟩ := mem_flatten.mp hw
  obtain ⟨u, hu, rfl⟩ := mem_map.mp hl
  exact hk u hu w hwl

theorem get_frame {k : Key} (hk : k.kind ∈ frameKinds) : kvGet kv₂ k = kvGet kv₁ k :=
  h.get_of_not_writes hc fun u hu w hw => ((h.computes u hu).within w hw).not_writes_frame hk

theorem get_name {n : Bytes} (hn : ∀ u ∈ r.op.nsmUpdates, u.name = n → u.Idle kv) :
    kvGet kv₂ (.names n) = kvGet kv₁ (.names n) := by
  refine h.get_of_not_writes hc fun u hu w hw hwrites => ?_
  by_cases hname : u.name = n
  · rw [listFor_of_idle (h.computes u hu) (hn u hu hname)] at hw
    cases hw
  · have hkey : (Key.names n).Owned (· = n) (fun _ => False) := rfl
    refine hkey.key_ne ((h.computes u hu).within w hw) ?_ (fun _ => False.elim) hwrites.key_eq.symm
    exact fun n' hn' hu' => hname (hu'.symm.trans hn')

theorem get_object {id : Bytes} (hid : ∀ u ∈ r.op.nsmUpdates, ¬u.Ids kv id) :
    kvGet kv₂ (.objects id) = kvGet kv₁ (.objects id) := by
  refine h.get_of_not_writes hc fun u hu w hw hwrites => ?_
  have hkey : (Key.objects id).Owned (fun _ => False) (· = id) := rfl
  refine hkey.key_ne ((h.computes u hu).within w hw) (fun _ => False.elim) ?_ hwrites.key_eq.symm
  exact fun i hi => by rw [hi]; exact hid u hu

include hi

theorem apart : r.op.nsmUpdates.Pairwise (NsmUpdate.Apart kv) :=
  order_apart hi h.names h.computes (h.commit_lists hc)

theorem get_owned (hu : u ∈ r.op.nsmUpdates) (k : Key) (hk : k.Owned (· = u.name) (u.Ids kv)) :
    kvGet kv₂ k = runKey k (listFor namespaceId r.cache kv u) (kvGet kv₁ k) := by
  have hapart := h.apart hi hc
  have hcomputes := h.computes
  rw [h.get hc]
  obtain ⟨before, after, he⟩ := append_of_mem hu
  rw [he] at hapart hcomputes ⊢
  have quiet : ∀ l : List NsmUpdate, (∀ w ∈ l, w ∈ before ++ u :: after) →
      (∀ w ∈ l, u.Apart kv w) → ∀ v,
        runKey k (l.map (listFor namespaceId r.cache kv)).flatten v = v := by
    intro l hl hlu v
    refine runKey_of_not_writes v fun x hx hwrites => ?_
    obtain ⟨ys, hys, hx⟩ := mem_flatten.mp hx
    obtain ⟨w, hw, rfl⟩ := mem_map.mp hys
    have hname : ∀ n, n = u.name → ¬n = w.name := fun n hn hn' => (hlu w hw).1 (hn.symm.trans hn')
    exact hk.key_ne ((hcomputes w (hl w hw)).within x hx) hname (hlu w hw).2 hwrites.key_eq.symm
  obtain ⟨_, hafter, hbefore⟩ := pairwise_append.mp hapart
  rw [map_append, map_cons, flatten_append, flatten_cons, runKey_append,
    runKey_append, quiet before, quiet after]
  · exact fun w hw => mem_append_right _ (mem_cons_of_mem _ hw)
  · exact (pairwise_cons.mp hafter).1
  · exact fun w hw => mem_append_left _ hw
  · exact fun w hw => (hbefore w hw u mem_cons_self).symm

theorem name_after (hu : u ∈ r.op.nsmUpdates) (hidle : ¬u.Idle kv) :
    kvGet kv₂ (.names u.name) = u.put?.map fun p => .objectInfo p.1.objectId := by
  rw [h.get_owned hi hc hu (.names u.name) rfl, (footprint_of_not_idle (h.computes u hu) hidle).nameAfter]

theorem object_after {m : Manifest} {gcEpoch : Int64} (hu : .putObject m gcEpoch ∈ r.op.nsmUpdates) :
    kvGet kv₂ (.objects m.objectId) = some (.manifest m.stored) := by
  have hidle : ¬(NsmUpdate.putObject m gcEpoch).Idle kv := fun hidle => by cases hidle.1
  have hid : (NsmUpdate.putObject m gcEpoch).Ids kv m.objectId := Or.inl ⟨_, rfl, rfl⟩
  rw [h.get_owned hi hc hu (.objects m.objectId) hid,
    (footprint_of_not_idle (h.computes _ hu) hidle).stored _ rfl]

theorem name_changes (hu : u ∈ r.op.nsmUpdates) (hidle : ¬u.Idle kv) :
    kvGet kv₂ (.names u.name) ≠ kvGet kv (.names u.name) := by
  rw [h.name_after hi hc hu hidle]
  have hfoot := footprint_of_not_idle (h.computes u hu) hidle
  intro he
  cases hput : u.put? with
  | none =>
    rw [hput] at he
    exact hidle ⟨hput, he.symm⟩
  | some p =>
    rw [hput] at he
    exact hfoot.old _ he.symm (hfoot.fresh p hput)

end After

theorem deleted_after (h : View namespaceId kv r us) (hi : Indexed kv)
    (hc : commit Key.encode kv us = some kv₂) {n : Bytes}
    (hu : .deleteObject n ∈ r.op.nsmUpdates) : kvGet kv₂ (.names n) = none := by
  by_cases hidle : (NsmUpdate.deleteObject n).Idle kv
  · rw [h.get_owned hi hc hu (.names n) rfl, listFor_of_idle (h.computes _ hu) hidle]
    exact hidle.2
  · exact h.name_after hi hc hu hidle

end View

end View

end Alba.Nsm
