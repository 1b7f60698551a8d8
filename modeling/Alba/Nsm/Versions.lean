import Alba.Nsm.Live

/-! Versions of fragments. As long as requests use versions as the manager expects, whatever is
scheduled for deletion is older than what the manifest has in its place. -/

namespace Alba.Nsm

open ProofKit Std List

/-- No located fragment is newer than its manifest. -/
def Manifest.Versioned (t : Manifest) : Prop :=
  ∀ e ∈ cells t.fragments, e.2.osd.isSome → e.2.ver.toInt ≤ t.versionId.toInt

/-- The fragment is older than the manifest and than what the manifest has in its place. -/
def Placed.Older (p : Placed) (t : Manifest) : Prop :=
  p.versionId.toInt < t.versionId.toInt ∧
    ∀ f, ((p.chunkId, p.fragmentId), f) ∈ cells t.fragments → f.osd.isSome →
      p.versionId.toInt < f.ver.toInt

instance (t : Manifest) : Decidable t.Versioned :=
  inferInstanceAs (Decidable (∀ e ∈ cells t.fragments, e.2.osd.isSome → _ ≤ _))

/-- An update gives no fragment on an osd the version that the fragment already has. -/
def Change.Careful : Change → Prop
  | put m _ _ => m.Versioned
  | delete _ _ _ => True
  | update _ table _ versionId t => ∀ e ∈ cells t.fragments, (findUpdate table e.1.1 e.1.2).isSome →
      e.2.osd.isSome → e.2.ver ≠ versionId

/-- The object ids that a change uses for the first time. -/
def Change.newIds (c : Change) : List Bytes := c.put?.toList.map fun m => m.1.objectId

/-- Whatever is scheduled is an old fragment of an object id in use. -/
structure Settled (namespaceId : NamespaceId) (used : List Bytes) (kv : Store) : Prop where
  stored : ∀ id t, kvGet kv (.objects id) = some (.manifest t) → id ∈ used ∧ t.Versioned
  scheduled : ∀ d key, Scheduled kv d key → ∃ p : Placed, p.HasKey namespaceId key ∧ p.Counted ∧
    p.objectId ∈ used ∧ ∀ t, kvGet kv (.objects p.objectId) = some (.manifest t) → p.Older t

section Changes

variable {namespaceId : NamespaceId} {c : Change} {kv kv' : Store} {used : List Bytes}
  {versionId : Int32} {table : List FragmentUpdate} {t : Manifest}

theorem Effect.retired_stored (h : Effect namespaceId c kv kv') {p : Placed} (hp : p ∈ c.retired) :
    ∃ t f, kvGet kv (.objects p.objectId) = some (.manifest t) ∧
      ((p.chunkId, p.fragmentId), f) ∈ cells t.fragments ∧ f.osd.isSome ∧ f.ver = p.versionId ∧
      ((∃ name, c = .delete name p.objectId t) ∨
        (∃ m gcEpoch, c = .put m gcEpoch (some (p.objectId, t))) ∨
        ∃ table gcEpoch versionId, c = .update p.objectId table gcEpoch versionId t ∧
          (findUpdate table p.chunkId p.fragmentId).isSome) := by
  cases c with
  | put m gcEpoch old =>
    obtain ⟨⟨id, t⟩, hold, hp⟩ := mem_flatMap.mp hp
    obtain ⟨f, hf, _, hid, hd, hver⟩ := mem_placed.mp hp
    rw [Option.mem_toList] at hold
    cases Option.mem_def.mp hold
    dsimp only at hid hf
    subst hid
    exact ⟨t, f, h.old_before, hf, by simp [hd], hver, Or.inr (Or.inl ⟨m, gcEpoch, rfl⟩)⟩
  | delete name objectId t =>
    rw [Change.retired] at hp
    obtain ⟨f, hf, _, hid, hd, hver⟩ := mem_placed.mp hp
    subst hid
    exact ⟨t, f, h.delete_before, hf, by simp [hd], hver, Or.inl ⟨name, rfl⟩⟩
  | update objectId table gcEpoch versionId t =>
    rw [Change.retired] at hp
    obtain ⟨f, hf, hq, hid, hd, hver⟩ := mem_placed.mp hp
    subst hid
    exact ⟨t, f, h.update_before, hf, by simp [hd], hver,
      Or.inr (Or.inr ⟨table, gcEpoch, versionId, rfl, hq⟩)⟩

theorem Change.Legal.version_le {objectId : Bytes} {gcEpoch : Int64}
    (h : (Change.update objectId table gcEpoch versionId t).Legal) :
    t.versionId.toInt ≤ versionId.toInt := by
  rcases h.2.2 with ⟨hnew, hold⟩ | ⟨_, hsucc⟩
  · rw [hnew, hold]
  · omega

theorem Manifest.Versioned.updateWith (h : t.Versioned) (hle : t.versionId.toInt ≤ versionId.toInt) :
    (t.updateWith table versionId).Versioned := by
  intro e he hosd
  rcases mem_cells_updateWith he with ⟨_, _, _, hver⟩ | ⟨f, hf, hfo, hfv, _⟩
  · rw [hver]
    exact Int.le_refl _
  · rw [← hfv]
    exact (h _ hf (by rwa [hfo])).trans hle

theorem Placed.Older.updateWith {p : Placed} (h : p.Older t)
    (hle : t.versionId.toInt ≤ versionId.toInt) : p.Older (t.updateWith table versionId) := by
  refine ⟨h.1.trans_le hle, fun f hf hosd => ?_⟩
  rcases mem_cells_updateWith hf with ⟨_, _, _, hver⟩ | ⟨f', hf', hfo, hfv, _⟩
  · rw [hver]
    exact h.1.trans_le hle
  · rw [← hfv]
    exact h.2 f' hf' (by rwa [hfo])

theorem Effect.settled (h : Effect namespaceId c kv kv') (hcareful : c.Careful)
    (hfresh : ∀ id ∈ c.newIds, id ∉ used) (hs : Settled namespaceId used kv) :
    Settled namespaceId (c.newIds ++ used) kv' := by
  constructor
  · intro id t' ht'
    rcases h.stored_cases ht' with ⟨_, ht⟩ | ⟨gcEpoch, old, rfl, rfl⟩ |
      ⟨table, gcEpoch, versionId, t, rfl, ht, rfl⟩
    · exact ⟨mem_append_right _ (hs.stored id t' ht).1, (hs.stored id t' ht).2⟩
    · exact ⟨mem_append_left _ (by simp [Change.newIds, Change.put?]), hcareful⟩
    · obtain ⟨hused, hversioned⟩ := hs.stored id t ht
      exact ⟨mem_append_right _ hused, hversioned.updateWith h.legal.version_le⟩
  · intro d key hkey
    by_cases hretired : (d, key) ∈ Nsm.scheduled namespaceId c.retired
    · -- what the change retires is older than what an update leaves in its place
      obtain ⟨p, hp, _, hpkey⟩ := mem_scheduled.mp hretired
      obtain ⟨t, f, ht, hf, hosd, hver, hcase⟩ := h.retired_stored hp
      obtain ⟨hused, hversioned⟩ := hs.stored _ t ht
      refine ⟨p, hpkey, counted_of_mem_cells hf, mem_append_right _ hused, fun t' ht' => ?_⟩
      rcases hcase with ⟨name, rfl⟩ | ⟨m, gcEpoch, rfl⟩ | ⟨table, gcEpoch, versionId, rfl, hfind⟩
      · rw [h.delete_after] at ht'
        cases ht'
      · rw [h.old_after] at ht'
        cases ht'
      · rw [h.update_after] at ht'
        cases ht'
        have hlt : p.versionId.toInt < versionId.toInt := by
          have hne : f.ver ≠ versionId := hcareful _ hf hfind hosd
          have hle : f.ver.toInt ≤ t.versionId.toInt := hversioned _ hf hosd
          have hle' := h.legal.version_le
          have hint : f.ver.toInt ≠ versionId.toInt := fun he => hne (Int32.toInt_inj.mp he)
          rw [← hver]
          omega
        refine ⟨hlt, fun f' hf' _ => ?_⟩
        rcases mem_cells_updateWith hf' with ⟨_, _, _, hver'⟩ | ⟨_, _, _, _, hnone⟩
        · rwa [hver']
        · simp [hnone] at hfind
    · have hold : Scheduled kv d key := by
        rw [Scheduled, h.deletes, if_neg hretired] at hkey
        exact hkey
      obtain ⟨p, hpkey, hcounted, hused, holder⟩ := hs.scheduled d key hold
      refine ⟨p, hpkey, hcounted, mem_append_right _ hused, fun t' ht' => ?_⟩
      rcases h.stored_cases ht' with ⟨_, ht⟩ | ⟨gcEpoch, old, rfl, hid⟩ |
        ⟨table, gcEpoch, versionId, t, rfl, ht, rfl⟩
      · exact holder t' ht
      · exact absurd hused (hfresh _ (by simp [Change.newIds, Change.put?, hid]))
      · exact (holder t ht).updateWith h.legal.version_le

theorem Settled.mono {used' : List Bytes} (hs : Settled namespaceId used kv) (h : used ⊆ used') :
    Settled namespaceId used' kv := by
  constructor
  · intro id t ht
    exact ⟨h (hs.stored id t ht).1, (hs.stored id t ht).2⟩
  · intro d key hkey
    obtain ⟨p, hpkey, hcounted, hused, holder⟩ := hs.scheduled d key hkey
    exact ⟨p, hpkey, hcounted, h hused, holder⟩

theorem Chain.settled {cs : List Change} (h : Chain namespaceId cs kv kv')
    (hcareful : ∀ c ∈ cs, c.Careful) (hnodup : (cs.flatMap Change.newIds).Nodup)
    (hfresh : ∀ id ∈ cs.flatMap Change.newIds, id ∉ used) (hs : Settled namespaceId used kv) :
    Settled namespaceId (cs.flatMap Change.newIds ++ used) kv' := by
  induction h generalizing used with
  | nil => exact hs
  | cons effect _ ih =>
    rw [flatMap_cons, nodup_append] at hnodup
    simp only [flatMap_cons, mem_append] at hfresh
    have hfirst := effect.settled (hcareful _ (by simp)) (fun id hid => hfresh id (Or.inl hid)) hs
    have hrest := ih (fun c hc => hcareful c (by simp [hc])) hnodup.2.1 (fun id hid => ?_) hfirst
    · refine hrest.mono fun id hid => ?_
      simp only [flatMap_cons, mem_append] at hid ⊢
      tauto
    · rw [mem_append, not_or]
      exact ⟨fun hid' => hnodup.2.2 id hid' id hid rfl, hfresh id (Or.inr hid)⟩

theorem Settled.congr (hs : Settled namespaceId used kv)
    (hobjects : ∀ id, kvGet kv' (.objects id) = kvGet kv (.objects id))
    (hscheduled : ∀ d key, Scheduled kv' d key → Scheduled kv d key) :
    Settled namespaceId used kv' := by
  constructor
  · intro id t ht
    rw [hobjects] at ht
    exact hs.stored id t ht
  · intro d key hkey
    obtain ⟨p, hpkey, hcounted, hused, holder⟩ := hs.scheduled d key (hscheduled d key hkey)
    refine ⟨p, hpkey, hcounted, hused, fun t ht => holder t ?_⟩
    rwa [hobjects] at ht

end Changes

def Op.putIds (op : Op) : List Bytes := op.puts.map fun p => p.1.objectId

/-- The manifests that a request puts have no fragment newer than themselves, and an update gives no
fragment that is located the version it has in the stored manifest. -/
def Op.Careful (kv : Store) (op : Op) : Prop :=
  (∀ p ∈ op.puts, p.1.Versioned) ∧
    ∀ u ∈ op.manifestUpdates, ∀ t ∈ manifestAt kv u.1, ∀ fu ∈ u.2.1, ∀ e ∈ cells t.fragments,
      ((e.1.1 : Int), (e.1.2 : Int)) = fu.index → e.2.osd.isSome → e.2.ver ≠ u.2.2.2

instance (kv : Store) (op : Op) : Decidable (op.Careful kv) :=
  inferInstanceAs (Decidable ((∀ p ∈ op.puts, p.1.Versioned) ∧ ∀ u ∈ op.manifestUpdates,
    ∀ t ∈ manifestAt kv u.1, ∀ fu ∈ u.2.1, ∀ e ∈ cells t.fragments, _ = _ → _ → _ ≠ _))

theorem Manifest.versioned_stored {t : Manifest} (h : t.Versioned) : t.stored.Versioned := by
  intro e he
  rw [Manifest.stored, cells_map] at he
  obtain ⟨e', he', rfl⟩ := mem_map.mp he
  exact h e' he'

/-- The store with the object ids that successful requests have put so far. -/
structure History where
  store : Store
  used : List Bytes

namespace History

def initial : History := { store := ∅, used := [] }

def exec (namespaceId : NamespaceId) (h : History) (r : Request) : Option History :=
  (Nsm.exec namespaceId h.store r).map fun store => { store, used := r.op.putIds ++ h.used }

/-- No id that the request puts was put before. -/
def Fresh (h : History) (r : Request) : Prop :=
  r.op.putIds.Nodup ∧ ∀ id ∈ r.op.putIds, id ∉ h.used

instance (h : History) (r : Request) : Decidable (h.Fresh r) :=
  inferInstanceAs (Decidable (_ ∧ ∀ id ∈ r.op.putIds, id ∉ h.used))

theorem store_run (namespaceId : NamespaceId) (requests : List Request) :
    (run (exec namespaceId) initial requests).store = run (Nsm.exec namespaceId) ∅ requests :=
  run_map store (fun h r => by simp [exec, Function.comp_def]) initial requests

end History

section Runs

variable {namespaceId : NamespaceId}

theorem Op.Careful.change {op : Op} {kv : Store} {cs : List Change} (h : op.Careful kv)
    (hputs : cs.filterMap Change.put? = op.storedPuts) (hasked : ∀ c ∈ cs, c.From op kv) :
    ∀ c ∈ cs, c.Careful := by
  intro c hc
  cases c with
  | put m gcEpoch old =>
    have hmem : (m, gcEpoch) ∈ op.storedPuts := by
      rw [← hputs]
      exact mem_filterMap.mpr ⟨_, hc, rfl⟩
    obtain ⟨⟨m', e⟩, hm', heq⟩ := mem_map.mp hmem
    cases heq
    exact Manifest.versioned_stored (h.1 _ hm')
  | delete name objectId t => trivial
  | update objectId table gcEpoch versionId t =>
    obtain ⟨ht, fus, hmem, htable⟩ := hasked _ hc
    obtain ⟨rfl, _⟩ := fragmentTable_eq htable
    intro e he hfind
    obtain ⟨fu, hfu⟩ := Option.isSome_iff_exists.mp hfind
    have hindex : fu.index = ((e.1.1 : Int), (e.1.2 : Int)) := by
      simpa using find?_some hfu
    have hin : fu ∈ fus := mem_reverse.mp (mem_of_find?_eq_some hfu)
    exact h.2 _ hmem t (manifestAt_eq_some.mpr ht) fu hin e he hindex.symm

theorem flatMap_newIds (cs : List Change) :
    cs.flatMap Change.newIds = (cs.filterMap Change.put?).map fun p => p.1.objectId := by
  induction cs with
  | nil => rfl
  | cons c cs ih =>
    rw [flatMap_cons, ih, Change.newIds]
    cases hc : c.put? <;> simp [hc]

theorem newIds_eq_putIds {op : Op} {cs : List Change}
    (hputs : cs.filterMap Change.put? = op.storedPuts) : cs.flatMap Change.newIds = op.putIds := by
  rw [flatMap_newIds, hputs]
  simp [Op.putIds, Op.storedPuts, Function.comp_def]

theorem exec_settled {h h' : History} {r : Request} (hs : Settled namespaceId h.used h.store)
    (hr : h.Fresh r ∧ r.op.Careful h.store) (hexec : h.exec namespaceId r = some h') :
    Settled namespaceId h'.used h'.store := by
  obtain ⟨kv', hkv', rfl⟩ := Option.map_eq_some_iff.mp hexec
  have hkeep : h.used ⊆ r.op.putIds ++ h.used := fun _ hid => mem_append_right _ hid
  cases exec_outcome hkv' with
  | changes cs chain puts asked _ =>
    have hids := newIds_eq_putIds puts
    have hnew := chain.settled (hr.2.change puts asked) (by rw [hids]; exact hr.1.1)
      (by rw [hids]; exact hr.1.2) hs
    rwa [hids] at hnew
  | linked osdId info _ same _ =>
    refine (hs.congr (fun id => same _ (by simp) (by simp)) fun d key hkey => ?_).mono hkeep
    rwa [Scheduled, same _ (by simp) (by simp)] at hkey
  | settings same _ =>
    refine (hs.congr (fun id => same _ (by simp)) fun d key hkey => ?_).mono hkeep
    rwa [Scheduled, same _ (by simp)] at hkey
  | cleared _ same fewer =>
    refine (hs.congr (fun id => same _ (by simp)) fun d key hkey => ?_).mono hkeep
    rw [Scheduled] at hkey ⊢
    rcases fewer (.keysToBeDeleted d key) with hnone | hsame
    · simp [hnone] at hkey
    · rwa [hsame] at hkey

theorem Settled.initial : Settled namespaceId History.initial.used History.initial.store := by
  constructor
  · intro id t ht
    simp [History.initial, kvGet] at ht
  · intro d key hkey
    simp [History.initial, Scheduled, kvGet] at hkey

theorem Settled.not_scheduled {used : List Bytes} {kv : Store} (hs : Settled namespaceId used kv)
    (hi : Indexed kv) {p : Placed} (hp : Live kv p) {key : Bytes} (hkey : p.HasKey namespaceId key)
    (d : OsdId) : ¬Scheduled kv d key := by
  intro hscheduled
  obtain ⟨id, t, ht, hp⟩ := hp
  obtain ⟨f, hf, _, hid, hd, hver⟩ := mem_placed.mp hp
  obtain ⟨q, hqkey, hqc, _, holder⟩ := hs.scheduled d key hscheduled
  obtain ⟨hids, hvers, hcs, hfs⟩ := hkey.inj hqkey (counted_of_mem_cells hf) hqc
  obtain ⟨_, he, htid, _⟩ := hi.objects id _ ht
  cases he
  have hlt := (holder t (by rw [← hids, hid, htid, ht])).2 f (by rwa [← hcs, ← hfs]) (by simp [hd])
  rw [hver, hvers] at hlt
  exact absurd hlt (lt_irrefl _)

end Runs

/-- In every run in which no object id is put twice and every request is careful with versions, no
fragment of a stored manifest is scheduled for deletion on its osd. -/
theorem live_not_scheduled (namespaceId : NamespaceId) (requests : List Request)
    (h : AllSteps (History.exec namespaceId) (fun h r => h.Fresh r ∧ r.op.Careful h.store)
      .initial requests) :
    ∀ p, Live (run (exec namespaceId) ∅ requests) p →
      ¬Scheduled (run (exec namespaceId) ∅ requests) p.osdId (p.fragmentKey namespaceId) ∧
        ¬Scheduled (run (exec namespaceId) ∅ requests) p.osdId (p.recoveryKey namespaceId) := by
  have hs := run_invariant_of (P := fun h : History => Settled namespaceId h.used h.store)
    (fun h r h' hs hr hexec => exec_settled hs hr hexec) Settled.initial h
  rw [History.store_run] at hs
  have hi := run_indexed namespaceId requests
  intro p hp
  exact ⟨hs.not_scheduled hi hp (Or.inl rfl) _, hs.not_scheduled hi hp (Or.inr rfl) _⟩

/-- The fragment is written again to its osd, in a later version. -/
def rewriteRequests (versionId : Int32) : List Request :=
  sampleRequests ++
    [{ op := .updateManifest (ascii ['a']) (ascii ['x']) [(0, 0, some 1)] 0 versionId }]

theorem live_not_scheduled_rewrite :
    Live (run (exec 0) ∅ (rewriteRequests 1)) (samplePlaced 1) ∧
      ¬Scheduled (run (exec 0) ∅ (rewriteRequests 1)) 1 ((samplePlaced 1).fragmentKey 0) := by
  have hlive : Live (run (exec 0) ∅ (rewriteRequests 1)) (samplePlaced 1) := by decide +kernel
  exact ⟨hlive, (live_not_scheduled 0 (rewriteRequests 1) (by decide +kernel) _ hlive).1⟩

/-- The update that keeps version zero is accepted for a fragment of version zero, and schedules the
key under which the fragment stays located. -/
theorem live_scheduled_version_zero :
    ¬∀ namespaceId requests,
      AllSteps (History.exec namespaceId) (fun h r => h.Fresh r) .initial requests →
      ∀ p, Live (run (exec namespaceId) ∅ requests) p →
        ¬Scheduled (run (exec namespaceId) ∅ requests) p.osdId (p.fragmentKey namespaceId) ∧
          ¬Scheduled (run (exec namespaceId) ∅ requests) p.osdId (p.recoveryKey namespaceId) := by
  intro h
  have hlive : Live (run (exec 0) ∅ (rewriteRequests 0)) (samplePlaced 0) := by decide +kernel
  have hscheduled : Scheduled (run (exec 0) ∅ (rewriteRequests 0)) 1
      ((samplePlaced 0).fragmentKey 0) := by decide +kernel
  exact (h 0 (rewriteRequests 0) (by decide +kernel) (samplePlaced 0) hlive).1 hscheduled

end Alba.Nsm
