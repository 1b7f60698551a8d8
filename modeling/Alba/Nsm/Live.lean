import Alba.Nsm.Policies

/-! The fragments that stored manifests locate on the osds, and the keys scheduled for deletion
there. A fragment that a request takes from an osd is scheduled on it, and a fragment that it locates
comes from a manifest or an update of the request. -/

namespace Alba.Nsm

open List hiding next
open ProofKit Std

/-- A stored manifest has the fragment at this place. -/
def Live (kv : Store) (p : Placed) : Prop :=
  ∃ id t, kvGet kv (.objects id) = some (.manifest t) ∧ p ∈ t.placed

theorem live_iff {kv : Store} {p : Placed} : Live kv p ↔ ∃ t ∈ storedManifests kv, p ∈ t.placed := by
  simp only [Live, mem_storedManifests, manifestAt_eq_some]
  constructor
  · rintro ⟨id, t, ht, hp⟩
    exact ⟨t, ⟨id, ht⟩, hp⟩
  · rintro ⟨t, ⟨id, ht⟩, hp⟩
    exact ⟨id, t, ht, hp⟩

instance (kv : Store) (p : Placed) : Decidable (Live kv p) := decidable_of_iff _ live_iff.symm

def Scheduled (kv : Store) (d : OsdId) (key : Bytes) : Prop :=
  (kvGet kv (.keysToBeDeleted d key)).isSome

instance (kv : Store) (d : OsdId) (key : Bytes) : Decidable (Scheduled kv d key) :=
  inferInstanceAs (Decidable (_ = true))

/-- The key is one of the two keys of the fragment. -/
def Placed.HasKey (namespaceId : NamespaceId) (p : Placed) (key : Bytes) : Prop :=
  key = p.fragmentKey namespaceId ∨ key = p.recoveryKey namespaceId

section Leaks

variable {namespaceId : NamespaceId} {c : Change} {kv kv' : Store} {p : Placed}

theorem mem_placed_updateWith {t : Manifest} {table : List FragmentUpdate} {versionId : Int32}
    (hp : p ∈ t.placed) :
    p ∈ (t.updateWith table versionId).placed ∨
      p ∈ placed t.objectId (fun q => (findUpdate table q.1 q.2).isSome) t.fragments := by
  obtain ⟨f, hf, _, hid, hd, hver⟩ := mem_placed.mp hp
  cases hfind : findUpdate table p.chunkId p.fragmentId with
  | none =>
    left
    refine mem_placed.mpr ⟨updateFragment table versionId p.chunkId p.fragmentId f, ?_, rfl, hid, ?_⟩
    · rw [Manifest.cells_updateWith]
      exact mem_map.mpr ⟨_, hf, rfl⟩
    · simp [updateFragment, hfind, hd, hver]
  | some fu => exact Or.inr (mem_placed.mpr ⟨f, hf, by simp [hfind], hid, hd, hver⟩)

@[simp] theorem Manifest.stored_placed (t : Manifest) : t.stored.placed = t.placed := by
  simp [Manifest.placed, Manifest.stored, Nsm.placed, cells_map, filterMap_map]

section

variable (h : Effect namespaceId c kv kv')
include h

theorem Effect.live_or_retired (hi : Indexed kv) (hp : Live kv p) : Live kv' p ∨ p ∈ c.retired := by
  obtain ⟨id, t, ht, hp⟩ := hp
  have hid : t.objectId = id := by
    obtain ⟨_, he, hid, _⟩ := hi.objects id _ ht
    cases he
    exact hid
  by_cases hmem : id ∈ c.slots.map Slot.objectId
  · obtain ⟨s, hs, rfl⟩ := mem_map.mp hmem
    have hbefore : s.before = some t := by
      have hget := h.before s hs
      rw [ht] at hget
      cases hsb : s.before with
      | none => simp [hsb] at hget
      | some t' => simpa [hsb] using hget.symm
    cases c with
    | put m gcEpoch old =>
      rcases mem_cons.mp hs with rfl | hs'
      · cases hbefore
      · obtain ⟨⟨oldId, oldManifest⟩, hold, rfl⟩ := mem_map.mp hs'
        cases hbefore
        refine Or.inr (mem_flatMap.mpr ⟨_, hold, ?_⟩)
        rwa [Manifest.placed, hid] at hp
    | delete name objectId t' =>
      cases mem_singleton.mp hs
      cases hbefore
      right
      rwa [Manifest.placed, hid] at hp
    | update objectId table gcEpoch versionId t' =>
      have hafter := h.after s hs
      cases mem_singleton.mp hs
      cases hbefore
      have hcases : p ∈ (t.updateWith table versionId).placed ∨ _ := mem_placed_updateWith hp
      rcases hcases with hnew | hretired
      · exact Or.inl ⟨_, _, hafter, hnew⟩
      · right
        rwa [hid] at hretired
  · exact Or.inl ⟨id, t, by rw [h.objects id hmem, ht], hp⟩

theorem Effect.scheduled {d : OsdId} {key : Bytes} (hs : Scheduled kv d key) : Scheduled kv' d key := by
  unfold Scheduled
  rw [h.deletes]
  split
  · rfl
  · exact hs

theorem Effect.scheduled_retired (hp : p ∈ c.retired) :
    Scheduled kv' p.osdId (p.fragmentKey namespaceId) ∧
      Scheduled kv' p.osdId (p.recoveryKey namespaceId) := by
  unfold Scheduled
  rw [h.deletes, h.deletes, if_pos (mem_scheduled.mpr ⟨p, hp, rfl, Or.inl rfl⟩),
    if_pos (mem_scheduled.mpr ⟨p, hp, rfl, Or.inr rfl⟩)]
  exact ⟨rfl, rfl⟩

theorem Effect.retired_live (hi : Indexed kv) (hp : p ∈ c.retired) : Live kv p := by
  have located : ∀ id t, kvGet kv (.objects id) = some (.manifest t) →
      ∀ q, p ∈ placed id q t.fragments → Live kv p := by
    intro id t ht q hp
    obtain ⟨_, he, hid, _⟩ := hi.objects id _ ht
    cases he
    obtain ⟨f, hf, _, hpid, hd, hver⟩ := mem_placed.mp hp
    exact ⟨id, t, ht, mem_placed.mpr ⟨f, hf, rfl, hpid.trans hid.symm, hd, hver⟩⟩
  cases c with
  | put m gcEpoch old =>
    rw [Change.retired] at hp
    obtain ⟨⟨oldId, t⟩, hold, hold'⟩ := mem_flatMap.mp hp
    cases Option.mem_toList.mp hold
    exact located oldId t h.old_before _ hold'
  | delete name objectId t =>
    rw [Change.retired] at hp
    exact located objectId t h.delete_before _ hp
  | update objectId table gcEpoch versionId t =>
    rw [Change.retired] at hp
    exact located objectId t h.update_before _ hp

theorem Effect.scheduled_from (hi : Indexed kv) {d : OsdId}
    {key : Bytes} (hs : Scheduled kv' d key) : Scheduled kv d key ∨
      ∃ p : Placed, p.osdId = d ∧ p.HasKey namespaceId key ∧ Live kv p := by
  unfold Scheduled at hs
  rw [h.deletes] at hs
  split at hs
  · rename_i hmem
    obtain ⟨p, hp, hd, hkey⟩ := mem_scheduled.mp hmem
    exact Or.inr ⟨p, hd, hkey, h.retired_live hi hp⟩
  · exact Or.inl hs

end

theorem Chain.live_or_scheduled {cs : List Change} (h : Chain namespaceId cs kv kv')
    (hi : Indexed kv) (hp : Live kv p) :
    Live kv' p ∨ (Scheduled kv' p.osdId (p.fragmentKey namespaceId) ∧
      Scheduled kv' p.osdId (p.recoveryKey namespaceId)) := by
  induction h with
  | nil => exact Or.inl hp
  | cons effect rest ih =>
    rcases effect.live_or_retired hi hp with hlive | hretired
    · exact ih (effect.indexed hi) hlive
    · -- what one change schedules, the others leave scheduled
      have hkeep : ∀ d key, Scheduled _ d key → Scheduled _ d key := fun d key =>
        rest.preserves (P := fun kv => Scheduled kv d key) fun _ _ _ effect => effect.scheduled
      exact Or.inr ((effect.scheduled_retired hretired).imp (hkeep _ _) (hkeep _ _))

end Leaks

section Origins

variable {namespaceId : NamespaceId} {c : Change} {kv kv' : Store} {p : Placed} {cs : List Change}

theorem mem_cells_updateWith {t : Manifest} {table : List FragmentUpdate} {versionId : Int32}
    {e : (Nat × Nat) × Fragment} (he : e ∈ cells (t.updateWith table versionId).fragments) :
    (∃ fu, findUpdate table e.1.1 e.1.2 = some fu ∧ e.2.osd = fu.osdIdO ∧ e.2.ver = versionId) ∨
      ∃ f, (e.1, f) ∈ cells t.fragments ∧ f.osd = e.2.osd ∧ f.ver = e.2.ver ∧
        findUpdate table e.1.1 e.1.2 = none := by
  rw [Manifest.cells_updateWith] at he
  obtain ⟨⟨q, f⟩, hf, rfl⟩ := mem_map.mp he
  dsimp only
  unfold updateFragment
  cases hfind : findUpdate table q.1 q.2 with
  | none => exact Or.inr ⟨f, hf, rfl, rfl, rfl⟩
  | some fu => exact Or.inl ⟨fu, rfl, rfl, rfl⟩

theorem Effect.stored_cases (h : Effect namespaceId c kv kv') {id : Bytes} {t' : Manifest}
    (ht' : kvGet kv' (.objects id) = some (.manifest t')) :
    (id ∉ c.slots.map Slot.objectId ∧ kvGet kv (.objects id) = some (.manifest t')) ∨
    (∃ gcEpoch old, c = .put t' gcEpoch old ∧ id = t'.objectId) ∨
    ∃ table gcEpoch versionId t, c = .update id table gcEpoch versionId t ∧
      kvGet kv (.objects id) = some (.manifest t) ∧ t' = t.updateWith table versionId := by
  by_cases hid : id ∈ c.slots.map Slot.objectId
  · obtain ⟨s, hs, rfl⟩ := mem_map.mp hid
    have hafter : s.after = some t' := by
      have hget := h.after s hs
      rw [ht'] at hget
      cases hsa : s.after with
      | none => simp [hsa] at hget
      | some t => simpa [hsa] using hget.symm
    right
    cases c with
    | put m gcEpoch old =>
      rcases mem_cons.mp hs with rfl | hs'
      · cases hafter
        exact Or.inl ⟨gcEpoch, old, rfl, rfl⟩
      · obtain ⟨o, _, rfl⟩ := mem_map.mp hs'
        cases hafter
    | delete name objectId t =>
      cases mem_singleton.mp hs
      cases hafter
    | update objectId table gcEpoch versionId t =>
      have hbefore := h.before s hs
      cases mem_singleton.mp hs
      cases hafter
      exact Or.inr ⟨table, gcEpoch, versionId, t, rfl, hbefore, rfl⟩
  · exact Or.inl ⟨hid, by rw [← h.objects id hid, ht']⟩

/-- The change locates the fragment at this place. -/
def Change.Brings (p : Placed) : Change → Prop
  | put m _ _ => p ∈ m.placed
  | delete _ _ _ => False
  | update _ table _ versionId t => p.objectId = t.objectId ∧ p.versionId = versionId ∧
      ∃ fu ∈ table, fu.index = ((p.chunkId : Int), (p.fragmentId : Int)) ∧ fu.osdIdO = some p.osdId

def Change.gcEpoch? : Change → Option Int64
  | put _ gcEpoch _ | update _ _ gcEpoch _ _ => some gcEpoch
  | delete _ _ _ => none

theorem Effect.live_from (h : Effect namespaceId c kv kv') (hp : Live kv' p) :
    Live kv p ∨ c.Brings p := by
  obtain ⟨id, t', ht', hp⟩ := hp
  rcases h.stored_cases ht' with ⟨_, ht⟩ | ⟨gcEpoch, old, rfl, _⟩ |
    ⟨table, gcEpoch, versionId, t, rfl, ht, rfl⟩
  · exact Or.inl ⟨id, t', ht, hp⟩
  · exact Or.inr hp
  · obtain ⟨f, hf, _, hid, hd, hver⟩ := mem_placed.mp hp
    rcases mem_cells_updateWith hf with ⟨fu, hfind, hfo, hfv⟩ | ⟨f', hf', hfo, hfv, _⟩
    · refine Or.inr ⟨hid, hver.symm.trans hfv, fu, mem_of_find?_eq_some hfind, ?_, ?_⟩
      · simpa using find?_some hfind
      · exact hfo.symm.trans hd
    · exact Or.inl ⟨id, t, ht, mem_placed.mpr ⟨f', hf', rfl, hid, hfo.trans hd, hfv.trans hver⟩⟩

theorem Effect.minimumEpoch_le (h : Effect namespaceId c kv kv') {gcEpoch : Int64}
    (he : c.gcEpoch? = some gcEpoch) : minimumEpoch kv ≤ gcEpoch.toInt := by
  have hepoch := h.epoch
  have hvalid : ∃ v epochs, getGcEpochs kv = .ok (v, epochs) ∧ epochs.isValidEpoch gcEpoch = true := by
    cases c with
    | put m e old =>
      cases he
      exact hepoch
    | delete name objectId t => cases he
    | update objectId table e versionId t =>
      cases he
      exact hepoch
  obtain ⟨v, epochs, hget, hv⟩ := hvalid
  simp only [GcEpochs.isValidEpoch, Bool.and_eq_true, decide_eq_true_eq] at hv
  simpa [minimumEpoch, hget] using Int64.le_iff_toInt_le.mp hv.1

theorem Effect.minimumEpoch_eq (h : Effect namespaceId c kv kv') : minimumEpoch kv' = minimumEpoch kv :=
  minimumEpoch_congr (h.frame _ (by simp [frameKinds]))

theorem Chain.minimumEpoch_eq (h : Chain namespaceId cs kv kv') :
    minimumEpoch kv' = minimumEpoch kv := by
  induction h with
  | nil => rfl
  | cons effect _ ih => rw [ih, effect.minimumEpoch_eq]

theorem Chain.live_from (h : Chain namespaceId cs kv kv') (hp : Live kv' p) :
    Live kv p ∨ ∃ c ∈ cs, c.Brings p ∧ ∀ e, c.gcEpoch? = some e → minimumEpoch kv ≤ e.toInt := by
  induction h with
  | nil => exact Or.inl hp
  | cons effect _ ih =>
    rcases ih hp with hlive | ⟨c, hc, hbrings, hepoch⟩
    · rcases effect.live_from hlive with hlive | hbrings
      · exact Or.inl hlive
      · exact Or.inr ⟨_, by simp, hbrings, fun e => effect.minimumEpoch_le⟩
    · rw [effect.minimumEpoch_eq] at hepoch
      exact Or.inr ⟨c, mem_cons_of_mem _ hc, hbrings, hepoch⟩

/-- A key that a chain of changes schedules is one of a fragment that was located before, or that
the chain locates and takes away again. -/
theorem Chain.scheduled_from (h : Chain namespaceId cs kv kv') (hi : Indexed kv) {d : OsdId}
    {key : Bytes} (hs : Scheduled kv' d key) : Scheduled kv d key ∨
      ∃ p : Placed, p.osdId = d ∧ p.HasKey namespaceId key ∧
        (Live kv p ∨ (1 < cs.length ∧ ∃ c ∈ cs, c.Brings p)) := by
  induction h with
  | nil => exact Or.inl hs
  | @cons c cs kv mid kv' effect rest ih =>
    have first : Scheduled mid d key → Scheduled kv d key ∨ ∃ p : Placed, p.osdId = d ∧
        p.HasKey namespaceId key ∧ (Live kv p ∨ (1 < (c :: cs).length ∧ ∃ c' ∈ c :: cs,
          c'.Brings p)) := fun hs => (effect.scheduled_from hi hs).imp id
      fun ⟨p, hd, hkey, hlive⟩ => ⟨p, hd, hkey, Or.inl hlive⟩
    rcases ih (effect.indexed hi) hs with hmid | ⟨p, hd, hkey, hp⟩
    · exact first hmid
    · by_cases hcs : cs = []
      · subst hcs
        cases rest
        exact first hs
      · have hlength : 1 < (c :: cs).length := by
          simpa using length_pos_of_ne_nil hcs
        refine Or.inr ⟨p, hd, hkey, ?_⟩
        rcases hp with hlive | ⟨_, c', hc', hbrings⟩
        · exact (effect.live_from hlive).imp id fun hbrings => ⟨hlength, c, by simp, hbrings⟩
        · exact Or.inr ⟨hlength, c', mem_cons_of_mem _ hc', hbrings⟩

end Origins

section Steps

variable {namespaceId : NamespaceId} {kv kv' : Store} {r : Request} {p : Placed} {d : OsdId}
  {key : Bytes}

theorem Live.congr (hp : Live kv p) (h : ∀ id, kvGet kv' (.objects id) = kvGet kv (.objects id)) :
    Live kv' p := by
  obtain ⟨id, t, ht, hp⟩ := hp
  exact ⟨id, t, by rw [h, ht], hp⟩

theorem mem_puts_of_brings {cs : List Change} (puts : cs.filterMap Change.put? = r.op.storedPuts)
    {m : Manifest} {gcEpoch : Int64} {old : Option (Bytes × Manifest)}
    (hc : .put m gcEpoch old ∈ cs) (hp : (Change.put m gcEpoch old).Brings p) :
    ∃ m', (m', gcEpoch) ∈ r.op.puts ∧ p ∈ m'.placed := by
  have hmem : (m, gcEpoch) ∈ r.op.storedPuts := by
    rw [← puts]
    exact mem_filterMap.mpr ⟨_, hc, rfl⟩
  obtain ⟨⟨m', e⟩, hm', heq⟩ := mem_map.mp hmem
  cases heq
  exact ⟨m', hm', by rwa [Change.Brings, Manifest.stored_placed] at hp⟩

section

variable (h : exec namespaceId kv r = some kv')
include h

theorem exec_live_or_scheduled (hi : Indexed kv) (hp : Live kv p) :
    Live kv' p ∨ (Scheduled kv' p.osdId (p.fragmentKey namespaceId) ∧
      Scheduled kv' p.osdId (p.recoveryKey namespaceId)) := by
  cases exec_outcome h with
  | changes cs chain _ _ _ => exact chain.live_or_scheduled hi hp
  | linked osdId info _ same _ => exact Or.inl (hp.congr fun id => same _ (by simp) (by simp))
  | settings same _ => exact Or.inl (hp.congr fun id => same _ (by simp))
  | cleared _ same _ => exact Or.inl (hp.congr fun id => same _ (by simp))

theorem exec_minimumEpoch : minimumEpoch kv ≤ minimumEpoch kv' := by
  cases exec_outcome h with
  | changes cs chain _ _ _ => rw [chain.minimumEpoch_eq]
  | linked osdId info _ same _ => rw [minimumEpoch_congr (same _ (by simp) (by simp))]
  | settings _ epochs => exact epochs
  | cleared _ same _ => rw [minimumEpoch_congr (same _ (by simp))]

/-- A fragment that a request locates is in a manifest that it puts or in an update that it makes,
with a gc epoch that is not disabled. -/
theorem exec_live_from (hi : Indexed kv) (hp : Live kv' p) :
    Live kv p ∨
      (∃ m gcEpoch, (m, gcEpoch) ∈ r.op.puts ∧ p ∈ m.placed ∧ minimumEpoch kv ≤ gcEpoch.toInt) ∨
      ∃ fus gcEpoch, (p.objectId, fus, gcEpoch, p.versionId) ∈ r.op.manifestUpdates ∧
        minimumEpoch kv ≤ gcEpoch.toInt ∧
        ∃ fu ∈ fus, fu.index = ((p.chunkId : Int), (p.fragmentId : Int)) ∧
          fu.osdIdO = some p.osdId := by
  cases exec_outcome h with
  | changes cs chain puts asked _ =>
    rcases chain.live_from hp with hlive | ⟨c, hc, hbrings, hepoch⟩
    · exact Or.inl hlive
    · right
      cases c with
      | put m gcEpoch old =>
        obtain ⟨m', hm', hp⟩ := mem_puts_of_brings puts hc hbrings
        exact Or.inl ⟨m', gcEpoch, hm', hp, hepoch gcEpoch rfl⟩
      | delete name objectId t => exact absurd hbrings id
      | update objectId table gcEpoch versionId t =>
        obtain ⟨ht, fus, hmem, htable⟩ := asked _ hc
        obtain ⟨hid, rfl, fu, hfu, hindex, hosd⟩ := hbrings
        obtain ⟨rfl, _⟩ := fragmentTable_eq htable
        obtain ⟨_, he, htid, _⟩ := hi.objects objectId _ ht
        cases he
        rw [htid] at hid
        subst hid
        exact Or.inr ⟨fus, gcEpoch, hmem, hepoch _ rfl, fu, mem_reverse.mp hfu, hindex, hosd⟩
  | linked osdId info _ same _ =>
    exact Or.inl (hp.congr fun id => (same _ (by simp) (by simp)).symm)
  | settings same _ => exact Or.inl (hp.congr fun id => (same _ (by simp)).symm)
  | cleared _ same _ => exact Or.inl (hp.congr fun id => (same _ (by simp)).symm)

/-- A key that a request schedules is one of a fragment that was located before, or that the request
itself puts and takes away again. -/
theorem exec_scheduled_from (hi : Indexed kv)
    (hs : Scheduled kv' d key) : Scheduled kv d key ∨
      ∃ p : Placed, p.osdId = d ∧ p.HasKey namespaceId key ∧
        (Live kv p ∨ ∃ m gcEpoch, (m, gcEpoch) ∈ r.op.puts ∧ p ∈ m.placed) := by
  cases exec_outcome h with
  | changes cs chain puts asked alone =>
    refine (chain.scheduled_from hi hs).imp id ?_
    rintro ⟨p, hd, hkey, hlive | ⟨hlength, c, hc, hbrings⟩⟩
    · exact ⟨p, hd, hkey, Or.inl hlive⟩
    · cases c with
      | put m gcEpoch old =>
        obtain ⟨m', hm', hp⟩ := mem_puts_of_brings puts hc hbrings
        exact ⟨p, hd, hkey, Or.inr ⟨m', gcEpoch, hm', hp⟩⟩
      | delete name objectId t => exact absurd hbrings id
      | update objectId table gcEpoch versionId t =>
        -- a request with an update makes no other change
        obtain ⟨_, fus, hmem, _⟩ := asked _ hc
        have := alone (ne_nil_of_mem hmem)
        omega
  | linked osdId info _ same _ =>
    left
    rwa [Scheduled, ← same _ (by simp) (by simp)]
  | settings same _ =>
    left
    rwa [Scheduled, ← same _ (by simp)]
  | cleared _ _ fewer =>
    left
    rcases fewer (.keysToBeDeleted d key) with hnone | heq
    · simp [Scheduled, hnone] at hs
    · rwa [Scheduled, ← heq]

end

theorem exec_mark_scheduled {osdId : OsdId} {keys : List Bytes}
    (h : exec namespaceId kv { op := .markKeysDeleted [(osdId, keys)] } = some kv')
    (hs : Scheduled kv d key) : Scheduled kv' d key ∨ (d = osdId ∧ key ∈ keys) := by
  obtain ⟨us, hop, hc⟩ := exec_eq_some.mp h
  cases hop
  have get : kvGet kv' (.keysToBeDeleted d key) = _ := commit_get Key.encode_injective hc _
  rw [runKey_markKeysDeleted] at get
  by_cases hmem : .delete (.keysToBeDeleted d key) ∈ markKeysDeleted [(osdId, keys)]
  · right
    obtain ⟨l, hl, hul⟩ := mem_flattenUnordered.mp hmem
    cases mem_singleton.mp hl
    obtain ⟨key', hkey', heq⟩ := mem_map.mp hul
    cases heq
    exact ⟨rfl, hkey'⟩
  · rw [if_neg hmem] at get
    left
    rwa [Scheduled, get]

theorem exec_put_live {overwrite : Overwrite} {m : Manifest} {gcEpoch : Int64}
    {cache : Option (BitVec 64 × Preset)}
    (h : exec namespaceId kv { op := .putObject overwrite m gcEpoch, cache } = some kv')
    (hp : p ∈ m.placed) : Live kv' p := by
  obtain ⟨us, hop, hc⟩ := exec_eq_some.mp h
  obtain ⟨⟨us', oldInfo⟩, hput, rfl⟩ := map_eq_ok.mp hop
  obtain ⟨old, heffect, _⟩ := putObject_effect rfl hput hc
  exact ⟨_, _, heffect.put_after, by rwa [Manifest.stored_placed]⟩

theorem exec_scheduled (h : exec namespaceId kv r = some kv') (hs : Scheduled kv d key) :
    Scheduled kv' d key ∨ (∃ keys, r.op = .markKeysDeleted keys) ∨
      ∃ osdId, r.op = .cleanupOsdKeysToBeDeleted osdId := by
  cases exec_outcome h with
  | changes cs chain _ _ _ =>
    left
    exact chain.preserves (P := fun kv => Scheduled kv d key)
      (fun _ _ _ effect => effect.scheduled) hs
  | linked osdId info _ same _ =>
    left
    rwa [Scheduled, same _ (by simp) (by simp)]
  | settings same _ =>
    left
    rwa [Scheduled, same _ (by simp)]
  | cleared request _ _ => exact Or.inr request

end Steps

/-- Whatever a request takes from an osd is scheduled there, and only the requests that report keys
as deleted remove what is scheduled. -/
theorem retired_scheduled_reachable (namespaceId : NamespaceId) (requests : List Request)
    (r : Request) :
    let kv := run (exec namespaceId) ∅ requests
    let kv' := next (exec namespaceId) kv r
    (∀ p, Live kv p → ¬Live kv' p → Scheduled kv' p.osdId (p.fragmentKey namespaceId) ∧
      Scheduled kv' p.osdId (p.recoveryKey namespaceId)) ∧
    ∀ d key, Scheduled kv d key → ¬Scheduled kv' d key →
      (∃ keys, r.op = .markKeysDeleted keys) ∨ ∃ osdId, r.op = .cleanupOsdKeysToBeDeleted osdId := by
  intro kv kv'
  have hi : Indexed kv := run_indexed namespaceId requests
  refine ⟨fun p hp => ?_, fun d key hs => ?_⟩
  · refine next_invariant (P := fun kv' => ¬Live kv' p → Scheduled kv' _ _ ∧ Scheduled kv' _ _)
      (absurd hp) fun s' h hnot => ?_
    exact (exec_live_or_scheduled h hi hp).resolve_left hnot
  · refine next_invariant (P := fun kv' => ¬Scheduled kv' d key → _ ∨ _)
      (absurd hs) fun s' h hnot => ?_
    exact (exec_scheduled h hs).resolve_left hnot

/-- The fragment of `sampleManifest` in a version. -/
def samplePlaced (versionId : Int32) : Placed :=
  { osdId := 1, objectId := ascii ['x'], versionId, chunkId := 0, fragmentId := 0 }

theorem retired_scheduled_sample :
    Scheduled
      (next (exec 0) (run (exec 0) ∅ sampleRequests)
        { op := .deleteObject (ascii ['a']) .unconditionally })
      1 ((samplePlaced 0).fragmentKey 0) :=
  ((retired_scheduled_reachable 0 sampleRequests
    { op := .deleteObject (ascii ['a']) .unconditionally }).1 (samplePlaced 0) (by decide +kernel)
    (by decide +kernel)).1

section Keys

variable {namespaceId : NamespaceId} {p q : Placed} {key : Bytes}

/-- The place lies in a layout that can be counted in 32 bits. -/
def Placed.Counted (p : Placed) : Prop := p.chunkId < 2 ^ 31 ∧ p.fragmentId < 2 ^ 31

instance (p : Placed) : Decidable p.Counted := inferInstanceAs (Decidable (_ ∧ _))

theorem ofInt_natCast_inj {a b : Nat} (ha : a < 2 ^ 31) (hb : b < 2 ^ 31)
    (h : BitVec.ofInt 32 (a : Int) = BitVec.ofInt 32 (b : Int)) : a = b := by
  have hnat := congrArg BitVec.toNat h
  simp only [BitVec.ofInt_natCast, BitVec.toNat_ofNat] at hnat
  omega

theorem ofInt_toInt_inj {v w : Int32} (h : BitVec.ofInt 32 v.toInt = BitVec.ofInt 32 w.toInt) :
    v = w := by
  rw [← Int32.toInt_toBitVec, ← Int32.toInt_toBitVec, BitVec.ofInt_toInt, BitVec.ofInt_toInt] at h
  exact Int32.toBitVec_inj.mp h

theorem Placed.HasKey.suffix (hp : p.HasKey namespaceId key) :
    ∃ tag : Bytes, tag.length = 1 ∧ key = toGlobalKey namespaceId
      (tag ++ fragmentSuffix p.objectId p.chunkId p.fragmentId p.versionId.toInt) := by
  rcases hp with rfl | rfl
  · exact ⟨ascii ['o'], rfl, rfl⟩
  · exact ⟨ascii ['r'], rfl, rfl⟩

theorem Placed.HasKey.inj (hp : p.HasKey namespaceId key) (hq : q.HasKey namespaceId key)
    (hpc : p.Counted) (hqc : q.Counted) : p.objectId = q.objectId ∧ p.versionId = q.versionId ∧
      p.chunkId = q.chunkId ∧ p.fragmentId = q.fragmentId := by
  obtain ⟨tag, htag, rfl⟩ := hp.suffix
  obtain ⟨tag', htag', hkey⟩ := hq.suffix
  obtain ⟨_, hsuffix⟩ := append_inj (toGlobalKey_inj.mp hkey) (htag.trans htag'.symm)
  obtain ⟨hid, hc, hf, hv⟩ := fragmentSuffix_eq_iff.mp hsuffix
  exact ⟨hid, ofInt_toInt_inj hv, ofInt_natCast_inj hpc.1 hqc.1 hc, ofInt_natCast_inj hpc.2 hqc.2 hf⟩

theorem counted_of_mem_cells {t : Manifest} {c i : Nat} {f : Fragment}
    (h : ((c, i), f) ∈ cells t.fragments) : c < 2 ^ 31 ∧ i < 2 ^ 31 := by
  obtain ⟨row, hrow, hf⟩ := mem_cells.mp h
  have hc := (List.getElem?_eq_some_iff.mp hrow).1
  have hi := (List.getElem?_eq_some_iff.mp hf).1
  have hmem := mem_of_getElem? hrow
  exact ⟨hc.trans t.counted.1, hi.trans (t.counted.2 row hmem)⟩

theorem Live.counted {kv : Store} (hp : Live kv p) : p.Counted := by
  obtain ⟨id, t, _, hp⟩ := hp
  obtain ⟨f, hf, _⟩ := mem_placed.mp hp
  exact counted_of_mem_cells hf

end Keys

end Alba.Nsm
