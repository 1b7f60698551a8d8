import Alba.Nsm.Effects

/-! What a successful request can do. A request on objects makes a chain of changes, one for each
object that it puts, deletes or updates; the other requests touch only keys of their own kinds. -/

namespace Alba.Nsm

open ProofKit Std List

variable {kv kv' : Store}

inductive Chain (namespaceId : NamespaceId) : List Change → Store → Store → Prop
  | nil (kv : Store) : Chain namespaceId [] kv kv
  | cons {c : Change} {cs : List Change} {kv mid kv' : Store} (effect : Effect namespaceId c kv mid)
      (rest : Chain namespaceId cs mid kv') : Chain namespaceId (c :: cs) kv kv'

def NsmUpdate.put? : NsmUpdate → Option (Manifest × Int64)
  | .putObject manifest gcEpoch => some (manifest, gcEpoch)
  | .deleteObject _ => none

def Op.puts : Op → List (Manifest × Int64)
  | .putObject _ manifest gcEpoch => [(manifest, gcEpoch)]
  | .applySequence _ _ order => order.filterMap NsmUpdate.put?
  | _ => []

def Change.put? : Change → Option (Manifest × Int64)
  | .put manifest gcEpoch _ => some (manifest, gcEpoch)
  | _ => none

def Op.storedPuts (op : Op) : List (Manifest × Int64) := op.puts.map fun p => (p.1.stored, p.2)

def Op.manifestUpdates : Op → List (Bytes × List FragmentUpdate × Int64 × Int32)
  | .updateManifest _ objectId newFragments gcEpoch versionId =>
    [(objectId, newFragments.map fun (chunkId, fragmentId, osdIdO) =>
      { chunkId, fragmentId, osdIdO, sizeChange := none, ctr := none, fnr := none },
      gcEpoch, versionId)]
  | .updateManifest2 _ objectId newFragments gcEpoch versionId =>
    [(objectId, newFragments, gcEpoch, versionId)]
  | _ => []

/-- An update is one that the request asks for, of the manifest that the request finds. -/
def Change.From (op : Op) (kv : Store) : Change → Prop
  | put _ _ _ | delete _ _ _ => True
  | update objectId table gcEpoch versionId t =>
    kvGet kv (.objects objectId) = some (.manifest t) ∧
      ∃ fus, (objectId, fus, gcEpoch, versionId) ∈ op.manifestUpdates ∧ fragmentTable fus = .ok table

def minimumEpoch (kv : Store) : Int :=
  match getGcEpochs kv with
  | .ok (_, epochs) => epochs.minimumEpoch.toInt
  | .error _ => 0

inductive Outcome (namespaceId : NamespaceId) (op : Op) (kv kv' : Store) : Prop
  | changes (cs : List Change) (chain : Chain namespaceId cs kv kv')
      (puts : cs.filterMap Change.put? = op.storedPuts) (asked : ∀ c ∈ cs, c.From op kv)
      (alone : op.manifestUpdates ≠ [] → cs.length ≤ 1)
  | linked (osdId : OsdId) (info : OsdInfo) (request : op = .linkOsd osdId info)
      (same : ∀ k, k ≠ .activeOsds osdId → k ≠ .osdInfo osdId → kvGet kv' k = kvGet kv k)
      (stored : kvGet kv' (.osdInfo osdId) = some (.osdInfo info))
  | settings (same : ∀ k, k.kind ∉ [.activeOsds, .gcEpochs, .preset, .presetVersion] →
      kvGet kv' k = kvGet kv k) (epochs : minimumEpoch kv ≤ minimumEpoch kv')
  | cleared (request : (∃ keys, op = .markKeysDeleted keys) ∨
        ∃ osdId, op = .cleanupOsdKeysToBeDeleted osdId)
      (same : ∀ k, k.kind ≠ .keysToBeDeleted → kvGet kv' k = kvGet kv k)
      (fewer : ∀ k, kvGet kv' k = none ∨ kvGet kv' k = kvGet kv k)

/-- The kinds of keys that requests other than changes of objects write. -/
def Kind.outside : List Kind :=
  [.activeOsds, .osdInfo, .gcEpochs, .preset, .presetVersion, .keysToBeDeleted]

theorem nodeOf_congr (h : ∀ d, kvGet kv' (.osdInfo d) = kvGet kv (.osdInfo d)) :
    nodeOf kv' = nodeOf kv := by
  funext d
  simp only [nodeOf, h]

theorem Effect.nodeOf {namespaceId : NamespaceId} {c : Change} (h : Effect namespaceId c kv kv') :
    Nsm.nodeOf kv' = Nsm.nodeOf kv :=
  nodeOf_congr fun d => h.frame _ (by simp [frameKinds])

section Sequence

variable {namespaceId : NamespaceId} {cache : Option (BitVec 64 × Preset)} {kv₀ kv kv' : Store}
  {us : List Upd}

theorem Chain.append {cs cs' : List Change} {kv mid kv' : Store}
    (h : Chain namespaceId cs kv mid) (h' : Chain namespaceId cs' mid kv') :
    Chain namespaceId (cs ++ cs') kv kv' := by
  induction h with
  | nil => exact h'
  | cons effect _ ih => exact .cons effect (ih h')

theorem Chain.preserves {P : Store → Prop}
    (effect : ∀ c kv kv', Effect namespaceId c kv kv' → P kv → P kv') {cs : List Change}
    (h : Chain namespaceId cs kv kv') (hp : P kv) : P kv' := by
  induction h with
  | nil => exact hp
  | cons e _ ih => exact ih (effect _ _ _ e hp)

theorem Chain.nodeOf {cs : List Change} (h : Chain namespaceId cs kv kv') :
    Nsm.nodeOf kv' = Nsm.nodeOf kv := by
  induction h with
  | nil => rfl
  | cons effect _ ih => rw [ih, effect.nodeOf]

theorem updatesForUpdate_chain {op : Op} {u : NsmUpdate} (hnode : nodeOf kv = nodeOf kv₀)
    (hop : updatesForUpdate namespaceId cache kv₀ u = .ok us) (h : commit Key.encode kv us = some kv') :
    ∃ cs, Chain namespaceId cs kv kv' ∧
      cs.filterMap Change.put? = u.put?.toList.map (fun p => (p.1.stored, p.2)) ∧
      ∀ c ∈ cs, c.From op kv₀ := by
  cases u with
  | putObject m gcEpoch =>
    obtain ⟨⟨us', oldInfo⟩, hput, rfl⟩ := map_eq_ok.mp hop
    obtain ⟨old, heffect, _⟩ := putObject_effect hnode hput h
    refine ⟨[_], .cons heffect (.nil _), rfl, ?_⟩
    simp [Change.From]
  | deleteObject name =>
    obtain ⟨⟨us', deleted⟩, hdelete, rfl⟩ := map_eq_ok.mp hop
    rcases deleteObject_effect hnode hdelete h with ⟨rfl, _⟩ | ⟨id, t, _, heffect⟩
    · exact ⟨[], .nil _, rfl, by simp⟩
    · refine ⟨[_], .cons heffect (.nil _), rfl, ?_⟩
      simp [Change.From]

theorem updatesForUpdates_chain {op : Op} {order : List NsmUpdate} {lists : List (List Upd)}
    (hnode : nodeOf kv = nodeOf kv₀)
    (hop : order.mapM (updatesForUpdate namespaceId cache kv₀) = .ok lists)
    (h : commit Key.encode kv lists.flatten = some kv') :
    ∃ cs, Chain namespaceId cs kv kv' ∧
      cs.filterMap Change.put? = (order.filterMap NsmUpdate.put?).map (fun p => (p.1.stored, p.2)) ∧
      ∀ c ∈ cs, c.From op kv₀ := by
  induction order generalizing kv lists with
  | nil =>
    cases hop
    cases h
    exact ⟨[], .nil _, rfl, by simp⟩
  | cons u order ih =>
    simp only [mapM_cons, bind_eq_ok] at hop
    obtain ⟨us, hus, rest, hrest, hop⟩ := hop
    cases hop
    rw [flatten_cons, commit_append, Option.bind_eq_some_iff] at h
    obtain ⟨mid, hmid, hlast⟩ := h
    obtain ⟨cs, hchain, hputs, hfrom⟩ := updatesForUpdate_chain hnode hus hmid
    obtain ⟨cs', hchain', hputs', hfrom'⟩ := ih (hchain.nodeOf.trans hnode) hrest hlast
    refine ⟨cs ++ cs', hchain.append hchain', ?_, fun c hc => ?_⟩
    · rw [filterMap_append, hputs, hputs']
      cases hu : u.put? <;> simp [hu]
    · rcases mem_append.mp hc with hc | hc
      · exact hfrom c hc
      · exact hfrom' c hc

def Assert.name : Assert → Bytes
  | .objectExists name => name
  | .objectDoesNotExist name => name
  | .objectHasId name _ => name
  | .objectHasChecksum name _ => name

def Assert.Holds (kv : Store) : Assert → Prop
  | .objectExists name => kvGet kv (.names name) ≠ none
  | .objectDoesNotExist name => kvGet kv (.names name) = none
  | .objectHasId name id => kvGet kv (.names name) = some (.objectInfo id)
  | .objectHasChecksum name checksum => ∃ id t, kvGet kv (.names name) = some (.objectInfo id) ∧
    kvGet kv (.objects id) = some (.manifest t) ∧ t.checksum = checksum

theorem updateForAssert_ok_iff {a : Assert} {u : Upd} : updateForAssert kv a = .ok u ↔
    a.Holds kv ∧ u = .assert (.names a.name) (kvGet kv (.names a.name)) := by
  cases a with
  | objectExists n =>
    simp only [updateForAssert, bind_eq_ok, check_eq_ok, Assert.Holds, Assert.name]
    constructor
    · rintro ⟨_, h, he⟩
      cases he
      exact ⟨h, rfl⟩
    · rintro ⟨h, rfl⟩
      exact ⟨(), h, rfl⟩
  | objectDoesNotExist n =>
    simp only [updateForAssert, bind_eq_ok, check_eq_ok, Assert.Holds, Assert.name]
    constructor
    · rintro ⟨_, h, he⟩
      cases he
      exact ⟨h, by rw [h]⟩
    · rintro ⟨h, rfl⟩
      exact ⟨(), h, by rw [h]; rfl⟩
  | objectHasId n id =>
    simp only [updateForAssert, bind_eq_ok, check_eq_ok, Assert.Holds, Assert.name,
      asObjectId_eq_ok]
    constructor
    · rintro ⟨v, hv, _, rfl, _, rfl, he⟩
      cases he
      cases hget : kvGet kv (.names n) with
      | none => simp [hget] at hv
      | some v =>
        rw [hget] at hv
        cases hv
        exact ⟨rfl, rfl⟩
    · rintro ⟨h, rfl⟩
      exact ⟨.objectInfo id, by rw [h]; rfl, id, rfl, (), rfl, by rw [h]; rfl⟩
  | objectHasChecksum n checksum =>
    simp only [updateForAssert, bind_eq_ok, check_eq_ok, Assert.Holds, Assert.name,
      asObjectId_eq_ok, getObjectManifestById_eq_ok]
    constructor
    · rintro ⟨v, hv, id, rfl, t, ht, _, hsum, he⟩
      cases he
      cases hget : kvGet kv (.names n) with
      | none => simp [hget] at hv
      | some v =>
        rw [hget] at hv
        cases hv
        exact ⟨⟨id, t, rfl, ht, hsum⟩, rfl⟩
    · rintro ⟨⟨id, t, h, ht, hsum⟩, rfl⟩
      exact ⟨.objectInfo id, by rw [h]; rfl, id, rfl, t, ht, (), hsum, by rw [h]; rfl⟩

def checksOf (kv : Store) (asserts : List Assert) : List Upd :=
  asserts.map fun a => .assert (.names a.name) (kvGet kv (.names a.name))

theorem mapM_updateForAssert_ok_iff {asserts : List Assert} :
    asserts.mapM (updateForAssert kv) = .ok us ↔
      (∀ a ∈ asserts, a.Holds kv) ∧ us = checksOf kv asserts := by
  constructor
  · intro h
    have hrows := mapM_eq_ok h
    clear h
    induction hrows with
    | nil => simp [checksOf]
    | cons hab _ ih =>
      obtain ⟨hholds, rfl⟩ := updateForAssert_ok_iff.mp hab
      exact ⟨forall_mem_cons.mpr ⟨hholds, ih.1⟩, by rw [ih.2]; rfl⟩
  · rintro ⟨hholds, rfl⟩
    exact mapM_of_forall fun a ha => updateForAssert_ok_iff.mpr ⟨hholds a ha, rfl⟩

theorem checksOf_asserts (asserts : List Assert) :
    ∀ u ∈ (checksOf kv asserts).reverse, ∃ k v, u = .assert k v := by
  intro u hu
  obtain ⟨a, _, rfl⟩ := mem_map.mp (mem_reverse.mp hu)
  exact ⟨_, _, rfl⟩

theorem applySequence_chain {asserts : List Assert} {updates order : List NsmUpdate}
    (hop : applySequence namespaceId cache kv asserts updates order = .ok us)
    (h : commit Key.encode kv us = some kv') :
    ∃ cs, Chain namespaceId cs kv kv' ∧
      cs.filterMap Change.put? = (Op.applySequence asserts updates order).storedPuts ∧
      ∀ c ∈ cs, c.From (.applySequence asserts updates order) kv := by
  simp only [applySequence, bind_eq_ok] at hop
  obtain ⟨_, _, checks, hchecks, lists, hlists, hop⟩ := hop
  cases hop
  rw [reverseAux_eq, commit_append, Option.bind_eq_some_iff] at h
  obtain ⟨mid, hmid, hrest⟩ := h
  obtain ⟨-, rfl⟩ := mapM_updateForAssert_ok_iff.mp hchecks
  have hsame := commit_of_asserts (checksOf_asserts asserts) hmid
  subst hsame
  exact updatesForUpdates_chain rfl hlists hrest

end Sequence

section Exec

variable {namespaceId : NamespaceId} {kv kv' : Store} {us : List Upd} {op : Op}

theorem commit_same {kinds : List Kind} (hus : WritesOnly Key.kind kinds us)
    (h : commit Key.encode kv us = some kv') (k : Key) (hk : k.kind ∉ kinds) :
    kvGet kv' k = kvGet kv k := by
  rw [← runKey_of_writesOnly hus hk (kvGet kv k)]
  exact commit_get Key.encode_injective h k

theorem writesOnly_gcEpochs (v w : Option Value) :
    WritesOnly Key.kind [.gcEpochs] (Update.compareAndSwap (.gcEpochs : Key) v w) := by
  intro u hu k hw
  simp only [Update.compareAndSwap, mem_cons, not_mem_nil, or_false] at hu
  rcases hu with rfl | rfl
  · exact absurd hw id
  · rw [← show Key.gcEpochs = k from hw]
    simp

theorem writesOnly_markKeysDeleted (deviceKeys : List (OsdId × List Bytes)) :
    WritesOnly Key.kind [.keysToBeDeleted] (markKeysDeleted deviceKeys) := by
  intro u hu k hw
  obtain ⟨l, hl, hul⟩ := mem_flattenUnordered.mp hu
  obtain ⟨⟨d, keys⟩, _, rfl⟩ := mem_map.mp hl
  obtain ⟨key, _, rfl⟩ := mem_map.mp hul
  rw [← show Key.keysToBeDeleted d key = k from hw]
  simp

theorem writesOnly_updatePreset {preset : Preset} {version : Int64}
    (h : updatePreset kv preset version = .ok us) :
    WritesOnly Key.kind [.preset, .presetVersion] us := by
  simp only [updatePreset, bind_eq_ok] at h
  obtain ⟨version', _, h⟩ := h
  cases h
  intro u hu k hw
  split at hu
  · simp only [mem_cons, not_mem_nil, or_false] at hu
    rcases hu with rfl | rfl | rfl
    · exact absurd hw id
    · rw [← show Key.presetVersion = k from hw]
      simp
    · rw [← show Key.preset = k from hw]
      simp
  · simp at hu

theorem linkOsd_outcome {osdId : OsdId} {info : OsdInfo}
    (h : commit Key.encode kv (linkOsd osdId info) = some kv') :
    Outcome namespaceId (.linkOsd osdId info) kv kv' := by
  have get : ∀ k, kvGet kv' k = runKey k (linkOsd osdId info) (kvGet kv k) :=
    commit_get Key.encode_injective h
  refine .linked osdId info rfl (fun k hactive hinfo => ?_) ?_
  · simp [get, linkOsd, runKey_cons, Update.act, Ne.symm hactive, Ne.symm hinfo]
  · simp [get, linkOsd, runKey_cons, Update.act]

theorem minimumEpoch_congr (h : kvGet kv' .gcEpochs = kvGet kv .gcEpochs) :
    minimumEpoch kv' = minimumEpoch kv := by
  rw [minimumEpoch, minimumEpoch, getGcEpochs_congr h]

theorem gcEpochs_outcome {v : Option Value} {epochs epochs' : GcEpochs}
    (hget : getGcEpochs kv = .ok (v, epochs))
    (hle : epochs.minimumEpoch.toInt ≤ epochs'.minimumEpoch.toInt)
    (h : commit Key.encode kv (Update.compareAndSwap .gcEpochs v (some (.gcEpochs epochs'))) =
      some kv') : Outcome namespaceId op kv kv' := by
  refine .settings (fun k hk => commit_same (writesOnly_gcEpochs v _) h k fun hmem => hk ?_) ?_
  · simp [mem_singleton.mp hmem]
  · have get : kvGet kv' .gcEpochs = some (.gcEpochs epochs') := by
      have get : kvGet kv' .gcEpochs = _ := commit_get Key.encode_injective h .gcEpochs
      rw [get]
      simp [Update.compareAndSwap, runKey_cons, Update.act]
    have hget' : getGcEpochs kv' = .ok (some (.gcEpochs epochs'), epochs') := by
      rw [getGcEpochs, get]
      rfl
    simpa [minimumEpoch, hget, hget'] using hle

theorem toInt_succ_of_lt {x y : Int64} (h : x < y) : (x + 1).toInt = x.toInt + 1 := by
  have hlt := Int64.lt_iff_toInt_lt.mp h
  have hle : y.toInt < 2 ^ 63 := Int64.toInt_lt y
  have hge := Int64.le_toInt x
  rw [Int64.toInt_add]
  simp only [Int64.toInt_one]
  exact Int.bmod_eq_of_le (by omega) (by omega)

theorem runKey_markKeysDeleted (deviceKeys : List (OsdId × List Bytes)) (k : Key) (v : Option Value) :
    runKey k (markKeysDeleted deviceKeys) v =
      if .delete k ∈ markKeysDeleted deviceKeys then none else v := by
  refine runKey_sets (fun u hu hw => ?_) v
  obtain ⟨l, hl, hul⟩ := mem_flattenUnordered.mp hu
  obtain ⟨⟨d, keys⟩, _, rfl⟩ := mem_map.mp hl
  obtain ⟨key, _, rfl⟩ := mem_map.mp hul
  rw [← show Key.keysToBeDeleted d key = k from hw]
  rfl

theorem markKeysDeleted_outcome {deviceKeys : List (OsdId × List Bytes)}
    (hop : (∃ keys, op = .markKeysDeleted keys) ∨ ∃ osdId, op = .cleanupOsdKeysToBeDeleted osdId)
    (h : commit Key.encode kv (markKeysDeleted deviceKeys) = some kv') :
    Outcome namespaceId op kv kv' := by
  refine .cleared hop (fun k hk => ?_) fun k => ?_
  · exact commit_same (writesOnly_markKeysDeleted deviceKeys) h k (by simpa using hk)
  · have get : kvGet kv' k = _ := commit_get Key.encode_injective h k
    rw [get, runKey_markKeysDeleted]
    split
    · exact Or.inl rfl
    · exact Or.inr rfl

theorem updateManifestGeneric_outcome {cache : Option (BitVec 64 × Preset)} {name objectId : Bytes}
    {fus : List FragmentUpdate} {gcEpoch : Int64} {versionId : Int32}
    (hop : updateManifestGeneric namespaceId cache kv name objectId fus gcEpoch versionId = .ok us)
    (hputs : op.puts = []) (hmem : (objectId, fus, gcEpoch, versionId) ∈ op.manifestUpdates)
    (h : commit Key.encode kv us = some kv') : Outcome namespaceId op kv kv' := by
  obtain ⟨table, t, htable, _, heffect⟩ := updateManifestGeneric_effect rfl hop h
  refine .changes [_] (.cons heffect (.nil _)) (by simp [Op.storedPuts, hputs, Change.put?]) ?_ ?_
  · simpa using ⟨heffect.update_before, fus, hmem, htable⟩
  · exact fun _ => Nat.le_refl 1

theorem exec_outcome {r : Request} (h : exec namespaceId kv r = some kv') :
    Outcome namespaceId r.op kv kv' := by
  obtain ⟨us, hop, hc⟩ := exec_eq_some.mp h
  obtain ⟨op, cache⟩ := r
  cases op with
  | linkOsd osdId info =>
    cases hop
    exact linkOsd_outcome hc
  | unlinkOsd osdId =>
    cases hop
    have hus : WritesOnly Key.kind [.activeOsds] (unlinkOsd osdId) := by
      intro u hu k hw
      rw [mem_singleton.mp hu] at hw
      rw [← show Key.activeOsds osdId = k from hw]
      simp
    refine .settings (fun k hk => commit_same hus hc k fun hmem => hk ?_) ?_
    · simp [mem_singleton.mp hmem]
    · rw [minimumEpoch_congr (commit_same hus hc _ (by simp))]
  | putObject overwrite manifest gcEpoch =>
    obtain ⟨⟨us', oldInfo⟩, hput, rfl⟩ := map_eq_ok.mp hop
    obtain ⟨old, heffect, _⟩ := putObject_effect rfl hput hc
    exact .changes [_] (.cons heffect (.nil _)) rfl (by simp [Change.From]) (by simp)
  | deleteObject name overwrite =>
    obtain ⟨⟨us', deleted⟩, hdelete, rfl⟩ := map_eq_ok.mp hop
    rcases deleteObject_effect rfl hdelete hc with ⟨rfl, _⟩ | ⟨id, t, _, heffect⟩
    · exact .changes [] (.nil _) rfl (by simp) (by simp)
    · exact .changes [_] (.cons heffect (.nil _)) rfl (by simp [Change.From]) (by simp)
  | applySequence asserts updates order =>
    obtain ⟨cs, hchain, hputs, hfrom⟩ := applySequence_chain hop hc
    exact .changes cs hchain hputs hfrom (by simp [Op.manifestUpdates])
  | updateManifest name objectId newFragments gcEpoch versionId =>
    exact updateManifestGeneric_outcome hop rfl (by simp [Op.manifestUpdates]) hc
  | updateManifest2 name objectId newFragments gcEpoch versionId =>
    exact updateManifestGeneric_outcome hop rfl (by simp [Op.manifestUpdates]) hc
  | enableNewGcEpoch gcEpoch =>
    simp only [updatesOf, enableNewGcEpoch, bind_eq_ok] at hop
    obtain ⟨⟨v, epochs⟩, hget, _, _, hop⟩ := hop
    cases hop
    refine gcEpochs_outcome hget ?_ hc
    exact Int.le_refl epochs.minimumEpoch.toInt
  | disableGcEpoch gcEpoch =>
    simp only [updatesOf, disableGcEpoch, bind_eq_ok, check_eq_ok] at hop
    obtain ⟨⟨v, epochs⟩, hget, _, ⟨hmin, hlt⟩, hop⟩ := hop
    cases hop
    refine gcEpochs_outcome hget ?_ hc
    rw [toInt_succ_of_lt hlt, hmin]
    exact Int.le_add_one (Int.le_refl _)
  | markKeysDeleted deviceKeys =>
    cases hop
    exact markKeysDeleted_outcome (Or.inl ⟨_, rfl⟩) hc
  | cleanupOsdKeysToBeDeleted osdId =>
    cases hop
    exact markKeysDeleted_outcome (Or.inr ⟨_, rfl⟩) hc
  | updatePreset preset version =>
    have hsame := commit_same (writesOnly_updatePreset hop) hc
    refine .settings (fun k hk => hsame k fun hmem => hk ?_) ?_
    · rcases mem_cons.mp hmem with he | he
      · simp [he]
      · simp [mem_singleton.mp he]
    · rw [minimumEpoch_congr (hsame _ (by simp))]

theorem exec_other {r : Request} (h : exec namespaceId kv r = some kv') {b : Bytes}
    (hb : ∀ k : Key, k.encode ≠ b) : kv'[b]? = kv[b]? := by
  obtain ⟨us, _, hc⟩ := exec_eq_some.mp h
  exact commit_get_other hc hb

end Exec

theorem exec_preserves {P : Store → Prop} (kinds : List Kind)
    (hkinds : ∀ kind ∈ kinds, kind ∉ Kind.outside) {namespaceId : NamespaceId}
    (effect : ∀ c kv kv', Effect namespaceId c kv kv' → P kv → P kv')
    (congr : ∀ kv kv', (∀ k : Key, k.kind ∈ kinds → kvGet kv' k = kvGet kv k) → P kv → P kv')
    {r : Request} (hp : P kv) (h : exec namespaceId kv r = some kv') : P kv' := by
  cases exec_outcome h with
  | changes cs chain _ _ _ => exact chain.preserves effect hp
  | linked osdId info _ same _ =>
    refine congr kv kv' (fun k hk => same k ?_ ?_) hp
    all_goals
      rintro rfl
      exact hkinds _ hk (by simp [Kind.outside])
  | settings same _ =>
    refine congr kv kv' (fun k hk => same k fun hk' => hkinds _ hk ?_) hp
    simp only [Kind.outside, mem_cons, not_mem_nil, or_false] at hk' ⊢
    tauto
  | cleared _ same _ =>
    refine congr kv kv' (fun k hk => same k fun hk' => hkinds _ hk ?_) hp
    simp [Kind.outside, hk']

end Alba.Nsm
