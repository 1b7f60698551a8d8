import Alba.Nsm.Views

/-! Two clients that compute their updates from one state of a namespace. The outcome is the one of the
two requests run one after the other, except where each misses what the other brings: a deletion of a
name that does not exist asserts nothing, so that it does not see a put of the name. -/

namespace Alba.Nsm

open ProofKit Std List

/-- `op` puts a name that `op'` deletes and that does not exist. -/
def Op.Missed (kv : Store) (op op' : Op) : Prop :=
  ∃ m gcEpoch, .putObject m gcEpoch ∈ op.nsmUpdates ∧ .deleteObject m.name ∈ op'.nsmUpdates ∧
    kvGet kv (.names m.name) = none

/-- An assert that holds before the update and not after it. -/
def Assert.BrokenBy (u : NsmUpdate) : Assert → Prop
  | .objectExists name => u = .deleteObject name
  | .objectDoesNotExist name => ∃ m gcEpoch, u = .putObject m gcEpoch ∧ m.name = name
  | .objectHasId name _ => u.name = name
  | .objectHasChecksum name checksum =>
    u.name = name ∧ ∀ m gcEpoch, u = .putObject m gcEpoch → m.checksum ≠ checksum

/-- The first request puts a name whose absence the second has found, and the first cannot come
after the second either: it has itself found the absence of a name that the second puts, or one of
its asserts does not hold then. -/
def Skewed (kv : Store) (op₁ op₂ : Op) : Prop :=
  op₁.Missed kv op₂ ∧
    (op₂.Missed kv op₁ ∨ ∃ a ∈ op₁.asserts, ∃ u ∈ op₂.nsmUpdates, a.BrokenBy u)

/-- The two requests one after the other, the second computed from the state that the first
leaves. -/
def InOrder (namespaceId : NamespaceId) (kv : Store) (r₁ r₂ : Request) (res₁ res₂ : Result)
    (kv' : Store) : Prop :=
  ∃ us₁ mid us₂, perform namespaceId kv r₁ = .ok (us₁, res₁) ∧ commit Key.encode kv us₁ = some mid ∧
    perform namespaceId mid r₂ = .ok (us₂, res₂) ∧ commit Key.encode mid us₂ = some kv'

/-- The state and the results are those of one of the two orders. -/
def Serializable (namespaceId : NamespaceId) (kv : Store) (r₁ r₂ : Request) (res₁ res₂ : Result)
    (kv' : Store) : Prop :=
  InOrder namespaceId kv r₁ r₂ res₁ res₂ kv' ∨ InOrder namespaceId kv r₂ r₁ res₂ res₁ kv'

/-- What the application of another list may not have changed for a request to give the same updates
and the same result, apart from what the request asserts. -/
structure Stable (kv kv₁ : Store) (op : Op) : Prop where
  frame : SameFrame kv kv₁
  missing : ∀ n, .deleteObject n ∈ op.nsmUpdates → kvGet kv (.names n) = none →
    kvGet kv₁ (.names n) = none
  checksum : ∀ n id t, kvGet kv (.names n) = some (.objectInfo id) →
    kvGet kv₁ (.names n) = some (.objectInfo id) → kvGet kv (.objects id) = some (.manifest t) →
      ∃ t', kvGet kv₁ (.objects id) = some (.manifest t') ∧ t'.checksum = t.checksum

section Rerun

variable {namespaceId : NamespaceId} {kv kv₁ kv₂ : Store} {r : Request} {us : List Upd}
  {res : Result}

theorem Assert.Holds.congr {a : Assert} (h : a.Holds kv)
    (hname : kvGet kv₁ (.names a.name) = kvGet kv (.names a.name)) (hstable : Stable kv kv₁ r.op) :
    a.Holds kv₁ := by
  cases a with
  | objectExists n => exact fun he => h (hname.symm.trans he)
  | objectDoesNotExist n => exact hname.trans h
  | objectHasId n id => exact hname.trans h
  | objectHasChecksum n checksum =>
    obtain ⟨id, t, hn, ht, hsum⟩ := h
    have hn₁ : kvGet kv₁ (.names n) = some (.objectInfo id) := hname.trans hn
    obtain ⟨t', ht', hsum'⟩ := hstable.checksum n id t hn hn₁ ht
    exact ⟨id, t', hn₁, ht', hsum'.trans hsum⟩

theorem perform_objects_again (hop : r.op.OnObjects) (h : perform namespaceId kv r = .ok (us, res))
    (hc : commit Key.encode kv₁ us = some kv₂) (hstable : Stable kv kv₁ r.op) :
    perform namespaceId kv₁ r = .ok (us, res) := by
  have hview := perform_view hop h
  have hasserted : ∀ a ∈ r.op.asserts, kvGet kv₁ (.names a.name) = kvGet kv (.names a.name) := by
    intro a ha
    have hmem : .assert (.names a.name) (kvGet kv (.names a.name)) ∈ us := by
      rw [hview.list]
      exact mem_append_left _ (mem_reverse.mpr (mem_map.mpr ⟨a, ha, rfl⟩))
    exact hview.guards.holds Key.encode_injective hc hmem (by simp [guardedKinds])
  have hagree : ∀ u ∈ r.op.nsmUpdates, Agree u kv kv₁ := by
    intro u hu
    by_cases hidle : u.Idle kv
    · obtain ⟨hput, hname⟩ := hidle
      cases u with
      | putObject m gcEpoch => cases hput
      | deleteObject n =>
        have hmissing : kvGet kv₁ (.names n) = none := hstable.missing n hu hname
        refine ⟨hstable.frame, hmissing.trans hname.symm, fun id hid => ?_, fun hne => absurd rfl hne⟩
        rcases hid with ⟨p, hp, _⟩ | hid
        · cases hp
        · rw [hname] at hid
          cases hid
    · exact (footprint_of_not_idle (hview.computes u hu) hidle).agree hstable.frame hview.guards
        (fun w hw => hview.mem_of_mem_list hu hw) hc
  have hagain := perform_of_agree hop h hagree fun a ha =>
    (hview.holds a ha).congr (hasserted a ha) hstable
  have hchecks : checksOf kv₁ r.op.asserts = checksOf kv r.op.asserts :=
    map_congr_left fun a ha => by rw [hasserted a ha]
  rw [hagain, hchecks, ← hview.list]

theorem gcEpochs_of_commit {v w : Option Value} {epochs : GcEpochs}
    (hget : getGcEpochs kv = .ok (v, epochs))
    (hc : commit Key.encode kv₁ (Update.compareAndSwap .gcEpochs v w) = some kv₂) :
    kvGet kv₁ .gcEpochs = kvGet kv .gcEpochs := by
  rw [← getGcEpochs_fst hget]
  exact commit_requires Key.encode_injective (p := []) hc (by simp)

theorem updateManifestGeneric_again {cache : Option (BitVec 64 × Preset)} {name objectId : Bytes}
    {fus : List FragmentUpdate} {gcEpoch : Int64} {versionId : Int32}
    (h : updateManifestGeneric namespaceId cache kv name objectId fus gcEpoch versionId = .ok us)
    (hc : commit Key.encode kv₁ us = some kv₂) (hframe : SameFrame kv kv₁) :
    updateManifestGeneric namespaceId cache kv₁ name objectId fus gcEpoch versionId = .ok us := by
  obtain ⟨table, t, mapping, osdSizes, _, hget, _, _, _, _, _, _, rfl⟩ :=
    updateManifestGeneric_eq_ok h
  obtain ⟨hobject, hepochs⟩ := commit_updateUpdates hc
  rw [updateManifestGeneric_congr hframe (hobject.trans hget.symm) hepochs, h]

theorem perform_again (hclient : r.op.fromClient = true)
    (h : perform namespaceId kv r = .ok (us, res)) (hc : commit Key.encode kv₁ us = some kv₂)
    (hstable : Stable kv kv₁ r.op) : perform namespaceId kv₁ r = .ok (us, res) := by
  obtain ⟨op, cache⟩ := r
  cases op with
  | putObject | deleteObject | applySequence => exact perform_objects_again trivial h hc hstable
  | updateManifest | updateManifest2 =>
    obtain ⟨us', hop, he⟩ := map_eq_ok.mp h
    cases he
    exact map_eq_ok.mpr ⟨_, updateManifestGeneric_again hop hc hstable.frame, rfl⟩
  | enableNewGcEpoch | disableGcEpoch =>
    obtain ⟨us', hop, he⟩ := map_eq_ok.mp h
    cases he
    have hsame : kvGet kv₁ .gcEpochs = kvGet kv .gcEpochs := by
      simp only [updatesOf, enableNewGcEpoch, disableGcEpoch, bind_eq_ok] at hop
      obtain ⟨⟨v, epochs⟩, hget, _, _, hop⟩ := hop
      cases hop
      exact gcEpochs_of_commit hget hc
    refine map_eq_ok.mpr ⟨_, ?_, rfl⟩
    rw [← hop]
    simp only [updatesOf, enableNewGcEpoch, disableGcEpoch, getGcEpochs_congr hsame]
  | updatePreset preset version =>
    rw [← h]
    simp only [perform, updatesOf, updatePreset, hstable.frame .presetVersion (by simp)]
  | _ => cases hclient

end Rerun

section Cross

variable {namespaceId : NamespaceId} {kv kv₁ kv₂ mid : Store} {r₁ r₂ : Request} {us₁ us₂ : List Upd}
  {u u' : NsmUpdate}

theorem mem_frameKinds {k : Key}
    (hk : k.kind ∈ [.preset, .presetVersion, .osdInfo, .activeOsds]) : k.kind ∈ frameKinds := by
  simp only [mem_cons, not_mem_nil, or_false] at hk
  simp only [frameKinds, mem_cons, not_mem_nil, or_false]
  tauto

theorem View.holds_after (hi : Indexed kv) (h₂ : View namespaceId kv r₂ us₂) {mid : Store}
    (hmid : commit Key.encode kv us₂ = some mid) {a : Assert} (ha : a.Holds kv)
    (hbroken : ∀ u ∈ r₂.op.nsmUpdates, ¬a.BrokenBy u) : a.Holds mid := by
  by_cases hex : ∃ u ∈ r₂.op.nsmUpdates, u.name = a.name ∧ ¬u.Idle kv
  · obtain ⟨u, hu, hname, hidle⟩ := hex
    have hafter := h₂.name_after hi hmid hu hidle
    rw [hname] at hafter
    have hnot := hbroken u hu
    cases u with
    | deleteObject n =>
      cases a with
      | objectExists n' => exact absurd (congrArg NsmUpdate.deleteObject hname) hnot
      | objectDoesNotExist n' => exact absurd ⟨rfl, by rw [hname]; exact ha⟩ hidle
      | objectHasId n' id => exact absurd hname hnot
      | objectHasChecksum n' checksum => exact absurd ⟨hname, fun m g he => by cases he⟩ hnot
    | putObject m gcEpoch =>
      cases a with
      | objectExists n' => exact fun he => by rw [show kvGet mid (.names n') = _ from hafter] at he; cases he
      | objectDoesNotExist n' => exact absurd ⟨m, gcEpoch, rfl, hname⟩ hnot
      | objectHasId n' id => exact absurd hname hnot
      | objectHasChecksum n' checksum =>
        have hsum : m.checksum = checksum := by
          by_contra hne
          refine hnot ⟨hname, fun m' gcEpoch' he => ?_⟩
          cases he
          exact hne
        exact ⟨m.objectId, m.stored, hafter, h₂.object_after hi hmid hu, hsum⟩
  · have hidle : ∀ u ∈ r₂.op.nsmUpdates, u.name = a.name → u.Idle kv := by
      intro u hu hname
      by_contra hnot
      exact hex ⟨u, hu, hname, hnot⟩
    have hname := h₂.get_name hmid hidle
    cases a with
    | objectExists n => exact fun he => ha (hname.symm.trans he)
    | objectDoesNotExist n => exact hname.trans ha
    | objectHasId n id => exact hname.trans ha
    | objectHasChecksum n checksum =>
      obtain ⟨id, t, hn, ht, hsum⟩ := ha
      refine ⟨id, t, hname.trans hn, ?_, hsum⟩
      rw [h₂.get_object hmid fun u hu hid => ?_, ht]
      have hnot : ¬u.Idle kv := fun hidle => not_ids_of_missing hidle.1 hidle.2 id hid
      have hfoot := footprint_of_not_idle (h₂.computes u hu) hnot
      rcases hid with ⟨p, hp, rfl⟩ | hold
      · rw [hfoot.fresh p hp] at ht
        cases ht
      · have hun : u.name = n := (hi.name_eq hold ht).1.symm.trans (hi.name_eq hn ht).1
        exact hnot (hidle u hu hun)

section Views

variable (hi : Indexed kv) (h₁ : View namespaceId kv r₁ us₁) (h₂ : View namespaceId kv r₂ us₂)
  (hc₁ : commit Key.encode kv us₁ = some kv₁) (hc₂ : commit Key.encode kv₁ us₂ = some kv₂)

include hi h₁ h₂ hc₁ hc₂

section

variable (hu : u ∈ r₁.op.nsmUpdates)
  (hu' : u' ∈ r₂.op.nsmUpdates)
  (hidle : ¬u.Idle kv)
  (hidle' : ¬u'.Idle kv)
include hu hu' hidle hidle'

/-- Where the second list applies after the first, an update of the second with an effect has a name
of no update of the first with an effect. -/
theorem View.names_ne : u.name ≠ u'.name := by
  intro hname
  have hassert := (footprint_of_not_idle (h₂.computes u' hu') hidle').name
  have hsame := h₂.guards.holds Key.encode_injective hc₂ (h₂.mem_of_mem_list hu' hassert)
    (by simp [guardedKinds])
  refine h₁.name_changes hi hc₁ hu hidle ?_
  rw [hname]
  exact hsame

theorem View.apart_cross : u.Apart kv u' := by
  have hname := h₁.names_ne hi h₂ hc₁ hc₂ hu hu' hidle hidle'
  have hfoot := footprint_of_not_idle (h₁.computes u hu) hidle
  have hfoot' := footprint_of_not_idle (h₂.computes u' hu') hidle'
  refine apart_of_footprints hi hfoot hfoot' hname fun p hp p' hp' he => ?_
  have hassert := hfoot'.objects p'.1.objectId (Or.inl ⟨p', hp', rfl⟩)
  have hsame : kvGet kv₁ (.objects p'.1.objectId) = kvGet kv (.objects p'.1.objectId) :=
    h₂.guards.holds Key.encode_injective hc₂ (h₂.mem_of_mem_list hu' hassert)
      (by simp [guardedKinds])
  cases u with
  | deleteObject n => cases hp
  | putObject m gcEpoch =>
    cases hp
    have hstored := h₁.object_after hi hc₁ hu
    rw [hfoot'.fresh p' hp', he] at hsame
    rw [hsame] at hstored
    cases hstored

end

theorem View.agree_cross (hmissed : ¬r₂.op.Missed kv r₁.op)
    (hmid : commit Key.encode kv us₂ = some mid) (hu : u ∈ r₁.op.nsmUpdates) : Agree u kv mid := by
  have hframe : ∀ k : Key, k.kind ∈ frameKinds → kvGet mid k = kvGet kv k :=
    fun k hk => h₂.get_frame hmid hk
  refine ⟨fun k hk => hframe k (mem_frameKinds hk), ?_, fun id hid => ?_,
    fun _ => hframe _ (by simp [frameKinds])⟩
  · refine h₂.get_name hmid fun u' hu' hname => ?_
    by_contra hidle'
    by_cases hidle : u.Idle kv
    · -- the name that `u` misses is put by `u'`
      cases u with
      | putObject m gcEpoch => cases hidle.1
      | deleteObject n =>
        cases u' with
        | deleteObject n' => exact hidle' ⟨rfl, by rw [hname]; exact hidle.2⟩
        | putObject m gcEpoch =>
          obtain rfl : m.name = n := hname
          exact hmissed ⟨m, gcEpoch, hu', hu, hidle.2⟩
    · exact h₁.names_ne hi h₂ hc₁ hc₂ hu hu' hidle hidle' hname.symm
  · have hidle : ¬u.Idle kv := fun hidle => not_ids_of_missing hidle.1 hidle.2 id hid
    refine h₂.get_object hmid fun u' hu' hid' => ?_
    have hidle' : ¬u'.Idle kv := fun hidle' => not_ids_of_missing hidle'.1 hidle'.2 id hid'
    exact (h₁.apart_cross hi h₂ hc₁ hc₂ hu hu' hidle hidle').2 id hid hid'

theorem View.lists_commute :
    ListsCommute (r₁.op.nsmUpdates.map (listFor namespaceId r₁.cache kv)).flatten us₂ := by
  intro x hx y hy
  obtain ⟨l, hl, hxl⟩ := mem_flatten.mp hx
  obtain ⟨u, hu, rfl⟩ := mem_map.mp hl
  have hidle : ¬u.Idle kv := fun hidle => by
    rw [listFor_of_idle (h₁.computes u hu) hidle] at hxl
    cases hxl
  have hxw := (h₁.computes u hu).within x hxl
  have hmem := hy
  rw [h₂.list, mem_append] at hy
  rcases hy with hy | hy
  · obtain ⟨a, ha, rfl⟩ := mem_map.mp (mem_reverse.mp hy)
    have hsame := h₂.guards.holds Key.encode_injective hc₂ hmem (by simp [guardedKinds])
    have hyw : Within (· = a.name) (fun _ => False)
        (.assert (.names a.name) (kvGet kv (.names a.name))) := .owned rfl
    refine hxw.commutes hyw (fun n hn hn' => ?_) fun _ _ => id
    exact h₁.name_changes hi hc₁ hu hidle (by rw [← hn, hn']; exact hsame)
  · obtain ⟨l', hl', hyl⟩ := mem_flatten.mp hy
    obtain ⟨u', hu', rfl⟩ := mem_map.mp hl'
    have hidle' : ¬u'.Idle kv := fun hidle' => by
      rw [listFor_of_idle (h₂.computes u' hu') hidle'] at hyl
      cases hyl
    have hapart := h₁.apart_cross hi h₂ hc₁ hc₂ hu hu' hidle hidle'
    exact hxw.commutes ((h₂.computes u' hu').within y hyl)
      (fun n hn hn' => hapart.1 (hn.symm.trans hn')) hapart.2

theorem View.missed_present {m : Manifest} {gcEpoch : Int64}
    (hput : .putObject m gcEpoch ∈ r₁.op.nsmUpdates)
    (hdelete : .deleteObject m.name ∈ r₂.op.nsmUpdates) (hnone : kvGet kv (.names m.name) = none) :
    kvGet kv₂ (.names m.name) ≠ none := by
  have hidle : ¬(NsmUpdate.putObject m gcEpoch).Idle kv := fun hidle => by cases hidle.1
  have hsame := h₂.get_owned hi hc₂ hdelete (.names m.name) rfl
  rw [listFor_of_idle (h₂.computes _ hdelete) ⟨rfl, hnone⟩] at hsame
  rw [hsame, runKey_nil, show m.name = (NsmUpdate.putObject m gcEpoch).name from rfl,
    h₁.name_after hi hc₁ hput hidle]
  exact nofun

end Views

end Cross

section First

variable {namespaceId : NamespaceId} {kv kv₁ kv₂ : Store} {r₁ r₂ : Request} {us₁ us₂ : List Upd}
  {res₁ res₂ : Result} {op : Op}

theorem View.stable (hi : Indexed kv) (h : View namespaceId kv r₁ us₁)
    (hc : commit Key.encode kv us₁ = some kv₁) (hmissed : ¬r₁.op.Missed kv op) : Stable kv kv₁ op := by
  refine ⟨fun k hk => h.get_frame hc (mem_frameKinds hk), fun n hn hnone => ?_,
    fun n id t hn hn₁ ht => ⟨t, ?_, rfl⟩⟩
  · rw [h.get_name hc fun u hu hname => ?_, hnone]
    cases u with
    | deleteObject n' => exact ⟨rfl, by rw [hname, hnone]⟩
    | putObject m gcEpoch =>
      obtain rfl : m.name = n := hname
      exact absurd ⟨m, gcEpoch, hu, hn, hnone⟩ hmissed
  · rw [h.get_object hc fun u hu hid => ?_, ht]
    have hidle : ¬u.Idle kv := fun hidle => not_ids_of_missing hidle.1 hidle.2 id hid
    rcases hid with ⟨p, hp, rfl⟩ | hold
    · rw [(footprint_of_not_idle (h.computes u hu) hidle).fresh p hp] at ht
      cases ht
    · have hname : u.name = n := (hi.name_eq hold ht).1.symm.trans (hi.name_eq hn ht).1
      exact h.name_changes hi hc hu hidle (by rw [hname, hn, hn₁])

theorem Effect.stable {objectId : Bytes} {table : List FragmentUpdate} {gcEpoch : Int64}
    {versionId : Int32} {t : Manifest}
    (h : Effect namespaceId (.update objectId table gcEpoch versionId t) kv kv₁) :
    Stable kv kv₁ op := by
  refine ⟨fun k hk => h.frame k (mem_frameKinds hk), fun n _ hnone => ?_,
    fun n id t' _ _ ht' => ?_⟩
  · rw [h.names]
    exact hnone
  · by_cases hid : id = objectId
    · subst hid
      rw [h.update_before] at ht'
      cases ht'
      exact ⟨_, h.update_after, rfl⟩
    · exact ⟨t', by rw [h.objects id (by simpa [Change.slots] using hid), ht'], rfl⟩

theorem stable_of_gcEpochs {v w : Option Value}
    (hc : commit Key.encode kv (Update.compareAndSwap .gcEpochs v w) = some kv₁) :
    Stable kv kv₁ op := by
  have hsame := commit_same (writesOnly_gcEpochs v w) hc
  refine ⟨fun k hk => hsame k fun hk' => ?_, fun n _ hnone => ?_, fun n id t _ _ ht => ?_⟩
  · rw [mem_singleton.mp hk'] at hk
    simp at hk
  · rw [hsame _ (by simp), hnone]
  · exact ⟨t, by rw [hsame _ (by simp), ht], rfl⟩

theorem stable_of_perform (hi : Indexed kv) (hclient : r₁.op.fromClient = true)
    (hpreset : ∀ preset version, r₁.op ≠ .updatePreset preset version)
    (hp : perform namespaceId kv r₁ = .ok (us₁, res₁)) (hc : commit Key.encode kv us₁ = some kv₁)
    (hmissed : ¬r₁.op.Missed kv op) : Stable kv kv₁ op := by
  by_cases hop : r₁.op.OnObjects
  · exact (perform_view hop hp).stable hi hc hmissed
  obtain ⟨op₁, cache⟩ := r₁
  cases op₁ with
  | putObject | deleteObject | applySequence => exact absurd trivial hop
  | updateManifest | updateManifest2 =>
    obtain ⟨us', hop, he⟩ := map_eq_ok.mp hp
    cases he
    obtain ⟨_, _, _, _, heffect⟩ := updateManifestGeneric_effect rfl hop hc
    exact heffect.stable
  | enableNewGcEpoch | disableGcEpoch =>
    obtain ⟨us', hop, he⟩ := map_eq_ok.mp hp
    cases he
    simp only [updatesOf, enableNewGcEpoch, disableGcEpoch, bind_eq_ok] at hop
    obtain ⟨⟨v, epochs⟩, _, _, _, hop⟩ := hop
    cases hop
    exact stable_of_gcEpochs hc
  | updatePreset preset version => exact absurd rfl (hpreset preset version)
  | _ => cases hclient

theorem Within.key_kind {names ids : Bytes → Prop} {u : Upd} (h : Within names ids u) :
    u.key.kind ∉ [.preset, .presetVersion] := by
  cases h with
  | @owned u h =>
    revert h
    cases u.key <;> simp [Key.Owned]
  | epochs | active | scheduled => simp
  | @added k h x =>
    show k.kind ∉ _
    revert h
    cases k <;> simp [Key.IsSum]

theorem perform_key_kind (hclient : r₂.op.fromClient = true)
    (hpreset : ∀ preset version, r₂.op ≠ .updatePreset preset version)
    (hp : perform namespaceId kv r₂ = .ok (us₂, res₂)) :
    ∀ u ∈ us₂, u.key.kind ∉ [.preset, .presetVersion] := by
  intro u hu
  by_cases hop : r₂.op.OnObjects
  · have h := perform_view hop hp
    rw [h.list, mem_append] at hu
    rcases hu with hu | hu
    · obtain ⟨a, _, rfl⟩ := mem_map.mp (mem_reverse.mp hu)
      simp
    · obtain ⟨l, hl, hul⟩ := mem_flatten.mp hu
      obtain ⟨w, hw, rfl⟩ := mem_map.mp hl
      exact ((h.computes w hw).within u hul).key_kind
  obtain ⟨op₂, cache⟩ := r₂
  cases op₂ with
  | putObject | deleteObject | applySequence => exact absurd trivial hop
  | updateManifest name objectId | updateManifest2 name objectId =>
    obtain ⟨us', hop, he⟩ := map_eq_ok.mp hp
    cases he
    have hw : Within (fun _ => False) (Eq objectId) u := updateManifestGeneric_within hop rfl u hu
    exact hw.key_kind
  | enableNewGcEpoch | disableGcEpoch =>
    obtain ⟨us', hop, he⟩ := map_eq_ok.mp hp
    cases he
    simp only [updatesOf, enableNewGcEpoch, disableGcEpoch, bind_eq_ok] at hop
    obtain ⟨⟨v, epochs⟩, _, _, _, hop⟩ := hop
    cases hop
    simp only [Update.compareAndSwap, mem_cons, not_mem_nil, or_false] at hu
    rcases hu with rfl | rfl <;> simp
  | updatePreset preset version => exact absurd rfl (hpreset preset version)
  | _ => cases hclient

theorem updatePreset_key_kind {preset : Preset} {version : Int64}
    (h : updatePreset kv preset version = .ok us₁) :
    ∀ u ∈ us₁, u.key.kind ∈ [.preset, .presetVersion] := by
  simp only [updatePreset, bind_eq_ok] at h
  obtain ⟨version', _, h⟩ := h
  cases h
  intro u hu
  split at hu
  · simp only [mem_cons, not_mem_nil, or_false] at hu
    rcases hu with rfl | rfl | rfl <;> simp
  · cases hu

theorem updatePreset_twice {preset₁ preset₂ : Preset} {version₁ version₂ : Int64}
    (h₁ : updatePreset kv preset₁ version₁ = .ok us₁) (h₂ : updatePreset kv preset₂ version₂ = .ok us₂)
    (hc₁ : commit Key.encode kv us₁ = some kv₁) (hc₂ : commit Key.encode kv₁ us₂ = some kv₂) :
    us₁ = [] ∨ us₂ = [] := by
  simp only [updatePreset, bind_eq_ok] at h₁ h₂
  obtain ⟨v₁, hv₁, he₁⟩ := h₁
  obtain ⟨v₂, _, he₂⟩ := h₂
  cases he₁
  cases he₂
  by_cases hnew₁ : version₁ > v₁
  · by_cases hnew₂ : version₂ > v₂
    · simp only [hnew₁, hnew₂, if_true] at hc₁ hc₂
      have hstored : kvGet kv₁ .presetVersion = some (.int64 version₁.toBitVec) := by
        have hget : kvGet kv₁ .presetVersion = _ := commit_get Key.encode_injective hc₁ _
        rw [hget]
        simp [runKey_cons, Update.act]
      have hassert : kvGet kv₁ .presetVersion = kvGet kv .presetVersion :=
        commit_requires Key.encode_injective (p := []) hc₂ (by simp)
      rw [← hassert, hstored] at hv₁
      cases hv₁
      exact absurd hnew₁ (show ¬version₁ < version₁ from Int64.lt_irrefl)
    · exact Or.inr (if_neg hnew₂)
  · exact Or.inl (if_neg hnew₁)

end First

section Skew

variable {namespaceId : NamespaceId} {kv kv₁ kv₂ : Store} {r₁ r₂ : Request} {us₁ us₂ : List Upd}
  {res₁ res₂ : Result}

theorem Op.OnObjects.of_mem {op : Op} {u : NsmUpdate} (h : u ∈ op.nsmUpdates) : op.OnObjects := by
  cases op <;> trivial

theorem View.not_holds_after (hi : Indexed kv) (h₂ : View namespaceId kv r₂ us₂) {mid : Store}
    (hmid : commit Key.encode kv us₂ = some mid) {a : Assert} (ha : a.Holds kv) {u : NsmUpdate}
    (hu : u ∈ r₂.op.nsmUpdates) (hbroken : a.BrokenBy u) : ¬a.Holds mid := by
  have present : ∀ n, u = .deleteObject n → kvGet kv (.names n) ≠ none → ¬u.Idle kv := by
    rintro n rfl hn hidle
    exact hn hidle.2
  have created : ∀ m gcEpoch, u = .putObject m gcEpoch → ¬u.Idle kv := by
    rintro m gcEpoch rfl hidle
    cases hidle.1
  cases a with
  | objectExists n =>
    obtain rfl : u = .deleteObject n := hbroken
    exact fun hholds => hholds (h₂.name_after hi hmid hu (present n rfl ha))
  | objectDoesNotExist n =>
    obtain ⟨m, gcEpoch, rfl, rfl⟩ := hbroken
    intro hholds
    have hafter := h₂.name_after hi hmid hu (created m gcEpoch rfl)
    rw [show kvGet mid (.names (NsmUpdate.putObject m gcEpoch).name) = none from hholds] at hafter
    cases hafter
  | objectHasId n id =>
    obtain rfl : u.name = n := hbroken
    have hpresent : kvGet kv (.names u.name) ≠ none := by
      rw [show kvGet kv (.names u.name) = some (.objectInfo id) from ha]
      exact nofun
    have hidle : ¬u.Idle kv := fun hidle => hpresent hidle.2
    intro hholds
    refine h₂.name_changes hi hmid hu hidle ?_
    rw [show kvGet mid (.names u.name) = some (.objectInfo id) from hholds]
    exact ha.symm
  | objectHasChecksum n checksum =>
    obtain ⟨rfl, hsums⟩ := hbroken
    obtain ⟨id, t, hn, _, _⟩ := ha
    rintro ⟨id', t', hn', ht', hsum'⟩
    have hidle : ¬u.Idle kv := fun hidle => by
      rw [hidle.2] at hn
      cases hn
    have hafter := h₂.name_after hi hmid hu hidle
    rw [hn'] at hafter
    cases u with
    | deleteObject n' => cases hafter
    | putObject m gcEpoch =>
      cases hafter
      rw [h₂.object_after hi hmid hu] at ht'
      cases ht'
      exact hsums m gcEpoch rfl hsum'

section Performed

variable (hp₁ : perform namespaceId kv r₁ = .ok (us₁, res₁))
  (hp₂ : perform namespaceId kv r₂ = .ok (us₂, res₂)) (hc₁ : commit Key.encode kv us₁ = some kv₁)
  (hc₂ : commit Key.encode kv₁ us₂ = some kv₂)

include hp₁ hp₂ hc₁ hc₂

/-- The first request may come second when it misses nothing that the second brings and the second
breaks none of its asserts. -/
theorem inOrder_swapped (hi : Indexed kv) (hop₁ : r₁.op.OnObjects) (hop₂ : r₂.op.OnObjects)
    (hmissed : ¬r₂.op.Missed kv r₁.op)
    (hbroken : ∀ a ∈ r₁.op.asserts, ∀ u ∈ r₂.op.nsmUpdates, ¬a.BrokenBy u) :
    InOrder namespaceId kv r₂ r₁ res₂ res₁ kv₂ := by
  have h₁ := perform_view hop₁ hp₁
  have h₂ := perform_view hop₂ hp₂
  have hboth : commit Key.encode kv
      ((r₁.op.nsmUpdates.map (listFor namespaceId r₁.cache kv)).flatten ++ us₂) = some kv₂ := by
    rw [commit_append, h₁.commit_lists hc₁]
    exact hc₂
  rw [commit_comm Key.encode_injective (h₁.lists_commute hi h₂ hc₁ hc₂), commit_append,
    Option.bind_eq_some_iff] at hboth
  obtain ⟨mid, hmid, hlast⟩ := hboth
  have hagain := perform_of_agree hop₁ hp₁
    (fun u hu => h₁.agree_cross hi h₂ hc₁ hc₂ hmissed hmid hu)
    fun a ha => h₂.holds_after hi hmid (h₁.holds a ha) (hbroken a ha)
  exact ⟨us₂, mid, _, hp₂, hmid, hagain, by rw [commit_checksOf, hlast]⟩

theorem inOrder_updatePreset {preset : Preset} {version : Int64}
    (hop₁ : r₁.op = .updatePreset preset version) (hclient : r₂.op.fromClient = true)
    (hpreset : ∀ preset version, r₂.op ≠ .updatePreset preset version) :
    InOrder namespaceId kv r₂ r₁ res₂ res₁ kv₂ := by
  obtain ⟨op₁, cache⟩ := r₁
  subst hop₁
  obtain ⟨us', hupdate, he⟩ := map_eq_ok.mp hp₁
  cases he
  have hkinds := perform_key_kind hclient hpreset hp₂
  have hcommute : ListsCommute us₁ us₂ := by
    intro x hx y hy hkey
    refine absurd (updatePreset_key_kind hupdate x hx) ?_
    rw [hkey]
    exact hkinds y hy
  have hboth : commit Key.encode kv (us₁ ++ us₂) = some kv₂ := by
    rw [commit_append, hc₁]
    exact hc₂
  rw [commit_comm Key.encode_injective hcommute, commit_append, Option.bind_eq_some_iff] at hboth
  obtain ⟨mid, hmid, hlast⟩ := hboth
  have hversion : kvGet mid .presetVersion = kvGet kv .presetVersion := by
    have hget : kvGet mid .presetVersion = _ := commit_get Key.encode_injective hmid _
    rw [hget]
    refine runKey_of_not_writes _ fun w hw hwrites => hkinds w hw ?_
    simp [hwrites.key_eq]
  refine ⟨us₂, mid, us₁, hp₂, hmid, ?_, hlast⟩
  rw [← hp₁]
  simp only [perform, updatesOf, updatePreset, hversion]

theorem not_serializable_of_skewed (hi : Indexed kv) (hskew : Skewed kv r₁.op r₂.op) :
    ¬Serializable namespaceId kv r₁ r₂ res₁ res₂ kv₂ := by
  obtain ⟨⟨m, gcEpoch, hput, hdelete, hnone⟩, hother⟩ := hskew
  have hop₁ := Op.OnObjects.of_mem hput
  have hop₂ := Op.OnObjects.of_mem hdelete
  have h₁ := perform_view hop₁ hp₁
  have h₂ := perform_view hop₂ hp₂
  rintro (⟨us, mid, us', hp, hmid, hp', hlast⟩ | ⟨us, mid, us', hp, hmid, hp', hlast⟩)
  · -- the second request, computed after the first, deletes what the first has put
    rw [hp₁] at hp
    cases hp
    rw [hc₁] at hmid
    cases hmid
    have hi₁ : Indexed kv₁ := exec_indexed hi (exec_eq_some.mpr ⟨_, updatesOf_of_perform hp₁, hc₁⟩)
    exact h₁.missed_present hi h₂ hc₁ hc₂ hput hdelete hnone
      ((perform_view hop₂ hp').deleted_after hi₁ hlast hdelete)
  · rw [hp₂] at hp
    cases hp
    have hi₂ : Indexed mid := exec_indexed hi (exec_eq_some.mpr ⟨_, updatesOf_of_perform hp₂, hmid⟩)
    have hrerun := perform_view hop₁ hp'
    rcases hother with ⟨m', gcEpoch', hput', hdelete', _⟩ | ⟨a, ha, u, hu, hbroken⟩
    · have hidle : ¬(NsmUpdate.putObject m' gcEpoch').Idle kv := fun hidle => by cases hidle.1
      have hpresent := h₂.name_after hi hc₂ hput' hidle
      have hgone := hrerun.deleted_after hi₂ hlast hdelete'
      rw [show kvGet kv₂ (.names (NsmUpdate.putObject m' gcEpoch').name) = none from hgone]
        at hpresent
      cases hpresent
    · exact h₂.not_holds_after hi hmid (h₁.holds a ha) hu hbroken (hrerun.holds a ha)

theorem serializable_of_not_skewed (hi : Indexed kv) (hclient₁ : r₁.op.fromClient = true)
    (hclient₂ : r₂.op.fromClient = true) (hskew : ¬Skewed kv r₁.op r₂.op) : Serializable namespaceId kv r₁ r₂ res₁ res₂ kv₂ := by
  by_cases hpreset : ∃ preset version, r₁.op = .updatePreset preset version
  · obtain ⟨preset, version, hop₁⟩ := hpreset
    by_cases hpreset₂ : ∃ preset version, r₂.op = .updatePreset preset version
    · obtain ⟨preset₂, version₂, hop₂⟩ := hpreset₂
      have hu₁ := updatesOf_of_perform hp₁
      have hu₂ := updatesOf_of_perform hp₂
      simp only [updatesOf, hop₁, hop₂] at hu₁ hu₂
      rcases updatePreset_twice hu₁ hu₂ hc₁ hc₂ with rfl | rfl
      · cases hc₁
        exact Or.inl ⟨[], kv, us₂, hp₁, rfl, hp₂, hc₂⟩
      · cases hc₂
        exact Or.inr ⟨[], kv, us₁, hp₂, rfl, hp₁, hc₁⟩
    · refine Or.inr (inOrder_updatePreset hp₁ hp₂ hc₁ hc₂ hop₁ hclient₂ ?_)
      exact fun preset version he => hpreset₂ ⟨preset, version, he⟩
  · have hnot : ∀ preset version, r₁.op ≠ .updatePreset preset version :=
      fun preset version he => hpreset ⟨preset, version, he⟩
    by_cases hmissed : r₁.op.Missed kv r₂.op
    · obtain ⟨m, gcEpoch, hput, hdelete, _⟩ := id hmissed
      have hboth : ¬r₂.op.Missed kv r₁.op := fun h => hskew ⟨hmissed, Or.inl h⟩
      have hbroken : ∀ a ∈ r₁.op.asserts, ∀ u ∈ r₂.op.nsmUpdates, ¬a.BrokenBy u :=
        fun a ha u hu hb => hskew ⟨hmissed, Or.inr ⟨a, ha, u, hu, hb⟩⟩
      exact Or.inr (inOrder_swapped hp₁ hp₂ hc₁ hc₂ hi (.of_mem hput) (.of_mem hdelete) hboth
        hbroken)
    · have hstable := stable_of_perform hi hclient₁ hnot hp₁ hc₁ hmissed
      exact Or.inl ⟨us₁, kv₁, us₂, hp₁, hc₁, perform_again hclient₂ hp₂ hc₂ hstable, hc₂⟩

end Performed

end Skew

/-- Two requests of clients, computed from one reachable state and applied one after the other, have
the outcome of one of their two orders exactly when they are not skewed. -/
theorem concurrent_serializable_iff (namespaceId : NamespaceId) (requests : List Request)
    {r₁ r₂ : Request} (hclient₁ : r₁.op.fromClient = true) (hclient₂ : r₂.op.fromClient = true)
    {us₁ us₂ : List Upd} {res₁ res₂ : Result} {kv₁ kv₂ : Store}
    (hp₁ : perform namespaceId (run (exec namespaceId) ∅ requests) r₁ = .ok (us₁, res₁))
    (hp₂ : perform namespaceId (run (exec namespaceId) ∅ requests) r₂ = .ok (us₂, res₂))
    (hc₁ : commit Key.encode (run (exec namespaceId) ∅ requests) us₁ = some kv₁)
    (hc₂ : commit Key.encode kv₁ us₂ = some kv₂) :
    Serializable namespaceId (run (exec namespaceId) ∅ requests) r₁ r₂ res₁ res₂ kv₂ ↔
      ¬Skewed (run (exec namespaceId) ∅ requests) r₁.op r₂.op := by
  have hi := run_indexed namespaceId requests
  constructor
  · intro hserial hskew
    exact not_serializable_of_skewed hp₁ hp₂ hc₁ hc₂ hi hskew hserial
  · exact serializable_of_not_skewed hp₁ hp₂ hc₁ hc₂ hi hclient₁ hclient₂

def sampleLinked : List Request := sampleRequests.take 1

/-- Both requests compute their updates from the namespace of `sampleLinked` and both lists apply. -/
def bothApply (r₁ r₂ : Request) : Bool :=
  let kv := run (exec 0) ∅ sampleLinked
  match perform 0 kv r₁, perform 0 kv r₂ with
  | .ok p₁, .ok p₂ => ((commit Key.encode kv p₁.1).bind (commit Key.encode · p₂.1)).isSome
  | _, _ => false

theorem exists_of_bothApply {r₁ r₂ : Request} (h : bothApply r₁ r₂ = true) :
    ∃ p₁ p₂ kv₁ kv₂, perform 0 (run (exec 0) ∅ sampleLinked) r₁ = .ok p₁ ∧
      perform 0 (run (exec 0) ∅ sampleLinked) r₂ = .ok p₂ ∧
      commit Key.encode (run (exec 0) ∅ sampleLinked) p₁.1 = some kv₁ ∧
      commit Key.encode kv₁ p₂.1 = some kv₂ := by
  simp only [bothApply] at h
  split at h
  · rename_i p₁ p₂ hp₁ hp₂
    obtain ⟨kv₂, hkv₂⟩ := Option.isSome_iff_exists.mp h
    obtain ⟨kv₁, hc₁, hc₂⟩ := Option.bind_eq_some_iff.mp hkv₂
    exact ⟨p₁, p₂, kv₁, kv₂, hp₁, hp₂, hc₁, hc₂⟩
  · cases h

theorem concurrent_puts_serializable : ∃ p₁ p₂ kv₂, perform 0 (run (exec 0) ∅ sampleLinked)
        { op := .putObject .unconditionally sampleManifest 0 } = .ok p₁ ∧
      perform 0 (run (exec 0) ∅ sampleLinked)
        { op := .putObject .unconditionally sampleOther 0 } = .ok p₂ ∧
      Serializable 0 (run (exec 0) ∅ sampleLinked)
        { op := .putObject .unconditionally sampleManifest 0 }
        { op := .putObject .unconditionally sampleOther 0 } p₁.2 p₂.2 kv₂ := by
  obtain ⟨p₁, p₂, kv₁, kv₂, hp₁, hp₂, hc₁, hc₂⟩ := exists_of_bothApply
    (show bothApply { op := .putObject .unconditionally sampleManifest 0 }
      { op := .putObject .unconditionally sampleOther 0 } = true by decide +kernel)
  refine ⟨p₁, p₂, kv₂, hp₁, hp₂,
    (concurrent_serializable_iff 0 sampleLinked rfl rfl hp₁ hp₂ hc₁ hc₂).mpr ?_⟩
  rintro ⟨⟨m, gcEpoch, _, hdelete, _⟩, _⟩
  simp [Op.nsmUpdates] at hdelete

def deleteThenPut (name : Bytes) (m : Manifest) : Request :=
  { op := .applySequence [] [.deleteObject name, .putObject m 0] [.deleteObject name, .putObject m 0] }

/-- Each of two sequences deletes the name that the other puts; both names are absent, and in the end
both objects are there. -/
theorem deletes_miss_puts : ¬∀ (namespaceId : NamespaceId) (requests : List Request) (r₁ r₂ : Request)
      (p₁ p₂ : List Upd × Result) (kv₁ kv₂ : Store),
      r₁.op.fromClient = true → r₂.op.fromClient = true →
      perform namespaceId (run (exec namespaceId) ∅ requests) r₁ = .ok p₁ →
      perform namespaceId (run (exec namespaceId) ∅ requests) r₂ = .ok p₂ →
      commit Key.encode (run (exec namespaceId) ∅ requests) p₁.1 = some kv₁ →
      commit Key.encode kv₁ p₂.1 = some kv₂ →
      Serializable namespaceId (run (exec namespaceId) ∅ requests) r₁ r₂ p₁.2 p₂.2 kv₂ := by
  intro h
  let r₁ := deleteThenPut (ascii ['a']) sampleOther
  let r₂ := deleteThenPut (ascii ['b']) sampleManifest
  obtain ⟨p₁, p₂, kv₁, kv₂, hp₁, hp₂, hc₁, hc₂⟩ : ∃ p₁ p₂ kv₁ kv₂, _ :=
    exists_of_bothApply (show bothApply r₁ r₂ = true by decide +kernel)
  have hskew : Skewed (run (exec 0) ∅ sampleLinked) r₁.op r₂.op := by
    refine ⟨⟨sampleOther, 0, ?_, ?_, ?_⟩, Or.inl ⟨sampleManifest, 0, ?_, ?_, ?_⟩⟩
    all_goals decide +kernel
  exact not_serializable_of_skewed hp₁ hp₂ hc₁ hc₂ (run_indexed 0 sampleLinked) hskew
    (h 0 sampleLinked r₁ r₂ p₁ p₂ kv₁ kv₂ rfl rfl hp₁ hp₂ hc₁ hc₂)

end Alba.Nsm
