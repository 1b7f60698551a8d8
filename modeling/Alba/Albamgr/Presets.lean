import Alba.Albamgr.Footprint

/-! The presets of the alba manager. A preset is checked when it is created; an update changes its
policies and its fragment size without a check, so the stored presets stay valid only as long as the
updates themselves are proper. -/

namespace Alba.Albamgr

open ProofKit

/-- The presets that are stored, with their versions, and the name of the default one. -/
structure PresetView where
  preset : Bytes → Option (Preset × Nat)
  default : Option Bytes

/-- One change of the view by a request that was computed in the view `v₀`. -/
inductive PresetStep (v₀ v : PresetView) : Request → PresetView → Prop
  | keep (r : Request) (presets : .presets ∉ r.tables) (default : .presetDefault ∉ r.tables) :
      PresetStep v₀ v r v
  | create (name : Bytes) (preset : Preset) (valid : presetIsValid preset = true)
      (free : v.preset name = none) :
      PresetStep v₀ v (.createPreset name preset)
        { v with preset := Function.update v.preset name (some (preset, 0)) }
  | update (name : Bytes) (u : PresetUpdate) (preset : Preset) (version : Nat)
      (stored : v.preset name = some (preset, version)) :
      PresetStep v₀ v (.updatePreset name u)
        { v with preset := Function.update v.preset name (some (u.apply preset, version + 1)) }
  | addOsds (name : Bytes) (osdIds : List OsdId) (preset : Preset) (version : Nat) (current : List OsdId)
      (stored : v.preset name = some (preset, version)) (explicit : preset.osds = .explicit current) :
      PresetStep v₀ v (.addOsdsToPreset name osdIds)
        { v with
          preset := Function.update v.preset name
            (some ({ preset with osds := .explicit (sortUniq (current ++ osdIds)) }, version + 1)) }
  | setDefault (name : Bytes) (stored : (v.preset name).isSome) :
      PresetStep v₀ v (.setDefaultPreset name) { v with default := some name }
  | deleteDefault (name : Bytes) (stored : (v.preset name).isSome) (isDefault : v.default = some name) :
      PresetStep v₀ v (.deletePreset name)
        { preset := Function.update v.preset name none, default := none }
  | deleteOther (name : Bytes) (stored : (v.preset name).isSome) (wasOther : v₀.default ≠ some name) :
      PresetStep v₀ v (.deletePreset name)
        { v with preset := Function.update v.preset name none }

section Refinement

def presetView (db : Db) : PresetView where
  preset := db.get .presets
  default := db.get .presetDefault ()

variable {db₀ db db' : Db} {us : List Update} {name : Bytes} {v₀ : PresetView}

theorem presetView_congr (hpresets : db'.table .presets = db.table .presets)
    (hdefault : db'.table .presetDefault = db.table .presetDefault) : presetView db' = presetView db := by
  simp [presetView, Tables.get_congr hpresets, Tables.get_congr hdefault, funext_iff]

theorem Within.presetView {ts : List Table} (h : Within ts us)
    (hrun : us.foldlM Update.effect db = some db') (hpresets : .presets ∉ ts)
    (hdefault : .presetDefault ∉ ts) : presetView db' = presetView db :=
  presetView_congr (h.table hrun hpresets) (h.table hrun hdefault)

theorem get_put_eq_update (db : Db) (t : Table) (key : t.Key) (v : Option t.Val) :
    (db.put t key v).get t = Function.update (db.get t) key v := by
  funext key'
  rw [Tables.get_put, Function.update_apply]
  simp only [eq_comm]

theorem presetView_putPreset (db : Db) (name : Bytes) (v : Option (Preset × Nat)) :
    presetView (db.put .presets name v) =
      { presetView db with preset := Function.update (presetView db).preset name v } := by
  simp [presetView, get_put_eq_update]

theorem presetView_putDefault (db : Db) (v : Option Bytes) :
    presetView (db.put .presetDefault () v) = { presetView db with default := v } := by
  simp [presetView, funext_iff]

theorem presetView_putPropagation (db : Db) (name : Bytes) (v : Option (Nat × List NamespaceId)) :
    presetView (db.put .propagation name v) = presetView db :=
  presetView_congr (Tables.put_table _ _ (by simp)) (Tables.put_table _ _ (by simp))

theorem createPreset_presetStep {preset : Preset} (h : createPreset db₀ name preset = .ok us)
    (hrun : applyAll db us = some db') :
    PresetStep v₀ (presetView db) (.createPreset name preset) (presetView db') := by
  obtain ⟨hvalid, _, rfl⟩ := createPreset_eq_ok h
  simp only [applyAll_assert_cons, applyAll_set_cons, applyAll_nil] at hrun
  obtain ⟨hfree, rfl⟩ := hrun
  rw [presetView_putPreset]
  exact .create name preset hvalid hfree

theorem updatePreset_presetStep {u : PresetUpdate} (h : updatePreset db₀ name u = .ok us)
    (hrun : applyAll db us = some db') :
    PresetStep v₀ (presetView db) (.updatePreset name u) (presetView db') := by
  obtain ⟨preset, version, record, _, rfl, hrecord⟩ := updatePreset_eq_ok h
  simp only [applyAll_assert_cons, applyAll_set_cons] at hrun
  obtain ⟨hstored, hrun⟩ := hrun
  -- what follows the preset itself changes the work queue and the propagation record
  have hrest : Within (.propagation :: workTables) (workUpdates [.propagatePreset name] ++
      .assertRange name (listPresetNamespaces db₀ name) :: record) := by
    rw [within_append, within_cons]
    refine ⟨(workUpdates_within _).mono (by simp), by simp [Update.tables], ?_⟩
    obtain rfl | ⟨rfl, _⟩ := hrecord
    · simp [Update.tables]
    · exact within_nil
  rw [hrest.presetView (effects_of_applyAll hrun) (by simp [workTables]) (by simp [workTables]),
    presetView_putPreset]
  exact .update name u preset version hstored

theorem addOsdsToPreset_presetStep {osdIds : List OsdId}
    (h : addOsdsToPreset db₀ name osdIds = .ok us) (hrun : applyAll db us = some db') :
    PresetStep v₀ (presetView db) (.addOsdsToPreset name osdIds) (presetView db') := by
  obtain ⟨preset, version, current, links, _, hcurrent, hlinks, rfl⟩ := addOsdsToPreset_eq_ok h
  simp only [List.cons_append, List.nil_append, applyAll_assertRange_cons, applyAll_assert_cons,
    applyAll_set_cons] at hrun
  obtain ⟨_, hstored, hrun⟩ := hrun
  rw [(presetLinks_within hlinks).presetView (effects_of_applyAll hrun) (by simp [logTables])
    (by simp [logTables]), presetView_putPreset]
  exact .addOsds name osdIds preset version current hstored hcurrent

theorem setDefaultPreset_presetStep (h : setDefaultPreset db₀ name = .ok us)
    (hrun : applyAll db us = some db') :
    PresetStep v₀ (presetView db) (.setDefaultPreset name) (presetView db') := by
  obtain ⟨v, _, rfl⟩ := setDefaultPreset_eq_ok h
  simp only [applyAll_assert_cons, applyAll_set_cons, applyAll_nil] at hrun
  obtain ⟨hstored, rfl⟩ := hrun
  rw [Tables.get_put_table _ _ _ (by simp)] at hstored
  rw [presetView_putDefault]
  exact .setDefault name (Option.isSome_of_mem hstored)

theorem deletePreset_presetStep (h : deletePreset db₀ name = .ok us)
    (hrun : applyAll db us = some db') :
    PresetStep (presetView db₀) (presetView db) (.deletePreset name) (presetView db') := by
  obtain ⟨extra, rfl, hextra⟩ := deletePreset_eq_ok h
  simp only [List.cons_append, List.nil_append, applyAll_assertRange_cons, applyAll_delete_cons,
    applyAll_set_cons] at hrun
  obtain ⟨_, hstored, hrun⟩ := hrun
  obtain ⟨hother, rfl⟩ | ⟨_, rfl⟩ := hextra
  · cases hrun
    rw [presetView_putPropagation, presetView_putPreset]
    exact .deleteOther name hstored hother
  · simp only [applyAll_assert_cons, applyAll_delete_cons, applyAll_nil] at hrun
    obtain ⟨hdefault, _, rfl⟩ := hrun
    rw [Tables.get_put_table _ _ _ (by simp), Tables.get_put_table _ _ _ (by simp)] at hdefault
    rw [presetView_putDefault, presetView_putPropagation, presetView_putPreset]
    exact .deleteDefault name hstored hdefault

theorem presetStep_of_apply {r : Request} {reply : Reply} {plan : Plan}
    (h : handleUpdate db₀ r = .ok (reply, plan)) (happly : plan.apply db = some db') :
    PresetStep (presetView db₀) (presetView db) r (presetView db') := by
  by_cases ht : .presets ∈ r.tables ∨ .presetDefault ∈ r.tables
  · cases r with
    | createPreset name preset =>
      obtain ⟨us, hus, hplan⟩ := map_eq_ok.mp h
      cases hplan
      exact createPreset_presetStep hus happly
    | deletePreset name =>
      obtain ⟨us, hus, hplan⟩ := map_eq_ok.mp h
      cases hplan
      exact deletePreset_presetStep hus happly
    | setDefaultPreset name =>
      obtain ⟨us, hus, hplan⟩ := map_eq_ok.mp h
      cases hplan
      exact setDefaultPreset_presetStep hus happly
    | addOsdsToPreset name osdIds =>
      obtain ⟨us, hus, hplan⟩ := map_eq_ok.mp h
      cases hplan
      exact addOsdsToPreset_presetStep hus happly
    | updatePreset name u =>
      obtain ⟨us, hus, hplan⟩ := map_eq_ok.mp h
      cases hplan
      exact updatePreset_presetStep hus happly
    | markMsgDelivered t => cases t <;> simp [Request.tables, workTables, logTables] at ht
    | markMsgsDelivered t => cases t <;> simp [Request.tables, workTables, logTables] at ht
    | _ => simp [Request.tables, workTables, logTables] at ht
  · obtain ⟨hpresets, hdefault⟩ := not_or.mp ht
    rw [presetView_congr (table_of_apply h happly hpresets) (table_of_apply h happly hdefault)]
    exact .keep r hpresets hdefault

end Refinement

/-! ### Valid presets -/

/-- The policies that `Preset.is_valid` accepts. -/
def policiesValid (policies : List Policy) : Bool :=
  policies != [] && policies.all fun p =>
    decide (p.k > 0) && decide (p.k ≤ p.fragmentCount) && decide (p.fragmentCount ≤ p.k + p.m)

/-- The policies and the fragment size that the update gives are such as a valid preset has. -/
def PresetUpdate.Proper (u : PresetUpdate) : Prop :=
  (∀ policies ∈ u.policies, policiesValid policies = true) ∧ ∀ size ∈ u.fragmentSize, size ≥ 16

instance (u : PresetUpdate) : Decidable u.Proper := inferInstanceAs (Decidable (_ ∧ _))

theorem isValid_of_change {preset preset' : Preset} (h : presetIsValid preset = true)
    (hchecksum : preset'.objectChecksum = preset.objectChecksum)
    (hencryption : preset'.fragmentEncryption = preset.fragmentEncryption)
    (hpolicies : policiesValid preset.policies = true → policiesValid preset'.policies = true)
    (hsize : preset.fragmentSize ≥ 16 → preset'.fragmentSize ≥ 16) : presetIsValid preset' = true := by
  unfold presetIsValid at h ⊢
  rw [hchecksum, hencryption]
  simp only [Bool.and_eq_true (_ && _), decide_eq_true_eq] at h ⊢
  obtain ⟨⟨hrest, hold⟩, hsized⟩ := h
  exact ⟨⟨hrest, hpolicies hold⟩, hsize hsized⟩

theorem PresetUpdate.Proper.isValid {u : PresetUpdate} (hu : u.Proper) {preset : Preset}
    (h : presetIsValid preset = true) : presetIsValid (u.apply preset) = true := by
  refine isValid_of_change h (by rfl) (by rfl) (fun hold => ?_) fun hold => ?_
  · change policiesValid (u.policies.getD preset.policies) = true
    cases hgiven : u.policies with
    | none => exact hold
    | some policies => exact hu.1 policies hgiven
  · change u.fragmentSize.getD preset.fragmentSize ≥ 16
    cases hgiven : u.fragmentSize with
    | none => exact hold
    | some size => exact hu.2 size hgiven

def PresetView.Valid (v : PresetView) : Prop :=
  ∀ name preset version, v.preset name = some (preset, version) → presetIsValid preset = true

theorem PresetView.Valid.put {v : PresetView} (h : v.Valid) {name : Bytes} {preset : Preset}
    (hpreset : presetIsValid preset = true) (version : Nat) (default : Option Bytes) :
    PresetView.Valid ⟨Function.update v.preset name (some (preset, version)), default⟩ := by
  intro name' preset' version' hget
  by_cases hname : name' = name
  · subst hname
    simp only [Function.update_self, Option.some.injEq, Prod.mk.injEq] at hget
    rw [← hget.1]
    exact hpreset
  · simp only [Function.update_of_ne hname] at hget
    exact h name' preset' version' hget

theorem PresetView.Valid.remove {v : PresetView} (h : v.Valid) (name : Bytes) (default : Option Bytes) :
    PresetView.Valid ⟨Function.update v.preset name none, default⟩ := by
  intro name' preset' version' hget
  by_cases hname : name' = name
  · subst hname
    simp at hget
  · simp only [Function.update_of_ne hname] at hget
    exact h name' preset' version' hget

def ProperUpdate (_ : Db) (r : Request) (_ : Computed) : Prop :=
  match r with
  | .updatePreset _ u => u.Proper
  | _ => True

instance (db : Db) (r : Request) (c : Computed) : Decidable (ProperUpdate db r c) := by
  unfold ProperUpdate
  split <;> infer_instance

theorem PresetStep.valid {v₀ v v' : PresetView} {r : Request} (h : PresetStep v₀ v r v') {db : Db}
    {c : Computed} (hr : ProperUpdate db r c) (hv : v.Valid) : v'.Valid := by
  cases h with
  | keep => exact hv
  | create name preset hvalid => exact hv.put hvalid _ _
  | update name u preset version hstored =>
    have hu : u.Proper := hr
    exact hv.put (hu.isValid (hv name preset version hstored)) _ _
  | addOsds name osdIds preset version current hstored =>
    refine hv.put ?_ _ _
    exact isValid_of_change (hv name preset version hstored) (by rfl) (by rfl) id id
  | setDefault => exact hv
  | deleteDefault name => exact hv.remove name _
  | deleteOther name => exact hv.remove name _

theorem presetView_initial (albaId : Bytes) :
    presetView (initial albaId) =
      ⟨Function.update (fun _ => none) defaultName (some (defaultPreset, 0)), some defaultName⟩ := by
  simp [presetView, initial, funext_iff, Tables.get_put, Function.update_apply, get_empty, eq_comm]

theorem initial_valid (albaId : Bytes) : (presetView (initial albaId)).Valid := by
  rw [presetView_initial]
  exact PresetView.Valid.put (v := ⟨fun _ => none, none⟩) (fun _ _ _ h => nomatch h)
    defaultPreset_isValid 0 _

/-- In a run in which every update of a preset that is applied is proper, the presets that are stored
are valid. -/
theorem presets_valid (albaId : Bytes) (events : List (PoolEvent Request))
    (hproper : AllSteps serve (Applies ProperUpdate) { store := { db := initial albaId } } events)
    (name : Bytes) (preset : Preset) (version : Nat)
    (hstored : (run serve { store := { db := initial albaId } } events).store.db.get .presets name =
      some (preset, version)) : presetIsValid preset = true := by
  have hvalid := serve_holds (I := fun db => (presetView db).Valid) (B := fun _ _ => True)
    (fun _ => trivial) (fun _ _ _ _ _ => trivial)
    (fun r c db db' _ hplan _ hdb hr happly => ⟨(presetStep_of_apply hplan happly).valid hr hdb, trivial⟩)
    (initial_valid albaId) hproper
  exact hvalid name preset version hstored

/-- The update of the default preset that leaves it without policies. -/
def withoutPolicies : List (PoolEvent Request) :=
  [.compute (.updatePreset defaultName { policies := some [], fragmentSize := none }), .apply 0]

theorem preset_without_policies :
    ∃ preset version,
      (run serve { store := { db := initial [] } } withoutPolicies).store.db.get .presets defaultName =
        some (preset, version) ∧ presetIsValid preset = false :=
  ⟨{ defaultPreset with policies := [] }, 1, by decide +kernel, by decide⟩

/-- The default preset gets one other policy. -/
theorem presets_valid_onePolicy :
    presetIsValid { defaultPreset with policies := [⟨1, 1, 2, 1⟩] } = true :=
  presets_valid []
    [.compute (.updatePreset defaultName { policies := some [⟨1, 1, 2, 1⟩], fragmentSize := none }), .apply 0]
    (by decide +kernel) defaultName _ 1 (by decide +kernel)

end Alba.Albamgr
