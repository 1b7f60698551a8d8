import Alba.Nsm.Views
import Alba.ProofKit.Optimistic

/-! Gc epochs when requests compute their updates from one state and apply them in a later one: a list
with a gc epoch asserts the record of the epochs, and the record changes by compare and swap. -/

namespace Alba.Nsm

open List hiding next
open ProofKit Std

variable {kv : Store} {epochs : GcEpochs}

/-- The gc epochs that the puts and the manifest updates of a request carry. -/
def Op.gcEpochs (op : Op) : List Int64 :=
  op.puts.map Prod.snd ++ op.manifestUpdates.map fun update => update.2.2.1

def epochsOf (kv : Store) : GcEpochs :=
  match getGcEpochs kv with
  | .ok (_, epochs) => epochs
  | .error _ => .initial

theorem epochsOf_eq {v : Option Value} (h : getGcEpochs kv = .ok (v, epochs)) :
    epochsOf kv = epochs := by
  rw [epochsOf, h]

theorem getGcEpochs_stored (h : kvGet kv .gcEpochs = some (.gcEpochs epochs)) :
    getGcEpochs kv = .ok (some (.gcEpochs epochs), epochs) := by
  rw [getGcEpochs, h]
  rfl

theorem epochsOf_stored (h : kvGet kv .gcEpochs = some (.gcEpochs epochs)) : epochsOf kv = epochs :=
  epochsOf_eq (getGcEpochs_stored h)

theorem epochsOf_congr {kv kv' : Store} (h : kvGet kv' .gcEpochs = kvGet kv .gcEpochs) :
    epochsOf kv' = epochsOf kv := by
  simp only [epochsOf, getGcEpochs_congr h]

/-- What applying the updates of a request does to the epochs of the store. -/
inductive EpochChange (op : Op) (kv kv' : Store) : Prop
  | kept (same : kvGet kv' .gcEpochs = kvGet kv .gcEpochs)
      (other : ∀ e, op ≠ .disableGcEpoch e ∧ op ≠ .enableNewGcEpoch e)
      (valid : ∀ e ∈ op.gcEpochs, (epochsOf kv).isValidEpoch e = true)
  | disabled (e : Int64) (request : op = .disableGcEpoch e) (least : (epochsOf kv).minimumEpoch = e)
      (below : e < (epochsOf kv).nextEpoch) (stored : kvGet kv' .gcEpochs =
        some (.gcEpochs { minimumEpoch := e + 1, nextEpoch := (epochsOf kv).nextEpoch }))
  | enabled (e : Int64) (request : op = .enableNewGcEpoch e) (next : e = (epochsOf kv).nextEpoch)
      (stored : kvGet kv' .gcEpochs =
        some (.gcEpochs { minimumEpoch := (epochsOf kv).minimumEpoch, nextEpoch := e + 1 }))

section Commit

variable {namespaceId : NamespaceId} {kv₀ kv kv' : Store} {r : Request} {us : List Upd}

theorem swap_gcEpochs {v : Option Value} {epochs epochs' : GcEpochs}
    (hget : getGcEpochs kv₀ = .ok (v, epochs))
    (hc : commit Key.encode kv (Update.compareAndSwap .gcEpochs v (some (.gcEpochs epochs'))) =
      some kv') : epochsOf kv = epochs ∧ kvGet kv' .gcEpochs = some (.gcEpochs epochs') := by
  have hsame : kvGet kv .gcEpochs = kvGet kv₀ .gcEpochs := by
    rw [← getGcEpochs_fst hget]
    exact commit_requires Key.encode_injective (p := []) hc (by simp)
  refine ⟨(epochsOf_congr hsame).trans (epochsOf_eq hget), ?_⟩
  have hafter : kvGet kv' .gcEpochs = _ := commit_get Key.encode_injective hc _
  rw [hafter]
  simp [Update.compareAndSwap, runKey_cons, Update.act]

theorem perform_of_updatesOf (h : updatesOf namespaceId kv r = .ok us) :
    ∃ res, perform namespaceId kv r = .ok (us, res) := by
  obtain ⟨op, cache⟩ := r
  cases op with
  | putObject | deleteObject =>
    obtain ⟨p, hop, rfl⟩ := map_eq_ok.mp h
    exact ⟨_, map_eq_ok.mpr ⟨p, hop, rfl⟩⟩
  | cleanupOsdKeysToBeDeleted osdId =>
    cases h
    exact ⟨_, rfl⟩
  | _ => exact ⟨_, map_eq_ok.mpr ⟨us, h, rfl⟩⟩

theorem puts_valid (h : View namespaceId kv₀ r us) {e : Int64} {m : Manifest}
    (hu : .putObject m e ∈ r.op.nsmUpdates) : (epochsOf kv₀).isValidEpoch e = true := by
  obtain ⟨⟨us', old⟩, hput, _⟩ := map_eq_ok.mp (h.computes _ hu)
  obtain ⟨_, _, _, _, _, _, _, _, ⟨v, epochs, hget, hvalid⟩, _⟩ := putObject_eq_ok hput
  rw [epochsOf_eq hget]
  exact hvalid

theorem View.epochChange (hop : r.op.OnObjects) (h : View namespaceId kv₀ r us)
    (hc : commit Key.encode kv us = some kv') : EpochChange r.op kv kv' := by
  refine .kept (h.get_frame hc (by simp [frameKinds])) (fun e => ?_) fun e he => ?_
  · constructor <;> rintro hreq <;> rw [hreq] at hop <;> exact hop
  have hputs : ∃ m, .putObject m e ∈ r.op.nsmUpdates := by
    obtain ⟨op, cache⟩ := r
    cases op with
    | putObject overwrite m gcEpoch =>
      simp only [Op.gcEpochs, Op.puts, Op.manifestUpdates, map_cons, map_nil,
        append_nil, mem_singleton] at he
      subst he
      exact ⟨m, mem_singleton.mpr rfl⟩
    | deleteObject => simp [Op.gcEpochs, Op.puts, Op.manifestUpdates] at he
    | applySequence asserts updates order =>
      simp only [Op.gcEpochs, Op.puts, Op.manifestUpdates, map_nil, append_nil,
        mem_map, mem_filterMap] at he
      obtain ⟨p, ⟨u, hu, hp⟩, rfl⟩ := he
      cases u with
      | putObject m gcEpoch =>
        cases hp
        exact ⟨m, hu⟩
      | deleteObject name => cases hp
    | _ => exact absurd hop id
  obtain ⟨m, hu⟩ := hputs
  have hidle : ¬(NsmUpdate.putObject m e).Idle kv₀ := fun hidle => by cases hidle.1
  have hassert := (footprint_of_not_idle (h.computes _ hu) hidle).epochs (by simp [NsmUpdate.put?])
  have hsame := h.guards.holds Key.encode_injective hc (h.mem_of_mem_list hu hassert)
    (by simp [guardedKinds])
  rw [epochsOf_congr hsame]
  exact puts_valid h hu

theorem updateManifestGeneric_epochChange {cache : Option (BitVec 64 × Preset)} {op : Op}
    {name objectId : Bytes} {fus : List FragmentUpdate} {gcEpoch : Int64} {versionId : Int32}
    (h : updateManifestGeneric namespaceId cache kv₀ name objectId fus gcEpoch versionId = .ok us)
    (hc : commit Key.encode kv us = some kv')
    (hother : ∀ e, op ≠ .disableGcEpoch e ∧ op ≠ .enableNewGcEpoch e)
    (hepochs : op.gcEpochs = [gcEpoch]) : EpochChange op kv kv' := by
  have hwithin : ∀ u ∈ us, Within (fun _ => False) (Eq objectId) u :=
    updateManifestGeneric_within h rfl
  have hafter : kvGet kv' .gcEpochs = _ := commit_get Key.encode_injective hc _
  rw [runKey_of_not_writes _ fun u hu => (hwithin u hu).not_writes_frame (by simp [frameKinds])]
    at hafter
  obtain ⟨table, t, mapping, osdSizes, _, _, _, _, ⟨v, epochs, hget, hvalid⟩, _, _, _, rfl⟩ :=
    updateManifestGeneric_eq_ok h
  refine .kept hafter hother fun e he => ?_
  rw [hepochs, mem_singleton] at he
  subst he
  rw [epochsOf_congr (commit_updateUpdates hc).2, epochsOf_eq hget]
  exact hvalid

theorem epochChange_of_writesOnly {op : Op} {kinds : List Kind} (hus : WritesOnly Key.kind kinds us)
    (hkinds : Kind.gcEpochs ∉ kinds) (hc : commit Key.encode kv us = some kv')
    (hother : ∀ e, op ≠ .disableGcEpoch e ∧ op ≠ .enableNewGcEpoch e)
    (hepochs : op.gcEpochs = []) : EpochChange op kv kv' :=
  .kept (commit_same hus hc _ hkinds) hother (by simp [hepochs])

theorem commit_epochChange (h : updatesOf namespaceId kv₀ r = .ok us)
    (hc : commit Key.encode kv us = some kv') : EpochChange r.op kv kv' := by
  by_cases hop : r.op.OnObjects
  · obtain ⟨res, hp⟩ := perform_of_updatesOf h
    exact (perform_view hop hp).epochChange hop hc
  obtain ⟨op, cache⟩ := r
  cases op with
  | putObject | deleteObject | applySequence => exact absurd trivial hop
  | linkOsd osdId info =>
    cases h
    have hus : WritesOnly Key.kind [.activeOsds, .osdInfo] (linkOsd osdId info) := by
      intro u hu k hw
      simp only [linkOsd, mem_cons, not_mem_nil, or_false] at hu
      rcases hu with rfl | rfl
      · rw [← show Key.activeOsds osdId = k from hw]
        simp
      · rw [← show Key.osdInfo osdId = k from hw]
        simp
    exact epochChange_of_writesOnly hus (by simp) hc (by simp) rfl
  | unlinkOsd osdId =>
    cases h
    have hus : WritesOnly Key.kind [.activeOsds] (unlinkOsd osdId) := by
      intro u hu k hw
      rw [mem_singleton.mp hu] at hw
      rw [← show Key.activeOsds osdId = k from hw]
      simp
    exact epochChange_of_writesOnly hus (by simp) hc (by simp) rfl
  | updateManifest name objectId newFragments gcEpoch versionId =>
    exact updateManifestGeneric_epochChange h hc (by simp) rfl
  | updateManifest2 name objectId newFragments gcEpoch versionId =>
    exact updateManifestGeneric_epochChange h hc (by simp) rfl
  | enableNewGcEpoch gcEpoch =>
    simp only [updatesOf, enableNewGcEpoch, bind_eq_ok, check_eq_ok] at h
    obtain ⟨⟨v, epochs⟩, hget, _, hnext, h⟩ := h
    cases h
    obtain ⟨rfl, hstored⟩ := swap_gcEpochs hget hc
    exact .enabled gcEpoch rfl hnext hstored
  | disableGcEpoch gcEpoch =>
    simp only [updatesOf, disableGcEpoch, bind_eq_ok, check_eq_ok] at h
    obtain ⟨⟨v, epochs⟩, hget, _, ⟨hmin, hlt⟩, h⟩ := h
    cases h
    obtain ⟨rfl, hstored⟩ := swap_gcEpochs hget hc
    exact .disabled gcEpoch rfl hmin hlt hstored
  | markKeysDeleted deviceKeys =>
    cases h
    exact epochChange_of_writesOnly (writesOnly_markKeysDeleted deviceKeys) (by simp) hc (by simp) rfl
  | cleanupOsdKeysToBeDeleted osdId =>
    cases h
    exact epochChange_of_writesOnly (writesOnly_markKeysDeleted _) (by simp) hc (by simp) rfl
  | updatePreset preset version =>
    exact epochChange_of_writesOnly (writesOnly_updatePreset h) (by simp) hc (by simp) rfl

end Commit

/-- No applied request has moved the next epoch past the largest integer. -/
def NoOverflow (applied : List Request) : Prop :=
  ∀ r ∈ applied, r.op ≠ .enableNewGcEpoch Int64.maxValue

/-- The applied requests, the last one first, have respected the epochs of the store. -/
structure Fenced (kv : Store) (applied : List Request) : Prop where
  decodes : ∃ v, getGcEpochs kv = .ok (v, epochsOf kv)
  ordered : (epochsOf kv).minimumEpoch ≤ (epochsOf kv).nextEpoch
  disabled : ∀ r ∈ applied, ∀ e, r.op = .disableGcEpoch e → e < (epochsOf kv).minimumEpoch
  fenced : ∀ later r earlier e, applied = later ++ r :: earlier → r.op = .disableGcEpoch e →
    ∀ r' ∈ later, e ∉ r'.op.gcEpochs

section Epochs

variable {kv kv' : Store} {r : Request} {applied : List Request}

theorem lt_succ_of_lt {x y : Int64} (h : x < y) : x < x + 1 ∧ x + 1 ≤ y := by
  have hsucc := toInt_succ_of_lt h
  have hlt := Int64.lt_iff_toInt_lt.mp h
  rw [Int64.lt_iff_toInt_lt, Int64.le_iff_toInt_le]
  omega

theorem lt_max {x : Int64} (h : x ≠ Int64.maxValue) : x < Int64.maxValue := by
  have hle := Int64.toInt_lt x
  have hne : x.toInt ≠ Int64.maxValue.toInt := fun he => h (Int64.toInt_inj.mp he)
  rw [Int64.lt_iff_toInt_lt]
  have hmax : Int64.maxValue.toInt = 2 ^ 63 - 1 := by decide
  omega

theorem EpochChange.mono (h : EpochChange r.op kv kv')
    (hover : r.op ≠ .enableNewGcEpoch Int64.maxValue) :
    (∀ v, getGcEpochs kv = .ok (v, epochsOf kv) → ∃ v', getGcEpochs kv' = .ok (v', epochsOf kv')) ∧
      (epochsOf kv).minimumEpoch ≤ (epochsOf kv').minimumEpoch ∧
      (epochsOf kv).nextEpoch ≤ (epochsOf kv').nextEpoch := by
  cases h with
  | kept same _ _ =>
    rw [epochsOf_congr same, getGcEpochs_congr same]
    exact ⟨fun v hv => ⟨v, hv⟩, Int64.le_refl _, Int64.le_refl _⟩
  | disabled e _ least below stored =>
    have hget := getGcEpochs_stored stored
    rw [epochsOf_eq hget, least]
    exact ⟨fun _ _ => ⟨_, hget⟩, Int64.le_of_lt (lt_succ_of_lt below).1, Int64.le_refl _⟩
  | enabled e request next stored =>
    have hget := getGcEpochs_stored stored
    have hmax : e ≠ Int64.maxValue := by
      rintro rfl
      exact hover request
    rw [epochsOf_eq hget, ← next]
    exact ⟨fun _ _ => ⟨_, hget⟩, Int64.le_refl _, Int64.le_of_lt (lt_succ_of_lt (lt_max hmax)).1⟩

theorem EpochChange.ordered (h : EpochChange r.op kv kv')
    (hover : r.op ≠ .enableNewGcEpoch Int64.maxValue)
    (ho : (epochsOf kv).minimumEpoch ≤ (epochsOf kv).nextEpoch) :
    (epochsOf kv').minimumEpoch ≤ (epochsOf kv').nextEpoch := by
  have hmono := h.mono hover
  cases h with
  | kept same _ _ => rwa [epochsOf_congr same]
  | disabled e _ least below stored =>
    rw [epochsOf_stored stored]
    exact (lt_succ_of_lt below).2
  | enabled e request next stored =>
    have hnext := hmono.2.2
    rw [epochsOf_stored stored] at hnext ⊢
    exact Int64.le_trans ho hnext

theorem EpochChange.not_below (h : EpochChange r.op kv kv') {e : Int64} (he : e ∈ r.op.gcEpochs) :
    ¬e < (epochsOf kv).minimumEpoch := by
  cases h with
  | kept _ _ valid =>
    have hvalid := valid e he
    simp only [GcEpochs.isValidEpoch, Bool.and_eq_true, decide_eq_true_eq] at hvalid
    exact Int64.not_lt.mpr hvalid.1
  | disabled e' request | enabled e' request =>
    rw [request] at he
    simp [Op.gcEpochs, Op.puts, Op.manifestUpdates] at he

theorem Fenced.step (hf : Fenced kv applied) (h : EpochChange r.op kv kv')
    (hover : r.op ≠ .enableNewGcEpoch Int64.maxValue) : Fenced kv' (r :: applied) := by
  obtain ⟨hdecodes, hmin, _⟩ := h.mono hover
  obtain ⟨v, hv⟩ := hf.decodes
  refine ⟨hdecodes v hv, h.ordered hover hf.ordered, ?_, ?_⟩
  · intro r' hr' e hreq
    rcases mem_cons.mp hr' with rfl | hold
    · -- the epoch that is disabled now is below the new minimum
      cases h with
      | kept _ other _ => exact absurd hreq (other e).1
      | disabled e' request _ below stored =>
        rw [hreq] at request
        cases request
        rw [epochsOf_stored stored]
        exact (lt_succ_of_lt below).1
      | enabled e' request =>
        rw [hreq] at request
        cases request
    · exact Int64.lt_of_lt_of_le (hf.disabled r' hold e hreq) hmin
  · intro later r₀ earlier e happlied hreq r' hr'
    cases later with
    | nil => cases hr'
    | cons r₁ later =>
      rw [cons_append, List.cons.injEq] at happlied
      obtain ⟨rfl, happlied⟩ := happlied
      rcases mem_cons.mp hr' with rfl | hlater
      · intro he
        exact h.not_below he (hf.disabled r₀ (by simp [happlied]) e hreq)
      · exact hf.fenced later r₀ earlier e happlied hreq r' hlater

end Epochs

/-- A namespace whose clients compute their updates from the state they find and apply them
later. -/
def clientExec (namespaceId : NamespaceId) :
    Pool Store Request (List Upd) → PoolEvent Request → Option (Pool Store Request (List Upd)) :=
  Pool.exec (fun kv r => (updatesOf namespaceId kv r).toOption) (commit Key.encode)

/-- One state of a namespace comes before another: requests were applied in between, and without
overflow the epochs have not decreased. -/
def EpochsGrow (x y : Store × List Request) : Prop :=
  x.2 <:+ y.2 ∧ (NoOverflow y.2 →
    (epochsOf x.1).minimumEpoch ≤ (epochsOf y.1).minimumEpoch ∧
      (epochsOf x.1).nextEpoch ≤ (epochsOf y.1).nextEpoch)

theorem EpochsGrow.refl (x : Store × List Request) : EpochsGrow x x :=
  ⟨suffix_refl _, fun _ => ⟨Int64.le_refl _, Int64.le_refl _⟩⟩

theorem EpochsGrow.trans {x y z : Store × List Request} (h : EpochsGrow x y) (h' : EpochsGrow y z) :
    EpochsGrow x z := by
  refine ⟨h.1.trans h'.1, fun hover => ?_⟩
  have hfirst := h.2 fun r hr => hover r (h'.1.subset hr)
  have hsecond := h'.2 hover
  exact ⟨Int64.le_trans hfirst.1 hsecond.1, Int64.le_trans hfirst.2 hsecond.2⟩

/-- In every state that the clients of a namespace can reach, the least epoch is not above the next
one, neither has ever decreased, and no request that carries an epoch was applied after the epoch was
disabled. -/
theorem gcEpochs_fenced (namespaceId : NamespaceId) (events more : List (PoolEvent Request))
    (hover : NoOverflow
      (run (clientExec namespaceId) { store := ∅ } (events ++ more)).applied) :
    let p := run (clientExec namespaceId) { store := ∅ } events
    let p' := run (clientExec namespaceId) { store := ∅ } (events ++ more)
    (epochsOf p.store).minimumEpoch ≤ (epochsOf p.store).nextEpoch ∧
      (epochsOf p.store).minimumEpoch ≤ (epochsOf p'.store).minimumEpoch ∧
      (epochsOf p.store).nextEpoch ≤ (epochsOf p'.store).nextEpoch ∧
      ∀ later r earlier e, p.applied = later ++ r :: earlier → r.op = .disableGcEpoch e →
        ∀ r' ∈ later, e ∉ r'.op.gcEpochs := by
  intro p p'
  have step : ∀ (kv₀ : Store) (l₀ : List Request) (r : Request) (us : List Upd) (kv : Store)
      (l : List Request) (kv' : Store), (NoOverflow l₀ → Fenced kv₀ l₀) →
      (updatesOf namespaceId kv₀ r).toOption = some us → EpochsGrow (kv₀, l₀) (kv, l) →
      (NoOverflow l → Fenced kv l) → commit Key.encode kv us = some kv' →
      (NoOverflow (r :: l) → Fenced kv' (r :: l)) ∧ EpochsGrow (kv, l) (kv', r :: l) := by
    intro kv₀ l₀ r us kv l kv' _ hop _ hf hc
    have hchange : EpochChange r.op kv kv' := by
      cases hres : updatesOf namespaceId kv₀ r with
      | error e => simp [hres, Except.toOption] at hop
      | ok us' =>
        simp only [hres, Except.toOption, Option.some.injEq] at hop
        subst hop
        exact commit_epochChange hres hc
    refine ⟨fun hno => ?_, suffix_cons r l, fun hno => ?_⟩
    · exact (hf fun r' hr' => hno r' (mem_cons_of_mem _ hr')).step hchange
        (hno r mem_cons_self)
    · exact (hchange.mono (hno r mem_cons_self)).2
  have hstart : NoOverflow [] → Fenced (∅ : Store) [] := by
    intro _
    refine ⟨⟨none, ?_⟩, ?_, by simp, fun later r earlier e happlied => ?_⟩
    · simp [epochsOf, getGcEpochs, kvGet]
    · simp only [epochsOf, getGcEpochs, kvGet]
      decide
    · simp at happlied
  obtain ⟨hvalid, _⟩ := Pool.run_valid EpochsGrow.refl (fun _ _ _ => EpochsGrow.trans) step
    (Pool.Valid.start hstart) events
  obtain ⟨_, hgrow⟩ := Pool.run_valid EpochsGrow.refl (fun _ _ _ => EpochsGrow.trans) step hvalid more
  rw [← run_append] at hgrow
  have hf := hvalid.now fun r hr => hover r (hgrow.1.subset hr)
  obtain ⟨hmin, hnext⟩ := hgrow.2 hover
  exact ⟨hf.ordered, hmin, hnext, hf.fenced⟩

/-- A put is computed, its epoch is disabled, and the updates of the put are tried afterwards. -/
def stalePut : List (PoolEvent Request) :=
  [.compute { op := .linkOsd 1 { nodeId := ascii ['n'] } }, .apply 0,
    .compute { op := .putObject .unconditionally sampleManifest 0 },
    .compute { op := .disableGcEpoch 0 }, .apply 1, .apply 0]

theorem gcEpochs_fenced_stalePut :
    let p := run (clientExec 0) { store := ∅ } stalePut
    (p.applied.map fun r => r.op.gcEpochs) = [[], []] ∧
      ∀ later r earlier e, p.applied = later ++ r :: earlier → r.op = .disableGcEpoch e →
        ∀ r' ∈ later, e ∉ r'.op.gcEpochs := by
  have hall : ((run (clientExec 0) { store := ∅ } (stalePut ++ [])).applied.all fun r =>
      match r.op with
      | .enableNewGcEpoch e => e != Int64.maxValue
      | _ => true) = true := by decide +kernel
  have hover : NoOverflow (run (clientExec 0) { store := ∅ } (stalePut ++ [])).applied := by
    intro r hr hreq
    have hr' := all_eq_true.mp hall r hr
    rw [hreq] at hr'
    simp at hr'
  exact ⟨by decide +kernel, (gcEpochs_fenced 0 stalePut [] hover).2.2.2⟩

end Alba.Nsm
