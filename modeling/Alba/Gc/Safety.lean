import Alba.Gc.Protocol

/-! Garbage collection and live fragments. A collector decides from a manifest that it has read
earlier; what it then deletes is not live as long as no fragment is uploaded to one osd under two
epochs. -/

namespace Alba.Gc

open Nsm ProofKit Std List

/-- An attempt of this epoch has stored the fragment at this place. -/
def UploadedUnder (s : State) (gcEpoch : Int64) (p : Placed) : Prop :=
  ∃ a ∈ s.attempts, a.gcEpoch = gcEpoch ∧ p ∈ a.stored

def Present (s : State) (p : Placed) : Prop :=
  .fragment p ∈ s.osds ∧ .fragmentRecoveryInfo p ∈ s.osds

instance (s : State) (p : Placed) : Decidable (Present s p) := inferInstanceAs (Decidable (_ ∧ _))

/-- An upload does not store a fragment where it has been stored under another epoch. -/
def OneEpoch (s : State) : Action → Prop
  | .uploadPackedFragmentData i osdId chunkId fragmentId =>
    ∀ a ∈ s.attempts[i]?, ∀ b ∈ s.attempts, a.place osdId chunkId fragmentId ∈ b.stored →
      b.gcEpoch = a.gcEpoch
  | _ => True

instance (s : State) (action : Action) : Decidable (OneEpoch s action) := by
  unfold OneEpoch
  split <;> infer_instance

/-- The action is none of the cleaner of obsolete keys. -/
def Action.collects : Action → Bool
  | .cleanList _ | .cleanDelete _ _ | .cleanMark _ _ => false
  | _ => true

structure Safe (s : State) : Prop where
  indexed : Indexed s.kv
  tags : ∀ e p, .gcEpochTag e p ∈ s.osds → UploadedUnder s e p
  listed : ∀ e p, (e, p) ∈ s.listed → UploadedUnder s e p ∧ e.toInt < minimumEpoch s.kv
  decided : ∀ decision e p, (decision, e, p) ∈ s.decided →
    UploadedUnder s e p ∧ e.toInt < minimumEpoch s.kv ∧
      (decision = .cleanupFragment → ¬Live s.kv p)
  single : ∀ e e' p, UploadedUnder s e p → UploadedUnder s e' p → e = e'
  stored : ∀ e p, UploadedUnder s e p → minimumEpoch s.kv ≤ e.toInt → Present s p
  live : ∀ p, Live s.kv p → Present s p

theorem Safe.initial : Safe .initial where
  indexed := .empty
  tags := by simp [State.initial]
  listed := by simp [State.initial]
  decided := by simp [State.initial]
  single := by simp [State.initial, UploadedUnder]
  stored := by simp [State.initial, UploadedUnder]
  live := by
    rintro p ⟨id, t, ht, _⟩
    simp [State.initial, kvGet] at ht

section Decisions

variable {s : State} {p : Placed}

theorem live_manifestAt {kv : Store} (hi : Indexed kv) (hp : Live kv p) :
    ∃ t, manifestAt kv p.objectId = some t ∧ p ∈ t.placed := by
  obtain ⟨id, t, ht, hp⟩ := hp
  obtain ⟨_, he, hid, _⟩ := hi.objects id _ ht
  cases he
  obtain ⟨f, _, _, hpid, _⟩ := mem_placed.mp hp
  exact ⟨t, manifestAt_eq_some.mpr (by rw [hpid, hid, ht]), hp⟩

theorem getLocation_of_placed {t : Manifest} (hp : p ∈ t.placed) :
    t.getLocation p.chunkId p.fragmentId = .ok (some p.osdId, p.versionId) := by
  obtain ⟨f, hf, _, _, hd, hver⟩ := mem_placed.mp hp
  have hindex : Layout.index t.fragments p.chunkId p.fragmentId = .ok f :=
    Layout.index_eq_ok.mpr ⟨_, hf, rfl, rfl⟩
  rw [Manifest.getLocation, hindex]
  simp [Fragment.locOf, hd, hver]

theorem placed_of_getLocation {t : Manifest} (hid : t.objectId = p.objectId)
    (h : t.getLocation p.chunkId p.fragmentId = .ok (some p.osdId, p.versionId)) : p ∈ t.placed := by
  simp only [Manifest.getLocation, bind_eq_ok] at h
  obtain ⟨f, hf, h⟩ := h
  obtain ⟨⟨⟨c, i⟩, g⟩, he, hindex, rfl⟩ := Layout.index_eq_ok.mp hf
  have hloc : g.locOf = (some p.osdId, p.versionId) := Except.ok.inj h
  simp only [Fragment.locOf, Prod.mk.injEq] at hloc
  simp only [cellIndex, Prod.mk.injEq, Int.natCast_inj] at hindex
  obtain ⟨rfl, rfl⟩ := hindex
  exact mem_placed.mpr ⟨g, he, rfl, hid.symm, hloc.1, hloc.2⟩

theorem not_live_of_decide? (hi : Indexed s.kv) (h : s.decide? p = some .cleanupFragment) :
    ¬Live s.kv p := by
  intro hp
  obtain ⟨t, ht, hp⟩ := live_manifestAt hi hp
  simp [State.decide?, ht, getLocation_of_placed hp] at h

theorem live_of_decide? (hi : Indexed s.kv) (h : s.decide? p = some .cleanupGcEpochTag) :
    Live s.kv p := by
  unfold State.decide? at h
  split at h
  · cases h
  · rename_i t ht
    split at h
    · rename_i loc hloc
      split at h
      · rename_i heq
        rw [manifestAt_eq_some] at ht
        obtain ⟨_, he, hid, _⟩ := hi.objects _ _ ht
        cases he
        exact ⟨_, t, ht, placed_of_getLocation hid (by rw [hloc, heq])⟩
      · cases h
    · cases h

end Decisions

section Steps

variable {namespaceId : NamespaceId} {s s' : State}

theorem uploadedUnder_congr
    (same : ∀ a' ∈ s'.attempts, ∃ a ∈ s.attempts, a'.gcEpoch = a.gcEpoch ∧ a'.stored = a.stored)
    (kept : ∀ a ∈ s.attempts, ∃ a' ∈ s'.attempts, a'.gcEpoch = a.gcEpoch ∧ a'.stored = a.stored)
    {e : Int64} {p : Placed} : UploadedUnder s' e p ↔ UploadedUnder s e p := by
  constructor
  · rintro ⟨a', ha', rfl, hp⟩
    obtain ⟨a, ha, he, hs⟩ := same a' ha'
    exact ⟨a, ha, he.symm, hs ▸ hp⟩
  · rintro ⟨a, ha, rfl, hp⟩
    obtain ⟨a', ha', he, hs⟩ := kept a ha
    exact ⟨a', ha', he, hs ▸ hp⟩

theorem uploadedUnder_upload {i : Nat} {a : Attempt} (ha : s.attempts[i]? = some a) {d : OsdId}
    {c f : Nat} (h : (a.place d c f).Counted) {osds : Finset OsdKey} {e : Int64} {p : Placed} :
    UploadedUnder { s with osds, attempts := s.attempts.set i (a.store d c f h) } e p ↔
      UploadedUnder s e p ∨ (e = a.gcEpoch ∧ p = a.place d c f) := by
  have hlt : i < s.attempts.length := (List.getElem?_eq_some_iff.mp ha).1
  constructor
  · rintro ⟨b, hb, rfl, hp⟩
    rcases mem_or_eq_of_mem_set hb with hb | rfl
    · exact Or.inl ⟨b, hb, rfl, hp⟩
    · rcases mem_cons.mp hp with rfl | hp
      · exact Or.inr ⟨rfl, rfl⟩
      · exact Or.inl ⟨a, mem_of_getElem? ha, rfl, hp⟩
  · rintro (⟨b, hb, rfl, hp⟩ | ⟨rfl, rfl⟩)
    · obtain ⟨j, hj⟩ := getElem?_of_mem hb
      by_cases hij : i = j
      · subst hij
        cases ha.symm.trans hj
        exact ⟨_, mem_of_getElem? (getElem?_set_self hlt), rfl, mem_cons_of_mem _ hp⟩
      · exact ⟨b, mem_of_getElem? (by rwa [getElem?_set_ne hij]), rfl, hp⟩
    · exact ⟨_, mem_of_getElem? (getElem?_set_self hlt), rfl, mem_cons_self⟩

theorem Safe.asked {r : Request} {kv' : Store} (hs : Safe s)
    (success : Nsm.exec namespaceId s.kv r = some kv')
    (origin : ∀ p, Live kv' p → Live s.kv p ∨
      ∃ a ∈ s.attempts, p ∈ a.stored ∧ minimumEpoch s.kv ≤ a.gcEpoch.toInt)
    {attempts' : List Attempt}
    (uploads : ∀ e p, UploadedUnder { s.withStore kv' with attempts := attempts' } e p ↔
      UploadedUnder s e p) : Safe { s.withStore kv' with attempts := attempts' } := by
  have hmin := exec_minimumEpoch success
  constructor
  case indexed => exact exec_indexed hs.indexed success
  case tags => exact fun e p htag => (uploads e p).mpr (hs.tags e p htag)
  case listed =>
    intro e p hmem
    obtain ⟨hup, hlt⟩ := hs.listed e p hmem
    exact ⟨(uploads e p).mpr hup, hlt.trans_le hmin⟩
  case decided =>
    intro decision e p hmem
    obtain ⟨hup, hlt, hnot⟩ := hs.decided decision e p hmem
    refine ⟨(uploads e p).mpr hup, hlt.trans_le hmin, fun hd hlive => ?_⟩
    rcases origin p hlive with hlive | ⟨a, ha, hp, hle⟩
    · exact hnot hd hlive
    · -- the fragment was stored under the disabled epoch of the tag and under an enabled one
      have he := hs.single _ _ p hup ⟨a, ha, rfl, hp⟩
      rw [he] at hlt
      omega
  case single =>
    intro e e' p h h'
    exact hs.single e e' p ((uploads e p).mp h) ((uploads e' p).mp h')
  case stored =>
    intro e p h hle
    exact hs.stored e p ((uploads e p).mp h) (hmin.trans hle)
  case live =>
    intro p hlive
    rcases origin p hlive with hlive | ⟨a, ha, hp, hle⟩
    · exact hs.live p hlive
    · exact hs.stored _ p ⟨a, ha, rfl, hp⟩ hle

theorem Safe.untag (hs : Safe s) (gcEpoch : Int64) (p : Placed) :
    Safe { s with osds := s.osds.erase (.gcEpochTag gcEpoch p) } := by
  constructor
  case indexed => exact hs.indexed
  case tags => exact fun e q htag => hs.tags e q (Finset.mem_of_mem_erase htag)
  case listed => exact hs.listed
  case decided => exact hs.decided
  case single => exact hs.single
  case stored => exact fun e q h hle => (hs.stored e q h hle).imp (by simp) (by simp)
  case live => exact fun q hq => (hs.live q hq).imp (by simp) (by simp)

theorem Safe.upload (hs : Safe s) {i : Nat} {a : Attempt} (ha : s.attempts[i]? = some a)
    {d : OsdId} {c f : Nat} (h : (a.place d c f).Counted)
    (hone : ∀ e, UploadedUnder s e (a.place d c f) → e = a.gcEpoch) :
    Safe { s with
      osds := insert (.fragment (a.place d c f)) (insert (.fragmentRecoveryInfo (a.place d c f))
        (insert (.gcEpochTag a.gcEpoch (a.place d c f)) s.osds))
      attempts := s.attempts.set i (a.store d c f h) } := by
  have keep : ∀ q, Present s q → Present { s with
      osds := insert (.fragment (a.place d c f)) (insert (.fragmentRecoveryInfo (a.place d c f))
        (insert (.gcEpochTag a.gcEpoch (a.place d c f)) s.osds))
      attempts := s.attempts.set i (a.store d c f h) } q :=
    fun q hq => hq.imp (by simp +contextual) (by simp +contextual)
  constructor
  case indexed => exact hs.indexed
  case tags =>
    intro e q htag
    rw [uploadedUnder_upload ha h]
    simp only [Finset.mem_insert, reduceCtorEq, OsdKey.gcEpochTag.injEq, false_or] at htag
    rcases htag with htag | htag
    · exact Or.inr htag
    · exact Or.inl (hs.tags e q htag)
  case listed =>
    intro e q hmem
    rw [uploadedUnder_upload ha h]
    exact (hs.listed e q hmem).imp Or.inl id
  case decided =>
    intro decision e q hmem
    rw [uploadedUnder_upload ha h]
    exact (hs.decided decision e q hmem).imp Or.inl id
  case single =>
    intro e e' q hq hq'
    rw [uploadedUnder_upload ha h] at hq hq'
    rcases hq with hq | ⟨he, hqp⟩ <;> rcases hq' with hq' | ⟨he', hqp'⟩
    · exact hs.single e e' q hq hq'
    · exact (hone e (hqp' ▸ hq)).trans he'.symm
    · exact he.trans (hone e' (hqp ▸ hq')).symm
    · exact he.trans he'.symm
  case stored =>
    intro e q hq hle
    rw [uploadedUnder_upload ha h] at hq
    rcases hq with hq | ⟨rfl, rfl⟩
    · exact keep q (hs.stored e q hq hle)
    · exact ⟨by simp, by simp⟩
  case live => exact fun q hq => keep q (hs.live q hq)

theorem Safe.collect (hs : Safe s) {gcEpoch : Int64} {p : Placed}
    (hmem : (.cleanupFragment, gcEpoch, p) ∈ s.decided) :
    Safe { s with
      osds := ((s.osds.erase (.fragment p)).erase (.fragmentRecoveryInfo p)).erase
        (.gcEpochTag gcEpoch p) } := by
  obtain ⟨hup, hlt, hnot⟩ := hs.decided _ _ _ hmem
  have keep : ∀ q, q ≠ p → Present s q → Present { s with
      osds := ((s.osds.erase (.fragment p)).erase (.fragmentRecoveryInfo p)).erase
        (.gcEpochTag gcEpoch p) } q := by
    intro q hq hpresent
    exact hpresent.imp (by simp [hq]) (by simp [hq])
  constructor
  case indexed => exact hs.indexed
  case tags => exact fun e q htag => hs.tags e q (by simp at htag; exact htag.2)
  case listed => exact hs.listed
  case decided => exact hs.decided
  case single => exact hs.single
  case stored =>
    intro e q hq hle
    refine keep q ?_ (hs.stored e q hq hle)
    rintro rfl
    rw [hs.single _ _ q hup hq] at hlt
    exact absurd (hlt.trans_le hle) (lt_irrefl _)
  case live =>
    intro q hq
    refine keep q ?_ (hs.live q hq)
    rintro rfl
    exact hnot rfl hq

theorem exec_safe {action : Action} (hs : Safe s) (hone : OneEpoch s action)
    (hcollects : action.collects) (h : exec namespaceId s action = some s') : Safe s' := by
  cases exec_step hs.indexed h with
  | started a unstored _ =>
    have hup : ∀ e p, UploadedUnder { s with attempts := s.attempts ++ [a] } e p ↔
        UploadedUnder s e p := by
      intro e p
      simp [UploadedUnder, or_and_right, exists_or, unstored]
    exact ⟨hs.indexed, fun e p htag => (hup e p).mpr (hs.tags e p htag),
      fun e p hmem => (hs.listed e p hmem).imp (hup e p).mpr id,
      fun d e p hmem => (hs.decided d e p hmem).imp (hup e p).mpr id,
      fun e e' p h h' => hs.single e e' p ((hup e p).mp h) ((hup e' p).mp h'),
      fun e p h hle => hs.stored e p ((hup e p).mp h) hle, hs.live⟩
  | uploaded a mem counted =>
    refine hs.upload mem counted ?_
    rintro _ ⟨b, hb, rfl, hp⟩
    exact hone a mem b hb hp
  | asked r kv' attempts' success answer same kept =>
    refine hs.asked success answer.origin fun e p => uploadedUnder_congr (fun a' ha' => ?_) kept
    obtain ⟨a, ha, he, hst, _⟩ := same a' ha'
    exact ⟨a, ha, he, hst⟩
  | untagged a mem m committed p placed => exact hs.untag a.gcEpoch p
  | listed gcEpoch p tag disabled =>
    refine ⟨hs.indexed, hs.tags, fun e q hmem => ?_, hs.decided, hs.single, hs.stored, hs.live⟩
    rcases mem_cons.mp hmem with heq | hmem
    · cases heq
      exact ⟨hs.tags _ _ tag, disabled⟩
    · exact hs.listed e q hmem
  | read gcEpoch p decision mem decided =>
    refine ⟨hs.indexed, hs.tags, hs.listed, fun d e q hmem => ?_, hs.single, hs.stored, hs.live⟩
    rcases mem_cons.mp hmem with heq | hmem
    · cases heq
      obtain ⟨hup, hlt⟩ := hs.listed _ _ mem
      refine ⟨hup, hlt, ?_⟩
      rintro rfl
      exact not_live_of_decide? hs.indexed decided
    · exact hs.decided d e q hmem
  | collectedTag gcEpoch p mem => exact hs.untag gcEpoch p
  | collected gcEpoch p mem => exact hs.collect mem
  | found osdId => cases hcollects
  | deleted osdId keys mem => cases hcollects
  | marked osdId keys mem kv' success => cases hcollects

end Steps

/-- The fragment of `sampleManifest`. -/
def samplePlace : Placed := samplePlaced 0

/-- An upload of `sampleManifest` by the attempt `i`, with the object id of the manifest. -/
def upload (i : Nat) (gcEpoch : Int64) : List Action :=
  [.startUpload (ascii ['x']) gcEpoch, .uploadPackedFragmentData i 1 0 0]

def uploadOnce : List Action :=
  [.request { op := .linkOsd 1 { nodeId := ascii ['n'] } }] ++ upload 0 0 ++
    [.putObject 0 .unconditionally sampleManifest none]

/-- An upload fails because its epoch is disabled and is made again with the same object id under the
next epoch, while a collector has already read that the object does not exist. -/
def retryDuringCollection : List Action :=
  [.request { op := .linkOsd 1 { nodeId := ascii ['n'] } }] ++ upload 0 0 ++
    [.request { op := .enableNewGcEpoch 1 }, .request { op := .disableGcEpoch 0 },
      .putObject 0 .unconditionally sampleManifest none,
      .gcList 0 samplePlace, .gcRead 0 samplePlace] ++ upload 1 1 ++
    [.putObject 1 .unconditionally sampleManifest none,
      .gcApply .cleanupFragment 0 samplePlace]

end Alba.Gc
