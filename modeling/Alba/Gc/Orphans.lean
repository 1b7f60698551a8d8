import Alba.Gc.Safety
import Alba.Nsm.Ranges

/-! The owners of a fragment: the manifest that locates it, a tag, or the list of keys to delete. None is
left without one as long as no upload stores a fragment where a manifest has already had it. -/

namespace Alba.Gc

open Nsm ProofKit Std

/-- An upload does not store a fragment at a place that a stored manifest has had. -/
def NotLocated (s : State) : Action → Prop
  | .uploadPackedFragmentData i osdId chunkId fragmentId =>
    ∀ a ∈ s.attempts[i]?, a.place osdId chunkId fragmentId ∉ s.located
  | _ => True

instance (s : State) (action : Action) : Decidable (NotLocated s action) := by
  induction action using Action.casesOn <;> dsimp only [NotLocated] <;> infer_instance

def OsdKey.isTagOf (p : Placed) : OsdKey → Bool
  | gcEpochTag _ q => q = p
  | _ => false

/-- The fragment is located, or tagged, or scheduled for deletion. -/
def HasOwner (namespaceId : NamespaceId) (s : State) (p : Placed) : Prop :=
  Live s.kv p ∨ (∃ e, .gcEpochTag e p ∈ s.osds) ∨ Scheduled s.kv p.osdId (p.fragmentKey namespaceId)

/-- The key on the osd is one of a fragment that a stored manifest has had there. -/
def KeyLocated (namespaceId : NamespaceId) (located : List Placed) (d : OsdId) (key : Bytes) : Prop :=
  ∃ p ∈ located, p.osdId = d ∧ p.HasKey namespaceId key

structure Owned (namespaceId : NamespaceId) (s : State) : Prop where
  indexed : Indexed s.kv
  encoded : ∀ key, (∀ k : Key, k.encode ≠ key) → s.kv[key]? = none
  live : ∀ p, Live s.kv p → p ∈ s.located
  counted : ∀ p ∈ s.located, p.Counted
  stored : ∀ p, .fragment p ∈ s.osds → p.Counted
  committed : ∀ a ∈ s.attempts, ∀ m, a.committed = some m → ∀ p ∈ m.placed, p ∈ s.located
  decided : ∀ e p, (.cleanupGcEpochTag, e, p) ∈ s.decided → p ∈ s.located
  scheduled : ∀ d key, Scheduled s.kv d key → KeyLocated namespaceId s.located d key
  obsolete : ∀ d keys, (d, keys) ∈ s.obsolete →
    ∀ key ∈ keys, KeyLocated namespaceId s.located d key
  cleaned : ∀ d keys, (d, keys) ∈ s.cleaned →
    (∀ key ∈ keys, KeyLocated namespaceId s.located d key) ∧
      ∀ p, .fragment p ∈ s.osds → p.osdId = d → p.fragmentKey namespaceId ∉ keys
  owned : ∀ p, .fragment p ∈ s.osds → p ∈ s.located →
    Live s.kv p ∨ Scheduled s.kv p.osdId (p.fragmentKey namespaceId)
  tagged : ∀ p, .fragment p ∈ s.osds → p ∉ s.located → ∃ e, .gcEpochTag e p ∈ s.osds

namespace Owned

variable {namespaceId : NamespaceId} {s : State}

theorem initial : Owned namespaceId .initial where
  indexed := .empty
  encoded := by simp [State.initial]
  live := by
    rintro p ⟨id, t, ht, _⟩
    simp [State.initial, kvGet] at ht
  counted := by simp [State.initial]
  stored := by simp [State.initial]
  committed := by simp [State.initial]
  decided := by simp [State.initial]
  scheduled := by simp [State.initial, Scheduled, kvGet]
  obsolete := by simp [State.initial]
  cleaned := by simp [State.initial]
  owned := by simp [State.initial]
  tagged := by simp [State.initial]

theorem hasOwner (h : Owned namespaceId s) {p : Placed} (hp : .fragment p ∈ s.osds) :
    HasOwner namespaceId s p := by
  by_cases hloc : p ∈ s.located
  · exact (h.owned p hp hloc).imp id Or.inr
  · exact Or.inr (Or.inl (h.tagged p hp hloc))

end Owned

section Located

variable {namespaceId : NamespaceId} {s : State} {kv' : Store} {p : Placed}

theorem mem_withStore_located : p ∈ (s.withStore kv').located ↔ Live kv' p ∨ p ∈ s.located := by
  simp [State.withStore, live_iff]

theorem KeyLocated.mono {located located' : List Placed} {d : OsdId} {key : Bytes}
    (h : KeyLocated namespaceId located d key) (hsub : ∀ p ∈ located, p ∈ located') :
    KeyLocated namespaceId located' d key := by
  obtain ⟨p, hp, hd, hkey⟩ := h
  exact ⟨p, hsub p hp, hd, hkey⟩

theorem KeyLocated.mem {located : List Placed} (hcounted : ∀ q ∈ located, q.Counted)
    (hp : p.Counted) (h : KeyLocated namespaceId located p.osdId (p.fragmentKey namespaceId)) :
    p ∈ located := by
  obtain ⟨q, hq, hd, hkey⟩ := h
  obtain ⟨hid, hver, hc, hf⟩ := hkey.inj (Or.inl rfl) (hcounted q hq) hp
  have heq : q = p := by
    cases q
    cases p
    simp_all
  rwa [← heq]

theorem tagKey_not_hasKey {e : Int64} {q : Placed} : ¬q.HasKey namespaceId (tagKey namespaceId e p) := by
  rintro (h | h)
  · have := toGlobalKey_inj.mp h
    simp [gcEpochTag, fragment, ascii] at this
  · have := toGlobalKey_inj.mp h
    simp [gcEpochTag, fragmentRecoveryInfo, ascii] at this

end Located

section Steps

variable {namespaceId : NamespaceId} {s s' : State}

section

variable (hs : Owned namespaceId s)
include hs

theorem Owned.withStore {r : Request} {kv' : Store} (success : Nsm.exec namespaceId s.kv r = some kv')
    (schedules : ∀ d key, Scheduled kv' d key → Scheduled s.kv d key ∨
      ∃ p : Placed, p.osdId = d ∧ p.HasKey namespaceId key ∧ (Live s.kv p ∨ Live kv' p))
    (keeps : ∀ p, .fragment p ∈ s.osds → Scheduled s.kv p.osdId (p.fragmentKey namespaceId) →
      Scheduled kv' p.osdId (p.fragmentKey namespaceId))
    {attempts' : List Attempt}
    (committed : ∀ a' ∈ attempts', ∀ m, a'.committed = some m → ∀ p ∈ m.placed,
      p ∈ s.located ∨ Live kv' p) :
    Owned namespaceId { s.withStore kv' with attempts := attempts' } := by
  have grows : ∀ p ∈ s.located, p ∈ (s.withStore kv').located := fun p hp =>
    mem_withStore_located.mpr (Or.inr hp)
  constructor
  case indexed => exact exec_indexed hs.indexed success
  case encoded => exact fun key hkey => (exec_other success hkey).trans (hs.encoded key hkey)
  case live => exact fun p hp => mem_withStore_located.mpr (Or.inl hp)
  case counted =>
    intro p hp
    rcases mem_withStore_located.mp hp with hlive | hp
    · exact hlive.counted
    · exact hs.counted p hp
  case stored => exact hs.stored
  case committed =>
    intro a' ha' m hm p hp
    exact mem_withStore_located.mpr (committed a' ha' m hm p hp).symm
  case decided => exact fun e p hmem => grows p (hs.decided e p hmem)
  case scheduled =>
    intro d key hkey
    rcases schedules d key hkey with hkey | ⟨p, hd, hpkey, hlive⟩
    · exact (hs.scheduled d key hkey).mono grows
    · refine ⟨p, mem_withStore_located.mpr ?_, hd, hpkey⟩
      exact hlive.symm.imp id (hs.live p)
  case obsolete =>
    intro d keys hmem key hkey
    exact (hs.obsolete d keys hmem key hkey).mono grows
  case cleaned =>
    intro d keys hmem
    obtain ⟨hlocated, habsent⟩ := hs.cleaned d keys hmem
    exact ⟨fun key hkey => (hlocated key hkey).mono grows, habsent⟩
  case owned =>
    intro p hp hloc
    rcases mem_withStore_located.mp hloc with hlive | hloc
    · exact Or.inl hlive
    · rcases hs.owned p hp hloc with hlive | hsched
      · exact (exec_live_or_scheduled success hs.indexed hlive).imp id And.left
      · exact Or.inr (keeps p hp hsched)
  case tagged =>
    intro p hp hloc
    exact hs.tagged p hp fun h => hloc (grows p h)

theorem Owned.untag {gcEpoch : Int64} {p : Placed} (hp : p ∈ s.located) :
    Owned namespaceId { s with osds := s.osds.erase (.gcEpochTag gcEpoch p) } := by
  refine { hs with stored := ?_, cleaned := ?_, owned := ?_, tagged := ?_ }
  · exact fun q hq => hs.stored q (Finset.mem_of_mem_erase hq)
  · intro d keys hmem
    exact (hs.cleaned d keys hmem).imp id fun h q hq => h q (Finset.mem_of_mem_erase hq)
  · exact fun q hq => hs.owned q (Finset.mem_of_mem_erase hq)
  · intro q hq hloc
    obtain ⟨e, he⟩ := hs.tagged q (Finset.mem_of_mem_erase hq) hloc
    have hne : q ≠ p := fun h => hloc (h ▸ hp)
    exact ⟨e, Finset.mem_erase.mpr ⟨by simp [hne], he⟩⟩

theorem Owned.upload {gcEpoch : Int64} {p : Placed} (h : p.Counted)
    (hnew : p ∉ s.located) {attempts' : List Attempt}
    (committed : ∀ b ∈ attempts', ∃ a ∈ s.attempts, b.committed = a.committed) :
    Owned namespaceId { s with
      osds := insert (.fragment p) (insert (.fragmentRecoveryInfo p)
        (insert (.gcEpochTag gcEpoch p) s.osds))
      attempts := attempts' } := by
  have old : ∀ q, OsdKey.fragment q ∈ insert (.fragment p) (insert (.fragmentRecoveryInfo p)
      (insert (.gcEpochTag gcEpoch p) s.osds)) → q = p ∨ .fragment q ∈ s.osds := by
    intro q hq
    simpa using hq
  refine { hs with stored := ?_, committed := ?_, cleaned := ?_, owned := ?_, tagged := ?_ }
  · intro q hq
    rcases old q hq with rfl | hq
    · exact h
    · exact hs.stored q hq
  · intro b hb m hm
    obtain ⟨a, ha, heq⟩ := committed b hb
    exact hs.committed a ha m (heq ▸ hm)
  · intro d' keys hmem
    obtain ⟨hlocated, habsent⟩ := hs.cleaned d' keys hmem
    refine ⟨hlocated, fun q hq hd hkey => ?_⟩
    rcases old q hq with rfl | hq
    · -- the cleaner deletes only keys of places that a manifest has had
      subst hd
      exact hnew ((hlocated _ hkey).mem hs.counted h)
    · exact habsent q hq hd hkey
  · intro q hq hloc
    rcases old q hq with rfl | hq
    · exact absurd hloc hnew
    · exact hs.owned q hq hloc
  · intro q hq hloc
    rcases old q hq with rfl | hq
    · exact ⟨gcEpoch, by simp⟩
    · obtain ⟨e, he⟩ := hs.tagged q hq hloc
      exact ⟨e, by simp [he]⟩

theorem Owned.collect (gcEpoch : Int64) (p : Placed) :
    Owned namespaceId { s with
      osds := ((s.osds.erase (.fragment p)).erase (.fragmentRecoveryInfo p)).erase
        (.gcEpochTag gcEpoch p) } := by
  have old : ∀ q, OsdKey.fragment q ∈ ((s.osds.erase (.fragment p)).erase
      (.fragmentRecoveryInfo p)).erase (.gcEpochTag gcEpoch p) → q ≠ p ∧ .fragment q ∈ s.osds := by
    intro q hq
    simpa using hq
  refine { hs with stored := ?_, cleaned := ?_, owned := ?_, tagged := ?_ }
  · exact fun q hq => hs.stored q (old q hq).2
  · intro d keys hmem
    exact (hs.cleaned d keys hmem).imp id fun h q hq => h q (old q hq).2
  · exact fun q hq => hs.owned q (old q hq).2
  · intro q hq hloc
    obtain ⟨hne, hq⟩ := old q hq
    obtain ⟨e, he⟩ := hs.tagged q hq hloc
    exact ⟨e, by simp [hne, he]⟩

theorem Owned.clean {osdId : OsdId} {keys : List Bytes} (hmem : (osdId, keys) ∈ s.obsolete) :
    Owned namespaceId { s with
      osds := s.osds.filter fun k => ¬(k.osdId = osdId ∧ k.bytes namespaceId ∈ keys)
      cleaned := (osdId, keys) :: s.cleaned } := by
  have hlocated := hs.obsolete osdId keys hmem
  have old : ∀ k, k ∈ s.osds.filter (fun k => ¬(k.osdId = osdId ∧ k.bytes namespaceId ∈ keys)) →
      k ∈ s.osds := fun k hk => (Finset.mem_filter.mp hk).1
  refine { hs with stored := ?_, cleaned := ?_, owned := ?_, tagged := ?_ }
  · exact fun q hq => hs.stored q (old _ hq)
  · intro d keys' hcleaned
    rcases List.mem_cons.mp hcleaned with heq | hcleaned
    · cases heq
      refine ⟨hlocated, fun q hq hd hkey => ?_⟩
      exact (Finset.mem_filter.mp hq).2 ⟨hd, hkey⟩
    · exact (hs.cleaned d keys' hcleaned).imp id fun h q hq => h q (old _ hq)
  · exact fun q hq => hs.owned q (old _ hq)
  · intro q hq hloc
    obtain ⟨e, he⟩ := hs.tagged q (old _ hq) hloc
    refine ⟨e, Finset.mem_filter.mpr ⟨he, ?_⟩⟩
    rintro ⟨_, hkey⟩
    obtain ⟨_, _, _, hhas⟩ := hlocated _ hkey
    exact tagKey_not_hasKey hhas

theorem exec_owned {action : Action} (hnew : NotLocated s action)
    (h : exec namespaceId s action = some s') : Owned namespaceId s' := by
  cases exec_step hs.indexed h with
  | started a _ open_ =>
    refine { hs with committed := fun b hb m hm => ?_ }
    rcases List.mem_append.mp hb with hb | hb
    · exact hs.committed b hb m hm
    · cases List.mem_singleton.mp hb
      simp [open_] at hm
  | uploaded a mem counted =>
    refine hs.upload counted (hnew a mem) fun b hb => ?_
    rcases List.mem_or_eq_of_mem_set hb with hb | rfl
    · exact ⟨b, hb, rfl⟩
    · exact ⟨a, List.mem_of_getElem? mem, rfl⟩
  | asked r kv' attempts' success answer same _ =>
    refine hs.withStore success answer.schedules (fun p _ => answer.keeps _ _) fun a' ha' m hm p hp => ?_
    obtain ⟨a, ha, _, _, hsame | ⟨m', hm', hlive⟩⟩ := same a' ha'
    · exact Or.inl (hs.committed a ha m (hsame ▸ hm) p hp)
    · cases hm'.symm.trans hm
      exact Or.inr (hlive p hp)
  | untagged a mem m committed p placed => exact hs.untag (hs.committed a mem m committed p placed)
  | listed gcEpoch p _ _ => exact { hs with }
  | read gcEpoch p decision _ decided =>
    refine { hs with decided := fun e q hmem => ?_ }
    rcases List.mem_cons.mp hmem with heq | hmem
    · cases heq
      exact hs.live _ (live_of_decide? hs.indexed decided)
    · exact hs.decided e q hmem
  | collectedTag gcEpoch p mem => exact hs.untag (hs.decided gcEpoch p mem)
  | collected gcEpoch p mem => exact hs.collect gcEpoch p
  | found osdId =>
    refine { hs with obsolete := fun d keys hmem key hkey => ?_ }
    rcases List.mem_cons.mp hmem with heq | hmem
    · cases heq
      exact hs.scheduled _ _ (scheduled_of_listed hs.encoded hkey)
    · exact hs.obsolete d keys hmem key hkey
  | deleted osdId keys mem => exact hs.clean mem
  | marked osdId keys mem kv' success =>
    refine hs.withStore success (fun d key hkey => ?_) (fun p hp hsched => ?_)
      fun a ha m hm p hp => Or.inl (hs.committed a ha m hm p hp)
    · refine (exec_scheduled_from success hs.indexed hkey).imp id ?_
      rintro ⟨p, hd, hpkey, hlive | ⟨m, e, hm, _⟩⟩
      · exact ⟨p, hd, hpkey, Or.inl hlive⟩
      · cases hm
    · -- a key that is reported has been deleted, and nothing has stored it since
      refine (exec_mark_scheduled success hsched).resolve_right fun hmarked => ?_
      exact (hs.cleaned osdId keys mem).2 p hp hmarked.1 hmarked.2

end

end Steps

/-- In every run in which no upload stores a fragment where a stored manifest has already had it,
every fragment on an osd is located there, or tagged, or scheduled for deletion. -/
theorem fragment_hasOwner (namespaceId : NamespaceId) (actions : List Action)
    (h : AllSteps (exec namespaceId) NotLocated .initial actions) :
    ∀ p, .fragment p ∈ (run (exec namespaceId) .initial actions).osds →
      HasOwner namespaceId (run (exec namespaceId) .initial actions) p := by
  intro p hp
  have owned : Owned namespaceId (run (exec namespaceId) .initial actions) :=
    run_invariant_of (fun _ _ _ hs hG h => exec_owned hs hG h) .initial h
  exact owned.hasOwner hp

/-- The fragment of `sampleManifest` after a repair has moved it to the osd 2. -/
def repairedPlace : Placed := { samplePlaced 1 with osdId := 2 }

def repairedKeys : List Bytes := [repairedPlace.fragmentKey 0, repairedPlace.recoveryKey 0]

/-- A repair moves the fragment to the osd 2, the object is deleted, and the cleaner removes it. -/
def repairAndDelete : List Action :=
  [.request { op := .linkOsd 2 { nodeId := ascii ['n'] } }] ++ uploadOnce ++
    [.startRepair (ascii ['x']) 0, .startRepair (ascii ['x']) 0, .uploadPackedFragmentData 1 2 0 0,
      .updateManifest 1 [⟨0, 0, some 2, none, none, none⟩] none,
      .request { op := .enableNewGcEpoch 1 }, .request { op := .disableGcEpoch 0 },
      .gcList 0 repairedPlace, .gcRead 0 repairedPlace,
      .request { op := .deleteObject (ascii ['a']) .unconditionally }]

theorem fragment_hasOwner_deleted :
    .fragment repairedPlace ∈ (run (exec 0) .initial repairAndDelete).osds ∧
      HasOwner 0 (run (exec 0) .initial repairAndDelete) repairedPlace := by
  have hstored : .fragment repairedPlace ∈ (run (exec 0) .initial repairAndDelete).osds := by
    decide +kernel
  exact ⟨hstored, fragment_hasOwner 0 repairAndDelete (by decide +kernel) _ hstored⟩

/-- The second repair stores the fragment again after the cleaner has removed it, and the collector
removes the tag because it has read the manifest of the first repair. -/
def lateRepair : List Action :=
  repairAndDelete ++
    [.cleanList 2, .cleanDelete 2 repairedKeys, .cleanMark 2 repairedKeys,
      .uploadPackedFragmentData 2 2 0 0, .gcApply .cleanupGcEpochTag 0 repairedPlace]

theorem fragment_orphaned_lateRepair :
    ¬∀ namespaceId actions p, .fragment p ∈ (run (exec namespaceId) .initial actions).osds →
      HasOwner namespaceId (run (exec namespaceId) .initial actions) p := by
  intro h
  have hstored : .fragment repairedPlace ∈ (run (exec 0) .initial lateRepair).osds := by
    decide +kernel
  have hlive : ¬Live (run (exec 0) .initial lateRepair).kv repairedPlace := by decide +kernel
  have hscheduled : ¬Scheduled (run (exec 0) .initial lateRepair).kv 2
      (repairedPlace.fragmentKey 0) := by
    decide +kernel
  have htag : ∀ k ∈ (run (exec 0) .initial lateRepair).osds, ¬k.isTagOf repairedPlace := by
    decide +kernel
  have howner : HasOwner 0 (run (exec 0) .initial lateRepair) repairedPlace := h 0 lateRepair _ hstored
  refine howner.elim hlive fun hrest => hrest.elim (fun htagged => ?_) hscheduled
  obtain ⟨e, he⟩ := htagged
  exact htag _ he (by simp [OsdKey.isTagOf])

end Alba.Gc
