import Alba.Nsm.Live

/-! Uploads, repairs, the garbage collector and the cleaner of obsolete keys, working at the same
time on one namespace and its osds. Every step is one request to the namespace manager or one
sequence applied on one osd; a process may stop after any of them. -/

namespace Alba.Gc

open Nsm ProofKit Std List

/-- A key of the namespace on an osd, the one of the place. -/
inductive OsdKey
  | fragment (p : Placed)
  | fragmentRecoveryInfo (p : Placed)
  | gcEpochTag (gcEpoch : Int64) (p : Placed)
  deriving DecidableEq

def tagKey (namespaceId : NamespaceId) (gcEpoch : Int64) (p : Placed) : Bytes :=
  toGlobalKey namespaceId
    (gcEpochTag gcEpoch p.objectId p.versionId.toInt p.chunkId p.fragmentId)

namespace OsdKey

def osdId : OsdKey → OsdId
  | fragment p | fragmentRecoveryInfo p | gcEpochTag _ p => p.osdId

def bytes (namespaceId : NamespaceId) : OsdKey → Bytes
  | fragment p => p.fragmentKey namespaceId
  | fragmentRecoveryInfo p => p.recoveryKey namespaceId
  | gcEpochTag gcEpoch p => tagKey namespaceId gcEpoch p

end OsdKey

/-- The version under which an upload or a repair of a manifest stores fragments. -/
def versionOf (base : Option Manifest) : Int32 := base.elim 0 fun t => t.versionId + 1

/-- An upload of an object, or a repair when there is a manifest that it starts from: what it has
stored so far, and the manifest it has put. -/
structure Attempt where
  objectId : Bytes
  gcEpoch : Int64
  base : Option Manifest
  committed : Option Manifest
  stored : List Placed
  shape : ∀ p ∈ stored, p.objectId = objectId ∧ p.versionId = versionOf base ∧ p.Counted

namespace Attempt

def start (objectId : Bytes) (gcEpoch : Int64) (base : Option Manifest) : Attempt where
  objectId
  gcEpoch
  base
  committed := none
  stored := []
  shape := by simp

def place (a : Attempt) (osdId : OsdId) (chunkId fragmentId : Nat) : Placed :=
  { osdId, objectId := a.objectId, versionId := versionOf a.base, chunkId, fragmentId }

def store (a : Attempt) (osdId : OsdId) (chunkId fragmentId : Nat)
    (h : (a.place osdId chunkId fragmentId).Counted) : Attempt :=
  { a with
    stored := a.place osdId chunkId fragmentId :: a.stored
    shape := forall_mem_cons.mpr ⟨⟨rfl, rfl, h⟩, a.shape⟩ }

/-- Every update moves its fragment to a place where the attempt has stored it. -/
def Updates (a : Attempt) (updates : List FragmentUpdate) : Prop :=
  ∀ fu ∈ updates, ∃ p ∈ a.stored,
    fu.index = ((p.chunkId : Int), (p.fragmentId : Int)) ∧ fu.osdIdO = some p.osdId

instance (a : Attempt) (updates : List FragmentUpdate) : Decidable (a.Updates updates) :=
  inferInstanceAs (Decidable (∀ fu ∈ updates, ∃ p ∈ a.stored, _ ∧ _))

end Attempt

/-- What the collector decides about a tag after reading the manifest. -/
inductive Decision
  | cleanupGcEpochTag
  | cleanupFragment
  deriving DecidableEq

structure State where
  kv : Store
  osds : Finset OsdKey
  attempts : List Attempt
  /-- The tags that collectors have listed, and what they have decided about them. -/
  listed : List (Int64 × Placed)
  decided : List (Decision × Int64 × Placed)
  /-- The keys that cleaners have listed, and those that they have deleted on the osd. -/
  obsolete : List (OsdId × List Bytes)
  cleaned : List (OsdId × List Bytes)
  /-- Every place that a stored manifest has had so far. -/
  located : List Placed

def State.initial : State where
  kv := ∅
  osds := ∅
  attempts := []
  listed := []
  decided := []
  obsolete := []
  cleaned := []
  located := []

inductive Action
  | startUpload (objectId : Bytes) (gcEpoch : Int64)
  | startRepair (objectId : Bytes) (gcEpoch : Int64)
  | uploadPackedFragmentData (i : Nat) (osdId : OsdId) (chunkId fragmentId : Nat)
  | putObject (i : Nat) (overwrite : Overwrite) (manifest : Manifest)
      (cache : Option (BitVec 64 × Preset))
  | uploadEpilogue (i : Nat) (updates : List FragmentUpdate) (cache : Option (BitVec 64 × Preset))
  | updateManifest (i : Nat) (updates : List FragmentUpdate) (cache : Option (BitVec 64 × Preset))
  | cleanupGcTag (i : Nat) (p : Placed)
  | request (r : Request)
  | gcList (gcEpoch : Int64) (p : Placed)
  | gcRead (gcEpoch : Int64) (p : Placed)
  | gcApply (decision : Decision) (gcEpoch : Int64) (p : Placed)
  | cleanList (osdId : OsdId)
  | cleanDelete (osdId : OsdId) (keys : List Bytes)
  | cleanMark (osdId : OsdId) (keys : List Bytes)

namespace State

variable (namespaceId : NamespaceId) (s : State)

def withStore (kv : Store) : State :=
  { s with kv, located := (storedManifests kv).flatMap Manifest.placed ++ s.located }

def ask (r : Request) : Option State := (Nsm.exec namespaceId s.kv r).map s.withStore

/-- An epoch that a client may have read from the namespace manager, now or earlier. -/
def enabled (gcEpoch : Int64) : Bool :=
  match getGcEpochs s.kv with
  | .ok (_, epochs) => decide (0 ≤ gcEpoch) && decide (gcEpoch < epochs.nextEpoch)
  | .error _ => false

/-- `garbage_collect_device`, after `get_object_manifest_by_id`: the object is not known, or its
fragment is here, or it is not. -/
def decide? (p : Placed) : Option Decision :=
  match manifestAt s.kv p.objectId with
  | none => some .cleanupFragment
  | some t =>
    match t.getLocation p.chunkId p.fragmentId with
    | .ok loc =>
      if loc = (some p.osdId, p.versionId) then some .cleanupGcEpochTag else some .cleanupFragment
    | .error _ => none

/-- The requests that no process of this module makes. -/
def others : Op → Bool
  | .linkOsd _ _ | .deleteObject _ _ | .enableNewGcEpoch _ | .disableGcEpoch _
  | .updatePreset _ _ => true
  | _ => false

end State

/-- One step; `none` when the process is not at that point or the request fails. -/
def exec (namespaceId : NamespaceId) (s : State) : Action → Option State
  | .startUpload objectId gcEpoch =>
    if s.enabled gcEpoch then
      some { s with attempts := s.attempts ++ [.start objectId gcEpoch none] }
    else none
  | .startRepair objectId gcEpoch =>
    (manifestAt s.kv objectId).bind fun t =>
      if s.enabled gcEpoch then
        some { s with attempts := s.attempts ++ [.start objectId gcEpoch (some t)] }
      else none
  | .uploadPackedFragmentData i osdId chunkId fragmentId =>
    s.attempts[i]?.bind fun a =>
      if h : (a.place osdId chunkId fragmentId).Counted then
        let p := a.place osdId chunkId fragmentId
        some { s with
          osds := insert (.fragment p) (insert (.fragmentRecoveryInfo p)
            (insert (.gcEpochTag a.gcEpoch p) s.osds))
          attempts := s.attempts.set i (a.store osdId chunkId fragmentId h) }
      else none
  | .putObject i overwrite manifest cache =>
    s.attempts[i]?.bind fun a =>
      if a.base = none ∧ a.committed = none ∧ manifest.objectId = a.objectId ∧
          manifest.versionId = 0 ∧ ∀ p ∈ manifest.placed, p ∈ a.stored then
        (s.ask namespaceId { op := .putObject overwrite manifest a.gcEpoch, cache }).map fun s' =>
          { s' with attempts := s.attempts.set i { a with committed := some manifest } }
      else none
  | .uploadEpilogue i updates cache =>
    s.attempts[i]?.bind fun a => a.committed.bind fun manifest =>
      if a.base = none ∧ a.Updates updates ∧ ∀ fu ∈ updates, ∀ p ∈ manifest.placed,
          fu.index ≠ ((p.chunkId : Int), (p.fragmentId : Int)) then
        s.ask namespaceId
          { op := .updateManifest2 manifest.name a.objectId updates a.gcEpoch 0, cache }
      else none
  | .updateManifest i updates cache =>
    s.attempts[i]?.bind fun a => a.base.bind fun t =>
      if a.Updates updates then
        s.ask namespaceId
          { op := .updateManifest2 t.name a.objectId updates a.gcEpoch (t.versionId + 1), cache }
      else none
  | .cleanupGcTag i p =>
    s.attempts[i]?.bind fun a => a.committed.bind fun manifest =>
      if p ∈ manifest.placed then some { s with osds := s.osds.erase (.gcEpochTag a.gcEpoch p) }
      else none
  | .request r => if State.others r.op then s.ask namespaceId r else none
  | .gcList gcEpoch p =>
    if .gcEpochTag gcEpoch p ∈ s.osds ∧ 0 ≤ gcEpoch ∧ gcEpoch.toInt < minimumEpoch s.kv then
      some { s with listed := (gcEpoch, p) :: s.listed }
    else none
  | .gcRead gcEpoch p =>
    if (gcEpoch, p) ∈ s.listed then
      (s.decide? p).map fun decision => { s with decided := (decision, gcEpoch, p) :: s.decided }
    else none
  | .gcApply decision gcEpoch p =>
    if (decision, gcEpoch, p) ∈ s.decided then
      match decision with
      | .cleanupGcEpochTag => some { s with osds := s.osds.erase (.gcEpochTag gcEpoch p) }
      | .cleanupFragment =>
        -- the assertion on the tag protects the whole sequence
        if .gcEpochTag gcEpoch p ∈ s.osds then
          some { s with
            osds := ((s.osds.erase (.fragment p)).erase (.fragmentRecoveryInfo p)).erase
              (.gcEpochTag gcEpoch p) }
        else none
    else none
  | .cleanList osdId =>
    let keys := (listDeviceKeysToBeDeleted s.kv osdId [] true none 100 false).1
    if keys = [] then none else some { s with obsolete := (osdId, keys) :: s.obsolete }
  | .cleanDelete osdId keys =>
    if (osdId, keys) ∈ s.obsolete then
      some { s with
        osds := s.osds.filter fun k => ¬(k.osdId = osdId ∧ k.bytes namespaceId ∈ keys)
        cleaned := (osdId, keys) :: s.cleaned }
    else none
  | .cleanMark osdId keys =>
    if (osdId, keys) ∈ s.cleaned then
      s.ask namespaceId { op := .markKeysDeleted [(osdId, keys)] }
    else none

/-- What a request of a process does to the store: every key stays scheduled, what it locates has
been stored under an epoch that is not disabled, and what it schedules is or was located. -/
structure Answer (namespaceId : NamespaceId) (s : State) (kv' : Store) : Prop where
  keeps : ∀ d key, Scheduled s.kv d key → Scheduled kv' d key
  origin : ∀ p, Live kv' p → Live s.kv p ∨
    ∃ a ∈ s.attempts, p ∈ a.stored ∧ minimumEpoch s.kv ≤ a.gcEpoch.toInt
  schedules : ∀ d key, Scheduled kv' d key → Scheduled s.kv d key ∨
    ∃ p : Placed, p.osdId = d ∧ p.HasKey namespaceId key ∧ (Live s.kv p ∨ Live kv' p)

inductive Step (namespaceId : NamespaceId) (s : State) : Action → State → Prop
  | started {action : Action} (a : Attempt) (unstored : a.stored = []) (open_ : a.committed = none) :
      Step namespaceId s action { s with attempts := s.attempts ++ [a] }
  | uploaded {i : Nat} {osdId : OsdId} {chunkId fragmentId : Nat} (a : Attempt)
      (mem : s.attempts[i]? = some a) (counted : (a.place osdId chunkId fragmentId).Counted) :
      Step namespaceId s (.uploadPackedFragmentData i osdId chunkId fragmentId)
        { s with
          osds := insert (.fragment (a.place osdId chunkId fragmentId))
            (insert (.fragmentRecoveryInfo (a.place osdId chunkId fragmentId))
              (insert (.gcEpochTag a.gcEpoch (a.place osdId chunkId fragmentId)) s.osds))
          attempts := s.attempts.set i (a.store osdId chunkId fragmentId counted) }
  | asked {action : Action} (r : Request) (kv' : Store) (attempts' : List Attempt)
      (success : Nsm.exec namespaceId s.kv r = some kv')
      (answer : Answer namespaceId s kv')
      (same : ∀ a' ∈ attempts', ∃ a ∈ s.attempts, a'.gcEpoch = a.gcEpoch ∧ a'.stored = a.stored ∧
        (a'.committed = a.committed ∨ ∃ m, a'.committed = some m ∧ ∀ p ∈ m.placed, Live kv' p))
      (kept : ∀ a ∈ s.attempts, ∃ a' ∈ attempts', a'.gcEpoch = a.gcEpoch ∧ a'.stored = a.stored) :
      Step namespaceId s action { s.withStore kv' with attempts := attempts' }
  | untagged {action : Action} (a : Attempt) (mem : a ∈ s.attempts) (m : Manifest)
      (committed : a.committed = some m) (p : Placed) (placed : p ∈ m.placed) :
      Step namespaceId s action { s with osds := s.osds.erase (.gcEpochTag a.gcEpoch p) }
  | listed (gcEpoch : Int64) (p : Placed) (tag : .gcEpochTag gcEpoch p ∈ s.osds)
      (disabled : gcEpoch.toInt < minimumEpoch s.kv) :
      Step namespaceId s (.gcList gcEpoch p) { s with listed := (gcEpoch, p) :: s.listed }
  | read (gcEpoch : Int64) (p : Placed) (decision : Decision) (mem : (gcEpoch, p) ∈ s.listed)
      (decided : s.decide? p = some decision) :
      Step namespaceId s (.gcRead gcEpoch p)
        { s with decided := (decision, gcEpoch, p) :: s.decided }
  | collectedTag (gcEpoch : Int64) (p : Placed)
      (mem : (.cleanupGcEpochTag, gcEpoch, p) ∈ s.decided) :
      Step namespaceId s (.gcApply .cleanupGcEpochTag gcEpoch p)
        { s with osds := s.osds.erase (.gcEpochTag gcEpoch p) }
  | collected (gcEpoch : Int64) (p : Placed) (mem : (.cleanupFragment, gcEpoch, p) ∈ s.decided) :
      Step namespaceId s (.gcApply .cleanupFragment gcEpoch p)
        { s with osds := ((s.osds.erase (.fragment p)).erase (.fragmentRecoveryInfo p)).erase
                  (.gcEpochTag gcEpoch p) }
  | found (osdId : OsdId) :
      Step namespaceId s (.cleanList osdId)
        { s with obsolete :=
            (osdId, (listDeviceKeysToBeDeleted s.kv osdId [] true none 100 false).1) :: s.obsolete }
  | deleted (osdId : OsdId) (keys : List Bytes) (mem : (osdId, keys) ∈ s.obsolete) :
      Step namespaceId s (.cleanDelete osdId keys)
        { s with
          osds := s.osds.filter fun k => ¬(k.osdId = osdId ∧ k.bytes namespaceId ∈ keys)
          cleaned := (osdId, keys) :: s.cleaned }
  | marked (osdId : OsdId) (keys : List Bytes) (mem : (osdId, keys) ∈ s.cleaned) (kv' : Store)
      (success : Nsm.exec namespaceId s.kv { op := .markKeysDeleted [(osdId, keys)] } = some kv') :
      Step namespaceId s (.cleanMark osdId keys) (s.withStore kv')

section Inversion

variable {namespaceId : NamespaceId} {s s' : State}

theorem State.ask_eq_some {r : Request} : s.ask namespaceId r = some s' ↔
    ∃ kv', Nsm.exec namespaceId s.kv r = some kv' ∧ s' = s.withStore kv' := by
  simp [State.ask, eq_comm]

theorem Attempt.Updates.origin {a : Attempt} {updates : List FragmentUpdate} (h : a.Updates updates)
    {p : Placed} (hid : p.objectId = a.objectId) (hver : p.versionId = versionOf a.base)
    {fu : FragmentUpdate} (hfu : fu ∈ updates)
    (hindex : fu.index = ((p.chunkId : Int), (p.fragmentId : Int)))
    (hosd : fu.osdIdO = some p.osdId) : p ∈ a.stored := by
  obtain ⟨q, hq, hqindex, hqosd⟩ := h fu hfu
  obtain ⟨hqid, hqver, _⟩ := a.shape q hq
  rw [hindex, Prod.mk.injEq, Int.natCast_inj, Int.natCast_inj] at hqindex
  rw [hosd, Option.some.injEq] at hqosd
  have heq : p = q := by
    cases p
    cases q
    simp_all
  rwa [heq]

theorem answer_of_ask (hi : Indexed s.kv) {r : Request} {kv' : Store}
    (h : Nsm.exec namespaceId s.kv r = some kv')
    (hop : ¬((∃ keys, r.op = .markKeysDeleted keys) ∨
      ∃ osdId, r.op = .cleanupOsdKeysToBeDeleted osdId))
    (hputs : ∀ m gcEpoch, (m, gcEpoch) ∈ r.op.puts → (∀ p ∈ m.placed, Live kv' p) ∧
      ∃ a ∈ s.attempts, gcEpoch = a.gcEpoch ∧ ∀ p ∈ m.placed, p ∈ a.stored)
    (hupdates : ∀ objectId fus gcEpoch versionId,
      (objectId, fus, gcEpoch, versionId) ∈ r.op.manifestUpdates → ∃ a ∈ s.attempts,
        gcEpoch = a.gcEpoch ∧ objectId = a.objectId ∧ versionId = versionOf a.base ∧ a.Updates fus) :
    Answer namespaceId s kv' := by
  constructor
  case keeps => exact fun d key hs => (exec_scheduled h hs).resolve_right hop
  case origin =>
    intro p hp
    rcases exec_live_from h hi hp with hlive | ⟨m, gcEpoch, hm, hpm, hmin⟩ |
      ⟨fus, gcEpoch, hmem, hmin, fu, hfu, hindex, hosd⟩
    · exact Or.inl hlive
    · obtain ⟨_, a, ha, rfl, hstored⟩ := hputs m gcEpoch hm
      exact Or.inr ⟨a, ha, hstored p hpm, hmin⟩
    · obtain ⟨a, ha, rfl, hid, hver, hup⟩ := hupdates _ _ _ _ hmem
      exact Or.inr ⟨a, ha, hup.origin hid hver hfu hindex hosd, hmin⟩
  case schedules =>
    intro d key hs
    rcases exec_scheduled_from h hi hs with hs | ⟨p, hd, hkey, hlive | ⟨m, gcEpoch, hm, hp⟩⟩
    · exact Or.inl hs
    · exact Or.inr ⟨p, hd, hkey, Or.inl hlive⟩
    · exact Or.inr ⟨p, hd, hkey, Or.inr ((hputs m gcEpoch hm).1 p hp)⟩

theorem step_of_ask {action : Action} {r : Request} (h : s.ask namespaceId r = some s')
    (answer : ∀ kv', Nsm.exec namespaceId s.kv r = some kv' → Answer namespaceId s kv') :
    Step namespaceId s action s' := by
  obtain ⟨kv', hexec, rfl⟩ := State.ask_eq_some.mp h
  exact .asked r kv' s.attempts hexec (answer kv' hexec)
    (fun a ha => ⟨a, ha, rfl, rfl, Or.inl rfl⟩) fun a ha => ⟨a, ha, rfl, rfl⟩

theorem exec_put_step (hi : Indexed s.kv) {i : Nat} {overwrite : Overwrite} {m : Manifest}
    {cache : Option (BitVec 64 × Preset)}
    (h : exec namespaceId s (.putObject i overwrite m cache) = some s') :
    Step namespaceId s (.putObject i overwrite m cache) s' := by
  simp only [exec, Option.bind_eq_some_iff, Option.ite_none_right_eq_some,
    Option.map_eq_some_iff] at h
  obtain ⟨a, ha, ⟨_, _, _, _, hstored⟩, s₁, hask, rfl⟩ := h
  obtain ⟨kv', hexec, rfl⟩ := State.ask_eq_some.mp hask
  have hmem : a ∈ s.attempts := mem_of_getElem? ha
  have hlive : ∀ p ∈ m.placed, Live kv' p := fun p hp => exec_put_live hexec hp
  have answer := answer_of_ask hi hexec (by simp) (by simpa [Op.puts] using
    ⟨hlive, a, hmem, rfl, hstored⟩) (by simp [Op.manifestUpdates])
  have hlt : i < s.attempts.length := (List.getElem?_eq_some_iff.mp ha).1
  refine .asked _ kv' _ hexec answer (fun a' ha' => ?_) fun b hb => ?_
  · rcases mem_or_eq_of_mem_set ha' with ha' | rfl
    · exact ⟨a', ha', rfl, rfl, Or.inl rfl⟩
    · exact ⟨a, hmem, rfl, rfl, Or.inr ⟨m, rfl, hlive⟩⟩
  · obtain ⟨j, hj⟩ := getElem?_of_mem hb
    by_cases hij : i = j
    · subst hij
      cases ha.symm.trans hj
      exact ⟨_, mem_of_getElem? (getElem?_set_self hlt), rfl, rfl⟩
    · exact ⟨b, mem_of_getElem? (by rwa [getElem?_set_ne hij]), rfl, rfl⟩

theorem exec_step (hi : Indexed s.kv) {action : Action}
    (h : exec namespaceId s action = some s') : Step namespaceId s action s' := by
  cases action with
  | startUpload objectId gcEpoch =>
    obtain ⟨_, h⟩ := Option.ite_none_right_eq_some.mp h
    cases h
    exact .started _ rfl rfl
  | startRepair objectId gcEpoch =>
    obtain ⟨t, _, h⟩ := Option.bind_eq_some_iff.mp h
    obtain ⟨_, h⟩ := Option.ite_none_right_eq_some.mp h
    cases h
    exact .started _ rfl rfl
  | uploadPackedFragmentData i osdId chunkId fragmentId =>
    obtain ⟨a, ha, h⟩ := Option.bind_eq_some_iff.mp h
    split at h
    · cases h
      exact .uploaded a ha _
    · cases h
  | putObject i overwrite m cache => exact exec_put_step hi h
  | uploadEpilogue i updates cache =>
    simp only [exec, Option.bind_eq_some_iff, Option.ite_none_right_eq_some] at h
    obtain ⟨a, ha, m, _, ⟨hbase, hup, _⟩, hask⟩ := h
    refine step_of_ask hask fun kv' hexec => answer_of_ask hi hexec (by simp) (by simp [Op.puts]) ?_
    intro objectId fus gcEpoch versionId hmem
    cases mem_singleton.mp hmem
    exact ⟨a, mem_of_getElem? ha, rfl, rfl, by simp [versionOf, hbase], hup⟩
  | updateManifest i updates cache =>
    simp only [exec, Option.bind_eq_some_iff, Option.ite_none_right_eq_some] at h
    obtain ⟨a, ha, t, hbase, hup, hask⟩ := h
    refine step_of_ask hask fun kv' hexec => answer_of_ask hi hexec (by simp) (by simp [Op.puts]) ?_
    intro objectId fus gcEpoch versionId hmem
    cases mem_singleton.mp hmem
    exact ⟨a, mem_of_getElem? ha, rfl, rfl, by simp [versionOf, hbase], hup⟩
  | cleanupGcTag i p =>
    simp only [exec, Option.bind_eq_some_iff, Option.ite_none_right_eq_some] at h
    obtain ⟨a, ha, m, hm, hp, h⟩ := h
    cases h
    exact .untagged a (mem_of_getElem? ha) m hm p hp
  | request r =>
    obtain ⟨hr, hask⟩ := Option.ite_none_right_eq_some.mp h
    refine step_of_ask hask fun kv' hexec => answer_of_ask hi hexec ?_ ?_ ?_ <;>
      cases hop : r.op <;> simp_all [State.others, Op.puts, Op.manifestUpdates]
  | gcList gcEpoch p =>
    obtain ⟨⟨htag, _, hdisabled⟩, h⟩ := Option.ite_none_right_eq_some.mp h
    cases h
    exact .listed gcEpoch p htag hdisabled
  | gcRead gcEpoch p =>
    obtain ⟨hmem, h⟩ := Option.ite_none_right_eq_some.mp h
    obtain ⟨decision, hdecision, rfl⟩ := Option.map_eq_some_iff.mp h
    exact .read gcEpoch p decision hmem hdecision
  | gcApply decision gcEpoch p =>
    obtain ⟨hmem, h⟩ := Option.ite_none_right_eq_some.mp h
    cases decision with
    | cleanupGcEpochTag =>
      cases h
      exact .collectedTag gcEpoch p hmem
    | cleanupFragment =>
      obtain ⟨_, h⟩ := Option.ite_none_right_eq_some.mp h
      cases h
      exact .collected gcEpoch p hmem
  | cleanList osdId =>
    simp only [exec, Option.ite_none_left_eq_some] at h
    obtain ⟨_, h⟩ := h
    cases h
    exact .found osdId
  | cleanDelete osdId keys =>
    obtain ⟨hmem, h⟩ := Option.ite_none_right_eq_some.mp h
    cases h
    exact .deleted osdId keys hmem
  | cleanMark osdId keys =>
    obtain ⟨hmem, hask⟩ := Option.ite_none_right_eq_some.mp h
    obtain ⟨kv', hexec, rfl⟩ := State.ask_eq_some.mp hask
    exact .marked osdId keys hmem kv' hexec

end Inversion

end Alba.Gc
