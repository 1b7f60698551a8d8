import Alba.Nsm.Outcome
import Alba.Transfer.RoundTrip

/-! `repair_object_generic_and_update_manifest`: the fragments of an object that are missing or have a
problem are rebuilt from the others, packed again, uploaded to new osds and registered. -/

namespace Alba.Transfer

open List hiding next
open ProofKit Nsm

/-- What a repair is asked for, what it gets from the preset and from the osds it talks to. -/
structure Repair where
  problemOsds : List OsdId
  disqualified : List OsdId
  problemFragments : List (Nat × Nat)
  fragmentChecksumAlgo : Algo
  extraDevices : Nat → List OsdId
  received : Nat → List Nat
  attempt : Nat → Nat → Attempt

section Model

variable (c : Codec) {k m : Nat} (e : Erasure k m) (r : Repair)

def Repair.isProblem (osdId : OsdId) : Bool := decide (osdId ∈ r.disqualified ∨ osdId ∈ r.problemOsds)

/-- Whether a fragment is uploaded again; one without an osd only if its number is below `k`. -/
def Repair.isMissing (k chunkId fragmentId : Nat) (f : Fragment) : Bool :=
  decide ((chunkId, fragmentId) ∈ r.problemFragments) ||
    match f.osd with
    | none => decide (fragmentId < k)
    | some osdId => r.isProblem osdId

/-- One step of the loop over the fragments: counter, osds to keep, fragments to be repaired. -/
def Repair.sortFragment (k chunkId : Nat) (s : Nat × List (Option OsdId) × List (Nat × Checksum))
    (f : Fragment) : Nat × List (Option OsdId) × List (Nat × Checksum) :=
  let (fragmentId, okFragments, toBeRepaireds) := s
  if r.isMissing k chunkId fragmentId f then
    (fragmentId + 1, okFragments, (fragmentId, f.crc) :: toBeRepaireds)
  else (fragmentId + 1, f.osd :: okFragments, toBeRepaireds)

/-- Where an object and its fragments are in a repair. -/
structure RepairContext where
  objectId : Bytes
  versionId : Int32
  compression : Compression
  encryption : Encryption
  isReplication : Bool

def RepairContext.key (ctx : RepairContext) (chunkId fragmentId : Nat) : FragmentKey :=
  { objectId := ctx.objectId, versionId := ctx.versionId, chunkId, fragmentId }

abbrev Repairing := List FragmentUpdate × Osds

/-- A fragment is packed and uploaded to the osd chosen for it. -/
def Repair.uploadFragment (ctx : RepairContext) (chunkId : Nat) (allFragments : List Bytes)
    (s : Repairing) (task : (Nat × Checksum) × OsdId) : Except Exn Repairing :=
  let ((fragmentId, _), chosenOsdId) := task
  match allFragments[fragmentId]? with
  | none => .error .invalidArgument
  | some fragment => do
    let packed ← c.packFragment ctx.encryption ctx.objectId chunkId fragmentId ctx.isReplication
      ctx.compression r.fragmentChecksumAlgo fragment
    match r.attempt chunkId fragmentId with
    | .failed _ => .error .osd
    | .stored fnr =>
      return (
        s.1 ++ [{ chunkId, fragmentId, osdIdO := some chosenOsdId
                  sizeChange := some (packed.bytes.length, packed.checksum)
                  ctr := packed.ctr, fnr }],
        s.2.store chosenOsdId (ctx.key chunkId fragmentId) packed.bytes)

/-- `_upload_missing_fragments`, on the osds that were chosen. -/
def Repair.uploadFragments (ctx : RepairContext) (chunkId : Nat) (okFragments : List (Option OsdId))
    (allFragments : List Bytes) (fragmentsToBeRepaired : List (Nat × Checksum)) (s : Repairing) :
    Except Exn Repairing := do
  let extraDevices := r.extraDevices chunkId
  check (∀ osdId ∈ extraDevices, osdId ∉ okFragments.filterMap id) .assertFailure
  check (fragmentsToBeRepaired.length = extraDevices.length) .invalidArgument
  (fragmentsToBeRepaired.zip extraDevices).foldlM (r.uploadFragment c ctx chunkId allFragments) s

/-- `upload_missing_fragments`: the chunk is read only when there is something to repair. -/
def Repair.uploadMissingFragments (manifest : Manifest) (encryption : Encryption) (k' : Nat)
    (s : Repairing) (chunk : List Fragment × Nat) : Except Exn Repairing :=
  let (chunkFragments, chunkId) := chunk
  let (_, okFragments, fragmentsToBeRepaired) :=
    chunkFragments.foldl (r.sortFragment k' chunkId) (0, [], [])
  if fragmentsToBeRepaired.isEmpty then .ok s
  else do
    let fragments ← (r.received chunkId).mapM (downloadLocated c s.2 encryption manifest.compression
      manifest.objectId manifest.k chunkId chunkFragments)
    let (dataFragments, codingFragments) ← decodeChunk c e chunkId fragments
    r.uploadFragments c
      { objectId := manifest.objectId, versionId := manifest.versionId + 1
        compression := manifest.compression, encryption, isReplication := k' == 1 }
      chunkId okFragments (dataFragments ++ codingFragments) fragmentsToBeRepaired s

/-- `repair_object_generic`. The `k` that it passes on is 1, whatever the scheme of the object. -/
def Repair.repairObjectGeneric (presetEncryption : Encryption) (manifest : Manifest) (osds : Osds) :
    Except Exn Repairing := do
  let encryption ← getEncryption c presetEncryption manifest.encryptInfo
  manifest.fragments.zipIdx.foldlM (r.uploadMissingFragments c e manifest encryption 1) ([], osds)

end Model

section Statement

variable (c : Codec) {k m : Nat} (e : Erasure k m) (u : Upload) (r : Repair)

/-- The manifest of an upload as the namespace manager has it. -/
structure Registered (manifest : Manifest) (t : Nsm.Manifest) : Prop where
  name : t.name = manifest.name
  objectId : t.objectId = manifest.objectId
  versionId : t.versionId = manifest.versionId
  fragments : t.fragments = manifest.fragments.map fun chunk => chunk.map fun f => { f with fnr := none }

def Manifest.fragmentAt (manifest : Manifest) (chunkId fragmentId : Nat) : Option Fragment :=
  manifest.fragments[chunkId]?.bind (·[fragmentId]?)

/-- The fragments without a problem, and those that the repair reads, are as they were uploaded. -/
structure Repair.Survives (manifest : Manifest) (osds now : Osds) : Prop where
  kept : ∀ j i f d, manifest.fragmentAt j i = some f → f.osd = some d → (j, i) ∉ r.problemFragments →
    r.isProblem d = false → now d ⟨manifest.objectId, f.ver, j, i⟩ = osds d ⟨manifest.objectId, f.ver, j, i⟩
  nodup : ∀ j, (r.received j).Nodup
  received : ∀ j < manifest.fragments.length, ∀ i ∈ r.received j, ∃ f d,
    manifest.fragmentAt j i = some f ∧ f.osd = some d ∧
      now d ⟨manifest.objectId, f.ver, j, i⟩ = osds d ⟨manifest.objectId, f.ver, j, i⟩

/-- Every located fragment, read with the `k` of the object, is the plain fragment of its place. -/
def ReadsBack (osds : Osds) (chunks : List Bytes) (fragments : Layout Fragment) : Prop :=
  ∀ (j i : Nat) (row : List Fragment) (f : Fragment) (d : OsdId), fragments[j]? = some row →
    row[i]? = some f → f.osd = some d →
    ∃ chunk plain, chunks[j]? = some chunk ∧ (plainFragments e chunk)[i]? = some plain ∧
      downloadFragment c osds u.encryption u.compression u.objectId k j i (d, f.ver) f.crc f.ctr =
        .ok plain

/-- The repair of an encrypted, erasure-coded object touches no fragment but the first of a chunk. -/
def Repair.VectorsAgree (k : Nat) (manifest : Manifest) : Prop :=
  Codec.isCbc u.encryption → k ≠ 1 → ∀ j i f, manifest.fragmentAt j i = some f →
    r.isMissing 1 j i f → i = 0

end Statement

section Sorting

variable {r : Repair} {k' chunkId : Nat}

theorem mem_sortFragments {fragments : List Fragment} {s : Nat × List (Option OsdId) × List (Nat × Checksum)}
    {task : Nat × Checksum} :
    task ∈ (fragments.foldl (r.sortFragment k' chunkId) s).2.2 ↔ task ∈ s.2.2 ∨
      ∃ i f, fragments[i]? = some f ∧ r.isMissing k' chunkId (s.1 + i) f ∧ task = (s.1 + i, f.crc) := by
  induction fragments generalizing s with
  | nil => simp
  | cons f fragments ih =>
    have hstep : ∀ task, task ∈ (r.sortFragment k' chunkId s f).2.2 ↔
        task ∈ s.2.2 ∨ (r.isMissing k' chunkId s.1 f ∧ task = (s.1, f.crc)) := by
      intro task
      unfold Repair.sortFragment
      by_cases h : r.isMissing k' chunkId s.1 f
      · simp [h, or_comm]
      · simp [h]
    have hnext : (r.sortFragment k' chunkId s f).1 = s.1 + 1 := by
      unfold Repair.sortFragment
      dsimp only
      split <;> rfl
    rw [foldl_cons, ih, hstep, hnext, or_assoc]
    refine or_congr_right ?_
    constructor
    · rintro (⟨hmissing, rfl⟩ | ⟨i, g, hg, hmissing, rfl⟩)
      · exact ⟨0, f, rfl, hmissing, rfl⟩
      · refine ⟨i + 1, g, by simpa using hg, ?_, ?_⟩
        · rwa [Nat.add_comm i 1, ← Nat.add_assoc]
        · rw [Nat.add_comm i 1, ← Nat.add_assoc]
    · rintro ⟨i, g, hg, hmissing, rfl⟩
      cases i with
      | zero =>
        obtain rfl : f = g := by simpa using hg
        exact .inl ⟨hmissing, rfl⟩
      | succ i =>
        refine .inr ⟨i, g, by simpa using hg, ?_, ?_⟩
        · rwa [Nat.add_assoc, Nat.add_comm 1 i]
        · rw [Nat.add_assoc, Nat.add_comm 1 i]

end Sorting

section Progress

variable {c : Codec} {k m : Nat} {e : Erasure k m} {r : Repair} {ctx : RepairContext}
  {chunks : List Bytes} {now : Osds} {s s' : Repairing} {done : Nat → Nat → Prop} {j : Nat}
  {chunk : Bytes}

/-- An update that registers a plain fragment of the object, packed for the context of the repair. -/
inductive Renewed (c : Codec) (e : Erasure k m) (r : Repair) (ctx : RepairContext) (chunks : List Bytes)
    (osds : Osds) : FragmentUpdate → Prop
  | intro {j i : Nat} {d : OsdId} {chunk plain : Bytes} {p : Codec.Packed} {fnr : Option Bytes}
      (hchunk : chunks[j]? = some chunk) (hplain : (plainFragments e chunk)[i]? = some plain)
      (hpack : c.packFragment ctx.encryption ctx.objectId j i ctx.isReplication ctx.compression
        r.fragmentChecksumAlgo plain = .ok p)
      (hheld : osds d (ctx.key j i) = some p.bytes) :
      Renewed c e r ctx chunks osds
        { chunkId := j, fragmentId := i, osdIdO := some d
          sizeChange := some (p.bytes.length, p.checksum), ctr := p.ctr, fnr }

/-- How far a repair has come: what it has uploaded, for the fragments that `done` selects. -/
structure Repairing.Sound (c : Codec) (e : Erasure k m) (r : Repair) (ctx : RepairContext)
    (chunks : List Bytes) (now : Osds) (done : Nat → Nat → Prop) (s : Repairing) : Prop where
  frame : ∀ d key, key.versionId ≠ ctx.versionId → s.2 d key = now d key
  renewed : (s.1.map FragmentUpdate.index).Nodup → ∀ fu ∈ s.1, Renewed c e r ctx chunks s.2 fu
  covers : ∀ j i : Nat, (∃ fu ∈ s.1, fu.index = ((j : Int), (i : Int))) ↔ done j i

theorem Renewed.store {fu : FragmentUpdate} {osds : Osds} {d : OsdId} {j i : Nat} {b : Bytes}
    (h : Renewed c e r ctx chunks osds fu) (hne : fu.index ≠ ((j : Int), (i : Int))) :
    Renewed c e r ctx chunks (osds.store d (ctx.key j i) b) fu := by
  cases h with
  | @intro j' i' d' chunk plain p fnr hchunk hplain hpack hheld =>
    refine .intro hchunk hplain hpack ((Osds.store_other b fun hkey => ?_).trans hheld)
    simp only [RepairContext.key, FragmentKey.mk.injEq, true_and] at hkey
    exact hne (by simp [FragmentUpdate.index, hkey])

theorem Repairing.Sound.uploadFragment {task : (Nat × Checksum) × OsdId}
    (h : s.Sound c e r ctx chunks now done) (hchunk : chunks[j]? = some chunk)
    (hstep : r.uploadFragment c ctx j (plainFragments e chunk) s task = .ok s') :
    s'.Sound c e r ctx chunks now fun j' i => done j' i ∨ (j' = j ∧ i = task.1.1) := by
  obtain ⟨⟨i, crc⟩, d⟩ := task
  simp only [Repair.uploadFragment] at hstep
  split at hstep
  · cases hstep
  · rename_i plain hplain
    obtain ⟨p, hpack, hstep⟩ := bind_eq_ok.mp hstep
    split at hstep
    · cases hstep
    · cases hstep
      constructor
      · intro d' key hkey
        refine (Osds.store_other _ ?_).trans (h.frame d' key hkey)
        rintro rfl
        exact hkey rfl
      · intro hnodup fu hfu
        rw [map_append, nodup_append] at hnodup
        rcases mem_append.mp hfu with hfu | hfu
        · refine (h.renewed hnodup.1 fu hfu).store fun heq => ?_
          exact hnodup.2.2 _ (mem_map_of_mem hfu) _ (by simp [FragmentUpdate.index]) heq
        · obtain rfl := mem_singleton.mp hfu
          exact .intro hchunk hplain hpack (Osds.store_self _ _ _ _)
      · intro j' i'
        rw [← h.covers]
        simp only [mem_append, mem_singleton, or_and_right, exists_or, exists_eq_left]
        refine or_congr_right ?_
        simp only [FragmentUpdate.index, Prod.mk.injEq, Nat.cast_inj]
        exact and_congr eq_comm eq_comm

theorem Repairing.Sound.congr {done' : Nat → Nat → Prop} (h : s.Sound c e r ctx chunks now done)
    (hdone : ∀ j i, done j i ↔ done' j i) : s.Sound c e r ctx chunks now done' :=
  ⟨h.frame, h.renewed, fun j i => (h.covers j i).trans (hdone j i)⟩

theorem Repairing.Sound.uploadFragments {ok : List (Option OsdId)} {missing : List (Nat × Checksum)}
    (h : s.Sound c e r ctx chunks now done) (hchunk : chunks[j]? = some chunk)
    (hstep : r.uploadFragments c ctx j ok (plainFragments e chunk) missing s = .ok s') :
    s'.Sound c e r ctx chunks now fun j' i => done j' i ∨ (j' = j ∧ i ∈ missing.map Prod.fst) := by
  simp only [Repair.uploadFragments, bind_eq_ok, check_eq_ok] at hstep
  obtain ⟨_, _, _, hlength, hstep⟩ := hstep
  let P (tasks : List ((Nat × Checksum) × OsdId)) (s : Repairing) : Prop :=
    s.Sound c e r ctx chunks now fun j' i =>
      done j' i ∨ (j' = j ∧ i ∈ (tasks.map Prod.fst).map Prod.fst)
  have keep : ∀ tasks s task s', P tasks s →
      r.uploadFragment c ctx j (plainFragments e chunk) s task = .ok s' → P (tasks ++ [task]) s' := by
    intro tasks s task s' hs hstep
    refine (hs.uploadFragment hchunk hstep).congr fun j' i => ?_
    simp only [map_append, mem_append, map_cons, map_nil, mem_singleton]
    tauto
  have hfold := foldlM_invariant keep (p := []) (h.congr fun j' i => by simp) hstep
  simp only [P, nil_append, map_fst_zip hlength.le] at hfold
  exact hfold

end Progress

section Chunks

variable {c : Codec} {k m : Nat} {e : Erasure k m} {u : Upload} {r : Repair} {manifest : Manifest}
  {osds now : Osds} {chunks : List Bytes} {s s' : Repairing}

def RepairContext.of (manifest : Manifest) (encryption : Encryption) : RepairContext :=
  { objectId := manifest.objectId, versionId := manifest.versionId + 1
    compression := manifest.compression, encryption, isReplication := true }

theorem downloadFragment_congr {osds osds' : Osds} {encryption : Encryption} {compression : Compression}
    {objectId : Bytes} {k j i : Nat} {d : OsdId} {ver : Int32} {crc : Checksum} {ctr : Option Bytes}
    (h : osds' d ⟨objectId, ver, j, i⟩ = osds d ⟨objectId, ver, j, i⟩) :
    downloadFragment c osds' encryption compression objectId k j i (d, ver) crc ctr =
      downloadFragment c osds encryption compression objectId k j i (d, ver) crc ctr := by
  simp only [downloadFragment, downloadPackedFragment, h]

variable {done : Nat → Nat → Prop} {j : Nat} {row : List Fragment} {chunk : Bytes}
  (object : ObjectStored c e u osds manifest chunks)

include object

theorem Repairing.Sound.old
    (h : s.Sound c e r (RepairContext.of manifest u.encryption) chunks now done) (d : OsdId) (j i : Nat) :
    s.2 d ⟨manifest.objectId, 0, j, i⟩ = now d ⟨manifest.objectId, 0, j, i⟩ := by
  refine h.frame _ _ ?_
  rw [RepairContext.of, object.versionId]
  show (0 : Int32) ≠ 0 + 1
  decide

theorem ObjectStored.chunk_of_row (hrow : manifest.fragments[j]? = some row) :
    ∃ chunk, chunks[j]? = some chunk := by
  have hj := (List.getElem?_eq_some_iff.mp hrow).1
  rw [object.fragments] at hj
  exact ⟨_, getElem?_eq_getElem hj⟩

variable (survives : r.Survives manifest osds now)

include survives

theorem downloadLocated_survives
    (h : s.Sound c e r (RepairContext.of manifest u.encryption) chunks now done)
    (hrow : manifest.fragments[j]? = some row) (hchunk : chunks[j]? = some chunk) :
    (r.received j).mapM (downloadLocated c s.2 u.encryption manifest.compression manifest.objectId
        manifest.k j row) =
      .ok ((r.received j).map fun i => (i, (plainFragments e chunk).getD i [])) := by
  have hstored := object.stored j chunk row hchunk hrow
  refine mapM_of_forall fun i hi => ?_
  obtain ⟨f, d, hf, hd, hsame⟩ := survives.received j (List.getElem?_eq_some_iff.mp hrow).1 i hi
  rw [Manifest.fragmentAt, hrow, Option.bind_some] at hf
  obtain ⟨plain, hplain, hread⟩ := hstored.located i f d hf hd
  have hver := hstored.version f (mem_of_getElem? hf)
  have hnow : s.2 d ⟨u.objectId, f.ver, j, i⟩ = osds d ⟨u.objectId, f.ver, j, i⟩ := by
    rw [← object.objectId, ← hsame, hver]
    exact h.old object d j i
  rw [← downloadFragment_congr hnow] at hread
  simp only [downloadLocated, hf, hd, object.objectId, object.scheme.1, object.scheme.2.2, hread,
    getD_eq_getElem?_getD, hplain]
  rfl

theorem decodeChunk_received (hk : 1 ≤ k) (hrow : manifest.fragments[j]? = some row)
    (hchunk : chunks[j]? = some chunk) {decoded : List Bytes × List Bytes}
    (h : decodeChunk c e j ((r.received j).map fun i => (i, (plainFragments e chunk).getD i [])) =
      .ok decoded) : decoded.1 ++ decoded.2 = plainFragments e chunk := by
  have hids : ∀ i ∈ r.received j, ∃ f : Fragment, row[i]? = some f ∧ f.osd.isSome := by
    intro i hi
    obtain ⟨f, d, hf, hd, -⟩ := survives.received j (List.getElem?_eq_some_iff.mp hrow).1 i hi
    rw [Manifest.fragmentAt, hrow, Option.bind_some] at hf
    exact ⟨f, hf, by simp [hd]⟩
  have htable := (object.stored j chunk row hchunk hrow).tableOf hk (survives.nodup j) hids
  by_cases henough : k ≤ (r.received j).length
  · rw [decodeChunk_eq c j hk dataFragments_length dataFragments_size htable (by simpa using henough)] at h
    cases h
    have htake : (plainFragments e chunk).take k = dataFragments chunk k :=
      take_fragmentsOf dataFragments_length
    calc dataFragments chunk k ++ (plainFragments e chunk).drop k
        = (plainFragments e chunk).take k ++ (plainFragments e chunk).drop k := by rw [htake]
      _ = plainFragments e chunk := take_append_drop k _
  · rw [decodeChunk.eq_def, if_pos (by simpa using henough)] at h
    cases h

theorem Repairing.Sound.uploadMissingFragments (hk : 1 ≤ k)
    (h : s.Sound c e r (RepairContext.of manifest u.encryption) chunks now done)
    (hrow : manifest.fragments[j]? = some row)
    (hstep : r.uploadMissingFragments c e manifest u.encryption 1 s (row, j) = .ok s') :
    s'.Sound c e r (RepairContext.of manifest u.encryption) chunks now fun j' i =>
      done j' i ∨ (j' = j ∧ ∃ f, row[i]? = some f ∧ r.isMissing 1 j i f) := by
  obtain ⟨chunk, hchunk⟩ := object.chunk_of_row hrow
  have hmissing : ∀ i, (∃ f, row[i]? = some f ∧ r.isMissing 1 j i f) ↔
      i ∈ (row.foldl (r.sortFragment 1 j) (0, [], [])).2.2.map Prod.fst := by
    intro i
    simp only [mem_map, mem_sortFragments, not_mem_nil, false_or, Nat.zero_add]
    constructor
    · rintro ⟨f, hf, hi⟩
      exact ⟨_, ⟨i, f, hf, hi, rfl⟩, rfl⟩
    · rintro ⟨_, ⟨i, f, hf, hi, rfl⟩, rfl⟩
      exact ⟨f, hf, hi⟩
  simp only [Repair.uploadMissingFragments] at hstep
  split at hstep
  · rename_i hempty
    cases hstep
    refine h.congr fun j' i => ?_
    rw [hmissing, List.isEmpty_iff.mp hempty]
    simp
  · rw [downloadLocated_survives object survives h hrow hchunk, ok_bind] at hstep
    obtain ⟨decoded, hdecoded, hstep⟩ := bind_eq_ok.mp hstep
    simp only [decodeChunk_received object survives hk hrow hchunk hdecoded] at hstep
    have huploaded := h.uploadFragments hchunk hstep
    exact huploaded.congr fun j' i => by rw [hmissing]

theorem repairObjectGeneric_sound (hk : 1 ≤ k)
    (h : r.repairObjectGeneric c e u.encryption manifest now = .ok s) :
    s.Sound c e r (RepairContext.of manifest u.encryption) chunks now fun j i =>
      ∃ f, manifest.fragmentAt j i = some f ∧ r.isMissing 1 j i f := by
  rw [Repair.repairObjectGeneric, object.encryptInfo, getEncryption_fromEncryption, ok_bind] at h
  let P (rows : List (List Fragment × Nat)) (s : Repairing) : Prop :=
    rows <+: manifest.fragments.zipIdx →
    s.Sound c e r (RepairContext.of manifest u.encryption) chunks now fun j i =>
      ∃ row, (row, j) ∈ rows ∧ ∃ f, row[i]? = some f ∧ r.isMissing 1 j i f
  have keep : ∀ rows s row s', P rows s →
      r.uploadMissingFragments c e manifest u.encryption 1 s row = .ok s' → P (rows ++ [row]) s' := by
    rintro rows s ⟨row, j⟩ s' hs hstep hrows
    have hin : (row, j) ∈ manifest.fragments.zipIdx := hrows.subset (by simp)
    have hsound := hs ((List.prefix_append _ _).trans hrows)
    refine (hsound.uploadMissingFragments object survives hk
      (mk_mem_zipIdx_iff_getElem?.mp hin) hstep).congr fun j' i => ?_
    simp only [mem_append, mem_singleton, Prod.mk.injEq, or_and_right, exists_or]
    refine or_congr_right ?_
    constructor
    · rintro ⟨rfl, hf⟩
      exact ⟨row, ⟨rfl, rfl⟩, hf⟩
    · rintro ⟨_, ⟨rfl, rfl⟩, hf⟩
      exact ⟨rfl, hf⟩
  have hstart : P [] ([], now) := fun _ => ⟨fun _ _ _ => rfl, by simp, by simp⟩
  refine (foldlM_invariant keep hstart h (List.prefix_refl _)).congr fun j i => ?_
  simp only [nil_append, mk_mem_zipIdx_iff_getElem?, Manifest.fragmentAt,
    Option.bind_eq_some_iff]
  constructor
  · rintro ⟨row, hrow, f, hf, hmissing⟩
    exact ⟨f, ⟨row, hrow, hf⟩, hmissing⟩
  · rintro ⟨f, ⟨row, hrow, hf⟩, hmissing⟩
    exact ⟨row, hrow, f, hf, hmissing⟩

end Chunks

section Commit

variable {c : Codec} {k m : Nat} {e : Erasure k m} {u : Upload} {r : Repair} {manifest : Manifest}
  {osds now : Osds} {chunks : List Bytes} {namespaceId : NamespaceId} {kv kv' : Store}
  {t : Nsm.Manifest}

theorem updateManifest2_committed {cache : Option (BitVec 64 × Preset)} {name objectId : Bytes}
    {fus : List FragmentUpdate} {gcEpoch : Int64} {versionId : Int32}
    (hkv : kvGet kv (.objects objectId) = some (.manifest t))
    (h : Nsm.exec namespaceId kv
      { op := .updateManifest2 name objectId fus gcEpoch versionId, cache } = some kv') :
    ∃ table, fragmentTable fus = .ok table ∧
      kvGet kv' (.objects objectId) = some (.manifest (t.updateWith table versionId)) := by
  obtain ⟨us, hus, hcommit⟩ := exec_eq_some.mp h
  obtain ⟨table, t', htable, -, heffect⟩ := updateManifestGeneric_effect rfl hus hcommit
  have hbefore := heffect.update_before
  rw [hkv] at hbefore
  cases hbefore
  exact ⟨table, htable, heffect.update_after⟩

theorem findUpdate_of_mem {fus table : List FragmentUpdate} (htable : fragmentTable fus = .ok table)
    {fu : FragmentUpdate} (hfu : fu ∈ fus) {j i : Nat} (hindex : fu.index = ((j : Int), (i : Int))) :
    findUpdate table j i = some fu := by
  obtain ⟨rfl, hnodup⟩ := fragmentTable_eq htable
  rw [findUpdate, ← hindex]
  exact find?_of_nodup hnodup (mem_reverse.mpr hfu)

theorem findUpdate_eq_none {fus table : List FragmentUpdate} (htable : fragmentTable fus = .ok table)
    {j i : Nat} (h : ¬ ∃ fu ∈ fus, fu.index = ((j : Int), (i : Int))) : findUpdate table j i = none := by
  obtain ⟨rfl, -⟩ := fragmentTable_eq htable
  rw [findUpdate, find?_eq_none]
  intro fu hfu hindex
  exact h ⟨fu, mem_reverse.mp hfu, by simpa using hindex⟩

theorem updateWith_at (hregistered : Registered manifest t) {table : List FragmentUpdate}
    {versionId : Int32} {j i : Nat} {f' : Fragment} :
    (∃ row, (t.updateWith table versionId).fragments[j]? = some row ∧ row[i]? = some f') ↔
      ∃ f, manifest.fragmentAt j i = some f ∧
        f' = updateFragment table versionId j i { f with fnr := none } := by
  simp only [Manifest.updateWith, Layout.mapIndexed, getElem?_mapIdx, hregistered.fragments,
    getElem?_map, Option.map_map, Option.map_eq_some_iff, Manifest.fragmentAt,
    Option.bind_eq_some_iff]
  constructor
  · rintro ⟨_, ⟨row, hrow, rfl⟩, hf⟩
    simp only [Function.comp_apply, getElem?_mapIdx, getElem?_map, Option.map_map,
      Option.map_eq_some_iff] at hf
    obtain ⟨f, hf, rfl⟩ := hf
    exact ⟨f, ⟨row, hrow, hf⟩, rfl⟩
  · rintro ⟨f, ⟨row, hrow, hf⟩, rfl⟩
    refine ⟨_, ⟨row, hrow, rfl⟩, ?_⟩
    simp [getElem?_mapIdx, hf]

variable {s : Repairing} {table : List FragmentUpdate} {j i : Nat} {f : Fragment}

theorem ivNumber_agree (hagree : Codec.isCbc u.encryption → k ≠ 1 → i = 0) :
    Codec.isCbc u.encryption → Codec.ivNumber i (k == 1) = Codec.ivNumber i true := by
  intro hcbc
  by_cases h1 : k = 1
  · simp [h1]
  · simp [Codec.ivNumber, hagree hcbc h1]

section Object

variable (object : ObjectStored c e u osds manifest chunks)

include object

theorem kept_readsBack (survives : r.Survives manifest osds now) {done : Nat → Nat → Prop}
    (h : s.Sound c e r (RepairContext.of manifest u.encryption) chunks now done) {d : OsdId}
    (hf : manifest.fragmentAt j i = some f) (hd : f.osd = some d)
    (hmissing : r.isMissing 1 j i f = false) :
    ∃ chunk plain, chunks[j]? = some chunk ∧ (plainFragments e chunk)[i]? = some plain ∧
      downloadFragment c s.2 u.encryption u.compression u.objectId k j i (d, f.ver) f.crc f.ctr =
        .ok plain := by
  simp only [Repair.isMissing, hd, Bool.or_eq_false_iff, decide_eq_false_iff_not] at hmissing
  have hsame := survives.kept j i f d hf hd hmissing.1 hmissing.2
  obtain ⟨row, hrow, hf⟩ := Option.bind_eq_some_iff.mp hf
  obtain ⟨chunk, hchunk⟩ := object.chunk_of_row hrow
  have hstored := object.stored j chunk row hchunk hrow
  obtain ⟨plain, hplain, hread⟩ := hstored.located i f d hf hd
  refine ⟨chunk, plain, hchunk, hplain, (downloadFragment_congr ?_).trans hread⟩
  have hver := hstored.version f (mem_of_getElem? hf)
  rw [← object.objectId, ← hsame, hver]
  exact h.old object d j i

variable (h : s.Sound c e r (RepairContext.of manifest u.encryption) chunks now fun j i =>
    ∃ f, manifest.fragmentAt j i = some f ∧ r.isMissing 1 j i f)
  (htable : fragmentTable s.1 = .ok table)

include h htable

theorem renewed_read (hf : manifest.fragmentAt j i = some f) (hmissing : r.isMissing 1 j i f = true) :
    ∃ chunk plain p d, chunks[j]? = some chunk ∧ (plainFragments e chunk)[i]? = some plain ∧
      c.packFragment u.encryption u.objectId j i true u.compression r.fragmentChecksumAlgo plain = .ok p ∧
      (updateFragment table (manifest.versionId + 1) j i { f with fnr := none }).osd = some d ∧
      let f' := updateFragment table (manifest.versionId + 1) j i { f with fnr := none }
      downloadFragment c s.2 u.encryption u.compression u.objectId k j i (d, f'.ver) f'.crc f'.ctr =
        c.unpackFragment u.encryption u.objectId j i (k == 1) u.compression p.checksum p.ctr p.bytes := by
  obtain ⟨fu, hfu, hindex⟩ := (h.covers j i).mpr ⟨f, hf, hmissing⟩
  obtain ⟨rfl, hnodup⟩ := fragmentTable_eq htable
  have hfind := findUpdate_of_mem htable hfu hindex
  have hrenewed := h.renewed (by simpa using hnodup) fu hfu
  cases hrenewed with
  | @intro j' i' d chunk plain p fnr hchunk hplain hpack hheld =>
    simp only [FragmentUpdate.index, Prod.mk.injEq, Nat.cast_inj] at hindex
    obtain ⟨rfl, rfl⟩ := hindex
    simp only [RepairContext.of, RepairContext.key, object.objectId, object.scheme.2.2] at hpack hheld
    refine ⟨chunk, plain, p, d, hchunk, hplain, hpack, by simp [updateFragment, hfind], ?_⟩
    simp only [updateFragment, hfind, Option.elim_some, downloadFragment, downloadPackedFragment, hheld,
      ok_bind]

theorem readsBack_of_vectorsAgree (survives : r.Survives manifest osds now)
    (hregistered : Registered manifest t) (hagree : r.VectorsAgree u k manifest) :
    ReadsBack c e u s.2 chunks (t.updateWith table (manifest.versionId + 1)).fragments := by
  intro j i row f' d' hrow hf' hd'
  obtain ⟨f, hf, rfl⟩ := (updateWith_at hregistered).mp ⟨row, hrow, hf'⟩
  by_cases hmissing : r.isMissing 1 j i f
  · obtain ⟨chunk, plain, p, d, hchunk, hplain, hpack, hd, hread⟩ :=
      renewed_read object h htable hf hmissing
    cases hd.symm.trans hd'
    refine ⟨chunk, plain, hchunk, hplain, hread.trans ?_⟩
    exact Codec.unpackFragment_of_packFragment hpack
      (ivNumber_agree fun hcbc h1 => hagree hcbc h1 j i f hf hmissing)
  · have hnone := findUpdate_eq_none htable (j := j) (i := i) fun hfu => by
      obtain ⟨g, hg, hmissing'⟩ := (h.covers j i).mp hfu
      cases hf.symm.trans hg
      exact hmissing hmissing'
    simp only [updateFragment, hnone] at hd' ⊢
    exact kept_readsBack object survives h hf hd' (by simpa using hmissing)

theorem vectorsAgree_of_readsBack (hregistered : Registered manifest t)
    (exact_inverse : ∀ y x, c.decompress u.compression y = some x → y = c.compress u.compression x)
    (hreads : ReadsBack c e u s.2 chunks (t.updateWith table (manifest.versionId + 1)).fragments) :
    r.VectorsAgree u k manifest := by
  intro hcbc h1 j i f hf hmissing
  obtain ⟨chunk, plain, p, d, hchunk, hplain, hpack, hd, hread⟩ :=
    renewed_read object h htable hf hmissing
  obtain ⟨row, hrow, hf'⟩ := (updateWith_at hregistered).mpr ⟨f, hf, rfl⟩
  obtain ⟨chunk', plain', hchunk', hplain', hread'⟩ := hreads j i row _ d hrow hf' hd
  cases hchunk.symm.trans hchunk'
  cases hplain.symm.trans hplain'
  have hnumbers := Codec.agree_of_unpackFragment exact_inverse hpack (hread.symm.trans hread') hcbc
  have hi : i < 2 ^ 31 := by
    have hlength := (t.updateWith table (manifest.versionId + 1)).counted.2 row (mem_of_getElem? hrow)
    have hlt := (List.getElem?_eq_some_iff.mp hf').1
    omega
  simp only [Codec.ivNumber, beq_iff_eq, h1, if_false, if_true] at hnumbers
  exact (Codec.intTo_natCast_inj (by omega) (by omega)).mp hnumbers

end Object

/-- After the repair of an uploaded object has been committed, its fragments are read back as they were
uploaded exactly when the repaired ones have the vectors that readers expect. -/
theorem repair_readsBack (c : Codec) (e : Erasure k m) (u : Upload) (osds : Osds) (data : Bytes)
    (hk : 1 ≤ k) (hsize : if k = 1 then 1 ≤ u.maxFragmentSize else fragmentMultiple ≤ u.maxFragmentSize)
    {manifest : Manifest} {osds' now osds'' : Osds}
    (hupload : uploadObject c e u osds data = .ok (manifest, osds')) (r : Repair)
    (survives : r.Survives manifest osds' now) {t : Nsm.Manifest} (hregistered : Registered manifest t)
    (hkv : kvGet kv (.objects manifest.objectId) = some (.manifest t)) {fus : List FragmentUpdate}
    (hrepair : r.repairObjectGeneric c e u.encryption manifest now = .ok (fus, osds''))
    {gcEpoch : Int64} {cache : Option (BitVec 64 × Preset)}
    (hcommit : Nsm.exec namespaceId kv
      { op := .updateManifest2 manifest.name manifest.objectId fus gcEpoch (manifest.versionId + 1), cache } =
        some kv') :
    ∃ chunks t', CutOf e u.maxFragmentSize data chunks ∧ manifest.chunkSizes = chunks.map List.length ∧
      kvGet kv' (.objects manifest.objectId) = some (.manifest t') ∧
      (r.VectorsAgree u k manifest → ReadsBack c e u osds'' chunks t'.fragments) ∧
      ((∀ y x, c.decompress u.compression y = some x → y = c.compress u.compression x) →
        ReadsBack c e u osds'' chunks t'.fragments → r.VectorsAgree u k manifest) := by
  obtain ⟨chunks, object, cutOf, -, -⟩ := uploadObject_ok hk hsize hupload
  obtain ⟨table, htable, hkv'⟩ := updateManifest2_committed hkv hcommit
  have sound := repairObjectGeneric_sound object survives hk hrepair
  exact ⟨chunks, _, cutOf, object.chunkSizes, hkv',
    readsBack_of_vectorsAgree object sound htable survives hregistered,
    vectorsAgree_of_readsBack object sound htable hregistered⟩

end Commit

section Samples

/-- The manifest that the client puts for an upload, if it can be serialised. -/
def Manifest.toNsm (manifest : Manifest) : Option Nsm.Manifest :=
  let fragments := manifest.fragments.map fun chunk => chunk.map fun f => { f with fnr := none }
  if counted : fragments.length < 2 ^ 31 ∧ ∀ chunk ∈ fragments, chunk.length < 2 ^ 31 then
    some
      { name := manifest.name, objectId := manifest.objectId
        storageScheme := { k := manifest.k, m := manifest.m, w := .w8, compression := manifest.compression }
        encryptInfo := manifest.encryptInfo, chunkSizes := manifest.chunkSizes.map Int.ofNat
        size := BitVec.ofNat 64 manifest.size, checksum := manifest.checksum, fragments
        versionId := manifest.versionId, maxDisksPerNode := 3, timestamp := { bits := 0 }, counted }
  else none

theorem registered_toNsm {manifest : Manifest} {t : Nsm.Manifest} (h : manifest.toNsm = some t) :
    Registered manifest t := by
  simp only [Manifest.toNsm, Option.dite_none_right_eq_some, Option.some.injEq] at h
  obtain ⟨_, rfl⟩ := h
  exact ⟨rfl, rfl, rfl, rfl⟩

def repairUpload (mode : ChainingMode) : Upload :=
  { sampleUpload with
    encryption := .algoWithKey { mode } (List.replicate 32 1)
    targetOsds := [some 1, some 2, some 3] }

/-- The second fragment of every chunk is rebuilt from the other two. -/
def sampleRepair : Repair where
  problemOsds := [2]
  disqualified := []
  problemFragments := []
  fragmentChecksumAlgo := .sha1
  extraDevices _ := [4]
  received _ := [0, 2]
  attempt _ _ := .stored none

def sampleStore (t : Nsm.Manifest) : Store :=
  run (Nsm.exec 0) ∅
    [{ op := .linkOsd 1 { nodeId := [1] } }, { op := .linkOsd 2 { nodeId := [2] } },
      { op := .linkOsd 3 { nodeId := [3] } }, { op := .linkOsd 4 { nodeId := [4] } },
      { op := .putObject .unconditionally t 0 }]

def sampleUpdate (manifest : Manifest) (fus : List FragmentUpdate) : Request :=
  { op := .updateManifest2 manifest.name manifest.objectId fus 0 (manifest.versionId + 1) }

/-- An upload, the loss of an osd and the repair, up to its commit. -/
structure SampleRepaired (mode : ChainingMode) where
  manifest : Manifest
  osds : Osds
  t : Nsm.Manifest
  repaired : Repairing
  store : Store
  upload : uploadObject markCodec xorParity (repairUpload mode) (fun _ _ => none) sampleData =
    .ok (manifest, osds)
  survives : sampleRepair.Survives manifest osds osds
  registered : Registered manifest t
  stored : kvGet (sampleStore t) (.objects manifest.objectId) = some (.manifest t)
  repair : sampleRepair.repairObjectGeneric markCodec xorParity (repairUpload mode).encryption manifest
    osds = .ok repaired
  commit : Nsm.exec 0 (sampleStore t) (sampleUpdate manifest repaired.1) = some store
  lost : ∃ f, manifest.fragmentAt 0 1 = some f ∧ sampleRepair.isMissing 1 0 1 f

def sampleCommits (mode : ChainingMode) : Bool :=
  match uploadObject markCodec xorParity (repairUpload mode) (fun _ _ => none) sampleData with
  | .error _ => false
  | .ok (manifest, osds) =>
    match manifest.toNsm with
    | none => false
    | some t =>
      match sampleRepair.repairObjectGeneric markCodec xorParity (repairUpload mode).encryption manifest
        osds with
      | .error _ => false
      | .ok repaired =>
        (Nsm.exec 0 (sampleStore t) (sampleUpdate manifest repaired.1)).isSome &&
          decide (kvGet (sampleStore t) (.objects manifest.objectId) = some (.manifest t)) &&
          (manifest.fragmentAt 0 1).any (sampleRepair.isMissing 1 0 1) &&
          manifest.fragments.all fun row => [0, 2].all fun i => row[i]?.any fun f => f.osd.isSome

theorem exists_sampleRepaired (mode : ChainingMode) (h : sampleCommits mode = true) :
    Nonempty (SampleRepaired mode) := by
  unfold sampleCommits at h
  split at h
  · cases h
  rename_i manifest osds hupload
  split at h
  · cases h
  rename_i t ht
  split at h
  · cases h
  rename_i repaired hrepair
  simp only [Bool.and_eq_true, decide_eq_true_eq] at h
  obtain ⟨⟨⟨hcommit, hstored⟩, hlost⟩, hlocated⟩ := h
  obtain ⟨store, hstore⟩ := Option.isSome_iff_exists.mp hcommit
  refine ⟨⟨manifest, osds, t, repaired, store, hupload, ⟨?_, ?_, ?_⟩, registered_toNsm ht, hstored,
    hrepair, hstore, ?_⟩⟩
  · exact fun _ _ _ _ _ _ _ _ => rfl
  · exact fun _ => by simp [sampleRepair]
  · intro j hj i hi
    have hrow := all_eq_true.mp hlocated _ (getElem_mem hj)
    obtain ⟨f, hf, hosd⟩ := (Option.any_eq_true _ _).mp (all_eq_true.mp hrow i hi)
    obtain ⟨d, hd⟩ := Option.isSome_iff_exists.mp hosd
    exact ⟨f, d, by rw [Manifest.fragmentAt, getElem?_eq_getElem hj, Option.bind_some, hf], hd, rfl⟩
  · obtain ⟨f, hf, hmissing⟩ := (Option.any_eq_true _ _).mp hlost
    exact ⟨f, hf, hmissing⟩

theorem CutOf.unique {k m : Nat} {e : Erasure k m} {maxFragmentSize : Nat} {data : Bytes}
    {chunks chunks' : List Bytes} (h : CutOf e maxFragmentSize data chunks)
    (h' : CutOf e maxFragmentSize data chunks') (hsizes : chunks.map List.length = chunks'.map List.length) :
    chunks = chunks' := by
  obtain ⟨whole, rest, padding, rfl, hdata⟩ := h.bytes
  obtain ⟨whole', rest', padding', rfl, hdata'⟩ := h'.bytes
  have hpadding : padding = padding' := by
    have hsum := congrArg List.sum hsizes
    rw [← length_flatten, ← length_flatten] at hsum
    have hlength := congrArg List.length (hdata.symm.trans hdata')
    simp only [flatten_append, flatten_singleton, length_append,
      length_replicate] at hsum hlength
    omega
  refine eq_iff_flatten_eq.mpr ⟨?_, hsizes⟩
  simp only [flatten_append, flatten_singleton, ← append_assoc]
  rw [← hdata, ← hdata', hpadding]

/-- With a counter in the manifest the repaired fragments are read back. -/
theorem repair_readsBack_ctr : ∃ (s : SampleRepaired .ctr) (chunks : List Bytes) (t' : Nsm.Manifest),
    kvGet s.store (.objects s.manifest.objectId) = some (.manifest t') ∧
      ReadsBack markCodec xorParity (repairUpload .ctr) s.repaired.2 chunks t'.fragments := by
  obtain ⟨s⟩ := exists_sampleRepaired .ctr (by decide +kernel)
  obtain ⟨chunks, t', -, -, hkv, hreads, -⟩ := repair_readsBack markCodec xorParity (repairUpload .ctr)
    (fun _ _ => none) sampleData (by decide) (by decide) s.upload sampleRepair s.survives s.registered
    s.stored s.repair s.commit
  refine ⟨s, chunks, t', hkv, hreads fun hcbc => ?_⟩
  exact absurd hcbc (by decide)

/-- The second of two data fragments, encrypted with CBC, gets the vector of the first one. -/
theorem repair_breaks_second_fragment : ∃ (s : SampleRepaired .cbc) (t' : Nsm.Manifest),
    kvGet s.store (.objects s.manifest.objectId) = some (.manifest t') ∧
      ∀ chunks, CutOf xorParity (repairUpload .cbc).maxFragmentSize sampleData chunks →
        s.manifest.chunkSizes = chunks.map List.length →
        ¬ ReadsBack markCodec xorParity (repairUpload .cbc) s.repaired.2 chunks t'.fragments := by
  obtain ⟨s⟩ := exists_sampleRepaired .cbc (by decide +kernel)
  obtain ⟨table, htable, hkv⟩ := updateManifest2_committed s.stored s.commit
  refine ⟨s, _, hkv, fun chunks cutOf hsizes hreads => ?_⟩
  obtain ⟨chunks', object, cutOf', -, -⟩ := uploadObject_ok (by decide) (by decide) s.upload
  obtain rfl := cutOf.unique cutOf' (hsizes.symm.trans object.chunkSizes)
  have sound := repairObjectGeneric_sound object s.survives (by decide) s.repair
  have hagree := vectorsAgree_of_readsBack object sound htable s.registered
    (fun y x h => by simpa [repairUpload, markCodec] using h) hreads
  obtain ⟨f, hf, hmissing⟩ := s.lost
  exact absurd (hagree (by decide) (by decide) 0 1 f hf hmissing) (by decide)

end Samples

end Alba.Transfer
