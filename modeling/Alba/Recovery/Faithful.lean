import Alba.Recovery.History

/-! The recovery infos of an object tell its manifest, except where a repair of several fragments of a
chunk has written infos with one version, each of which knows the new size and checksum of its own
fragment only. -/

namespace Alba.Recovery

open ProofKit Nsm List
open Transfer (Upload objectChecksumAlgo manifestChecksum hasOsd findUpdate_of_mem findUpdate_eq_none)

section Commits

variable {t t' : Manifest} {fus table : List FragmentUpdate} {versionId : Int32}

theorem fragmentAt_eq_some {c i : Nat} {f : Fragment} :
    fragmentAt t c i = some f ↔ ∃ row, t.fragments[c]? = some row ∧ row[i]? = some f :=
  Option.bind_eq_some_iff

theorem fragmentAt_updateWith (c i : Nat) :
    fragmentAt (t.updateWith table versionId) c i =
      (fragmentAt t c i).map (updateFragment table versionId c i) := by
  simp only [fragmentAt, Manifest.updateWith, Layout.mapIndexed, getElem?_mapIdx]
  cases t.fragments[c]? with
  | none => rfl
  | some row => simp

theorem row_updateWith (c : Nat) :
    (t.updateWith table versionId).fragments[c]? =
      t.fragments[c]?.map fun row => row.mapIdx (updateFragment table versionId c) := by
  simp [Manifest.updateWith, Layout.mapIndexed]

theorem commit_eq_ok (h : commit t fus versionId = .ok t') :
    ∃ table, fragmentTable fus = .ok table ∧ t' = t.updateWith table versionId ∧
      ((versionId = 0 ∧ t.versionId = 0) ∨
        (versionId ≠ 0 ∧ versionId.toInt = t.versionId.toInt + 1)) := by
  simp only [commit, bind_eq_ok, check_eq_ok] at h
  obtain ⟨table, htable, _, ⟨hzero, hsucc⟩, _, _, updated, hupdated, _, _, h⟩ := h
  rw [updatedManifest_eq] at hupdated
  cases hupdated
  rw [Manifest.stored_updateWith] at h
  cases h
  refine ⟨table, htable, rfl, ?_⟩
  by_cases hv : versionId = 0
  · exact Or.inl ⟨hv, by simpa [hv] using hzero⟩
  · exact Or.inr ⟨hv, (by simpa [hv] using hsucc : t.versionId.toInt + 1 = versionId.toInt).symm⟩

theorem commit_of_exec {namespaceId : NamespaceId} {kv kv' : Store} {name objectId : Bytes}
    {gcEpoch : Int64} {cache : Option (BitVec 64 × Preset)}
    (hkv : kvGet kv (.objects objectId) = some (.manifest t))
    (h : Nsm.exec namespaceId kv
      { op := .updateManifest2 name objectId fus gcEpoch versionId, cache } = some kv') :
    ∃ t', commit t fus versionId = .ok t' ∧ kvGet kv' (.objects objectId) = some (.manifest t') := by
  obtain ⟨us, hus, hcommit⟩ := exec_eq_some.mp h
  obtain ⟨table, t₀, htable, _, heffect⟩ := updateManifestGeneric_effect rfl hus hcommit
  have hbefore := heffect.update_before
  rw [hkv] at hbefore
  cases hbefore
  refine ⟨t.updateWith table versionId, ?_, heffect.update_after⟩
  have hus' : updateManifestGeneric namespaceId cache kv name objectId fus gcEpoch versionId = .ok us := hus
  simp only [updateManifestGeneric, bind_eq_ok, getObjectManifestById_eq_ok] at hus'
  obtain ⟨_, _, table', htable', t', hget, _, _, _, hversion, osdSizes, hsizes, updated, hupdated, _,
    hspread, _⟩ := hus'
  rw [hkv] at hget
  cases hget
  have hstored : updated.stored = t.updateWith table versionId := by
    rw [updatedManifest_eq] at hupdated
    cases hupdated
    rw [Manifest.stored_updateWith]
    cases htable.symm.trans htable'
    rfl
  simp only [commit, htable', ok_bind, hversion, hsizes, hupdated, hspread, hstored]
  rfl

theorem commit_of_exec_sample : ∃ (s : Transfer.SampleRepaired .ctr) (t' : Manifest),
    commit s.t s.repaired.1 (s.manifest.versionId + 1) = .ok t' ∧
      kvGet s.store (.objects s.manifest.objectId) = some (.manifest t') := by
  obtain ⟨s⟩ := Transfer.exists_sampleRepaired .ctr (by decide +kernel)
  exact ⟨s, commit_of_exec s.stored s.commit⟩

end Commits

section Invariant

/-- What an info says that does not change any more. -/
structure Tells (t : Manifest) (i : FragmentInfo) : Prop where
  objectId : i.objectId = t.objectId
  name : i.recoveryInfo.name = t.name
  chunkSize : t.chunkSizes[i.chunkId]? = some i.recoveryInfo.chunkSize
  objectInfoO : i.recoveryInfo.objectInfoO =
    if i.chunkId = t.fragments.length - 1 then some (objectInfo t t.checksum) else none
  sizes : i.recoveryInfo.fragmentSizes.length = (t.storageScheme.k + t.storageScheme.m).toNat
  checksums : i.recoveryInfo.fragmentChecksums.length = (t.storageScheme.k + t.storageScheme.m).toNat

/-- An info knows the sizes and the checksums of its chunk. -/
def Current (t : Manifest) (i : FragmentInfo) : Prop :=
  ∃ row, t.fragments[i.chunkId]? = some row ∧
    i.recoveryInfo.fragmentSizes = row.map Fragment.len ∧
    i.recoveryInfo.fragmentChecksums = row.map Fragment.crc

/-- No other info of the chunk that is found has a higher version. -/
def Newest (s : History) (i : FragmentInfo) : Prop :=
  ∀ j ∈ s.infos, Located s.manifest j → j.chunkId = i.chunkId → j.versionId.toInt ≤ i.versionId.toInt

/-- The shape of a manifest: all rows are full and have enough fragments with an osd. -/
structure Shaped (t : Manifest) : Prop where
  chunks : 0 < t.fragments.length
  chunkSizes : t.chunkSizes.length = t.fragments.length
  rows : ∀ row ∈ t.fragments, row.length = (t.storageScheme.k + t.storageScheme.m).toNat
  positive : 0 < t.storageScheme.k
  located : ∀ row ∈ t.fragments, t.storageScheme.k ≤ row.countP hasOsd

/-- Every fragment that has an osd has an info, which tells about the object and about itself. -/
structure Recorded (s : History) : Prop where
  shaped : Shaped s.manifest
  versions : ∀ i ∈ s.infos, i.versionId.toInt ≤ s.manifest.versionId.toInt
  written : ∀ c n f d, fragmentAt s.manifest c n = some f → f.osd = some d →
    ∃ i ∈ s.infos, i.chunkId = c ∧ i.fragmentId = n ∧ i.osdId = d ∧ i.versionId = f.ver
  tells : ∀ i ∈ s.infos, Located s.manifest i → Tells s.manifest i
  ctrs : ∀ i ∈ s.infos, Located s.manifest i →
    ∀ f ∈ fragmentAt s.manifest i.chunkId i.fragmentId, i.recoveryInfo.fragmentCtr = f.ctr

/-- The newest infos of every chunk know the chunk. -/
def UpToDate (s : History) : Prop :=
  ∀ i ∈ s.infos, Located s.manifest i → Newest s i → Current s.manifest i

/-- What a repair or a rebalance writes: for every update one info, with the version of the update. -/
structure Writes (t : Manifest) (table : List FragmentUpdate) (versionId : Int32)
    (infos : List FragmentInfo) : Prop where
  osds : ∀ fu ∈ table, ∃ d, fu.osdIdO = some d
  covers : ∀ (c n : Nat) fu d, findUpdate table c n = some fu → fu.osdIdO = some d →
    ∃ i ∈ infos, i.chunkId = c ∧ i.fragmentId = n ∧ i.osdId = d
  versions : ∀ i ∈ infos, i.versionId = versionId
  located : ∀ i ∈ infos, Located (t.updateWith table versionId) i
  updates : ∀ i ∈ infos, ∃ fu, findUpdate table i.chunkId i.fragmentId = some fu ∧
    i.recoveryInfo.fragmentCtr = fu.ctr
  tells : ∀ i ∈ infos, Tells t i

end Invariant

section Step

variable {t : Manifest} {table : List FragmentUpdate} {versionId : Int32}
  {infos : List FragmentInfo} {s : History} {i : FragmentInfo}

theorem Tells.updateWith (h : Tells t i) : Tells (t.updateWith table versionId) i where
  objectId := h.objectId
  name := h.name
  chunkSize := h.chunkSize
  objectInfoO := by
    rw [h.objectInfoO]
    simp [Manifest.updateWith, Layout.mapIndexed, objectInfo]
  sizes := h.sizes
  checksums := h.checksums

theorem updateFragment_osd (hosds : ∀ fu ∈ table, ∃ d, fu.osdIdO = some d) {c n : Nat} {f : Fragment}
    (hf : hasOsd f) : hasOsd (updateFragment table versionId c n f) := by
  unfold updateFragment
  split
  · exact hf
  · rename_i fu hfu
    obtain ⟨d, hd⟩ := hosds fu (mem_of_find?_eq_some hfu)
    simp [hasOsd, hd]

theorem countP_le_countP_mapIdx {α : Type} {p : α → Bool} {g : Nat → α → α}
    (h : ∀ i a, p a → p (g i a)) (l : List α) : l.countP p ≤ (l.mapIdx g).countP p := by
  induction l generalizing g with
  | nil => exact le_rfl
  | cons a l ih =>
    have hrest := ih fun i => h (i + 1)
    rw [mapIdx_cons, countP_cons, countP_cons]
    by_cases ha : p a
    · simpa [ha, h 0 a ha] using hrest
    · simp only [ha, Bool.false_eq_true, if_false]
      omega

theorem Shaped.updateWith (h : Shaped t) (hosds : ∀ fu ∈ table, ∃ d, fu.osdIdO = some d) :
    Shaped (t.updateWith table versionId) := by
  have hrow : ∀ row ∈ (t.updateWith table versionId).fragments, ∃ c, ∃ row₀ ∈ t.fragments,
      row = row₀.mapIdx (updateFragment table versionId c) := by
    intro row hrow
    obtain ⟨c, hc⟩ := mem_iff_getElem?.mp hrow
    rw [row_updateWith] at hc
    obtain ⟨row₀, hrow₀, rfl⟩ := Option.map_eq_some_iff.mp hc
    exact ⟨c, row₀, mem_of_getElem? hrow₀, rfl⟩
  constructor
  case chunks => simpa [Manifest.updateWith, Layout.mapIndexed] using h.chunks
  case chunkSizes => simpa [Manifest.updateWith, Layout.mapIndexed] using h.chunkSizes
  case rows =>
    intro row hr
    obtain ⟨c, row₀, hrow₀, rfl⟩ := hrow row hr
    rw [length_mapIdx]
    exact h.rows row₀ hrow₀
  case positive => exact h.positive
  case located =>
    intro row hr
    obtain ⟨c, row₀, hrow₀, rfl⟩ := hrow row hr
    have hcount : row₀.countP hasOsd ≤ (row₀.mapIdx (updateFragment table versionId c)).countP hasOsd :=
      countP_le_countP_mapIdx (fun n f hf => updateFragment_osd hosds hf) row₀
    exact (h.located row₀ hrow₀).trans (by exact_mod_cast hcount)

theorem located_updateWith (hversion : i.versionId ≠ versionId) :
    Located (t.updateWith table versionId) i ↔
      Located t i ∧ findUpdate table i.chunkId i.fragmentId = none := by
  simp only [Located, fragmentAt_updateWith, Option.map_eq_some_iff]
  constructor
  · rintro ⟨_, ⟨f, hf, rfl⟩, hosd, hver⟩
    unfold updateFragment at hosd hver
    split at hosd
    · rename_i hnone
      rw [hnone] at hver
      exact ⟨⟨f, hf, hosd, hver⟩, hnone⟩
    · rename_i fu hfu
      rw [hfu] at hver
      exact absurd hver.symm hversion
  · rintro ⟨⟨f, hf, hosd, hver⟩, hnone⟩
    refine ⟨_, ⟨f, hf, rfl⟩, ?_⟩
    unfold updateFragment
    rw [hnone]
    exact ⟨hosd, hver⟩

theorem row_of_sizes_kept (versionId : Int32) {c : Nat}
    (h : ∀ n fu, findUpdate table c n = some fu → fu.sizeChange = none) (row : List Fragment) :
    (row.mapIdx (updateFragment table versionId c)).map Fragment.len = row.map Fragment.len ∧
      (row.mapIdx (updateFragment table versionId c)).map Fragment.crc = row.map Fragment.crc := by
  have hall : ∀ n f, (updateFragment table versionId c n f).len = f.len ∧
      (updateFragment table versionId c n f).crc = f.crc := by
    intro n f
    cases hfind : findUpdate table c n with
    | none => simp [updateFragment, hfind]
    | some fu => simp [updateFragment, hfind, h n fu hfind]
  constructor
  · refine ext_getElem (by simp) fun n _ _ => ?_
    simp [hall]
  · refine ext_getElem (by simp) fun n _ _ => ?_
    simp [hall]

theorem Current.updateWith (hi : Current t i) (h : ∀ n, findUpdate table i.chunkId n = none) :
    Current (t.updateWith table versionId) i := by
  obtain ⟨row, hrow, hsizes, hchecksums⟩ := hi
  obtain ⟨hlen, hcrc⟩ := row_of_sizes_kept versionId (fun n fu hfu => by rw [h n] at hfu; cases hfu) row
  refine ⟨_, by rw [row_updateWith, hrow]; rfl, ?_, ?_⟩
  · rw [hlen, hsizes]
  · rw [hcrc, hchecksums]

theorem Recorded.ne_version (h : Recorded s)
    (hversion : versionId.toInt = s.manifest.versionId.toInt + 1) (hi : i ∈ s.infos) :
    i.versionId ≠ versionId := by
  intro heq
  have := h.versions i hi
  rw [heq] at this
  omega

theorem Recorded.commit (h : Recorded s) (hwrites : Writes s.manifest table versionId infos)
    (hversion : versionId.toInt = s.manifest.versionId.toInt + 1) :
    Recorded ⟨s.manifest.updateWith table versionId, s.infos ++ infos⟩ := by
  constructor
  case shaped => exact h.shaped.updateWith hwrites.osds
  case versions =>
    intro i hi
    rcases mem_append.mp hi with hi | hi
    · have := h.versions i hi
      simp only [Manifest.updateWith]
      omega
    · rw [hwrites.versions i hi]
      rfl
  case written =>
    intro c n f' d hf' hd
    rw [fragmentAt_updateWith] at hf'
    obtain ⟨f, hf, rfl⟩ := Option.map_eq_some_iff.mp hf'
    unfold updateFragment at hd ⊢
    cases hfind : findUpdate table c n with
    | none =>
      simp only [hfind] at hd ⊢
      obtain ⟨i, hi, hinfo⟩ := h.written c n f d hf hd
      exact ⟨i, mem_append_left _ hi, hinfo⟩
    | some fu =>
      simp only [hfind] at hd ⊢
      obtain ⟨i, hi, hc, hn, hosd⟩ := hwrites.covers c n fu d hfind hd
      exact ⟨i, mem_append_right _ hi, hc, hn, hosd, hwrites.versions i hi⟩
  case tells =>
    intro i hi hlocated
    rcases mem_append.mp hi with hi | hi
    · exact (h.tells i hi ((located_updateWith (h.ne_version hversion hi)).mp hlocated).1).updateWith
    · exact (hwrites.tells i hi).updateWith
  case ctrs =>
    intro i hi hlocated f' hf'
    rw [fragmentAt_updateWith] at hf'
    obtain ⟨f, hf, rfl⟩ := Option.map_eq_some_iff.mp hf'
    rcases mem_append.mp hi with hi | hi
    · obtain ⟨hbefore, hnone⟩ := (located_updateWith (h.ne_version hversion hi)).mp hlocated
      simp only [updateFragment, hnone]
      exact h.ctrs i hi hbefore f hf
    · obtain ⟨fu, hfu, hctr⟩ := hwrites.updates i hi
      simp only [updateFragment, hfu]
      exact hctr

theorem UpToDate.commit (hnew : UpToDate s) (h : Recorded s)
    (hwrites : Writes s.manifest table versionId infos)
    (hversion : versionId.toInt = s.manifest.versionId.toInt + 1)
    (hcurrent : ∀ i ∈ infos, Current (s.manifest.updateWith table versionId) i) :
    UpToDate ⟨s.manifest.updateWith table versionId, s.infos ++ infos⟩ := by
  intro i hi hlocated hnewest
  rcases mem_append.mp hi with hi | hi
  · obtain ⟨hbefore, -⟩ := (located_updateWith (h.ne_version hversion hi)).mp hlocated
    -- an update of the chunk would have left an info with a higher version
    have hnone : ∀ n, findUpdate table i.chunkId n = none := by
      intro n
      by_contra hsome
      obtain ⟨fu, hfu⟩ := Option.ne_none_iff_exists'.mp hsome
      obtain ⟨d, hd⟩ := hwrites.osds fu (mem_of_find?_eq_some hfu)
      obtain ⟨j, hj, hchunk, -⟩ := hwrites.covers i.chunkId n fu d hfu hd
      have hle := hnewest j (mem_append_right _ hj) (hwrites.located j hj) hchunk
      have := h.versions i hi
      rw [hwrites.versions j hj] at hle
      omega
    refine (hnew i hi hbefore fun j hj hjlocated hchunk => ?_).updateWith hnone
    refine hnewest j (mem_append_left _ hj) ?_ hchunk
    exact (located_updateWith (h.ne_version hversion hj)).mpr ⟨hjlocated, hchunk ▸ hnone j.fragmentId⟩
  · exact hcurrent i hi

end Step

section Maintenance

variable {t : Manifest} {fus table : List FragmentUpdate} {versionId : Int32} {s : History}
  {repacked : List Repacked} {r : Repacked} {infos : List FragmentInfo} {row : List Fragment}
  {a : Maintenance} {s' : History}

theorem nthExn_natCast {α : Type} {l : List α} {n : Nat} {a : α} :
    nthExn l n = .ok a ↔ l[n]? = some a := by
  simp [nthExn_eq_ok]

theorem findUpdate_mem (htable : fragmentTable fus = .ok table) {c n : Nat} {fu : FragmentUpdate}
    (h : findUpdate table c n = some fu) : fu ∈ fus ∧ fu.index = ((c : Int), (n : Int)) := by
  obtain ⟨rfl, -⟩ := fragmentTable_eq htable
  exact ⟨mem_reverse.mp (mem_of_find?_eq_some h), by simpa using find?_some h⟩

/-- One fragment that was uploaded again: its update and its info. -/
structure Written (t : Manifest) (versionId : Int32) (fu : FragmentUpdate) (i : FragmentInfo) : Prop where
  index : fu.index = ((i.chunkId : Int), (i.fragmentId : Int))
  osdIdO : fu.osdIdO = some i.osdId
  ctr : i.recoveryInfo.fragmentCtr = fu.ctr
  versionId : i.versionId = versionId
  tells : Tells t i
  fragment : ∃ f, fragmentAt t i.chunkId i.fragmentId = some f

theorem writes_of (htable : fragmentTable fus = .ok table)
    (hfus : ∀ fu ∈ fus, ∃ i ∈ infos, Written t versionId fu i)
    (hinfos : ∀ i ∈ infos, ∃ fu ∈ fus, Written t versionId fu i) : Writes t table versionId infos := by
  have hfind : ∀ i ∈ infos, ∃ fu, findUpdate table i.chunkId i.fragmentId = some fu ∧
      Written t versionId fu i := by
    intro i hi
    obtain ⟨fu, hfu, hwritten⟩ := hinfos i hi
    exact ⟨fu, findUpdate_of_mem htable hfu hwritten.index, hwritten⟩
  constructor
  case osds =>
    intro fu hfu
    obtain ⟨rfl, -⟩ := fragmentTable_eq htable
    obtain ⟨i, _, hwritten⟩ := hfus fu (mem_reverse.mp hfu)
    exact ⟨i.osdId, hwritten.osdIdO⟩
  case covers =>
    intro c n fu d hfu hd
    obtain ⟨hmem, hindex⟩ := findUpdate_mem htable hfu
    obtain ⟨i, hi, hwritten⟩ := hfus fu hmem
    have hplace := hwritten.index.symm.trans hindex
    simp only [Prod.mk.injEq, Nat.cast_inj] at hplace
    exact ⟨i, hi, hplace.1, hplace.2, Option.some.inj (hwritten.osdIdO.symm.trans hd)⟩
  case versions =>
    intro i hi
    obtain ⟨_, _, hwritten⟩ := hfind i hi
    exact hwritten.versionId
  case located =>
    intro i hi
    obtain ⟨fu, hfu, hwritten⟩ := hfind i hi
    obtain ⟨f, hf⟩ := hwritten.fragment
    refine ⟨_, by rw [fragmentAt_updateWith, hf]; rfl, ?_⟩
    simp [updateFragment, hfu, hwritten.osdIdO, hwritten.versionId]
  case updates =>
    intro i hi
    obtain ⟨fu, hfu, hwritten⟩ := hfind i hi
    exact ⟨fu, hfu, hwritten.ctr⟩
  case tells =>
    intro i hi
    obtain ⟨_, _, hwritten⟩ := hfind i hi
    exact hwritten.tells

theorem repairedInfo_eq_ok {i : FragmentInfo} (h : repairedInfo t versionId r = .ok i) :
    ∃ row chunkSize, r.fragmentId < (t.storageScheme.k + t.storageScheme.m).toNat ∧
      t.fragments[r.chunkId]? = some row ∧ t.chunkSizes[r.chunkId]? = some chunkSize ∧
      i = { objectId := t.objectId, chunkId := r.chunkId, fragmentId := r.fragmentId, versionId
            osdId := r.osdId
            recoveryInfo := recoveryInfo t t.checksum r.chunkId chunkSize
              ((row.map Fragment.len).set r.fragmentId r.packedSize)
              ((row.map Fragment.crc).set r.fragmentId r.checksum) r.ctr } := by
  simp only [repairedInfo, bind_eq_ok, check_eq_ok, nthExn_natCast] at h
  obtain ⟨_, hbound, row, hrow, chunkSize, hsize, h⟩ := h
  cases h
  exact ⟨row, chunkSize, hbound, hrow, hsize, rfl⟩

section

variable (htable : fragmentTable (repacked.map Repacked.update) = .ok table)
include htable

theorem mem_updates {c n : Nat} {fu : FragmentUpdate} (h : findUpdate table c n = some fu) :
    ∃ r ∈ repacked, fu = r.update ∧ r.chunkId = c ∧ r.fragmentId = n := by
  obtain ⟨hmem, hindex⟩ := findUpdate_mem htable h
  obtain ⟨r, hr, rfl⟩ := mem_map.mp hmem
  simp only [FragmentUpdate.index, Repacked.update, Prod.mk.injEq, Nat.cast_inj] at hindex
  exact ⟨r, hr, rfl, hindex.1, hindex.2⟩

theorem findUpdate_repacked (hr : r ∈ repacked) : findUpdate table r.chunkId r.fragmentId = some r.update :=
  findUpdate_of_mem htable (mem_map_of_mem hr) rfl

theorem updated_row (hrow : t.fragments[r.chunkId]? = some row) (hr : r ∈ repacked)
    (hothers : ∀ r' ∈ repacked, r.chunkId = r'.chunkId → r.fragmentId ≠ r'.fragmentId →
      r'.Unchanged t) :
    (row.map Fragment.len).set r.fragmentId r.packedSize =
        (row.mapIdx (updateFragment table versionId r.chunkId)).map Fragment.len ∧
      (row.map Fragment.crc).set r.fragmentId r.checksum =
        (row.mapIdx (updateFragment table versionId r.chunkId)).map Fragment.crc := by
  have hall : ∀ (n : Nat) (hn : n < row.length),
      (updateFragment table versionId r.chunkId n row[n]).len =
          (if r.fragmentId = n then r.packedSize else row[n].len) ∧
        (updateFragment table versionId r.chunkId n row[n]).crc =
          if r.fragmentId = n then r.checksum else row[n].crc := by
    intro n hn
    by_cases heq : r.fragmentId = n
    · subst heq
      simp [updateFragment, findUpdate_repacked htable hr, Repacked.update]
    · cases hfind : findUpdate table r.chunkId n with
      | none => simp [updateFragment, hfind, heq]
      | some fu =>
        obtain ⟨r', hr', rfl, hc, rfl⟩ := mem_updates htable hfind
        have hf : fragmentAt t r'.chunkId r'.fragmentId = some row[r'.fragmentId] :=
          fragmentAt_eq_some.mpr ⟨row, hc ▸ hrow, getElem?_eq_getElem hn⟩
        obtain ⟨hlen, hcrc⟩ := hothers r' hr' hc.symm heq _ hf
        simp [updateFragment, hfind, heq, Repacked.update, hlen, hcrc]
  constructor
  · refine ext_getElem (by simp) fun n hn _ => ?_
    have hlt : n < row.length := by simpa using hn
    simp [getElem_set, (hall n hlt).1]
  · refine ext_getElem (by simp) fun n hn _ => ?_
    have hlt : n < row.length := by simpa using hn
    simp [getElem_set, (hall n hlt).2]

end

theorem written_of_repairedInfo {i : FragmentInfo} (hshaped : Shaped t)
    (h : repairedInfo t versionId r = .ok i) : Written t versionId r.update i := by
  obtain ⟨row, chunkSize, hbound, hrow, hsize, rfl⟩ := repairedInfo_eq_ok h
  have hlength := hshaped.rows row (mem_of_getElem? hrow)
  refine ⟨rfl, rfl, rfl, rfl, ⟨rfl, rfl, hsize, rfl, ?_, ?_⟩, ?_⟩
  · simpa [recoveryInfo] using hlength
  · simpa [recoveryInfo] using hlength
  · have hlt : r.fragmentId < row.length := hlength ▸ hbound
    exact ⟨row[r.fragmentId], fragmentAt_eq_some.mpr ⟨row, hrow, getElem?_eq_getElem hlt⟩⟩

theorem writes_repair (hshaped : Shaped t)
    (hinfos : repacked.mapM (repairedInfo t versionId) = .ok infos)
    (htable : fragmentTable (repacked.map Repacked.update) = .ok table) :
    Writes t table versionId infos := by
  obtain ⟨hfrom, hto⟩ := mapM_mem hinfos
  refine writes_of htable (fun fu hfu => ?_) fun i hi => ?_
  · obtain ⟨r, hr, rfl⟩ := mem_map.mp hfu
    obtain ⟨i, hi, hinfo⟩ := hto r hr
    exact ⟨i, hi, written_of_repairedInfo hshaped hinfo⟩
  · obtain ⟨r, hr, hinfo⟩ := hfrom i hi
    exact ⟨r.update, mem_map_of_mem hr, written_of_repairedInfo hshaped hinfo⟩

theorem current_repair (hinfos : repacked.mapM (repairedInfo t versionId) = .ok infos)
    (htable : fragmentTable (repacked.map Repacked.update) = .ok table)
    (hseparate : ∀ r ∈ repacked, ∀ r' ∈ repacked, r.chunkId = r'.chunkId →
      r.fragmentId ≠ r'.fragmentId → r'.Unchanged t) :
    ∀ i ∈ infos, Current (t.updateWith table versionId) i := by
  intro i hi
  obtain ⟨r, hr, hinfo⟩ := (mapM_mem hinfos).1 i hi
  obtain ⟨row, _, _, hrow, _, rfl⟩ := repairedInfo_eq_ok hinfo
  obtain ⟨hlen, hcrc⟩ := updated_row htable hrow hr (hseparate r hr)
  exact ⟨_, by rw [row_updateWith, hrow]; rfl, hlen, hcrc⟩

theorem rebalanceChunk_eq_ok {sourceOsd targetOsd : OsdId} {c : Nat} {w : FragmentUpdate × FragmentInfo}
    (h : rebalanceChunk t versionId sourceOsd targetOsd (row, c) = .ok w) :
    ∃ (f : Fragment) (n : Nat) (chunkSize : Int), row[n]? = some f ∧
      t.chunkSizes[c]? = some chunkSize ∧
      w.1 = { chunkId := c, fragmentId := n, osdIdO := some targetOsd, sizeChange := none
              ctr := f.ctr, fnr := none } ∧
      w.2 = { objectId := t.objectId, chunkId := c, fragmentId := n, versionId, osdId := targetOsd
              recoveryInfo := recoveryInfo t t.checksum c chunkSize (row.map Fragment.len)
                (row.map Fragment.crc) f.ctr } := by
  simp only [rebalanceChunk, sourceFragment, bind_eq_ok, nthExn_natCast] at h
  obtain ⟨⟨f, n⟩, hsource, chunkSize, hsize, h⟩ := h
  cases h
  cases hfind : row.zipIdx.find? fun f => f.1.osd = some sourceOsd with
  | none =>
    rw [hfind] at hsource
    cases hsource
  | some e =>
    rw [hfind] at hsource
    cases hsource
    have hn := mk_mem_zipIdx_iff_getElem?.mp (mem_of_find?_eq_some hfind)
    exact ⟨f, n, chunkSize, hn, hsize, rfl, rfl⟩

theorem written_of_rebalanceChunk {sourceOsd targetOsd : OsdId} {c : Nat}
    {w : FragmentUpdate × FragmentInfo} (hshaped : Shaped t) (hrow : t.fragments[c]? = some row)
    (h : rebalanceChunk t versionId sourceOsd targetOsd (row, c) = .ok w) :
    Written t versionId w.1 w.2 := by
  obtain ⟨f, n, chunkSize, hf, hsize, hfu, hi⟩ := rebalanceChunk_eq_ok h
  have hlength := hshaped.rows row (mem_of_getElem? hrow)
  rw [hfu, hi]
  refine ⟨rfl, rfl, rfl, rfl, ⟨rfl, rfl, hsize, rfl, ?_, ?_⟩, f, ?_⟩
  · simpa [recoveryInfo] using hlength
  · simpa [recoveryInfo] using hlength
  · exact fragmentAt_eq_some.mpr ⟨row, hrow, hf⟩

section Rebalance

variable {sourceOsd targetOsd : OsdId} {moved : List (FragmentUpdate × FragmentInfo)}

theorem mem_moved
    (hmoved : t.fragments.zipIdx.mapM (rebalanceChunk t versionId sourceOsd targetOsd) = .ok moved)
    {w : FragmentUpdate × FragmentInfo} (hw : w ∈ moved) :
    ∃ c row, t.fragments[c]? = some row ∧
      rebalanceChunk t versionId sourceOsd targetOsd (row, c) = .ok w := by
  obtain ⟨⟨row, c⟩, hmem, hchunk⟩ := (mapM_mem hmoved).1 w hw
  exact ⟨c, row, mk_mem_zipIdx_iff_getElem?.mp hmem, hchunk⟩

theorem writes_rebalance (hshaped : Shaped t)
    (hmoved : t.fragments.zipIdx.mapM (rebalanceChunk t versionId sourceOsd targetOsd) = .ok moved)
    (htable : fragmentTable (moved.map Prod.fst) = .ok table) :
    Writes t table versionId (moved.map Prod.snd) := by
  have hwritten : ∀ w ∈ moved, Written t versionId w.1 w.2 := fun w hw => by
    obtain ⟨c, row, hrow, hchunk⟩ := mem_moved hmoved hw
    exact written_of_rebalanceChunk hshaped hrow hchunk
  refine writes_of htable (fun fu hfu => ?_) fun i hi => ?_
  · obtain ⟨w, hw, rfl⟩ := mem_map.mp hfu
    exact ⟨w.2, mem_map_of_mem hw, hwritten w hw⟩
  · obtain ⟨w, hw, rfl⟩ := mem_map.mp hi
    exact ⟨w.1, mem_map_of_mem hw, hwritten w hw⟩

theorem current_rebalance
    (hmoved : t.fragments.zipIdx.mapM (rebalanceChunk t versionId sourceOsd targetOsd) = .ok moved)
    (htable : fragmentTable (moved.map Prod.fst) = .ok table) :
    ∀ i ∈ moved.map Prod.snd, Current (t.updateWith table versionId) i := by
  have hsizes : ∀ c n fu, findUpdate table c n = some fu → fu.sizeChange = none := by
    intro c n fu hfu
    obtain ⟨w, hw, rfl⟩ := mem_map.mp (findUpdate_mem htable hfu).1
    obtain ⟨c, row, _, hchunk⟩ := mem_moved hmoved hw
    obtain ⟨_, _, _, _, _, hupdate, _⟩ := rebalanceChunk_eq_ok hchunk
    rw [hupdate]
  intro i hi
  obtain ⟨w, hw, rfl⟩ := mem_map.mp hi
  obtain ⟨c, row, hrow, hchunk⟩ := mem_moved hmoved hw
  obtain ⟨_, _, _, _, _, _, hinfo⟩ := rebalanceChunk_eq_ok hchunk
  rw [hinfo]
  obtain ⟨hlen, hcrc⟩ := row_of_sizes_kept versionId (hsizes c) row
  exact ⟨_, by rw [row_updateWith, hrow]; rfl, hlen.symm, hcrc.symm⟩

end Rebalance

theorem toOption_eq_some {ε α : Type} {x : Except ε α} {a : α} (h : x.toOption = some a) :
    x = .ok a := by
  cases x with
  | error e => cases h
  | ok b =>
    cases h
    rfl

theorem exec_cases (hshaped : Shaped s.manifest) (hstep : s.exec a = some s') :
    ∃ table infos, Writes s.manifest table (s.manifest.versionId + 1) infos ∧
      (s.manifest.versionId + 1).toInt = s.manifest.versionId.toInt + 1 ∧
      s' = ⟨s.manifest.updateWith table (s.manifest.versionId + 1), s.infos ++ infos⟩ ∧
      (Separate s a → ∀ i ∈ infos,
        Current (s.manifest.updateWith table (s.manifest.versionId + 1)) i) := by
  have hok : s.tryExec a = .ok s' := toOption_eq_some hstep
  simp only [History.tryExec, bind_eq_ok] at hok
  obtain ⟨⟨fus, infos⟩, hmaintain, t', hcommit, hs'⟩ := hok
  cases hs'
  obtain ⟨table, htable, rfl, hversion⟩ := commit_eq_ok hcommit
  have hsucc : (s.manifest.versionId + 1).toInt = s.manifest.versionId.toInt + 1 := by
    rcases hversion with ⟨hzero, hzero'⟩ | ⟨_, hsucc⟩
    · rw [hzero'] at hzero
      exact absurd hzero (by decide)
    · exact hsucc
  cases a with
  | repair repacked =>
    obtain ⟨infos', hinfos, hpair⟩ := bind_eq_ok.mp hmaintain
    cases hpair
    exact ⟨table, infos, writes_repair hshaped hinfos htable, hsucc, rfl, current_repair hinfos htable⟩
  | rebalance sourceOsd targetOsd =>
    simp only [maintain, bind_eq_ok] at hmaintain
    obtain ⟨_, _, moved, hmoved, hpair⟩ := hmaintain
    cases hpair
    exact ⟨table, _, writes_rebalance hshaped hmoved htable, hsucc, rfl,
      fun _ => current_rebalance hmoved htable⟩

theorem Recorded.step (h : Recorded s) (hstep : s.exec a = some s') : Recorded s' := by
  obtain ⟨table, infos, hwrites, hversion, rfl, _⟩ := exec_cases h.shaped hstep
  exact h.commit hwrites hversion

theorem UpToDate.step (hnew : UpToDate s) (h : Recorded s) (hseparate : Separate s a)
    (hstep : s.exec a = some s') : UpToDate s' := by
  obtain ⟨table, infos, hwrites, hversion, rfl, hcurrent⟩ := exec_cases h.shaped hstep
  exact hnew.commit h hwrites hversion (hcurrent hseparate)

theorem recorded_run {actions : List Maintenance} (h : Recorded s) (hnew : UpToDate s)
    (hseparate : AllSteps History.exec Separate s actions) :
    Recorded (run History.exec s actions) ∧ UpToDate (run History.exec s actions) :=
  run_invariant_of (P := fun s => Recorded s ∧ UpToDate s)
    (fun _ _ _ hs ha hstep => ⟨hs.1.step hstep, hs.2.step hs.1 ha hstep⟩) ⟨h, hnew⟩ hseparate

end Maintenance

section Uploads

variable {u : Upload} {objectHash : Checksum} {t : Manifest}

theorem Uploaded.hash_eq (h : Uploaded u objectHash t) (hkept : HashKept u) : objectHash = t.checksum := by
  obtain ⟨algo, halgo, hhash⟩ := h.algo
  have hchecksum := h.checksum
  unfold manifestChecksum at hchecksum
  unfold objectChecksumAlgo at halgo
  cases hgiven : u.checksumO with
  | none =>
    rw [hgiven] at hchecksum
    cases hchecksum
    rfl
  | some checksum =>
    simp only [hgiven, bind_eq_ok, check_eq_ok] at hchecksum halgo
    obtain ⟨_, hverified, hsame⟩ := hchecksum
    obtain ⟨_, _, halgo⟩ := halgo
    cases hsame
    by_cases hverify : u.objectChecksum.verifyUpload
    · by_contra hne
      exact hverified ⟨hverify, fun heq => hne heq.symm⟩
    · have hnone : t.checksum = .noChecksum := by
        rcases hkept with hkept | hkept | hkept
        · simp [hgiven] at hkept
        · exact absurd hkept hverify
        · simpa [hgiven] using hkept
      rw [if_neg hverify] at halgo
      cases halgo
      rw [hnone]
      cases objectHash with
      | noChecksum => rfl
      | sha1 digest => cases hhash
      | crc32c digest => cases hhash

theorem mem_uploaded {i : FragmentInfo} :
    i ∈ (History.uploaded t objectHash).infos ↔ ∃ c n f d, fragmentAt t c n = some f ∧ f.osd = some d ∧
      i = uploadedInfo t objectHash c n f d := by
  simp only [History.uploaded, mem_filterMap, Prod.exists, mem_cells, Option.map_eq_some_iff,
    fragmentAt_eq_some]
  constructor
  · rintro ⟨c, n, f, hf, d, hd, rfl⟩
    exact ⟨c, n, f, d, hf, hd, rfl⟩
  · rintro ⟨c, n, f, d, hf, hd, rfl⟩
    exact ⟨c, n, f, hf, d, hd, rfl⟩

theorem Uploaded.recorded (h : Uploaded u objectHash t) (hkept : HashKept u) :
    Recorded (.uploaded t objectHash) := by
  have hhash := h.hash_eq hkept
  have hversion : ∀ c n f, fragmentAt t c n = some f → f.ver = 0 := by
    intro c n f hf
    obtain ⟨row, hrow, hf⟩ := fragmentAt_eq_some.mp hf
    exact h.versions row (mem_of_getElem? hrow) f (mem_of_getElem? hf)
  constructor
  case shaped => exact ⟨h.chunks, h.chunkSizes, h.rows, h.positive, h.located⟩
  case versions =>
    intro i hi
    obtain ⟨c, n, f, d, hf, _, rfl⟩ := mem_uploaded.mp hi
    rw [show (History.uploaded t objectHash).manifest = t from rfl, h.versionId]
    exact (congrArg Int32.toInt (hversion c n f hf)).le
  case written =>
    intro c n f d hf hd
    exact ⟨uploadedInfo t objectHash c n f d, mem_uploaded.mpr ⟨c, n, f, d, hf, hd, rfl⟩, rfl, rfl, rfl,
      rfl⟩
  case tells =>
    intro i hi _
    obtain ⟨c, n, f, d, hf, _, rfl⟩ := mem_uploaded.mp hi
    obtain ⟨row, hrow, _⟩ := fragmentAt_eq_some.mp hf
    have hlength := h.rows row (mem_of_getElem? hrow)
    have hlt : c < t.chunkSizes.length := h.chunkSizes ▸ (List.getElem?_eq_some_iff.mp hrow).1
    refine ⟨rfl, rfl, ?_, ?_, ?_, ?_⟩
    · simp [uploadedInfo, recoveryInfo, History.uploaded, getElem?_eq_getElem hlt]
    · simp [uploadedInfo, recoveryInfo, hhash, History.uploaded]
    · simpa [uploadedInfo, recoveryInfo, hrow, History.uploaded] using hlength
    · simpa [uploadedInfo, recoveryInfo, hrow, History.uploaded] using hlength
  case ctrs =>
    intro i hi _ f' hf'
    obtain ⟨c, n, f, d, hf, _, rfl⟩ := mem_uploaded.mp hi
    cases hf.symm.trans hf'
    rfl

theorem upToDate_uploaded (t : Manifest) (objectHash : Checksum) : UpToDate (.uploaded t objectHash) := by
  intro i hi _ _
  obtain ⟨c, n, f, d, hf, _, rfl⟩ := mem_uploaded.mp hi
  obtain ⟨row, hrow, _⟩ := fragmentAt_eq_some.mp hf
  refine ⟨row, hrow, ?_, ?_⟩
  · simp [uploadedInfo, recoveryInfo, hrow]
  · simp [uploadedInfo, recoveryInfo, hrow]

/-- How an uploaded manifest is registered: the fragments whose upload was still going on get their osd
afterwards, with the same version. -/
structure RegisteredLate (manifest : Transfer.Manifest) (t : Manifest) : Prop where
  checksum : t.checksum = manifest.checksum
  versionId : t.versionId = manifest.versionId
  scheme : t.storageScheme.k = manifest.k ∧ t.storageScheme.m = manifest.m
  chunkSizes : t.chunkSizes = manifest.chunkSizes.map Int.ofNat
  fragments : List.Forall₂ (List.Forall₂ fun f f' => f'.ver = f.ver ∧ (hasOsd f → hasOsd f'))
    manifest.fragments t.fragments

theorem countP_le_of_forall₂ {l l' : List Fragment}
    (h : List.Forall₂ (fun f f' => f'.ver = f.ver ∧ (hasOsd f → hasOsd f')) l l') :
    l.countP hasOsd ≤ l'.countP hasOsd := by
  induction h with
  | nil => exact le_rfl
  | @cons f f' _ _ hf _ ih =>
    rw [countP_cons, countP_cons]
    by_cases ha : hasOsd f
    · simpa [ha, hf.2 ha] using ih
    · simp only [ha, Bool.false_eq_true, if_false]
      omega

/-- An upload under a policy that asks for at least `k` fragments. -/
theorem uploaded_of_uploadObject {c : Transfer.Codec} {k m : Nat} {e : Transfer.Erasure k m}
    {osds osds' : Transfer.Osds} {data : Bytes} {manifest : Transfer.Manifest} (hk : 1 ≤ k)
    (hsize : if k = 1 then 1 ≤ u.maxFragmentSize else Transfer.fragmentMultiple ≤ u.maxFragmentSize)
    (hcount : (k : Int) ≤ u.minFragmentCount)
    (h : Transfer.uploadObject c e u osds data = .ok (manifest, osds'))
    (hregistered : RegisteredLate manifest t) : ∃ objectHash, Uploaded u objectHash t := by
  obtain ⟨chunks, stored, cut, _, _⟩ := Transfer.uploadObject_ok hk hsize h
  simp only [Transfer.uploadObject, bind_eq_ok, Transfer.raising_eq_ok] at h
  obtain ⟨algo, halgo, _, _, p, _, checksum, hchecksum, h⟩ := h
  cases h
  have hlength : t.fragments.length = chunks.length :=
    hregistered.fragments.length_eq.symm.trans stored.fragments
  have hrow : ∀ row' ∈ t.fragments, ∃ row, row.length = k + m ∧ (∀ f ∈ row, f.ver = 0) ∧
      u.minFragmentCount.toNat ≤ row.countP hasOsd ∧
      List.Forall₂ (fun f f' => f'.ver = f.ver ∧ (hasOsd f → hasOsd f')) row row' := by
    intro row' hrow'
    obtain ⟨j, hj, rfl⟩ := mem_iff_getElem.mp hrow'
    obtain ⟨heq, hget⟩ := forall₂_iff_get.mp hregistered.fragments
    have hj' := heq ▸ hj
    have hchunk : j < chunks.length := hlength ▸ hj
    have hstored := stored.stored j _ _ (getElem?_eq_getElem hchunk) (getElem?_eq_getElem hj')
    exact ⟨_, hstored.length, hstored.version, stored.located _ (getElem_mem hj'), hget j hj' hj⟩
  have hscheme : t.storageScheme.k = k ∧ t.storageScheme.m = m := hregistered.scheme
  refine ⟨c.hash algo p.hashed, ⟨algo, halgo, c.algoOf_hash algo _⟩, ?_, hregistered.versionId, ?_, ?_, ?_,
    ?_, ?_, ?_⟩
  · rw [hchecksum, hregistered.checksum]
  · intro row' hrow' f' hf'
    obtain ⟨row, _, hversion, _, hall⟩ := hrow row' hrow'
    obtain ⟨n, hn, rfl⟩ := mem_iff_getElem.mp hf'
    obtain ⟨heq, hget⟩ := forall₂_iff_get.mp hall
    have hn' := heq ▸ hn
    exact (hget n hn' hn).1.trans (hversion _ (getElem_mem hn'))
  · obtain ⟨whole, rest, padding, hcut, _⟩ := cut.bytes
    rw [hlength, hcut]
    simp
  · rw [hregistered.chunkSizes, hlength, stored.chunkSizes]
    simp
  · intro row' hrow'
    obtain ⟨row, hwidth, _, _, hall⟩ := hrow row' hrow'
    rw [hscheme.1, hscheme.2, ← hall.length_eq, hwidth]
    omega
  · omega
  · intro row' hrow'
    obtain ⟨row, _, _, hlocated, hall⟩ := hrow row' hrow'
    have := countP_le_of_forall₂ hall
    omega

end Uploads

section Recovery

variable {s : History} {acc : List FragmentInfo}

theorem mem_scanned {i : FragmentInfo} : i ∈ s.scanned ↔ i ∈ s.infos ∧ Located s.manifest i := by
  simp [History.scanned]

theorem Recorded.scanned_of_located (h : Recorded s) {c n : Nat} {f : Fragment} {d : OsdId}
    (hf : fragmentAt s.manifest c n = some f) (hd : f.osd = some d) :
    ∃ i ∈ s.scanned, i.chunkId = c ∧ i.fragmentId = n := by
  obtain ⟨i, hi, rfl, rfl, rfl, hver⟩ := h.written c n f d hf hd
  exact ⟨i, mem_scanned.mpr ⟨hi, f, hf, hd, hver.symm⟩, rfl, rfl⟩

theorem exists_places {α : Type} (p : α → Bool) (l : List α) :
    ∃ places : List Nat, places.Nodup ∧ places.length = l.countP p ∧
      ∀ n ∈ places, ∃ a, l[n]? = some a ∧ p a := by
  refine ⟨(l.zipIdx.filter fun e => p e.1).map Prod.snd, ?_, ?_, fun n hn => ?_⟩
  · have hall : (l.zipIdx.map Prod.snd).Nodup := by
      rw [zipIdx_map_snd]
      exact nodup_range'
    exact hall.sublist (filter_sublist.map Prod.snd)
  · have hfst : l.countP p = (l.zipIdx.map Prod.fst).countP p := by rw [zipIdx_map_fst]
    rw [length_map, hfst, countP_map, countP_eq_length_filter]
    rfl
  · obtain ⟨⟨a, n⟩, he, rfl⟩ := mem_map.mp hn
    obtain ⟨hmem, ha⟩ := mem_filter.mp he
    exact ⟨a, mk_mem_zipIdx_iff_getElem?.mp hmem, ha⟩

theorem Recorded.enough (h : Recorded s) (hacc : ∀ i, i ∈ acc ↔ i ∈ s.scanned) {c : Nat}
    {row : List Fragment} (hrow : s.manifest.fragments[c]? = some row) :
    row.countP hasOsd ≤
      fragmentCount acc (s.manifest.storageScheme.k + s.manifest.storageScheme.m).toNat c := by
  obtain ⟨places, hnodup, hlength, hplaces⟩ := exists_places hasOsd row
  rw [← hlength, ← toFinset_card_of_nodup hnodup]
  refine Finset.card_le_card fun n hn => ?_
  obtain ⟨f, hf, hosd⟩ := hplaces n (mem_toFinset.mp hn)
  obtain ⟨d, hd⟩ := Option.isSome_iff_exists.mp hosd
  obtain ⟨i, hi, hc, rfl⟩ := h.scanned_of_located (fragmentAt_eq_some.mpr ⟨row, hrow, hf⟩) hd
  have hlt := (List.getElem?_eq_some_iff.mp hf).1
  rw [h.shaped.rows row (mem_of_getElem? hrow)] at hlt
  refine Finset.mem_filter.mpr ⟨mem_toFinset.mpr (mem_map.mpr ⟨i, ?_, rfl⟩), hlt⟩
  exact mem_inChunk.mpr ⟨(hacc i).mpr hi, hc⟩

theorem Recorded.recoverable (h : Recorded s) (hacc : ∀ i, i ∈ acc ↔ i ∈ s.scanned) :
    Recoverable acc s.manifest.fragments.length (objectInfo s.manifest s.manifest.checksum) := by
  have hfound : ∀ i ∈ acc, Located s.manifest i ∧ Tells s.manifest i := by
    intro i hi
    obtain ⟨hmem, hlocated⟩ := mem_scanned.mp ((hacc i).mp hi)
    exact ⟨hlocated, h.tells i hmem hlocated⟩
  constructor
  case complete =>
    intro c
    constructor
    · rintro ⟨i, hi, rfl⟩
      obtain ⟨f, hf, _⟩ := (hfound i hi).1
      obtain ⟨row, hrow, _⟩ := fragmentAt_eq_some.mp hf
      exact (List.getElem?_eq_some_iff.mp hrow).1
    · intro hc
      have hrow := getElem?_eq_getElem hc
      have hlocated := h.shaped.located _ (getElem_mem hc)
      have hpositive := h.shaped.positive
      obtain ⟨f, hf, hosd⟩ := countP_pos_iff.mp
        (by omega : 0 < s.manifest.fragments[c].countP hasOsd)
      obtain ⟨n, hn⟩ := mem_iff_getElem?.mp hf
      obtain ⟨d, hd⟩ := Option.isSome_iff_exists.mp hosd
      obtain ⟨i, hi, hic, _⟩ := h.scanned_of_located (fragmentAt_eq_some.mpr ⟨_, hrow, hn⟩) hd
      exact ⟨i, (hacc i).mpr hi, hic⟩
  case positive => exact h.shaped.chunks
  case last =>
    intro i hi
    obtain ⟨hmem, hlast⟩ := mem_inChunk.mp hi
    rw [(hfound i hmem).2.objectInfoO, if_pos hlast]
  case enough =>
    intro c hc
    have henough := h.enough hacc (getElem?_eq_getElem hc)
    exact (h.shaped.located _ (getElem_mem hc)).trans (by exact_mod_cast henough)
  case sizes => exact fun i hi => (hfound i hi).2.sizes
  case checksums => exact fun i hi => (hfound i hi).2.checksums
  case counted =>
    refine ⟨s.manifest.counted.1, ?_⟩
    have hrow := getElem_mem h.shaped.chunks
    have hcounted := s.manifest.counted.2 _ hrow
    rw [h.shaped.rows _ hrow] at hcounted
    exact hcounted

theorem Recorded.current_top (h : Recorded s) (hnew : UpToDate s) (hacc : ∀ i, i ∈ acc ↔ i ∈ s.scanned) {c : Nat}
    {best : List FragmentInfo} {top : FragmentInfo} (hbest : IsBest (inChunk acc c) best)
    (htop : IsTop best top) : top.chunkId = c ∧ Tells s.manifest top ∧ Current s.manifest top := by
  obtain ⟨hmem, hc⟩ := mem_inChunk.mp (hbest.mem top htop.mem)
  obtain ⟨hinfo, hlocated⟩ := mem_scanned.mp ((hacc top).mp hmem)
  refine ⟨hc, h.tells top hinfo hlocated, hnew top hinfo hlocated fun j hj hjlocated hchunk => ?_⟩
  have hjacc : j ∈ inChunk acc c :=
    mem_inChunk.mpr ⟨(hacc j).mpr (mem_scanned.mpr ⟨hj, hjlocated⟩), hchunk.trans hc⟩
  obtain ⟨g, hg, _, hle⟩ := hbest.best j hjacc
  exact hle.trans (htop.highest g hg)

theorem Recorded.found (h : Recorded s) (hacc : ∀ i, i ∈ acc ↔ i ∈ s.scanned) {c n : Nat}
    {best : List FragmentInfo} (hbest : IsBest (inChunk acc c) best) {f : Fragment}
    (hf : fragmentAt s.manifest c n = some f) (hosd : f.osd.isSome) :
    locationIn best n = (f.osd, f.ver) ∧ ctrIn best n = f.ctr := by
  obtain ⟨d, hd⟩ := Option.isSome_iff_exists.mp hosd
  obtain ⟨i, hi, hc, hn⟩ := h.scanned_of_located hf hd
  have hsome : (findFragment best n).isSome :=
    (findFragment_isSome hbest).mpr ⟨i, mem_inChunk.mpr ⟨(hacc i).mpr hi, hc⟩, hn⟩
  obtain ⟨g, hg⟩ := Option.isSome_iff_exists.mp hsome
  have hgmem := hbest.mem g (mem_of_find?_eq_some hg)
  have hgn : g.fragmentId = n := by simpa using find?_some hg
  obtain ⟨hgacc, hgc⟩ := mem_inChunk.mp hgmem
  obtain ⟨hginfo, hglocated⟩ := mem_scanned.mp ((hacc g).mp hgacc)
  have hctr := h.ctrs g hginfo hglocated f (by rw [hgc, hgn]; exact hf)
  obtain ⟨f', hf', hgosd, hgver⟩ := hglocated
  rw [hgc, hgn, hf] at hf'
  cases hf'
  simp [locationIn, ctrIn, hg, hgosd, hgver, hctr]

theorem Recorded.recovers (h : Recorded s) (hnew : UpToDate s) : s.Recovers := by
  intro order encryptInfo acc hacc
  obtain ⟨rebuilt, x, best, top, hrebuild, hfrom⟩ :=
    rebuild_of_recoverable order encryptInfo (h.recoverable hacc)
  refine ⟨rebuilt, hrebuild, ?_⟩
  have htop : ∀ c < s.manifest.fragments.length, (top c).chunkId = c ∧ Tells s.manifest (top c) ∧
      Current s.manifest (top c) := fun c hc =>
    h.current_top hnew hacc (hfrom.kept c) (hfrom.highest c hc)
  obtain ⟨hxmem, hxlocated⟩ := mem_scanned.mp ((hacc x).mp (mem_inChunk.mp hfrom.last).1)
  have hx := h.tells x hxmem hxlocated
  constructor
  case name => rw [hfrom.name, hx.name]
  case objectId => rw [hfrom.objectId, hx.objectId]
  case storageScheme => exact hfrom.storageScheme
  case size => exact hfrom.size
  case checksum => exact hfrom.checksum
  case chunkSizes =>
    rw [hfrom.chunkSizes]
    refine ext_getElem? fun c => ?_
    by_cases hc : c < s.manifest.fragments.length
    · obtain ⟨hchunk, htells, _⟩ := htop c hc
      have hsize := htells.chunkSize
      rw [hchunk] at hsize
      rw [hsize]
      exact getElem?_map_range.mpr ⟨hc, rfl⟩
    · rw [getElem?_eq_none (by simpa using hc),
        getElem?_eq_none (by rw [h.shaped.chunkSizes]; omega)]
  case fragments =>
    intro c n f hf hosd
    obtain ⟨row, hrow, hn⟩ := fragmentAt_eq_some.mp hf
    have hc : c < s.manifest.fragments.length := (List.getElem?_eq_some_iff.mp hrow).1
    have hnlt := (List.getElem?_eq_some_iff.mp hn).1
    rw [h.shaped.rows row (mem_of_getElem? hrow)] at hnlt
    obtain ⟨hchunk, _, hcurrent⟩ := htop c hc
    obtain ⟨hloc, hctr⟩ := h.found hacc (hfrom.kept c) hf hosd
    have hc' : c < rebuilt.fragments.length := by rw [hfrom.chunks]; exact hc
    have hrow' := getElem?_eq_getElem hc'
    have hn' : n < rebuilt.fragments[c].length := by
      rw [hfrom.rows _ (getElem_mem hc')]
      exact hnlt
    have hf' := getElem?_eq_getElem hn'
    obtain ⟨crc, len, hcrc, hlen, hmake⟩ := hfrom.fragments c n _ _ hrow' hf'
    obtain ⟨row₀, hrow₀, hsizes, hchecksums⟩ := hcurrent
    rw [hchunk, hrow] at hrow₀
    cases hrow₀
    have hlen' : f.len = len := by simpa [hsizes, hn] using hlen
    have hcrc' : f.crc = crc := by simpa [hchecksums, hn] using hcrc
    refine ⟨_, fragmentAt_eq_some.mpr ⟨_, hrow', hf'⟩, ?_⟩
    rw [hmake, hloc, hctr]
    exact ⟨rfl, rfl, hcrc'.symm, hlen'.symm, rfl⟩

end Recovery

/-- In every history in which the hash of the object is its checksum and no repair changes two fragments
of a chunk at once, the recovery gives the lost manifest at any time. -/
theorem recovery_is_faithful {u : Upload} {objectHash : Checksum} {t : Manifest}
    (hupload : Uploaded u objectHash t) (hkept : HashKept u) (actions : List Maintenance)
    (hseparate : AllSteps History.exec Separate (.uploaded t objectHash) actions) :
    (run History.exec (.uploaded t objectHash) actions).Recovers := by
  obtain ⟨hrecorded, hnew⟩ :=
    recorded_run (hupload.recorded hkept) (upToDate_uploaded t objectHash) hseparate
  exact hrecorded.recovers hnew

section Samples

instance (t : Manifest) (r : Repacked) : Decidable (r.Unchanged t) :=
  inferInstanceAs (Decidable (∀ f ∈ fragmentAt t r.chunkId r.fragmentId,
    f.len = r.packedSize ∧ f.crc = r.checksum))

instance (s : History) (a : Maintenance) : Decidable (Separate s a) := by
  unfold Separate
  split <;> infer_instance

def sampleFragmentOn (osdId : OsdId) (crc : BitVec 32) : Fragment :=
  { osd := some osdId, ver := 0, crc := .crc32c crc, len := 4, ctr := none, fnr := none }

def threeCopies : Manifest where
  name := [110]
  objectId := [111]
  storageScheme := { k := 1, m := 2, w := .w8, compression := .noCompression }
  encryptInfo := .noEncryption
  chunkSizes := [4]
  size := 4
  checksum := .sha1 [1]
  fragments := [[sampleFragmentOn 1 1, sampleFragmentOn 2 2, sampleFragmentOn 3 3]]
  versionId := 0
  maxDisksPerNode := 3
  timestamp := ⟨0⟩
  counted := by decide

theorem uploaded_threeCopies : Uploaded Transfer.sampleUpload (.sha1 [1]) threeCopies where
  algo := ⟨.sha1, rfl, rfl⟩
  checksum := rfl
  versionId := rfl
  versions := by decide
  chunks := by decide
  chunkSizes := rfl
  rows := by decide
  positive := by decide
  located := by decide

/-- The second copy is repaired, which changes its size and its checksum, and the first one is moved. -/
def sampleMaintenance : List Maintenance :=
  [.repair [{ chunkId := 0, fragmentId := 1, osdId := 4, packedSize := 5, checksum := .crc32c 9
              ctr := none }],
    .rebalance 1 5]

theorem recovery_is_faithful_threeCopies :
    Uploaded Transfer.sampleUpload (.sha1 [1]) threeCopies ∧ HashKept Transfer.sampleUpload ∧
      AllSteps History.exec Separate (.uploaded threeCopies (.sha1 [1])) sampleMaintenance ∧
      (run History.exec (.uploaded threeCopies (.sha1 [1])) sampleMaintenance).manifest.versionId = 2 ∧
      (run History.exec (.uploaded threeCopies (.sha1 [1])) sampleMaintenance).Recovers := by
  have hkept : HashKept Transfer.sampleUpload := .inl rfl
  have hseparate : AllSteps History.exec Separate (.uploaded threeCopies (.sha1 [1])) sampleMaintenance := by
    decide +kernel
  exact ⟨uploaded_threeCopies, hkept, hseparate, by decide +kernel,
    recovery_is_faithful uploaded_threeCopies hkept sampleMaintenance hseparate⟩

/-- The second and the third copy are repaired at once. -/
def twoAtOnce : Maintenance :=
  .repair [{ chunkId := 0, fragmentId := 1, osdId := 4, packedSize := 5, checksum := .crc32c 9
             ctr := none },
           { chunkId := 0, fragmentId := 2, osdId := 5, packedSize := 5, checksum := .crc32c 10
             ctr := none }]

def twoRepaired : History := run History.exec (.uploaded threeCopies (.sha1 [1])) [twoAtOnce]

theorem checksum_of_agrees {acc : List FragmentInfo} {n : Nat} {info : ObjectInfo} {x : FragmentInfo}
    {best : Nat → List FragmentInfo} {top : Nat → FragmentInfo} {lost rebuilt : Manifest}
    (hfrom : RebuiltFrom acc n info x best top rebuilt) (hagrees : Agrees lost rebuilt) {c i : Nat}
    {f : Fragment} (hf : fragmentAt lost c i = some f) (hosd : f.osd.isSome) :
    (top c).recoveryInfo.fragmentChecksums[i]? = some f.crc := by
  obtain ⟨f', hf', _, _, hcrc, _⟩ := hagrees.fragments c i f hf hosd
  obtain ⟨row, hrow, hi⟩ := fragmentAt_eq_some.mp hf'
  obtain ⟨crc, _, htop, _, rfl⟩ := hfrom.fragments c i row f' hrow hi
  rw [htop, ← hcrc]
  rfl

/-- Both infos that the repair has written are the newest, and neither has the new checksums of both
copies. No order of the infos or of the hash tables helps. -/
theorem twoRepaired_never_agrees {order : HashOrder} {encryptInfo : EncryptInfo}
    {acc : List FragmentInfo} (hacc : ∀ i, i ∈ acc ↔ i ∈ twoRepaired.scanned) {rebuilt : Manifest}
    (hrebuild : rebuild order encryptInfo acc = .ok rebuilt) : ¬Agrees twoRepaired.manifest rebuilt := by
  intro hagrees
  have hrecorded : Recorded twoRepaired :=
    run_invariant (fun _ _ _ hs hstep => hs.step hstep) _ (uploaded_threeCopies.recorded (.inl rfl))
  obtain ⟨rebuilt', x, best, top, hrebuild', hfrom⟩ :=
    rebuild_of_recoverable order encryptInfo (hrecorded.recoverable hacc)
  cases hrebuild.symm.trans hrebuild'
  have hchunks : 0 < twoRepaired.manifest.fragments.length := hrecorded.shaped.chunks
  have htop := hfrom.highest 0 hchunks
  have hscanned : top 0 ∈ twoRepaired.scanned :=
    (hacc _).mp (mem_inChunk.mp ((hfrom.kept 0).mem _ htop.mem)).1
  have hnewest : 1 ≤ (top 0).versionId.toInt := by
    obtain ⟨j, hj, hchunk, hversion⟩ : ∃ j ∈ twoRepaired.scanned, j.chunkId = 0 ∧
        j.versionId.toInt = 1 := by decide +kernel
    obtain ⟨g, hg, _, hle⟩ := (hfrom.kept 0).best j (mem_inChunk.mpr ⟨(hacc j).mpr hj, hchunk⟩)
    have := htop.highest g hg
    omega
  have hstale : ∀ i ∈ twoRepaired.scanned, 1 ≤ i.versionId.toInt →
      i.recoveryInfo.fragmentChecksums[1]? ≠ some (.crc32c 9) ∨
        i.recoveryInfo.fragmentChecksums[2]? ≠ some (.crc32c 10) := by decide +kernel
  have hsecond : fragmentAt twoRepaired.manifest 0 1 =
      some { osd := some 4, ver := 1, crc := .crc32c 9, len := 5, ctr := none, fnr := none } := by
    decide +kernel
  have hthird : fragmentAt twoRepaired.manifest 0 2 =
      some { osd := some 5, ver := 1, crc := .crc32c 10, len := 5, ctr := none, fnr := none } := by
    decide +kernel
  rcases hstale (top 0) hscanned hnewest with hne | hne
  · exact hne (checksum_of_agrees hfrom hagrees hsecond rfl)
  · exact hne (checksum_of_agrees hfrom hagrees hthird rfl)

/-- The checksum of the object is given and not verified. -/
def unverifiedUpload : Upload :=
  { Transfer.sampleUpload with
    checksumO := some (.sha1 [1])
    objectChecksum := { allowed := [.sha1], default := .sha1, verifyUpload := false } }

theorem unverified_not_recovered : ¬(History.uploaded threeCopies .noChecksum).Recovers := by
  intro h
  let hashed : Manifest := { threeCopies with checksum := .noChecksum }
  have hhashed : Recorded (.uploaded hashed .noChecksum) := by
    refine (show Uploaded { Transfer.sampleUpload with
      checksumO := some .noChecksum
      objectChecksum := { allowed := [.noChecksum], default := .sha1, verifyUpload := false } }
        .noChecksum hashed from ?_).recorded (.inr (.inr rfl))
    exact ⟨⟨.noChecksum, rfl, rfl⟩, rfl, rfl, uploaded_threeCopies.versions, uploaded_threeCopies.chunks,
      rfl, uploaded_threeCopies.rows, uploaded_threeCopies.positive, uploaded_threeCopies.located⟩
  let order : HashOrder := ⟨id, fun l => .refl l⟩
  have hsame : (History.uploaded threeCopies .noChecksum).scanned =
      (History.uploaded hashed .noChecksum).scanned := by decide +kernel
  obtain ⟨rebuilt, hrebuild, hagrees⟩ := h order .noEncryption _ fun i => Iff.rfl
  obtain ⟨rebuilt', hrebuild', hagrees'⟩ := hhashed.recovers (upToDate_uploaded _ _) order .noEncryption
    (History.uploaded threeCopies .noChecksum).scanned fun i => by rw [hsame]
  cases hrebuild.symm.trans hrebuild'
  have hchecksum : hashed.checksum = threeCopies.checksum := hagrees'.checksum.symm.trans hagrees.checksum
  cases hchecksum

/-- Two copies that are repaired at once, and a checksum that is not verified. -/
theorem recovery_not_faithful :
    (Uploaded Transfer.sampleUpload (.sha1 [1]) threeCopies ∧
      (History.uploaded threeCopies (.sha1 [1])).exec twoAtOnce = some twoRepaired ∧
      ¬twoRepaired.Recovers) ∧
    Uploaded unverifiedUpload .noChecksum threeCopies ∧
      ¬(History.uploaded threeCopies .noChecksum).Recovers := by
  refine ⟨⟨uploaded_threeCopies, by decide +kernel, fun h => ?_⟩, ?_, unverified_not_recovered⟩
  · obtain ⟨rebuilt, hrebuild, hagrees⟩ := h ⟨id, fun l => .refl l⟩ .noEncryption _ fun i => Iff.rfl
    exact twoRepaired_never_agrees (fun i => Iff.rfl) hrebuild hagrees
  · exact
      { uploaded_threeCopies with
        algo := ⟨.noChecksum, rfl, rfl⟩
        checksum := rfl }

end Samples

end Alba.Recovery
