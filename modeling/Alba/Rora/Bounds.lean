import Alba.Rora.Contents

/-! What the direct read path does with slices that reach beyond the object. Nothing compares them with
the size of the object: inside the padding they are answered from osds, and beyond it the chunk search
runs off the vector of chunk sizes. -/

namespace Alba.Rora

open List hiding next
open ProofKit

section Model

variable (cache : ManifestCache) (namespace_ : Bytes) (levels : List Bytes)

/-- The locations that only the proxy can read. -/
def Location.viaProxy (l : Location) : Bool :=
  l.fragmentLocation.1.isNone || l.usesCompression || !supportsPartialDecrypt l.encryptInfo

/-- An encrypted fragment cannot be decrypted without its counter. -/
def Location.decryptable (l : Location) : Bool :=
  l.encryptInfo = .noEncryption || l.ctr.isSome

/-- One round of the loop of `read_objects_slices`. -/
def sortObject (paths : List (Nat × Location) × List ObjectSlices) (o : ObjectSlices) :
    Except Fault (List (Nat × Location) × List ObjectSlices) := do
  match ← resolveOneManyLevels cache namespace_ levels o with
  | none => return (paths.1, paths.2 ++ [o])
  | some locations =>
    if locations.any fun x => x.2.viaProxy then return (paths.1, paths.2 ++ [o])
    else return (paths.1 ++ locations, paths.2)

/-- `read_objects_slices`: the locations that are answered from osds and the objects that are passed on to
the proxy. `answers` says whether the osds return all that is asked of them and the keys are found. -/
def readObjectsSlices (useSlowPath : Bool) (answers : List (Nat × Location) → Bool)
    (slices : List ObjectSlices) : Except Fault (List (Nat × Location) × List ObjectSlices) :=
  if useSlowPath then .ok ([], slices)
  else do
    let (shortPath, viaProxy) ← slices.foldlM (sortObject cache namespace_ levels) ([], [])
    if answers shortPath && shortPath.all fun x => x.2.decryptable then return (shortPath, viaProxy)
    else return ([], slices)

end Model

section Faults

variable {mf : ManifestWithNamespaceId}

theorem getLocation_beyond {pos : UInt64} {len : UInt32} (hmf : mf.WellFormed)
    (h : mf.paddedSize ≤ pos.toNat) : getLocation mf pos len = .error .outOfBounds := by
  have hpadded := hmf.paddedSize_lt
  have hfind := findChunk_of_le pos mf.chunkSizes (-1) 0
    (by simpa [Manifest.paddedSize] using hpadded.trans (by decide))
    (by simpa [Manifest.paddedSize] using h)
  rw [getLocation, hfind]
  rfl

theorem resolveSliceOneLevel_beyond (hmf : mf.WellFormed) {fuel : Nat} {offset : UInt64}
    {length : UInt32} (results : List (Nat × Location)) (target : Nat)
    (h : mf.paddedSize < offset.toNat + length.toNat) (hpos : 0 < length.toNat)
    (hfuel : length.toNat ≤ fuel) :
    resolveSliceOneLevel mf fuel results offset length target = .error .outOfBounds := by
  have hpadded := hmf.paddedSize_lt
  induction fuel generalizing results offset length target with
  | zero => omega
  | succ fuel ih =>
    have hzero : length ≠ 0 := by
      rintro rfl
      simp at hpos
    rw [resolveSliceOneLevel, if_neg hzero]
    by_cases hbeyond : mf.paddedSize ≤ offset.toNat
    · simp only [getLocation_beyond hmf hbeyond]
      rfl
    · obtain ⟨l, c, f, fragment, s, hl, _, hs, hat, hlpos, hle, hend⟩ :=
        getLocation_eq offset length hmf (by omega) hpos
      have hinside := hat.add_le hs hend
      have hoffset := toNat_add_size offset l.length (by omega)
      have hrest : (length - l.length).toNat = length.toNat - l.length.toNat :=
        UInt32.toNat_sub_of_le _ _ (UInt32.le_iff_toNat_le.mpr hle)
      simp only [hl, ok_bind]
      exact ih _ _ (by omega) (by omega) (by omega)

theorem resolveSlices_beyond (hmf : mf.WellFormed) {slices : List SliceDescriptor}
    (h : ∃ s ∈ slices, mf.paddedSize < s.offset.toNat + s.size.toNat)
    (hpos : ∀ s ∈ slices, 0 < s.size.toNat) : resolveSlices mf slices = .error .outOfBounds := by
  suffices hfold : ∀ results, slices.foldlM
      (fun results s => resolveSliceOneLevel mf s.size.toNat results s.offset s.size s.buf) results =
        .error .outOfBounds from hfold []
  induction slices with
  | nil => simp at h
  | cons s rest ih =>
    intro results
    rw [foldlM_cons]
    by_cases hs : mf.paddedSize < s.offset.toNat + s.size.toNat
    · rw [resolveSliceOneLevel_beyond hmf results s.buf hs (hpos s mem_cons_self) le_rfl]
      rfl
    · obtain ⟨locations, hresolve, _⟩ :=
        resolveSliceOneLevel_eq results s.buf hmf (Nat.le_of_not_lt hs) (Nat.le_refl s.size.toNat)
      rw [hresolve, ok_bind]
      refine ih ?_ (fun s' hs' => hpos s' (mem_cons_of_mem _ hs')) _
      obtain ⟨s', hs', hbeyond⟩ := h
      rcases mem_cons.mp hs' with rfl | hs'
      · exact (hs hbeyond).elim
      · exact ⟨s', hs', hbeyond⟩

theorem resolveOneManyLevels_beyond {cache : ManifestCache} {namespace_ albaId : Bytes}
    {levels : List Bytes} {o : ObjectSlices} (hmf : mf.WellFormed)
    (hfound : cache namespace_ albaId o.objectName = some mf)
    (h : ∃ s ∈ o.slices, mf.paddedSize < s.offset.toNat + s.size.toNat)
    (hpos : ∀ s ∈ o.slices, 0 < s.size.toNat) :
    resolveOneManyLevels cache namespace_ (albaId :: levels) o = .error .outOfBounds := by
  have hone : resolveOneLevel cache namespace_ albaId o = .error .outOfBounds := by
    simp only [resolveOneLevel, hfound, resolveSlices_beyond hmf h hpos]
    rfl
  cases levels with
  | nil => exact hone
  | cons next levels =>
    rw [resolveOneManyLevels, hone]
    rfl

end Faults

section Deferral

variable {cache : ManifestCache} {namespace_ : Bytes} {levels : List Bytes}
  {mf : ManifestWithNamespaceId} {slices : List SliceDescriptor} {locations : List (Nat × Location)}

/-- The bytes of a fragment can be used as an osd returns them, after decrypting at most. -/
def Direct (last : ManifestWithNamespaceId) (fragment : Fragment) : Prop :=
  fragment.loc.1.isSome ∧ last.compression = .noCompression ∧ supportsPartialDecrypt last.encryptInfo

theorem Location.InFragment.viaProxy_iff {l : Location} {last : ManifestWithNamespaceId} {c f : Nat}
    {fragment : Fragment} (h : l.InFragment last c f fragment) :
    l.viaProxy = true ↔ ¬ Direct last fragment := by
  rw [Location.viaProxy, h.fragmentLocation, h.usesCompression, h.encryptInfo, Direct]
  cases fragment.loc.1 <;> simp [Classical.or_iff_not_imp_left]

theorem Stored.unique {pos c f q c' f' q' : Nat} {last last' : ManifestWithNamespaceId}
    {fragment fragment' : Fragment} (h : Stored cache namespace_ levels mf pos last c f q fragment)
    (h' : Stored cache namespace_ levels mf pos last' c' f' q' fragment') :
    last = last' ∧ fragment = fragment' := by
  induction h with
  | last here =>
    cases h' with
    | last here' => exact ⟨rfl, (here.unique here').2.2.2⟩
  | next here found below ih =>
    cases h' with
    | next here' found' below' =>
      obtain ⟨rfl, rfl, rfl, rfl⟩ := here.unique here'
      cases found.symm.trans found'
      exact ih below'

theorem exists_spot {s : SliceDescriptor} {j : Nat} (hs : s ∈ slices) (hj : j < s.size.toNat) :
    ∃ p < requested slices, spot slices p = some (s, j) := by
  induction slices with
  | nil => cases hs
  | cons s' rest ih =>
    rcases mem_cons.mp hs with rfl | hs
    · exact ⟨j, by simp only [requested, map_cons, sum_cons]; omega, by rw [spot, if_pos hj]⟩
    · obtain ⟨p, hp, hspot⟩ := ih hs
      refine ⟨p + s'.size.toNat, ?_, by rw [spot, if_neg (by omega), Nat.add_sub_cancel, hspot]⟩
      simp only [requested, map_cons, sum_cons] at hp ⊢
      omega

theorem Resolved.location (h : Resolved cache namespace_ levels mf slices (some locations))
    {s : SliceDescriptor} {j : Nat} (hs : s ∈ slices) (hj : j < s.size.toNat) :
    ∃ x ∈ locations, ∃ last c f q fragment, x.2.InFragment last c f fragment ∧
      Stored cache namespace_ levels mf (s.offset.toNat + j) last c f q fragment := by
  obtain ⟨p, hp, hspot⟩ := exists_spot hs hj
  obtain ⟨x, hx, q, ⟨s', j', hspot', hend, hfinal⟩, hq, hpq⟩ :=
    (h.tiles locations rfl).covers (Nat.zero_le p) (by omega)
  have hsame := spot_add (d := p - q) hspot' (by omega)
  rw [Nat.add_sub_of_le hq, hspot] at hsame
  cases hsame
  obtain ⟨last, c, f, fragment, hin, hstored⟩ := hfinal.place
  have hbyte := hstored (p - q) (by simp only [width] at hpq; omega)
  rw [Nat.add_assoc] at hbyte
  exact ⟨x, hx, last, c, f, _, fragment, hin, hbyte⟩

theorem Resolved.byte (h : Resolved cache namespace_ levels mf slices (some locations))
    {x : Nat × Location} (hx : x ∈ locations) :
    ∃ s ∈ slices, ∃ j < s.size.toNat, ∃ last c f q fragment, x.2.InFragment last c f fragment ∧
      Stored cache namespace_ levels mf (s.offset.toNat + j) last c f q fragment := by
  obtain ⟨p, ⟨s, j, hspot, hend, hfinal⟩, hpos, _⟩ := (h.tiles locations rfl).mem hx
  obtain ⟨last, c, f, fragment, hin, hstored⟩ := hfinal.place
  exact ⟨s, (spot_mem hspot).1, j, by omega, last, c, f, _, fragment, hin,
    hstored 0 (by simpa [width] using hpos)⟩

variable (cache namespace_ levels)

/-- A byte of a slice leads to a manifest that is not cached, or to a fragment that only the proxy can
read. -/
def Deferred (mf : ManifestWithNamespaceId) (slices : List SliceDescriptor) : Prop :=
  ∃ s ∈ slices, ∃ j < s.size.toNat,
    Unknown cache namespace_ levels mf (s.offset.toNat + j) ∨
      ∃ last c f q fragment,
        Stored cache namespace_ levels mf (s.offset.toNat + j) last c f q fragment ∧
          ¬ Direct last fragment

/-- A byte of a slice leads to an encrypted fragment whose counter is not known. -/
def Undecryptable (mf : ManifestWithNamespaceId) (slices : List SliceDescriptor) : Prop :=
  ∃ s ∈ slices, ∃ j < s.size.toNat, ∃ last c f q fragment,
    Stored cache namespace_ levels mf (s.offset.toNat + j) last c f q fragment ∧
      last.encryptInfo ≠ .noEncryption ∧ fragment.ctr = none

variable {cache namespace_ levels}

theorem Resolved.deferred_iff {r : Option (List (Nat × Location))}
    (h : Resolved cache namespace_ levels mf slices r) :
    Deferred cache namespace_ levels mf slices ↔
      ∀ locations, r = some locations → locations.any fun x => x.2.viaProxy := by
  constructor
  · rintro ⟨s, hs, j, hj, hbyte⟩ locations rfl
    obtain ⟨x, hx, last, c, f, q, fragment, hin, hstored⟩ := h.location hs hj
    rcases hbyte with hunknown | ⟨last', c', f', q', fragment', hstored', hdirect⟩
    · exact (hunknown _ _ _ _ _ hstored).elim
    · obtain ⟨rfl, rfl⟩ := hstored.unique hstored'
      exact any_eq_true.mpr ⟨x, hx, hin.viaProxy_iff.mpr hdirect⟩
  · intro hany
    cases r with
    | none =>
      obtain ⟨s, hs, j, hj, hunknown⟩ := h.missing rfl
      exact ⟨s, hs, j, hj, .inl hunknown⟩
    | some locations =>
      obtain ⟨x, hx, hvia⟩ := any_eq_true.mp (hany locations rfl)
      obtain ⟨s, hs, j, hj, last, c, f, q, fragment, hin, hstored⟩ := h.byte hx
      exact ⟨s, hs, j, hj, .inr ⟨last, c, f, q, fragment, hstored, hin.viaProxy_iff.mp hvia⟩⟩

theorem Resolved.undecryptable_iff (h : Resolved cache namespace_ levels mf slices (some locations)) :
    Undecryptable cache namespace_ levels mf slices ↔ ∃ x ∈ locations, x.2.decryptable = false := by
  constructor
  · rintro ⟨s, hs, j, hj, last', c', f', q', fragment', hstored', hencrypted, hctr⟩
    obtain ⟨x, hx, last, c, f, q, fragment, hin, hstored⟩ := h.location hs hj
    obtain ⟨rfl, rfl⟩ := hstored.unique hstored'
    exact ⟨x, hx, by simp [Location.decryptable, hin.encryptInfo, hin.ctr, hencrypted, hctr]⟩
  · rintro ⟨x, hx, hdecrypt⟩
    obtain ⟨s, hs, j, hj, last, c, f, q, fragment, hin, hstored⟩ := h.byte hx
    rw [Location.decryptable, hin.encryptInfo, hin.ctr] at hdecrypt
    exact ⟨s, hs, j, hj, last, c, f, q, fragment, hstored, by simpa using hdecrypt⟩

end Deferral

section Requests

variable {cache : ManifestCache} {namespace_ : Bytes} {levels : List Bytes}

/-- An object whose locations are all answered from osds. -/
def Fast (cache : ManifestCache) (namespace_ : Bytes) (levels : List Bytes) (o : ObjectSlices)
    (locations : List (Nat × Location)) : Prop :=
  resolveOneManyLevels cache namespace_ levels o = .ok (some locations) ∧
    (locations.any fun x => x.2.viaProxy) = false

theorem sortObject_eq {o : ObjectSlices} {r : Option (List (Nat × Location))}
    (hr : resolveOneManyLevels cache namespace_ levels o = .ok r)
    (paths : List (Nat × Location) × List ObjectSlices) :
    (∃ locations, Fast cache namespace_ levels o locations ∧
        sortObject cache namespace_ levels paths o = .ok (paths.1 ++ locations, paths.2)) ∨
      (¬ ∃ locations, Fast cache namespace_ levels o locations) ∧
        sortObject cache namespace_ levels paths o = .ok (paths.1, paths.2 ++ [o]) := by
  simp only [sortObject, hr, ok_bind, Fast]
  cases r with
  | none => exact .inr ⟨by simp, rfl⟩
  | some locations =>
    cases hany : locations.any fun x => x.2.viaProxy with
    | false => exact .inl ⟨locations, ⟨rfl, hany⟩, by simp [hany]; rfl⟩
    | true =>
      refine .inr ⟨?_, by simp [hany]; rfl⟩
      rintro ⟨_, ⟨⟩, hfast⟩
      rw [hany] at hfast
      cases hfast

theorem foldlM_sortObject {slices : List ObjectSlices}
    (h : ∀ o ∈ slices, ∃ r, resolveOneManyLevels cache namespace_ levels o = .ok r)
    (paths : List (Nat × Location) × List ObjectSlices) :
    ∃ shortPath viaProxy,
      slices.foldlM (sortObject cache namespace_ levels) paths =
        .ok (paths.1 ++ shortPath, paths.2 ++ viaProxy) ∧
      (∀ o, o ∈ viaProxy ↔ o ∈ slices ∧ ¬ ∃ locations, Fast cache namespace_ levels o locations) ∧
      ∀ x, x ∈ shortPath ↔ ∃ o ∈ slices, ∃ locations, Fast cache namespace_ levels o locations ∧
        x ∈ locations := by
  induction slices generalizing paths with
  | nil => exact ⟨[], [], by simp [pure, Except.pure], by simp, by simp⟩
  | cons o rest ih =>
    obtain ⟨r, hr⟩ := h o mem_cons_self
    have hrest := fun o' ho' => h o' (mem_cons_of_mem _ ho')
    rw [foldlM_cons]
    rcases sortObject_eq hr paths with ⟨locations, hfast, hsort⟩ | ⟨hslow, hsort⟩
    · obtain ⟨shortPath, viaProxy, hfold, hvia, hshort⟩ := ih hrest (paths.1 ++ locations, paths.2)
      refine ⟨locations ++ shortPath, viaProxy, ?_, fun o' => ?_, fun x => ?_⟩
      · rw [hsort, ok_bind, hfold, append_assoc]
      · rw [hvia, mem_cons]
        constructor
        · exact fun ⟨ho', hslow⟩ => ⟨.inr ho', hslow⟩
        · rintro ⟨rfl | ho', hslow⟩
          · exact (hslow ⟨locations, hfast⟩).elim
          · exact ⟨ho', hslow⟩
      · rw [mem_append, hshort, exists_mem_cons_iff]
        refine or_congr_left ⟨fun hx => ⟨locations, hfast, hx⟩, ?_⟩
        rintro ⟨locations', hfast', hx⟩
        cases hfast.1.symm.trans hfast'.1
        exact hx
    · obtain ⟨shortPath, viaProxy, hfold, hvia, hshort⟩ := ih hrest (paths.1, paths.2 ++ [o])
      refine ⟨shortPath, o :: viaProxy, ?_, fun o' => ?_, fun x => ?_⟩
      · rw [hsort, ok_bind, hfold, append_assoc, singleton_append]
      · rw [mem_cons, hvia, mem_cons]
        constructor
        · rintro (rfl | ⟨ho', hslow'⟩)
          · exact ⟨.inl rfl, hslow⟩
          · exact ⟨.inr ho', hslow'⟩
        · rintro ⟨rfl | ho', hslow'⟩
          · exact .inl rfl
          · exact .inr ⟨ho', hslow'⟩
      · rw [hshort, exists_mem_cons_iff, or_iff_right]
        rintro ⟨locations, hfast, _⟩
        exact hslow ⟨locations, hfast⟩

theorem foldlM_sortObject_error {slices : List ObjectSlices} {o : ObjectSlices} {e : Fault}
    (ho : o ∈ slices) (h : resolveOneManyLevels cache namespace_ levels o = .error e)
    (paths outcome : List (Nat × Location) × List ObjectSlices) :
    slices.foldlM (sortObject cache namespace_ levels) paths ≠ .ok outcome := by
  induction slices generalizing paths with
  | nil => cases ho
  | cons o' rest ih =>
    rw [foldlM_cons]
    intro hfold
    obtain ⟨paths', hsort, hfold⟩ := bind_eq_ok.mp hfold
    rcases mem_cons.mp ho with rfl | ho
    · simp only [sortObject, h] at hsort
      cases hsort
    · exact ih ho paths' hfold

end Requests

section Guard

variable (cache : ManifestCache) (namespace_ albaId : Bytes) (levels : List Bytes)

/-- Whatever the osds answer, the request reads nothing outside the vectors of a manifest, and each object
with a slice that reaches beyond it is passed on to the proxy. -/
def Guarded (slices : List ObjectSlices) : Prop :=
  ∀ answers, ∃ shortPath viaProxy,
    readObjectsSlices cache namespace_ (albaId :: levels) false answers slices =
      .ok (shortPath, viaProxy) ∧
    ∀ o ∈ slices, ∀ mf, cache namespace_ albaId o.objectName = some mf →
      (∃ s ∈ o.slices, mf.size.toNat < s.offset.toNat + s.size.toNat) → o ∈ viaProxy

/-- The manifests of a request: chunks of whole fragments that cover the object, and objects of the
fragment cache that have room for the fragments they stand for. -/
def Served (slices : List ObjectSlices) : Prop :=
  ∀ o ∈ slices, ∀ mf, cache namespace_ albaId o.objectName = some mf →
    mf.WellFormed ∧ mf.size.toNat ≤ mf.paddedSize ∧
      Nested cache namespace_ (albaId :: levels) mf ∧ ∀ s ∈ o.slices, 0 < s.size.toNat

/-- An object of the request is answered from osds, but for a fragment whose counter is missing. -/
def Fails (slices : List ObjectSlices) : Prop :=
  ∃ o ∈ slices, ∃ mf, cache namespace_ albaId o.objectName = some mf ∧
    ¬ Deferred cache namespace_ (albaId :: levels) mf o.slices ∧
    Undecryptable cache namespace_ (albaId :: levels) mf o.slices

variable {cache namespace_ albaId levels}

theorem resolve_of_padded {slices : List ObjectSlices}
    (hserved : Served cache namespace_ albaId levels slices)
    (hpadded : ∀ o ∈ slices, ∀ mf, cache namespace_ albaId o.objectName = some mf →
      ∀ s ∈ o.slices, s.offset.toNat + s.size.toNat ≤ mf.paddedSize)
    {o : ObjectSlices} (ho : o ∈ slices) :
    ∃ r, resolveOneManyLevels cache namespace_ (albaId :: levels) o = .ok r ∧
      (cache namespace_ albaId o.objectName = none → r = none) ∧
      ∀ mf, cache namespace_ albaId o.objectName = some mf →
        Resolved cache namespace_ (albaId :: levels) mf o.slices r := by
  cases hfound : cache namespace_ albaId o.objectName with
  | none => exact ⟨none, resolveOneManyLevels_of_none hfound, fun _ => rfl, by simp⟩
  | some mf =>
    obtain ⟨hmf, _, hnested, _⟩ := hserved o ho mf hfound
    obtain ⟨r, hr, hresolved⟩ := resolveOneManyLevels_eq hmf hfound hnested (hpadded o ho mf hfound)
    refine ⟨r, hr, by simp, ?_⟩
    rintro _ ⟨⟩
    exact hresolved

section Padded

variable {slices : List ObjectSlices} (hserved : Served cache namespace_ albaId levels slices)
  (hpadded : ∀ o ∈ slices, ∀ mf, cache namespace_ albaId o.objectName = some mf →
    ∀ s ∈ o.slices, s.offset.toNat + s.size.toNat ≤ mf.paddedSize)

include hserved hpadded

theorem fast_iff {o : ObjectSlices} (ho : o ∈ slices) {mf : ManifestWithNamespaceId}
    (hfound : cache namespace_ albaId o.objectName = some mf) :
    (∃ locations, Fast cache namespace_ (albaId :: levels) o locations) ↔
      ¬ Deferred cache namespace_ (albaId :: levels) mf o.slices := by
  obtain ⟨r, hr, _, hresolved⟩ := resolve_of_padded hserved hpadded ho
  rw [(hresolved mf hfound).deferred_iff]
  simp only [Fast, hr, Except.ok.injEq, not_forall, Bool.not_eq_true]
  exact exists_congr fun _ => ⟨fun ⟨h, h'⟩ => ⟨h, h'⟩, fun ⟨h, h'⟩ => ⟨h, h'⟩⟩

theorem fails_iff :
    Fails cache namespace_ albaId levels slices ↔ ∃ o ∈ slices, ∃ locations,
      Fast cache namespace_ (albaId :: levels) o locations ∧
        ∃ x ∈ locations, x.2.decryptable = false := by
  constructor
  · rintro ⟨o, ho, mf, hfound, hdirect, hfails⟩
    obtain ⟨locations, hfast⟩ := (fast_iff hserved hpadded ho hfound).mpr hdirect
    obtain ⟨r, hr, _, hresolved⟩ := resolve_of_padded hserved hpadded ho
    cases hr.symm.trans hfast.1
    exact ⟨o, ho, locations, hfast, (hresolved mf hfound).undecryptable_iff.mp hfails⟩
  · rintro ⟨o, ho, locations, hfast, hx⟩
    obtain ⟨r, hr, hmissing, hresolved⟩ := resolve_of_padded hserved hpadded ho
    cases hr.symm.trans hfast.1
    obtain ⟨mf, hfound⟩ : ∃ mf, cache namespace_ albaId o.objectName = some mf := by
      rw [← Option.ne_none_iff_exists']
      intro hnone
      cases hmissing hnone
    exact ⟨o, ho, mf, hfound, (fast_iff hserved hpadded ho hfound).mp ⟨locations, hfast⟩,
      (hresolved mf hfound).undecryptable_iff.mpr hx⟩

theorem readObjectsSlices_eq (answers : List (Nat × Location) → Bool) :
    ∃ shortPath viaProxy,
      readObjectsSlices cache namespace_ (albaId :: levels) false answers slices =
        .ok (if answers shortPath && shortPath.all fun x => x.2.decryptable then (shortPath, viaProxy)
          else ([], slices)) ∧
      (∀ o ∈ slices, ∀ mf, cache namespace_ albaId o.objectName = some mf →
        (o ∈ viaProxy ↔ Deferred cache namespace_ (albaId :: levels) mf o.slices)) ∧
      ((shortPath.all fun x => x.2.decryptable) = true ↔
        ¬ Fails cache namespace_ albaId levels slices) := by
  have hruns : ∀ o ∈ slices, ∃ r,
      resolveOneManyLevels cache namespace_ (albaId :: levels) o = .ok r :=
    fun o ho => (resolve_of_padded hserved hpadded ho).imp fun _ h => h.1
  obtain ⟨shortPath, viaProxy, hfold, hvia, hshort⟩ := foldlM_sortObject hruns ([], [])
  refine ⟨shortPath, viaProxy, ?_, fun o ho mf hfound => ?_, ?_⟩
  · simp only [readObjectsSlices, Bool.false_eq_true, if_false, hfold, nil_append, ok_bind]
    split <;> rfl
  · rw [hvia, fast_iff hserved hpadded ho hfound, not_not, and_iff_right ho]
  · rw [fails_iff hserved hpadded, all_eq_true]
    constructor
    · rintro hall ⟨o, ho, locations, hfast, x, hx, hdecrypt⟩
      rw [hall x ((hshort x).mpr ⟨o, ho, locations, hfast, hx⟩)] at hdecrypt
      cases hdecrypt
    · intro hnone x hx
      obtain ⟨o, ho, locations, hfast, hx⟩ := (hshort x).mp hx
      by_contra hdecrypt
      exact hnone ⟨o, ho, locations, hfast, x, hx, by simpa using hdecrypt⟩

end Padded

/-- The direct read path guards a request exactly when no slice reaches beyond the padded object, and
each object with a slice in the padding is left to the proxy for another reason. -/
theorem guarded_iff_inside {slices : List ObjectSlices}
    (hserved : Served cache namespace_ albaId levels slices) :
    Guarded cache namespace_ albaId levels slices ↔
      ∀ o ∈ slices, ∀ mf, cache namespace_ albaId o.objectName = some mf →
        (∀ s ∈ o.slices, s.offset.toNat + s.size.toNat ≤ mf.paddedSize) ∧
          ((∀ s ∈ o.slices, s.offset.toNat + s.size.toNat ≤ mf.size.toNat) ∨
            Deferred cache namespace_ (albaId :: levels) mf o.slices ∨
            Fails cache namespace_ albaId levels slices) := by
  constructor
  · intro h
    have hpadded : ∀ o ∈ slices, ∀ mf, cache namespace_ albaId o.objectName = some mf →
        ∀ s ∈ o.slices, s.offset.toNat + s.size.toNat ≤ mf.paddedSize := by
      intro o ho mf hfound s hs
      by_contra hbeyond
      obtain ⟨hmf, _, _, hpos⟩ := hserved o ho mf hfound
      have herror : resolveOneManyLevels cache namespace_ (albaId :: levels) o = .error _ :=
        resolveOneManyLevels_beyond hmf hfound ⟨s, hs, by omega⟩ hpos
      obtain ⟨shortPath, viaProxy, hread, _⟩ := h fun _ => true
      simp only [readObjectsSlices, Bool.false_eq_true, if_false] at hread
      obtain ⟨paths, hfold, _⟩ := bind_eq_ok.mp hread
      exact foldlM_sortObject_error ho herror _ _ hfold
    intro o ho mf hfound
    refine ⟨hpadded o ho mf hfound, ?_⟩
    by_contra hcontra
    simp only [not_or, not_forall, Nat.not_le, exists_prop] at hcontra
    obtain ⟨hbeyond, hdirect, hdecrypt⟩ := hcontra
    obtain ⟨shortPath, viaProxy, hread, hvia, hall⟩ :=
      readObjectsSlices_eq hserved hpadded fun _ => true
    obtain ⟨shortPath', viaProxy', hread', hguard⟩ := h fun _ => true
    rw [hread, hall.mpr hdecrypt] at hread'
    cases hread'
    exact hdirect ((hvia o ho mf hfound).mp (hguard o ho mf hfound hbeyond))
  · intro h answers
    obtain ⟨shortPath, viaProxy, hread, hvia, hall⟩ :=
      readObjectsSlices_eq hserved (fun o ho mf hfound => (h o ho mf hfound).1) answers
    by_cases hanswers : (answers shortPath && shortPath.all fun x => x.2.decryptable) = true
    · rw [if_pos hanswers] at hread
      refine ⟨shortPath, viaProxy, hread, fun o ho mf hfound ⟨s, hs, hbeyond⟩ => ?_⟩
      rcases (h o ho mf hfound).2 with hinside | hdirect | hfails
      · have := hinside s hs
        omega
      · exact (hvia o ho mf hfound).mpr hdirect
      · exact (hall.mp (Bool.and_eq_true_iff.mp hanswers).2 hfails).elim
    · rw [if_neg hanswers] at hread
      exact ⟨[], slices, hread, fun o ho _ _ _ => ho⟩

end Guard

/-- One level, with one object of seven bytes in chunks of eight. -/
def oneLevel : ManifestCache := fun _ _ name => if name = [110] then some wide else none

def request (offset : UInt64) (size : UInt32) : List ObjectSlices := [⟨[110], [⟨0, offset, size⟩]⟩]

theorem served_oneLevel (offset : UInt64) (size : UInt32) (hsize : 0 < size.toNat) :
    Served oneLevel [] [65] [] (request offset size) := by
  simp only [Served, request, mem_singleton, forall_eq, oneLevel, if_true, Option.some.injEq]
  rintro mf rfl
  exact ⟨wide_wellFormed, by decide, trivial, hsize⟩

theorem guarded_iff_inside_oneLevel :
    Served oneLevel [] [65] [] (request 1 6) ∧ Guarded oneLevel [] [65] [] (request 1 6) := by
  have hserved := served_oneLevel 1 6 (by decide)
  refine ⟨hserved, (guarded_iff_inside hserved).mpr ?_⟩
  simp only [request, mem_singleton, forall_eq, oneLevel, if_true, Option.some.injEq]
  rintro mf rfl
  exact ⟨by decide, .inl (by decide)⟩

/-- Byte 7 of an object of seven bytes is read from an osd. -/
theorem padding_not_guarded :
    Served oneLevel [] [65] [] (request 6 2) ∧ ¬ Guarded oneLevel [] [65] [] (request 6 2) := by
  refine ⟨served_oneLevel 6 2 (by decide), fun h => ?_⟩
  obtain ⟨shortPath, viaProxy, hread, hguard⟩ := h fun _ => true
  have hnone : (readObjectsSlices oneLevel [] [[65]] false (fun _ => true) (request 6 2)).map Prod.snd =
      .ok [] := by decide +kernel
  rw [hread] at hnone
  cases hnone
  exact not_mem_nil (hguard ⟨[110], [⟨0, 6, 2⟩]⟩ (by simp [request]) wide rfl (by decide))

end Alba.Rora
