import Alba.Rora.Resolve

/-! The locations of a request over several levels: each byte is followed through the fragments, as
objects of the next level, down to the fragment that holds it, and the locations tile the slices. -/

namespace Alba.Rora

open List hiding next
open ProofKit

namespace Manifest

variable {mf : Manifest} {pos c f q c' f' q' : Nat} {fragment fragment' : Fragment}

theorem chunkStart_le {s : UInt32} (hs : mf.chunkSizes[c]? = some s) (h : c < c') :
    mf.chunkStart c + s.toNat ≤ mf.chunkStart c' := by
  obtain ⟨hc, rfl⟩ := List.getElem?_eq_some_iff.mp hs
  have hsub : (mf.chunkSizes.take (c + 1)).map UInt32.toNat <+: (mf.chunkSizes.take c').map UInt32.toNat :=
    (List.take_prefix_take_left (by omega)).map _
  have hle := hsub.sublist.sum_le_sum fun _ _ => Nat.zero_le _
  rw [take_succ_eq_append_getElem hc, map_append, sum_append] at hle
  simpa [chunkStart] using hle

theorem IsAt.bounds (h : mf.IsAt pos c f q fragment) :
    ∃ s, mf.chunkSizes[c]? = some s ∧ mf.chunkStart c ≤ pos ∧ pos < mf.chunkStart c + s.toNat := by
  obtain ⟨⟨s, hs, hq, hpos⟩, _, hf⟩ := h
  have hfragments : (f + 1) * (s.toNat / mf.encodingScheme.k.toNat) ≤ s.toNat :=
    (Nat.mul_le_mul_right _ hf).trans (Nat.mul_div_le _ _)
  rw [Nat.add_mul] at hfragments
  exact ⟨s, hs, by omega, by omega⟩

theorem IsAt.unique (h : mf.IsAt pos c f q fragment) (h' : mf.IsAt pos c' f' q' fragment') :
    c = c' ∧ f = f' ∧ q = q' ∧ fragment = fragment' := by
  have hchunk : c = c' := by
    obtain ⟨s, hs, hlow, hhigh⟩ := h.bounds
    obtain ⟨s', hs', hlow', hhigh'⟩ := h'.bounds
    rcases Nat.lt_trichotomy c c' with hlt | heq | hgt
    · have := chunkStart_le hs hlt
      omega
    · exact heq
    · have := chunkStart_le hs' hgt
      omega
  subst hchunk
  obtain ⟨⟨s, hs, hq, hpos⟩, ⟨row, hrow, hfragment⟩, _⟩ := h
  obtain ⟨⟨s', hs', hq', hpos'⟩, ⟨row', hrow', hfragment'⟩, _⟩ := h'
  cases hs.symm.trans hs'
  cases hrow.symm.trans hrow'
  set L := s.toNat / mf.encodingScheme.k.toNat
  have hplace : f * L + q = f' * L + q' := by omega
  have hf : f = f' := by
    have hdiv : ∀ {f q}, q < L → (f * L + q) / L = f := fun {f q} hq => by
      rw [Nat.mul_comm, Nat.mul_add_div (by omega), Nat.div_eq_of_lt hq, Nat.add_zero]
    rw [← hdiv hq (f := f), hplace, hdiv hq']
  subst hf
  exact ⟨rfl, rfl, by omega, Option.some.inj (hfragment.symm.trans hfragment')⟩

end Manifest

section Levels

variable (cache : ManifestCache) (namespace_ : Bytes)

/-- Byte `pos` of the object with manifest `mf` is, over the levels that are left, byte `q` of fragment
`f` of chunk `c` of an object of the last level, with manifest `last`. -/
inductive Stored : List Bytes → ManifestWithNamespaceId → Nat →
    (last : ManifestWithNamespaceId) → (c f q : Nat) → Fragment → Prop
  | last {albaId mf pos c f q fragment} (here : mf.IsAt pos c f q fragment) :
      Stored [albaId] mf pos mf c f q fragment
  | next {albaId next levels mf pos c f q fragment mf' last c' f' q' fragment'}
      (here : mf.IsAt pos c f q fragment)
      (found : cache namespace_ next (fragmentCacheObjectName mf.objectId c f) = some mf')
      (below : Stored (next :: levels) mf' q last c' f' q' fragment') :
      Stored (albaId :: next :: levels) mf pos last c' f' q' fragment'

/-- The objects of the next levels, where they are cached, have room for the fragments they stand for. -/
def Nested : List Bytes → ManifestWithNamespaceId → Prop
  | _ :: next :: levels, mf => ∀ c f s mf', mf.chunkSizes[c]? = some s →
      f < mf.encodingScheme.k.toNat →
      cache namespace_ next (fragmentCacheObjectName mf.objectId c f) = some mf' →
      mf'.WellFormed ∧ s.toNat / mf.encodingScheme.k.toNat ≤ mf'.paddedSize ∧
        Nested (next :: levels) mf'
  | _, _ => True

/-- The piece at place `j` of a slice, over several levels. -/
structure FinalPiece (levels : List Bytes) (mf : ManifestWithNamespaceId) (offset target j : Nat)
    (x : Nat × Location) : Prop where
  target : x.1 = target + j
  place : ∃ last c f fragment, x.2.InFragment last c f fragment ∧ ∀ i < x.2.length.toNat,
    Stored cache namespace_ levels mf (offset + j + i) last c f (x.2.offset.toNat + i) fragment

end Levels

/-- The slice that byte `p` of a request belongs to, and its place there. -/
def spot : List SliceDescriptor → Nat → Option (SliceDescriptor × Nat)
  | [], _ => none
  | s :: rest, p => if p < s.size.toNat then some (s, p) else spot rest (p - s.size.toNat)

def requested (slices : List SliceDescriptor) : Nat := (slices.map fun s => s.size.toNat).sum

/-- The pieces of a request with several slices. -/
def InSlices (slices : List SliceDescriptor) (good : SliceDescriptor → Nat → Nat × Location → Prop)
    (p : Nat) (x : Nat × Location) : Prop :=
  ∃ s j, spot slices p = some (s, j) ∧ j + width x ≤ s.size.toNat ∧ good s j x

section Requests

variable {mf : ManifestWithNamespaceId} {slices : List SliceDescriptor}

theorem spot_mem {p j : Nat} {s : SliceDescriptor} (h : spot slices p = some (s, j)) :
    s ∈ slices ∧ j < s.size.toNat := by
  induction slices generalizing p with
  | nil => cases h
  | cons s' rest ih =>
    rw [spot] at h
    split at h
    · cases h
      exact ⟨mem_cons_self, ‹_›⟩
    · obtain ⟨hmem, hj⟩ := ih h
      exact ⟨mem_cons_of_mem _ hmem, hj⟩

theorem spot_add {p j d : Nat} {s : SliceDescriptor} (h : spot slices p = some (s, j))
    (hd : j + d < s.size.toNat) : spot slices (p + d) = some (s, j + d) := by
  induction slices generalizing p with
  | nil => cases h
  | cons s' rest ih =>
    rw [spot] at h
    split at h
    · cases h
      rw [spot, if_pos hd]
    · have hp : p + d - s'.size.toNat = p - s'.size.toNat + d := by omega
      rw [spot, if_neg (by omega), hp, ih h]

theorem foldlM_resolve (hmf : mf.WellFormed)
    (h : ∀ s ∈ slices, s.offset.toNat + s.size.toNat ≤ mf.paddedSize)
    (results : List (Nat × Location)) :
    ∃ locations,
      slices.foldlM
          (fun results s => resolveSliceOneLevel mf s.size.toNat results s.offset s.size s.buf) results =
        .ok (results ++ locations) ∧
      Tiles width (InSlices slices fun s => Piece mf s.offset.toNat s.buf) 0 (requested slices)
        locations := by
  induction slices generalizing results with
  | nil => exact ⟨[], by simp [pure, Except.pure], rfl⟩
  | cons s rest ih =>
    obtain ⟨first, hfirst, htiles⟩ := resolveSliceOneLevel_eq results s.buf hmf
      (h s mem_cons_self) le_rfl
    obtain ⟨others, hothers, hrest⟩ :=
      ih (fun s hs => h s (mem_cons_of_mem _ hs)) (results ++ first)
    have hhere : Tiles width (InSlices (s :: rest) fun s => Piece mf s.offset.toNat s.buf) 0
        s.size.toNat first :=
      htiles.bounded.shift (d := 0) fun p x ⟨hx, hpos, hend⟩ =>
        ⟨s, p, by rw [Nat.add_zero, spot, if_pos (by omega)], by omega, hx⟩
    have hthere : Tiles width (InSlices (s :: rest) fun s => Piece mf s.offset.toNat s.buf)
        (0 + s.size.toNat) (requested rest) others :=
      hrest.shift fun p x ⟨s', j, hs', hx⟩ =>
        ⟨s', j, by rw [spot, if_neg (by omega), Nat.add_sub_cancel, hs'], hx⟩
    refine ⟨first ++ others, ?_, hhere.append hthere⟩
    rw [foldlM_cons, hfirst, ok_bind, hothers, append_assoc]

theorem resolveSlices_eq (hmf : mf.WellFormed)
    (h : ∀ s ∈ slices, s.offset.toNat + s.size.toNat ≤ mf.paddedSize) :
    ∃ locations, resolveSlices mf slices = .ok locations ∧
      Tiles width (InSlices slices fun s => Piece mf s.offset.toNat s.buf) 0 (requested slices)
        locations := by
  obtain ⟨locations, hresolve, htiles⟩ := foldlM_resolve hmf h []
  exact ⟨locations, by rw [resolveSlices, hresolve, nil_append], htiles⟩

/-- Resolving the locations of a level either stops at one that is not cached, or puts the locations of
the next level in the place of each. -/
theorem resolveLocations_cases {resolve : ObjectSlices → Except Fault (Option (List (Nat × Location)))}
    {locations : List (Nat × Location)} (h : ∀ x ∈ locations, ∃ r, resolve (nextSlices x) = .ok r) :
    (resolveLocations resolve locations = .ok none ∧
        ∃ x ∈ locations, resolve (nextSlices x) = .ok none) ∨
      ∃ parts, resolveLocations resolve locations = .ok (some parts.flatten) ∧
        List.Forall₂ (fun x part => resolve (nextSlices x) = .ok (some part)) locations parts := by
  induction locations with
  | nil => exact .inr ⟨[], rfl, .nil⟩
  | cons x rest ih =>
    obtain ⟨r, hr⟩ := h x mem_cons_self
    rw [resolveLocations, hr]
    cases r with
    | none => exact .inl ⟨rfl, x, mem_cons_self, hr⟩
    | some part =>
      rcases ih fun y hy => h y (mem_cons_of_mem _ hy) with ⟨hnone, y, hy, hry⟩ | ⟨parts, hparts, hall⟩
      · exact .inl ⟨by simp only [ok_bind, hnone]; rfl, y, mem_cons_of_mem _ hy, hry⟩
      · exact .inr ⟨part :: parts, by simp only [ok_bind, hparts]; rfl, .cons hr hall⟩

end Requests

section ManyLevels

variable {cache : ManifestCache} {namespace_ : Bytes} {levels : List Bytes} {o : ObjectSlices}
  {mf : ManifestWithNamespaceId} {albaId : Bytes}

theorem Piece.final {offset target j : Nat} {x : Nat × Location} (h : Piece mf offset target j x) :
    FinalPiece cache namespace_ [albaId] mf offset target j x := by
  obtain ⟨c, f, fragment, s, hin, hs, hat, hend⟩ := h.place
  exact ⟨h.target, mf, c, f, fragment, hin, fun i hi => .last (hat.shift hs (by omega))⟩

/-- No fragment is known for a byte: a manifest on the way to it is not cached. -/
def Unknown (cache : ManifestCache) (namespace_ : Bytes) (levels : List Bytes)
    (mf : ManifestWithNamespaceId) (pos : Nat) : Prop :=
  ∀ last c f q fragment, ¬ Stored cache namespace_ levels mf pos last c f q fragment

/-- What `_resolve_one_many_levels` returns for slices of the padded object: nothing when a byte leads to
a manifest that is not cached, and a tiling otherwise. -/
structure Resolved (cache : ManifestCache) (namespace_ : Bytes) (levels : List Bytes)
    (mf : ManifestWithNamespaceId) (slices : List SliceDescriptor)
    (r : Option (List (Nat × Location))) : Prop where
  missing : r = none → ∃ s ∈ slices, ∃ j < s.size.toNat,
    Unknown cache namespace_ levels mf (s.offset.toNat + j)
  tiles : ∀ locations, r = some locations →
    Tiles width (InSlices slices fun s =>
      FinalPiece cache namespace_ levels mf s.offset.toNat s.buf) 0 (requested slices) locations

theorem resolveOneManyLevels_of_none (h : cache namespace_ albaId o.objectName = none) :
    resolveOneManyLevels cache namespace_ (albaId :: levels) o = .ok none := by
  cases levels with
  | nil => simp only [resolveOneManyLevels, resolveOneLevel, h]
  | cons next levels =>
    simp only [resolveOneManyLevels, resolveOneLevel, h]
    rfl

section Descend

variable {albaId next : Bytes} {offset target j : Nat} {x : Nat × Location}

section

variable (h : Piece mf offset target j x)
include h

theorem Piece.nextName :
    ∃ c f fragment s, (nextSlices x).objectName = fragmentCacheObjectName mf.objectId c f ∧
      mf.chunkSizes[c]? = some s ∧ f < mf.encodingScheme.k.toNat ∧
      x.2.offset.toNat + x.2.length.toNat ≤ s.toNat / mf.encodingScheme.k.toNat ∧
      ∀ i < width x, mf.IsAt (offset + j + i) c f (x.2.offset.toNat + i) fragment := by
  obtain ⟨c, f, fragment, s, hin, hs, hat, hbound⟩ := h.place
  refine ⟨c, f, fragment, s, ?_, hs, hat.data, hbound, fun i hi => hat.shift hs ?_⟩
  · rw [nextSlices, hin.objectId, hin.chunkId, hin.fragmentId]
  · simp only [width] at hi
    omega

theorem Piece.descend {j' : Nat} {y : Nat × Location} {mf' : ManifestWithNamespaceId}
    (hfound : cache namespace_ next (nextSlices x).objectName = some mf')
    (hy : FinalPiece cache namespace_ (next :: levels) mf' x.2.offset.toNat x.1 j' y)
    (hend : j' + width y ≤ width x) :
    FinalPiece cache namespace_ (albaId :: next :: levels) mf offset target (j + j') y := by
  obtain ⟨c, f, fragment, s, hname, _, _, _, hat⟩ := h.nextName
  obtain ⟨last, c', f', fragment', hin', hstored⟩ := hy.place
  refine ⟨by rw [hy.target, h.target, Nat.add_assoc], last, c', f', fragment', hin', fun i hi => ?_⟩
  have hhere := hat (j' + i) (by simp only [width] at hend ⊢; omega)
  have hplace : offset + (j + j') + i = offset + j + (j' + i) := by omega
  rw [hplace]
  exact .next hhere (hname ▸ hfound) (by rw [← Nat.add_assoc]; exact hstored i hi)

theorem Piece.unknown {i : Nat} (hi : i < width x)
    (hbelow : ∀ mf', cache namespace_ next (nextSlices x).objectName = some mf' →
      Unknown cache namespace_ (next :: levels) mf' (x.2.offset.toNat + i)) :
    Unknown cache namespace_ (albaId :: next :: levels) mf (offset + j + i) := by
  obtain ⟨c, f, fragment, s, hname, _, _, _, hat⟩ := h.nextName
  intro last c' f' q' fragment' hstored
  cases hstored with
  | next here found below =>
    obtain ⟨rfl, rfl, rfl, _⟩ := here.unique (hat i hi)
    exact hbelow _ (hname ▸ found) _ _ _ _ _ below

theorem Piece.resolved (hnested : Nested cache namespace_ (albaId :: next :: levels) mf)
    (hnext : ∀ mf', cache namespace_ next (nextSlices x).objectName = some mf' → mf'.WellFormed →
      Nested cache namespace_ (next :: levels) mf' →
      (∀ s ∈ (nextSlices x).slices, s.offset.toNat + s.size.toNat ≤ mf'.paddedSize) →
      ∃ r, resolveOneManyLevels cache namespace_ (next :: levels) (nextSlices x) = .ok r ∧
        Resolved cache namespace_ (next :: levels) mf' (nextSlices x).slices r) :
    ∃ r, resolveOneManyLevels cache namespace_ (next :: levels) (nextSlices x) = .ok r ∧
      (r = none → 0 < width x → ∃ i < width x,
        Unknown cache namespace_ (albaId :: next :: levels) mf (offset + j + i)) ∧
      ∀ part, r = some part →
        Tiles width (fun j' y => j' + width y ≤ width x ∧
          FinalPiece cache namespace_ (albaId :: next :: levels) mf offset target (j + j') y)
          0 (width x) part := by
  obtain ⟨c, f, fragment, s, hname, hs, hf, hbound, hat⟩ := h.nextName
  cases hfound : cache namespace_ next (nextSlices x).objectName with
  | none =>
    exact ⟨none, resolveOneManyLevels_of_none hfound,
      fun _ hpos => ⟨0, hpos, h.unknown hpos (by simp [hfound])⟩, by simp⟩
  | some mf' =>
    obtain ⟨hmf', hroom, hbelow⟩ := hnested c f s mf' hs hf (hname ▸ hfound)
    obtain ⟨r, hr, hresolved⟩ := hnext mf' hfound hmf' hbelow (by
      simp only [nextSlices, mem_singleton, forall_eq, UInt32.toNat_toUInt64]
      omega)
    refine ⟨r, hr, fun hnone _ => ?_, fun part hpart => ?_⟩
    · obtain ⟨s', hs', i, hi, hunknown⟩ := hresolved.missing hnone
      cases mem_singleton.mp hs'
      exact ⟨i, hi, h.unknown hi fun mf'' h => Option.some.inj (hfound.symm.trans h) ▸ by
        simpa using hunknown⟩
    · have htiles := hresolved.tiles part hpart
      have hwidth : requested (nextSlices x).slices = width x := by simp [requested, nextSlices, width]
      rw [hwidth] at htiles
      refine htiles.shift (d := 0) fun p y hpiece => ?_
      obtain ⟨s', j', hs', hend, hy⟩ := hpiece
      simp only [nextSlices, spot] at hs'
      split at hs'
      · cases hs'
        exact ⟨hend, h.descend hfound (by simpa using hy) hend⟩
      · cases hs'

end

end Descend

/-- `_resolve_one_many_levels` does not fault on slices of the padded object. -/
theorem resolveOneManyLevels_eq (hmf : mf.WellFormed)
    (hfound : cache namespace_ albaId o.objectName = some mf)
    (hnested : Nested cache namespace_ (albaId :: levels) mf)
    (h : ∀ s ∈ o.slices, s.offset.toNat + s.size.toNat ≤ mf.paddedSize) :
    ∃ r, resolveOneManyLevels cache namespace_ (albaId :: levels) o = .ok r ∧
      Resolved cache namespace_ (albaId :: levels) mf o.slices r := by
  induction levels generalizing albaId o mf with
  | nil =>
    obtain ⟨locations, hresolve, htiles⟩ := resolveSlices_eq hmf h
    refine ⟨some locations, ?_, by simp, ?_⟩
    · rw [resolveOneManyLevels, resolveOneLevel, hfound]
      simp only [hresolve]
      rfl
    · rintro _ ⟨⟩
      exact htiles.shift (d := 0) fun p x ⟨s, j, hs, hend, hx⟩ => ⟨s, j, hs, hend, hx.final⟩
  | cons next levels ih =>
    obtain ⟨locations, hresolve, htiles⟩ := resolveSlices_eq hmf h
    have hpieces : ∀ x ∈ locations, ∃ s ∈ o.slices, ∃ j, j + width x ≤ s.size.toNat ∧ 0 < width x ∧
        Piece mf s.offset.toNat s.buf j x := fun x hx => by
      obtain ⟨p, ⟨s, j, hs, hend, hpiece⟩, hpos, _⟩ := htiles.mem hx
      exact ⟨s, (spot_mem hs).1, j, hend, hpos, hpiece⟩
    have hone : resolveOneLevel cache namespace_ albaId o = .ok (some locations) := by
      rw [resolveOneLevel, hfound]
      simp only [hresolve]
      rfl
    have hnext : ∀ x, _ := fun x mf' hfound hmf' hbelow hslices =>
      @ih (nextSlices x) mf' next hmf' hfound hbelow hslices
    rw [resolveOneManyLevels, hone, ok_bind]
    have hruns : ∀ x ∈ locations, ∃ r,
        resolveOneManyLevels cache namespace_ (next :: levels) (nextSlices x) = .ok r := fun x hx => by
      obtain ⟨s, _, j, _, _, hpiece⟩ := hpieces x hx
      obtain ⟨r, hr, _⟩ := hpiece.resolved hnested (hnext x)
      exact ⟨r, hr⟩
    rcases resolveLocations_cases hruns with ⟨hnone, x, hx, hxnone⟩ | ⟨parts, hparts, hall⟩
    · refine ⟨none, hnone, fun _ => ?_, by simp⟩
      obtain ⟨s, hs, j, hend, hpos, hpiece⟩ := hpieces x hx
      obtain ⟨r, hr, hmissing, _⟩ := hpiece.resolved hnested (hnext x)
      cases hxnone.symm.trans hr
      obtain ⟨i, hi, hunknown⟩ := hmissing rfl hpos
      exact ⟨s, hs, j + i, by omega, by rwa [← Nat.add_assoc]⟩
    · refine ⟨some parts.flatten, hparts, by simp, ?_⟩
      rintro _ ⟨⟩
      refine htiles.flatten (hall.imp fun x part hpart p ⟨s, j, hs, hend, hpiece⟩ => ?_)
      obtain ⟨r, hr, _, htiles'⟩ := hpiece.resolved hnested (hnext x)
      rw [← Nat.zero_add p]
      refine (htiles' part (Except.ok.inj (hr.symm.trans hpart))).bounded.shift
        fun j' y ⟨⟨hin, hy⟩, hpos, _⟩ => ⟨s, j + j', ?_, by omega, hy⟩
      rw [Nat.add_comm j']
      exact spot_add hs (by omega)

end ManyLevels

end Alba.Rora
