import Alba.Transfer.Slices

/-! Which requests `_download_object_slices` serves or rejects as it should. The check looks at
neighbours of the sorted list and at its last slice, so a slice of positive length that is followed by
an empty one at the same offset escapes it. -/

namespace Alba.Transfer

open List hiding next
open ProofKit

namespace Interval

/-- The slice that the check starts from. -/
def sentinel : Interval := { offset := -1, length := 0 }

/-- No length is negative and no slice overlaps the one before it. -/
structure Neighbours (prev : Interval) (l : List Interval) : Prop where
  lengths : ∀ t ∈ l, 0 ≤ t.length
  chain : List.IsChain (fun a b => a.overlap b = false) (prev :: l)

instance (prev : Interval) (l : List Interval) : Decidable (Neighbours prev l) :=
  decidable_of_iff (_ ∧ _) ⟨fun h => ⟨h.1, h.2⟩, fun h => ⟨h.lengths, h.chain⟩⟩

/-- Where the next slice of positive length starts, or else the object ends. -/
def nextStart (size : Int) (l : List Interval) : Int :=
  ((l.find? fun t => 0 < t.length).map offset).getD size

/-- A slice of positive length is followed by an empty one at the same offset, and is too long for what
comes after it. -/
def Hides (size : Int) : List Interval → Prop
  | t :: e :: l => (0 < t.length ∧ e.length = 0 ∧ e.offset = t.offset ∧ nextStart size l < t.next) ∨
      Hides size (e :: l)
  | _ => False

instance Hides.decidable (size : Int) : DecidablePred (Hides size)
  | [] => .isFalse id
  | [_] => .isFalse id
  | _ :: e :: l =>
    have : Decidable (Hides size (e :: l)) := Hides.decidable size (e :: l)
    inferInstanceAs (Decidable (_ ∨ _))

def StartsBelow (l : List Interval) : Prop := ∃ t ∈ l, 0 < t.length ∧ t.offset < 0

def EndsAbove (size : Int) (l : List Interval) : Prop := ∃ t ∈ l, 0 < t.length ∧ size < t.next

instance (l : List Interval) : Decidable (StartsBelow l) :=
  inferInstanceAs (Decidable (∃ t ∈ l, _))

instance (size : Int) (l : List Interval) : Decidable (EndsAbove size l) :=
  inferInstanceAs (Decidable (∃ t ∈ l, _))

def totalLength (l : List Interval) : Int := (l.map length).sum

/-- The requests that the check gets wrong: one that it lets pass, or one that is too long as a whole
and fails with the assertion. -/
def Slips (size : Int) (l : List Interval) : Prop :=
  Neighbours sentinel l ∧ 0 < totalLength l ∧
    if totalLength l < 2 ^ 32 then
      (l.getLastD sentinel).next ≤ size ∧ (StartsBelow l ∨ Hides size l)
    else StartsBelow l ∨ Hides size l ∨ EndsAbove size l

instance (size : Int) (l : List Interval) : Decidable (Slips size l) :=
  inferInstanceAs (Decidable (_ ∧ _))

/-- Requests that must be rejected. -/
def Bad (size : Int) (l : List Interval) : Prop :=
  (∃ t ∈ l, t.length < 0) ∨ ¬ l.Pairwise (fun a b => ¬ a.Shares b) ∨
    ∃ t ∈ l, 0 < t.length ∧ ¬ (0 ≤ t.offset ∧ t.next ≤ size)

end Interval

section Requests

variable {δ : Type}

def intervals (objectSlices : List (ObjectSlice δ)) : List Interval := objectSlices.map ObjectSlice.slice

/-- What a request gets: its bytes when it is fit to be served, and one of three errors when not. -/
structure Answered (manifest : Manifest) (objectSlices : List (ObjectSlice δ)) : Prop where
  served : ∀ pieces, downloadObjectSlices manifest objectSlices = .ok pieces →
    Served manifest objectSlices pieces ∧
    ∀ s ∈ objectSlices, 0 < s.slice.length → 0 ≤ s.slice.offset ∧ s.slice.next ≤ manifest.size
  rejected : Interval.Bad manifest.size (intervals objectSlices) →
    ∃ e ∈ [SliceError.badSliceLength, .overlappingSlices, .sliceOutsideObject],
      downloadObjectSlices manifest objectSlices = .error e

end Requests

namespace Interval

variable {size : Int} {l : List Interval} {a b : Interval} {t : Interval}

theorem Shares.symm (h : a.Shares b) : b.Shares a := by
  obtain ⟨x, ha, hb⟩ := h
  exact ⟨x, hb, ha⟩

theorem Shares.length_pos (h : a.Shares b) : 0 < a.length ∧ 0 < b.length := by
  obtain ⟨x, ha, hb⟩ := h
  simp only [Contains, next] at ha hb
  omega

theorem not_shares_of_next_le (h : a.next ≤ b.offset) : ¬ a.Shares b := by
  rintro ⟨x, ha, hb⟩
  simp only [Contains] at ha hb
  omega

theorem bad_perm {l' : List Interval} (h : l.Perm l') : Bad size l ↔ Bad size l' := by
  have hpairwise := h.pairwise_iff (R := fun a b => ¬ a.Shares b) fun {a b} hab hba => hab hba.symm
  simp only [Bad, h.mem_iff, hpairwise]

theorem overlap_eq_false : a.overlap b = false ↔ a.next ≤ b.offset ∨ b.next ≤ a.offset := by
  simp only [overlap, Bool.not_eq_eq_eq_not, Bool.not_false, Bool.or_eq_true, decide_eq_true_eq]

theorem apart_or_empty (h : a.overlap b = false) (hsorted : a.offset ≤ b.offset) (hb : 0 ≤ b.length) :
    a.next ≤ b.offset ∨ (b.length = 0 ∧ b.offset = a.offset) := by
  rw [overlap_eq_false] at h
  simp only [next] at h ⊢
  omega

theorem nextStart_le_of_mem (hsorted : l.Pairwise fun a b => a.offset ≤ b.offset) (ht : t ∈ l)
    (hpos : 0 < t.length) : nextStart size l ≤ t.offset := by
  induction l with
  | nil => cases ht
  | cons head l ih =>
    obtain ⟨hhead, htail⟩ := pairwise_cons.mp hsorted
    by_cases hp : 0 < head.length
    · simp only [nextStart, find?_cons, hp, decide_true, Option.map_some, Option.getD_some]
      rcases mem_cons.mp ht with rfl | ht
      · exact le_refl _
      · exact hhead t ht
    · have hrec := ih htail ((mem_cons.mp ht).resolve_left (by rintro rfl; exact hp hpos))
      simpa [nextStart, find?_cons, hp] using hrec

theorem exists_of_nextStart (size : Int) (l : List Interval) :
    (nextStart size l = size ∧ ∀ t ∈ l, ¬ 0 < t.length) ∨
      ∃ t ∈ l, 0 < t.length ∧ nextStart size l = t.offset := by
  unfold nextStart
  cases h : l.find? (fun t => 0 < t.length) with
  | none =>
    left
    simpa using h
  | some t =>
    right
    have hpos := find?_some h
    exact ⟨t, mem_of_find?_eq_some h, by simpa using hpos, rfl⟩

theorem Hides.cons (h : Hides size l) : Hides size (t :: l) := by
  cases l with
  | nil => exact h.elim
  | cons e l => exact .inr h

theorem le_getLastD_next (hsorted : (t :: l).Pairwise fun a b => a.offset ≤ b.offset)
    (hlengths : ∀ u ∈ t :: l, 0 ≤ u.length) (prev : Interval) :
    t.offset ≤ ((t :: l).getLastD prev).next := by
  obtain ⟨hfirst, -⟩ := pairwise_cons.mp hsorted
  have hmem : (t :: l).getLastD prev ∈ t :: l := by
    rw [getLastD_eq_getLast?, getLast?_eq_some_getLast (cons_ne_nil t l)]
    exact getLast_mem _
  have hlength := hlengths _ hmem
  rcases mem_cons.mp hmem with heq | hin
  · rw [heq] at hlength ⊢
    simp only [next]
    omega
  · have h := hfirst _ hin
    simp only [next]
    omega

theorem first_fits (hpos : 0 < t.length)
    (hsorted : (t :: l).Pairwise fun a b => a.offset ≤ b.offset) (h : Neighbours t l)
    (hhides : ¬ Hides size (t :: l)) (hends : ¬ EndsAbove size l)
    (hlast : (l.getLastD t).next ≤ size ∨ t.next ≤ size) :
    t.next ≤ size ∧ ∀ u ∈ l, 0 < u.length → t.next ≤ u.offset := by
  obtain ⟨hfirst, hrest⟩ := pairwise_cons.mp hsorted
  cases l with
  | nil => exact ⟨by simpa using hlast, by simp⟩
  | cons e l =>
    obtain ⟨hafter, hrest'⟩ := pairwise_cons.mp hrest
    obtain ⟨hoverlap, -⟩ := isChain_cons_cons.mp h.chain
    rcases apart_or_empty hoverlap (hfirst e (by simp)) (h.lengths e (by simp)) with hapart | ⟨h0, heq⟩
    · have hle := le_getLastD_next hrest h.lengths t
      refine ⟨by omega, fun u hu _ => ?_⟩
      rcases mem_cons.mp hu with rfl | hu
      · exact hapart
      · exact hapart.trans (hafter u hu)
    · -- the empty slice hides this one, which must fit by itself
      have hfits : t.next ≤ nextStart size l := by
        by_contra hlong
        exact hhides (.inl ⟨hpos, h0, heq, by omega⟩)
      refine ⟨?_, fun u hu hu' => ?_⟩
      · rcases exists_of_nextStart size l with ⟨hsize, -⟩ | ⟨u, hu, hu', hstart⟩
        · omega
        · have hend : ¬ size < u.next := fun hend => hends ⟨u, mem_cons_of_mem e hu, hu', hend⟩
          simp only [next] at hend hfits ⊢
          omega
      · have hin : u ∈ l := (mem_cons.mp hu).resolve_left (by rintro rfl; omega)
        exact hfits.trans (nextStart_le_of_mem hrest' hin hu')

/-- A sorted list whose neighbours are apart and that hides nothing: its slices of positive length
follow each other and end where the last one may end. -/
theorem apart_of_neighbours {prev : Interval} (hsorted : l.Pairwise fun a b => a.offset ≤ b.offset)
    (h : Neighbours prev l) (hhides : ¬ Hides size l)
    (hlast : (l.getLastD prev).next ≤ size ∨ ¬ EndsAbove size l) :
    l.Pairwise (fun a b => 0 < a.length → 0 < b.length → a.next ≤ b.offset) ∧ ¬ EndsAbove size l := by
  induction l generalizing prev with
  | nil => exact ⟨.nil, by simp [EndsAbove]⟩
  | cons t l ih =>
    obtain ⟨hfirst, hrest⟩ := pairwise_cons.mp hsorted
    obtain ⟨-, hchain⟩ := isChain_cons_cons.mp h.chain
    have hlengths : ∀ u ∈ l, 0 ≤ u.length := fun u hu => h.lengths u (mem_cons_of_mem t hu)
    have habove : EndsAbove size l → EndsAbove size (t :: l) := fun ⟨u, hu, hend⟩ =>
      ⟨u, mem_cons_of_mem t hu, hend⟩
    obtain ⟨hpairwise, hends⟩ := ih hrest ⟨hlengths, hchain⟩ (fun hl => hhides hl.cons)
      (by rw [getLastD_cons] at hlast; exact hlast.imp_right fun hnot hl => hnot (habove hl))
    have hthis : 0 < t.length → t.next ≤ size ∧ ∀ u ∈ l, 0 < u.length → t.next ≤ u.offset := by
      intro hpos
      refine first_fits hpos hsorted ⟨hlengths, hchain⟩ hhides hends ?_
      rw [getLastD_cons] at hlast
      refine hlast.imp_right fun hnot => ?_
      by_contra hend
      exact hnot ⟨t, by simp, hpos, by omega⟩
    refine ⟨pairwise_cons.mpr ⟨fun u hu hpos hu' => (hthis hpos).2 u hu hu', hpairwise⟩, ?_⟩
    rintro ⟨u, hu, hpos, hend⟩
    rcases mem_cons.mp hu with rfl | hu
    · have := (hthis hpos).1
      omega
    · exact hends ⟨u, hu, hpos, hend⟩

theorem Bad.cons (h : Bad size l) : Bad size (t :: l) := by
  rcases h with ⟨u, hu, hlength⟩ | hshares | ⟨u, hu, hout⟩
  · exact .inl ⟨u, mem_cons_of_mem t hu, hlength⟩
  · exact .inr (.inl fun hpairwise => hshares hpairwise.of_cons)
  · exact .inr (.inr ⟨u, mem_cons_of_mem t hu, hout⟩)

theorem StartsBelow.bad (h : StartsBelow l) : Bad size l := by
  obtain ⟨t, ht, hpos, hbelow⟩ := h
  exact .inr (.inr ⟨t, ht, hpos, by omega⟩)

theorem EndsAbove.bad (h : EndsAbove size l) : Bad size l := by
  obtain ⟨t, ht, hpos, habove⟩ := h
  exact .inr (.inr ⟨t, ht, hpos, by omega⟩)

theorem Hides.bad (hsorted : l.Pairwise fun a b => a.offset ≤ b.offset) (h : Hides size l) :
    Bad size l := by
  induction l with
  | nil => exact h.elim
  | cons t l ih =>
    obtain ⟨hfirst, hrest⟩ := pairwise_cons.mp hsorted
    cases l with
    | nil => exact h.elim
    | cons e l =>
      rcases h with ⟨hpos, -, -, hlong⟩ | h
      · rcases exists_of_nextStart size l with ⟨hsize, -⟩ | ⟨u, hu, hu', hstart⟩
        · exact EndsAbove.bad ⟨t, by simp, hpos, by omega⟩
        · -- the two slices share the first byte of the second
          have hin : u ∈ e :: l := mem_cons_of_mem e hu
          have hle := hfirst u hin
          refine .inr (.inl fun hpairwise => (pairwise_cons.mp hpairwise).1 u hin ⟨u.offset, ?_, ?_⟩)
          · simp only [Contains]
            omega
          · simp only [Contains, next]
            omega
      · exact (ih hrest h).cons

theorem not_bad (hlengths : ∀ t ∈ l, 0 ≤ t.length) (hbelow : ¬ StartsBelow l)
    (hpairwise : l.Pairwise fun a b => 0 < a.length → 0 < b.length → a.next ≤ b.offset)
    (habove : ¬ EndsAbove size l) : ¬ Bad size l := by
  rintro (⟨t, ht, hlength⟩ | hshares | ⟨t, ht, hpos, hout⟩)
  · have h := hlengths t ht
    omega
  · refine hshares (hpairwise.imp fun {a b} hab hshare => ?_)
    exact not_shares_of_next_le (hab hshare.length_pos.1 hshare.length_pos.2) hshare
  · have hlow : 0 ≤ t.offset := by
      by_contra hlow
      exact hbelow ⟨t, ht, hpos, by omega⟩
    exact habove ⟨t, ht, hpos, by omega⟩

theorem length_eq_zero_of_totalLength (hlengths : ∀ t ∈ l, 0 ≤ t.length) (h : totalLength l = 0) :
    ∀ t ∈ l, t.length = 0 := by
  induction l with
  | nil => simp
  | cons u l ih =>
    have hu := hlengths u (by simp)
    have hrest : ∀ t ∈ l, 0 ≤ t.length := fun t ht => hlengths t (mem_cons_of_mem u ht)
    have hsum : 0 ≤ (l.map length).sum := sum_nonneg (by simpa using hrest)
    simp only [totalLength, map_cons, sum_cons] at h ih
    intro t ht
    rcases mem_cons.mp ht with rfl | ht
    · omega
    · exact ih hrest (by omega) t ht

end Interval

section Check

variable {δ : Type} (slices : List (ObjectSlice δ)) (prev : Interval) (acc : Int)

theorem checkSlice_cases (s : ObjectSlice δ) :
    (0 ≤ s.slice.length ∧ prev.overlap s.slice = false ∧
      checkSlice (prev, acc) s = .ok (s.slice, acc + s.slice.length)) ∨
    (¬ (0 ≤ s.slice.length ∧ prev.overlap s.slice = false) ∧
      ∃ e ∈ [SliceError.badSliceLength, .overlappingSlices], checkSlice (prev, acc) s = .error e) := by
  unfold checkSlice check
  by_cases hlength : s.slice.length < 0
  · right
    refine ⟨by omega, .badSliceLength, by simp, ?_⟩
    simp [hlength, bind, Except.bind]
  · cases hoverlap : prev.overlap s.slice with
    | false =>
      left
      refine ⟨by omega, rfl, ?_⟩
      simp [hlength, bind, Except.bind, pure, Except.pure]
    | true =>
      right
      refine ⟨by simp, .overlappingSlices, by simp, ?_⟩
      simp [hlength, bind, Except.bind]

theorem checkSlices_cases :
    (Interval.Neighbours prev (intervals slices) ∧ slices.foldlM checkSlice (prev, acc) =
      .ok ((intervals slices).getLastD prev, acc + Interval.totalLength (intervals slices))) ∨
    (¬ Interval.Neighbours prev (intervals slices) ∧
      ∃ e ∈ [SliceError.badSliceLength, .overlappingSlices],
        slices.foldlM checkSlice (prev, acc) = .error e) := by
  induction slices generalizing prev acc with
  | nil =>
    left
    refine ⟨⟨by simp [intervals], by simp [intervals]⟩, ?_⟩
    simp [intervals, Interval.totalLength, pure, Except.pure]
  | cons s slices ih =>
    rw [foldlM_cons]
    rcases checkSlice_cases prev acc s with ⟨hlength, hoverlap, hs⟩ | ⟨hnot, e, he, hs⟩
    · rw [hs, ok_bind]
      rcases ih s.slice (acc + s.slice.length) with ⟨h, hok⟩ | ⟨hnot, herror⟩
      · left
        refine ⟨⟨?_, ?_⟩, ?_⟩
        · simpa [intervals] using ⟨hlength, by simpa [intervals] using h.lengths⟩
        · exact isChain_cons_cons.mpr ⟨hoverlap, h.chain⟩
        · have hcons : intervals (s :: slices) = s.slice :: intervals slices := rfl
          rw [hok, hcons, getLastD_cons]
          simp [Interval.totalLength, Int.add_assoc]
      · right
        refine ⟨fun h => hnot ⟨fun t ht => ?_, (isChain_cons_cons.mp h.chain).2⟩, herror⟩
        exact h.lengths t (mem_cons_of_mem _ ht)
    · right
      refine ⟨fun h => hnot ⟨h.lengths s.slice (by simp [intervals]), ?_⟩, e, he, by rw [hs]; rfl⟩
      exact (isChain_cons_cons.mp h.chain).1

end Check

section Contract

variable {δ : Type} {manifest : Manifest} {objectSlices : List (ObjectSlice δ)} {size : Int}

theorem intervals_sorted (objectSlices : List (ObjectSlice δ)) :
    (intervals (sortSlices objectSlices)).Pairwise fun a b => a.offset ≤ b.offset := by
  have : IsTrans (ObjectSlice δ) fun a b => a.slice.offset ≤ b.slice.offset :=
    ⟨fun _ _ _ => Int.le_trans⟩
  have : Std.Total (α := ObjectSlice δ) fun a b => a.slice.offset ≤ b.slice.offset :=
    ⟨fun a b => Int.le_total _ _⟩
  exact pairwise_map.mpr (pairwise_insertionSort _ objectSlices)

theorem intervals_perm (objectSlices : List (ObjectSlice δ)) :
    (intervals (sortSlices objectSlices)).Perm (intervals objectSlices) :=
  (perm_insertionSort _ objectSlices).map _

theorem downloadObjectSlices_of_neighbours (manifest : Manifest)
    (h : Interval.Neighbours Interval.sentinel (intervals (sortSlices objectSlices))) :
    let l := intervals (sortSlices objectSlices)
    downloadObjectSlices manifest objectSlices =
      if Interval.totalLength l < 2 ^ 32 then
        if Interval.totalLength l = 0 then .ok []
        else if (manifest.size : Int) < (l.getLastD Interval.sentinel).next then .error .sliceOutsideObject
        else .ok (manifest.chunkSizes.foldl
          (intersectChunk manifest.k (sortSlices objectSlices)) (0, 0, [])).2.2
      else .error .assertFailure := by
  rcases checkSlices_cases (sortSlices objectSlices) Interval.sentinel 0 with ⟨-, hok⟩ | ⟨hnot, -⟩
  · simp only [downloadObjectSlices]
    rw [show ({ offset := -1, length := 0 } : Interval) = Interval.sentinel from rfl, hok, ok_bind]
    simp only [Int.zero_add, check]
    by_cases hshort : Interval.totalLength (intervals (sortSlices objectSlices)) < 2 ^ 32
    · rw [if_pos hshort, if_pos hshort, ok_bind]
      by_cases hzero : Interval.totalLength (intervals (sortSlices objectSlices)) = 0
      · rw [if_pos hzero, if_pos hzero]
        rfl
      · rw [if_neg hzero, if_neg hzero]
        by_cases hlast : (manifest.size : Int) <
            ((intervals (sortSlices objectSlices)).getLastD Interval.sentinel).next
        · rw [if_neg (not_not_intro hlast), if_pos hlast]
          rfl
        · rw [if_pos hlast, if_neg hlast]
          rfl
    · rw [if_neg hshort, if_neg hshort]
      rfl
  · exact absurd h hnot

theorem downloadObjectSlices_of_not_neighbours (manifest : Manifest)
    (h : ¬ Interval.Neighbours Interval.sentinel (intervals (sortSlices objectSlices))) :
    ∃ e ∈ [SliceError.badSliceLength, .overlappingSlices],
      downloadObjectSlices manifest objectSlices = .error e := by
  rcases checkSlices_cases (sortSlices objectSlices) Interval.sentinel 0 with ⟨hyes, -⟩ | ⟨-, e, he, herror⟩
  · exact absurd hyes h
  · refine ⟨e, he, ?_⟩
    simp only [downloadObjectSlices]
    rw [show ({ offset := -1, length := 0 } : Interval) = Interval.sentinel from rfl, herror]
    rfl

theorem Interval.Slips.bad {l : List Interval} (hsorted : l.Pairwise fun a b => a.offset ≤ b.offset)
    (h : Interval.Slips size l) : Interval.Bad size l := by
  obtain ⟨-, -, h⟩ := h
  split at h
  · exact h.2.elim StartsBelow.bad (Hides.bad hsorted)
  · exact h.elim StartsBelow.bad (Or.elim · (Hides.bad hsorted) EndsAbove.bad)

/-- A request that passes the neighbour check and does not slip through is not bad, unless its last slice
gives it away. -/
theorem Interval.Neighbours.not_bad {l : List Interval} (h : Interval.Neighbours Interval.sentinel l)
    (hsorted : l.Pairwise fun a b => a.offset ≤ b.offset) (hslips : ¬ Interval.Slips size l)
    (hlast : Interval.totalLength l < 2 ^ 32 → Interval.totalLength l ≠ 0 →
      (l.getLastD Interval.sentinel).next ≤ size) : ¬ Interval.Bad size l := by
  by_cases hzero : Interval.totalLength l = 0
  · have hlengths := Interval.length_eq_zero_of_totalLength h.lengths hzero
    refine Interval.not_bad h.lengths ?_ ?_ ?_
    · rintro ⟨t, ht, hpos, -⟩
      exact absurd (hlengths t ht) (by omega)
    · refine List.Pairwise.imp_of_mem (R := fun _ _ => True) (fun {a b} ha _ _ hpos => ?_)
        (pairwise_of_forall fun _ _ => trivial)
      exact absurd (hlengths a ha) (by omega)
    · rintro ⟨t, ht, hpos, -⟩
      exact absurd (hlengths t ht) (by omega)
  · have hpos : 0 < Interval.totalLength l := by
      have hsum : 0 ≤ Interval.totalLength l := sum_nonneg (by simpa using h.lengths)
      omega
    have hkinds : ¬ if Interval.totalLength l < 2 ^ 32 then
        (l.getLastD Interval.sentinel).next ≤ size ∧ (Interval.StartsBelow l ∨ Interval.Hides size l)
        else Interval.StartsBelow l ∨ Interval.Hides size l ∨ Interval.EndsAbove size l :=
      fun hkinds => hslips ⟨h, hpos, hkinds⟩
    split at hkinds
    · rename_i hshort
      have hfit := hlast hshort hzero
      obtain ⟨hpairwise, habove⟩ := Interval.apart_of_neighbours hsorted h
        (fun hhides => hkinds ⟨hfit, .inr hhides⟩) (.inl hfit)
      exact Interval.not_bad h.lengths (fun hbelow => hkinds ⟨hfit, .inl hbelow⟩) hpairwise habove
    · have habove : ¬ Interval.EndsAbove size l := fun habove => hkinds (.inr (.inr habove))
      obtain ⟨hpairwise, -⟩ := Interval.apart_of_neighbours hsorted h
        (fun hhides => hkinds (.inr (.inl hhides))) (.inr habove)
      exact Interval.not_bad h.lengths (fun hbelow => hkinds (.inl hbelow)) hpairwise habove

theorem not_answered_of_slips (h : Interval.Slips manifest.size (intervals (sortSlices objectSlices))) :
    ¬ Answered manifest objectSlices := by
  intro answered
  have hbad := (Interval.bad_perm (intervals_perm objectSlices)).mp (h.bad (intervals_sorted objectSlices))
  obtain ⟨e, he, herror⟩ := answered.rejected hbad
  obtain ⟨hneighbours, hpos, hslips⟩ := h
  rw [downloadObjectSlices_of_neighbours manifest hneighbours] at herror
  by_cases hshort : Interval.totalLength (intervals (sortSlices objectSlices)) < 2 ^ 32
  · rw [if_pos hshort] at hslips herror
    rw [if_neg (by omega), if_neg (by omega)] at herror
    cases herror
  · rw [if_neg hshort] at herror
    cases herror
    simp at he

theorem bad_inside (h : ¬ Interval.Bad size (intervals objectSlices)) :
    ∀ s ∈ objectSlices, 0 < s.slice.length → 0 ≤ s.slice.offset ∧ s.slice.next ≤ size := by
  intro s hs hpos
  by_contra hout
  exact h (.inr (.inr ⟨s.slice, mem_map_of_mem hs, hpos, hout⟩))

/-- A request is served or rejected as it should be exactly when it does not slip through the check. -/
theorem downloadObjectSlices_answered_iff (manifest : Manifest) (objectSlices : List (ObjectSlice δ))
    (hsizes : ∀ n ∈ manifest.chunkSizes, 0 < n ∧ manifest.k ∣ n)
    (hsum : manifest.size ≤ manifest.chunkSizes.sum) (hdest : objectSlices.Pairwise ObjectSlice.Apart) :
    Answered manifest objectSlices ↔
      ¬ Interval.Slips manifest.size (intervals (sortSlices objectSlices)) := by
  refine ⟨fun answered h => not_answered_of_slips h answered, fun hslips => ?_⟩
  have hsorted := intervals_sorted objectSlices
  by_cases h : Interval.Neighbours Interval.sentinel (intervals (sortSlices objectSlices))
  · have hequation := downloadObjectSlices_of_neighbours manifest h
    have hnotBad := fun hlast hbad => h.not_bad hsorted hslips hlast
      ((Interval.bad_perm (intervals_perm objectSlices)).mpr hbad)
    simp only at hequation
    split at hequation
    · split at hequation
      · -- there is nothing to read
        rename_i hzero
        have hempty : ¬ Interval.Bad manifest.size (intervals objectSlices) :=
          hnotBad fun _ hpos => absurd hzero hpos
        refine ⟨fun pieces hok => ?_, fun hbad => absurd hbad hempty⟩
        cases hequation.symm.trans hok
        have hlengths : ∀ s ∈ objectSlices, s.slice.length = 0 := fun s hs =>
          Interval.length_eq_zero_of_totalLength h.lengths hzero s.slice
            ((intervals_perm objectSlices).mem_iff.mpr (mem_map_of_mem hs))
        refine ⟨⟨nodup_nil, fun s hs i hi hlength => ?_⟩, bad_inside hempty⟩
        rw [hlengths s hs] at hlength
        omega
      · split at hequation
        · refine ⟨fun pieces hok => ?_, fun _ => ⟨_, by simp, hequation⟩⟩
          cases hequation.symm.trans hok
        · rename_i hlast
          have hfit := hnotBad fun _ _ => Int.not_lt.mp hlast
          refine ⟨fun pieces hok => ?_, fun hbad => absurd hbad hfit⟩
          cases hequation.symm.trans hok
          exact ⟨served_of_inside hsizes hsum hdest (bad_inside hfit), bad_inside hfit⟩
    · rename_i hlong
      refine ⟨fun pieces hok => ?_, fun hbad => absurd hbad (hnotBad fun hshort => absurd hshort hlong)⟩
      cases hequation.symm.trans hok
  · obtain ⟨e, he, herror⟩ := downloadObjectSlices_of_not_neighbours manifest h
    refine ⟨fun pieces hok => ?_, fun _ => ⟨e, ?_, herror⟩⟩
    · rw [herror] at hok
      cases hok
    · simp only [mem_cons] at he ⊢
      tauto

end Contract

section Samples

/-- An object of 40 bytes in one chunk of two fragments of 32 bytes. -/
def slicedManifest : Manifest :=
  { name := [], objectId := [], k := 2, m := 1, compression := .noCompression
    encryptInfo := .noEncryption, chunkSizes := [64], size := 40, checksum := .noChecksum
    fragments := [], versionId := 0 }

def objectSlice (offset length destOff : Int) : ObjectSlice Unit :=
  { slice := { offset, length }, dest := (), destOff }

/-- Two slices across the fragment boundary and an empty one are served. -/
theorem downloadObjectSlices_answered_three :
    Answered slicedManifest [objectSlice 20 20 0, objectSlice 0 20 20, objectSlice 0 0 40] := by
  refine (downloadObjectSlices_answered_iff slicedManifest _ (by decide) (by decide) ?_).mpr ?_
  · decide
  · decide

/-- The slice is too long by 10 bytes; the empty one that follows it is the last slice. -/
theorem empty_slice_hides_long_slice :
    ¬ Answered slicedManifest [objectSlice 0 50 0, objectSlice 0 0 50] :=
  not_answered_of_slips (by decide)

end Samples

end Alba.Transfer
