import Alba.ProofKit.Traces

/-! `check_garbage_from_advancer`: the marker from which a restarted device looks for files that nobody
uses. File numbers are released in any order; the marker is to be the first one that was not. -/

namespace Alba.Asd

open ProofKit List

structure Advancer where
  checkGarbageFrom : Int
  mem : Finset Int
  /-- the record of the database -/
  stored : Int
  deriving DecidableEq

namespace Advancer

def minElt (mem : Finset Int) : Option Int := if h : mem.Nonempty then some (mem.min' h) else none

/-- `inner` of `release`. It removes the released number, whatever the first one is. -/
def inner (fnr : Int) : Nat → Advancer → Advancer
  | 0, t => t
  | fuel + 1, t =>
    match minElt t.mem with
    | none => t
    | some first =>
      if first = t.checkGarbageFrom then
        inner fnr fuel { t with mem := t.mem.erase fnr, checkGarbageFrom := t.checkGarbageFrom + 1 }
      else t

/-- A round makes the marker pass a number of `mem`, so there are at most as many as it has numbers. -/
def release (t : Advancer) (fnr : Int) : Advancer :=
  let t := { t with mem := insert fnr t.mem }
  if t.checkGarbageFrom = fnr then
    let t := inner fnr (t.mem.card + 1) t
    { t with stored := t.checkGarbageFrom }
  else t

theorem minElt_eq_some {mem : Finset Int} {first : Int} :
    minElt mem = some first ↔ IsLeast (mem : Set Int) first := by
  unfold minElt
  constructor
  · intro h
    split at h
    · cases h
      exact mem.isLeast_min' _
    · exact nomatch h
  · intro h
    have hne : mem.Nonempty := ⟨first, h.1⟩
    rw [dif_pos hne, (mem.isLeast_min' hne).unique h]

theorem inner_stop {fnr : Int} {t : Advancer} (h : t.checkGarbageFrom ∉ t.mem ∨
    ∃ x ∈ t.mem, x < t.checkGarbageFrom) (fuel : Nat) : inner fnr fuel t = t := by
  cases fuel with
  | zero => rfl
  | succ fuel =>
    rw [inner]
    split
    · rfl
    · rename_i first hfirst
      obtain ⟨hmem, hleast⟩ := minElt_eq_some.mp hfirst
      rw [if_neg]
      rintro rfl
      rcases h with hnot | ⟨x, hx, hlt⟩
      · exact hnot hmem
      · exact absurd (hleast hx) (by omega)

theorem inner_round {fnr : Int} {t : Advancer}
    (h : IsLeast (t.mem : Set Int) t.checkGarbageFrom) (fuel : Nat) : inner fnr (fuel + 1) t =
      inner fnr fuel { t with mem := t.mem.erase fnr, checkGarbageFrom := t.checkGarbageFrom + 1 } := by
  rw [inner, minElt_eq_some.mpr h]
  exact if_pos rfl

/-- The marker and its record are the first number from `start` on that was not released. -/
def Exact (start : Int) (released : List Int) (t : Advancer) : Prop :=
  IsLeast { x | start ≤ x ∧ x ∉ released } t.checkGarbageFrom ∧ t.stored = t.checkGarbageFrom

/-- What `mem` holds while the marker is exact: the released numbers above it, and maybe one below. -/
structure Tracks (start : Int) (released : List Int) (t : Advancer) : Prop where
  exact : Exact start released t
  remembered : ∀ x ∈ t.mem, x ∈ released
  above : ∀ x ∈ released, t.checkGarbageFrom < x → x ∈ t.mem

/-- When the marker itself is released, no number below it is left in `mem`, and not both of the
numbers that follow were released before. -/
def InTurn (t : Advancer) (fnr : Int) : Prop :=
  fnr = t.checkGarbageFrom → (∀ x ∈ t.mem, t.checkGarbageFrom ≤ x) ∧ ¬ (fnr + 1 ∈ t.mem ∧ fnr + 2 ∈ t.mem)

instance (t : Advancer) (fnr : Int) : Decidable (InTurn t fnr) := inferInstanceAs (Decidable (_ → _))

variable {start fnr : Int} {released : List Int} {t : Advancer}

section Release

theorem release_other (h : fnr ≠ t.checkGarbageFrom) :
    t.release fnr = { t with mem := insert fnr t.mem } := by
  rw [release]
  exact if_neg h.symm

/-- The record is written after the loop. -/
def record (t : Advancer) : Advancer := { t with stored := t.checkGarbageFrom }

theorem release_self : t.release t.checkGarbageFrom = record (inner t.checkGarbageFrom
    ((insert t.checkGarbageFrom t.mem).card + 1) { t with mem := insert t.checkGarbageFrom t.mem }) := by
  rw [release]
  exact if_pos rfl

theorem release_blocked (h : ∃ x ∈ t.mem, x < t.checkGarbageFrom) :
    t.release t.checkGarbageFrom =
      { t with mem := insert t.checkGarbageFrom t.mem, stored := t.checkGarbageFrom } := by
  obtain ⟨x, hx, hlt⟩ := h
  rw [release_self, inner_stop]
  · rfl
  · exact .inr ⟨x, Finset.mem_insert_of_mem hx, hlt⟩

variable (habove : ∀ x ∈ t.mem, t.checkGarbageFrom < x)

include habove in
theorem inner_first (fuel : Nat) :
    inner t.checkGarbageFrom (fuel + 1) { t with mem := insert t.checkGarbageFrom t.mem } =
      inner t.checkGarbageFrom fuel { t with checkGarbageFrom := t.checkGarbageFrom + 1 } := by
  have hleast : IsLeast ((insert t.checkGarbageFrom t.mem : Finset Int) : Set Int)
      t.checkGarbageFrom := by
    refine ⟨Finset.mem_insert_self _ _, fun x hx => ?_⟩
    rcases Finset.mem_insert.mp hx with rfl | hx
    · exact Int.le_refl _
    · exact Int.le_of_lt (habove x hx)
  have hnot : t.checkGarbageFrom ∉ t.mem := fun h => Int.lt_irrefl _ (habove _ h)
  rw [inner_round hleast, Finset.erase_insert hnot]

include habove in
theorem release_one (h : t.checkGarbageFrom + 1 ∉ t.mem) : t.release t.checkGarbageFrom =
    { t with checkGarbageFrom := t.checkGarbageFrom + 1, stored := t.checkGarbageFrom + 1 } := by
  rw [release_self, inner_first habove, inner_stop (.inl h)]
  rfl

include habove in
theorem release_two (h : t.checkGarbageFrom + 1 ∈ t.mem) : t.release t.checkGarbageFrom =
    { t with checkGarbageFrom := t.checkGarbageFrom + 2, stored := t.checkGarbageFrom + 2 } := by
  have hnot : t.checkGarbageFrom ∉ t.mem := fun h => Int.lt_irrefl _ (habove _ h)
  have hleast : IsLeast (t.mem : Set Int) (t.checkGarbageFrom + 1) :=
    ⟨h, fun x hx => Int.add_one_le_of_lt (habove x hx)⟩
  rw [release_self, inner_first habove, Finset.card_insert_of_notMem hnot, inner_round hleast,
    Finset.erase_eq_of_notMem hnot, inner_stop, Int.add_assoc]
  · rfl
  · exact .inr ⟨_, h, Int.lt_succ _⟩

end Release

section Step

theorem Tracks.lt_of_released (h : Tracks start released t) (hfnr : start ≤ fnr) (hnew : fnr ∉ released)
    (hne : fnr ≠ t.checkGarbageFrom) : t.checkGarbageFrom < fnr :=
  lt_of_le_of_ne (h.exact.1.2 ⟨hfnr, hnew⟩) (Ne.symm hne)

theorem Tracks.advance (h : Tracks start released t) {m : Int} (hlt : t.checkGarbageFrom < m)
    (hpassed : ∀ x, t.checkGarbageFrom < x → x < m → x ∈ t.mem) (hnew : m ∉ t.mem) :
    Tracks start (t.checkGarbageFrom :: released) { t with checkGarbageFrom := m, stored := m } := by
  obtain ⟨⟨⟨hstart, -⟩, hleast⟩, -⟩ := h.exact
  refine ⟨⟨⟨⟨Int.le_trans hstart (Int.le_of_lt hlt), ?_⟩, ?_⟩, rfl⟩,
    fun x hx => mem_cons_of_mem _ (h.remembered x hx), ?_⟩
  · intro hm
    rcases mem_cons.mp hm with heq | hm
    · exact absurd heq (Int.ne_of_gt hlt)
    · exact hnew (h.above m hm hlt)
  · rintro x ⟨hx, hnot⟩
    have hle := hleast ⟨hx, fun hx' => hnot (mem_cons_of_mem _ hx')⟩
    have hne : x ≠ t.checkGarbageFrom := fun heq => hnot (heq ▸ mem_cons_self)
    by_contra hm
    have hmem := hpassed x (lt_of_le_of_ne hle (Ne.symm hne)) (Int.not_le.mp hm)
    exact hnot (mem_cons_of_mem _ (h.remembered x hmem))
  · intro x hx hgt
    rcases mem_cons.mp hx with heq | hx
    · change m < x at hgt
      omega
    · exact h.above x hx (Int.lt_trans hlt hgt)

theorem Tracks.release (h : Tracks start released t) (hfnr : start ≤ fnr) (hnew : fnr ∉ released)
    (hturn : InTurn t fnr) : Tracks start (fnr :: released) (t.release fnr) := by
  obtain ⟨⟨⟨hstart, hnot⟩, hleast⟩, hstored⟩ := h.exact
  have hmem : t.checkGarbageFrom ∉ t.mem := fun hm => hnot (h.remembered _ hm)
  by_cases heq : fnr = t.checkGarbageFrom
  · obtain ⟨hfloor, hnext⟩ := hturn heq
    have habove : ∀ x ∈ t.mem, t.checkGarbageFrom < x := fun x hx =>
      lt_of_le_of_ne (hfloor x hx) fun hx' => hmem (hx' ▸ hx)
    subst heq
    by_cases hone : t.checkGarbageFrom + 1 ∈ t.mem
    · have htwo : t.checkGarbageFrom + 2 ∉ t.mem := fun ht => hnext ⟨hone, ht⟩
      rw [release_two habove hone]
      refine h.advance (by omega) (fun x hgt hlt => ?_) htwo
      rwa [show x = t.checkGarbageFrom + 1 by omega]
    · rw [release_one habove hone]
      exact h.advance (by omega) (fun x hgt hlt => absurd hgt (by omega)) hone
  · have hlt := h.lt_of_released hfnr hnew heq
    rw [release_other heq]
    refine ⟨⟨⟨⟨hstart, ?_⟩, ?_⟩, hstored⟩, ?_, ?_⟩
    · simpa [Ne.symm heq] using hnot
    · rintro x ⟨hx, hxnot⟩
      exact hleast ⟨hx, fun hx' => hxnot (mem_cons_of_mem _ hx')⟩
    · intro x hx
      rcases Finset.mem_insert.mp hx with rfl | hx
      · exact mem_cons_self
      · exact mem_cons_of_mem _ (h.remembered x hx)
    · intro x hx hgt
      rcases mem_cons.mp hx with rfl | hx
      · exact Finset.mem_insert_self _ _
      · exact Finset.mem_insert_of_mem (h.above x hx hgt)

theorem Tracks.not_exact (h : Tracks start released t) (hturn : ¬ InTurn t fnr) :
    ¬ Exact start (fnr :: released) (t.release fnr) := by
  obtain ⟨heq, hbad⟩ := Classical.not_imp.mp hturn
  subst heq
  rintro ⟨⟨⟨-, hnot⟩, -⟩, -⟩
  refine hnot ?_
  by_cases hfloor : ∀ x ∈ t.mem, t.checkGarbageFrom ≤ x
  · have hnext : t.checkGarbageFrom + 1 ∈ t.mem ∧ t.checkGarbageFrom + 2 ∈ t.mem := by
      by_contra hno
      exact hbad ⟨hfloor, hno⟩
    have hmem : t.checkGarbageFrom ∉ t.mem := fun hm => h.exact.1.1.2 (h.remembered _ hm)
    have habove : ∀ x ∈ t.mem, t.checkGarbageFrom < x := fun x hx =>
      lt_of_le_of_ne (hfloor x hx) fun hx' => hmem (hx' ▸ hx)
    rw [release_two habove hnext.1]
    exact mem_cons_of_mem _ (h.remembered _ hnext.2)
  · push Not at hfloor
    rw [release_blocked hfloor]
    exact mem_cons_self

end Step

/-- The releases so far, beside the advancer. -/
abbrev Releases := List Int × Advancer

def Releases.exec (s : Releases) (fnr : Int) : Option Releases := some (fnr :: s.1, s.2.release fnr)

def Releases.initial (start : Int) : Releases :=
  ([], { checkGarbageFrom := start, mem := ∅, stored := start })

theorem tracks_initial (start : Int) :
    Tracks start (Releases.initial start).1 (Releases.initial start).2 where
  exact := ⟨⟨⟨Int.le_refl start, not_mem_nil⟩, fun _ hx => hx.1⟩, rfl⟩
  remembered _ hx := absurd hx (Finset.notMem_empty _)
  above _ hx := absurd hx not_mem_nil

theorem allSteps_new {l : List Int} (hdistinct : l.Nodup) (hstart : ∀ x ∈ l, start ≤ x) {s : Releases}
    (hnew : ∀ x ∈ l, x ∉ s.1) : AllSteps Releases.exec (fun s fnr => start ≤ fnr ∧ fnr ∉ s.1) s l := by
  induction l generalizing s with
  | nil => trivial
  | cons fnr l ih =>
    obtain ⟨hfirst, hrest⟩ := nodup_cons.mp hdistinct
    refine ⟨fun _ => ⟨hstart fnr mem_cons_self, hnew fnr mem_cons_self⟩, ?_⟩
    refine ih hrest (fun x hx => hstart x (mem_cons_of_mem _ hx)) fun x hx hmem => ?_
    rcases mem_cons.mp hmem with rfl | hmem
    · exact hfirst hx
    · exact hnew x (mem_cons_of_mem _ hx) hmem

end Advancer

end Alba.Asd
