import Alba.FragmentCache.Buckets

/-! The victims that an eviction takes because of dropped buckets. The range of keys that is searched for
a bucket goes from its id to the next one, in an encoding whose order is not that of the numbers. -/

namespace Alba.FragmentCache

open ProofKit Std List
open NsmHost (xInt64To)

variable {B : Set Bid} {s : Cache} {m : Contents} {choice : Choice} {enough : Int}

section Rounds

variable {fuel n : Nat} {victims : List Victim} {delta : Int}

theorem droppingLoop_of_enough (h : delta ≥ enough) :
    (droppingLoop choice enough fuel victims n delta).run s = .ok (victims, n, delta) s := by
  cases fuel with
  | zero => rfl
  | succ fuel =>
    rw [droppingLoop, if_pos h]
    rfl

theorem droppingLoop_of_none (h : choice.first s.dropping = none) :
    (droppingLoop choice enough fuel victims n delta).run s = .ok (victims, n, delta) s := by
  by_cases henough : delta ≥ enough
  · exact droppingLoop_of_enough henough
  cases fuel with
  | zero => rfl
  | succ fuel =>
    simp only [droppingLoop, if_neg henough, EStateM.run_bind, EStateM.run_get, h]
    rfl

theorem droppingLoop_of_some {bid : Bid} {found : List Victim} {n' : Nat} {delta' : Int}
    (henough : ¬ delta ≥ enough) (h : choice.first s.dropping = some bid)
    (hfound : getBidVictims s bid enough = .ok (found, n', delta')) :
    (droppingLoop choice enough (fuel + 1) victims n delta).run s =
      (droppingLoop choice enough fuel (found.reverse ++ victims) (n + n') (delta + delta')).run
        (if delta' < enough then { s with dropping := s.dropping.erase bid } else s) := by
  simp only [droppingLoop, if_neg henough, EStateM.run_bind, EStateM.run_get, h, hfound]
  change (if delta' < enough then _ else _ : Act _).run s = _
  split <;> rfl

/-- What the rounds of the loop took, the last one first, and which of the buckets `D` stay. -/
structure Rounds (m : Contents) (D D' : List Bid) (rounds : List (Bid × List Victim)) : Prop where
  nodup : (rounds.map Prod.fst).Nodup
  dropped : ∀ r ∈ rounds, r.1 ∈ D
  first : ∀ r ∈ rounds, r.2 <+: bucketOf m r.1
  stay : D' ⊆ D
  left : ∀ b ∈ D, b ∉ D' → (b, bucketOf m b) ∈ rounds

theorem Rounds.nil (m : Contents) (D : List Bid) : Rounds m D D [] where
  nodup := nodup_nil
  dropped := nofun
  first := nofun
  stay := List.Subset.refl D
  left _ hb hnot := absurd hb hnot

theorem Rounds.snoc {D D' : List Bid} {rounds : List (Bid × List Victim)} {bid : Bid} (hD : D.Nodup)
    (hbid : bid ∈ D) (h : Rounds m (D.erase bid) D' rounds) :
    Rounds m D D' (rounds ++ [(bid, bucketOf m bid)]) where
  nodup := by
    rw [map_append, nodup_append]
    refine ⟨h.nodup, by simp, fun b hb b' hb' heq => ?_⟩
    obtain ⟨r, hr, rfl⟩ := mem_map.mp hb
    rw [map_singleton, mem_singleton] at hb'
    exact (List.Nodup.mem_erase_iff hD).mp (h.dropped r hr) |>.1 (heq.trans hb')
  dropped r hr := by
    rcases mem_append.mp hr with hr | hr
    · exact mem_of_mem_erase (h.dropped r hr)
    · rw [mem_singleton.mp hr]
      exact hbid
  first r hr := by
    rcases mem_append.mp hr with hr | hr
    · exact h.first r hr
    · rw [mem_singleton.mp hr]
  stay b hb := mem_of_mem_erase (h.stay hb)
  left b hb hnot := by
    by_cases heq : b = bid
    · simp [heq]
    · exact mem_append_left _ (h.left b ((mem_erase_of_ne heq).mpr hb) hnot)

/-- The victims, their number and their size after some rounds. -/
def withRounds (rounds : List (Bid × List Victim)) (victims : List Victim) (n : Nat) (delta : Int) :
    List Victim × Nat × Int :=
  let found := rounds.flatMap Prod.snd
  (found ++ victims, n + found.length, delta + (found.map Victim.size).sum)

theorem withRounds_nil : withRounds [] victims n delta = (victims, n, delta) := by simp [withRounds]

theorem withRounds_snoc (rounds : List (Bid × List Victim)) (bid : Bid) (first : List Victim) :
    withRounds (rounds ++ [(bid, first)]) victims n delta =
      withRounds rounds (first ++ victims) (n + first.length) (delta + (first.map Victim.size).sum) := by
  simp only [withRounds, flatMap_append, flatMap_singleton, append_assoc,
    length_append, map_append, sum_append, Prod.mk.injEq, true_and]
  omega

theorem droppingLoop_spec (h : Stores s.blobs m) (keyed : Keyed B m)
    (hsizes : ∀ bid, ∀ v ∈ bucketOf m bid, 0 ≤ v.size) (hD : s.dropping.Nodup)
    (hfuel : s.dropping.length < fuel) (hdelta : 0 ≤ delta) :
    ∃ rounds D', (droppingLoop choice enough fuel victims n delta).run s =
        .ok (withRounds rounds victims n delta) { s with dropping := D' } ∧
      Rounds m s.dropping D' rounds := by
  induction fuel generalizing s victims n delta with
  | zero => omega
  | succ fuel ih =>
    by_cases henough : delta ≥ enough
    · refine ⟨[], s.dropping, ?_, Rounds.nil m s.dropping⟩
      rw [withRounds_nil]
      exact droppingLoop_of_enough henough
    cases hchoice : choice.first s.dropping with
    | none =>
      refine ⟨[], s.dropping, ?_, Rounds.nil m s.dropping⟩
      rw [withRounds_nil]
      exact droppingLoop_of_none hchoice
    | some bid =>
      have hbid := choice.mem hchoice
      obtain ⟨first, rest, hbucket, hgather, hend⟩ :=
        @gather_eq _ Victim.size enough (bucketOf m bid) [] 0 0
      simp only [append_nil, Nat.zero_add, Int.zero_add] at hgather hend
      have hfirst : 0 ≤ (first.map Victim.size).sum := by
        refine sum_nonneg fun x hx => ?_
        obtain ⟨v, hv, rfl⟩ := mem_map.mp hx
        exact hsizes bid v (by rw [hbucket]; exact mem_append_left _ hv)
      have hget := getBidVictims_eq h keyed bid enough
      rw [hgather] at hget
      rw [droppingLoop_of_some henough hchoice hget, reverse_reverse]
      by_cases hlt : (first.map Victim.size).sum < enough
      · -- all of the bucket was taken, and it leaves
        obtain rfl : rest = [] := hend.resolve_right (by omega)
        rw [append_nil] at hbucket
        have hpos := length_pos_of_mem hbid
        rw [if_pos hlt]
        obtain ⟨rounds, D', hrun, hrounds⟩ := @ih { s with dropping := s.dropping.erase bid }
          (n + first.length) (first ++ victims) (delta + (first.map Victim.size).sum) h
          (hD.erase bid) (by rw [length_erase_of_mem hbid]; omega) (by omega)
        refine ⟨rounds ++ [(bid, first)], D', ?_, hbucket ▸ hrounds.snoc hD hbid⟩
        rw [withRounds_snoc]
        exact hrun
      · rw [if_neg hlt, droppingLoop_of_enough (by omega)]
        refine ⟨[(bid, first)], s.dropping, ?_, ?_⟩
        · rw [← nil_append [(bid, first)], withRounds_snoc, withRounds_nil]
        · exact {
            nodup := by simp
            dropped := by simpa using hbid
            first := by simp [hbucket]
            stay := List.Subset.refl _
            left := fun _ hb hnot => absurd hb hnot }

end Rounds

/-- The records of the cache are those of the blobs `m`, in buckets of the set `B`. -/
structure Holds (B : Set Bid) (s : Cache) (m : Contents) : Prop where
  stores : Stores s.blobs m
  keyed : Keyed B m
  sizes : ∀ (base : Bytes) (b : Blob), m[base]? = some b → 0 ≤ b.size

theorem Holds.bucket_sizes (h : Holds B s m) (bid : Bid) : ∀ v ∈ bucketOf m bid, 0 ≤ v.size := by
  intro v hv
  obtain ⟨boid, b, hget, -, rfl⟩ := (mem_bucketOf h.keyed).mp hv
  exact h.sizes _ b hget

theorem getDroppingVictims_spec (h : Holds B s m) (hD : s.dropping.Nodup) (choice : Choice)
    (enough : Int) : ∃ rounds D', (getDroppingVictims choice enough).run s =
      .ok (withRounds rounds [] 0 0) { s with dropping := D' } ∧ Rounds m s.dropping D' rounds :=
  droppingLoop_spec h.stores h.keyed h.bucket_sizes hD (Nat.lt_succ_self _) (Int.le_refl 0)

/-- The victims are in dropped buckets and each is taken once, and a bucket that stops being dropped
has no blob left. -/
def EvictsDropped (s : Cache) (choice : Choice) (enough : Int) : Prop :=
  ∃ victims n delta s', (getDroppingVictims choice enough).run s = .ok (victims, n, delta) s' ∧
    (∀ v ∈ victims, v.boid.1 ∈ s.dropping) ∧ (victims.map Victim.boid).Nodup ∧
    ∀ bid ∈ s.dropping, bid ∉ s'.dropping → ∀ oid,
      findFsid (after (deleteVictimsFromRocksdb victims) s') (bid, oid) = none

section Separate

theorem evictsDropped_of_separate (h : Holds B s m) (hD : s.dropping.Nodup)
    (hsep : ∀ bid ∈ s.dropping, ∀ bid' ∈ B, Small bid' → (inBucket bid bid' = true ↔ bid' = bid))
    (choice : Choice) (enough : Int) : EvictsDropped s choice enough := by
  obtain ⟨rounds, D', hrun, hrounds⟩ := getDroppingVictims_spec h hD choice enough
  have hbid : ∀ bid ∈ s.dropping, ∀ v ∈ bucketOf m bid, v.boid.1 = bid := by
    intro bid hbid v hv
    obtain ⟨boid, b, hget, hin, rfl⟩ := (mem_bucketOf h.keyed).mp hv
    obtain ⟨hB, hsmall, -⟩ := h.keyed.of_get hget
    exact (hsep bid hbid boid.1 hB hsmall).mp hin
  have hround : ∀ r ∈ rounds, ∀ v ∈ r.2, v.boid.1 = r.1 := fun r hr v hv =>
    hbid r.1 (hrounds.dropped r hr) v ((hrounds.first r hr).subset hv)
  refine ⟨_, _, _, _, by simpa [withRounds] using hrun, ?_, ?_, ?_⟩
  · intro v hv
    obtain ⟨r, hr, hv⟩ := mem_flatMap.mp hv
    rw [hround r hr v hv]
    exact hrounds.dropped r hr
  · rw [map_flatMap, nodup_flatMap]
    refine ⟨fun r hr => ?_, ?_⟩
    · exact (bucketOf_boids_nodup h.keyed r.1).sublist ((hrounds.first r hr).sublist.map _)
    · -- victims of two rounds are in different buckets
      have hdistinct := hrounds.nodup
      rw [nodup_iff_pairwise_ne, pairwise_map] at hdistinct
      refine hdistinct.imp_of_mem fun {r r'} hr hr' hne => ?_
      intro boid hboid hboid'
      obtain ⟨v, hv, rfl⟩ := mem_map.mp hboid
      obtain ⟨v', hv', heq⟩ := mem_map.mp hboid'
      rw [← hround r hr v hv, ← hround r' hr' v' hv', heq] at hne
      exact hne rfl
  · intro bid hdropped hleft oid
    have hstores : Stores _ _ := Stores.delete (s := { s with dropping := D' }) h.stores
      (rounds.flatMap Prod.snd)
    change findFsid (List.foldl deleteVictim { s with dropping := D' } _) _ = none
    rw [hstores.findFsid_eq, getElem?_without]
    split
    · rfl
    · rename_i hnot
      cases hget : m[boidValueOf (bid, oid)]? with
      | none => rfl
      | some b =>
        obtain ⟨hB, hsmall, -⟩ := h.keyed.of_get hget
        have hin : inBucket bid bid = true := (hsep bid hdropped bid hB hsmall).mpr rfl
        have hv := (mem_bucketOf h.keyed).mpr ⟨(bid, oid), b, hget, hin, rfl⟩
        have htaken : _ ∈ rounds.flatMap Prod.snd := mem_flatMap.mpr ⟨_, hrounds.left bid hdropped hleft, hv⟩
        exact absurd (mem_map.mpr ⟨_, htaken, rfl⟩) hnot

end Separate

section Overlap

/-- The buckets of `l` are chosen first. -/
def Choice.prefer (l : List Bid) : Choice where
  first D := (l.find? (· ∈ D)).or D.head?
  mem {D b} h := by
    rcases Option.or_eq_some_iff.mp h with h | ⟨-, h⟩
    · simpa using find?_some h
    · exact mem_of_mem_head? h
  exists_first {D} h := by
    cases hfind : l.find? (· ∈ D) with
    | some b => exact ⟨b, rfl⟩
    | none => exact ⟨D.head h, head?_eq_some_head h⟩

theorem Choice.prefer_of_mem {b : Bid} {l D : List Bid} (h : b ∈ D) :
    (Choice.prefer (b :: l)).first D = some b := by
  simp [Choice.prefer, h]

/-- The object of the `i`-th name. -/
def oidOf (i : Int) : Bytes := makeKey [] 0 i

theorem isOid_oidOf (i : Int) : IsOid (oidOf i) := ⟨[], 0, i, by decide, rfl⟩

/-- A cache of blobs of one byte in the bucket `bid`, with the buckets `D` dropped. -/
def filled (bid : Bid) (D : List Bid) : Nat → Cache
  | 0 => { dropping := D }
  | n + 1 => putRecords n n (bid, oidOf n) [0] (filled bid D n)

def oneByte (i : Nat) : Blob := { fsid := i, size := 1, access := i }

def filledContents (bid : Bid) : Nat → Contents
  | 0 => ∅
  | n + 1 => (filledContents bid n).insert (boidValueOf (bid, oidOf n)) (oneByte n)

theorem filled_stores (bid : Bid) (D : List Bid) (n : Nat) :
    Stores (filled bid D n).blobs (filledContents bid n) := by
  induction n with
  | zero => exact Stores.empty
  | succ n ih => exact ih.insert (boidValueOf (bid, oidOf n)) (oneByte n)

theorem filledContents_get {bid : Bid} {n : Nat} {base : Bytes} {b : Blob}
    (h : (filledContents bid n)[base]? = some b) :
    ∃ i < n, base = boidValueOf (bid, oidOf i) ∧ b = oneByte i := by
  induction n with
  | zero => simp [filledContents] at h
  | succ n ih =>
    rw [filledContents, ExtTreeMap.getElem?_insert] at h
    split at h
    · rename_i heq
      exact ⟨n, Nat.lt_succ_self n, (LawfulEqOrd.eq_of_compare heq).symm, (Option.some.inj h).symm⟩
    · obtain ⟨i, hi, heq⟩ := ih h
      exact ⟨i, Nat.lt_succ_of_lt hi, heq⟩

theorem filledContents_last (bid : Bid) (n : Nat) :
    (filledContents bid (n + 1))[boidValueOf (bid, oidOf n)]? = some (oneByte n) := by
  rw [filledContents, ExtTreeMap.getElem?_insert_self]

theorem oidOf_ne : oidOf (0 : Nat) ≠ oidOf (1 : Nat) := by decide

theorem filledContents_first (bid : Bid) :
    (filledContents bid 2)[boidValueOf (bid, oidOf (0 : Nat))]? = some (oneByte 0) := by
  rw [filledContents, ExtTreeMap.getElem?_insert, if_neg, filledContents_last bid 0]
  intro heq
  exact oidOf_ne (Prod.ext_iff.mp (boidValueOf_inj (LawfulEqOrd.eq_of_compare heq))).2.symm

theorem filled_holds {bid : Bid} (hB : bid ∈ B) (hsmall : Small bid) (D : List Bid) (n : Nat) :
    Holds B (filled bid D n) (filledContents bid n) where
  stores := filled_stores bid D n
  keyed base hbase := by
    obtain ⟨b, hb⟩ := Option.isSome_iff_exists.mp (ExtTreeMap.isSome_getElem?_iff_mem.mpr hbase)
    obtain ⟨i, -, rfl, -⟩ := filledContents_get hb
    exact ⟨(bid, oidOf i), hB, hsmall, isOid_oidOf i, rfl⟩
  sizes base b hb := by
    obtain ⟨i, -, -, rfl⟩ := filledContents_get hb
    exact Int.zero_le_ofNat 1

theorem filled_dropping (bid : Bid) (D : List Bid) (n : Nat) : (filled bid D n).dropping = D := by
  induction n with
  | zero => rfl
  | succ n ih => exact ih

theorem bucketOf_filled {bid bid' : Bid} {n : Nat} {v : Victim}
    (h : v ∈ bucketOf (filledContents bid' n) bid) :
    inBucket bid bid' = true ∧ ∃ i < n, v = victimOf (boidValueOf (bid', oidOf i), oneByte i) := by
  obtain ⟨e, he, rfl⟩ := mem_map.mp h
  obtain ⟨he, hcovers⟩ := mem_filter.mp he
  obtain ⟨i, hi, hbase, hb⟩ := filledContents_get (ExtTreeMap.mem_toList_iff_getElem?_eq_some.mp he)
  refine ⟨?_, i, hi, congrArg victimOf (Prod.ext hbase hb)⟩
  rwa [hbase, covers_boidValueOf] at hcovers

def oneVictim (bid : Bid) : Victim := { access := 0, boid := (bid, oidOf 0), fsid := 0, size := 1 }

theorem victimOf_first {bid : Bid} (hsmall : Small bid) :
    victimOf (boidValueOf (bid, oidOf 0), oneByte 0) = oneVictim bid := by
  have hboid : boidOf (boidValueOf (bid, oidOf 0)) = .ok (bid, oidOf 0) := boidOf_boidValueOf hsmall
  rw [victimOf, hboid]
  rfl

theorem bucketOf_single {bid bid' : Bid} (hsmall : Small bid') (hin : inBucket bid bid' = true) :
    bucketOf (filledContents bid' 1) bid = [oneVictim bid'] := by
  rw [← victimOf_first hsmall]
  have hkeyed := (filled_holds (Set.mem_univ bid') hsmall [] 1).keyed
  have hall : ∀ v ∈ bucketOf (filledContents bid' 1) bid,
      v = victimOf (boidValueOf (bid', oidOf 0), oneByte 0) := by
    intro v hv
    obtain ⟨-, i, hi, rfl⟩ := bucketOf_filled hv
    rw [Nat.lt_one_iff.mp hi]
    rfl
  have hmem : victimOf (boidValueOf (bid', oidOf 0), oneByte 0) ∈ bucketOf (filledContents bid' 1) bid :=
    mem_map_of_mem (mem_filter.mpr ⟨ExtTreeMap.mem_toList_iff_getElem?_eq_some.mpr
      (filledContents_last bid' 0), by rwa [covers_boidValueOf]⟩)
  have hnodup := (bucketOf_boids_nodup hkeyed bid).of_map
  generalize bucketOf (filledContents bid' 1) bid = l at *
  match l with
  | [] => simp at hmem
  | [v] => rw [hall v (by simp)]
  | v :: v' :: l => simp [hall v (by simp), hall v' (by simp)] at hnodup

/-- The first round, when the bucket `bid` is asked first. -/
theorem getDroppingVictims_first (h : Holds B s m) {bid : Bid} {l : List Bid} (hbid : bid ∈ s.dropping)
    (henough : 0 < enough) {found : List Victim} {n : Nat} {delta : Int}
    (hfound : gather Victim.size enough (bucketOf m bid) [] 0 0 = (found, n, delta)) :
    (getDroppingVictims (Choice.prefer (bid :: l)) enough).run s =
      (droppingLoop (Choice.prefer (bid :: l)) enough s.dropping.length found.reverse n delta).run
        (if delta < enough then { s with dropping := s.dropping.erase bid } else s) := by
  have hget : getBidVictims s bid enough = .ok (found, n, delta) := by
    rw [getBidVictims_eq h.stores h.keyed, hfound]
  change (droppingLoop _ enough (s.dropping.length + 1) [] 0 0).run s = _
  rw [droppingLoop_of_some (by omega) (Choice.prefer_of_mem hbid) hget]
  simp only [append_nil, Nat.zero_add, Int.zero_add]

variable {D : List Bid} {bid bid' : Bid}

theorem gather_single {v : Victim} (henough : 0 < enough) :
    gather Victim.size enough [v] [] 0 0 = ([v], 1, v.size) := by
  rw [gather, if_neg (by omega), gather, Int.zero_add]

theorem not_evicts_other (hsmall : Small bid') (hin : inBucket bid bid' = true) (hbid : bid ∈ D)
    (hbid' : bid' ∉ D) : ¬ EvictsDropped (filled bid' D 1) (Choice.prefer [bid]) 1 := by
  have hmem : bid ∈ (filled bid' D 1).dropping := by rwa [filled_dropping]
  have hgather : gather Victim.size 1 (bucketOf (filledContents bid' 1) bid) [] 0 0 =
      ([oneVictim bid'], 1, 1) := by
    rw [bucketOf_single hsmall hin, gather_single Int.one_pos]
    rfl
  have hrun := getDroppingVictims_first (l := []) (filled_holds (Set.mem_univ bid') hsmall D 1) hmem
    Int.one_pos hgather
  rw [if_neg (Int.lt_irrefl 1), droppingLoop_of_enough (Int.le_refl 1)] at hrun
  rintro ⟨victims, n, delta, s', hrun', hdropped, -⟩
  cases hrun.symm.trans hrun'
  have hbid := hdropped (oneVictim bid') mem_cons_self
  rw [filled_dropping] at hbid
  exact hbid' hbid

theorem not_evicts_twice (hsmall : Small bid') (hin : inBucket bid bid' = true)
    (hin' : inBucket bid' bid' = true) (hbid : bid ∈ D) (hbid' : bid' ∈ D) (hne : bid' ≠ bid)
    (hD : D.Nodup) : ¬ EvictsDropped (filled bid' D 1) (Choice.prefer [bid, bid']) 2 := by
  have hholds := filled_holds (Set.mem_univ bid') hsmall D 1
  have hmem : bid ∈ (filled bid' D 1).dropping := by rwa [filled_dropping]
  have hgather : ∀ {b}, inBucket b bid' = true →
      gather Victim.size 2 (bucketOf (filledContents bid' 1) b) [] 0 0 = ([oneVictim bid'], 1, 1) := by
    intro b hb
    rw [bucketOf_single hsmall hb, gather_single (by decide)]
    rfl
  have hrun := getDroppingVictims_first (l := [bid']) hholds hmem (by decide) (hgather hin)
  -- the bucket `bid` leaves, and `bid'` is asked in the second round
  let s₁ : Cache := { filled bid' D 1 with dropping := D.erase bid }
  have hchoice : (Choice.prefer [bid, bid']).first s₁.dropping = some bid' := by
    have hgone : bid ∉ D.erase bid := fun hb => ((List.Nodup.mem_erase_iff hD).mp hb).1 rfl
    have hstays : bid' ∈ D.erase bid := (mem_erase_of_ne hne).mpr hbid'
    simp [s₁, Choice.prefer, hgone, hstays]
  have hget : getBidVictims s₁ bid' 2 = .ok ([oneVictim bid'], 1, 1) := by
    have hstores : Stores s₁.blobs (filledContents bid' 1) := hholds.stores
    rw [getBidVictims_eq hstores hholds.keyed, hgather hin']
  obtain ⟨k, hk⟩ : ∃ k, D.length = k + 1 :=
    Nat.exists_eq_add_one_of_ne_zero (Nat.ne_of_gt (length_pos_of_mem hbid))
  rw [if_pos (by decide), filled_dropping, hk] at hrun
  have hsecond := @droppingLoop_of_some s₁ _ 2 k 1 [oneVictim bid'] 1 bid' _ _ _ (by decide) hchoice hget
  have hstop : (2 : Int) ≤ 1 + 1 := by decide
  rw [@droppingLoop_of_enough _ _ _ k _ _ _ hstop] at hsecond
  rintro ⟨victims, n, delta, s', hrun', -, hnodup, -⟩
  cases (hrun.trans hsecond).symm.trans hrun'
  simp at hnodup

theorem droppingLoop_ones {bid : Bid} {k : Nat} (h : Stores s.blobs (filledContents bid k))
    (keyed : Keyed B (filledContents bid k)) (fuel : Nat) :
    ∃ victims n delta s', (droppingLoop choice 1 fuel [] 0 0).run s = .ok (victims, n, delta) s' ∧
      victims.length ≤ 1 ∧ s'.dropping ⊆ s.dropping ∧ s'.blobs = s.blobs := by
  induction fuel generalizing s with
  | zero => exact ⟨[], 0, 0, s, rfl, by decide, List.Subset.refl _, rfl⟩
  | succ fuel ih =>
    cases hchoice : choice.first s.dropping with
    | none => exact ⟨[], 0, 0, s, droppingLoop_of_none hchoice, by decide, List.Subset.refl _, rfl⟩
    | some b =>
      have hget := getBidVictims_eq h keyed b 1
      cases hbucket : bucketOf (filledContents bid k) b with
      | nil =>
        rw [hbucket] at hget
        rw [droppingLoop_of_some (by decide) hchoice hget, if_pos (by decide)]
        obtain ⟨victims, n, delta, s', hrun, hlength, hsub, hblobs⟩ :=
          @ih { s with dropping := s.dropping.erase b } h
        exact ⟨victims, n, delta, s', hrun, hlength, fun b' hb' => mem_of_mem_erase (hsub hb'), hblobs⟩
      | cons v rest =>
        have hsize : v.size = 1 := by
          obtain ⟨-, i, -, rfl⟩ := bucketOf_filled (hbucket ▸ mem_cons_self)
          rfl
        rw [hbucket, gather, if_neg (by decide), hsize, gather_of_enough (by decide)] at hget
        rw [droppingLoop_of_some (by decide) hchoice hget, if_neg (by decide),
          droppingLoop_of_enough (by decide)]
        exact ⟨[v], 1, 1, s, rfl, Nat.le_refl 1, List.Subset.refl _, rfl⟩

theorem not_evicts_own (hsmall : Small bid) (hin : ¬ inBucket bid bid = true) (hbid : bid ∈ D)
    (hD : D.Nodup) : ¬ EvictsDropped (filled bid D 2) (Choice.prefer [bid]) 1 := by
  have hholds := filled_holds (Set.mem_univ bid) hsmall D 2
  have hmem : bid ∈ (filled bid D 2).dropping := by rwa [filled_dropping]
  have hempty : bucketOf (filledContents bid 2) bid = [] :=
    eq_nil_iff_forall_not_mem.mpr fun v hv => hin (bucketOf_filled hv).1
  have hgather : gather Victim.size 1 (bucketOf (filledContents bid 2) bid) [] 0 0 = ([], 0, 0) := by
    rw [hempty]
    rfl
  have hrun := getDroppingVictims_first (l := []) hholds hmem Int.one_pos hgather
  rw [if_pos (by decide)] at hrun
  obtain ⟨victims, n, delta, s', hrest, hlength, hsub, hblobs⟩ := @droppingLoop_ones _
    { filled bid D 2 with dropping := (filled bid D 2).dropping.erase bid } (Choice.prefer [bid]) bid 2
    hholds.stores hholds.keyed (filled bid D 2).dropping.length
  rintro ⟨victims', n', delta', s'', hrun', -, -, hleft⟩
  cases (hrun.trans hrest).symm.trans hrun'
  have hgone : bid ∉ s'.dropping := fun hb => by
    have := hsub hb
    rw [filled_dropping] at this
    exact ((List.Nodup.mem_erase_iff hD).mp this).1 rfl
  have hstores : Stores s'.blobs (filledContents bid 2) := hblobs ▸ hholds.stores
  have htaken : ∀ {oid b}, (filledContents bid 2)[boidValueOf (bid, oid)]? = some b →
      boidValueOf (bid, oid) ∈ victims.map fun v => boidValueOf v.boid := by
    intro oid b hget
    by_contra hnot
    have hnone := hleft bid hmem hgone oid
    change findFsid (List.foldl deleteVictim s' victims) _ = none at hnone
    rw [(hstores.delete victims).findFsid_eq, getElem?_without, if_neg hnot, hget] at hnone
    exact nomatch hnone
  have hfirst := htaken (filledContents_first bid)
  have hlast := htaken (filledContents_last bid 1)
  cases victims with
  | nil => exact nomatch hfirst
  | cons v rest =>
    obtain rfl : rest = [] := eq_nil_of_length_eq_zero (by simpa using hlength)
    rw [map_singleton, mem_singleton] at hfirst hlast
    exact oidOf_ne (Prod.ext_iff.mp (boidValueOf_inj (hfirst.trans hlast.symm))).2

/-- Dropped buckets are evicted as such, whatever is cached in the buckets of `B`, exactly if none of
these is in the range of a dropped bucket other than itself, and each dropped one is in its own. -/
theorem evicts_dropped_iff (B : Set Bid) (D : List Bid) (hD : D.Nodup) :
    (∀ s m, Holds B s m → s.dropping = D → ∀ choice enough, EvictsDropped s choice enough) ↔
      ∀ bid ∈ D, ∀ bid' ∈ B, Small bid' → (inBucket bid bid' = true ↔ bid' = bid) := by
  have hfilled : ∀ {bid' : Bid}, bid' ∈ B → Small bid' → ∀ n,
      (∀ s m, Holds B s m → s.dropping = D → ∀ choice enough, EvictsDropped s choice enough) →
        ∀ choice enough, EvictsDropped (filled bid' D n) choice enough :=
    fun hbid' hsmall n h => h _ _ (filled_holds hbid' hsmall D n) (filled_dropping _ D n)
  constructor
  · intro h bid hbid bid' hbid' hsmall
    have hown : bid' ∈ D → inBucket bid' bid' = true := fun hdropped => by
      by_contra hin
      exact not_evicts_own hsmall hin hdropped hD (hfilled hbid' hsmall 2 h _ _)
    refine ⟨fun hin => ?_, fun heq => heq ▸ hown (heq ▸ hbid)⟩
    by_contra hne
    by_cases hdropped : bid' ∈ D
    · exact not_evicts_twice hsmall hin (hown hdropped) hbid hdropped hne hD
        (hfilled hbid' hsmall 1 h _ _)
    · exact not_evicts_other hsmall hin hbid hdropped (hfilled hbid' hsmall 1 h _ _)
  · intro hsep s m h hdropping choice enough
    subst hdropping
    exact evictsDropped_of_separate h hD hsep choice enough

/-- The id 256 is written `00 01 00 00`, in the range from 0 to 1: its blobs are taken for the bucket 0, and
twice when both are dropped. The id 255 is written `ff 00 00 00`, after 256: its range is empty. -/
theorem overlapping_buckets :
    (Holds {256} (filled 256 [0] 1) (filledContents 256 1) ∧
      ¬ EvictsDropped (filled 256 [0] 1) (Choice.prefer [0]) 1) ∧
    ¬ EvictsDropped (filled 256 [0, 256] 1) (Choice.prefer [0, 256]) 2 ∧
    ¬ EvictsDropped (filled 255 [255] 2) (Choice.prefer [255]) 1 := by
  refine ⟨⟨filled_holds (Set.mem_singleton 256) (by decide) [0] 1, ?_⟩, ?_, ?_⟩
  · exact not_evicts_other (by decide) (by decide) mem_cons_self (by decide)
  · exact not_evicts_twice (by decide) (by decide) (by decide) mem_cons_self (by decide)
      (by decide) (by decide)
  · exact not_evicts_own (by decide) (by decide) mem_cons_self (nodup_singleton _)

theorem evicts_dropped_iff_small :
    (∀ s m, Holds {1, 2} s m → s.dropping = [1, 2] → ∀ choice enough, EvictsDropped s choice enough) ∧
      [(1 : Bid), 2].Nodup := by
  refine ⟨(evicts_dropped_iff {1, 2} [1, 2] (by decide)).mpr ?_, by decide⟩
  rintro bid hbid bid' (rfl | rfl) -
  all_goals
    rcases mem_pair.mp hbid with rfl | rfl
    all_goals decide

end Overlap

end Alba.FragmentCache
