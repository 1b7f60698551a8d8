import Alba.FragmentCache.Entries

/-! What a scan of a bucket gathers. The jumps of the cursor never land inside the records of a blob, so
the loop goes over the blobs in the order of their keys, as far as they are in the range of the bucket. -/

namespace Alba.FragmentCache

open List hiding next
open ProofKit Std
open Nsm (Nat63 intTo stringTo)
open NsmHost (xInt64To xInt64To_append_inj)

section Names

/-- A name that `make_key` gives, for an object id whose length `string_to` can write. -/
def IsOid (oid : Bytes) : Prop :=
  ∃ (objectId : Bytes) (chunkId fragmentId : Int),
    objectId.length < 2 ^ 32 ∧ oid = makeKey objectId chunkId fragmentId

theorem stringTo_append_inj {a b s t : Bytes} (ha : a.length < 2 ^ 32) (hb : b.length < 2 ^ 32)
    (h : stringTo a ++ s = stringTo b ++ t) : a = b ∧ s = t := by
  rw [stringTo, stringTo, append_assoc, append_assoc] at h
  obtain ⟨hlength, hrest⟩ := append_inj h (by simp)
  rw [Nsm.intTo_eq_iff, BitVec.ofInt_natCast, BitVec.ofInt_natCast, ← BitVec.toNat_inj,
    BitVec.toNat_ofNat, BitVec.toNat_ofNat, Nat.mod_eq_of_lt ha, Nat.mod_eq_of_lt hb] at hlength
  exact append_inj hrest hlength

theorem IsOid.eq_of_append {oid oid' rest : Bytes} (h : IsOid oid) (h' : IsOid oid')
    (heq : oid ++ rest = oid') : oid = oid' := by
  obtain ⟨objectId, chunkId, fragmentId, hlength, rfl⟩ := h
  obtain ⟨objectId', chunkId', fragmentId', hlength', rfl⟩ := h'
  rw [makeKey, makeKey, append_assoc] at heq
  obtain ⟨rfl, htail⟩ := stringTo_append_inj hlength hlength' heq
  have hnil : rest.length = 0 := by
    have := congrArg List.length htail
    simp only [length_append, Nsm.intTo_length] at this
    omega
  rw [makeKey, makeKey, ← htail, eq_nil_of_length_eq_zero hnil, append_nil]

/-- The blobs are in buckets of the set `B`, under names of `make_key`. -/
def Keyed (B : Set Bid) (m : Contents) : Prop :=
  ∀ base ∈ m, ∃ boid : Boid, boid.1 ∈ B ∧ Small boid.1 ∧ IsOid boid.2 ∧ base = boidValueOf boid

variable {B : Set Bid} {m : Contents}

theorem Keyed.of_get (keyed : Keyed B m) {boid : Boid} {b : Blob} (h : m[boidValueOf boid]? = some b) :
    boid.1 ∈ B ∧ Small boid.1 ∧ IsOid boid.2 := by
  obtain ⟨boid', hB, hsmall, hoid, heq⟩ := keyed _ (mem_of_get h)
  obtain rfl := boidValueOf_inj heq
  exact ⟨hB, hsmall, hoid⟩

theorem apart_of_ne {a b : Boid} (ha : IsOid a.2) (hb : IsOid b.2) (h : a ≠ b) :
    Apart (boidValueOf a) (boidValueOf b) := by
  have hbegins : ∀ {a b : Boid}, IsOid a.2 → IsOid b.2 → boidValueOf a <+: boidValueOf b → a = b := by
    rintro a b ha hb ⟨rest, heq⟩
    rw [boidValueOf, boidValueOf, append_assoc] at heq
    obtain ⟨hbid, hoid⟩ := xInt64To_append_inj heq
    exact Prod.ext hbid (ha.eq_of_append hb hoid)
  exact ⟨fun hp => h (hbegins ha hb hp), fun hp => h (hbegins hb ha hp).symm⟩

theorem Keyed.apart (keyed : Keyed B m) {a b : Bytes} (ha : a ∈ m) (hb : b ∈ m) (h : a ≠ b) :
    Apart a b := by
  obtain ⟨boid, -, -, hoid, rfl⟩ := keyed a ha
  obtain ⟨boid', -, -, hoid', rfl⟩ := keyed b hb
  exact apart_of_ne hoid hoid' fun heq => h (heq ▸ rfl)

theorem compare_xInt64To (bid bid' : Bid) (rest : Bytes) :
    compare (xInt64To bid' ++ rest) (xInt64To bid) = .lt ↔
      compare (xInt64To bid') (xInt64To bid) = .lt := by
  by_cases h : bid' = bid
  · subst h
    have hge : compare (xInt64To bid' ++ rest) (xInt64To bid' ++ []) ≠ .lt := by
      rw [compare_append_left]
      cases rest <;> exact nofun
    rw [append_nil] at hge
    simp [hge, ReflOrd.compare_self]
  · have hbegins : ∀ {i j : Bid}, xInt64To i <+: xInt64To j → i = j := by
      rintro i j ⟨rest, heq⟩
      rw [← append_nil (xInt64To j)] at heq
      exact (xInt64To_append_inj heq).1
    have hapart : Apart (xInt64To bid') (xInt64To bid) :=
      ⟨fun hp => h (hbegins hp), fun hp => h (hbegins hp).symm⟩
    have hcompare := hapart.compare_append rest []
    rw [append_nil] at hcompare
    rw [hcompare]

end Names

section Ranges

/-- The blob is in the range of keys that stands for the bucket. -/
def covers (bid : Bid) (base : Bytes) : Bool :=
  compare base (blobStartKeyOf bid) != .lt && !beyond (blobTooFarKeyOf bid) base

theorem blobStartKeyOf_eq (bid : Bid) : blobStartKeyOf bid = xInt64To bid := by
  simp [blobStartKeyOf, blobKey]

theorem compare_start (bid : Bid) (boid : Boid) (rest : Bytes) :
    compare (boidValueOf boid ++ rest) (blobStartKeyOf bid) = .lt ↔
      compare (boidValueOf boid) (blobStartKeyOf bid) = .lt := by
  rw [blobStartKeyOf_eq, boidValueOf, append_assoc, compare_xInt64To, compare_xInt64To]

theorem beyond_some {tooFar key : Bytes} : beyond (some tooFar) key = true ↔ compare key tooFar ≠ .lt := by
  simp [beyond]

theorem beyond_append (bid : Bid) (boid : Boid) (rest : Bytes) :
    beyond (blobTooFarKeyOf bid) (boidValueOf boid ++ rest) =
      beyond (blobTooFarKeyOf bid) (boidValueOf boid) := by
  unfold blobTooFarKeyOf
  split
  · rw [Bool.eq_iff_iff, beyond_some, beyond_some, ne_eq, ne_eq, compare_start]
  · rfl

/-- The bucket `bid'` is in the range of keys that stands for `bid`. -/
def inBucket (bid bid' : Bid) : Bool := covers bid (blobStartKeyOf bid')

theorem covers_boidValueOf (bid : Bid) (boid : Boid) :
    covers bid (boidValueOf boid) = inBucket bid boid.1 := by
  have hstart : blobStartKeyOf boid.1 = boidValueOf (boid.1, []) := by
    rw [blobStartKeyOf_eq, boidValueOf, append_nil]
  have hbase : boidValueOf boid = boidValueOf (boid.1, []) ++ boid.2 := by
    rw [boidValueOf, boidValueOf, append_nil]
  rw [inBucket, hstart, hbase, covers, covers, beyond_append, Bool.eq_iff_iff, Bool.and_eq_true,
    Bool.and_eq_true, bne_iff_ne, bne_iff_ne, ne_eq, ne_eq, compare_start]

theorem beyond_mono {tooFar : Option Bytes} {a b : Bytes} (h : beyond tooFar a = true)
    (hab : compare a b = .lt) : beyond tooFar b = true := by
  cases tooFar with
  | none => exact h
  | some tooFar =>
    rw [beyond_some] at *
    exact fun hb => h (TransCmp.lt_trans hab hb)

end Ranges

section Scan

variable {B : Set Bid} {s : Cache} {m : Contents}

theorem jump_eq (h : Stores s.blobs m) (keyed : Keyed B m) {x : Bytes} {p : Bytes → Bool}
    (hp : ∀ base ∈ m, ∀ n : Name, compare (base ++ n.bytes) x ≠ .lt ↔ p base = true) :
    jump s x = (m.keys.find? p).map (· ++ fsidName) := by
  have hkey : ∀ key ∈ s.blobs.keys, ∃ base ∈ m, ∃ n : Name, key = base ++ n.bytes := by
    intro key hkey
    rw [ExtTreeMap.mem_keys] at hkey
    obtain ⟨base, n, rfl⟩ := h.named key hkey
    exact ⟨base, h.mem_iff.mp hkey, n, rfl⟩
  cases hfind : m.keys.find? p with
  | none =>
    refine seek_right_eq_none.mpr fun key hmem => ?_
    obtain ⟨base, hbase, n, rfl⟩ := hkey key hmem
    by_contra hge
    exact find?_eq_none.mp hfind base (ExtTreeMap.mem_keys.mpr hbase) ((hp base hbase n).mp hge)
  | some b =>
    obtain ⟨hpb, before, after, hkeys, hbefore⟩ := find?_eq_some_iff_append.mp hfind
    have hb : b ∈ m := ExtTreeMap.mem_keys.mp (by rw [hkeys]; simp)
    have hrest : ∀ base ∈ m, p base = true → base = b ∨ compare b base = .lt := by
      intro base hbase hpbase
      have hmem := ExtTreeMap.mem_keys.mpr hbase
      rw [hkeys] at hmem
      rcases mem_append.mp hmem with hmem | hmem
      · exact absurd hpbase (by simpa using hbefore base hmem)
      · refine (mem_cons.mp hmem).imp_right fun hafter => ?_
        have hsorted := ExtTreeMap.ordered_keys (t := m)
        rw [hkeys] at hsorted
        exact (pairwise_cons.mp (pairwise_append.mp hsorted).2.1).1 base hafter
    refine (seek_right_eq_some ExtTreeMap.ordered_keys).mpr
      ⟨ExtTreeMap.mem_keys.mpr (h.mem_iff (n := .fsid) |>.mpr hb), (hp b hb .fsid).mpr hpb, ?_⟩
    intro key hmem hge
    obtain ⟨base, hbase, n, rfl⟩ := hkey key hmem
    rcases hrest base hbase ((hp base hbase n).mp hge) with rfl | hlt
    · rw [compare_append_left]
      cases n <;> decide
    · have hne : b ≠ base := fun he => by simp [he, ReflOrd.compare_self] at hlt
      rw [(keyed.apart hb hbase hne).compare_append, hlt]
      decide

theorem jump_past (h : Stores s.blobs m) (keyed : Keyed B m) {before after : List (Bytes × Blob)}
    {e : Bytes × Blob} (hlist : m.toList = before ++ e :: after) :
    jump s (e.1 ++ pastNames) = after.head?.map (·.1 ++ fsidName) := by
  have hsorted := ExtTreeMap.ordered_keys (t := m)
  have hkeys : m.keys = before.map Prod.fst ++ e.1 :: after.map Prod.fst := by
    rw [← ExtTreeMap.map_fst_toList_eq_keys, hlist, map_append, map_cons]
  have he : e.1 ∈ m := ExtTreeMap.mem_keys.mp (by rw [hkeys]; simp)
  rw [hkeys] at hsorted
  obtain ⟨-, hrest, hacross⟩ := pairwise_append.mp hsorted
  have hafter := (pairwise_cons.mp hrest).1
  rw [jump_eq h keyed (p := fun base => compare base e.1 == .gt), hkeys, find?_append,
    find?_eq_none.mpr, Option.none_or, find?_cons_of_neg (by simp [ReflOrd.compare_self])]
  · cases after with
    | nil => rfl
    | cons e' after =>
      have hgt : compare e'.1 e.1 = .gt := OrientedCmp.gt_of_lt (hafter e'.1 (by simp))
      rw [map_cons, find?_cons_of_pos (by simp [hgt])]
      rfl
  · intro base hbase
    simp [hacross base hbase e.1 (by simp)]
  · intro base hbase n
    by_cases heq : base = e.1
    · rw [heq, compare_append_left, ReflOrd.compare_self]
      cases n <;> decide
    · rw [(keyed.apart hbase he heq).compare_append, beq_iff_eq]
      cases hc : compare base e.1 with
      | lt => decide
      | eq => exact absurd (LawfulEqOrd.eq_of_compare hc) heq
      | gt => decide

def victimOf (e : Bytes × Blob) : Victim where
  access := e.2.access
  boid := resultD (boidOf e.1) (0, [])
  fsid := e.2.fsid
  size := e.2.size

theorem bidLoop_eq (h : Stores s.blobs m) (keyed : Keyed B m) (bid : Bid) (enough : Int)
    {before l : List (Bytes × Blob)} (hlist : m.toList = before ++ l) {fuel : Nat}
    (hfuel : l.length < fuel) (victims : List Victim) (n : Nat) (delta : Int) :
    bidLoop s (blobTooFarKeyOf bid) enough fuel (l.head?.map (·.1 ++ fsidName)) victims n delta =
      .ok (gather Victim.size enough
        ((l.filter fun e => !beyond (blobTooFarKeyOf bid) e.1).map victimOf) victims n delta) := by
  induction l generalizing before fuel victims n delta with
  | nil => cases fuel <;> rfl
  | cons e l ih =>
    obtain ⟨fuel, rfl⟩ := Nat.exists_eq_add_one_of_ne_zero (Nat.ne_of_gt (Nat.zero_lt_of_lt hfuel))
    have hmem : m[e.1]? = some e.2 :=
      ExtTreeMap.mem_toList_iff_getElem?_eq_some.mp (by rw [hlist]; simp)
    obtain ⟨boid, -, hsmall, -, hbase⟩ := keyed e.1 (mem_of_get hmem)
    rw [head?_cons, Option.map_some, bidLoop]
    by_cases henough : delta ≥ enough
    · rw [if_pos henough, gather_of_enough henough]
    rw [if_neg henough, hbase, beyond_append, ← hbase]
    by_cases hbeyond : beyond (blobTooFarKeyOf bid) e.1 = true
    · -- the blobs are in order, so none of the rest is in the range
      have hnone : (e :: l).filter (fun e => !beyond (blobTooFarKeyOf bid) e.1) = [] := by
        refine filter_eq_nil_iff.mpr fun e' he' => ?_
        have hsorted := ExtTreeMap.ordered_keys_toList (t := m)
        rw [hlist] at hsorted
        rcases mem_cons.mp he' with rfl | he'
        · simp [hbeyond]
        · have hlt := (pairwise_cons.mp (pairwise_append.mp hsorted).2.1).1 e' he'
          simp [beyond_mono hbeyond hlt]
      rw [if_pos hbeyond, hnone]
      rfl
    rw [if_neg hbeyond, filter_cons_of_pos (by simpa using hbeyond), map_cons, gather,
      if_neg henough]
    have hvictim : victimOf e = { access := e.2.access, boid, fsid := e.2.fsid, size := e.2.size } := by
      rw [victimOf, hbase, boidOf_boidValueOf hsmall]
      rfl
    have hsize : getSize s boid = .ok e.2.size := h.getSize_eq_ok.mpr ⟨e.2, hbase ▸ hmem, rfl⟩
    have hfsid : getFsid s boid = .ok e.2.fsid := h.getFsid_eq_ok.mpr ⟨e.2, hbase ▸ hmem, rfl⟩
    have haccess : getAccess s boid = .ok e.2.access := h.getAccess_eq_ok.mpr ⟨e.2, hbase ▸ hmem, rfl⟩
    have hnext : jump s (blobKey boid pastNames) = l.head?.map (·.1 ++ fsidName) := by
      change jump s (boidValueOf boid ++ pastNames) = _
      rw [← hbase]
      exact jump_past h keyed hlist
    rw [hbase, boidOfFsidKey_of_small hsmall, ok_bind, hsize, ok_bind, hfsid, ok_bind, haccess, ok_bind,
      hnext, ← hvictim]
    have hrest : m.toList = (before ++ [e]) ++ l := by simpa using hlist
    exact ih hrest (by simpa using hfuel) _ _ _

def bucketOf (m : Contents) (bid : Bid) : List Victim :=
  (m.toList.filter fun e => covers bid e.1).map victimOf

theorem mem_bucketOf {bid : Bid} {v : Victim} (keyed : Keyed B m) :
    v ∈ bucketOf m bid ↔ ∃ boid b, m[boidValueOf boid]? = some b ∧ inBucket bid boid.1 = true ∧
      v = { access := b.access, boid, fsid := b.fsid, size := b.size } := by
  constructor
  · intro hv
    obtain ⟨⟨base, b⟩, he, rfl⟩ := mem_map.mp hv
    obtain ⟨he, hcovers⟩ := mem_filter.mp he
    have hget : m[base]? = some b := ExtTreeMap.mem_toList_iff_getElem?_eq_some.mp he
    obtain ⟨boid, -, hsmall, -, rfl⟩ := keyed base (mem_of_get hget)
    refine ⟨boid, b, hget, covers_boidValueOf bid boid ▸ hcovers, ?_⟩
    rw [victimOf, boidOf_boidValueOf hsmall]
    rfl
  · rintro ⟨boid, b, hget, hin, rfl⟩
    have hsmall := (keyed.of_get hget).2.1
    refine mem_map.mpr ⟨(boidValueOf boid, b), mem_filter.mpr
      ⟨ExtTreeMap.mem_toList_iff_getElem?_eq_some.mpr hget, by rwa [covers_boidValueOf]⟩, ?_⟩
    rw [victimOf, boidOf_boidValueOf hsmall]
    rfl

theorem bucketOf_boids_nodup (keyed : Keyed B m) (bid : Bid) :
    ((bucketOf m bid).map Victim.boid).Nodup := by
  have hkeys : ((m.toList.filter fun e => covers bid e.1).map Prod.fst).Nodup :=
    (keys_nodup m).sublist (filter_sublist.map Prod.fst)
  have hbases : (bucketOf m bid).map (fun v => boidValueOf v.boid) =
      (m.toList.filter fun e => covers bid e.1).map Prod.fst := by
    rw [bucketOf, map_map]
    refine map_congr_left fun e he => ?_
    have hget : m[e.1]? = some e.2 :=
      ExtTreeMap.mem_toList_iff_getElem?_eq_some.mp (mem_filter.mp he).1
    obtain ⟨boid, -, hsmall, -, hbase⟩ := keyed e.1 (mem_of_get hget)
    rw [Function.comp_apply, victimOf, hbase, boidOf_boidValueOf hsmall]
    rfl
  rw [← hbases] at hkeys
  rw [nodup_iff_pairwise_ne, pairwise_map] at *
  exact hkeys.imp fun hne heq => hne (congrArg boidValueOf heq)

theorem Stores.size_le (h : Stores s.blobs m) : m.size ≤ s.blobs.size := by
  have hnodup : (m.keys.map (· ++ fsidName)).Nodup := by
    refine List.Nodup.map (fun a b => append_cancel_right) ?_
    rw [← ExtTreeMap.map_fst_toList_eq_keys]
    exact keys_nodup m
  have hsub : m.keys.map (· ++ fsidName) ⊆ s.blobs.keys := by
    intro key hkey
    obtain ⟨base, hbase, rfl⟩ := mem_map.mp hkey
    exact ExtTreeMap.mem_keys.mpr ((h.mem_iff (n := .fsid)).mpr (ExtTreeMap.mem_keys.mp hbase))
  have hle := (hnodup.subperm hsub).length_le
  rwa [length_map, ExtTreeMap.length_keys, ExtTreeMap.length_keys] at hle

theorem getBidVictims_eq (h : Stores s.blobs m) (keyed : Keyed B m) (bid : Bid) (enough : Int) :
    getBidVictims s bid enough = .ok (gather Victim.size enough (bucketOf m bid) [] 0 0) := by
  -- the blobs from the start of the range on
  let ahead : Bytes → Bool := fun base => compare base (blobStartKeyOf bid) != .lt
  obtain ⟨l, hl⟩ : ∃ l, l = m.toList.dropWhile fun e => !ahead e.1 := ⟨_, rfl⟩
  have hjump : jump s (blobStartKeyOf bid) = l.head?.map (·.1 ++ fsidName) := by
    rw [jump_eq h keyed (p := ahead), ← ExtTreeMap.map_fst_toList_eq_keys, find?_map,
      find?_eq_head?_dropWhile_not, Option.map_map, hl]
    · rfl
    · intro base hbase n
      obtain ⟨boid, -, -, -, rfl⟩ := keyed base hbase
      rw [ne_eq, compare_start, bne_iff_ne, ne_eq]
  have hfilter : (l.filter fun e => !beyond (blobTooFarKeyOf bid) e.1) =
      m.toList.filter fun e => covers bid e.1 := by
    have hmono : ∀ a b : Bytes × Blob, compare a.1 b.1 = .lt → ahead a.1 = true → ahead b.1 = true := by
      intro a b hab ha
      rw [bne_iff_ne] at *
      exact fun hb => ha (TransCmp.lt_trans hab hb)
    rw [hl, ← filter_eq_dropWhile ExtTreeMap.ordered_keys_toList hmono, filter_filter]
    exact filter_congr fun e _ => Bool.and_comm _ _
  have hlength : l.length < s.blobs.size + enough.toNat + 1 := by
    have hdrop := (dropWhile_sublist (l := m.toList) fun e => !ahead e.1).length_le
    have hsize := h.size_le
    rw [ExtTreeMap.length_toList, ← hl] at hdrop
    omega
  have hlist : m.toList = (m.toList.takeWhile fun e => !ahead e.1) ++ l := by
    rw [hl, takeWhile_append_dropWhile]
  rw [getBidVictims, hjump, bidLoop_eq h keyed bid enough hlist hlength, hfilter]
  rfl

end Scan

end Alba.FragmentCache
