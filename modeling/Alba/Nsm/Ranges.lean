import Alba.Nsm.Live
import Alba.ProofKit.Texts

/-! Ranges of keys. The range from a text to its `next_prefix` holds the keys that start with the
text; so the keys that are listed for an osd are the ones scheduled on it. -/

namespace Alba.Nsm

open List hiding next
open ProofKit Std

theorem nextPrefix_eq_some {start next : Bytes} (h : Key.nextPrefix start = some next) :
    ∃ q b n, b ≠ 255 ∧ start = q ++ b :: List.replicate n 255 ∧
      next = q ++ (b + 1) :: List.replicate n 0 := by
  have inner : ∀ {s t : Bytes}, Key.nextPrefix.inner s = some t →
      ∃ q b n, b ≠ 255 ∧ s = List.replicate n 255 ++ b :: q ∧
        t = List.replicate n 0 ++ (b + 1) :: q := by
    intro s
    induction s with
    | nil => exact fun h => nomatch h
    | cons c s ih =>
      intro t h
      unfold Key.nextPrefix.inner at h
      split at h
      · rename_i hc
        obtain ⟨t', ht', rfl⟩ := Option.map_eq_some_iff.mp h
        obtain ⟨q, b, n, hb, rfl, rfl⟩ := ih ht'
        exact ⟨q, b, n + 1, hb, by rw [hc]; rfl, rfl⟩
      · rename_i hc
        cases h
        exact ⟨s, c, 0, hc, rfl, rfl⟩
  obtain ⟨t, ht, rfl⟩ := Option.map_eq_some_iff.mp h
  obtain ⟨q, b, n, hb, hs, rfl⟩ := inner ht
  refine ⟨q.reverse, b, n, hb, ?_, by simp⟩
  rw [← reverse_reverse start, hs]
  simp

theorem nextPrefix_ne_none {start : Bytes} (h : ∃ c ∈ start, c ≠ 255) :
    Key.nextPrefix start ≠ none := by
  have inner : ∀ {s : Bytes}, (∃ c ∈ s, c ≠ 255) → Key.nextPrefix.inner s ≠ none := by
    intro s
    induction s with
    | nil => rintro ⟨_, hc, _⟩; cases hc
    | cons b s ih =>
      rintro ⟨c, hc, hne⟩
      unfold Key.nextPrefix.inner
      split
      · rename_i hb
        rw [Ne, Option.map_eq_none_iff]
        refine ih ⟨c, (mem_cons.mp hc).resolve_left ?_, hne⟩
        rintro rfl
        exact hne hb
      · simp
  obtain ⟨c, hc, hne⟩ := h
  rw [Key.nextPrefix, Ne, Option.map_eq_none_iff]
  exact inner ⟨c, mem_reverse.mpr hc, hne⟩

/-- What lies between a text and its `next_prefix` starts with it, unless it is shorter; and it
starts with the text up to a byte that cannot be the last one to increment. -/
theorem start_of_range {start next x key : Bytes} (hnext : Key.nextPrefix start = some next)
    (hfirst : compare (start ++ x) key ≠ .gt) (hlast : compare key next = .lt) :
    (start <+: key ∨ key.length < start.length) ∧
      ∀ i, (∃ c, start[i]? = some c ∧ c ≠ 255) → start.take i <+: key := by
  obtain ⟨q, b, n, hb, rfl, rfl⟩ := nextPrefix_eq_some hnext
  rw [append_assoc] at hfirst
  obtain ⟨r, rfl, hx, hy⟩ := start_of_between hfirst hlast
  constructor
  · cases r with
    | nil => exact absurd rfl hx
    | cons c r =>
      rcases compare_cons_ne_gt hx with hlt | ⟨rfl, hrest⟩
      · right
        have hc : c = b + 1 ∧ compare r (List.replicate n 0) = .lt := by
          rcases compare_cons_lt hy with hlt' | hy
          · have hsucc : (b + 1).toNat = b.toNat + 1 := by
              have hb' : b.toNat ≠ 255 := fun he => hb (UInt8.toNat_inj.mp he)
              have := b.toNat_lt
              rw [UInt8.toNat_add]
              simp
              omega
            rw [UInt8.lt_iff_toNat_lt] at hlt hlt'
            omega
          · exact hy
        have hlength := length_lt_of_lowest hc.2
        simp
        omega
      · left
        rw [List.prefix_append_right_inj, List.prefix_cons_inj]
        exact start_of_highest hrest
  · rintro i ⟨c, hc, hne⟩
    have hi : i ≤ q.length := by
      by_contra hlt
      rw [getElem?_append_right (by omega)] at hc
      obtain ⟨j, hj⟩ : ∃ j, i - q.length = j + 1 := ⟨i - q.length - 1, by omega⟩
      rw [hj, getElem?_cons_succ, getElem?_replicate] at hc
      split at hc
      · exact hne (Option.some.inj hc).symm
      · cases hc
    rw [take_append_of_le_length hi]
    exact (List.take_prefix i q).trans (List.prefix_append q r)

section Listing

variable {d : OsdId}

theorem keysToBeDeletedExtractKey_encode (key : Bytes) :
    Key.keysToBeDeletedExtractKey (Key.keysToBeDeleted d key).encode = key := by
  have hdrop : (Key.keysToBeDeleted d key).encode.drop Kind.osdObjects.start.length =
      xInt64BeTo d ++ (ascii ['/'] ++ key) := by
    rw [Key.encode, show Kind.osdObjects.start.length =
      (Key.keysToBeDeleted d key).kind.start.length from rfl, drop_left]
    rfl
  rw [Key.keysToBeDeletedExtractKey, hdrop]
  unfold xInt64BeTo
  by_cases hd : d.val < 2 ^ 31 - 1
  · have hne : beBytes 4 d.val ≠ beBytes 4 (2 ^ 31 - 1) := by
      rw [Ne, beBytes_eq_iff]
      omega
    have htake : (beBytes 4 d.val ++ (ascii ['/'] ++ key)).take 4 = beBytes 4 d.val :=
      take_left' (by simp)
    simp only [if_pos hd, htake, if_neg hne]
    rw [← drop_drop, drop_left' (by simp)]
    rfl
  · have htake : (beBytes 4 (2 ^ 31 - 1) ++ beBytes 8 d.val ++ (ascii ['/'] ++ key)).take 4 =
        beBytes 4 (2 ^ 31 - 1) := by
      rw [append_assoc]
      exact take_left' (by simp)
    simp only [if_neg hd, htake, if_true]
    rw [← drop_drop, drop_left' (by simp)]
    rfl

theorem beBytes_head {width n : Nat} (h : n < 128 * 256 ^ width) :
    ∃ c, (beBytes (width + 1) n)[0]? = some c ∧ c ≠ 255 := by
  have hlt : n / 256 ^ width < 128 := by
    rw [Nat.div_lt_iff_lt_mul (by positivity)]
    exact h
  refine ⟨_, rfl, fun he => ?_⟩
  generalize n / 256 ^ width = high at hlt he
  have hnat : high % 256 = 255 := by simpa using congrArg UInt8.toNat he
  omega

theorem getElem?_length_append (l r : Bytes) : (l ++ r)[l.length]? = r[0]? := by
  rw [getElem?_append_right (Nat.le_refl _), Nat.sub_self]

theorem xInt64BeTo_length_le (d : OsdId) : 4 ≤ (xInt64BeTo d).length := by
  unfold xInt64BeTo
  split <;> simp

theorem xInt64BeTo_head (d : OsdId) : ∃ c, (xInt64BeTo d)[0]? = some c ∧ c ≠ 255 := by
  unfold xInt64BeTo
  split
  · exact beBytes_head (by omega)
  · rw [getElem?_append_left (by simp)]
    exact beBytes_head (by omega)

theorem scheduled_of_range {k : Key} {next x : Bytes}
    (hnext : Key.nextPrefix (Kind.keysToBeDeleted.start ++ xInt64BeTo d) = some next)
    (hfirst : compare (Kind.keysToBeDeleted.start ++ xInt64BeTo d ++ x) k.encode ≠ .gt)
    (hlast : compare k.encode next = .lt) : ∃ key, k = .keysToBeDeleted d key := by
  obtain ⟨hrange, htake⟩ := start_of_range hnext hfirst hlast
  have hkind : k.kind = .keysToBeDeleted := by
    obtain ⟨c, hc, hne⟩ := xInt64BeTo_head d
    refine Key.kind_of_start (by decide) (by decide) ?_
    have hstart := htake Kind.keysToBeDeleted.start.length
      ⟨c, by rw [getElem?_length_append, hc], hne⟩
    rwa [take_left] at hstart
  obtain ⟨e, key, rfl⟩ : ∃ e key, k = .keysToBeDeleted e key := by
    cases k with
    | keysToBeDeleted e key => exact ⟨e, key, rfl⟩
    | _ => cases hkind
  have hencode : (Key.keysToBeDeleted e key).encode =
      Kind.keysToBeDeleted.start ++ (xInt64BeTo e ++ (ascii ['/'] ++ key)) := rfl
  rw [hencode] at hrange htake
  have hstart : Kind.keysToBeDeleted.start ++ xInt64BeTo d <+:
      Kind.keysToBeDeleted.start ++ (xInt64BeTo e ++ (ascii ['/'] ++ key)) := by
    refine hrange.resolve_right fun hshort => ?_
    have he := xInt64BeTo_length_le e
    simp only [length_append] at hshort
    by_cases hd : d.val < 2 ^ 31 - 1
    · have hlength : (xInt64BeTo d).length = 4 := by
        rw [xInt64BeTo, if_pos hd, beBytes_length]
      omega
    · -- a long id is followed only by keys of long ids
      have hd' : xInt64BeTo d = beBytes 4 (2 ^ 31 - 1) ++ beBytes 8 d.val := if_neg hd
      have hlong : beBytes 4 (2 ^ 31 - 1) <+: xInt64BeTo e ++ (ascii ['/'] ++ key) := by
        have hfits := d.fits
        have hhead : ∃ c, (beBytes 8 d.val)[0]? = some c ∧ c ≠ 255 := beBytes_head (by omega)
        obtain ⟨c, hc, hne⟩ := hhead
        have hstart := htake (Kind.keysToBeDeleted.start ++ beBytes 4 (2 ^ 31 - 1)).length
          ⟨c, by rw [hd', ← append_assoc, getElem?_length_append, hc], hne⟩
        rw [hd', ← append_assoc, take_left, List.prefix_append_right_inj] at hstart
        exact hstart
      by_cases he' : e.val < 2 ^ 31 - 1
      · rw [xInt64BeTo, if_pos he'] at hlong
        have hword : beBytes 4 (2 ^ 31 - 1) = beBytes 4 e.val :=
          (List.prefix_of_prefix_length_le hlong (List.prefix_append _ _) (by simp)).eq_of_length
            (by simp)
        rw [beBytes_eq_iff] at hword
        omega
      · rw [xInt64BeTo, xInt64BeTo, if_neg hd, if_neg he'] at hshort
        simp only [length_append, beBytes_length] at hshort
        omega
  rw [List.prefix_append_right_inj] at hstart
  obtain ⟨t, ht⟩ := hstart
  exact ⟨key, by rw [(xInt64BeTo_append_inj ht).1]⟩

theorem scheduled_of_listed {kv : Store}
    (hencoded : ∀ key, (∀ k : Key, k.encode ≠ key) → kv[key]? = none) {max : Int} {reverse : Bool}
    {key : Bytes} (h : key ∈ (listDeviceKeysToBeDeleted kv d [] true none max reverse).1) :
    Scheduled kv d key := by
  have hnone : Key.nextPrefix (Kind.keysToBeDeleted.start ++ xInt64BeTo d) ≠ none :=
    nextPrefix_ne_none ⟨111, mem_append_left _ (by decide), by decide⟩
  obtain ⟨next, hnext⟩ := Option.ne_none_iff_exists'.mp hnone
  obtain ⟨raw, hraw, rfl⟩ : ∃ raw ∈ keysInRange kv (Key.keysToBeDeleted d []).encode true
      (some (next, false)), Key.keysToBeDeletedExtractKey raw = key := by
    simp only [listDeviceKeysToBeDeleted, hnext, Option.map_some] at h
    have hmem : key ∈ (if reverse then (keysInRange kv (Key.keysToBeDeleted d []).encode true
        (some (next, false))).reverse else keysInRange kv (Key.keysToBeDeleted d []).encode true
        (some (next, false))).map Key.keysToBeDeletedExtractKey := by
      split at h
      · exact h
      · exact mem_of_mem_take h
    obtain ⟨raw, hraw, rfl⟩ := mem_map.mp hmem
    refine ⟨raw, ?_, rfl⟩
    split at hraw
    · exact mem_reverse.mp hraw
    · exact hraw
  simp only [keysInRange, mem_filter, if_true, Bool.and_eq_true, bne_iff_ne, Bool.false_eq_true,
    if_false, beq_iff_eq] at hraw
  obtain ⟨hstored, hfirst, hlast⟩ := hraw
  have hget : kv[raw]? ≠ none := by
    rwa [ExtTreeMap.mem_keys, ExtTreeMap.mem_iff_isSome_getElem?, Option.isSome_iff_ne_none] at hstored
  obtain ⟨k, rfl⟩ := stored_key_encoded hencoded hget
  have hfirst' : compare (Kind.keysToBeDeleted.start ++ xInt64BeTo d ++ ascii ['/']) k.encode ≠
      .gt := by
    rw [append_assoc]
    exact hfirst
  obtain ⟨key, rfl⟩ := scheduled_of_range hnext hfirst' hlast
  rw [keysToBeDeletedExtractKey_encode, Scheduled, kvGet]
  exact Option.isSome_iff_ne_none.mpr hget

end Listing

end Alba.Nsm
