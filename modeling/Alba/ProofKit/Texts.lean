import Alba.ProofKit.Bytes

/-! Byte strings in their order. The texts that start with a given text lie together: every other one
lies before all of them or after all of them. So the part of an ordered store whose keys start with a
text is a store of its own. -/

namespace Alba.ProofKit

open Std List

section Order

theorem compare_cons {α : Type} [Ord α] (a b : α) (x y : List α) :
    compare (a :: x) (b :: y) = (compare a b).then (compare x y) := by
  show List.compareLex compare (a :: x) (b :: y) = _
  rw [List.compareLex_cons_cons]
  cases compare a b <;> rfl

theorem compare_cons_ne_gt {a b : UInt8} {x y : Bytes} (h : compare (a :: x) (b :: y) ≠ .gt) :
    a < b ∨ (a = b ∧ compare x y ≠ .gt) := by
  rw [compare_cons] at h
  cases hab : compare a b with
  | lt => exact Or.inl (Std.LawfulLTCmp.eq_lt_iff_lt.mp hab)
  | eq => exact Or.inr ⟨Std.LawfulEqOrd.eq_of_compare hab, by simpa [hab] using h⟩
  | gt => simp [hab] at h

theorem compare_cons_lt {a b : UInt8} {x y : Bytes} (h : compare (a :: x) (b :: y) = .lt) :
    a < b ∨ (a = b ∧ compare x y = .lt) := by
  rw [compare_cons] at h
  cases hab : compare a b with
  | lt => exact Or.inl (Std.LawfulLTCmp.eq_lt_iff_lt.mp hab)
  | eq => exact Or.inr ⟨Std.LawfulEqOrd.eq_of_compare hab, by simpa [hab] using h⟩
  | gt => simp [hab] at h

theorem start_of_between {q x y key : Bytes} (hfirst : compare (q ++ x) key ≠ .gt)
    (hlast : compare key (q ++ y) = .lt) :
    ∃ r, key = q ++ r ∧ compare x r ≠ .gt ∧ compare r y = .lt := by
  induction q generalizing key with
  | nil => exact ⟨key, rfl, hfirst, hlast⟩
  | cons c q ih =>
    cases key with
    | nil => exact absurd rfl hfirst
    | cons k key =>
      rcases compare_cons_ne_gt hfirst with hlt | ⟨heq, hfirst⟩ <;>
        rcases compare_cons_lt hlast with hlt' | ⟨heq', hlast⟩
      · exact absurd (UInt8.lt_trans hlt hlt') (UInt8.lt_irrefl c)
      · exact absurd (heq' ▸ hlt) (UInt8.lt_irrefl c)
      · exact absurd (heq ▸ hlt') (UInt8.lt_irrefl k)
      · obtain ⟨r, rfl, hx, hy⟩ := ih hfirst hlast
        exact ⟨r, by rw [heq]; rfl, hx, hy⟩

theorem start_of_highest {n : Nat} {x r : Bytes}
    (h : compare (List.replicate n 255 ++ x) r ≠ .gt) : List.replicate n 255 <+: r := by
  induction n generalizing r with
  | zero => exact List.nil_prefix
  | succ n ih =>
    rw [replicate_succ] at h ⊢
    cases r with
    | nil => exact absurd rfl h
    | cons c r =>
      rcases compare_cons_ne_gt h with hlt | ⟨rfl, h⟩
      · exact absurd hlt (by simp [UInt8.lt_iff_toNat_lt]; have := c.toNat_lt; omega)
      · exact (List.prefix_cons_inj _).mpr (ih h)

theorem length_lt_of_lowest {n : Nat} {r : Bytes} (h : compare r (List.replicate n 0) = .lt) :
    r.length < n := by
  induction n generalizing r with
  | zero => cases r <;> cases h
  | succ n ih =>
    cases r with
    | nil => simp
    | cons c r =>
      rcases compare_cons_lt h with hlt | ⟨rfl, h⟩
      · exact absurd hlt (by simp [UInt8.lt_iff_toNat_lt])
      · simpa using ih h

theorem compare_append_left (p x y : Bytes) : compare (p ++ x) (p ++ y) = compare x y := by
  induction p with
  | nil => rfl
  | cons c p ih =>
    rw [cons_append, cons_append, compare_cons, ReflOrd.compare_self, ih]
    rfl

/-- A text that does not start with `p` lies before or after all texts that do. -/
theorem before_or_after_of_not_start {p k : Bytes} (h : ¬p <+: k) :
    (∀ s, compare k (p ++ s) = .lt) ∨ ∀ s, compare k (p ++ s) = .gt := by
  induction p generalizing k with
  | nil => exact absurd List.nil_prefix h
  | cons c p ih =>
    cases k with
    | nil => exact Or.inl fun s => rfl
    | cons b k =>
      cases hbc : compare b c with
      | lt => exact Or.inl fun s => by rw [cons_append, compare_cons, hbc]; rfl
      | gt => exact Or.inr fun s => by rw [cons_append, compare_cons, hbc]; rfl
      | eq =>
        obtain rfl := LawfulEqOrd.eq_of_compare hbc
        have hk : ¬p <+: k := fun hp => h ((List.prefix_cons_inj b).mpr hp)
        refine (ih hk).imp (fun hlt s => ?_) fun hgt s => ?_
        · rw [cons_append, compare_cons, hbc, hlt]
          rfl
        · rw [cons_append, compare_cons, hbc, hgt]
          rfl

theorem compare_ofNat (a b : Nat) :
    compare (UInt8.ofNat a) (UInt8.ofNat b) = compare (a % 256) (b % 256) := by
  have hbytes : ∀ x y : UInt8, compare x y = compare x.toNat y.toNat := by
    intro x y
    show compareOfLessAndEq x y = compareOfLessAndEq x.toNat y.toNat
    simp only [compareOfLessAndEq, UInt8.lt_iff_toNat_lt, UInt8.toNat_inj]
  rw [hbytes]
  simp

theorem compare_digits {width lo lo' : Nat} (hi hi' : Nat) (h : lo < width) (h' : lo' < width) :
    compare (lo + width * hi) (lo' + width * hi') = (compare hi hi').then (compare lo lo') := by
  rcases Nat.lt_trichotomy hi hi' with hlt | rfl | hgt
  · have hle := Nat.mul_le_mul_left width hlt
    rw [Nat.mul_succ] at hle
    rw [Nat.compare_eq_lt.mpr hlt, Nat.compare_eq_lt.mpr (by omega)]
    rfl
  · rw [Nat.compare_eq_eq.mpr rfl, Ordering.eq_then, Nat.compare_eq_ite_lt, Nat.compare_eq_ite_lt]
    simp only [Nat.add_lt_add_iff_right]
  · have hle := Nat.mul_le_mul_left width hgt
    rw [Nat.mul_succ] at hle
    rw [Nat.compare_eq_gt.mpr hgt, Nat.compare_eq_gt.mpr (by omega)]
    rfl

theorem compare_beBytes (width a b : Nat) (s t : Bytes) :
    compare (beBytes width a ++ s) (beBytes width b ++ t) =
      (compare (a % 256 ^ width) (b % 256 ^ width)).then (compare s t) := by
  induction width with
  | zero =>
    rw [pow_zero, Nat.mod_one, Nat.mod_one]
    rfl
  | succ width ih =>
    have hpos : 0 < 256 ^ width := Nat.pow_pos (by decide)
    rw [beBytes, beBytes, cons_append, cons_append, compare_cons, ih, compare_ofNat,
      Nat.pow_succ, Nat.mod_mul, Nat.mod_mul,
      compare_digits _ _ (Nat.mod_lt a hpos) (Nat.mod_lt b hpos), Ordering.then_assoc]

end Order

section Within

variable {V : Type} {p : Bytes}

/-- In a list in order, the texts that start with `p` lie together. -/
theorem split_at_start {l : List Bytes} (sorted : l.Pairwise fun a b => compare a b = .lt) :
    ∃ below above, l = below ++ (l.filter (p.isPrefixOf ·) ++ above) ∧
      (∀ k ∈ below, ∀ s, compare k (p ++ s) = .lt) ∧ ∀ k ∈ above, ∀ s, compare k (p ++ s) = .gt := by
  induction l with
  | nil => exact ⟨[], [], rfl, nofun, nofun⟩
  | cons k l ih =>
    obtain ⟨hk, hl⟩ := pairwise_cons.mp sorted
    by_cases hstart : p <+: k
    · -- nothing that follows `k` lies before a text that starts with `p`
      obtain ⟨s, rfl⟩ := hstart
      obtain ⟨below, above, heq, hbelow, habove⟩ := ih hl
      have hnil : below = [] := by
        refine eq_nil_iff_forall_not_mem.mpr fun b hb => ?_
        have hlt := hk b (by rw [heq]; exact mem_append_left _ hb)
        have hgt := OrientedCmp.gt_of_lt (hbelow b hb s)
        exact nomatch hlt.symm.trans hgt
      subst hnil
      refine ⟨[], above, ?_, nofun, habove⟩
      rw [filter_cons_of_pos (by simp)]
      exact congrArg _ heq
    · have hne : ¬p.isPrefixOf k := by simpa using hstart
      rw [filter_cons_of_neg hne]
      rcases before_or_after_of_not_start hstart with hbefore | hafter
      · obtain ⟨below, above, heq, hbelow, habove⟩ := ih hl
        refine ⟨k :: below, above, congrArg _ heq, fun b hb => ?_, habove⟩
        rcases mem_cons.mp hb with rfl | hb
        · exact hbefore
        · exact hbelow b hb
      · -- everything from here on lies after the texts that start with `p`
        have hall : ∀ b ∈ k :: l, ∀ s, compare b (p ++ s) = .gt := by
          intro b hb s
          rcases mem_cons.mp hb with rfl | hb
          · exact hafter s
          · exact TransCmp.gt_trans (OrientedCmp.gt_of_lt (hk b hb)) (hafter s)
        have hnone : l.filter (p.isPrefixOf ·) = [] := by
          refine filter_eq_nil_iff.mpr fun b hb hp => ?_
          obtain ⟨s, rfl⟩ : p <+: b := by simpa using hp
          have hgt := hall (p ++ s) (mem_cons_of_mem k hb) s
          exact nomatch ReflOrd.compare_self.symm.trans hgt
        exact ⟨[], k :: l, by rw [hnone]; rfl, nofun, hall⟩

/-- The part of a store whose keys start with `p`, as a store of its own. -/
def within (p : Bytes) (db : ExtTreeMap Bytes V) : ExtTreeMap Bytes V :=
  .ofList ((db.toList.filter fun kv => p.isPrefixOf kv.1).map fun kv => (kv.1.drop p.length, kv.2))

section

variable (db : ExtTreeMap Bytes V)
include db

theorem mem_within_list (k : Bytes) (v : V) :
    (k, v) ∈ ((db.toList.filter fun kv => p.isPrefixOf kv.1).map fun kv =>
      (kv.1.drop p.length, kv.2)) ↔ db[p ++ k]? = some v := by
  simp only [mem_map, mem_filter, Prod.exists, Prod.mk.injEq,
    ExtTreeMap.mem_toList_iff_getElem?_eq_some, List.isPrefixOf_iff_prefix]
  constructor
  · rintro ⟨key, w, ⟨hkey, s, rfl⟩, rfl, rfl⟩
    rwa [drop_left]
  · intro h
    exact ⟨p ++ k, v, ⟨h, k, rfl⟩, drop_left, rfl⟩

@[simp] theorem getElem?_within (k : Bytes) : (within p db)[k]? = db[p ++ k]? := by
  cases hv : db[p ++ k]? with
  | some v =>
    have hmem := (mem_within_list db k v).mpr hv
    refine ExtTreeMap.getElem?_ofList_of_mem ReflOrd.compare_self ?_ hmem
    -- different keys that start with `p` stay different
    rw [pairwise_map]
    refine (ExtTreeMap.distinct_keys_toList.filter _).imp_of_mem fun ha hb hne heq => hne ?_
    obtain ⟨s, hs⟩ := List.isPrefixOf_iff_prefix.mp (mem_filter.mp ha).2
    obtain ⟨t, ht⟩ := List.isPrefixOf_iff_prefix.mp (mem_filter.mp hb).2
    rw [← hs, ← ht, drop_left, drop_left] at heq
    rw [← hs, ← ht, compare_append_left, heq]
  | none =>
    refine ExtTreeMap.getElem?_ofList_of_contains_eq_false ?_
    rw [← Bool.not_eq_true, contains_iff_mem]
    intro hmem
    obtain ⟨⟨k', v⟩, hkv, rfl⟩ := mem_map.mp hmem
    exact nomatch hv.symm.trans ((mem_within_list db k' v).mp hkv)

@[simp] theorem mem_within (k : Bytes) : k ∈ within p db ↔ p ++ k ∈ db := by
  rw [ExtTreeMap.mem_iff_isSome_getElem?, ExtTreeMap.mem_iff_isSome_getElem?, getElem?_within]

theorem within_nil : within [] db = db :=
  ExtTreeMap.ext_getElem? fun k => by simp

theorem keys_within : (within p db).keys.map (p ++ ·) = db.keys.filter (p.isPrefixOf ·) := by
  have hleft : ((within p db).keys.map (p ++ ·)).Pairwise fun a b => compare a b = .lt := by
    rw [pairwise_map]
    exact ExtTreeMap.ordered_keys.imp fun h => by rw [compare_append_left, h]
  have hright : (db.keys.filter (p.isPrefixOf ·)).Pairwise fun a b => compare a b = .lt :=
    ExtTreeMap.ordered_keys.filter _
  have nodup : ∀ {l : List Bytes}, l.Pairwise (fun a b => compare a b = .lt) → l.Nodup :=
    fun h => h.imp fun hlt heq => nomatch (heq ▸ hlt).symm.trans ReflOrd.compare_self
  refine List.Perm.eq_of_pairwise (fun a b _ _ hab hba => ?_) hleft hright ?_
  · exact nomatch hba.symm.trans (OrientedCmp.gt_of_lt hab)
  · rw [perm_ext_iff_of_nodup (nodup hleft) (nodup hright)]
    intro key
    simp only [mem_map, mem_filter, ExtTreeMap.mem_keys, mem_within,
      List.isPrefixOf_iff_prefix]
    constructor
    · rintro ⟨k, hk, rfl⟩
      exact ⟨hk, k, rfl⟩
    · rintro ⟨hkey, k, rfl⟩
      exact ⟨k, hkey, rfl⟩

end

end Within

end Alba.ProofKit
