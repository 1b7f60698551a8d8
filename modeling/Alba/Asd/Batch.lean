import Alba.Asd.Device
import Alba.ProofKit.Cells

/-! What the batch of an Apply request does to the database: every updated key has its new value,
its old file is unmapped and marked, and the new files are mapped. -/

namespace Alba.Asd

open Nsm ProofKit Std List

section Ops

variable {db₀ db : Db} {u : Immediate} {us : List Immediate} {key : Bytes} {fnr : Nat}

theorem mem_replaces : fnr ∈ u.replaces db ↔ ∃ c size, db.values[u.key]? = some (c, .onFs fnr size) := by
  unfold Immediate.replaces
  split
  · rename_i c fnr' size hvalue
    simp [hvalue, eq_comm]
  · rename_i hnone
    constructor
    · simp
    · rintro ⟨c, size, hvalue⟩
      exact absurd hvalue (hnone c fnr size)

theorem values_ops : ((u.ops db₀).foldl Db.applyOp db).values[key]? =
    if u.key = key then u.value else db.values[key]? := by
  rw [Immediate.ops, foldl_append]
  by_cases hkey : u.key = key <;> cases u.replaces db₀ <;> cases u <;>
    simp_all [Immediate.replaceOps, Immediate.setOps, Db.applyOp, Immediate.key, Immediate.update,
      Immediate.value, ExtTreeMap.getElem?_insert, ExtTreeMap.getElem?_erase]

theorem mapping_ops : ((u.ops db₀).foldl Db.applyOp db).fileToKeyMapping[fnr]? =
    if u.fnr? = some fnr then some u.key
    else if fnr ∈ u.replaces db₀ then none else db.fileToKeyMapping[fnr]? := by
  rw [Immediate.ops, foldl_append]
  cases u.replaces db₀ <;> cases u <;>
    simp [Immediate.replaceOps, Immediate.setOps, Db.applyOp, Immediate.key, Immediate.update,
      Immediate.fnr?, ExtTreeMap.getElem?_insert, ExtTreeMap.getElem?_erase]

theorem toBeDeleted_ops : fnr ∈ ((u.ops db₀).foldl Db.applyOp db).toBeDeleted ↔
    fnr ∈ u.replaces db₀ ∨ fnr ∈ db.toBeDeleted := by
  rw [Immediate.ops, foldl_append]
  cases u.replaces db₀ <;> cases u <;>
    simp [Immediate.replaceOps, Immediate.setOps, Db.applyOp, eq_comm]

theorem values_batch (hkeys : (us.map Immediate.key).Nodup) :
    ((us.flatMap (Immediate.ops db₀)).foldl Db.applyOp db).values[key]? =
      match us.find? fun u => u.key = key with
      | some u => u.value
      | none => db.values[key]? := by
  induction us generalizing db with
  | nil => rfl
  | cons u us ih =>
    obtain ⟨hnew, hkeys⟩ := nodup_cons.mp hkeys
    rw [flatMap_cons, foldl_append, ih hkeys, find?_cons]
    by_cases hu : u.key = key
    · have hnone : us.find? (fun u => u.key = key) = none := by
        rw [find?_eq_none]
        intro v hv hkey
        refine hnew (mem_map.mpr ⟨v, hv, ?_⟩)
        rw [hu]
        simpa using hkey
      simp [hu, hnone, values_ops]
    · simp [hu, values_ops]

theorem mapping_batch (hfiles : (us.filterMap Immediate.fnr?).Nodup)
    (hapart : ∀ fnr ∈ us.filterMap Immediate.fnr?, fnr ∉ us.filterMap (Immediate.replaces db₀)) :
    ((us.flatMap (Immediate.ops db₀)).foldl Db.applyOp db).fileToKeyMapping[fnr]? =
      match us.find? fun u => u.fnr? = some fnr with
      | some u => some u.key
      | none =>
        if fnr ∈ us.filterMap (Immediate.replaces db₀) then none else db.fileToKeyMapping[fnr]? := by
  induction us generalizing db with
  | nil => simp
  | cons u us ih =>
    have hfiles' : (us.filterMap Immediate.fnr?).Nodup := by
      rw [filterMap_cons] at hfiles
      split at hfiles
      · exact hfiles
      · exact (nodup_cons.mp hfiles).2
    have hapart' : ∀ fnr ∈ us.filterMap Immediate.fnr?,
        fnr ∉ us.filterMap (Immediate.replaces db₀) := by
      intro f hf hr
      obtain ⟨v, hv, hvf⟩ := mem_filterMap.mp hf
      obtain ⟨w, hw, hwf⟩ := mem_filterMap.mp hr
      exact hapart f (mem_filterMap.mpr ⟨v, mem_cons_of_mem u hv, hvf⟩)
        (mem_filterMap.mpr ⟨w, mem_cons_of_mem u hw, hwf⟩)
    rw [flatMap_cons, foldl_append, ih hfiles' hapart', find?_cons]
    by_cases hu : u.fnr? = some fnr
    · -- the number is not given twice, and it replaces nothing
      have hnone : us.find? (fun u => u.fnr? = some fnr) = none := by
        rw [find?_eq_none]
        intro v hv hvf
        rw [filterMap_cons, hu] at hfiles
        exact (nodup_cons.mp hfiles).1 (mem_filterMap.mpr ⟨v, hv, by simpa using hvf⟩)
      have hkept : fnr ∉ us.filterMap (Immediate.replaces db₀) := by
        intro hr
        obtain ⟨w, hw, hwf⟩ := mem_filterMap.mp hr
        exact hapart fnr (mem_filterMap.mpr ⟨u, by simp, hu⟩)
          (mem_filterMap.mpr ⟨w, mem_cons_of_mem u hw, hwf⟩)
      simp [hu, hnone, hkept, mapping_ops]
    · have hcons : fnr ∈ (u :: us).filterMap (Immediate.replaces db₀) ↔
          fnr ∈ u.replaces db₀ ∨ fnr ∈ us.filterMap (Immediate.replaces db₀) := by
        simp [mem_filterMap]
      simp only [hu, decide_false, mapping_ops, if_false, hcons]
      cases us.find? fun u => u.fnr? = some fnr with
      | some v => rfl
      | none => by_cases hr : fnr ∈ u.replaces db₀ <;> simp [hr]

theorem values_batch_eq_some (hkeys : (us.map Immediate.key).Nodup) {value : Checksum × Value} :
    ((us.flatMap (Immediate.ops db₀)).foldl Db.applyOp db).values[key]? = some value ↔
      (∃ u ∈ us, u.key = key ∧ u.value = some value) ∨
        (∀ u ∈ us, u.key ≠ key) ∧ db.values[key]? = some value := by
  rw [values_batch hkeys]
  cases hfind : us.find? fun u => u.key = key with
  | some v =>
    have hv : v ∈ us := mem_of_find?_eq_some hfind
    have hkey : v.key = key := by simpa using find?_some hfind
    constructor
    · exact fun h => Or.inl ⟨v, hv, hkey, h⟩
    · rintro (⟨u, hu, hukey, hvalue⟩ | ⟨hnot, _⟩)
      · have hsame := find?_of_nodup hkeys hu
        rw [hukey, hfind] at hsame
        cases hsame
        exact hvalue
      · exact absurd hkey (hnot v hv)
  | none =>
    have hnot : ∀ u ∈ us, u.key ≠ key := by simpa using find?_eq_none.mp hfind
    constructor
    · exact fun h => Or.inr ⟨hnot, h⟩
    · rintro (⟨u, hu, hukey, _⟩ | ⟨_, h⟩)
      · exact absurd hukey (hnot u hu)
      · exact h

/-- A file belongs to the key that the batch gives it to, or to the old one when the batch neither
gives it away nor replaces it. -/
theorem mapping_batch_eq_some (hfiles : (us.filterMap Immediate.fnr?).Nodup)
    (hapart : ∀ fnr ∈ us.filterMap Immediate.fnr?, fnr ∉ us.filterMap (Immediate.replaces db₀)) :
    ((us.flatMap (Immediate.ops db₀)).foldl Db.applyOp db).fileToKeyMapping[fnr]? = some key ↔
      (∃ u ∈ us, u.fnr? = some fnr ∧ u.key = key) ∨
        fnr ∉ us.filterMap Immediate.fnr? ∧ fnr ∉ us.filterMap (Immediate.replaces db₀) ∧
          db.fileToKeyMapping[fnr]? = some key := by
  rw [mapping_batch hfiles hapart]
  cases hfind : us.find? fun u => u.fnr? = some fnr with
  | some v =>
    have hv : v ∈ us := mem_of_find?_eq_some hfind
    have hfnr : v.fnr? = some fnr := by simpa using find?_some hfind
    constructor
    · intro heq
      cases heq
      exact Or.inl ⟨v, hv, hfnr, rfl⟩
    · rintro (⟨u, hu, huf, hkey⟩ | ⟨hnot, _⟩)
      · have hsame : v = u := eq_of_filterMap_nodup hfiles hv hu hfnr huf
        subst hsame
        exact congrArg some hkey
      · exact absurd (mem_filterMap.mpr ⟨v, hv, hfnr⟩) hnot
  | none =>
    have hnot : fnr ∉ us.filterMap Immediate.fnr? := by
      intro hmem
      obtain ⟨u, hu, huf⟩ := mem_filterMap.mp hmem
      exact absurd huf (by simpa using find?_eq_none.mp hfind u hu)
    dsimp only
    constructor
    · intro h
      split at h
      · cases h
      · exact Or.inr ⟨hnot, ‹_›, h⟩
    · rintro (⟨u, hu, huf, _⟩ | ⟨_, hr, h⟩)
      · exact absurd (mem_filterMap.mpr ⟨u, hu, huf⟩) hnot
      · rwa [if_neg hr]

theorem toBeDeleted_batch : fnr ∈ ((us.flatMap (Immediate.ops db₀)).foldl Db.applyOp db).toBeDeleted ↔
    fnr ∈ us.filterMap (Immediate.replaces db₀) ∨ fnr ∈ db.toBeDeleted := by
  induction us generalizing db with
  | nil => simp
  | cons u us ih =>
    rw [flatMap_cons, foldl_append, ih, toBeDeleted_ops]
    simp only [mem_filterMap, mem_cons, exists_eq_or_imp]
    constructor
    · rintro (h | h | h)
      · exact Or.inl (Or.inr h)
      · exact Or.inl (Or.inl h)
      · exact Or.inr h
    · rintro ((h | h) | h)
      · exact Or.inr (Or.inl h)
      · exact Or.inl h
      · exact Or.inr (Or.inr h)

end Ops

end Alba.Asd
