import Alba.Asd.Batch

/-! Crash safety of the device. What it owes to its clients holds for every database that a crash may
leave, as long as no file number is given out while a crash could bring back a mark to delete it. -/

namespace Alba.Asd

open Nsm ProofKit Std

/-- What an applied request leaves of a value that is owed for the key. -/
def setBy (key : Bytes) (owed : Option (Blob × Checksum)) (request : Nat × List Update) :
    Option (Blob × Checksum) :=
  ((request.2.find? fun u => u.key = key).map Update.value).getD owed

/-- The blob that a client who knows the applied requests expects. -/
def expected (applied : List (Nat × List Update)) (key : Bytes) : Option (Blob × Checksum) :=
  applied.foldl (setBy key) none

/-- The value in the database is the one that is owed, with a file of the right size and content. -/
def Holds (files : ExtTreeMap Nat Blob) (owed : Option (Blob × Checksum)) :
    Option (Checksum × Value) → Prop
  | none => owed = none
  | some (c, .direct blob) => owed = some (blob, c)
  | some (c, .onFs fnr size) =>
    ∃ blob, files[fnr]? = some blob ∧ blob.length = size ∧ owed = some (blob, c)

structure Consistent (files : ExtTreeMap Nat Blob) (db : Db) : Prop where
  mapped : ∀ fnr key, db.fileToKeyMapping[fnr]? = some key ↔
    ∃ c size, db.values[key]? = some (c, Value.onFs fnr size)
  holds : ∀ key, Holds files (expected db.applied key) db.values[key]?
  unmarked : ∀ fnr ∈ db.toBeDeleted, db.fileToKeyMapping[fnr]? = none

/-- The same database with fewer marks. -/
structure Weaker (a b : Db) : Prop where
  values : a.values = b.values
  mapping : a.fileToKeyMapping = b.fileToKeyMapping
  applied : a.applied = b.applied
  toBeDeleted : ∀ fnr ∈ a.toBeDeleted, fnr ∈ b.toBeDeleted

section Weaker

variable {a b : Db}

theorem Weaker.applyOp (h : Weaker a b) (op : Op) : Weaker (a.applyOp op) (b.applyOp op) := by
  obtain ⟨hvalues, hmapping, happlied, hmarks⟩ := h
  cases op with
  | putValue key value => exact ⟨by simp [Db.applyOp, hvalues], hmapping, happlied, hmarks⟩
  | deleteValue key => exact ⟨by simp [Db.applyOp, hvalues], hmapping, happlied, hmarks⟩
  | putMapping fnr key => exact ⟨hvalues, by simp [Db.applyOp, hmapping], happlied, hmarks⟩
  | deleteMapping fnr => exact ⟨hvalues, by simp [Db.applyOp, hmapping], happlied, hmarks⟩
  | putToBeDeleted fnr =>
    refine ⟨hvalues, hmapping, happlied, fun f hf => ?_⟩
    simp only [Db.applyOp, List.mem_insert_iff] at hf ⊢
    exact hf.imp id (hmarks f)

theorem Weaker.applyOps (h : Weaker a b) (ops : List Op) :
    Weaker (ops.foldl Db.applyOp a) (ops.foldl Db.applyOp b) := by
  induction ops generalizing a b with
  | nil => exact h
  | cons op ops ih => exact ih (h.applyOp op)

theorem weakening : Disk.Weakening Db.apply Write.logged Weaker where
  refl a := ⟨rfl, rfl, rfl, fun _ h => h⟩
  keep a b w h hw := by
    cases w with
    | batch id updates ops =>
      have hops := h.applyOps ops
      exact ⟨hops.values, hops.mapping, by simp [Db.apply, h.applied], hops.toBeDeleted⟩
    | checkGarbageFrom fnr => exact ⟨h.values, h.mapping, h.applied, h.toBeDeleted⟩
    | removeToBeDeleted fnr => cases hw
    | advanceCheckGarbageFrom fnr => cases hw
  skip a b w h hw := by
    cases w with
    | batch id updates ops => cases hw
    | checkGarbageFrom fnr => cases hw
    | removeToBeDeleted fnr =>
      refine ⟨h.values, h.mapping, h.applied, fun f hf => h.toBeDeleted f ?_⟩
      exact (List.mem_filter.mp hf).1
    | advanceCheckGarbageFrom fnr => exact ⟨h.values, h.mapping, h.applied, h.toBeDeleted⟩

theorem Consistent.weaker {files : ExtTreeMap Nat Blob} (hb : Consistent files b) (h : Weaker a b) :
    Consistent files a := by
  refine ⟨fun fnr key => ?_, fun key => ?_, fun fnr hfnr => ?_⟩
  · rw [h.mapping, h.values]
    exact hb.mapped fnr key
  · rw [h.applied, h.values]
    exact hb.holds key
  · rw [h.mapping]
    exact hb.unmarked fnr (h.toBeDeleted fnr hfnr)

end Weaker

section Files

variable {files : ExtTreeMap Nat Blob} {db : Db} {fnr : Nat}

theorem Consistent.withFiles (h : Consistent files db) {files' : ExtTreeMap Nat Blob}
    (hsame : ∀ (fnr : Nat) key, db.fileToKeyMapping[fnr]? = some key → files'[fnr]? = files[fnr]?) :
    Consistent files' db := by
  refine ⟨h.mapped, fun key => ?_, h.unmarked⟩
  have hholds := h.holds key
  cases hvalue : db.values[key]? with
  | none => rwa [hvalue] at hholds
  | some entry =>
    obtain ⟨c, value⟩ := entry
    rw [hvalue] at hholds
    cases value with
    | direct blob => exact hholds
    | onFs fnr size =>
      obtain ⟨blob, hblob, hrest⟩ := hholds
      exact ⟨blob, by rw [hsame fnr key ((h.mapped fnr key).mpr ⟨c, size, hvalue⟩), hblob], hrest⟩

theorem expected_append (applied : List (Nat × List Update)) (request : Nat × List Update)
    (key : Bytes) : expected (applied ++ [request]) key = setBy key (expected applied key) request := by
  simp [expected]

section Batch

variable {db₀ : Db} {id : Nat} {us : List Immediate}

/-- The database after the batch of a request. `db₀` is the one that the batch was computed from. -/
def afterBatch (db₀ db : Db) (id : Nat) (us : List Immediate) : Db :=
  db.apply (.batch id (us.map Immediate.update) (us.flatMap (Immediate.ops db₀)))

theorem expected_afterBatch (hkeys : (us.map Immediate.key).Nodup) (key : Bytes) :
    (∃ u ∈ us, u.key = key ∧ (afterBatch db₀ db id us).values[key]? = u.value ∧
      expected (afterBatch db₀ db id us).applied key = u.update.value) ∨
    (afterBatch db₀ db id us).values[key]? = db.values[key]? ∧
      expected (afterBatch db₀ db id us).applied key = expected db.applied key := by
  have hvalue : (afterBatch db₀ db id us).values[key]? = _ := values_batch hkeys
  have happlied : (afterBatch db₀ db id us).applied =
      db.applied ++ [(id, us.map Immediate.update)] := rfl
  have hsame : ((fun u : Update => decide (u.key = key)) ∘ Immediate.update) =
      fun u => decide (u.key = key) := rfl
  rw [happlied, expected_append, setBy, List.find?_map, hsame, hvalue]
  cases hfind : us.find? fun u => u.key = key with
  | some u =>
    exact Or.inl ⟨u, List.mem_of_find?_eq_some hfind, by simpa using List.find?_some hfind, rfl, rfl⟩
  | none => exact Or.inr ⟨rfl, rfl⟩

theorem Immediate.holds (u : Immediate)
    (hwritten : ∀ key blob c fnr, u = .onFs key blob c fnr → files[fnr]? = some blob) :
    Holds files u.update.value u.value := by
  cases u with
  | direct key blob c => rfl
  | onFs key blob c fnr => exact ⟨blob, hwritten key blob c fnr rfl, rfl, rfl⟩
  | delete key => rfl

theorem Immediate.value_onFs {u : Immediate} {c : Checksum} {size : Nat}
    (h : u.value = some (c, .onFs fnr size)) : u.fnr? = some fnr := by
  cases u <;> simp_all [Immediate.value, Immediate.fnr?]

theorem Immediate.value_of_fnr? {u : Immediate} (h : u.fnr? = some fnr) :
    ∃ c size, u.value = some (c, .onFs fnr size) := by
  cases u <;> simp_all [Immediate.value, Immediate.fnr?]

variable (h : Consistent files db) (hvalues : db₀.values = db.values)
  (hkeys : (us.map Immediate.key).Nodup) (hnumbers : (us.filterMap Immediate.fnr?).Nodup)
  (hfree : ∀ fnr ∈ us.filterMap Immediate.fnr?,
    db.fileToKeyMapping[fnr]? = none ∧ fnr ∉ db.toBeDeleted)
include h hvalues

theorem mem_replaced : fnr ∈ us.filterMap (Immediate.replaces db₀) ↔
    ∃ u ∈ us, db.fileToKeyMapping[fnr]? = some u.key := by
  rw [List.mem_filterMap]
  refine exists_congr fun u => and_congr_right fun _ => ?_
  rw [h.mapped, ← hvalues]
  exact mem_replaces

include hnumbers hfree

theorem mapping_afterBatch {key : Bytes} :
    (afterBatch db₀ db id us).fileToKeyMapping[fnr]? = some key ↔
      (∃ u ∈ us, u.fnr? = some fnr ∧ u.key = key) ∨
        fnr ∉ us.filterMap Immediate.fnr? ∧ fnr ∉ us.filterMap (Immediate.replaces db₀) ∧
          db.fileToKeyMapping[fnr]? = some key := by
  refine mapping_batch_eq_some hnumbers fun f hf hr => ?_
  obtain ⟨u, _, hmap⟩ := (mem_replaced h hvalues).mp hr
  rw [(hfree f hf).1] at hmap
  cases hmap

include hkeys

theorem mapped_afterBatch (key : Bytes) :
    (afterBatch db₀ db id us).fileToKeyMapping[fnr]? = some key ↔
      ∃ c size, (afterBatch db₀ db id us).values[key]? = some (c, .onFs fnr size) := by
  have hvalue : ∀ value, (afterBatch db₀ db id us).values[key]? = some value ↔ _ :=
    fun value => values_batch_eq_some hkeys
  rw [mapping_afterBatch h hvalues hnumbers hfree]
  constructor
  · rintro (⟨u, hu, hfnr, hkey⟩ | ⟨_, hkept, hmap⟩)
    · obtain ⟨c, size, hset⟩ := Immediate.value_of_fnr? hfnr
      exact ⟨c, size, (hvalue _).mpr (Or.inl ⟨u, hu, hkey, hset⟩)⟩
    · obtain ⟨c, size, hold⟩ := (h.mapped fnr key).mp hmap
      refine ⟨c, size, (hvalue _).mpr (Or.inr ⟨fun u hu hkey => ?_, hold⟩)⟩
      exact hkept ((mem_replaced h hvalues).mpr ⟨u, hu, hkey ▸ hmap⟩)
  · rintro ⟨c, size, hset⟩
    rcases (hvalue _).mp hset with ⟨u, hu, hkey, hset⟩ | ⟨hnot, hold⟩
    · exact Or.inl ⟨u, hu, Immediate.value_onFs hset, hkey⟩
    · have hmap := (h.mapped fnr key).mpr ⟨c, size, hold⟩
      refine Or.inr ⟨fun hnew => ?_, fun hr => ?_, hmap⟩
      · rw [(hfree fnr hnew).1] at hmap
        cases hmap
      · obtain ⟨u, hu, hukey⟩ := (mem_replaced h hvalues).mp hr
        rw [hmap] at hukey
        exact hnot u hu (Option.some.inj hukey).symm

theorem Consistent.afterBatch
    (hwritten : ∀ key blob c fnr, .onFs key blob c fnr ∈ us → files[fnr]? = some blob) :
    Consistent files (Asd.afterBatch db₀ db id us) := by
  refine ⟨fun fnr key => mapped_afterBatch h hvalues hkeys hnumbers hfree key, fun key => ?_,
    fun fnr hmark => ?_⟩
  · have hcases : (∃ u ∈ us, u.key = key ∧ (Asd.afterBatch db₀ db id us).values[key]? = u.value ∧ _) ∨
        _ := expected_afterBatch hkeys key
    rcases hcases with ⟨u, hu, _, hvalue, howed⟩ | ⟨hvalue, howed⟩
    · rw [hvalue, howed]
      refine u.holds fun key blob c fnr heq => hwritten key blob c fnr ?_
      rwa [← heq]
    · rw [hvalue, howed]
      exact h.holds key
  · -- a marked file is none of the new ones
    cases hmap : (Asd.afterBatch db₀ db id us).fileToKeyMapping[fnr]? with
    | none => rfl
    | some key =>
      have hold : fnr ∈ us.filterMap (Immediate.replaces db₀) ∨ fnr ∈ db.toBeDeleted :=
        toBeDeleted_batch.mp hmark
      rcases (mapping_afterBatch h hvalues hnumbers hfree).mp hmap with
        ⟨u, hu, hfnr, _⟩ | ⟨_, hkept, hmap⟩
      · obtain ⟨hunmapped, hunmarked⟩ := hfree fnr (List.mem_filterMap.mpr ⟨u, hu, hfnr⟩)
        rcases hold with hr | hold
        · obtain ⟨v, _, hmap⟩ := (mem_replaced h hvalues).mp hr
          rw [hunmapped] at hmap
          cases hmap
        · exact absurd hold hunmarked
      · rcases hold with hr | hold
        · exact absurd hr hkept
        · rw [h.unmarked fnr hold] at hmap
          cases hmap

end Batch

end Files

end Alba.Asd
