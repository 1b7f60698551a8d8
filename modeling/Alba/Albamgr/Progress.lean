import Alba.Albamgr.Requests
import Alba.Nsm.Ranges
import Alba.ProofKit.Words

/-! `GetProgressForPrefix`: a scan of the keys from the name of a job to its `next_prefix`, with the
number of the leaf read behind the name. -/

namespace Alba.Albamgr

open List hiding next
open ProofKit
open Nsm (intTo)

/-- `Keys.progress` -/
def progressKey (name : Bytes) : Bytes :=
  ascii ['/', 'a', 'l', 'b', 'a', '/', 'p', 'r', 'o', 'g', 'r', 'e', 's', 's', '/'] ++ name

def InScan (name key : Bytes) : Prop :=
  compare (progressKey name) (progressKey key) ≠ .gt ∧
    ∀ next ∈ Nsm.Key.nextPrefix (progressKey name), compare (progressKey key) next = .lt

instance (name key : Bytes) : Decidable (InScan name key) :=
  inferInstanceAs (Decidable (_ ∧ _))

/-- `Llio.int_from` at an offset, which raises at the end of the text. -/
def intFrom (offset : Nat) (text : Bytes) : Except Failure Int :=
  if offset + 4 ≤ text.length then
    .ok (BitVec.ofNat 32 (ofLe ((text.drop offset).take 4))).toInt
  else .error .invalidArgument

/-- `get_progress_for_prefix` -/
def getProgressForPrefix (db : Db) (name : Bytes) : Except Failure (List (Int × Progress)) :=
  ((db.rows .progress).filter fun e => InScan name e.1).mapM fun e => do
    let i ← intFrom (progressKey name).length (progressKey e.1)
    return (i, e.2)

/-- The number of a leaf is written in four bytes. -/
def IsIndex (i : Int) : Prop := -2 ^ 31 ≤ i ∧ i < 2 ^ 31

section Scan

variable {db : Db} {name : Bytes}

theorem intFrom_leafName {i : Int} (h : IsIndex i) :
    intFrom (progressKey name).length (progressKey (leafName name i)) = .ok i := by
  have hword : ofLe (intTo i) = (BitVec.ofInt 32 i).toNat := by
    rw [intTo, ofLe_leBytes]
    exact Nat.mod_eq_of_lt (BitVec.isLt _)
  have hkey : progressKey (leafName name i) = progressKey name ++ intTo i := by
    simp [progressKey, leafName]
  rw [intFrom, hkey, if_pos (by simp [intTo]), drop_left, take_of_length_le (by simp [intTo]),
    hword, BitVec.ofNat_toNat, BitVec.setWidth_eq, BitVec.toInt_ofInt_eq_self (by decide) h.1 h.2]

theorem leafName_inj {name' : Bytes} {i j : Int} (h : leafName name i = leafName name' j) : name = name' :=
  (append_inj' h (by simp [intTo])).1

/-- A text that starts with another one lies between it and its `next_prefix`. -/
theorem compare_nextPrefix {start next : Bytes} (h : Nsm.Key.nextPrefix start = some next) (rest : Bytes) :
    compare (start ++ rest) next = .lt := by
  obtain ⟨q, b, n, hb, rfl, rfl⟩ := Nsm.nextPrefix_eq_some h
  have hlt : compare b (b + 1) = .lt := by
    have hne : b.toNat ≠ 255 := fun he => hb (UInt8.toNat_inj.mp he)
    have hsucc : (b + 1).toNat = b.toNat + 1 := by
      have := b.toNat_lt
      rw [UInt8.toNat_add]
      simp
      omega
    refine Std.LawfulLTCmp.eq_lt_iff_lt.mpr ?_
    rw [UInt8.lt_iff_toNat_lt]
    omega
  rw [append_assoc, compare_append_left, cons_append, compare_cons, hlt]
  rfl

theorem inScan_append (name rest : Bytes) : InScan name (name ++ rest) := by
  have hkey : progressKey (name ++ rest) = progressKey name ++ rest := by simp [progressKey]
  refine ⟨?_, fun next hnext => ?_⟩
  · have hcompare := compare_append_left (progressKey name) [] rest
    rw [append_nil] at hcompare
    rw [hkey, hcompare]
    cases rest <;> nofun
  · rw [hkey]
    exact compare_nextPrefix hnext rest

/-- The answer has each leaf of the job once, with its progress, and nothing else. -/
def Reports (db : Db) (name : Bytes) (answer : List (Int × Progress)) : Prop :=
  (answer.map Prod.fst).Nodup ∧
    ∀ i p, (i, p) ∈ answer ↔ IsIndex i ∧ db.get .progress (leafName name i) = some p

/-- The progress table has leaves of jobs only. -/
def OnlyLeaves (db : Db) : Prop :=
  ∀ key, (db.get .progress key).isSome → ∃ name i, IsIndex i ∧ key = leafName name i

theorem mem_scanned {key : Bytes} {p : Progress} :
    (key, p) ∈ (db.rows .progress).filter (fun e => InScan name e.1) ↔
      db.get .progress key = some p ∧ InScan name key := by
  rw [mem_filter, Tables.mem_rows, decide_eq_true_iff]

theorem scanned_nodup (db : Db) (name : Bytes) :
    (((db.rows .progress).filter fun e => InScan name e.1).map Prod.fst).Nodup :=
  (db.rows_keys_nodup .progress).sublist ((filter_sublist).map _)

theorem reports_of_own (hleaves : OnlyLeaves db) (hown : ∀ name' i, IsIndex i →
      (db.get .progress (leafName name' i)).isSome → InScan name (leafName name' i) → name' = name) :
    ∃ answer, getProgressForPrefix db name = .ok answer ∧ Reports db name answer := by
  have hrow : ∀ e ∈ (db.rows .progress).filter (fun e => InScan name e.1),
      ∃ i, IsIndex i ∧ e.1 = leafName name i := by
    rintro ⟨key, p⟩ he
    obtain ⟨hget, hscan⟩ := mem_scanned.mp he
    obtain ⟨name', i, hi, rfl⟩ := hleaves key (by rw [hget]; rfl)
    obtain rfl := hown name' i hi (by rw [hget]; rfl) hscan
    exact ⟨i, hi, rfl⟩
  choose! index hindex using hrow
  refine ⟨_, mapM_of_forall (g := fun e => (index e, e.2)) fun e he => ?_, ?_, fun i p => ?_⟩
  · rw [(hindex e he).2, intFrom_leafName (hindex e he).1]
    rfl
  · have hkeys : ((db.rows .progress).filter fun e => InScan name e.1).map Prod.fst =
        (((db.rows .progress).filter fun e => InScan name e.1).map index).map (leafName name) := by
      rw [map_map]
      exact map_congr_left fun e he => (hindex e he).2
    rw [map_map]
    exact (hkeys ▸ scanned_nodup db name).of_map _
  · rw [mem_map]
    constructor
    · rintro ⟨e, he, heq⟩
      cases heq
      rw [← (hindex e he).2]
      exact ⟨(hindex e he).1, (mem_scanned.mp he).1⟩
    · rintro ⟨hi, hget⟩
      have he := mem_scanned.mpr ⟨hget, inScan_append name (intTo i)⟩
      refine ⟨_, he, ?_⟩
      have hindex' := hindex _ he
      have hsame := @intFrom_leafName name _ hindex'.1
      rw [← hindex'.2, intFrom_leafName hi] at hsame
      rw [← Except.ok.inj hsame]

/-- A leaf of another job in the range spoils the answer: it is too short, or its number is that of a
leaf of the job or of none. -/
theorem own_of_reports {answer : List (Int × Progress)} (h : getProgressForPrefix db name = .ok answer)
    (hreports : Reports db name answer) {name' : Bytes} {i : Int}
    (hstored : (db.get .progress (leafName name' i)).isSome) (hscan : InScan name (leafName name' i)) :
    name' = name := by
  obtain ⟨p, hget⟩ := Option.isSome_iff_exists.mp hstored
  have hmem := mem_scanned.mpr ⟨hget, hscan⟩
  obtain ⟨hrows, rfl⟩ := mapM_eq_ok_resultD h (0, p)
  obtain ⟨j, hfrom, hpair⟩ := bind_eq_ok.mp (hrows _ hmem)
  -- the number that was read for this row is the number of a leaf of the job, with a row of its own
  have hj := Except.ok.inj hpair
  obtain ⟨hindex, hown⟩ := (hreports.2 j p).mp (hj ▸ mem_map_of_mem hmem)
  have hmem' := mem_scanned.mpr ⟨hown, inScan_append name (intTo j)⟩
  obtain ⟨j', hfrom', hpair'⟩ := bind_eq_ok.mp (hrows _ hmem')
  rw [intFrom_leafName hindex] at hfrom'
  cases hfrom'
  have hj' := Except.ok.inj hpair'
  have hnodup := hreports.1
  rw [map_map] at hnodup
  have hrow := inj_on_of_nodup_map hnodup hmem hmem' (by
    simp only [Function.comp_apply, ← hj, ← hj'])
  exact leafName_inj (congrArg Prod.fst hrow)

/-- The progress of a job is reported exactly when no leaf of another job has a key in the range. -/
theorem progress_for_prefix_iff (hleaves : OnlyLeaves db) :
    (∃ answer, getProgressForPrefix db name = .ok answer ∧ Reports db name answer) ↔
      ∀ name' i, IsIndex i → (db.get .progress (leafName name' i)).isSome →
        InScan name (leafName name' i) → name' = name :=
  ⟨fun ⟨_, hanswer, hreports⟩ _ _ _ hstored hscan => own_of_reports hanswer hreports hstored hscan,
    reports_of_own hleaves⟩

def twoJobs (name name' : Bytes) : Db :=
  ((Tables.empty : Db).put .progress (leafName name 0) (some (startProgress .rewrite []))).put .progress
    (leafName name' 0) (some (startProgress .rewrite []))

theorem get_twoJobs {name name' key : Bytes} (h : ((twoJobs name name').get .progress key).isSome) :
    key = leafName name 0 ∨ key = leafName name' 0 := by
  by_contra hne
  rw [not_or] at hne
  rw [twoJobs, Tables.get_put_of_ne _ (Ne.symm hne.2), Tables.get_put_of_ne _ (Ne.symm hne.1)] at h
  exact absurd h (by simp [Tables.get, Tables.empty])

theorem onlyLeaves_twoJobs (name name' : Bytes) : OnlyLeaves (twoJobs name name') := by
  intro key h
  rcases get_twoJobs h with rfl | rfl
  · exact ⟨name, 0, by simp [IsIndex], rfl⟩
  · exact ⟨name', 0, by simp [IsIndex], rfl⟩

/-- The leaf of the job `ab` is reported for the job `a`. -/
theorem progress_of_extension : OnlyLeaves (twoJobs [0x61] [0x61, 0x62]) ∧
    ¬ ∃ answer, getProgressForPrefix (twoJobs [0x61] [0x61, 0x62]) [0x61] = .ok answer ∧
      Reports (twoJobs [0x61] [0x61, 0x62]) [0x61] answer := by
  refine ⟨onlyLeaves_twoJobs _ _, fun ⟨answer, hanswer, hreports⟩ => ?_⟩
  have hstored : ((twoJobs [0x61] [0x61, 0x62]).get .progress (leafName [0x61, 0x62] 0)).isSome := by
    rw [twoJobs, Tables.get_put_self]
    rfl
  exact nomatch own_of_reports hanswer hreports hstored (inScan_append [0x61] ([0x62] ++ intTo 0))

theorem progress_for_prefix_iff_twoJobs : OnlyLeaves (twoJobs [0x61] [0x62]) ∧
    ∃ answer, getProgressForPrefix (twoJobs [0x61] [0x62]) [0x61] = .ok answer ∧
      Reports (twoJobs [0x61] [0x62]) [0x61] answer := by
  refine ⟨onlyLeaves_twoJobs _ _, (progress_for_prefix_iff (onlyLeaves_twoJobs _ _)).mpr ?_⟩
  intro name i _ hstored hscan
  rcases get_twoJobs hstored with h | h
  · exact leafName_inj h
  · rw [h] at hscan
    exact absurd hscan (by decide)

end Scan

end Alba.Albamgr
