import Alba.ProofKit.Hex
import Alba.ProofKit.Words

/-! Startup of an asd: blob files without a mapping are deleted. Files from `check_garbage_from` on are
looked for in the directories, older ones are listed in the database; then the next file number is taken
from the greatest mapping. -/

namespace Alba.Asd

open List hiding next
open ProofKit Std

section Names

/-- The 64 bits of a file number, as `%Lx` prints them. -/
def bits (fnr : Int64) : Nat := fnr.toBitVec.toNat

def ofBits (n : Nat) : Int64 := Int64.ofBitVec (BitVec.ofNat 64 n)

def getFileName (fnr : Int64) : Bytes := hexDigits 16 (bits fnr)

/-- The directories above the file, each named by two of its first fourteen digits. -/
def getFileDir (fnr : Int64) : List Bytes :=
  (List.range 7).map fun i => ((getFileName fnr).drop (2 * i)).take 2

def getFileDirName (fnr : Int64) : List Bytes × Bytes := (getFileDir fnr, getFileName fnr)

def parseFilenameToFnr (name : Bytes) : Option Int64 :=
  let fnr := ofBits (readHex 0 name)
  if getFileName fnr = name then some fnr else none

def fileToKeyMapping (fnr : Int64) : Bytes := 1 :: beBytes 8 (bits fnr)

def fileToKeyExtractFnr (key : Bytes) : Int64 := ofBits (ofBe (key.drop 1))

def toBeDeleted (fnr : Int64) : Bytes := 2 :: leBytes 8 (bits fnr)

def toBeDeletedExtractFnr (key : Bytes) : Int64 := ofBits (ofLe (key.drop 1))

def checkGarbageFromKey : Bytes := [3]

variable {fnr fnr' : Int64}

theorem bits_lt (fnr : Int64) : bits fnr < 2 ^ 64 := fnr.toBitVec.isLt

@[simp] theorem ofBits_bits (fnr : Int64) : ofBits (bits fnr) = fnr := by
  simp [ofBits, bits]

theorem bits_eq (h : 0 ≤ fnr.toInt) : (bits fnr : Int) = fnr.toInt := by
  have hcond := BitVec.toInt_eq_toNat_cond fnr.toBitVec
  have hlt := bits_lt fnr
  simp only [Int64.toInt, bits] at *
  split at hcond <;> omega

theorem parseFilenameToFnr_getFileName (fnr : Int64) :
    parseFilenameToFnr (getFileName fnr) = some fnr := by
  have hread : readHex 0 (getFileName fnr) = bits fnr := by
    rw [getFileName, readHex_hexDigits, Nat.mul_zero, Nat.add_zero]
    exact Nat.mod_eq_of_lt (bits_lt fnr)
  simp [parseFilenameToFnr, hread]

theorem getFileName_inj (h : getFileName fnr = getFileName fnr') : fnr = fnr' := by
  have hparsed := parseFilenameToFnr_getFileName fnr
  rw [h, parseFilenameToFnr_getFileName] at hparsed
  exact (Option.some.inj hparsed).symm

@[simp] theorem getFileDir_length (fnr : Int64) : (getFileDir fnr).length = 7 := by
  simp [getFileDir]

theorem getFileDir_flatten (fnr : Int64) : (getFileDir fnr).flatten = hexDigits 14 (bits fnr / 256) := by
  simp [getFileDir, getFileName, hexDigits, range_succ, Nat.div_div_eq_div_mul]

theorem compare_getFileDir (fnr fnr' : Int64) :
    compare (getFileDir fnr) (getFileDir fnr') = compare (bits fnr / 256) (bits fnr' / 256) := by
  have hnames : List.Forall₂ (fun d e => d.length = e.length) (getFileDir fnr) (getFileDir fnr') := by
    simp [getFileDir, getFileName, hexDigits, range_succ]
  have hlt := bits_lt fnr
  have hlt' := bits_lt fnr'
  rw [compare_flatten hnames, getFileDir_flatten, getFileDir_flatten, compare_hexDigits,
    Nat.mod_eq_of_lt (by omega), Nat.mod_eq_of_lt (by omega)]

theorem fileToKeyExtractFnr_mapping (fnr : Int64) : fileToKeyExtractFnr (fileToKeyMapping fnr) = fnr := by
  show ofBits (ofBe (beBytes 8 (bits fnr))) = fnr
  rw [ofBe_beBytes, Nat.mod_eq_of_lt (show _ < 256 ^ 8 from bits_lt fnr), ofBits_bits]

theorem toBeDeletedExtractFnr_toBeDeleted (fnr : Int64) : toBeDeletedExtractFnr (toBeDeleted fnr) = fnr := by
  show ofBits (ofLe (leBytes 8 (bits fnr))) = fnr
  rw [ofLe_leBytes, Nat.mod_eq_of_lt (show _ < 256 ^ 8 from bits_lt fnr), ofBits_bits]

end Names

/-- The blob files, by their directory and name, and the keys of the database. -/
structure Drive where
  leafDirs : List (List Bytes)
  files : List (List Bytes × Bytes)
  db : ExtTreeMap Bytes Bytes

namespace Drive

def subDirs (s : Drive) (dir : List Bytes) : List Bytes :=
  (s.leafDirs.filterMap fun d => if dir <+: d then d[dir.length]? else none).dedup

def filesOf (s : Drive) (dir : List Bytes) : List Bytes :=
  s.files.filterMap fun f => if f.1 = dir then some f.2 else none

/-- `none` is an exception. -/
def unlink (mayNotExist : Bool) (s : Drive) (fnr : Int64) : Option Drive :=
  if getFileDirName fnr ∈ s.files then some { s with files := s.files.erase (getFileDirName fnr) }
  else if mayNotExist then some s
  else none

def maybeDeleteFile (s : Drive) (fnr : Int64) : Option Drive :=
  if fileToKeyMapping fnr ∈ s.db then some s
  else (s.unlink false fnr).map fun s => { s with db := s.db.erase (toBeDeleted fnr) }

def collectLeafDir (s : Drive) (leafDir : List Bytes) : Option Drive :=
  (s.filesOf leafDir).foldlM (fun s filename =>
    match parseFilenameToFnr filename with
    | none => some s
    | some fnr => s.maybeDeleteFile fnr) s

/-- The leaf directories that `collect_all_sub_dirs` collects. -/
def collectAllSubDirs (s : Drive) (dir : List Bytes) : Nat → List (List Bytes)
  | 0 => [dir]
  | n + 1 => (s.subDirs dir).flatMap fun subDir => s.collectAllSubDirs (dir ++ [subDir]) n

/-- The leaf directories that `collect_sub_dirs` collects. -/
def collectSubDirs (s : Drive) (dir : List Bytes) : List Bytes → List (List Bytes)
  | [] => [dir]
  | d :: ds => (s.subDirs dir).flatMap fun subDir =>
    match compare subDir d with
    | .lt => []
    | .eq => s.collectSubDirs (dir ++ [subDir]) ds
    | .gt => s.collectAllSubDirs (dir ++ [subDir]) ds.length

def checkGarbageFrom (s : Drive) : Int64 :=
  match s.db[checkGarbageFromKey]? with
  | none => 0
  | some v => ofBits (ofLe v)

def collected (s : Drive) : List (List Bytes) := s.collectSubDirs [] (getFileDir s.checkGarbageFrom)

def fnrsToDelete (s : Drive) : List Int64 :=
  (s.db.keys.filter fun key => compare [2] key != .gt && compare key [3] == .lt).map toBeDeletedExtractFnr

def cleanupFilesToDelete (s : Drive) (fnrs : List Int64) : Option Drive :=
  ((fnrs.mergeSort fun a b => a ≤ b).foldlM (unlink true) s).map fun s =>
    { s with db := fnrs.foldl (fun db fnr => db.erase (toBeDeleted fnr)) s.db }

def nextFnr (s : Drive) : Int64 :=
  match Direction.left.seek true [2] s.db.keys with
  | none => 0
  | some key => if key.head? = some 1 then fileToKeyExtractFnr key + 1 else 0

def startUp (s : Drive) : Option (Int64 × Drive) := do
  let s ← s.collected.foldlM collectLeafDir s
  let s ← s.cleanupFilesToDelete s.fnrsToDelete
  return (s.nextFnr, { s with db := s.db.insert checkGarbageFromKey (leBytes 8 (bits s.nextFnr)) })

/-! ### The directories that are collected -/

variable {s : Drive}

theorem mem_subDirs {dir : List Bytes} {subDir : Bytes} :
    subDir ∈ s.subDirs dir ↔ ∃ d ∈ s.leafDirs, dir ++ [subDir] <+: d := by
  simp only [subDirs, mem_dedup, mem_filterMap, Option.ite_none_right_eq_some]
  refine exists_congr fun d => and_congr_right fun _ => ?_
  constructor
  · rintro ⟨⟨rest, rfl⟩, hnext⟩
    obtain ⟨rest', rfl⟩ : ∃ rest', rest = subDir :: rest' := by
      rw [getElem?_append_right le_rfl, Nat.sub_self] at hnext
      cases rest with
      | nil => cases hnext
      | cons x rest' => exact ⟨rest', by rw [Option.some.inj hnext]⟩
    exact ⟨rest', by simp⟩
  · rintro ⟨rest, rfl⟩
    exact ⟨⟨subDir :: rest, by simp⟩, by simp⟩

theorem exists_subDir {dir rest : List Bytes} {n : Nat} (hd : dir ++ rest ∈ s.leafDirs)
    (hlength : (dir ++ rest).length = dir.length + (n + 1)) :
    ∃ subDir rest', rest = subDir :: rest' ∧ subDir ∈ s.subDirs dir := by
  cases rest with
  | nil => simp at hlength
  | cons subDir rest' => exact ⟨subDir, rest', rfl, mem_subDirs.mpr ⟨_, hd, rest', by simp⟩⟩

theorem mem_collectAllSubDirs {n : Nat} {dir d : List Bytes}
    (hlength : ∀ d ∈ s.leafDirs, d.length = dir.length + n) (hdir : ∃ d ∈ s.leafDirs, dir <+: d) :
    d ∈ s.collectAllSubDirs dir n ↔ d ∈ s.leafDirs ∧ dir <+: d := by
  induction n generalizing dir with
  | zero =>
    have hleaf : ∀ d ∈ s.leafDirs, dir <+: d → d = dir :=
      fun d hd hpre => (hpre.eq_of_length (hlength d hd).symm).symm
    obtain ⟨d₀, hd₀, hpre₀⟩ := hdir
    rw [collectAllSubDirs, mem_singleton]
    constructor
    · rintro rfl
      exact ⟨hleaf d₀ hd₀ hpre₀ ▸ hd₀, List.prefix_rfl⟩
    · exact fun h => hleaf d h.1 h.2
  | succ n ih =>
    have hnext : ∀ subDir, ∀ d ∈ s.leafDirs, d.length = (dir ++ [subDir]).length + n := by
      simpa [Nat.add_assoc, Nat.add_comm 1] using hlength
    rw [collectAllSubDirs, mem_flatMap]
    constructor
    · rintro ⟨subDir, hsub, hd⟩
      rw [ih (hnext subDir) (mem_subDirs.mp hsub)] at hd
      exact ⟨hd.1, (List.prefix_append ..).trans hd.2⟩
    · rintro ⟨hd, rest, rfl⟩
      obtain ⟨subDir, rest', rfl, hsub⟩ := exists_subDir hd (hlength _ hd)
      exact ⟨subDir, hsub, (ih (hnext subDir) (mem_subDirs.mp hsub)).mpr ⟨hd, rest', by simp⟩⟩

theorem mem_collectSubDirs {ds dir d : List Bytes}
    (hlength : ∀ d ∈ s.leafDirs, d.length = dir.length + ds.length) (hdir : ∃ d ∈ s.leafDirs, dir <+: d) :
    d ∈ s.collectSubDirs dir ds ↔ d ∈ s.leafDirs ∧ ∃ rest, d = dir ++ rest ∧ compare rest ds ≠ .lt := by
  induction ds generalizing dir with
  | nil =>
    have hall := mem_collectAllSubDirs (d := d) hlength hdir
    rw [length_nil, collectAllSubDirs] at hall
    rw [collectSubDirs, hall]
    refine and_congr_right fun _ => exists_congr fun rest => ?_
    have hge : compare rest [] ≠ .lt := by cases rest <;> nofun
    simp [hge, eq_comm]
  | cons d₀ ds ih =>
    have hnext : ∀ subDir, ∀ d ∈ s.leafDirs, d.length = (dir ++ [subDir]).length + ds.length := by
      simpa [Nat.add_assoc, Nat.add_comm 1] using hlength
    rw [collectSubDirs, mem_flatMap]
    constructor
    · rintro ⟨subDir, hsub, hd⟩
      have hdir' := mem_subDirs.mp hsub
      cases hc : compare subDir d₀ with
      | lt => simp [hc] at hd
      | eq =>
        rw [hc, ih (hnext subDir) hdir'] at hd
        obtain ⟨hd, rest, rfl, hrest⟩ := hd
        exact ⟨hd, subDir :: rest, by simp, by simpa [compare_cons, hc] using hrest⟩
      | gt =>
        rw [hc, mem_collectAllSubDirs (hnext subDir) hdir'] at hd
        obtain ⟨hd, rest, rfl⟩ := hd
        exact ⟨hd, subDir :: rest, by simp, by simp [hc]⟩
    · rintro ⟨hd, rest, rfl, hrest⟩
      obtain ⟨subDir, rest, rfl, hsub⟩ := exists_subDir hd (hlength _ hd)
      have hdir' := mem_subDirs.mp hsub
      refine ⟨subDir, hsub, ?_⟩
      rw [compare_cons] at hrest
      cases hc : compare subDir d₀ with
      | lt => simp [hc] at hrest
      | eq => exact (ih (hnext subDir) hdir').mpr ⟨hd, rest, by simp, by simpa [hc] using hrest⟩
      | gt => exact (mem_collectAllSubDirs (hnext subDir) hdir').mpr ⟨hd, rest, by simp⟩

theorem mem_collected (hdirs : ∀ d ∈ s.leafDirs, ∃ n, 0 ≤ n.toInt ∧ getFileDir n = d)
    (hfrom : 0 ≤ s.checkGarbageFrom.toInt) {d : List Bytes} :
    d ∈ s.collected ↔ d ∈ s.leafDirs ∧ ∃ n, s.checkGarbageFrom.toInt ≤ n.toInt ∧ getFileDir n = d := by
  have hlength : ∀ d ∈ s.leafDirs, d.length = 7 := by
    intro d hd
    obtain ⟨n, _, rfl⟩ := hdirs d hd
    exact getFileDir_length n
  by_cases hany : ∃ d ∈ s.leafDirs, [] <+: d
  · rw [collected, mem_collectSubDirs (by simpa using hlength) hany]
    refine and_congr_right fun hd => ?_
    obtain ⟨m, hm, rfl⟩ := hdirs d hd
    have hmbits := bits_eq hm
    have hfrombits := bits_eq hfrom
    simp only [nil_append, exists_eq_left', ne_eq, compare_getFileDir, Nat.compare_eq_lt, Nat.not_lt]
    constructor
    · intro hle
      rcases le_or_gt s.checkGarbageFrom.toInt m.toInt with hlater | hearlier
      · exact ⟨m, hlater, rfl⟩
      · refine ⟨s.checkGarbageFrom, le_rfl, ?_⟩
        refine LawfulEqOrd.eq_of_compare ((compare_getFileDir ..).trans (Nat.compare_eq_eq.mpr ?_))
        omega
    · rintro ⟨n, hn, hdir⟩
      have hnbits := bits_eq (hfrom.trans hn)
      have hsame := compare_getFileDir n m
      rw [hdir, ReflOrd.compare_self] at hsame
      have := Nat.compare_eq_eq.mp hsame.symm
      omega
  · have hnone : s.leafDirs = [] := by simpa [eq_nil_iff_forall_not_mem] using hany
    have hempty : ∀ ds : List Bytes, ds ≠ [] → s.collectSubDirs [] ds = [] := by
      intro ds hds
      cases ds with
      | nil => exact absurd rfl hds
      | cons d₀ ds => simp [collectSubDirs, subDirs, hnone]
    rw [collected, hempty _ (ne_nil_of_length_eq_add_one (getFileDir_length _)), hnone]
    simp

/-! ### The files that are left -/

/-- The files of the numbers in `left` are there; only the others may have lost their note for deletion. -/
structure Cleaned (s₀ s : Drive) (left : Int64 → Prop) : Prop where
  files : ∀ f, f ∈ s.files ↔ ∃ n, left n ∧ f = getFileDirName n
  nodup : s.files.Nodup
  subset : ∀ k ∈ s.db, k ∈ s₀.db
  kept : ∀ k ∈ s₀.db, (∀ n, ¬ left n → k ≠ toBeDeleted n) → k ∈ s.db

variable {s₀ s' : Drive} {left left' : Int64 → Prop}

theorem Cleaned.congr (h : Cleaned s₀ s left) (heq : ∀ n, left n ↔ left' n) : Cleaned s₀ s left' :=
  (funext fun n => propext (heq n) : left = left') ▸ h

theorem getFileDirName_inj {n m : Int64} (h : getFileDirName n = getFileDirName m) : n = m :=
  getFileName_inj (congrArg Prod.snd h)

theorem Cleaned.mem_files (h : Cleaned s₀ s left) {n : Int64} : getFileDirName n ∈ s.files ↔ left n := by
  rw [h.files]
  constructor
  · rintro ⟨m, hm, heq⟩
    exact getFileDirName_inj heq ▸ hm
  · exact fun hn => ⟨n, hn, rfl⟩

theorem Cleaned.mapped (h : Cleaned s₀ s left) (n : Int64) :
    fileToKeyMapping n ∈ s.db ↔ fileToKeyMapping n ∈ s₀.db :=
  ⟨h.subset _, fun hn => h.kept _ hn fun _ _ => by simp [fileToKeyMapping, toBeDeleted]⟩

theorem Cleaned.unlink (h : Cleaned s₀ s left) {mayNotExist : Bool} {fnr : Int64}
    (hpresent : mayNotExist = true ∨ left fnr) :
    ∃ s', s.unlink mayNotExist fnr = some s' ∧ s'.db = s.db ∧
      Cleaned s₀ s' fun n => left n ∧ n ≠ fnr := by
  unfold Drive.unlink
  by_cases hleft : left fnr
  · refine ⟨_, if_pos (h.mem_files.mpr hleft), rfl, ?_, h.nodup.erase _, h.subset, ?_⟩
    · intro f
      rw [h.nodup.mem_erase_iff, h.files]
      constructor
      · rintro ⟨hne, n, hn, rfl⟩
        exact ⟨n, ⟨hn, fun heq => hne (heq ▸ rfl)⟩, rfl⟩
      · rintro ⟨n, ⟨hn, hne⟩, rfl⟩
        exact ⟨fun heq => hne (getFileDirName_inj heq), n, hn, rfl⟩
    · exact fun k hk hnone => h.kept k hk fun n hn => hnone n fun hboth => hn hboth.1
  · rw [if_neg fun hmem => hleft (h.mem_files.mp hmem), if_pos (hpresent.resolve_right hleft)]
    exact ⟨s, rfl, rfl, h.congr fun n => ⟨fun hn => ⟨hn, fun heq => hleft (heq ▸ hn)⟩, And.left⟩⟩

theorem Cleaned.maybeDeleteFile (h : Cleaned s₀ s left) {fnr : Int64} (hfnr : left fnr) :
    ∃ s', s.maybeDeleteFile fnr = some s' ∧
      Cleaned s₀ s' fun n => left n ∧ (n = fnr → fileToKeyMapping n ∈ s₀.db) := by
  unfold Drive.maybeDeleteFile
  by_cases hmapped : fileToKeyMapping fnr ∈ s.db
  · refine ⟨s, if_pos hmapped, h.congr fun n => ⟨fun hn => ⟨hn, ?_⟩, And.left⟩⟩
    rintro rfl
    exact h.subset _ hmapped
  · obtain ⟨s', hs', hdb, hcleaned⟩ := h.unlink (.inr hfnr : false = true ∨ _)
    rw [if_neg hmapped, hs']
    have hleft : ∀ n, (left n ∧ n ≠ fnr) ↔ left n ∧ (n = fnr → fileToKeyMapping n ∈ s₀.db) := by
      refine fun n => and_congr_right fun _ => forall_congr' fun heq => ?_
      rw [heq, ← h.mapped]
      exact iff_of_false id hmapped
    refine ⟨_, rfl, Cleaned.congr ⟨hcleaned.files, hcleaned.nodup, ?_, ?_⟩ hleft⟩
    · exact fun k hk => hcleaned.subset k (ExtTreeMap.mem_of_mem_erase hk)
    · intro k hk hnone
      refine ExtTreeMap.mem_erase.mpr ⟨fun heq => ?_, hcleaned.kept k hk hnone⟩
      exact hnone fnr (fun hboth => hboth.2 rfl) (LawfulEqOrd.eq_of_compare heq).symm

theorem mem_filesOf {dir : List Bytes} {name : Bytes} : name ∈ s.filesOf dir ↔ (dir, name) ∈ s.files := by
  simp only [filesOf, mem_filterMap, Option.ite_none_right_eq_some, Option.some.injEq]
  constructor
  · rintro ⟨⟨_, _⟩, hmem, rfl, rfl⟩
    exact hmem
  · exact fun hmem => ⟨_, hmem, rfl, rfl⟩

theorem Cleaned.collectLeafDir (h : Cleaned s₀ s left) (leafDir : List Bytes) :
    ∃ s', s.collectLeafDir leafDir = some s' ∧
      Cleaned s₀ s' fun n => left n ∧ (getFileDir n = leafDir → fileToKeyMapping n ∈ s₀.db) := by
  -- the names that are still to be looked at belong to files that are there
  have hnames : ∀ {names : List Bytes} {s left}, Cleaned s₀ s left → names.Nodup →
      (∀ name ∈ names, ∃ n, left n ∧ getFileName n = name) →
      ∃ s', names.foldlM (fun s filename =>
          match parseFilenameToFnr filename with
          | none => some s
          | some fnr => s.maybeDeleteFile fnr) s = some s' ∧
        Cleaned s₀ s' fun n => left n ∧ (getFileName n ∈ names → fileToKeyMapping n ∈ s₀.db) := by
    intro names
    induction names with
    | nil => exact fun h _ _ => ⟨_, rfl, h.congr fun n => by simp⟩
    | cons name names ih =>
      intro s left h hnodup hleft
      obtain ⟨hfirst, hrest⟩ := nodup_cons.mp hnodup
      obtain ⟨fnr, hfnr, rfl⟩ := hleft name mem_cons_self
      obtain ⟨mid, hmid, hcleaned⟩ := h.maybeDeleteFile hfnr
      have hlater : ∀ name ∈ names, ∃ n, (left n ∧ (n = fnr → fileToKeyMapping n ∈ s₀.db)) ∧
          getFileName n = name := by
        intro name hname
        obtain ⟨n, hn, rfl⟩ := hleft name (mem_cons_of_mem _ hname)
        exact ⟨n, ⟨hn, fun heq => absurd (heq ▸ hname) hfirst⟩, rfl⟩
      obtain ⟨s', hs', hcleaned'⟩ := ih hcleaned hrest hlater
      refine ⟨s', ?_, hcleaned'.congr fun n => ?_⟩
      · simp only [foldlM_cons, parseFilenameToFnr_getFileName, hmid]
        exact hs'
      · have hsame : getFileName n = getFileName fnr ↔ n = fnr := ⟨getFileName_inj, congrArg _⟩
        rw [mem_cons, hsame, or_imp, and_assoc]
  have hnodup : (s.filesOf leafDir).Nodup := by
    refine h.nodup.filterMap fun f g name hf hg => ?_
    simp only [Option.mem_def, Option.ite_none_right_eq_some, Option.some.injEq] at hf hg
    exact Prod.ext (hf.1.trans hg.1.symm) (hf.2.trans hg.2.symm)
  have hthere : ∀ name ∈ s.filesOf leafDir, ∃ n, left n ∧ getFileName n = name := by
    intro name hname
    obtain ⟨n, hn, heq⟩ := (h.files _).mp (mem_filesOf.mp hname)
    exact ⟨n, hn, (Prod.mk.inj heq).2.symm⟩
  obtain ⟨s', hs', hcleaned⟩ := hnames h hnodup hthere
  refine ⟨s', hs', hcleaned.congr fun n => and_congr_right fun hn => ?_⟩
  have hfile : getFileName n ∈ s.filesOf leafDir ↔ getFileDir n = leafDir := by
    rw [mem_filesOf, h.files]
    constructor
    · rintro ⟨m, _, heq⟩
      obtain ⟨rfl, hname⟩ := Prod.mk.inj heq
      rw [getFileName_inj hname]
    · rintro rfl
      exact ⟨n, hn, rfl⟩
  rw [hfile]

theorem Cleaned.collect (h : Cleaned s₀ s left) (dirs : List (List Bytes)) :
    ∃ s', dirs.foldlM Drive.collectLeafDir s = some s' ∧
      Cleaned s₀ s' fun n => left n ∧ (getFileDir n ∈ dirs → fileToKeyMapping n ∈ s₀.db) := by
  induction dirs generalizing s left with
  | nil => exact ⟨s, rfl, h.congr fun n => by simp⟩
  | cons dir dirs ih =>
    obtain ⟨mid, hmid, hcleaned⟩ := h.collectLeafDir dir
    obtain ⟨s', hs', hcleaned'⟩ := ih hcleaned
    refine ⟨s', ?_, hcleaned'.congr fun n => ?_⟩
    · rw [foldlM_cons, hmid]
      exact hs'
    · rw [mem_cons, or_imp, and_assoc]

theorem Cleaned.unlinkAll (h : Cleaned s₀ s left) (fnrs : List Int64) :
    ∃ s', fnrs.foldlM (Drive.unlink true) s = some s' ∧ Cleaned s₀ s' fun n => left n ∧ n ∉ fnrs := by
  induction fnrs generalizing s left with
  | nil => exact ⟨s, rfl, h.congr fun n => by simp⟩
  | cons fnr fnrs ih =>
    obtain ⟨mid, hmid, _, hcleaned⟩ := h.unlink (.inl rfl : true = true ∨ left fnr)
    obtain ⟨s', hs', hcleaned'⟩ := ih hcleaned
    refine ⟨s', ?_, hcleaned'.congr fun n => ?_⟩
    · rw [foldlM_cons, hmid]
      exact hs'
    · rw [mem_cons, not_or, and_assoc]

theorem mem_eraseAll {fnrs : List Int64} {db : ExtTreeMap Bytes Bytes} {k : Bytes} :
    k ∈ fnrs.foldl (fun db fnr => db.erase (toBeDeleted fnr)) db ↔
      k ∈ db ∧ ∀ n ∈ fnrs, k ≠ toBeDeleted n := by
  induction fnrs generalizing db with
  | nil => simp
  | cons fnr fnrs ih =>
    rw [foldl_cons, ih, ExtTreeMap.mem_erase, forall_mem_cons]
    simp only [ne_eq, Std.compare_eq_iff_eq, eq_comm (a := toBeDeleted fnr)]
    tauto

theorem Cleaned.cleanupFilesToDelete (h : Cleaned s₀ s left) (fnrs : List Int64) :
    ∃ s', s.cleanupFilesToDelete fnrs = some s' ∧ Cleaned s₀ s' fun n => left n ∧ n ∉ fnrs := by
  obtain ⟨mid, hmid, hcleaned⟩ := h.unlinkAll (fnrs.mergeSort fun a b => a ≤ b)
  have hmem : ∀ n, n ∈ fnrs.mergeSort (fun a b => a ≤ b) ↔ n ∈ fnrs := fun n => mem_mergeSort
  replace hcleaned := hcleaned.congr fun n => and_congr_right fun _ => not_congr (hmem n)
  refine ⟨_, congrArg (Option.map _) hmid, hcleaned.files, hcleaned.nodup, ?_, ?_⟩
  · exact fun k hk => hcleaned.subset k (mem_eraseAll.mp hk).1
  · intro k hk hnone
    exact mem_eraseAll.mpr ⟨hcleaned.kept k hk hnone, fun n hn => hnone n fun hboth => hboth.2 hn⟩

/-! ### The database -/

/-- The keys of mappings and of files to be deleted are those of file numbers. -/
structure KeysOk (db : ExtTreeMap Bytes Bytes) : Prop where
  mappings : ∀ k ∈ db, k.head? = some 1 → ∃ n, k = fileToKeyMapping n
  toBeDeleted : ∀ k ∈ db, k.head? = some 2 → ∃ n, k = Asd.toBeDeleted n

theorem mem_fnrsToDelete (hkeys : KeysOk s.db) {n : Int64} : n ∈ s.fnrsToDelete ↔ toBeDeleted n ∈ s.db := by
  simp only [fnrsToDelete, mem_map, mem_filter, ExtTreeMap.mem_keys, Bool.and_eq_true, bne_iff_ne,
    beq_iff_eq]
  constructor
  · rintro ⟨k, ⟨hk, hfirst, hlast⟩, rfl⟩
    obtain ⟨m, rfl⟩ : ∃ m, k = toBeDeleted m := by
      refine hkeys.toBeDeleted k hk ?_
      cases k with
      | nil => exact absurd rfl hfirst
      | cons x k =>
        have hlow := compare_cons_ne_gt hfirst
        have hhigh : x < 3 := (compare_cons_lt hlast).resolve_right fun h => by cases k <;> cases h.2
        simp only [UInt8.lt_iff_toNat_lt, ← UInt8.toNat_inj] at hlow hhigh
        refine congrArg some (UInt8.toNat_inj.mp ?_)
        simp at hlow hhigh ⊢
        omega
    rwa [toBeDeletedExtractFnr_toBeDeleted]
  · intro h
    have hfirst : compare [2] (toBeDeleted n) = .lt := rfl
    have hlast : compare (toBeDeleted n) [3] = .lt := rfl
    exact ⟨_, ⟨h, by simp [hfirst], hlast⟩, toBeDeletedExtractFnr_toBeDeleted n⟩

theorem lt_nextFnr (hkeys : KeysOk s.db)
    (hmapped : ∀ n, fileToKeyMapping n ∈ s.db → 0 ≤ n.toInt ∧ n.toInt < 2 ^ 63 - 1) {n : Int64}
    (hn : fileToKeyMapping n ∈ s.db) : n.toInt < s.nextFnr.toInt := by
  have hbefore : compare (fileToKeyMapping n) [2] = .lt := rfl
  unfold nextFnr
  cases hseek : Direction.left.seek true [2] s.db.keys with
  | none =>
    have hnone := find?_eq_none.mp hseek (fileToKeyMapping n)
      ((Direction.mem_along _).mpr (ExtTreeMap.mem_keys.mpr hn))
    simp [Direction.ahead, OrientedCmp.gt_of_lt hbefore] at hnone
  | some k =>
    obtain ⟨hk, hle, hnearest⟩ := seek_nearest (Direction.along_keys_pairwise .left s.db) hseek
    have hlow := hnearest _ (ExtTreeMap.mem_keys.mpr hn)
      (by simp [Direction.ahead, OrientedCmp.gt_of_lt hbefore])
    rw [ExtTreeMap.mem_keys] at hk
    rw [Direction.ahead, beq_eq_false_iff_ne, not_lt_iff] at hle hlow
    -- the key that is found lies between the mapping and the end of the mappings
    have hhead : k.head? = some 1 := by
      cases k with
      | nil => exact absurd rfl hlow
      | cons x k =>
        have hne : x ≠ 2 := by
          rintro rfl
          obtain ⟨m, hm⟩ := hkeys.toBeDeleted _ hk rfl
          rw [hm] at hle
          exact hle rfl
        have hone := compare_cons_ne_gt hlow
        have htwo := compare_cons_ne_gt hle
        simp only [UInt8.lt_iff_toNat_lt, ← UInt8.toNat_inj, ne_eq] at hone htwo hne
        refine congrArg some (UInt8.toNat_inj.mp ?_)
        simp at hone htwo hne ⊢
        omega
    obtain ⟨m, rfl⟩ := hkeys.mappings k hk hhead
    simp only [hhead, if_true, fileToKeyExtractFnr_mapping]
    have hcompare : compare (fileToKeyMapping n) (fileToKeyMapping m) = compare (bits n) (bits m) := by
      have hwords := compare_beBytes 8 (bits n) (bits m) [] []
      rw [Nat.mod_eq_of_lt (show _ < 256 ^ 8 from bits_lt n),
        Nat.mod_eq_of_lt (show _ < 256 ^ 8 from bits_lt m)] at hwords
      simpa [fileToKeyMapping, compare_cons, ReflOrd.compare_self] using hwords
    have hbits : bits n ≤ bits m := Nat.compare_ne_gt.mp (hcompare ▸ hlow)
    obtain ⟨hm, hmax⟩ := hmapped m hk
    have hmbits := bits_eq hm
    have hnbits := bits_eq (hmapped n hn).1
    rw [Int64.toInt_add, Int.bmod_eq_of_le (by simp; omega) (by simp; omega)]
    simp
    omega

/-! ### Startup -/

/-- The disk with the files of `numbers`, and with the directories that were made for `made`. -/
def stored (numbers made : List Int64) (db : ExtTreeMap Bytes Bytes) : Drive where
  leafDirs := made.map getFileDir
  files := numbers.map getFileDirName
  db := db

theorem cleaned_stored {numbers : List Int64} (hnodup : numbers.Nodup) (made : List Int64)
    (db : ExtTreeMap Bytes Bytes) :
    Cleaned (stored numbers made db) (stored numbers made db) (· ∈ numbers) where
  files f := by simp [stored, eq_comm]
  nodup := hnodup.map fun _ _ => getFileDirName_inj
  subset _ hk := hk
  kept _ hk _ := hk

end Drive

end Alba.Asd
