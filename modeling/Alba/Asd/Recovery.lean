import Alba.Asd.Crash

/-! The device over whole runs of requests, crashes and startups: the file numbers that are given
out, those that are being removed, and what every request has reached. -/

namespace Alba.Asd

open List hiding next
open Nsm ProofKit Std

namespace State

variable (s : State)

/-- The database without the removals that are not logged. -/
def loggedDb : Db := s.disk.loggedAt Db.apply Write.logged s.disk.history.length

def Lasting (P : Db → Prop) : Prop := s.disk.Durable Db.apply Write.logged P

/-- The numbers of the files that are not in the database yet. -/
def pending : List Nat := s.requests.flatMap Request.files

def Below (fnr : Nat) : Prop := ∀ next, s.server = .running next → fnr < next

/-- No crash brings back a key that has the file. -/
def Unmapped (fnr : Nat) : Prop := s.Lasting fun db => db.fileToKeyMapping[fnr]? = none

/-- The number is not given out again before the next startup. -/
def Gone (fnr : Nat) : Prop := fnr ∉ s.pending ∧ s.Below fnr

def Stopped : Prop := ∀ next, s.server ≠ .running next

end State

namespace Phase

def isOpen : Phase → Bool
  | writing _ | asserted _ _ => true
  | committed _ | cleaning _ _ | failed _ => false

/-- The files that the batch has replaced, before the log is synced. -/
def retires : Phase → List Nat
  | committed filesToDelete => filesToDelete
  | _ => []

def unlinks : Phase → List Nat
  | cleaning unlinks _ => unlinks
  | _ => []

end Phase

def Server.unlinks : Server → List Nat
  | .cleaning unlinks _ => unlinks
  | _ => []

structure Tracked (s : State) (r : Request) : Prop where
  keys : (r.updates.map Immediate.key).Nodup
  numbers : (r.updates.filterMap Immediate.fnr?).Nodup
  files : r.phase.isOpen → r.files = r.updates.filterMap Immediate.fnr?
  written : ∀ fnr ∈ r.files, fnr ∈ r.written →
    ∃ blob, r.blobOf fnr = some blob ∧ s.files[fnr]? = some blob
  complete : ∀ attempt values, r.phase = .asserted attempt values →
    ∀ fnr ∈ r.files, fnr ∈ r.written
  retired : ∀ fnr ∈ r.phase.retires, s.Gone fnr ∧ s.loggedDb.fileToKeyMapping[fnr]? = none
  unlinking : ∀ fnr ∈ r.phase.unlinks, s.Gone fnr ∧ s.Unmapped fnr
  committed : ∀ filesToDelete, r.phase = .committed filesToDelete →
    (r.id, r.updates.map Immediate.update) ∈ s.loggedDb.applied

structure Sound (s : State) : Prop where
  consistent : s.Lasting (Consistent s.files)
  below : s.Lasting fun db => ∀ fnr key, db.fileToKeyMapping[fnr]? = some key → s.Below fnr
  acknowledged : s.Lasting fun db => ∀ e ∈ s.acknowledged, e ∈ db.applied
  distinct : s.pending.Nodup
  pending : ∀ fnr ∈ s.pending,
    s.Unmapped fnr ∧ fnr ∉ s.loggedDb.toBeDeleted ∧ s.Below fnr
  startup : ∀ fnr ∈ s.server.unlinks, s.Unmapped fnr
  stopped : s.Stopped → s.requests = [] ∧ ∀ w ∈ s.disk.history, w.logged = false
  requests : ∀ r ∈ s.requests, Tracked s r

/-- The second state keeps what the requests of the first rely on. -/
structure Extends (s s' : State) : Prop where
  unmapped : ∀ fnr, s.Gone fnr → s.Unmapped fnr → s'.Unmapped fnr
  retired : ∀ fnr, s.Gone fnr → s.loggedDb.fileToKeyMapping[fnr]? = none →
    s'.loggedDb.fileToKeyMapping[fnr]? = none
  gone : ∀ fnr, s.Gone fnr → s'.Gone fnr
  applied : ∀ e ∈ s.loggedDb.applied, e ∈ s'.loggedDb.applied

section Basics

variable {s s' : State} {r : Request}

theorem Tracked.mono (h : Tracked s r) (he : Extends s s')
    (hfiles : ∀ fnr ∈ r.files, fnr ∈ r.written → s'.files[fnr]? = s.files[fnr]?) :
    Tracked s' r where
  keys := h.keys
  numbers := h.numbers
  files := h.files
  written fnr hfnr hw := by
    rw [hfiles fnr hfnr hw]
    exact h.written fnr hfnr hw
  complete := h.complete
  retired fnr hfnr := by
    obtain ⟨hgone, hmap⟩ := h.retired fnr hfnr
    exact ⟨he.gone fnr hgone, he.retired fnr hgone hmap⟩
  unlinking fnr hfnr := by
    obtain ⟨hgone, hmap⟩ := h.unlinking fnr hfnr
    exact ⟨he.gone fnr hgone, he.unmapped fnr hgone hmap⟩
  committed fs hphase := he.applied _ (h.committed fs hphase)

theorem Sound.initial : Sound .initial := by
  have base : ∀ (P : Db → Prop), P .empty → State.initial.Lasting P := by
    intro P hP n _ hn
    have hzero : n = 0 := by simpa [State.initial, Disk.empty] using hn
    subst hzero
    exact hP
  constructor
  case consistent =>
    exact base _ ⟨by simp [Db.empty], fun key => by simp [Db.empty, Holds, expected],
      by simp [Db.empty]⟩
  case below => exact base _ (by simp [Db.empty])
  case acknowledged => exact base _ (by simp [State.initial])
  case distinct => simp [State.pending, State.initial]
  case pending => simp [State.pending, State.initial]
  case startup => simp [State.initial, Server.unlinks]
  case stopped => simp [State.initial, Disk.empty]
  case requests => simp [State.initial]

theorem State.Lasting.now {P : Db → Prop} (h : s.Lasting P) : P s.loggedDb := Disk.Durable.now h

theorem State.Unmapped.now {fnr : Nat} (h : s.Unmapped fnr) :
    s.loggedDb.fileToKeyMapping[fnr]? = none :=
  State.Lasting.now h

theorem weaker_db (s : State) : Weaker s.db s.loggedDb := weakening.view

theorem Sound.same_request (h : Sound s) {r r' : Request} (hr : r ∈ s.requests)
    (hr' : r' ∈ s.requests) {fnr : Nat} (hfnr : fnr ∈ r.files) (hfnr' : fnr ∈ r'.files) : r = r' := by
  by_contra hne
  have hapart := (nodup_flatMap.mp h.distinct).2
  have : Std.Symm (Function.onFun List.Disjoint Request.files) := ⟨fun _ _ hd => hd.symm⟩
  exact hapart.forall hr hr' hne hfnr hfnr'

theorem Sound.lasting_of_stopped (h : Sound s) (hstopped : s.Stopped) {P : Db → Prop}
    (hP : P s.loggedDb) : s.Lasting P := by
  intro n _ _
  have hnone : ∀ m, (s.disk.history.take m).filter Write.logged = [] := by
    intro m
    rw [filter_eq_nil_iff]
    intro w hw
    simp [(h.stopped hstopped).2 w (mem_of_mem_take hw)]
  have hsame : s.disk.loggedAt Db.apply Write.logged n = s.loggedDb := by
    simp only [State.loggedDb, Disk.loggedAt, hnone]
  rwa [hsame]

end Basics

section Steps

variable {s s' : State} {i fnr : Nat} {r r' : Request}

theorem extends_of_pending (hdisk : s'.disk = s.disk) (hserver : s'.server = s.server)
    (hpending : ∀ fnr ∈ s'.pending, fnr ∈ s.pending) : Extends s s' where
  unmapped fnr _ h := by
    rw [State.Unmapped, State.Lasting, hdisk]
    exact h
  retired fnr _ h := by
    rw [State.loggedDb, hdisk]
    exact h
  gone fnr h := by
    refine ⟨fun hmem => h.1 (hpending fnr hmem), fun next hnext => ?_⟩
    rw [hserver] at hnext
    exact h.2 next hnext
  applied e he := by
    rw [State.loggedDb, hdisk]
    exact he

theorem Sound.withRequest (hs : Sound s) (hr : s.requests[i]? = some r)
    (hsub : r'.files.Sublist r.files) (hr' : Tracked s r') : Sound (s.withRequest i r') := by
  have hpending : (s.withRequest i r').pending.Sublist s.pending := flatMap_set_sublist hr hsub
  have hext : Extends s (s.withRequest i r') :=
    extends_of_pending rfl rfl fun fnr hfnr => hpending.subset hfnr
  constructor
  case consistent => exact hs.consistent
  case below => exact hs.below
  case acknowledged => exact hs.acknowledged
  case distinct => exact hs.distinct.sublist hpending
  case pending => exact fun fnr hfnr => hs.pending fnr (hpending.subset hfnr)
  case startup => exact hs.startup
  case stopped =>
    intro hstopped
    obtain ⟨hnone, hlog⟩ := hs.stopped hstopped
    rw [hnone] at hr
    cases hr
  case requests =>
    intro r₁ hr₁
    rcases mem_or_eq_of_mem_set hr₁ with hr₁ | rfl
    · exact (hs.requests r₁ hr₁).mono hext fun _ _ _ => rfl
    · exact hr'.mono hext fun _ _ _ => rfl

theorem Sound.withFile (hs : Sound s) {files' : ExtTreeMap Nat Blob} (hfnr : s.Unmapped fnr)
    (hother : ∀ f, f ≠ fnr → files'[f]? = s.files[f]?)
    (hwritten : ∀ r ∈ s.requests, fnr ∈ r.files → fnr ∈ r.written →
      ∃ blob, r.blobOf fnr = some blob ∧ files'[fnr]? = some blob) :
    Sound { s with files := files' } := by
  have hext : Extends s { s with files := files' } := extends_of_pending rfl rfl fun _ h => h
  refine { hs with consistent := fun n hn hle => ?_, requests := fun r hr => ?_ }
  · refine (hs.consistent n hn hle).withFiles fun f key hmap => hother f ?_
    rintro rfl
    rw [hfnr n hn hle] at hmap
    cases hmap
  · have htracked := hs.requests r hr
    have hw : ∀ f ∈ r.files, f ∈ r.written →
        ∃ blob, r.blobOf f = some blob ∧ files'[f]? = some blob := by
      intro f hf hfw
      by_cases heq : f = fnr
      · subst heq
        exact hwritten r hr hf hfw
      · rw [hother f heq]
        exact htracked.written f hf hfw
    exact { htracked with
      written := hw
      retired := fun f hf => (htracked.retired f hf).imp (hext.gone f) id
      unlinking := fun f hf => (htracked.unlinking f hf).imp (hext.gone f) id }

theorem Sound.unlink (hs : Sound s) (hfnr : s.Unmapped fnr) (hgone : fnr ∉ s.pending) :
    Sound { s with files := s.files.erase fnr } := by
  refine hs.withFile hfnr (fun f hf => ?_) fun r hr hmem _ => ?_
  · simp [ExtTreeMap.getElem?_erase, hf.symm]
  · exact absurd (mem_flatMap.mpr ⟨r, hr, hmem⟩) hgone

theorem loggedDb_write_unlogged {w : Write} (hw : w.logged = false) :
    (s.write w).loggedDb = s.loggedDb := by
  have hlength : (s.write w).disk.history.length = s.disk.history.length + 1 := by
    simp [State.write, Disk.write]
  rw [State.loggedDb, hlength, State.write, Disk.loggedAt_write_length, hw]
  rfl

theorem State.Lasting.writeUnlogged {P : Db → Prop} (h : s.Lasting P) {w : Write}
    (hw : w.logged = false) : (s.write w).Lasting P :=
  Disk.Durable.write h (by simp [hw])

theorem Sound.writeUnlogged (hs : Sound s) {w : Write} (hw : w.logged = false) : Sound (s.write w) := by
  have lasting : ∀ {P : Db → Prop}, s.Lasting P → (s.write w).Lasting P := fun h =>
    h.writeUnlogged hw
  have hext : Extends s (s.write w) := by
    refine ⟨fun f _ h => lasting h, fun f _ h => ?_, fun f h => h, fun e he => ?_⟩
    · rwa [loggedDb_write_unlogged hw]
    · rwa [loggedDb_write_unlogged hw]
  constructor
  case consistent => exact lasting hs.consistent
  case below => exact lasting hs.below
  case acknowledged => exact lasting hs.acknowledged
  case distinct => exact hs.distinct
  case pending =>
    intro f hf
    obtain ⟨hmap, hmark, hbelow⟩ := hs.pending f hf
    exact ⟨lasting hmap, by rwa [loggedDb_write_unlogged hw], hbelow⟩
  case startup => exact fun f hf => lasting (hs.startup f hf)
  case stopped =>
    intro hstopped
    obtain ⟨hnone, hlog⟩ := hs.stopped hstopped
    refine ⟨hnone, fun w' hw' => ?_⟩
    rcases mem_append.mp hw' with hw' | hw'
    · exact hlog w' hw'
    · cases mem_singleton.mp hw'
      exact hw
  case requests => exact fun r hr => (hs.requests r hr).mono hext fun _ _ _ => rfl

theorem Sound.removeToBeDeleted (hs : Sound s) (fnrs : List Nat) :
    Sound (s.removeToBeDeleted fnrs) := by
  unfold State.removeToBeDeleted
  induction fnrs generalizing s with
  | nil => exact hs
  | cons fnr fnrs ih => exact ih (hs.writeUnlogged rfl)

theorem Sound.running (hs : Sound s) (hr : s.requests[i]? = some r) : ¬s.Stopped := by
  intro hstopped
  rw [(hs.stopped hstopped).1] at hr
  cases hr

theorem Sound.no_startup_unlinks (hs : Sound s) (hr : s.requests[i]? = some r) :
    s.server.unlinks = [] := by
  cases hserver : s.server with
  | cleaning unlinks filesToDelete =>
    exact absurd (fun next h => by rw [hserver] at h; cases h) (hs.running hr)
  | down | collecting _ | cleaned | running _ => rfl

theorem blobOf_of_mem (hnumbers : (r.updates.filterMap Immediate.fnr?).Nodup) {key : Bytes}
    {blob : Blob} {c : Checksum} (hmem : .onFs key blob c fnr ∈ r.updates) {blob' : Blob}
    (h : r.blobOf fnr = some blob') : blob' = blob := by
  obtain ⟨u, hu, hblob⟩ := exists_of_findSome?_eq_some h
  cases u with
  | onFs key' blob₁ c' fnr' =>
    simp only [Option.ite_none_right_eq_some, Option.some.injEq] at hblob
    obtain ⟨rfl, rfl⟩ := hblob
    have hsame := eq_of_filterMap_nodup hnumbers hu hmem (k := fnr') rfl rfl
    cases hsame
    rfl
  | direct _ _ _ => cases hblob
  | delete _ => cases hblob

theorem loggedDb_commit :
    (s.write (r.batch s.db)).loggedDb = afterBatch s.db s.loggedDb r.id r.updates := by
  have hlength : (s.write (r.batch s.db)).disk.history.length = s.disk.history.length + 1 := by
    simp [State.write, Disk.write]
  rw [State.loggedDb, hlength, State.write, Disk.loggedAt_write_length]
  rfl

section Commit

variable (hs : Sound s) (hr : s.requests[i]? = some r) {attempt : Nat}
  {values : List (Bytes × (Checksum × Value))} (hphase : r.phase = .asserted attempt values)
include hs hr hphase

theorem commit_pending : ∀ fnr ∈ r.updates.filterMap Immediate.fnr?, fnr ∈ s.pending := by
  intro fnr hfnr
  have hmem : r ∈ s.requests := mem_of_getElem? hr
  rw [← (hs.requests r hmem).files (by simp [hphase, Phase.isOpen])] at hfnr
  exact mem_flatMap.mpr ⟨r, hmem, hfnr⟩

theorem commit_free : ∀ fnr ∈ r.updates.filterMap Immediate.fnr?,
    s.loggedDb.fileToKeyMapping[fnr]? = none ∧ fnr ∉ s.loggedDb.toBeDeleted := by
  intro fnr hfnr
  obtain ⟨hmap, hmark, _⟩ := hs.pending fnr (commit_pending hs hr hphase fnr hfnr)
  exact ⟨hmap.now, hmark⟩

theorem commit_mapping {fnr : Nat} {key : Bytes} :
    (afterBatch s.db s.loggedDb r.id r.updates).fileToKeyMapping[fnr]? = some key ↔
      (∃ u ∈ r.updates, u.fnr? = some fnr ∧ u.key = key) ∨
        fnr ∉ r.updates.filterMap Immediate.fnr? ∧
          fnr ∉ r.updates.filterMap (Immediate.replaces s.db) ∧
            s.loggedDb.fileToKeyMapping[fnr]? = some key :=
  mapping_afterBatch hs.consistent.now (weaker_db s).values
    (hs.requests r (mem_of_getElem? hr)).numbers (commit_free hs hr hphase)

theorem commit_unmapped {fnr : Nat} (hfnr : fnr ∉ r.updates.filterMap Immediate.fnr?)
    (h : s.loggedDb.fileToKeyMapping[fnr]? = none) :
    (afterBatch s.db s.loggedDb r.id r.updates).fileToKeyMapping[fnr]? = none := by
  cases hmap : (afterBatch s.db s.loggedDb r.id r.updates).fileToKeyMapping[fnr]? with
  | none => rfl
  | some key =>
    rcases (commit_mapping hs hr hphase).mp hmap with ⟨u, hu, hf, _⟩ | ⟨_, _, hold⟩
    · exact absurd (mem_filterMap.mpr ⟨u, hu, hf⟩) hfnr
    · rw [h] at hold
      cases hold

theorem commit_consistent : Consistent s.files (afterBatch s.db s.loggedDb r.id r.updates) := by
  have htracked := hs.requests r (mem_of_getElem? hr)
  refine hs.consistent.now.afterBatch (weaker_db s).values htracked.keys htracked.numbers
    (commit_free hs hr hphase) fun key blob c fnr hmem => ?_
  have hfile : fnr ∈ r.files := by
    rw [htracked.files (by simp [hphase, Phase.isOpen])]
    exact mem_filterMap.mpr ⟨_, hmem, rfl⟩
  obtain ⟨blob', hblob, hcontent⟩ :=
    htracked.written fnr hfile (htracked.complete attempt values hphase fnr hfile)
  rw [hcontent, blobOf_of_mem htracked.numbers hmem hblob]

theorem Sound.commit : Sound ((s.write (r.batch s.db)).withRequest i
    { r with files := [], phase := .committed (r.filesToDelete s.db) }) := by
  set s' := (s.write (r.batch s.db)).withRequest i
    { r with files := [], phase := .committed (r.filesToDelete s.db) } with hs'
  have hdb : s'.loggedDb = afterBatch s.db s.loggedDb r.id r.updates := loggedDb_commit
  have lasting : ∀ {P : Db → Prop}, s.Lasting P →
      P (afterBatch s.db s.loggedDb r.id r.updates) → s'.Lasting P := fun h hnew =>
    Disk.Durable.write h fun _ => hnew
  have htracked := hs.requests r (mem_of_getElem? hr)
  have hfiles : r.files = r.updates.filterMap Immediate.fnr? :=
    htracked.files (by simp [hphase, Phase.isOpen])
  have hpending : s'.pending.Sublist s.pending :=
    flatMap_set_sublist hr (nil_sublist r.files)
  have hapart : ∀ fnr ∈ s'.pending, fnr ∉ r.updates.filterMap Immediate.fnr? := by
    intro fnr hfnr hold
    rw [← hfiles] at hold
    cases mem_of_mem_flatMap_set hs.distinct hr hfnr hold
  have happlied : s'.loggedDb.applied =
      s.loggedDb.applied ++ [(r.id, r.updates.map Immediate.update)] := by
    rw [hdb]
    rfl
  have hext : Extends s s' := by
    have hnew : ∀ fnr, s.Gone fnr → fnr ∉ r.updates.filterMap Immediate.fnr? :=
      fun fnr hgone hmem => hgone.1 (commit_pending hs hr hphase fnr hmem)
    refine ⟨fun fnr hgone h => ?_, fun fnr hgone h => ?_, fun fnr hgone => ?_, fun e he => ?_⟩
    · exact lasting h (commit_unmapped hs hr hphase (hnew fnr hgone) h.now)
    · rw [hdb]
      exact commit_unmapped hs hr hphase (hnew fnr hgone) h
    · exact ⟨fun hmem => hgone.1 (hpending.subset hmem), hgone.2⟩
    · rw [happlied]
      exact mem_append_left _ he
  constructor
  case consistent => exact lasting hs.consistent (commit_consistent hs hr hphase)
  case below =>
    refine lasting hs.below fun fnr key hmap => ?_
    rcases (commit_mapping hs hr hphase).mp hmap with ⟨u, hu, hf, _⟩ | ⟨_, _, hold⟩
    · exact (hs.pending fnr (commit_pending hs hr hphase fnr
        (mem_filterMap.mpr ⟨u, hu, hf⟩))).2.2
    · exact hs.below.now fnr key hold
  case acknowledged =>
    refine lasting hs.acknowledged fun e he => ?_
    exact mem_append_left _ (hs.acknowledged.now e he)
  case distinct => exact hs.distinct.sublist hpending
  case pending =>
    intro fnr hfnr
    obtain ⟨hmap, hmark, hbelow⟩ := hs.pending fnr (hpending.subset hfnr)
    refine ⟨lasting hmap (commit_unmapped hs hr hphase (hapart fnr hfnr) hmap.now), ?_, hbelow⟩
    rw [hdb]
    intro hmarked
    rcases toBeDeleted_batch.mp hmarked with hreplaced | hmarked
    · obtain ⟨u, _, hkey⟩ := (mem_replaced hs.consistent.now (weaker_db s).values).mp hreplaced
      rw [hmap.now] at hkey
      cases hkey
    · exact hmark hmarked
  case startup =>
    intro fnr hfnr
    have hnone : s'.server.unlinks = [] := hs.no_startup_unlinks hr
    rw [hnone] at hfnr
    cases hfnr
  case stopped => exact fun hstopped => absurd hstopped (hs.running hr)
  case requests =>
    intro r₁ hr₁
    rcases mem_or_eq_of_mem_set hr₁ with hr₁ | rfl
    · exact (hs.requests r₁ hr₁).mono hext fun _ _ _ => rfl
    · -- what the batch replaces had a key, so it is not a number that is still to be used
      have hretired : ∀ fnr ∈ r.filesToDelete s.db,
          s'.Gone fnr ∧ s'.loggedDb.fileToKeyMapping[fnr]? = none := by
        intro fnr hfnr
        obtain ⟨u, _, hkey⟩ := (mem_replaced hs.consistent.now (weaker_db s).values).mp hfnr
        have hold : ∀ hnew : fnr ∈ s.pending, False := fun hnew => by
          rw [(hs.pending fnr hnew).1.now] at hkey
          cases hkey
        refine ⟨⟨fun hmem => hold (hpending.subset hmem), hs.below.now fnr _ hkey⟩, ?_⟩
        rw [hdb]
        cases hmap : (afterBatch s.db s.loggedDb r.id r.updates).fileToKeyMapping[fnr]? with
        | none => rfl
        | some key =>
          rcases (commit_mapping hs hr hphase).mp hmap with ⟨v, hv, hf, _⟩ | ⟨_, hkept, _⟩
          · exact (hold (commit_pending hs hr hphase fnr
              (mem_filterMap.mpr ⟨v, hv, hf⟩))).elim
          · exact absurd hfnr hkept
      exact {
        keys := htracked.keys
        numbers := htracked.numbers
        files := by simp [Phase.isOpen]
        written := by simp
        complete := by simp
        retired := hretired
        unlinking := by simp [Phase.unlinks]
        committed := fun _ _ => by
          rw [happlied]
          exact mem_append_right _ (mem_singleton.mpr rfl) }

end Commit

theorem Sound.sync (hs : Sound s) (hr : s.requests[i]? = some r) {filesToDelete : List Nat}
    (hphase : r.phase = .committed filesToDelete) :
    Sound { s.withRequest i { r with phase := .cleaning filesToDelete filesToDelete } with
      disk := s.disk.sync
      acknowledged := (r.id, r.updates.map Immediate.update) :: s.acknowledged } := by
  set s' : State := { s.withRequest i { r with phase := .cleaning filesToDelete filesToDelete } with
      disk := s.disk.sync
      acknowledged := (r.id, r.updates.map Immediate.update) :: s.acknowledged } with hs'
  have htracked := hs.requests r (mem_of_getElem? hr)
  have hpending : s'.pending.Sublist s.pending := flatMap_set_sublist hr (List.Sublist.refl r.files)
  have lasting : ∀ {P : Db → Prop}, s.Lasting P → s'.Lasting P := fun h => Disk.Durable.sync h
  have now : ∀ {P : Db → Prop}, P s.loggedDb → s'.Lasting P := fun h => Disk.durable_sync h
  have hext : Extends s s' :=
    ⟨fun _ _ h => lasting h, fun _ _ h => h,
      fun fnr hgone => ⟨fun hmem => hgone.1 (hpending.subset hmem), hgone.2⟩, fun _ he => he⟩
  constructor
  case consistent => exact lasting hs.consistent
  case below => exact lasting hs.below
  case acknowledged =>
    refine now fun e he => ?_
    rcases mem_cons.mp he with rfl | he
    · exact htracked.committed filesToDelete hphase
    · exact hs.acknowledged.now e he
  case distinct => exact hs.distinct.sublist hpending
  case pending =>
    intro fnr hfnr
    obtain ⟨hmap, hmark, hbelow⟩ := hs.pending fnr (hpending.subset hfnr)
    exact ⟨lasting hmap, hmark, hbelow⟩
  case startup => exact fun fnr hfnr => lasting (hs.startup fnr hfnr)
  case stopped => exact fun hstopped => absurd hstopped (hs.running hr)
  case requests =>
    intro r₁ hr₁
    rcases mem_or_eq_of_mem_set hr₁ with hr₁ | rfl
    · exact (hs.requests r₁ hr₁).mono hext fun _ _ _ => rfl
    · have hretired : ∀ fnr ∈ filesToDelete, s'.Gone fnr ∧ s'.Unmapped fnr := by
        intro fnr hfnr
        obtain ⟨hgone, hmap⟩ := htracked.retired fnr (by simpa [hphase, Phase.retires] using hfnr)
        exact ⟨hext.gone fnr hgone, now hmap⟩
      exact {
        keys := htracked.keys
        numbers := htracked.numbers
        files := by simp [Phase.isOpen]
        written := htracked.written
        complete := by simp
        retired := by simp [Phase.retires]
        unlinking := hretired
        committed := by simp }

theorem Sound.flush (hs : Sound s) {n : Nat} (hn : n ≤ s.disk.history.length) :
    Sound { s with disk := s.disk.flush Db.apply n } := by
  set s' : State := { s with disk := s.disk.flush Db.apply n } with hs'
  have hdb : Weaker s'.loggedDb s.loggedDb := by
    have hlength : s'.disk.history.length = s.disk.history.length - n := by
      simp [hs', Disk.flush]
    have hweaker : Weaker _ _ := weakening.flush (d := s.disk) n (s.disk.history.length - n)
    rwa [Nat.add_sub_cancel' hn, ← hlength] at hweaker
  have lasting : ∀ {P : Db → Prop}, (∀ a b, Weaker a b → P b → P a) → s.Lasting P → s'.Lasting P :=
    fun hP h => Disk.Durable.flush h weakening hP hn
  have unmapped : ∀ fnr, s.Unmapped fnr → s'.Unmapped fnr := fun fnr =>
    lasting fun a b h hb => by rwa [h.mapping]
  have hext : Extends s s' := by
    refine ⟨fun fnr _ => unmapped fnr, fun fnr _ h => ?_, fun _ h => h, fun e he => ?_⟩
    · rwa [hdb.mapping]
    · rwa [hdb.applied]
  constructor
  case consistent => exact lasting (fun a b h hb => hb.weaker h) hs.consistent
  case below => exact lasting (fun a b h hb => by rwa [h.mapping]) hs.below
  case acknowledged => exact lasting (fun a b h hb => by rwa [h.applied]) hs.acknowledged
  case distinct => exact hs.distinct
  case pending =>
    intro fnr hfnr
    obtain ⟨hmap, hmark, hbelow⟩ := hs.pending fnr hfnr
    exact ⟨unmapped fnr hmap, fun h => hmark (hdb.toBeDeleted fnr h), hbelow⟩
  case startup => exact fun fnr hfnr => unmapped fnr (hs.startup fnr hfnr)
  case stopped =>
    intro hstopped
    obtain ⟨hnone, hlog⟩ := hs.stopped hstopped
    exact ⟨hnone, fun w hw => hlog w (mem_of_mem_drop hw)⟩
  case requests => exact fun r hr => (hs.requests r hr).mono hext fun _ _ _ => rfl

theorem Sound.crash (hs : Sound s) {n : Nat} (hn : s.disk.synced ≤ n)
    (hle : n ≤ s.disk.history.length) (kept : List Nat) :
    Sound { s with
      disk := s.disk.crash Db.apply Write.logged n kept
      server := .down
      requests := [] } := by
  have lasting : ∀ {P : Db → Prop}, (∀ a b, Weaker a b → P b → P a) → s.Lasting P →
      (s.disk.crash Db.apply Write.logged n kept).Durable Db.apply Write.logged P :=
    fun hP h => Disk.Durable.crash h weakening hP hn hle kept
  constructor
  case consistent => exact lasting (fun a b h hb => hb.weaker h) hs.consistent
  case below =>
    refine fun k _ _ fnr key _ next hnext => ?_
    cases hnext
  case acknowledged => exact lasting (fun a b h hb => by rwa [h.applied]) hs.acknowledged
  case distinct => exact nodup_nil
  case pending => simp [State.pending]
  case startup => simp [Server.unlinks]
  case stopped => simp [Disk.crash, Disk.empty]
  case requests => simp

theorem Sound.withServer (hs : Sound s) (hstopped : s.Stopped) {server : Server}
    (hserver : ∀ next, server ≠ .running next) (hunlinks : ∀ fnr ∈ server.unlinks, s.Unmapped fnr) :
    Sound { s with server } := by
  have hnone := (hs.stopped hstopped).1
  refine { hs with
    below := fun n hn hle fnr key hmap next hnext => absurd hnext (hserver next)
    pending := ?_
    startup := hunlinks
    stopped := fun _ => hs.stopped hstopped
    requests := ?_ }
  · simp [State.pending, hnone]
  · simp [hnone]

theorem lt_nextFnr {db : Db} {key : Bytes} (h : db.fileToKeyMapping[fnr]? = some key) :
    fnr < db.nextFnr := by
  have hmem : fnr ∈ db.fileToKeyMapping.keys := by
    rw [ExtTreeMap.mem_keys, ExtTreeMap.mem_iff_isSome_getElem?, h]
    rfl
  unfold Db.nextFnr
  generalize db.fileToKeyMapping.keys = keys at hmem
  induction keys with
  | nil => cases hmem
  | cons f keys ih =>
    rw [foldr_cons]
    rcases mem_cons.mp hmem with rfl | hmem
    · omega
    · have := ih hmem
      omega

theorem Sound.serve (hs : Sound s) (hserver : s.server = .cleaned) : Sound s.serve := by
  have hstopped : s.Stopped := fun next h => by rw [hserver] at h; cases h
  have hnone := (hs.stopped hstopped).1
  have lasting : ∀ {P : Db → Prop}, (∀ n, P (s.loggedDb.apply (.checkGarbageFrom n))) →
      s.serve.Lasting P := by
    intro P hP
    refine Disk.durable_sync ?_
    have hlength : (s.disk.write (.checkGarbageFrom s.db.nextFnr)).history.length =
        s.disk.history.length + 1 := by
      simp [Disk.write]
    rw [hlength, Disk.loggedAt_write_length]
    exact hP s.db.nextFnr
  constructor
  case consistent =>
    have hnow := hs.consistent.now
    exact lasting fun n => ⟨hnow.mapped, hnow.holds, hnow.unmarked⟩
  case below =>
    refine lasting fun n fnr key hmap next hnext => ?_
    cases hnext
    rw [Db.apply, ← (weaker_db s).mapping] at hmap
    exact lt_nextFnr hmap
  case acknowledged => exact lasting fun n => hs.acknowledged.now
  case distinct => exact hs.distinct
  case pending => simp [State.pending, State.serve, hnone]
  case startup => simp [State.serve, Server.unlinks]
  case stopped => exact fun h => absurd rfl (h s.db.nextFnr)
  case requests => simp [State.serve, hnone]

end Steps

section Numbers

theorem mem_lastUpdates {us : List Update} {u : Update} (h : u ∈ lastUpdates us) : u ∈ us := by
  induction us with
  | nil => cases h
  | cons v us ih =>
    rw [lastUpdates] at h
    split at h
    · exact mem_cons_of_mem v (ih h)
    · rcases mem_cons.mp h with rfl | h
      · exact mem_cons_self
      · exact mem_cons_of_mem v (ih h)

theorem lastUpdates_nodup (us : List Update) : ((lastUpdates us).map Update.key).Nodup := by
  induction us with
  | nil => exact nodup_nil
  | cons u us ih =>
    rw [lastUpdates]
    split
    · exact ih
    · rename_i hlast
      rw [map_cons, nodup_cons]
      refine ⟨fun hmem => hlast ?_, ih⟩
      obtain ⟨v, hv, hkey⟩ := mem_map.mp hmem
      exact any_eq_true.mpr ⟨v, mem_lastUpdates hv, by simpa using hkey⟩

theorem assign_keys (us : List Update) (n : Nat) :
    (Immediate.assign us n).map Immediate.key = us.map Update.key := by
  fun_induction Immediate.assign us n <;> simp_all [Immediate.key, Immediate.update]

theorem assign_numbers (us : List Update) (n : Nat) :
    (Immediate.assign us n).filterMap Immediate.fnr? =
      List.range' n ((Immediate.assign us n).filterMap Immediate.fnr?).length := by
  fun_induction Immediate.assign us n with
  | case1 => rfl
  | case2 key us fnr ih => rwa [filterMap_cons_none rfl]
  | case3 key blob checksum us fnr _ ih => rwa [filterMap_cons_none rfl]
  | case4 key blob checksum us fnr _ ih =>
    have hcons : (Immediate.onFs key blob checksum fnr :: Immediate.assign us (fnr + 1)).filterMap
        Immediate.fnr? = fnr :: (Immediate.assign us (fnr + 1)).filterMap Immediate.fnr? := rfl
    rw [hcons, length_cons, range'_succ, ← ih]

end Numbers

namespace State

def handedOut (s : State) (updates : List Update) : List Nat :=
  match s.server with
  | .running nextFnr =>
    (Immediate.assign (lastUpdates updates) nextFnr).filterMap Immediate.fnr?
  | _ => []

end State

/-- No number is given out that a crash could find marked: one whose mark has only been removed
without the log since the last flush. -/
def Unmarked (s : State) : Action → Prop
  | .apply _ updates => ∀ fnr ∈ s.handedOut updates, fnr ∉ s.loggedDb.toBeDeleted
  | _ => True

theorem Sound.apply {s : State} (hs : Sound s) {asserts : List Assert} {updates : List Update}
    {nextFnr : Nat} (hserver : s.server = .running nextFnr)
    (hfresh : ∀ fnr ∈ s.handedOut updates, fnr ∉ s.loggedDb.toBeDeleted) :
    Sound (s.apply asserts updates nextFnr) := by
  set us := Immediate.assign (lastUpdates updates) nextFnr with hus
  set files := us.filterMap Immediate.fnr? with hfiles
  have hgiven : s.handedOut updates = files := by simp [State.handedOut, hserver, hfiles, hus]
  have hrange : files = List.range' nextFnr files.length := assign_numbers _ _
  have hbounds : ∀ fnr ∈ files, nextFnr ≤ fnr ∧ fnr < nextFnr + files.length := by
    intro fnr hfnr
    rw [hrange, mem_range'_1] at hfnr
    exact hfnr
  have hpending : (s.apply asserts updates nextFnr).pending = s.pending ++ files := by
    simp [State.pending, State.apply, hfiles, hus]
  have below : ∀ fnr, s.Below fnr → fnr < nextFnr := fun fnr h => h nextFnr hserver
  have hbelow : ∀ fnr, fnr < nextFnr + files.length →
      (s.apply asserts updates nextFnr).Below fnr := by
    intro fnr h next hnext
    cases hnext
    exact h
  have grows : ∀ fnr, s.Below fnr → (s.apply asserts updates nextFnr).Below fnr := fun fnr h =>
    hbelow fnr (by have := below fnr h; omega)
  have hext : Extends s (s.apply asserts updates nextFnr) := by
    refine ⟨fun _ _ h => h, fun _ _ h => h, fun fnr hgone => ⟨fun hmem => ?_, grows fnr hgone.2⟩,
      fun _ he => he⟩
    rw [hpending, mem_append] at hmem
    rcases hmem with hmem | hmem
    · exact hgone.1 hmem
    · have := below fnr hgone.2
      have := (hbounds fnr hmem).1
      omega
  constructor
  case consistent => exact hs.consistent
  case below => exact Disk.Durable.mono hs.below fun db h fnr key hmap => grows fnr (h fnr key hmap)
  case acknowledged => exact hs.acknowledged
  case distinct =>
    rw [hpending, nodup_append]
    refine ⟨hs.distinct, ?_, fun a ha b hb hab => ?_⟩
    · rw [hrange]
      exact nodup_range'
    · subst hab
      have := below a (hs.pending a ha).2.2
      have := (hbounds a hb).1
      omega
  case pending =>
    intro fnr hfnr
    rw [hpending, mem_append] at hfnr
    rcases hfnr with hfnr | hfnr
    · obtain ⟨hmap, hmark, hlt⟩ := hs.pending fnr hfnr
      exact ⟨hmap, hmark, grows fnr hlt⟩
    · refine ⟨fun n hn hle => ?_, hfresh fnr (hgiven ▸ hfnr), hbelow fnr (hbounds fnr hfnr).2⟩
      -- every file of a key has a smaller number
      cases hmap : (s.disk.loggedAt Db.apply Write.logged n).fileToKeyMapping[fnr]? with
      | none => exact hmap
      | some key =>
        have := below fnr (hs.below n hn hle fnr key hmap)
        have := (hbounds fnr hfnr).1
        omega
  case startup => simp [State.apply, Server.unlinks]
  case stopped => exact fun h => absurd rfl (h (nextFnr + files.length))
  case requests =>
    intro r hr
    rcases mem_append.mp hr with hr | hr
    · exact (hs.requests r hr).mono hext fun _ _ _ => rfl
    · cases mem_singleton.mp hr
      have hkeys : (us.map Immediate.key).Nodup := by
        rw [hus, assign_keys]
        exact lastUpdates_nodup updates
      have hnumbers : (us.filterMap Immediate.fnr?).Nodup := by
        rw [← hfiles, hrange]
        exact nodup_range'
      exact {
        keys := hkeys
        numbers := hnumbers
        files := fun _ => rfl
        written := by simp
        complete := by simp
        retired := by simp [Phase.retires]
        unlinking := by simp [Phase.unlinks]
        committed := by simp }

section Exec

variable {s s' : State} {i fnr : Nat} {r : Request}

theorem Tracked.withPhase (h : Tracked s r) {phase : Phase} (hopen : phase.isOpen → r.phase.isOpen)
    (hcomplete : ∀ attempt values, phase = .asserted attempt values → ∀ fnr ∈ r.files, fnr ∈ r.written)
    (hretires : phase.retires = []) (hunlinks : ∀ fnr ∈ phase.unlinks, fnr ∈ r.phase.unlinks)
    (hcommitted : ∀ filesToDelete, phase ≠ .committed filesToDelete) :
    Tracked s { r with phase } where
  keys := h.keys
  numbers := h.numbers
  files hphase := h.files (hopen hphase)
  written := h.written
  complete := hcomplete
  retired fnr hfnr := by
    rw [show phase.retires = [] from hretires] at hfnr
    cases hfnr
  unlinking fnr hfnr := h.unlinking fnr (hunlinks fnr hfnr)
  committed fs hphase := absurd hphase (hcommitted fs)

section

variable (hs : Sound s) (hr : s.requests[i]? = some r)
include hs hr

theorem Sound.fail (assertFailed : Bool) :
    Sound (s.withRequest i { r with phase := .failed assertFailed }) := by
  refine hs.withRequest hr (List.Sublist.refl r.files) ?_
  have htracked := hs.requests r (mem_of_getElem? hr)
  exact htracked.withPhase (by simp [Phase.isOpen]) (by simp) rfl (by simp [Phase.unlinks]) (by simp)

theorem Sound.transformAsserts {attempt : Nat}
    (hphase : r.phase = .writing attempt) (hwritten : ∀ fnr ∈ r.files, fnr ∈ r.written) :
    Sound (s.transformAsserts i attempt r) := by
  unfold State.transformAsserts
  split
  · refine hs.withRequest hr (List.Sublist.refl r.files) ?_
    have htracked := hs.requests r (mem_of_getElem? hr)
    exact htracked.withPhase (by simp [hphase, Phase.isOpen]) (fun _ _ _ => hwritten) rfl
      (by simp [Phase.unlinks]) (by simp)
  · exact hs.fail hr true

theorem Sound.tryApplyImmediate {attempt : Nat}
    {values : List (Bytes × (Checksum × Value))} (hphase : r.phase = .asserted attempt values) :
    Sound (s.tryApplyImmediate i attempt values r) := by
  unfold State.tryApplyImmediate
  split
  · exact hs.commit hr hphase
  · exact hs.fail hr true
  · split
    · exact hs.fail hr false
    · refine hs.withRequest hr (List.Sublist.refl r.files) ?_
      have htracked := hs.requests r (mem_of_getElem? hr)
      exact htracked.withPhase (by simp [hphase, Phase.isOpen]) (by simp) rfl
        (by simp [Phase.unlinks]) (by simp)

theorem Sound.createFile (hfnr : fnr ∈ r.files) (habsent : s.files[fnr]? = none) (content : Blob) :
    Sound { s.withRequest i { r with created := fnr :: r.created } with
      files := s.files.insert fnr content } := by
  have hmem := mem_of_getElem? hr
  have hpending : fnr ∈ s.pending := mem_flatMap.mpr ⟨r, hmem, hfnr⟩
  have hs₁ : Sound { s with files := s.files.insert fnr content } := by
    refine hs.withFile (hs.pending fnr hpending).1 (fun f hf => ?_) fun r₁ hr₁ hf hw => ?_
    · simp [ExtTreeMap.getElem?_insert, hf.symm]
    · obtain ⟨blob, _, hblob⟩ := (hs.requests r₁ hr₁).written fnr hf hw
      rw [habsent] at hblob
      cases hblob
  have htracked := hs₁.requests r hmem
  exact hs₁.withRequest hr (List.Sublist.refl r.files)
    ⟨htracked.keys, htracked.numbers, htracked.files, htracked.written, htracked.complete,
      htracked.retired, htracked.unlinking, htracked.committed⟩

theorem Sound.writeBlob (hfnr : fnr ∈ r.files) {blob : Blob} (hblob : r.blobOf fnr = some blob) :
    Sound { s.withRequest i { r with written := fnr :: r.written } with
      files := s.files.insert fnr blob } := by
  have hmem := mem_of_getElem? hr
  have hpending : fnr ∈ s.pending := mem_flatMap.mpr ⟨r, hmem, hfnr⟩
  have hself : (s.files.insert fnr blob)[fnr]? = some blob := by simp
  have hs₁ : Sound { s with files := s.files.insert fnr blob } := by
    refine hs.withFile (hs.pending fnr hpending).1 (fun f hf => ?_) fun r₁ hr₁ hf _ => ?_
    · simp [ExtTreeMap.getElem?_insert, hf.symm]
    · cases hs.same_request hmem hr₁ hfnr hf
      exact ⟨blob, hblob, hself⟩
  have htracked := hs₁.requests r hmem
  refine hs₁.withRequest hr (List.Sublist.refl r.files)
    ⟨htracked.keys, htracked.numbers, htracked.files, fun f hf hw => ?_, fun a v hphase f hf => ?_,
      htracked.retired, htracked.unlinking, htracked.committed⟩
  · rcases mem_cons.mp hw with rfl | hw
    · exact ⟨blob, hblob, hself⟩
    · exact htracked.written f hf hw
  · exact mem_cons_of_mem fnr (htracked.complete a v hphase f hf)

end

theorem removeToBeDeleted_eq (fnrs : List Nat) : ∃ disk, s.removeToBeDeleted fnrs = { s with disk } := by
  unfold State.removeToBeDeleted
  induction fnrs generalizing s with
  | nil => exact ⟨s.disk, rfl⟩
  | cons fnr fnrs ih => exact ih

theorem server_maybeDeleteFile : (s.maybeDeleteFile fnr).server = s.server := by
  unfold State.maybeDeleteFile
  split <;> rfl

theorem withRequest_maybeDeleteFile :
    (s.withRequest i r).maybeDeleteFile fnr = (s.maybeDeleteFile fnr).withRequest i r := by
  have hdb : (s.withRequest i r).db = s.db := rfl
  unfold State.maybeDeleteFile
  rw [hdb]
  split <;> rfl

theorem Sound.dropFile (hs : Sound s) (hr : s.requests[i]? = some r) (hfnr : fnr ∈ r.files)
    {assertFailed : Bool} (hphase : r.phase = .failed assertFailed) :
    let s₁ := s.withRequest i { r with files := r.files.filter fun f => f ≠ fnr }
    Sound s₁ ∧ s₁.Unmapped fnr ∧ fnr ∉ s₁.pending := by
  intro s₁
  have hmem := mem_of_getElem? hr
  have htracked := hs.requests r hmem
  have hunmapped := (hs.pending fnr (mem_flatMap.mpr ⟨r, hmem, hfnr⟩)).1
  refine ⟨hs.withRequest hr filter_sublist ?_, hunmapped, fun hold => ?_⟩
  · have hsub : ∀ f ∈ r.files.filter (fun f => f ≠ fnr), f ∈ r.files := fun f hf =>
      (mem_filter.mp hf).1
    exact ⟨htracked.keys, htracked.numbers, by simp [hphase, Phase.isOpen],
      fun f hf => htracked.written f (hsub f hf),
      fun a v h f hf => htracked.complete a v h f (hsub f hf),
      htracked.retired, htracked.unlinking, htracked.committed⟩
  · have hkept := mem_of_mem_flatMap_set hs.distinct hr hold hfnr
    simp at hkept

theorem Sound.maybeDeleteFile (hs : Sound s) (hgone : fnr ∉ s.pending)
    (hlasting : s.loggedDb.fileToKeyMapping[fnr]? = none → s.Unmapped fnr) :
    Sound (s.maybeDeleteFile fnr) := by
  unfold State.maybeDeleteFile
  split
  · exact hs
  · rename_i hnone
    rw [(weaker_db s).mapping] at hnone
    have hs₁ : Sound (s.write (.removeToBeDeleted fnr)) := hs.writeUnlogged rfl
    have hunmapped : (s.write (.removeToBeDeleted fnr)).Unmapped fnr :=
      State.Lasting.writeUnlogged (hlasting hnone) rfl
    exact hs₁.unlink hunmapped hgone

theorem exec_sound {action : Action} (hs : Sound s) (hfresh : Unmarked s action)
    (h : exec s action = some s') : Sound s' := by
  cases action with
  | apply asserts updates =>
    simp only [exec] at h
    split at h
    · cases h
      exact hs.apply ‹_› hfresh
    · cases h
  | createFile i fnr content =>
    simp only [exec, Option.bind_eq_some_iff, Option.ite_none_right_eq_some] at h
    obtain ⟨r, hr, ⟨hfnr, _, habsent⟩, h⟩ := h
    cases h
    exact hs.createFile hr hfnr habsent content
  | writeBlob i fnr =>
    simp only [exec, Option.bind_eq_some_iff, Option.ite_none_right_eq_some] at h
    obtain ⟨r, hr, blob, hblob, ⟨hfnr, _⟩, h⟩ := h
    cases h
    exact hs.writeBlob hr hfnr hblob
  | transformAsserts i =>
    simp only [exec, Option.bind_eq_some_iff] at h
    obtain ⟨r, hr, h⟩ := h
    split at h
    · obtain ⟨hwritten, h⟩ := Option.ite_none_right_eq_some.mp h
      cases h
      exact hs.transformAsserts hr ‹_› hwritten
    · cases h
  | tryApplyImmediate i =>
    simp only [exec, Option.bind_eq_some_iff] at h
    obtain ⟨r, hr, h⟩ := h
    split at h
    · cases h
      exact hs.tryApplyImmediate hr ‹_›
    · cases h
  | syncRocksdb i =>
    simp only [exec, Option.bind_eq_some_iff] at h
    obtain ⟨r, hr, h⟩ := h
    split at h
    · cases h
      exact hs.sync hr ‹_›
    · cases h
  | unlink i fnr =>
    simp only [exec, Option.bind_eq_some_iff] at h
    obtain ⟨r, hr, h⟩ := h
    split at h
    · rename_i unlinks filesToDelete hphase
      obtain ⟨⟨hfnr, _⟩, h⟩ := Option.ite_none_right_eq_some.mp h
      cases h
      have hmem := mem_of_getElem? hr
      obtain ⟨hgone, hunmapped⟩ := (hs.requests r hmem).unlinking fnr (by
        simpa [hphase, Phase.unlinks] using hfnr)
      have hs₁ := hs.unlink hunmapped hgone.1
      refine hs₁.withRequest hr (List.Sublist.refl r.files) ((hs₁.requests r hmem).withPhase
        (by simp [Phase.isOpen]) (by simp) rfl (fun f hf => ?_) (by simp))
      simpa [hphase, Phase.unlinks] using (mem_filter.mp hf).1
    · cases h
  | removeToBeDeleted i =>
    simp only [exec, Option.bind_eq_some_iff] at h
    obtain ⟨r, hr, h⟩ := h
    split at h
    · rename_i filesToDelete _
      cases h
      have hs₁ := hs.removeToBeDeleted filesToDelete
      obtain ⟨disk, hdisk⟩ := removeToBeDeleted_eq (s := s) filesToDelete
      rw [hdisk] at hs₁ ⊢
      refine hs₁.withRequest hr (List.Sublist.refl r.files) ?_
      exact (hs₁.requests r (mem_of_getElem? hr)).withPhase (by simp [Phase.isOpen]) (by simp)
        rfl (by simp [Phase.unlinks]) (by simp)
    · cases h
  | fail i =>
    simp only [exec, Option.bind_eq_some_iff] at h
    obtain ⟨r, hr, h⟩ := h
    split at h
    · cases h
      exact hs.fail hr false
    · cases h
      exact hs.fail hr false
    · cases h
  | removeFile i fnr =>
    simp only [exec, Option.bind_eq_some_iff] at h
    obtain ⟨r, hr, h⟩ := h
    split at h
    · rename_i assertFailed hphase
      obtain ⟨hfnr, h⟩ := Option.ite_none_right_eq_some.mp h
      obtain ⟨hs₁, hunmapped, hgone⟩ := hs.dropFile hr hfnr hphase
      split at h
      · cases h
        exact hs₁.unlink hunmapped hgone
      · cases h
        rw [← withRequest_maybeDeleteFile]
        exact hs₁.maybeDeleteFile hgone fun _ => hunmapped
    · cases h
  | release fnr =>
    simp only [exec] at h
    split at h
    · cases h
      exact hs.writeUnlogged rfl
    · cases h
  | flush n =>
    obtain ⟨hn, h⟩ := Option.ite_none_right_eq_some.mp h
    cases h
    exact hs.flush hn
  | crash n kept =>
    obtain ⟨⟨hn, hle⟩, h⟩ := Option.ite_none_right_eq_some.mp h
    cases h
    exact hs.crash hn hle kept
  | start =>
    simp only [exec] at h
    split at h
    · rename_i hserver
      cases h
      exact hs.withServer (by simp [State.Stopped, hserver]) (by simp) (by simp [Server.unlinks])
    · cases h
  | collect fnr =>
    simp only [exec] at h
    split at h
    · rename_i todo hserver
      obtain ⟨_, h⟩ := Option.ite_none_right_eq_some.mp h
      cases h
      have hstopped : s.Stopped := by simp [State.Stopped, hserver]
      have hnone : fnr ∉ s.pending := by simp [State.pending, (hs.stopped hstopped).1]
      have hs₁ := hs.maybeDeleteFile hnone fun hmap => hs.lasting_of_stopped hstopped hmap
      exact hs₁.withServer (by simp [State.Stopped, server_maybeDeleteFile, hserver]) (by simp)
        (by simp [Server.unlinks])
    · cases h
  | listToBeDeleted =>
    simp only [exec] at h
    split at h
    · rename_i hserver
      cases h
      have hstopped : s.Stopped := by simp [State.Stopped, hserver]
      refine hs.withServer hstopped (by simp) fun fnr hfnr => hs.lasting_of_stopped hstopped ?_
      exact hs.consistent.now.unmarked fnr ((weaker_db s).toBeDeleted fnr hfnr)
    · cases h
  | startupUnlink fnr =>
    simp only [exec] at h
    split at h
    · rename_i unlinks filesToDelete hserver
      obtain ⟨hfnr, h⟩ := Option.ite_none_right_eq_some.mp h
      cases h
      have hstopped : s.Stopped := by simp [State.Stopped, hserver]
      have hnone : fnr ∉ s.pending := by simp [State.pending, (hs.stopped hstopped).1]
      have hunlinks : ∀ f ∈ unlinks, s.Unmapped f := by
        simpa [hserver, Server.unlinks] using hs.startup
      have hs₁ := hs.unlink (hunlinks fnr hfnr) hnone
      exact hs₁.withServer hstopped (by simp) fun f hf => hunlinks f (mem_filter.mp hf).1
    · cases h
  | startupRemoveToBeDeleted =>
    simp only [exec] at h
    split at h
    · rename_i filesToDelete hserver
      cases h
      have hs₁ := hs.removeToBeDeleted filesToDelete
      obtain ⟨disk, hdisk⟩ := removeToBeDeleted_eq (s := s) filesToDelete
      rw [hdisk] at hs₁ ⊢
      exact hs₁.withServer (by simp [State.Stopped, hserver]) (by simp) (by simp [Server.unlinks])
    · cases h
  | serve =>
    simp only [exec] at h
    split at h
    · cases h
      exact hs.serve ‹_›
    · cases h

end Exec

/-- In every run of requests, crashes and startups in which no number is given out that a crash could
find marked: every acknowledged request is still applied, every key has the value of the last applied
update with its file in place, no two keys share a file, and no file of a key is missing. -/
theorem device_crashSafe (actions : List Action) (h : AllSteps exec Unmarked .initial actions) :
    let s := run exec .initial actions
    (∀ request ∈ s.acknowledged, request ∈ s.db.applied) ∧
    (∀ key, Holds s.files (expected s.db.applied key) s.db.values[key]?) ∧
    (∀ (key key' : Bytes) c c' fnr size size', s.db.values[key]? = some (c, Value.onFs fnr size) →
      s.db.values[key']? = some (c', Value.onFs fnr size') → key = key') ∧
    ∀ (fnr : Nat) key, s.db.fileToKeyMapping[fnr]? = some key → s.files[fnr]? ≠ none := by
  intro s
  have hs : Sound s := run_invariant_of (fun _ _ _ hs hG h => exec_sound hs hG h) .initial h
  have hconsistent : Consistent s.files s.db := hs.consistent.now.weaker (weaker_db s)
  refine ⟨fun request hmem => ?_, hconsistent.holds, ?_, fun fnr key hmap => ?_⟩
  · rw [(weaker_db s).applied]
    exact hs.acknowledged.now request hmem
  · intro key key' c c' fnr size size' hvalue hvalue'
    have hkey := (hconsistent.mapped fnr key).mpr ⟨c, size, hvalue⟩
    have hkey' := (hconsistent.mapped fnr key').mpr ⟨c', size', hvalue'⟩
    exact Option.some.inj (hkey.symm.trans hkey')
  · obtain ⟨c, size, hvalue⟩ := (hconsistent.mapped fnr key).mp hmap
    have hholds := hconsistent.holds key
    rw [hvalue] at hholds
    obtain ⟨blob, hblob, _⟩ := hholds
    simp [hblob]

instance (s : State) (action : Action) : Decidable (Unmarked s action) := by
  unfold Unmarked
  split <;> infer_instance

def largeBlob : Blob := ⟨blobThreshold, 0⟩

/-- A large blob is stored by the first request since the startup, in the file 0. -/
def storeLarge (key : Bytes) : List Action :=
  [.apply [] [⟨key, some (largeBlob, .noChecksum)⟩], .createFile 0 0 largeBlob, .writeBlob 0 0,
    .transformAsserts 0, .tryApplyImmediate 0, .syncRocksdb 0, .removeToBeDeleted 0]

/-- The key `a` is stored and deleted, and the device restarts. -/
def deleteAndRestart : List Action :=
  [.start, .listToBeDeleted, .startupRemoveToBeDeleted, .serve] ++ storeLarge (ascii ['a']) ++
    [.apply [] [⟨ascii ['a'], none⟩], .transformAsserts 1, .tryApplyImmediate 1, .syncRocksdb 1,
      .unlink 1 0, .removeToBeDeleted 1, .crash 3 [], .start, .listToBeDeleted, .startupUnlink 0,
      .startupRemoveToBeDeleted, .serve]

/-- With a flush after the restart the number 0 may be used again. -/
theorem device_crashSafe_flushed :
    let actions := deleteAndRestart ++ [.flush 2] ++ storeLarge (ascii ['b']) ++ [.crash 1 []]
    ((run exec .initial actions).db.fileToKeyMapping[(0 : Nat)]? = some (ascii ['b'])) ∧
      (run exec .initial actions).files[(0 : Nat)]? ≠ none := by
  intro actions
  have hmapped : (run exec .initial actions).db.fileToKeyMapping[(0 : Nat)]? = some (ascii ['b']) := by
    decide +kernel
  exact ⟨hmapped, (device_crashSafe actions (by decide +kernel)).2.2.2 0 _ hmapped⟩

/-- The file 0 gets the key `b`, a second crash brings back the mark of the deleted file 0, and the
startup unlinks it. -/
def markBroughtBack : List Action :=
  deleteAndRestart ++ storeLarge (ascii ['b']) ++
    [.crash 3 [], .start, .collect 0, .listToBeDeleted, .startupUnlink 0]

theorem mapped_file_unlinked :
    ¬∀ actions (fnr : Nat) key,
      (run exec .initial actions).db.fileToKeyMapping[fnr]? = some key →
        (run exec .initial actions).files[fnr]? ≠ none := by
  intro h
  have hmapped : (run exec .initial markBroughtBack).db.fileToKeyMapping[(0 : Nat)]? =
      some (ascii ['b']) := by
    decide +kernel
  have hgone : (run exec .initial markBroughtBack).files[(0 : Nat)]? = none := by decide +kernel
  exact h markBroughtBack 0 _ hmapped hgone

end Alba.Asd
