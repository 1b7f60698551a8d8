import Alba.ProofKit.Halting
import Alba.ProofKit.Latch
import Alba.ProofKit.Run

/-! The blob writes of a batch of the io scheduler of the asd (`Asd_io_scheduler.run` with `fsync`). A
write that has put its blob in its file counts down a latch and waits for it before it syncs the file;
the parent directories are synced when the latch is released. -/

namespace Alba.Asd

open ProofKit List

abbrev Dir := List Nat

/-- How a write of a blob ends. It can fail before `post_write` (its file cannot be created or written) or
after the latch (the file cannot be synced). -/
inductive Fate
  | succeeds
  | failsBefore
  | failsAfter
  deriving DecidableEq

inductive Status
  | writing
  /-- In `post_write`, on the latch. -/
  | waiting
  | syncing
  | done
  | failed
  deriving DecidableEq

structure BlobWrite where
  client : Nat
  parentDir : Dir
  fate : Fate
  status : Status
  deriving DecidableEq

/-- `Lwt_extra2.FoldingCountDownLatch` with the parent directories as its accumulator. -/
structure FoldingLatch where
  latch : Latch
  acc : List Dir
  deriving DecidableEq

def FoldingLatch.notify (t : FoldingLatch) (parentDir : Dir) : FoldingLatch :=
  if t.latch.needed ≠ 0 then
    { latch := t.latch.countDown, acc := if parentDir ∈ t.acc then t.acc else parentDir :: t.acc }
  else t

/-- The blobs of each client, as the parent directory and the fate of the write; and whether the parent
directories can be synced. -/
structure Batch where
  clients : List (List (Dir × Fate))
  dirsSync : Bool
  nonempty : clients ≠ []

inductive Scheduler
  | running
  /-- All clients were woken. -/
  | woke
  /-- An exception went through `run`. -/
  | raised
  deriving DecidableEq

structure Writing where
  writes : List BlobWrite
  latch : FoldingLatch
  /-- `sync_parent_dirs_t`. -/
  dirs : Status
  scheduler : Scheduler
  woken : List Nat
  deriving DecidableEq

namespace Batch

def writesOf (batch : Batch) : List BlobWrite :=
  batch.clients.zipIdx.flatMap fun (blobs, client) =>
    blobs.map fun (parentDir, fate) => { client, parentDir, fate, status := .writing }

def initial (batch : Batch) : Writing where
  writes := batch.writesOf
  latch := { latch := { needed := batch.writesOf.length }, acc := [] }
  dirs := .waiting
  scheduler := .running
  woken := []

inductive Event
  | postWrite (i : Nat)
  | resume (i : Nat)
  | finish (i : Nat)
  | fail (i : Nat)
  | syncDirs
  | wake
  | raise
  deriving DecidableEq

def setStatus (s : Writing) (i : Nat) (w : BlobWrite) (status : Status) : Writing :=
  { s with writes := s.writes.set i { w with status } }

def released (s : Writing) : Prop := s.latch.latch.finished = true

instance (s : Writing) : Decidable (released s) := inferInstanceAs (Decidable (_ = true))

/-- When the exception of a write goes through `run` depends on the order in which the writes of the batch
are collected; it can do so as soon as a write has failed. -/
def exec (batch : Batch) (s : Writing) : Event → Option Writing
  | .postWrite i =>
    match s.writes[i]? with
    | some w =>
      if w.status = .writing ∧ w.fate ≠ .failsBefore then
        let s := { s with latch := s.latch.notify w.parentDir }
        some (setStatus s i w (if released s then .syncing else .waiting))
      else none
    | none => none
  | .resume i =>
    match s.writes[i]? with
    | some w => if w.status = .waiting ∧ released s then some (setStatus s i w .syncing) else none
    | none => none
  | .finish i =>
    match s.writes[i]? with
    | some w => if w.status = .syncing ∧ w.fate = .succeeds then some (setStatus s i w .done) else none
    | none => none
  | .fail i =>
    match s.writes[i]? with
    | some w =>
      if w.status = .writing ∧ w.fate = .failsBefore ∨ w.status = .syncing ∧ w.fate = .failsAfter then
        some (setStatus s i w .failed)
      else none
    | none => none
  | .syncDirs =>
    if s.dirs = .waiting ∧ released s then
      some { s with dirs := if batch.dirsSync then .done else .failed }
    else none
  | .wake =>
    if s.scheduler = .running ∧ (∀ w ∈ s.writes, w.status = .done) ∧ s.dirs = .done then
      some { s with scheduler := .woke, woken := List.range batch.clients.length }
    else none
  | .raise =>
    if s.scheduler = .running ∧
        ((∃ w ∈ s.writes, w.status = .failed) ∨ (∀ w ∈ s.writes, w.status = .done) ∧ s.dirs = .failed) then
      some { s with scheduler := .raised }
    else none

/-! ### Every run ends -/

def statusRank : Status → Nat
  | .writing => 3
  | .waiting => 2
  | .syncing => 1
  | .done => 0
  | .failed => 0

/-- The steps that are left, at most. -/
def rank (s : Writing) : Nat :=
  (s.writes.map fun w => statusRank w.status).sum + statusRank s.dirs +
    if s.scheduler = .running then 1 else 0

variable {batch : Batch} {s s' : Writing} {e : Event} {i : Nat} {w : BlobWrite}

theorem rank_setStatus (hw : s.writes[i]? = some w) {status : Status}
    (hlower : statusRank status < statusRank w.status) : rank (setStatus s i w status) < rank s := by
  have hsum := sum_map_set (f := fun w => statusRank w.status) hw { w with status }
  dsimp only at hsum
  dsimp only [rank, setStatus]
  omega

/-- What a step of a write does: the new status, and the state with the latch after it. -/
inductive WriteStep (s : Writing) (w : BlobWrite) : Writing → Status → Prop
  | postWrite (hstatus : w.status = .writing) (hfate : w.fate ≠ .failsBefore) (status : Status)
      (hnext : status = .waiting ∨ status = .syncing) :
      WriteStep s w { s with latch := s.latch.notify w.parentDir } status
  | resume (hstatus : w.status = .waiting) : WriteStep s w s .syncing
  | finish (hstatus : w.status = .syncing) (hfate : w.fate = .succeeds) : WriteStep s w s .done
  | failBefore (hstatus : w.status = .writing) (hfate : w.fate = .failsBefore) : WriteStep s w s .failed
  | failAfter (hstatus : w.status = .syncing) (hfate : w.fate = .failsAfter) : WriteStep s w s .failed

theorem exec_cases (h : exec batch s e = some s') :
    (∃ i w mid status, s.writes[i]? = some w ∧ WriteStep s w mid status ∧
      s' = setStatus mid i w status) ∨
    (s.dirs = .waiting ∧ s' = { s with dirs := if batch.dirsSync then .done else .failed }) ∨
    (s.scheduler = .running ∧ (∀ w ∈ s.writes, w.status = .done) ∧ s.dirs = .done ∧
      s' = { s with scheduler := .woke, woken := List.range batch.clients.length }) ∨
    (s.scheduler = .running ∧ ((∃ w ∈ s.writes, w.status = .failed) ∨ s.dirs = .failed) ∧
      s' = { s with scheduler := .raised }) := by
  cases e with
  | postWrite i =>
    simp only [exec] at h
    split at h
    · rename_i w hw
      split at h
      · rename_i hguard
        cases h
        refine .inl ⟨i, w, _, _, hw, .postWrite hguard.1 hguard.2 _ ?_, rfl⟩
        split
        · exact .inr rfl
        · exact .inl rfl
      · cases h
    · cases h
  | resume i =>
    simp only [exec] at h
    split at h
    · rename_i w hw
      split at h
      · rename_i hguard
        cases h
        exact .inl ⟨i, w, s, _, hw, .resume hguard.1, rfl⟩
      · cases h
    · cases h
  | finish i =>
    simp only [exec] at h
    split at h
    · rename_i w hw
      split at h
      · rename_i hguard
        cases h
        exact .inl ⟨i, w, s, _, hw, .finish hguard.1 hguard.2, rfl⟩
      · cases h
    · cases h
  | fail i =>
    simp only [exec] at h
    split at h
    · rename_i w hw
      split at h
      · rename_i hguard
        cases h
        rcases hguard with hguard | hguard
        · exact .inl ⟨i, w, s, _, hw, .failBefore hguard.1 hguard.2, rfl⟩
        · exact .inl ⟨i, w, s, _, hw, .failAfter hguard.1 hguard.2, rfl⟩
      · cases h
    · cases h
  | syncDirs =>
    simp only [exec] at h
    split at h
    · rename_i hguard
      cases h
      exact .inr (.inl ⟨hguard.1, rfl⟩)
    · cases h
  | wake =>
    simp only [exec] at h
    split at h
    · rename_i hguard
      cases h
      exact .inr (.inr (.inl ⟨hguard.1, hguard.2.1, hguard.2.2, rfl⟩))
    · cases h
  | raise =>
    simp only [exec] at h
    split at h
    · rename_i hguard
      cases h
      exact .inr (.inr (.inr ⟨hguard.1, hguard.2.imp_right And.right, rfl⟩))
    · cases h

theorem rank_exec (h : exec batch s e = some s') : rank s' < rank s := by
  rcases exec_cases h with ⟨i, w, mid, status, hw, hstep, rfl⟩ | ⟨hdirs, rfl⟩ | ⟨hrun, -, -, rfl⟩ |
      ⟨hrun, -, rfl⟩
  · cases hstep with
    | postWrite hstatus hfate status hnext =>
      have hlower : statusRank status < statusRank w.status := by
        rw [hstatus]
        rcases hnext with rfl | rfl <;> decide
      exact rank_setStatus (s := { s with latch := s.latch.notify w.parentDir }) hw hlower
    | resume hstatus => exact rank_setStatus hw (by rw [hstatus]; decide)
    | finish hstatus => exact rank_setStatus hw (by rw [hstatus]; decide)
    | failBefore hstatus => exact rank_setStatus hw (by rw [hstatus]; decide)
    | failAfter hstatus => exact rank_setStatus hw (by rw [hstatus]; decide)
  · have hlower : statusRank (if batch.dirsSync then .done else .failed) = 0 := by split <;> rfl
    simp only [rank, hdirs, hlower]
    simp [statusRank]
  · simp [rank, hrun]
  · simp [rank, hrun]

/-! ### What holds in every state -/

def NoFailure (batch : Batch) : Prop :=
  (∀ blobs ∈ batch.clients, ∀ blob ∈ blobs, blob.2 = .succeeds) ∧ batch.dirsSync = true

/-- The write has not notified the latch, or never will. -/
def unnotified (w : BlobWrite) : Bool := w.status = .writing || w.fate = .failsBefore

structure Valid (batch : Batch) (s : Writing) : Prop where
  fates : s.writes.map BlobWrite.fate = batch.writesOf.map BlobWrite.fate
  counted : s.latch.latch.needed = s.writes.countP unnotified
  done : ∀ w ∈ s.writes, w.status = .done → w.fate = .succeeds
  failed : ∀ w ∈ s.writes, w.status = .failed → w.fate ≠ .succeeds
  dirs : s.dirs = .waiting ∨ s.dirs = if batch.dirsSync then .done else .failed
  woke : s.scheduler = .woke → (∀ w ∈ s.writes, w.status = .done) ∧ s.dirs = .done ∧
    s.woken = List.range batch.clients.length
  raised : s.scheduler = .raised → ¬ batch.NoFailure
  unwoken : s.scheduler ≠ .woke → s.woken = []

theorem noFailure_iff :
    batch.NoFailure ↔ (∀ w ∈ batch.writesOf, w.fate = .succeeds) ∧ batch.dirsSync = true := by
  have hwrites : (∀ blobs ∈ batch.clients, ∀ blob ∈ blobs, blob.2 = .succeeds) ↔
      ∀ w ∈ batch.writesOf, w.fate = .succeeds := by
    constructor
    · intro h w hw
      obtain ⟨⟨blobs, client⟩, hclient, hw⟩ := mem_flatMap.mp hw
      obtain ⟨blob, hblob, rfl⟩ := mem_map.mp hw
      exact h blobs (fst_mem_of_mem_zipIdx hclient) blob hblob
    · intro h blobs hblobs blob hblob
      obtain ⟨client, hclient⟩ := mem_iff_getElem?.mp hblobs
      refine h ⟨client, blob.1, blob.2, .writing⟩ (mem_flatMap.mpr ⟨(blobs, client), ?_, ?_⟩)
      · exact mem_zipIdx_iff_getElem?.mpr hclient
      · exact mem_map.mpr ⟨blob, hblob, rfl⟩
  rw [NoFailure, hwrites]

theorem status_of_mem_writesOf (hw : w ∈ batch.writesOf) : w.status = .writing := by
  obtain ⟨⟨blobs, client⟩, -, hw⟩ := mem_flatMap.mp hw
  obtain ⟨blob, -, rfl⟩ := mem_map.mp hw
  rfl

theorem valid_initial (batch : Batch) : Valid batch batch.initial where
  fates := rfl
  counted := (countP_eq_length.mpr fun w hw => by
    simp [unnotified, status_of_mem_writesOf hw]).symm
  done w hw hdone := nomatch (status_of_mem_writesOf hw).symm.trans hdone
  failed w hw hfailed := nomatch (status_of_mem_writesOf hw).symm.trans hfailed
  dirs := .inl rfl
  woke h := nomatch h
  raised h := nomatch h
  unwoken _ := rfl

theorem countP_unnotified_set (hw : s.writes[i]? = some w) (status : Status) :
    (s.writes.set i { w with status }).countP unnotified + (if unnotified w then 1 else 0) =
      s.writes.countP unnotified + (if unnotified { w with status } then 1 else 0) := by
  obtain ⟨hi, rfl⟩ := List.getElem?_eq_some_iff.mp hw
  rw [countP_set hi]
  split
  · rename_i hun
    have hpos : 0 < s.writes.countP unnotified := countP_pos_iff.mpr ⟨_, getElem_mem hi, hun⟩
    omega
  · omega

theorem Valid.counted_step (h : Valid batch s) (hw : s.writes[i]? = some w) {mid : Writing}
    {status : Status} (hstep : WriteStep s w mid status) :
    mid.latch.latch.needed = (s.writes.set i { w with status }).countP unnotified := by
  have hcounted := h.counted
  have hset := countP_unnotified_set hw status
  have unchanged (heq : unnotified { w with status } = unnotified w) :
      s.latch.latch.needed = (s.writes.set i { w with status }).countP unnotified := by
    rw [heq] at hset
    omega
  cases hstep with
  | postWrite hstatus hfate status hnext =>
    have hbefore : unnotified w = true := by simp [unnotified, hstatus]
    have hafter : unnotified { w with status } = false := by
      rcases hnext with rfl | rfl
      · simp [unnotified, hfate]
      · simp [unnotified, hfate]
    rw [hbefore, hafter] at hset
    simp only [if_true, Bool.false_eq_true, if_false] at hset
    have hneeded : s.latch.latch.needed ≠ 0 := by omega
    simp only [FoldingLatch.notify, if_pos hneeded, Latch.countDown]
    omega
  | resume hstatus => exact unchanged (by simp [unnotified, hstatus])
  | finish hstatus hfate => exact unchanged (by simp [unnotified, hstatus])
  | failBefore hstatus hfate => exact unchanged (by simp [unnotified, hfate])
  | failAfter hstatus hfate => exact unchanged (by simp [unnotified, hstatus])

theorem Valid.write (h : Valid batch s) (hw : s.writes[i]? = some w) {mid : Writing}
    {status : Status} (hstep : WriteStep s w mid status) : Valid batch (setStatus mid i w status) := by
  have hmem : w ∈ s.writes := mem_of_getElem? hw
  have hcounted := h.counted_step hw hstep
  have hmid : mid.writes = s.writes ∧ mid.dirs = s.dirs ∧ mid.scheduler = s.scheduler ∧
      mid.woken = s.woken := by
    cases hstep <;> exact ⟨rfl, rfl, rfl, rfl⟩
  have hstatus : w.status ≠ .done ∧ (status = .done → w.fate = .succeeds) ∧
      (status = .failed → w.fate ≠ .succeeds) := by
    cases hstep with
    | postWrite hstatus _ _ hnext => rcases hnext with rfl | rfl <;> simp [hstatus]
    | resume hstatus => simp [hstatus]
    | finish hstatus hfate => simp [hstatus, hfate]
    | failBefore hstatus hfate => simp [hstatus, hfate]
    | failAfter hstatus hfate => simp [hstatus, hfate]
  obtain ⟨hwrites, hdirs, hscheduler, hwoken⟩ := hmid
  obtain ⟨hnotDone, hdone, hfailed⟩ := hstatus
  constructor
  · obtain ⟨hi, rfl⟩ := List.getElem?_eq_some_iff.mp hw
    have hi' : i < (s.writes.map BlobWrite.fate).length := by simpa using hi
    have hself := set_getElem_self hi'
    rw [getElem_map] at hself
    rw [setStatus, hwrites, map_set, ← h.fates]
    exact hself
  · rw [setStatus, hwrites]
    exact hcounted
  · intro x hx
    rw [setStatus, hwrites] at hx
    rcases mem_or_eq_of_mem_set hx with hx | rfl
    · exact h.done x hx
    · exact hdone
  · intro x hx
    rw [setStatus, hwrites] at hx
    rcases mem_or_eq_of_mem_set hx with hx | rfl
    · exact h.failed x hx
    · exact hfailed
  · rw [setStatus, hdirs]
    exact h.dirs
  · intro hwoke
    rw [setStatus, hscheduler] at hwoke
    exact absurd ((h.woke hwoke).1 w hmem) hnotDone
  · rw [setStatus, hscheduler]
    exact h.raised
  · rw [setStatus, hscheduler, hwoken]
    exact h.unwoken

theorem Valid.succeeds (h : Valid batch s) (hsound : batch.NoFailure) (hw : w ∈ s.writes) :
    w.fate = .succeeds := by
  obtain ⟨w', hw', hfate⟩ := mem_map.mp (h.fates ▸ mem_map_of_mem hw)
  exact hfate ▸ (noFailure_iff.mp hsound).1 w' hw'

theorem Valid.step (h : Valid batch s) (hexec : exec batch s e = some s') : Valid batch s' := by
  rcases exec_cases hexec with ⟨i, w, mid, status, hw, hstep, rfl⟩ | ⟨hdirs, rfl⟩ |
      ⟨hrun, hdone, hdirs, rfl⟩ | ⟨hrun, hwhy, rfl⟩
  · exact h.write hw hstep
  · refine ⟨h.fates, h.counted, h.done, h.failed, .inr rfl, fun hwoke => ?_, h.raised, h.unwoken⟩
    have hsynced := (h.woke hwoke).2.1
    rw [hdirs] at hsynced
    cases hsynced
  · exact ⟨h.fates, h.counted, h.done, h.failed, h.dirs, fun _ => ⟨hdone, hdirs, rfl⟩, nofun,
      fun hne => absurd rfl hne⟩
  · refine ⟨h.fates, h.counted, h.done, h.failed, h.dirs, nofun, fun _ hsound => ?_,
      fun _ => h.unwoken (by simp [hrun])⟩
    rcases hwhy with ⟨w, hw, hfailed⟩ | hdirs
    · exact h.failed w hw hfailed (h.succeeds hsound hw)
    · have hsynced := h.dirs
      simp [hdirs, hsound.2] at hsynced

/-! ### When a batch does not block -/

/-- Every write is finished or on the latch, and the latch is not released. -/
def Blocked (s : Writing) : Prop :=
  (∀ w ∈ s.writes, w.status = .done ∨ w.status = .failed ∨ w.status = .waiting) ∧ ¬ released s

instance (s : Writing) : Decidable (Blocked s) := inferInstanceAs (Decidable (_ ∧ _))

/-- No reachable state is blocked, every run ends, and when it does all writes are finished and all
clients woken. -/
structure DoesNotBlock (batch : Batch) : Prop where
  unblocked : ∀ events s, Leads (exec batch) batch.initial events s → ¬ Blocked s
  ends : ∃ n, ∀ events s, Leads (exec batch) batch.initial events s → events.length ≤ n
  settled : ∀ events s, Leads (exec batch) batch.initial events s → Stuck (exec batch) s →
    (∀ w ∈ s.writes, w.status = .done ∨ w.status = .failed) ∧
      ∀ client < batch.clients.length, client ∈ s.woken

theorem valid_of_leads {events : List Event} (h : Leads (exec batch) batch.initial events s) :
    Valid batch s :=
  Leads.invariant (fun _ _ _ hs hexec => hs.step hexec) (valid_initial batch) h

/-- Without failures, the latch counts the writes that are not yet in `post_write`. -/
theorem Valid.released (h : Valid batch s) (hsound : batch.NoFailure)
    (hwritten : ∀ w ∈ s.writes, w.status ≠ .writing) : released s := by
  refine Latch.finished_iff.mpr (h.counted.trans (countP_eq_zero.mpr fun w hw => ?_))
  simp [unnotified, hwritten w hw, h.succeeds hsound hw]

theorem Valid.settled (h : Valid batch s) (hsound : batch.NoFailure) (hstuck : Stuck (exec batch) s) :
    (∀ w ∈ s.writes, w.status = .done) ∧ s.woken = List.range batch.clients.length := by
  have hwritten : ∀ w ∈ s.writes, w.status ≠ .writing := by
    intro w hw hstatus
    obtain ⟨i, hi⟩ := mem_iff_getElem?.mp hw
    have hnone := hstuck (.postWrite i)
    simp [exec, hi, hstatus, h.succeeds hsound hw] at hnone
  have hreleased := h.released hsound hwritten
  have hdone : ∀ w ∈ s.writes, w.status = .done := by
    intro w hw
    obtain ⟨i, hi⟩ := mem_iff_getElem?.mp hw
    cases hstatus : w.status with
    | writing => exact absurd hstatus (hwritten w hw)
    | waiting =>
      have hnone := hstuck (.resume i)
      simp [exec, hi, hstatus, hreleased] at hnone
    | syncing =>
      have hnone := hstuck (.finish i)
      simp [exec, hi, hstatus, h.succeeds hsound hw] at hnone
    | done => rfl
    | failed => exact absurd (h.succeeds hsound hw) (h.failed w hw hstatus)
  have hdirs : s.dirs = .done := by
    rcases h.dirs with hwaiting | hdirs
    · have hnone := hstuck .syncDirs
      simp [exec, hwaiting, hreleased] at hnone
    · rwa [if_pos hsound.2] at hdirs
  cases hscheduler : s.scheduler with
  | running =>
    have hnone := hstuck .wake
    rw [exec, if_pos ⟨hscheduler, hdone, hdirs⟩] at hnone
    cases hnone
  | woke => exact ⟨hdone, (h.woke hscheduler).2.2⟩
  | raised => exact absurd hsound (h.raised hscheduler)

/-- The file of the first client's blob cannot be created. -/
def oneFails : Batch where
  clients := [[([0], .failsBefore)], [([1], .succeeds)]]
  dirsSync := true
  nonempty := by decide

/-- The latch has the parent directory of every blob that is in its file. -/
def Noted (s : Writing) : Prop :=
  ∀ w ∈ s.writes, w.status ≠ .writing → w.fate ≠ .failsBefore → w.parentDir ∈ s.latch.acc

/-- Once a client is woken, all files of the batch and all their directories are synced. -/
def WokenDurably (s : Writing) : Prop :=
  s.woken ≠ [] → s.dirs = .done ∧ ∀ w ∈ s.writes, w.status = .done ∧ w.parentDir ∈ s.latch.acc

theorem Noted.step (h : Noted s) (hvalid : Valid batch s) (hexec : exec batch s e = some s') :
    Noted s' := by
  obtain ⟨i, w, mid, status, hw, hstep, rfl⟩ | ⟨-, rfl⟩ | ⟨-, -, -, rfl⟩ | ⟨-, -, rfl⟩ := exec_cases hexec
  · have hmem := mem_of_getElem? hw
    cases hstep with
    | postWrite hstatus =>
      -- the write still counts, so the latch is not released and takes its directory
      have hneeded : s.latch.latch.needed ≠ 0 := by
        rw [hvalid.counted]
        exact (countP_pos_iff.mpr ⟨w, hmem, by simp [unnotified, hstatus]⟩).ne'
      intro x hx hwriting hfate
      simp only [setStatus, FoldingLatch.notify, if_pos hneeded] at hx ⊢
      obtain hx | rfl := mem_or_eq_of_mem_set hx
      · have hnoted := h x hx hwriting hfate
        split <;> simp [hnoted]
      · split <;> simp [*]
    | _ =>
      intro x hx hwriting hfate
      obtain hx | rfl := mem_or_eq_of_mem_set hx
      · exact h x hx hwriting hfate
      · exact h w hmem (by simp_all) hfate
  all_goals exact h

theorem woken_durably (batch : Batch) (events : List Event) :
    WokenDurably (run (exec batch) batch.initial events) := by
  obtain ⟨hvalid, hnoted⟩ := run_invariant (P := fun s => Valid batch s ∧ Noted s)
    (fun s e s' h hexec => ⟨h.1.step hexec, h.2.step h.1 hexec⟩) events
    ⟨valid_initial batch, fun w hw hstatus => absurd (status_of_mem_writesOf hw) hstatus⟩
  intro hwoken
  obtain ⟨hdone, hdirs, -⟩ := hvalid.woke (not_imp_comm.mp hvalid.unwoken hwoken)
  refine ⟨hdirs, fun w hw => ⟨hdone w hw, hnoted w hw (by simp [hdone w hw]) ?_⟩⟩
  simp [hvalid.done w hw (hdone w hw)]

end Batch

end Alba.Asd
