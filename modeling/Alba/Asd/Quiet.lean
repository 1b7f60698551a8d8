import Alba.Asd.Recovery

/-! The steps of a device that neither take up a request nor commit one: files are written and removed,
asserts are looked at, requests fail, the log is synced and the device starts up. What is stored stays as
it is. -/

namespace Alba.Asd

open Nsm ProofKit Std List

section Steps

structure SameContent (a b : Db) : Prop where
  values : b.values = a.values
  mapping : b.fileToKeyMapping = a.fileToKeyMapping
  applied : b.applied = a.applied

namespace SameContent

theorem refl (a : Db) : SameContent a a := ⟨rfl, rfl, rfl⟩

theorem trans {a b c : Db} (h : SameContent a b) (h' : SameContent b c) : SameContent a c :=
  ⟨h'.values.trans h.values, h'.mapping.trans h.mapping, h'.applied.trans h.applied⟩

end SameContent

/-- The batch of the request is in the database. -/
def Phase.isCommitted : Phase → Bool
  | .committed _ | .cleaning _ _ => true
  | .writing _ | .asserted _ _ | .failed _ => false

/-- A request goes on without being committed. -/
structure Moved (s : State) (r r' : Request) : Prop where
  id : r'.id = r.id
  asserts : r'.asserts = r.asserts
  updates : r'.updates = r.updates
  committed : r'.phase.isCommitted = r.phase.isCommitted
  checked : ∀ attempt values, r'.phase = .asserted attempt values → r.phase = .asserted attempt values ∨
    ∃ read, r.asserts.mapM s.transformAssert = some read ∧ values = read.filterMap (fun x => x)

theorem Moved.refl (s : State) (r : Request) : Moved s r r := ⟨rfl, rfl, rfl, rfl, fun _ _ h => .inl h⟩

/-- A step that neither takes up a request nor commits one. -/
structure Quiet (s s' : State) : Prop where
  content : SameContent s.db s'.db
  marks : ∀ fnr ∈ s'.loggedDb.toBeDeleted, fnr ∈ s.loggedDb.toBeDeleted
  pending : ∀ fnr ∈ s'.pending, fnr ∈ s.pending
  files : ∀ fnr ∉ s.pending, s'.files[fnr]? = s.files[fnr]? ∨ s'.files[fnr]? = none
  started : s'.started = s.started
  ids : s'.requests.map Request.id = s.requests.map Request.id
  requests : ∀ r' ∈ s'.requests, ∃ r ∈ s.requests, Moved s r r'
  server : s'.server = s.server ∨ s.Stopped

variable {s s' : State} {i fnr : Nat} {r r' : Request}

theorem Quiet.refl (s : State) : Quiet s s where
  content := .refl _
  marks _ h := h
  pending _ h := h
  files _ _ := .inl rfl
  started := rfl
  ids := rfl
  requests r hr := ⟨r, hr, .refl s r⟩
  server := .inl rfl

theorem quiet_request (hr : s.requests[i]? = some r) (hmoved : Moved s r r')
    (hsub : r'.files.Sublist r.files) (hrequests : s'.requests = s.requests.set i r')
    (hcontent : SameContent s.db s'.db) (hmarks : ∀ fnr ∈ s'.loggedDb.toBeDeleted, fnr ∈ s.loggedDb.toBeDeleted)
    (hfiles : ∀ fnr ∉ s.pending, s'.files[fnr]? = s.files[fnr]? ∨ s'.files[fnr]? = none)
    (hstarted : s'.started = s.started) (hserver : s'.server = s.server) : Quiet s s' where
  content := hcontent
  marks := hmarks
  pending fnr hfnr := by
    rw [State.pending, hrequests] at hfnr
    exact (flatMap_set_sublist hr hsub).subset hfnr
  files := hfiles
  started := hstarted
  ids := by
    obtain ⟨hi, rfl⟩ := List.getElem?_eq_some_iff.mp hr
    rw [hrequests, map_set, hmoved.id, ← map_set, set_getElem_self]
  requests r₁ hr₁ := by
    rw [hrequests] at hr₁
    rcases mem_or_eq_of_mem_set hr₁ with hr₁ | rfl
    · exact ⟨r₁, hr₁, .refl s r₁⟩
    · exact ⟨r, mem_of_getElem? hr, hmoved⟩
  server := .inl hserver

theorem quiet_phase (hr : s.requests[i]? = some r) {phase : Phase}
    (hcommitted : phase.isCommitted = r.phase.isCommitted)
    (hchecked : ∀ attempt values, phase = .asserted attempt values → r.phase = .asserted attempt values ∨
      ∃ read, r.asserts.mapM s.transformAssert = some read ∧ values = read.filterMap (fun x => x)) :
    Quiet s (s.withRequest i { r with phase }) := by
  have hmoved : Moved s r { r with phase } := ⟨rfl, rfl, rfl, hcommitted, hchecked⟩
  exact quiet_request hr hmoved (List.Sublist.refl _) rfl (.refl _) (fun _ h => h) (fun _ _ => .inl rfl)
    rfl rfl

theorem quiet_file (hr : s.requests[i]? = some r) (hfnr : fnr ∈ r.files) {created written : List Nat}
    {content : Blob} :
    Quiet s { s.withRequest i { r with created, written } with files := s.files.insert fnr content } := by
  have hmoved : Moved s r { r with created, written } := ⟨rfl, rfl, rfl, rfl, fun _ _ h => .inl h⟩
  refine quiet_request hr hmoved (List.Sublist.refl _) rfl (.refl _) (fun _ h => h) (fun f hf => ?_) rfl rfl
  have hne : fnr ≠ f := fun heq => hf (mem_flatMap.mpr ⟨r, mem_of_getElem? hr, heq ▸ hfnr⟩)
  exact .inl (by simp [ExtTreeMap.getElem?_insert, hne])

section Disk

theorem db_write (w : Write) : (s.write w).db = s.db.apply w := by
  simp [State.db, State.write, Disk.view, Disk.write]

theorem content_writeUnlogged {w : Write} (hw : w.logged = false) : SameContent s.db (s.write w).db := by
  rw [db_write]
  cases w with
  | batch | checkGarbageFrom => cases hw
  | removeToBeDeleted | advanceCheckGarbageFrom => exact ⟨rfl, rfl, rfl⟩

theorem content_removeToBeDeleted (fnrs : List Nat) : SameContent s.db (s.removeToBeDeleted fnrs).db := by
  unfold State.removeToBeDeleted
  induction fnrs generalizing s with
  | nil => exact .refl _
  | cons fnr fnrs ih => exact (content_writeUnlogged (by rfl)).trans ih

theorem loggedDb_removeToBeDeleted (fnrs : List Nat) :
    (s.removeToBeDeleted fnrs).loggedDb = s.loggedDb := by
  unfold State.removeToBeDeleted
  induction fnrs generalizing s with
  | nil => rfl
  | cons fnr fnrs ih =>
    rw [foldl_cons, ih]
    exact loggedDb_write_unlogged rfl

theorem quiet_disk {disk : Disk Db Write} (hcontent : SameContent s.db (State.db { s with disk }))
    (hmarks : ∀ fnr ∈ (State.loggedDb { s with disk }).toBeDeleted, fnr ∈ s.loggedDb.toBeDeleted) :
    Quiet s { s with disk } :=
  { Quiet.refl s with content := hcontent, marks := hmarks }

theorem quiet_removeToBeDeleted (fnrs : List Nat) : Quiet s (s.removeToBeDeleted fnrs) := by
  have hcontent := content_removeToBeDeleted (s := s) fnrs
  have hlogged := loggedDb_removeToBeDeleted (s := s) fnrs
  obtain ⟨disk, hdisk⟩ := removeToBeDeleted_eq (s := s) fnrs
  rw [hdisk] at hcontent hlogged ⊢
  exact quiet_disk hcontent fun fnr h => by rwa [hlogged] at h

theorem quiet_write {w : Write} (hw : w.logged = false) : Quiet s (s.write w) := by
  refine quiet_disk (content_writeUnlogged hw) fun fnr h => ?_
  rwa [← loggedDb_write_unlogged hw]

theorem db_flush (n : Nat) : (s.disk.flush Db.apply n).view Db.apply = s.disk.view Db.apply := by
  rw [Disk.view, Disk.flush, ← foldl_append, take_append_drop, Disk.view]

theorem quiet_flush {n : Nat} (hn : n ≤ s.disk.history.length) :
    Quiet s { s with disk := s.disk.flush Db.apply n } := by
  have hdb : State.db { s with disk := s.disk.flush Db.apply n } = s.db := db_flush n
  refine quiet_disk (hdb ▸ .refl _) fun fnr h => ?_
  have hweaker := weakening.flush (d := s.disk) n (s.disk.flush Db.apply n).history.length
  have hlength : n + (s.disk.flush Db.apply n).history.length = s.disk.history.length := by
    simp only [Disk.flush, length_drop]
    omega
  rw [hlength] at hweaker
  exact hweaker.toBeDeleted fnr h

theorem files_erase (fnr f : Nat) :
    (s.files.erase fnr)[f]? = s.files[f]? ∨ (s.files.erase fnr)[f]? = none := by
  by_cases hf : fnr = f
  · exact .inr (by simp [hf])
  · exact .inl (by simp [ExtTreeMap.getElem?_erase, hf])

theorem quiet_maybeDeleteFile : Quiet s (s.maybeDeleteFile fnr) := by
  unfold State.maybeDeleteFile
  split
  · exact .refl s
  · have hwrite : Quiet s (s.write (.removeToBeDeleted fnr)) := quiet_write rfl
    exact { hwrite with files := fun f _ => files_erase fnr f }

theorem Quiet.withServer (h : Quiet s s') (hstopped : s.Stopped) (server : Server) :
    Quiet s { s' with server } :=
  { h with server := .inr hstopped }

end Disk

theorem transformAsserts_quiet (hr : s.requests[i]? = some r) {attempt : Nat}
    (hphase : r.phase = .writing attempt) : Quiet s (s.transformAsserts i attempt r) := by
  unfold State.transformAsserts
  split
  · rename_i read hread
    refine quiet_phase hr (by simp [hphase, Phase.isCommitted]) fun attempt' values hvalues => ?_
    cases hvalues
    exact .inr ⟨read, hread, rfl⟩
  · exact quiet_phase hr (by simp [hphase, Phase.isCommitted]) (by simp)

theorem tryApplyImmediate_quiet (hr : s.requests[i]? = some r) {attempt : Nat}
    {values : List (Bytes × (Checksum × Value))} (hphase : r.phase = .asserted attempt values)
    {refusal : Refusal} (hrefused : checkAsserts s.db r.asserts values = .error refusal) :
    Quiet s (s.tryApplyImmediate i attempt values r) := by
  unfold State.tryApplyImmediate
  rw [hrefused]
  cases refusal with
  | assertFailed => exact quiet_phase hr (by simp [hphase, Phase.isCommitted]) (by simp)
  | concurrentModification =>
    dsimp only
    split
    · exact quiet_phase hr (by simp [hphase, Phase.isCommitted]) (by simp)
    · exact quiet_phase hr (by simp [hphase, Phase.isCommitted]) (by simp)

theorem serve_quiet (hserver : s.server = .cleaned) : Quiet s s.serve := by
  have hdb : s.serve.db = s.db.apply (.checkGarbageFrom s.db.nextFnr) := db_write _
  have hlogged : s.serve.loggedDb = s.loggedDb.apply (.checkGarbageFrom s.db.nextFnr) := by
    have hlength : (s.disk.write (.checkGarbageFrom s.db.nextFnr)).history.length =
        s.disk.history.length + 1 := by
      simp [Disk.write]
    change (s.disk.write (.checkGarbageFrom s.db.nextFnr)).loggedAt Db.apply Write.logged
      (s.disk.write (.checkGarbageFrom s.db.nextFnr)).history.length = _
    rw [hlength, Disk.loggedAt_write_length]
    rfl
  have hdisk : Quiet s { s with disk := s.serve.disk } := by
    refine quiet_disk (hdb ▸ ⟨rfl, rfl, rfl⟩) fun fnr h => ?_
    have hserved : fnr ∈ s.serve.loggedDb.toBeDeleted := h
    rwa [hlogged] at hserved
  exact hdisk.withServer (by simp [State.Stopped, hserver]) _

/-- What is left of the steps of a device. -/
def Action.isQuiet : Action → Bool
  | .apply _ _ | .tryApplyImmediate _ | .crash _ _ => false
  | _ => true

theorem exec_quiet {action : Action} (haction : action.isQuiet = true) (h : exec s action = some s') :
    Quiet s s' := by
  cases action with
  | apply | tryApplyImmediate | crash => cases haction
  | createFile i fnr content =>
    simp only [exec, Option.bind_eq_some_iff, Option.ite_none_right_eq_some] at h
    obtain ⟨r, hr, ⟨hfnr, _, _⟩, h⟩ := h
    cases h
    exact quiet_file hr hfnr
  | writeBlob i fnr =>
    simp only [exec, Option.bind_eq_some_iff, Option.ite_none_right_eq_some] at h
    obtain ⟨r, hr, blob, _, ⟨hfnr, _⟩, h⟩ := h
    cases h
    exact quiet_file hr hfnr
  | transformAsserts i =>
    simp only [exec, Option.bind_eq_some_iff] at h
    obtain ⟨r, hr, h⟩ := h
    split at h
    · rename_i attempt hphase
      obtain ⟨_, h⟩ := Option.ite_none_right_eq_some.mp h
      cases h
      exact transformAsserts_quiet hr hphase
    · cases h
  | syncRocksdb i =>
    simp only [exec, Option.bind_eq_some_iff] at h
    obtain ⟨r, hr, h⟩ := h
    split at h
    · rename_i filesToDelete hphase
      cases h
      have hnext : Quiet s (s.withRequest i { r with phase := .cleaning filesToDelete filesToDelete }) :=
        quiet_phase hr (by simp [hphase, Phase.isCommitted]) (by simp)
      exact { hnext with }
    · cases h
  | unlink i fnr =>
    simp only [exec, Option.bind_eq_some_iff] at h
    obtain ⟨r, hr, h⟩ := h
    split at h
    · rename_i unlinks filesToDelete hphase
      obtain ⟨_, h⟩ := Option.ite_none_right_eq_some.mp h
      cases h
      have hnext : Quiet s (s.withRequest i
          { r with phase := .cleaning (unlinks.filter fun f => f ≠ fnr) filesToDelete }) :=
        quiet_phase hr (by simp [hphase, Phase.isCommitted]) (by simp)
      exact { hnext with files := fun f _ => files_erase fnr f }
    · cases h
  | removeToBeDeleted i =>
    simp only [exec, Option.bind_eq_some_iff] at h
    obtain ⟨r, hr, h⟩ := h
    split at h
    · rename_i filesToDelete hphase
      cases h
      have hdeleted := quiet_removeToBeDeleted (s := s) filesToDelete
      have hnext : Quiet s (s.withRequest i { r with phase := .cleaning [] [] }) :=
        quiet_phase hr (by simp [hphase, Phase.isCommitted]) (by simp)
      obtain ⟨disk, hdisk⟩ := removeToBeDeleted_eq (s := s) filesToDelete
      rw [hdisk] at hdeleted ⊢
      exact { hnext with content := hdeleted.content, marks := hdeleted.marks }
    · cases h
  | fail i =>
    simp only [exec, Option.bind_eq_some_iff] at h
    obtain ⟨r, hr, h⟩ := h
    split at h
    · rename_i hphase
      cases h
      exact quiet_phase hr (by simp [hphase, Phase.isCommitted]) (by simp)
    · rename_i hphase
      cases h
      exact quiet_phase hr (by simp [hphase, Phase.isCommitted]) (by simp)
    · cases h
  | removeFile i fnr =>
    simp only [exec, Option.bind_eq_some_iff] at h
    obtain ⟨r, hr, h⟩ := h
    split at h
    · obtain ⟨_, h⟩ := Option.ite_none_right_eq_some.mp h
      have hmoved : Moved s r { r with files := r.files.filter fun f => f ≠ fnr } :=
        ⟨rfl, rfl, rfl, rfl, fun _ _ h => .inl h⟩
      split at h
      · cases h
        exact quiet_request hr hmoved filter_sublist rfl (.refl _) (fun _ h => h)
          (fun f _ => files_erase fnr f) rfl rfl
      · cases h
        have hdeleted : Quiet s (s.maybeDeleteFile fnr) := quiet_maybeDeleteFile
        have hrequests : (s.maybeDeleteFile fnr).requests = s.requests := by
          unfold State.maybeDeleteFile
          split <;> rfl
        refine quiet_request hr hmoved filter_sublist ?_ hdeleted.content hdeleted.marks hdeleted.files
          hdeleted.started server_maybeDeleteFile
        rw [State.withRequest, hrequests]
    · cases h
  | release fnr =>
    simp only [exec] at h
    split at h
    · cases h
      exact quiet_write rfl
    · cases h
  | flush n =>
    obtain ⟨hn, h⟩ := Option.ite_none_right_eq_some.mp h
    cases h
    exact quiet_flush hn
  | start | listToBeDeleted =>
    simp only [exec] at h
    split at h
    · rename_i hserver
      cases h
      exact (Quiet.refl s).withServer (by simp [State.Stopped, hserver]) _
    · cases h
  | collect fnr =>
    simp only [exec] at h
    split at h
    · rename_i todo hserver
      obtain ⟨_, h⟩ := Option.ite_none_right_eq_some.mp h
      cases h
      exact quiet_maybeDeleteFile.withServer (by simp [State.Stopped, hserver]) _
    · cases h
  | startupUnlink fnr =>
    simp only [exec] at h
    split at h
    · rename_i unlinks filesToDelete hserver
      obtain ⟨_, h⟩ := Option.ite_none_right_eq_some.mp h
      cases h
      exact { (Quiet.refl s).withServer (by simp [State.Stopped, hserver]) _ with
        files := fun f _ => files_erase fnr f }
    · cases h
  | startupRemoveToBeDeleted =>
    simp only [exec] at h
    split at h
    · rename_i filesToDelete hserver
      cases h
      exact (quiet_removeToBeDeleted filesToDelete).withServer (by simp [State.Stopped, hserver]) _
    · cases h
  | serve =>
    simp only [exec] at h
    split at h
    · rename_i hserver
      cases h
      exact serve_quiet hserver
    · cases h

end Steps

end Alba.Asd
