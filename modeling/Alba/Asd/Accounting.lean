import Alba.Asd.Mgmt
import Alba.Asd.Quiet

/-! The Apply requests of a device as atomic operations: what is stored is the result of the committed
requests in their order, and the disk usage is the size of what is stored. -/

namespace Alba.Asd

open List hiding next
open Nsm ProofKit Std

section Sizes

variable {db : Db} {us : List Immediate}

theorem sizeDelta_eq_sum (db : Db) (us : List Immediate) :
    sizeDelta db us = (us.map fun u => sizeOf? u.value - sizeOf? db.values[u.key]?).sum := by
  have h : ∀ (us : List Immediate) (delta : Int),
      us.foldl (fun delta u => delta - sizeOf? db.values[u.key]? + sizeOf? u.value) delta =
        delta + (us.map fun u => sizeOf? u.value - sizeOf? db.values[u.key]?).sum := by
    intro us
    induction us with
    | nil => simp
    | cons u us ih =>
      intro delta
      simp only [foldl_cons, map_cons, sum_cons, ih]
      omega
  rw [sizeDelta, h, Int.zero_add]

theorem size_nonneg (db : Db) : 0 ≤ db.size := by
  refine sum_nonneg fun x hx => ?_
  obtain ⟨e, _, rfl⟩ := mem_map.mp hx
  exact Int.natCast_nonneg _

theorem size_afterBatch (hkeys : (us.map Immediate.key).Nodup) (id : Nat) :
    (afterBatch db db id us).size = db.size + sizeDelta db us := by
  let size : Bytes → Checksum × Value → Int := fun _ value => value.2.getSize
  have hout : ∀ key ∉ (us.map Immediate.key).toFinset,
      share size (afterBatch db db id us).values key = share size db.values key := by
    intro key hkey
    have hnone : us.find? (fun u => u.key = key) = none := by
      rw [find?_eq_none]
      intro u hu hukey
      refine hkey (mem_toFinset.mpr (mem_map.mpr ⟨u, hu, by simpa using hukey⟩))
    have hvalue : (afterBatch db db id us).values[key]? = _ := values_batch hkeys
    rw [share, hvalue, hnone]
    rfl
  rw [Db.size, total_change _ hout, sum_toFinset _ hkeys, map_map, sizeDelta_eq_sum]
  congr 2
  refine map_congr_left fun u hu => ?_
  have hfind : us.find? (fun v => v.key = u.key) = some u := find?_of_nodup hkeys hu
  have hvalue : (afterBatch db db id us).values[u.key]? = _ := values_batch hkeys
  simp only [Function.comp_apply, share, hvalue, hfind]
  rfl

end Sizes

theorem assign_update (us : List Update) (n : Nat) :
    (Immediate.assign us n).map Immediate.update = us := by
  fun_induction Immediate.assign us n <;> simp_all [Immediate.update]

/-! ### What the asserts of a request rely on -/

section Asserts

/-- The value is read as the blob for as long as a key has it. -/
def Reads (s : State) (blob : Blob) : Value → Prop
  | .direct stored => stored = blob
  | .onFs fnr _ => s.Gone fnr ∧ (s.files[fnr]? = some blob ∨ s.files[fnr]? = none)

/-- The blobs that the asserts want have been found in these values. -/
def Checked (s : State) (asserts : List Assert) (values : List (Bytes × (Checksum × Value))) : Prop :=
  ∀ a ∈ asserts, ∀ blob, a.expected = some blob →
    ∃ value, (a.key, value) ∈ values ∧ Reads s blob value.2

variable {s s' : State} {asserts : List Assert} {values : List (Bytes × (Checksum × Value))}

theorem Checked.mono (h : Checked s asserts values)
    (hreads : ∀ blob value, Reads s blob value → Reads s' blob value) : Checked s' asserts values := by
  intro a ha blob hblob
  obtain ⟨value, hmem, hvalue⟩ := h a ha blob hblob
  exact ⟨value, hmem, hreads blob value.2 hvalue⟩

theorem Quiet.gone (h : Quiet s s') (hserver : s'.server = s.server) {fnr : Nat} (hgone : s.Gone fnr) :
    s'.Gone fnr :=
  ⟨fun hmem => hgone.1 (h.pending fnr hmem), fun next hnext => hgone.2 next (hserver ▸ hnext)⟩

theorem Quiet.reads (h : Quiet s s') (hserver : s'.server = s.server) {blob : Blob} {value : Value}
    (hreads : Reads s blob value) : Reads s' blob value := by
  cases value with
  | direct => exact hreads
  | onFs fnr size =>
    obtain ⟨hgone, hfile⟩ := hreads
    refine ⟨h.gone hserver hgone, ?_⟩
    rcases h.files fnr hgone.1 with hsame | hnone
    · rwa [hsame]
    · exact .inr hnone

theorem Sound.gone_of_value (hs : Sound s) {key : Bytes} {c : Checksum} {fnr size : Nat}
    (h : s.db.values[key]? = some (c, .onFs fnr size)) : s.Gone fnr := by
  have hmapped : s.loggedDb.fileToKeyMapping[fnr]? = some key := by
    rw [(weaker_db s).values] at h
    exact (hs.consistent.now.mapped fnr key).mpr ⟨c, size, h⟩
  refine ⟨fun hpending => ?_, hs.below.now fnr key hmapped⟩
  rw [(hs.pending fnr hpending).1.now] at hmapped
  cases hmapped

theorem checked_of_read (hs : Sound s) {read : List (Option (Bytes × (Checksum × Value)))}
    (h : asserts.mapM s.transformAssert = some read) : Checked s asserts (read.filterMap fun x => x) := by
  intro a ha blob hblob
  obtain ⟨x, hx, hread⟩ := mapM_some_mem h a ha
  simp only [State.transformAssert, hblob, Option.bind_eq_some_iff, Option.ite_none_right_eq_some,
    Option.some.injEq] at hread
  obtain ⟨value, hvalue, hfound, rfl⟩ := hread
  refine ⟨value, mem_filterMap.mpr ⟨_, hx, rfl⟩, ?_⟩
  obtain ⟨c, stored | ⟨fnr, size⟩⟩ := value
  · exact Option.some.inj hfound
  · obtain ⟨hfile, _⟩ := Option.filter_eq_some_iff.mp hfound
    exact ⟨hs.gone_of_value hvalue, .inl hfile⟩

theorem checkAsserts_eq_ok {db : Db} (h : checkAsserts db asserts values = .ok ()) :
    (∀ a ∈ asserts, a.expected = none → db.values[a.key]? = none) ∧
      ∀ v ∈ values, db.values[v.1]? = some v.2 := by
  rw [checkAsserts, bind_eq_ok] at h
  obtain ⟨_, hasserts, hvalues⟩ := h
  refine ⟨fun a ha => check_eq_ok.mp (forM_eq_ok hasserts a ha), fun v hv => ?_⟩
  have hv := forM_eq_ok hvalues v hv
  rw [bind_eq_ok] at hv
  obtain ⟨_, _, hsame⟩ := hv
  exact check_eq_ok.mp hsame

/-- The asserts hold for what the clients expect to be stored. -/
def AssertsHold (owed : Bytes → Option (Blob × Checksum)) (asserts : List Assert) : Prop :=
  ∀ a ∈ asserts, (owed a.key).map Prod.fst = a.expected

theorem assertsHold_of_check (hs : Sound s) (hchecked : Checked s asserts values)
    (h : checkAsserts s.db asserts values = .ok ()) : AssertsHold (expected s.db.applied) asserts := by
  obtain ⟨hnone, hsome⟩ := checkAsserts_eq_ok h
  have hconsistent : Consistent s.files s.db := hs.consistent.now.weaker (weaker_db s)
  intro a ha
  have hholds := hconsistent.holds a.key
  cases hexpected : a.expected with
  | none =>
    rw [hnone a ha hexpected] at hholds
    rw [show expected s.db.applied a.key = none from hholds]
    rfl
  | some blob =>
    obtain ⟨⟨c, value⟩, hmem, hreads⟩ := hchecked a ha blob hexpected
    rw [hsome _ hmem] at hholds
    cases value with
    | direct stored =>
      have hstored : stored = blob := hreads
      rw [show expected s.db.applied a.key = some (stored, c) from hholds, hstored]
      rfl
    | onFs fnr size =>
      obtain ⟨_, hfile⟩ := hreads
      obtain ⟨found, hfound, _, howed⟩ := hholds
      rw [hfound] at hfile
      obtain hfile | hfile := hfile
      · cases hfile
        rw [howed]
        rfl
      · cases hfile

end Asserts

/-! ### Committed requests -/

def execute (m : Bytes → Option (Blob × Checksum)) (updates : List Update) :
    Bytes → Option (Blob × Checksum) :=
  updates.foldl (fun m u => Function.update m u.key u.value) m

def replay (requests : List (List Update)) : Bytes → Option (Blob × Checksum) :=
  requests.foldl execute fun _ => none

theorem replay_append (requests : List (List Update)) (updates : List Update) :
    replay (requests ++ [updates]) = execute (replay requests) updates :=
  foldl_append

theorem find?_lastUpdates_isSome {us : List Update} {key : Bytes} :
    ((lastUpdates us).find? fun u => u.key = key).isSome = us.any fun u => u.key = key := by
  induction us with
  | nil => rfl
  | cons u us ih =>
    unfold lastUpdates
    split
    · rename_i hagain
      rw [ih, any_cons]
      by_cases hkey : u.key = key
      · rw [hkey] at hagain
        simp [hagain]
      · simp [hkey]
    · rw [find?_cons, any_cons]
      by_cases hkey : u.key = key
      · simp [hkey]
      · simp [hkey, ih]

theorem execute_eq_setBy (m : Bytes → Option (Blob × Checksum)) (us : List Update) (id : Nat) (key : Bytes) :
    execute m us key = setBy key (m key) (id, lastUpdates us) := by
  induction us generalizing m with
  | nil => rfl
  | cons u us ih =>
    have hrest : execute m (u :: us) key = execute (Function.update m u.key u.value) us key := rfl
    rw [hrest, ih]
    unfold setBy
    have hsome : ((lastUpdates us).find? fun v => v.key = key).isSome = us.any fun v => v.key = key :=
      find?_lastUpdates_isSome
    conv_rhs => rw [lastUpdates]
    by_cases hkey : u.key = key
    · subst hkey
      rw [Function.update_self]
      split
      · rename_i hagain
        rw [hagain, Option.isSome_iff_exists] at hsome
        obtain ⟨v, hv⟩ := hsome
        simp [hv]
      · rename_i hlast
        rw [Bool.eq_false_iff.mpr hlast, Option.isSome_eq_false_iff, Option.isNone_iff_eq_none] at hsome
        simp [hsome]
    · rw [Function.update_of_ne (Ne.symm hkey)]
      split
      · rfl
      · simp [hkey]

namespace AsdServer

variable (s : AsdServer)

/-- The asserts and the updates of the request with the given number. -/
def request (i : Nat) : List Assert × List Update := (s.made[i]?).getD ([], [])

/-- The numbers of the requests that are committed, in the order in which they were. -/
def commits : List Nat := s.device.db.applied.map Prod.fst

/-- The key with the blob and the checksum that a client gets for it. -/
def publicMap (key : Bytes) : Option (Blob × Checksum) :=
  s.device.db.values[key]?.bind fun value => (s.device.readValue value.2).map fun blob => (blob, value.1)

end AsdServer

/-- Each of the applied requests was made, and its asserts held for what had been applied before. -/
def Justified (made : List (List Assert × List Update)) (applied : List (Nat × List Update)) : Prop :=
  ∀ before e after, applied = before ++ e :: after → ∃ asserts updates,
    made[e.1]? = some (asserts, updates) ∧ e.2 = lastUpdates updates ∧
      AssertsHold (expected before) asserts

theorem Justified.append {made : List (List Assert × List Update)} {applied : List (Nat × List Update)}
    (h : Justified made applied) {id : Nat} {asserts : List Assert} {updates : List Update}
    (hmade : made[id]? = some (asserts, updates)) (hholds : AssertsHold (expected applied) asserts) :
    Justified made (applied ++ [(id, lastUpdates updates)]) := by
  intro before e after heq
  rcases eq_nil_or_concat after with rfl | ⟨after, last, rfl⟩
  · obtain ⟨rfl, hlast⟩ := append_inj' heq rfl
    cases hlast
    exact ⟨asserts, updates, hmade, rfl, hholds⟩
  · have heq : applied ++ [(id, lastUpdates updates)] = (before ++ e :: after) ++ [last] := by
      rw [heq]
      simp
    exact h before e after (append_inj' heq rfl).1

theorem Justified.mono {made : List (List Assert × List Update)} {applied : List (Nat × List Update)}
    (h : Justified made applied) (more : List (List Assert × List Update)) :
    Justified (made ++ more) applied := by
  intro before e after heq
  obtain ⟨asserts, updates, hmade, hrest⟩ := h before e after heq
  exact ⟨asserts, updates, (getElem?_append_left (List.getElem?_eq_some_iff.mp hmade).1).trans hmade,
    hrest⟩

/-- The accounts of a device: its requests, what they have been checked against, and what is stored. -/
structure Ledger (s : AsdServer) : Prop where
  sound : Sound s.device
  /-- Marks of files are only made by requests. -/
  stopped : s.device.Stopped → s.device.loggedDb.toBeDeleted = []
  marks : ∀ fnr ∈ s.device.loggedDb.toBeDeleted, s.device.Below fnr
  usage : s.mgmt.latestDiskUsage = s.device.db.size
  made : s.made.length = s.device.started
  ids : s.device.requests.map Request.id = List.range s.device.started
  requests : ∀ r ∈ s.device.requests, ∃ updates, s.made[r.id]? = some (r.asserts, updates) ∧
    r.updates.map Immediate.update = lastUpdates updates
  checked : ∀ r ∈ s.device.requests, ∀ attempt values, r.phase = .asserted attempt values →
    Checked s.device r.asserts values
  committed : ∀ r ∈ s.device.requests, r.id ∈ s.commits ↔ r.phase.isCommitted = true
  once : s.commits.Nodup
  known : ∀ i ∈ s.commits, i < s.device.started
  justified : Justified s.made s.device.db.applied

section Ledger

variable {s : AsdServer} {device : State}

theorem Ledger.initial (capacity limit : Int) : Ledger (.initial capacity limit) where
  sound := .initial
  stopped _ := rfl
  marks := by simp [AsdServer.initial, State.loggedDb, State.initial, Disk.loggedAt, Disk.empty, Db.empty]
  usage := by simp [AsdServer.initial, State.db, State.initial, Disk.view, Disk.empty, Db.empty, Db.size]
  made := rfl
  ids := rfl
  requests := by simp [AsdServer.initial, State.initial]
  checked := by simp [AsdServer.initial, State.initial]
  committed := by simp [AsdServer.initial, State.initial]
  once := by simp [AsdServer.commits, AsdServer.initial, State.db, State.initial, Disk.view, Disk.empty, Db.empty]
  known := by simp [AsdServer.commits, AsdServer.initial, State.db, State.initial, Disk.view, Disk.empty, Db.empty]
  justified := by
    intro before e after heq
    simp [AsdServer.initial, State.db, State.initial, Disk.view, Disk.empty, Db.empty] at heq

theorem Ledger.quiet (h : Ledger s) (hsound : Sound device) (hquiet : Quiet s.device device)
    {mgmt : AsdMgmt} (hmgmt : mgmt.latestDiskUsage = s.mgmt.latestDiskUsage) :
    Ledger { s with device, mgmt } := by
  have happlied : AsdServer.commits { s with device, mgmt } = s.commits := by
    rw [AsdServer.commits, AsdServer.commits, hquiet.content.applied]
  have hempty : s.device.Stopped → device.loggedDb.toBeDeleted = [] := fun hstopped =>
    eq_nil_iff_forall_not_mem.mpr fun fnr hfnr => by
      have hold := hquiet.marks fnr hfnr
      rw [h.stopped hstopped] at hold
      cases hold
  constructor
  case sound => exact hsound
  case stopped =>
    intro hstopped
    rcases hquiet.server with hserver | hold
    · exact hempty fun next hnext => hstopped next (hserver.trans hnext)
    · exact hempty hold
  case marks =>
    intro fnr hfnr
    rcases hquiet.server with hserver | hold
    · exact fun next hnext => h.marks fnr (hquiet.marks fnr hfnr) next (hserver ▸ hnext)
    · rw [show device.loggedDb.toBeDeleted = [] from hempty hold] at hfnr
      cases hfnr
  case usage =>
    change mgmt.latestDiskUsage = device.db.size
    rw [hmgmt, h.usage, Db.size, Db.size, hquiet.content.values]
  case made => exact h.made.trans hquiet.started.symm
  case ids =>
    change device.requests.map Request.id = List.range device.started
    rw [hquiet.ids, h.ids, hquiet.started]
  case requests =>
    intro r' hr'
    obtain ⟨r, hr, hmoved⟩ := hquiet.requests r' hr'
    rw [hmoved.id, hmoved.asserts, hmoved.updates]
    exact h.requests r hr
  case checked =>
    intro r' hr' attempt values hphase
    obtain ⟨r, hr, hmoved⟩ := hquiet.requests r' hr'
    have hserver : device.server = s.device.server :=
      hquiet.server.resolve_right fun hstopped => by
        rw [(h.sound.stopped hstopped).1] at hr
        cases hr
    rw [hmoved.asserts]
    have hold : Checked s.device r.asserts values := by
      rcases hmoved.checked attempt values hphase with hphase | ⟨read, hread, rfl⟩
      · exact h.checked r hr attempt values hphase
      · exact checked_of_read h.sound hread
    exact hold.mono fun _ _ => hquiet.reads hserver
  case committed =>
    intro r' hr'
    obtain ⟨r, hr, hmoved⟩ := hquiet.requests r' hr'
    rw [happlied, hmoved.id, hmoved.committed]
    exact h.committed r hr
  case once => rw [happlied]; exact h.once
  case known =>
    rw [happlied]
    intro i hi
    exact lt_of_lt_of_eq (h.known i hi) hquiet.started.symm
  case justified =>
    change Justified s.made device.db.applied
    rw [hquiet.content.applied]
    exact h.justified

theorem Ledger.id_of_place (h : Ledger s) {j : Nat} {r : Request} (hr : s.device.requests[j]? = some r) :
    r.id = j := by
  have hid : (s.device.requests.map Request.id)[j]? = some r.id := by rw [getElem?_map, hr]; rfl
  rw [h.ids, getElem?_range (by
    have hlt := (List.getElem?_eq_some_iff.mp hr).1
    rw [← length_map (f := Request.id), h.ids, length_range] at hlt
    exact hlt)] at hid
  exact (Option.some.inj hid).symm

theorem Ledger.apply (h : Ledger s) {asserts : List Assert} {updates : List Update} {nextFnr : Nat}
    (hserver : s.device.server = .running nextFnr) :
    Ledger { s with
      device := s.device.apply asserts updates nextFnr
      made := s.made ++ [(asserts, updates)] } := by
  set us := Immediate.assign (lastUpdates updates) nextFnr with hus
  have hrange : us.filterMap Immediate.fnr? =
      List.range' nextFnr (us.filterMap Immediate.fnr?).length := assign_numbers _ _
  have hfresh : ∀ fnr ∈ s.device.handedOut updates, fnr ∉ s.device.loggedDb.toBeDeleted := by
    intro fnr hfnr hmark
    have hlt := h.marks fnr hmark nextFnr hserver
    simp only [State.handedOut, hserver, ← hus] at hfnr
    rw [hrange, mem_range'_1] at hfnr
    omega
  have hgone : ∀ fnr, s.device.Gone fnr → (s.device.apply asserts updates nextFnr).Gone fnr := by
    intro fnr hgone
    have hlt := hgone.2 nextFnr hserver
    constructor
    · intro hmem
      simp only [State.pending, State.apply, flatMap_append, flatMap_cons, flatMap_nil,
        append_nil, mem_append] at hmem
      rcases hmem with hmem | hmem
      · exact hgone.1 hmem
      · rw [← hus, hrange, mem_range'_1] at hmem
        omega
    · intro next hnext
      cases hnext
      omega
  have hold : ∀ {r : Request}, r.id < s.made.length →
      (s.made ++ [(asserts, updates)])[r.id]? = s.made[r.id]? := fun hlt => getElem?_append_left hlt
  constructor
  case sound => exact h.sound.apply hserver hfresh
  case stopped => exact fun hstopped => absurd rfl (hstopped _)
  case marks =>
    intro fnr hfnr next hnext
    have hlt := h.marks fnr hfnr nextFnr hserver
    cases hnext
    omega
  case usage => exact h.usage
  case made =>
    rw [length_append, h.made]
    rfl
  case ids =>
    change (s.device.requests ++ [_]).map Request.id = List.range (s.device.started + 1)
    rw [map_append, h.ids, range_succ]
    rfl
  case requests =>
    intro r hr
    rcases mem_append.mp hr with hr | hr
    · obtain ⟨original, hmade, hupdates⟩ := h.requests r hr
      exact ⟨original, (hold (List.getElem?_eq_some_iff.mp hmade).1).trans hmade, hupdates⟩
    · cases mem_singleton.mp hr
      refine ⟨updates, ?_, assign_update _ _⟩
      rw [← h.made, getElem?_append_right (Nat.le_refl _)]
      simp
  case checked =>
    intro r hr attempt values hphase
    rcases mem_append.mp hr with hr | hr
    · refine (h.checked r hr attempt values hphase).mono fun blob value hreads => ?_
      cases value with
      | direct => exact hreads
      | onFs fnr size => exact ⟨hgone fnr hreads.1, hreads.2⟩
    · cases mem_singleton.mp hr
      cases hphase
  case committed =>
    intro r hr
    rcases mem_append.mp hr with hr | hr
    · exact h.committed r hr
    · cases mem_singleton.mp hr
      refine iff_of_false (fun hmem => ?_) (by simp [Phase.isCommitted])
      exact Nat.lt_irrefl _ (h.known _ hmem)
  case once => exact h.once
  case known => exact fun j hj => Nat.lt_succ_of_lt (h.known j hj)
  case justified => exact h.justified.mono _

theorem Ledger.commit (h : Ledger s) {i attempt : Nat} {r : Request}
    {values : List (Bytes × (Checksum × Value))} (hr : s.device.requests[i]? = some r)
    (hphase : r.phase = .asserted attempt values)
    (hcheck : checkAsserts s.device.db r.asserts values = .ok ()) :
    Ledger { s with
      mgmt := s.mgmt.updateLatestDiskUsage (sizeDelta s.device.db r.updates)
      device := (s.device.write (r.batch s.device.db)).withRequest i
        { r with files := [], phase := .committed (r.filesToDelete s.device.db) } } := by
  set device := (s.device.write (r.batch s.device.db)).withRequest i
    { r with files := [], phase := .committed (r.filesToDelete s.device.db) } with hdevice
  have hmem : r ∈ s.device.requests := mem_of_getElem? hr
  have htracked := h.sound.requests r hmem
  have hdb : device.db = afterBatch s.device.db s.device.db r.id r.updates := db_write _
  have hlogged : device.loggedDb = afterBatch s.device.db s.device.loggedDb r.id r.updates :=
    loggedDb_commit
  obtain ⟨updates, hmade, hupdates⟩ := h.requests r hmem
  have happlied : device.db.applied = s.device.db.applied ++ [(r.id, lastUpdates updates)] := by
    rw [hdb, ← hupdates]
    rfl
  have hcommits : ∀ mgmt : AsdMgmt, AsdServer.commits { s with device, mgmt } = s.commits ++ [r.id] := by
    intro mgmt
    rw [AsdServer.commits, happlied, map_append]
    rfl
  have hnew : r.id ∉ s.commits := by
    rw [h.committed r hmem, hphase]
    simp [Phase.isCommitted]
  have hpending : ∀ fnr ∈ device.pending, fnr ∈ s.device.pending := fun fnr hfnr =>
    (flatMap_set_sublist hr (nil_sublist r.files)).subset hfnr
  have hother : ∀ r' ∈ device.requests,
      r' = { r with files := [], phase := .committed (r.filesToDelete s.device.db) } ∨
        r' ∈ s.device.requests ∧ r'.id ≠ r.id := by
    intro r' hr'
    obtain ⟨j, hj⟩ := getElem?_of_mem hr'
    rw [hdevice, State.withRequest, getElem?_set] at hj
    split at hj
    · split at hj
      · exact .inl (Option.some.inj hj).symm
      · cases hj
    · rename_i hne
      refine .inr ⟨mem_of_getElem? hj, ?_⟩
      rw [h.id_of_place hj, h.id_of_place hr]
      exact Ne.symm hne
  constructor
  case sound => exact h.sound.commit hr hphase
  case stopped => exact fun hstopped => absurd hstopped (h.sound.running hr)
  case marks =>
    intro fnr hfnr
    change fnr ∈ device.loggedDb.toBeDeleted at hfnr
    rw [hlogged] at hfnr
    rcases toBeDeleted_batch.mp hfnr with hreplaced | hold
    · obtain ⟨u, _, hu⟩ := mem_filterMap.mp hreplaced
      obtain ⟨c, size, hvalue⟩ := mem_replaces.mp hu
      exact (h.sound.gone_of_value hvalue).2
    · exact h.marks fnr hold
  case usage =>
    change s.mgmt.latestDiskUsage + sizeDelta s.device.db r.updates = device.db.size
    rw [hdb, size_afterBatch htracked.keys, h.usage]
  case made => exact h.made
  case ids =>
    change (s.device.requests.set i _).map Request.id = List.range s.device.started
    obtain ⟨hi, rfl⟩ := List.getElem?_eq_some_iff.mp hr
    rw [map_set, ← h.ids]
    change (s.device.requests.map Request.id).set i (s.device.requests[i]).id = _
    rw [← map_set, set_getElem_self]
  case requests =>
    intro r' hr'
    rcases hother r' hr' with rfl | ⟨hr', _⟩
    · exact ⟨updates, hmade, hupdates⟩
    · exact h.requests r' hr'
  case checked =>
    intro r' hr' attempt' values' hphase'
    rcases hother r' hr' with rfl | ⟨hr', _⟩
    · cases hphase'
    · refine (h.checked r' hr' attempt' values' hphase').mono fun blob value hreads => ?_
      cases value with
      | direct => exact hreads
      | onFs fnr size => exact ⟨⟨fun hp => hreads.1.1 (hpending fnr hp), hreads.1.2⟩, hreads.2⟩
  case committed =>
    intro r' hr'
    rw [hcommits, mem_append, mem_singleton]
    rcases hother r' hr' with rfl | ⟨hr', hne⟩
    · exact iff_of_true (.inr rfl) rfl
    · rw [or_iff_left hne]
      exact h.committed r' hr'
  case once =>
    rw [hcommits]
    exact nodup_append.mpr ⟨h.once, nodup_singleton _, fun a ha b hb hab =>
      hnew (mem_singleton.mp hb ▸ hab ▸ ha)⟩
  case known =>
    rw [hcommits]
    intro j hj
    rcases mem_append.mp hj with hj | hj
    · exact h.known j hj
    · rw [mem_singleton.mp hj]
      exact lt_of_lt_of_eq (List.getElem?_eq_some_iff.mp hmade).1 h.made
  case justified =>
    change Justified s.made device.db.applied
    rw [happlied]
    exact h.justified.append hmade
      (assertsHold_of_check h.sound (h.checked r hmem attempt values hphase) hcheck)

/-- A step commits one request, or what is stored stays as it is. -/
def CommitsOrKeeps (s s' : AsdServer) : Prop :=
  (∃ i, s'.commits = s.commits ++ [i]) ∨
    SameContent s.device.db s'.device.db ∧ s'.mgmt.latestDiskUsage = s.mgmt.latestDiskUsage

theorem Ledger.tryApplyImmediate (h : Ledger s) {i attempt : Nat} {r : Request}
    {values : List (Bytes × (Checksum × Value))} (hr : s.device.requests[i]? = some r)
    (hphase : r.phase = .asserted attempt values) :
    Ledger (s.tryApplyImmediate i attempt values r) ∧
      CommitsOrKeeps s (s.tryApplyImmediate i attempt values r) := by
  unfold AsdServer.tryApplyImmediate
  split
  · rename_i hcheck
    have hcommitted := h.commit hr hphase hcheck
    -- the sizes of stored values add up to no negative number
    have hnonneg : ¬(s.mgmt.updateLatestDiskUsage (sizeDelta s.device.db r.updates)).latestDiskUsage < 0 := by
      rw [hcommitted.usage]
      exact Int.not_lt.mpr (size_nonneg _)
    rw [if_neg hnonneg]
    have hdevice : s.device.tryApplyImmediate i attempt values r =
        (s.device.write (r.batch s.device.db)).withRequest i
          { r with files := [], phase := .committed (r.filesToDelete s.device.db) } := by
      rw [State.tryApplyImmediate, hcheck]
    rw [hdevice]
    refine ⟨hcommitted, .inl ⟨r.id, ?_⟩⟩
    have hdb : ((s.device.write (r.batch s.device.db)).withRequest i
        { r with files := [], phase := .committed (r.filesToDelete s.device.db) }).db =
        afterBatch s.device.db s.device.db r.id r.updates := db_write _
    rw [AsdServer.commits, hdb, AsdServer.commits]
    exact map_append
  · rename_i refusal hcheck
    have hquiet := tryApplyImmediate_quiet hr hphase hcheck
    exact ⟨h.quiet (h.sound.tryApplyImmediate hr hphase) hquiet rfl, .inr ⟨hquiet.content, rfl⟩⟩

theorem exec_ledger {s' : AsdServer} {action : AsdAction} (h : Ledger s)
    (hexec : s.exec action = some s') : Ledger s' ∧ CommitsOrKeeps s s' := by
  have quiet : ∀ {action : Action}, action.isQuiet = true →
      (exec s.device action).map (fun device => { s with device }) = some s' →
      Ledger s' ∧ CommitsOrKeeps s s' := by
    intro action haction hexec
    obtain ⟨device, hdevice, rfl⟩ := Option.map_eq_some_iff.mp hexec
    have hunmarked : Unmarked s.device action := by
      cases action <;> trivial
    have hquiet := exec_quiet haction hdevice
    exact ⟨h.quiet (exec_sound h.sound hunmarked hdevice) hquiet rfl, .inr ⟨hquiet.content, rfl⟩⟩
  cases action with
  | setFull full =>
    cases hexec
    exact ⟨h.quiet h.sound (.refl _) rfl, .inr ⟨.refl _, rfl⟩⟩
  | setCapacity capacity =>
    cases hexec
    exact ⟨h.quiet h.sound (.refl _) rfl, .inr ⟨.refl _, rfl⟩⟩
  | device action =>
    cases action with
    | apply asserts updates =>
      simp only [AsdServer.exec] at hexec
      split at hexec
      · rename_i nextFnr hserver
        cases hexec
        unfold AsdServer.apply
        split
        · exact ⟨h.apply hserver, .inr ⟨.refl _, rfl⟩⟩
        · exact ⟨h, .inr ⟨.refl _, rfl⟩⟩
      · cases hexec
    | tryApplyImmediate i =>
      simp only [AsdServer.exec, Option.bind_eq_some_iff] at hexec
      obtain ⟨r, hr, hexec⟩ := hexec
      split at hexec
      · rename_i attempt values hphase
        cases hexec
        exact h.tryApplyImmediate hr hphase
      · cases hexec
    | crash n kept => cases hexec
    | _ => exact quiet rfl hexec

theorem Ledger.publicMap (h : Ledger s) : s.publicMap = expected s.device.db.applied := by
  have hconsistent : Consistent s.device.files s.device.db :=
    h.sound.consistent.now.weaker (weaker_db s.device)
  funext key
  have hholds := hconsistent.holds key
  unfold AsdServer.publicMap
  cases hvalue : s.device.db.values[key]? with
  | none =>
    rw [hvalue] at hholds
    exact (show expected s.device.db.applied key = none from hholds).symm
  | some value =>
    rw [hvalue] at hholds
    obtain ⟨c, stored | ⟨fnr, size⟩⟩ := value
    · exact (show expected s.device.db.applied key = some (stored, c) from hholds).symm
    · obtain ⟨blob, hfile, hsize, howed⟩ := hholds
      rw [howed]
      simp [State.readValue, hfile, hsize]

theorem Justified.expected_eq {applied : List (Nat × List Update)} (h : Justified s.made applied) :
    expected applied = replay ((applied.map Prod.fst).map fun i => (s.request i).2) := by
  induction applied using List.reverseRecOn with
  | nil => rfl
  | append_singleton applied e ih =>
    have hbefore : Justified s.made applied := fun before e' after heq =>
      h before e' (after ++ [e]) (by simp [heq])
    obtain ⟨asserts, updates, hmade, hupdates, _⟩ := h applied e [] rfl
    have hrequest : (s.request e.1).2 = updates := by rw [AsdServer.request, hmade]; rfl
    funext key
    rw [expected_append, ih hbefore, map_append, map_append]
    change _ = replay (_ ++ [(s.request e.1).2]) key
    rw [replay_append, execute_eq_setBy _ _ e.1, hrequest, ← hupdates]

theorem Ledger.replays (h : Ledger s) : s.publicMap = replay (s.commits.map fun i => (s.request i).2) :=
  h.publicMap.trans h.justified.expected_eq

theorem Ledger.asserts_held (h : Ledger s) {before after : List Nat} {i : Nat}
    (heq : s.commits = before ++ i :: after) :
    AssertsHold (replay (before.map fun i => (s.request i).2)) (s.request i).1 := by
  obtain ⟨applied, rest, happlied, hbefore, hrest⟩ := map_eq_append_iff.mp heq
  obtain ⟨e, tail, rfl, rfl, _⟩ := map_eq_cons_iff.mp hrest
  obtain ⟨asserts, updates, hmade, _, hholds⟩ := h.justified applied e tail happlied
  have hjustified : Justified s.made applied := fun b e' a heq' =>
    h.justified b e' (a ++ e :: tail) (by rw [happlied, heq']; simp)
  have hrequest : (s.request e.1).1 = asserts := by rw [AsdServer.request, hmade]; rfl
  rw [hrequest, ← hbefore, ← hjustified.expected_eq]
  exact hholds

theorem Ledger.mem_commits (h : Ledger s) {i : Nat} :
    i ∈ s.commits ↔ ∃ r ∈ s.device.requests, r.id = i ∧ r.phase.isCommitted = true := by
  constructor
  · intro hi
    have hlt : i ∈ s.device.requests.map Request.id := by
      rw [h.ids, mem_range]
      exact h.known i hi
    obtain ⟨r, hr, rfl⟩ := mem_map.mp hlt
    exact ⟨r, hr, rfl, (h.committed r hr).mp hi⟩
  · rintro ⟨r, hr, rfl, hphase⟩
    exact (h.committed r hr).mpr hphase

end Ledger

end Alba.Asd
