import Alba.Transfer.RoundTrip

/-! The first half of `download_chunk`: the fragments of a chunk are fetched side by side, and two
latches, of successes and of failures, end the waiting. -/

namespace Alba.Transfer

open List hiding next
open ProofKit Nsm

inductive DownloadStrategy
  | allFragments
  | leastAmount
  deriving DecidableEq

/-- A fragment with an osd, with its number in the chunk. -/
structure Located where
  fragmentId : Nat
  osdId : OsdId
  fragment : Fragment

section Downloadable

def downloadableFrom (acc : List Located) (nones i : Nat) : List Fragment → List Located × Nat
  | [] => (acc.reverse, nones)
  | f :: fragments =>
    match f.osd with
    | none => downloadableFrom acc (nones + 1) (i + 1) fragments
    | some osdId =>
      downloadableFrom ({ fragmentId := i, osdId, fragment := f } :: acc) nones (i + 1) fragments

def downloadable (chunkFragments : List Fragment) : List Located × Nat :=
  downloadableFrom [] 0 0 chunkFragments

theorem length_downloadableFrom (acc : List Located) (nones i : Nat) (fragments : List Fragment) :
    (downloadableFrom acc nones i fragments).1.length + (downloadableFrom acc nones i fragments).2 =
      acc.length + nones + fragments.length := by
  fun_induction downloadableFrom acc nones i fragments with
  | case1 acc nones i => simp
  | case2 acc nones i f fragments hosd ih =>
    rw [ih, length_cons]
    omega
  | case3 acc nones i f fragments osdId hosd ih =>
    rw [ih, length_cons, length_cons]
    omega

theorem length_downloadable (fragments : List Fragment) :
    (downloadable fragments).1.length + (downloadable fragments).2 = fragments.length := by
  simpa [downloadable] using length_downloadableFrom [] 0 0 fragments

end Downloadable

section Strategy

variable (nodeOf : OsdId → Bytes) (readPreference : List Bytes)

def cvalue (osdId : OsdId) : Int := if readPreference.contains (nodeOf osdId) then 1 else 0

def sortByPreference (locations : List Located) : List Located :=
  locations.insertionSort fun a b =>
    cvalue nodeOf readPreference b.osdId - cvalue nodeOf readPreference a.osdId ≤ 0

/-- The fragments to fetch, and the numbers of successes and of failures to wait for. -/
def plan (strategy : DownloadStrategy) (k m : Nat) (chunkLocations : List Fragment) :
    List Located × Int × Int :=
  let (located, nones) := downloadable chunkLocations
  match strategy with
  | .allFragments => (located, k, m + 1 - nones)
  | .leastAmount => ((sortByPreference nodeOf readPreference located).take k, k, 1)

end Strategy

/-- The download of one fragment, and whether it has succeeded once it has ended. -/
structure Fetch where
  fragmentId : Nat
  ended : Option Bool
  deriving DecidableEq

structure ChunkDownload where
  threads : List Fetch
  fragments : List (Nat × Bytes)
  successes : Latch
  failures : Latch
  result : Option (Except Exn (List Bytes × List Bytes))

inductive FetchEvent
  /-- The download of a fragment ends. -/
  | fetched (i : Nat) (outcome : Except Exn Bytes)
  /-- The waiting ends. -/
  | chosen

namespace ChunkDownload

def finito (s : ChunkDownload) : Bool := s.result.isSome

def isOpen (s : ChunkDownload) : Bool := s.successes.finished || s.failures.finished

def start (nodeOf : OsdId → Bytes) (readPreference : List Bytes) (strategy : DownloadStrategy)
    (k m : Nat) (chunkLocations : List Fragment) : Except Exn ChunkDownload :=
  let (located, successCount, failureCount) := plan nodeOf readPreference strategy k m chunkLocations
  match Latch.create successCount, Latch.create failureCount with
  | some successes, some failures =>
    .ok { threads := located.map fun l => { fragmentId := l.fragmentId, ended := none }
          fragments := [], successes, failures, result := none }
  | _, _ => .error .assertFailure

/-- A fragment that arrives after the waiting has ended is ignored. -/
def fetched (s : ChunkDownload) (i : Nat) (t : Fetch) (outcome : Except Exn Bytes) : ChunkDownload :=
  match outcome with
  | .ok b =>
    let s := { s with threads := s.threads.set i { t with ended := some true } }
    if s.finito then s
    else { s with
      fragments := (t.fragmentId, b) :: s.fragments
      successes := s.successes.countDown }
  | .error _ =>
    { s with
      threads := s.threads.set i { t with ended := some false }
      failures := s.failures.countDown }

variable (c : Codec) {k m : Nat} (e : Erasure k m) (chunkId : Nat)

def exec (s : ChunkDownload) : FetchEvent → Option ChunkDownload
  | .fetched i outcome => do
    let t ← s.threads[i]?
    if t.ended = none then some (s.fetched i t outcome) else none
  | .chosen =>
    if !s.finito && s.isOpen then some { s with result := some (decodeChunk c e chunkId s.fragments) }
    else none

def AllEnded (s : ChunkDownload) : Prop := ∀ t ∈ s.threads, t.ended ≠ none

def succeeded (s : ChunkDownload) : Nat := tally Fetch.ended (some true) s.threads

end ChunkDownload

/-- What arrives are fragments of `size` bytes. -/
def FetchEvent.OfSize (size : Nat) : FetchEvent → Prop
  | .fetched _ (.ok b) => b.length = size
  | _ => True

/-- The outcome that is due for the downloads that have succeeded. -/
def Due (k succeeded : Nat) (r : Except Exn (List Bytes × List Bytes)) : Prop :=
  if k ≤ succeeded then ∃ fragments, r = .ok fragments else r = .error .notEnoughFragments

/-- A download of a chunk that starts, never waits for ever, and ends as its fragments allow. -/
structure Decides (c : Codec) {k m : Nat} (e : Erasure k m) (chunkId : Nat) (nodeOf : OsdId → Bytes)
    (readPreference : List Bytes) (strategy : DownloadStrategy) (chunkLocations : List Fragment) :
    Prop where
  starts : ∃ s, ChunkDownload.start nodeOf readPreference strategy k m chunkLocations = .ok s
  decided : ∀ s size events,
    ChunkDownload.start nodeOf readPreference strategy k m chunkLocations = .ok s →
    (∀ event ∈ events, FetchEvent.OfSize size event) →
    let s' := run (ChunkDownload.exec c e chunkId) s events
    (s'.AllEnded → s'.result ≠ none ∨ s'.isOpen) ∧ ∀ r, s'.result = some r → Due k s'.succeeded r

section Decoding

variable {c : Codec} {k m : Nat} {e : Erasure k m}

theorem decodeChunk_of_size (chunkId : Nat) {size : Nat} {table : List (Nat × Bytes)} (hk : 1 ≤ k)
    (hsize : ∀ i b, (i, b) ∈ table → b.length = size) :
    Due k table.length (decodeChunk c e chunkId table) := by
  unfold Due
  by_cases henough : k ≤ table.length
  · obtain ⟨⟨i, b⟩, rest, rfl⟩ := exists_cons_of_length_pos (show 0 < table.length by omega)
    have hb : b.length = size := hsize i b (by simp)
    rw [if_pos henough, decodeChunk, if_neg (by omega)]
    simp only [hb, gatherFragments_eq chunkId hsize, ok_bind]
    exact ⟨_, rfl⟩
  · rw [if_neg henough, decodeChunk.eq_def, if_pos (by omega)]

end Decoding

namespace ChunkDownload

section Invariant

variable {c : Codec} {k m : Nat} {e : Erasure k m} {chunkId size b : Nat} {s s' : ChunkDownload}

/-- Before the end of the waiting the latches are fed by the downloads and the table holds what has
arrived. After it the outcome stands, whatever arrives later. -/
structure Inv (k size b n : Nat) (s : ChunkDownload) : Prop where
  length : s.threads.length = n
  waiting : s.result = none → Fed Fetch.ended k b s.threads s.successes s.failures
  table : s.result = none → s.fragments.length = s.succeeded
  sizes : ∀ i f, (i, f) ∈ s.fragments → f.length = size
  outcome : ∀ r, s.result = some r → (k ≤ s.succeeded ∧ ∃ fragments, r = .ok fragments) ∨
    (b ≤ tally Fetch.ended (some false) s.threads ∧ r = .error .notEnoughFragments)

inductive Moves (s : ChunkDownload) : FetchEvent → ChunkDownload → Prop
  | arrives {i : Nat} {t : Fetch} {f : Bytes} (hi : s.threads[i]? = some t) (ht : t.ended = none)
      (hwaiting : s.result = none) : Moves s (.fetched i (.ok f))
        { s with
          threads := s.threads.set i { t with ended := some true }
          fragments := (t.fragmentId, f) :: s.fragments
          successes := s.successes.countDown }
  | ignored {i : Nat} {t : Fetch} {f : Bytes} (hi : s.threads[i]? = some t) (ht : t.ended = none)
      (hdone : s.result ≠ none) : Moves s (.fetched i (.ok f))
        { s with threads := s.threads.set i { t with ended := some true } }
  | fails {i : Nat} {t : Fetch} {exn : Exn} (hi : s.threads[i]? = some t) (ht : t.ended = none) :
      Moves s (.fetched i (.error exn))
        { s with
          threads := s.threads.set i { t with ended := some false }
          failures := s.failures.countDown }

theorem exec_fetched {i : Nat} {outcome : Except Exn Bytes}
    (h : exec c e chunkId s (.fetched i outcome) = some s') : Moves s (.fetched i outcome) s' := by
  simp only [exec, Option.bind_eq_bind, Option.bind_eq_some_iff, Option.ite_none_right_eq_some,
    Option.some.injEq] at h
  obtain ⟨t, hi, ht, rfl⟩ := h
  cases outcome with
  | error exn => exact .fails hi ht
  | ok f =>
    by_cases hresult : s.result = none
    · simpa [fetched, finito, hresult] using Moves.arrives (f := f) hi ht hresult
    · have hsome := Option.isSome_iff_ne_none.mpr hresult
      simpa [fetched, finito, hsome] using Moves.ignored (f := f) hi ht hresult

theorem exec_chosen (h : exec c e chunkId s .chosen = some s') :
    s.result = none ∧ s.isOpen ∧
      s' = { s with result := some (decodeChunk c e chunkId s.fragments) } := by
  simp only [exec, finito, Option.ite_none_right_eq_some, Option.some.injEq, Bool.and_eq_true,
    Bool.not_eq_true', Option.isSome_eq_false_iff, Option.isNone_iff_eq_none] at h
  exact ⟨h.1.1, h.1.2, h.2.symm⟩

theorem tally_ended {i : Nat} {t : Fetch} (hi : s.threads[i]? = some t) (ht : t.ended = none)
    (v w : Bool) : tally Fetch.ended (some w) (s.threads.set i { t with ended := some v }) =
      tally Fetch.ended (some w) s.threads + if v = w then 1 else 0 := by
  have h := tally_set Fetch.ended hi { t with ended := some v } (some w)
  simpa [ht] using h

theorem Inv.moves {n : Nat} {event : FetchEvent} (inv : Inv k size b n s)
    (hsize : event.OfSize size) (h : Moves s event s') : Inv k size b n s' := by
  cases h with
  | @arrives i t f hi ht hwaiting =>
    have htrue := tally_ended (s := s) hi ht true true
    refine ⟨by simpa using inv.length, fun _ => ?_, fun _ => ?_, fun j g hg => ?_, fun r hr => ?_⟩
    · simpa using (inv.waiting hwaiting).ends hi ht { t with ended := some true } rfl
    · simpa [succeeded, htrue] using inv.table hwaiting
    · rcases mem_cons.mp hg with hg | hg
      · cases hg
        exact hsize
      · exact inv.sizes j g hg
    · rw [hwaiting] at hr
      cases hr
  | @ignored i t f hi ht hdone =>
    have htrue := tally_ended (s := s) hi ht true true
    have hfalse := tally_ended (s := s) hi ht true false
    refine ⟨by simpa using inv.length, fun h => absurd h hdone, fun h => absurd h hdone, inv.sizes,
      fun r hr => ?_⟩
    simp only [succeeded, htrue, hfalse]
    exact (inv.outcome r hr).imp (And.imp_left Nat.le_succ_of_le) id
  | @fails i t exn hi ht =>
    have htrue := tally_ended (s := s) hi ht false true
    have hfalse := tally_ended (s := s) hi ht false false
    refine ⟨by simpa using inv.length, fun hwaiting => ?_, fun hwaiting => ?_, inv.sizes,
      fun r hr => ?_⟩
    · simpa using (inv.waiting hwaiting).ends hi ht { t with ended := some false } rfl
    · simpa [succeeded, htrue] using inv.table hwaiting
    · simp only [succeeded, htrue, hfalse]
      exact (inv.outcome r hr).imp id (And.imp_left Nat.le_succ_of_le)

theorem Inv.chosen {n : Nat} (hk : 1 ≤ k) (inv : Inv k size b n s)
    (h : exec c e chunkId s .chosen = some s') : Inv k size b n s' := by
  obtain ⟨hwaiting, hopen, rfl⟩ := exec_chosen h
  refine ⟨inv.length, nofun, nofun, inv.sizes, fun r hr => ?_⟩
  cases hr
  have hdue := decodeChunk_of_size (c := c) (e := e) chunkId hk inv.sizes
  have fed := inv.waiting hwaiting
  rw [inv.table hwaiting, Due] at hdue
  split at hdue
  · rename_i henough
    exact .inl ⟨henough, hdue⟩
  · -- too few have succeeded, so it is the latch of failures that has opened
    rename_i hfew
    rw [isOpen, Bool.or_eq_true, fed.success_finished, fed.failures_finished] at hopen
    exact .inr ⟨hopen.resolve_left hfew, hdue⟩

theorem Inv.exec {n : Nat} {event : FetchEvent} (hk : 1 ≤ k) (inv : Inv k size b n s)
    (hsize : event.OfSize size) (h : exec c e chunkId s event = some s') : Inv k size b n s' := by
  cases event with
  | fetched i outcome => exact inv.moves hsize (exec_fetched h)
  | chosen => exact inv.chosen hk h

theorem Inv.run (c : Codec) (e : Erasure k m) (chunkId : Nat) {n : Nat} (hk : 1 ≤ k)
    (inv : Inv k size b n s) {events : List FetchEvent} (hsize : ∀ event ∈ events, event.OfSize size) :
    Inv k size b n (ProofKit.run (ChunkDownload.exec c e chunkId) s events) :=
  run_invariant_of (fun _ _ _ hinv hevent h => hinv.exec hk hevent h) inv
    (allSteps_of_forall (fun event hevent _ => hsize event hevent) s)

theorem Inv.decided (inv : Inv k size b s.threads.length s) (hsum : k + b = s.threads.length + 1) :
    (s.AllEnded → s.result ≠ none ∨ s.isOpen) ∧ ∀ r, s.result = some r → Due k s.succeeded r := by
  constructor
  · intro hall
    by_cases hwaiting : s.result = none
    · right
      have h := (inv.waiting hwaiting).decided (by omega) hall
      simpa [isOpen] using h
    · exact .inl hwaiting
  · intro r hr
    rw [Due]
    have htotal := tally_total Fetch.ended s.threads
    rcases inv.outcome r hr with ⟨henough, hok⟩ | ⟨hfailed, herror⟩
    · rwa [if_pos henough]
    · rwa [if_neg (by unfold succeeded; omega)]

end Invariant

section Start

variable {nodeOf : OsdId → Bytes} {readPreference : List Bytes} {strategy : DownloadStrategy}
  {k m : Nat} {chunkLocations : List Fragment} {s : ChunkDownload}

/-- The number of fragments without an osd that the strategy copes with. -/
def spare (m : Nat) : DownloadStrategy → Nat
  | .allFragments => m + 1
  | .leastAmount => m

theorem length_plan (nodeOf : OsdId → Bytes) (readPreference : List Bytes)
    (strategy : DownloadStrategy) (hlength : chunkLocations.length = k + m) :
    (plan nodeOf readPreference strategy k m chunkLocations).1.length =
      match strategy with
      | .allFragments => k + m - (downloadable chunkLocations).2
      | .leastAmount => min k (k + m - (downloadable chunkLocations).2) := by
  have h := length_downloadable chunkLocations
  cases strategy with
  | allFragments =>
    simp only [plan]
    omega
  | leastAmount =>
    simp only [plan, sortByPreference, length_take, length_insertionSort]
    omega

theorem start_eq_ok : start nodeOf readPreference strategy k m chunkLocations = .ok s ↔
    0 ≤ (plan nodeOf readPreference strategy k m chunkLocations).2.2 ∧
    s = { threads := (plan nodeOf readPreference strategy k m chunkLocations).1.map fun l =>
            { fragmentId := l.fragmentId, ended := none }
          fragments := []
          successes := { needed := k }
          failures := { needed := (plan nodeOf readPreference strategy k m chunkLocations).2.2.toNat }
          result := none } := by
  have hk : (plan nodeOf readPreference strategy k m chunkLocations).2.1 = k := by
    cases strategy <;> rfl
  simp only [start, hk, Latch.create]
  by_cases h : 0 ≤ (plan nodeOf readPreference strategy k m chunkLocations).2.2
  · simp [h, eq_comm]
  · simp [h]

theorem start_inv (h : start nodeOf readPreference strategy k m chunkLocations = .ok s) (size : Nat) :
    Inv k size (plan nodeOf readPreference strategy k m chunkLocations).2.2.toNat
      s.threads.length s := by
  obtain ⟨_, rfl⟩ := start_eq_ok.mp h
  have hnone : ∀ t ∈ (plan nodeOf readPreference strategy k m chunkLocations).1.map
      (fun l => ({ fragmentId := l.fragmentId, ended := none } : Fetch)), t.ended = none := by
    simp
  refine ⟨rfl, fun _ => fed_start hnone, fun _ => ?_, by simp, fun r hr => by cases hr⟩
  exact (countP_eq_zero.mpr fun t ht => by simp [hnone t ht]).symm

end Start

section Arrivals

variable (c : Codec) {k m : Nat} (e : Erasure k m) (chunkId : Nat)

def arrivals (start n : Nat) : List FetchEvent :=
  (List.range' start n).map fun i => .fetched i (.ok [])

theorem run_arrivals {s : ChunkDownload} (ended pending : List Fetch)
    (hthreads : s.threads = ended ++ pending) (hpending : ∀ t ∈ pending, t.ended = none)
    (hresult : s.result = none) :
    let s' := run (exec c e chunkId) s (arrivals ended.length pending.length)
    s'.threads = ended ++ pending.map (fun t => { t with ended := some true }) ∧
      s'.result = none ∧ s'.failures = s.failures := by
  induction pending generalizing s ended with
  | nil =>
    refine ⟨?_, hresult, rfl⟩
    simpa [arrivals] using hthreads
  | cons t pending ih =>
    have hi : s.threads[ended.length]? = some t := by simp [hthreads]
    have ht : t.ended = none := hpending t (by simp)
    have hstep : exec c e chunkId s (.fetched ended.length (.ok [])) =
        some (s.fetched ended.length t (.ok [])) := by
      simp [exec, hi, ht]
    have hnext := ih (s := s.fetched ended.length t (.ok []))
      (ended ++ [{ t with ended := some true }])
      (by simp [fetched, finito, hresult, hthreads])
      (fun t' ht' => hpending t' (mem_cons_of_mem t ht'))
      (by simp [fetched, finito, hresult])
    have hfailures : (s.fetched ended.length t (.ok [])).failures = s.failures := by
      simp [fetched, finito, hresult]
    simp only [arrivals, length_cons, range'_succ, map_cons, run_cons, next, hstep,
      Option.getD_some]
    simpa [arrivals, hfailures] using hnext

end Arrivals

end ChunkDownload

section Decision

variable (c : Codec) {k m : Nat} (e : Erasure k m) (chunkId : Nat) (nodeOf : OsdId → Bytes)
  (readPreference : List Bytes) (strategy : DownloadStrategy) {chunkLocations : List Fragment}

open ChunkDownload

theorem decides_of_spare (hk : 1 ≤ k) (hlength : chunkLocations.length = k + m)
    (hnones : (downloadable chunkLocations).2 ≤ spare m strategy) :
    Decides c e chunkId nodeOf readPreference strategy chunkLocations := by
  have hplan := length_plan nodeOf readPreference strategy hlength
  have hfailures : (0 : Int) ≤ (plan nodeOf readPreference strategy k m chunkLocations).2.2 := by
    cases strategy <;> simp only [plan, spare] at hnones ⊢ <;> omega
  have hsum : k + (plan nodeOf readPreference strategy k m chunkLocations).2.2.toNat =
      (plan nodeOf readPreference strategy k m chunkLocations).1.length + 1 := by
    rw [hplan]
    cases strategy <;> simp only [plan, spare] at hnones ⊢ <;> omega
  refine ⟨⟨_, start_eq_ok.mpr ⟨hfailures, rfl⟩⟩, fun s size events hstart hsize => ?_⟩
  have inv := (start_inv hstart size).run c e chunkId hk hsize
  obtain ⟨_, rfl⟩ := start_eq_ok.mp hstart
  have hthreads := inv.length
  rw [← hthreads] at inv
  refine inv.decided ?_
  rw [hthreads, length_map]
  exact hsum

theorem leastAmount_waits (hk : 1 ≤ k) (hlength : chunkLocations.length = k + m)
    (hnones : m < (downloadable chunkLocations).2) :
    ¬ Decides c e chunkId nodeOf readPreference .leastAmount chunkLocations := by
  intro h
  have hplan := length_plan nodeOf readPreference .leastAmount hlength
  obtain ⟨s, hstart⟩ := h.starts
  obtain ⟨-, hs⟩ := start_eq_ok.mp hstart
  have hsize : ∀ event ∈ arrivals 0 s.threads.length, event.OfSize 0 := by
    intro event hevent
    obtain ⟨i, -, rfl⟩ := mem_map.mp hevent
    rfl
  have inv := (start_inv hstart 0).run c e chunkId hk hsize
  obtain ⟨hthreads, hresult, hfailures⟩ := run_arrivals c e chunkId [] s.threads rfl
    (by simp [hs]) (by simp [hs])
  obtain ⟨hended, -⟩ := h.decided s 0 (arrivals 0 s.threads.length) hstart hsize
  simp only [length_nil, nil_append] at hthreads hresult hfailures
  have hopen := (hended (by simp [AllEnded, hthreads])).resolve_left (not_not_intro hresult)
  have htotal := tally_total Fetch.ended
    (run (ChunkDownload.exec c e chunkId) s (arrivals 0 s.threads.length)).threads
  have hfew : s.threads.length < k := by
    rw [hs, length_map, hplan]
    simp only
    omega
  have hone : s.failures.needed = 1 := by simp [hs, plan]
  rw [isOpen, Bool.or_eq_true, (inv.waiting hresult).success_finished, Latch.finished_iff, hfailures,
    hone] at hopen
  rw [inv.length] at htotal
  omega

section Samples

def sampleLocation (osd : Option OsdId) : Fragment :=
  { osd, ver := 0, crc := .noChecksum, len := 16, ctr := none, fnr := none }

end Samples

end Decision

end Alba.Transfer
