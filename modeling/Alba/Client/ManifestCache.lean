import Alba.Tools.Cache

/-! The manifest cache of the client. The entries of a namespace are kept under its epoch; a manifest that
comes from the namespace manager is put under the epoch of the time when it arrives. -/

set_option linter.unusedSectionVars false

namespace Alba.Client

open ProofKit Tools List

-- namespaces, names of objects, manifests and their serialised form
variable {N X M B : Type} [DecidableEq N] [DecidableEq X]

/-- Where a manifest comes from: the call that passed it to `add`, or got it from the namespace manager,
and when that call started. -/
structure Supply (N X M : Type) where
  namespaceId : N
  objectName : X
  manifest : M
  started : Nat
deriving DecidableEq

/-- A value of the cache, which is the serialised manifest; the supply stands beside it. -/
structure Stored (N X M B : Type) where
  bytes : B
  supply : Supply N X M

structure ManifestCache (N X M B : Type) where
  cache : Cache (N × Nat × X) (Stored N X M B)
  namespaceEpoch : N → Option Nat
  nextEpoch : Nat

namespace ManifestCache

variable (deflate : M → B) (length : B → Int)

def make (maxSize : Int) (example' : N × Nat × X) : ManifestCache N X M B where
  cache := Cache.make maxSize example'
  namespaceEpoch := fun _ => none
  nextEpoch := 0

def getEpoch (t : ManifestCache N X M B) (namespaceId : N) : Nat × ManifestCache N X M B :=
  match t.namespaceEpoch namespaceId with
  | some epoch => (epoch, t)
  | none =>
    (t.nextEpoch, { t with
      namespaceEpoch := Function.update t.namespaceEpoch namespaceId (some t.nextEpoch)
      nextEpoch := t.nextEpoch + 1 })

def add (t : ManifestCache N X M B) (supply : Supply N X M) : ManifestCache N X M B :=
  let (epoch, t) := t.getEpoch supply.namespaceId
  let b : Stored N X M B := { bytes := deflate supply.manifest, supply }
  { t with
    cache := Cache.settled (t.cache.add (fun v => length v.bytes)
      (supply.namespaceId, epoch, supply.objectName) b) }

def remove (t : ManifestCache N X M B) (namespaceId : N) (objectName : X) : ManifestCache N X M B :=
  let (epoch, t) := t.getEpoch namespaceId
  { t with cache := t.cache.remove (namespaceId, epoch, objectName) }

def invalidate (t : ManifestCache N X M B) (namespaceId : N) : ManifestCache N X M B :=
  { t with namespaceEpoch := Function.update t.namespaceEpoch namespaceId none }

/-! ### The entries of a cache -/

variable {deflate length} {t : ManifestCache N X M B}

/-- An entry is the manifest that was supplied for its key, and epochs are numbered from 0 on. -/
structure Sane (deflate : M → B) (t : ManifestCache N X M B) : Prop where
  entries : ∀ e ∈ t.cache.h, e.2.1.supply.namespaceId = e.1.1 ∧ e.2.1.supply.objectName = e.1.2.2 ∧
    e.2.1.bytes = deflate e.2.1.supply.manifest ∧ e.1.2.1 < t.nextEpoch
  epochs : ∀ namespaceId epoch, t.namespaceEpoch namespaceId = some epoch → epoch < t.nextEpoch

/-- The entries that can be found now are supplied as `ok` says. -/
def Current (ok : N → Supply N X M → Prop) (t : ManifestCache N X M B) : Prop :=
  ∀ e ∈ t.cache.h, t.namespaceEpoch e.1.1 = some e.1.2.1 → ok e.1.1 e.2.1.supply

variable {ok : N → Supply N X M → Prop}

theorem Sane.subset (h : Sane deflate t) {cache : Cache (N × Nat × X) (Stored N X M B)}
    (hsubset : ∀ e ∈ cache.h, e ∈ t.cache.h) : Sane deflate { t with cache } :=
  ⟨fun e he => h.entries e (hsubset e he), h.epochs⟩

theorem Current.subset (h : Current ok t) {cache : Cache (N × Nat × X) (Stored N X M B)}
    (hsubset : ∀ e ∈ cache.h, e ∈ t.cache.h) : Current ok { t with cache } :=
  fun e he => h e (hsubset e he)

theorem getEpoch_cache (t : ManifestCache N X M B) (namespaceId : N) :
    (t.getEpoch namespaceId).2.cache = t.cache := by
  unfold getEpoch
  split
  · rfl
  · rfl

theorem getEpoch_current (t : ManifestCache N X M B) (namespaceId : N) :
    (t.getEpoch namespaceId).2.namespaceEpoch namespaceId = some (t.getEpoch namespaceId).1 := by
  unfold getEpoch
  split
  · assumption
  · exact Function.update_self ..

theorem Sane.getEpoch (h : Sane deflate t) (namespaceId : N) :
    Sane deflate (t.getEpoch namespaceId).2 := by
  unfold ManifestCache.getEpoch
  split
  · exact h
  · refine ⟨fun e he => ?_, fun ns epoch hepoch => ?_⟩
    · obtain ⟨hns, hname, hbytes, hlt⟩ := h.entries e he
      exact ⟨hns, hname, hbytes, Nat.lt_succ_of_lt hlt⟩
    · dsimp only at hepoch
      by_cases hns : ns = namespaceId
      · subst hns
        rw [Function.update_self] at hepoch
        exact Option.some.inj hepoch ▸ Nat.lt_succ_self _
      · rw [Function.update_of_ne hns] at hepoch
        exact Nat.lt_succ_of_lt (h.epochs ns epoch hepoch)

theorem Current.getEpoch (h : Current ok t) (hsane : Sane deflate t) (namespaceId : N) :
    Current ok (t.getEpoch namespaceId).2 := by
  unfold ManifestCache.getEpoch
  split
  · exact h
  · intro e he hepoch
    dsimp only at hepoch
    by_cases hns : e.1.1 = namespaceId
    · rw [hns, Function.update_self] at hepoch
      have hlt := (hsane.entries e he).2.2.2
      rw [← Option.some.inj hepoch] at hlt
      exact absurd hlt (Nat.lt_irrefl _)
    · rw [Function.update_of_ne hns] at hepoch
      exact h e he hepoch

theorem mem_add {supply : Supply N X M} {e : (N × Nat × X) × (Stored N X M B × Nat)}
    (he : e ∈ (t.add deflate length supply).cache.h) :
    (e.1 = (supply.namespaceId, (t.getEpoch supply.namespaceId).1, supply.objectName) ∧
      e.2.1 = ⟨deflate supply.manifest, supply⟩) ∨ e ∈ t.cache.h :=
  (Cache.mem_add he).imp_right fun hmem => getEpoch_cache t supply.namespaceId ▸ hmem

theorem Sane.add (h : Sane deflate t) (length : B → Int) (supply : Supply N X M) :
    Sane deflate (t.add deflate length supply) := by
  have hepoch := h.getEpoch supply.namespaceId
  refine ⟨fun e he => ?_, hepoch.epochs⟩
  rcases mem_add he with ⟨hkey, hstored⟩ | hmem
  · rw [hkey, hstored]
    exact ⟨rfl, rfl, rfl, hepoch.epochs _ _ (getEpoch_current t supply.namespaceId)⟩
  · exact hepoch.entries e (getEpoch_cache t _ ▸ hmem)

theorem Current.add (h : Current ok t) (hsane : Sane deflate t) (length : B → Int) {supply : Supply N X M}
    (hok : ok supply.namespaceId supply) : Current ok (t.add deflate length supply) := by
  intro e he hepoch
  rcases mem_add he with ⟨hkey, hstored⟩ | hmem
  · rw [hkey, hstored]
    exact hok
  · exact h.getEpoch hsane supply.namespaceId e (getEpoch_cache t _ ▸ hmem) hepoch

theorem Sane.remove (h : Sane deflate t) (namespaceId : N) (objectName : X) :
    Sane deflate (t.remove namespaceId objectName) :=
  (h.getEpoch namespaceId).subset fun _ => Cache.mem_of_mem_remove

theorem Current.remove (h : Current ok t) (hsane : Sane deflate t) (namespaceId : N) (objectName : X) :
    Current ok (t.remove namespaceId objectName) :=
  (h.getEpoch hsane namespaceId).subset fun _ => Cache.mem_of_mem_remove

theorem Sane.invalidate (h : Sane deflate t) (namespaceId : N) : Sane deflate (t.invalidate namespaceId) := by
  refine ⟨h.entries, fun ns epoch hepoch => ?_⟩
  dsimp only [ManifestCache.invalidate] at hepoch
  by_cases hns : ns = namespaceId
  · subst hns
    rw [Function.update_self] at hepoch
    cases hepoch
  · rw [Function.update_of_ne hns] at hepoch
    exact h.epochs ns epoch hepoch

theorem Current.invalidate (h : Current ok t) {ok' : N → Supply N X M → Prop} {namespaceId : N}
    (hok : ∀ ns supply, ns ≠ namespaceId → ok ns supply → ok' ns supply) :
    Current ok' (t.invalidate namespaceId) := by
  intro e he hepoch
  dsimp only [ManifestCache.invalidate] at hepoch
  by_cases hns : e.1.1 = namespaceId
  · rw [hns, Function.update_self] at hepoch
    cases hepoch
  · rw [Function.update_of_ne hns] at hepoch
    exact hok _ _ hns (h e he hepoch)

end ManifestCache

structure Pending (N X : Type) where
  namespaceId : N
  objectNames : List X
  started : Nat
  consistentRead : Bool
  shouldCache : Bool

/-- A manifest that was returned as `Fast`. -/
structure Returned (N X M : Type) where
  namespaceId : N
  objectName : X
  manifest : M
  time : Nat
  supply : Supply N X M
deriving DecidableEq

/-- The cache with the calls in flight. Calls and invalidations are timed by the number of the step. -/
structure Lookups (N X M B : Type) where
  t : ManifestCache N X M B
  clock : Nat
  pending : List (Pending N X)
  invalidated : List (N × Nat)
  returned : List (Returned N X M)

namespace Lookups

variable (deflate : M → B) (inflate : B → M) (length : B → Int) {namespaceId : N} {epoch : Nat}

def initial (maxSize : Int) (example' : N × Nat × X) : Lookups N X M B where
  t := .make maxSize example'
  clock := 0
  pending := []
  invalidated := []
  returned := []

def lookup (namespaceId : N) (epoch : Nat) (s : Lookups N X M B) (objectName : X) : Lookups N X M B :=
  match s.t.cache.lookup (namespaceId, epoch, objectName) with
  | (none, cache) =>
    { s with
      t := { s.t with cache }
      pending := s.pending ++ [⟨namespaceId, [objectName], s.clock, false, true⟩] }
  | (some stored, cache) =>
    { s with
      t := { s.t with cache }
      returned := ⟨namespaceId, objectName, inflate stored.bytes, s.clock, stored.supply⟩ :: s.returned }

/-- The start of `lookup_multiple`: it goes through all names before it waits for an answer. -/
def lookupMultiple (s : Lookups N X M B) (namespaceId : N) (objectNames : List X)
    (consistentRead shouldCache : Bool) : Lookups N X M B :=
  if consistentRead then
    { s with pending := s.pending ++ [⟨namespaceId, objectNames, s.clock, true, shouldCache⟩] }
  else
    let (epoch, t) := s.t.getEpoch namespaceId
    objectNames.foldl (lookup inflate namespaceId epoch) { s with t }

def inserted (p : Pending N X) (answers : List (Option M)) : List (Supply N X M) :=
  if p.consistentRead then
    if p.shouldCache then
      (p.objectNames.zip answers).filterMap fun (objectName, answer) =>
        answer.map fun manifest => ⟨p.namespaceId, objectName, manifest, p.started⟩
    else []
  else
    match p.objectNames, answers with
    | [objectName], [some manifest] => [⟨p.namespaceId, objectName, manifest, p.started⟩]
    | _, _ => []

inductive Event (N X M : Type)
  | lookupMultiple (namespaceId : N) (objectNames : List X) (consistentRead shouldCache : Bool)
  | answer (i : Nat) (answers : List (Option M))
  | add (namespaceId : N) (objectName : X) (manifest : M)
  | remove (namespaceId : N) (objectName : X)
  | invalidate (namespaceId : N)

def handle (s : Lookups N X M B) : Event N X M → Option (Lookups N X M B)
  | .lookupMultiple namespaceId objectNames consistentRead shouldCache =>
    some (s.lookupMultiple inflate namespaceId objectNames consistentRead shouldCache)
  | .answer i answers =>
    s.pending[i]?.map fun p =>
      { s with
        pending := s.pending.eraseIdx i
        t := (inserted p answers).foldl (ManifestCache.add deflate length) s.t }
  | .add namespaceId objectName manifest =>
    some { s with t := s.t.add deflate length ⟨namespaceId, objectName, manifest, s.clock⟩ }
  | .remove namespaceId objectName => some { s with t := s.t.remove namespaceId objectName }
  | .invalidate namespaceId =>
    some { s with
      t := s.t.invalidate namespaceId
      invalidated := (namespaceId, s.clock) :: s.invalidated }

def exec (s : Lookups N X M B) (e : Event N X M) : Option (Lookups N X M B) :=
  (s.handle deflate inflate length e).map fun s' => { s' with clock := s.clock + 1 }

/-! ### What is returned -/

/-- A manifest that is returned as `Fast` was supplied for that namespace and name. -/
def Matching (s : Lookups N X M B) : Prop :=
  ∀ r ∈ s.returned, r.supply.namespaceId = r.namespaceId ∧ r.supply.objectName = r.objectName ∧
    r.manifest = inflate (deflate r.supply.manifest)

/-- It was supplied by a call that started after the invalidations of the namespace before the return. -/
def Fresh (s : Lookups N X M B) : Prop :=
  ∀ r ∈ s.returned, ∀ time, (r.namespaceId, time) ∈ s.invalidated → time < r.time →
    time < r.supply.started

/-- No manifest is inserted that was asked for before an invalidation of its namespace. -/
def InsertsFresh (s : Lookups N X M B) : Event N X M → Prop
  | .answer i answers => ∀ p ∈ s.pending[i]?, inserted p answers ≠ [] →
      ∀ e ∈ s.invalidated, e.1 = p.namespaceId → e.2 < p.started
  | _ => True

instance (s : Lookups N X M B) : (e : Event N X M) → Decidable (InsertsFresh s e)
  | .answer i answers => inferInstanceAs (Decidable (∀ p ∈ s.pending[i]?, inserted p answers ≠ [] →
      ∀ e ∈ s.invalidated, e.1 = p.namespaceId → e.2 < p.started))
  | .lookupMultiple .. | .add .. | .remove .. | .invalidate .. => inferInstanceAs (Decidable True)

/-- The supply is later than all invalidations of the namespace. -/
def Later (invalidated : List (N × Nat)) (namespaceId : N) (supply : Supply N X M) : Prop :=
  ∀ time, (namespaceId, time) ∈ invalidated → time < supply.started

variable {deflate inflate length} {s s' : Lookups N X M B}

theorem mem_returned_lookup {objectName : X} {r : Returned N X M}
    (hr : r ∈ (lookup inflate namespaceId epoch s objectName).returned) :
    r ∈ s.returned ∨ ∃ e ∈ s.t.cache.h, e.1 = (namespaceId, epoch, r.objectName) ∧
      r.namespaceId = namespaceId ∧ r.manifest = inflate e.2.1.bytes ∧ r.time = s.clock ∧
      r.supply = e.2.1.supply := by
  unfold lookup at hr
  split at hr
  · exact .inl hr
  · rename_i stored cache hlookup
    rcases mem_cons.mp hr with rfl | hr
    · obtain ⟨n, hn⟩ := Cache.mem_of_lookup hlookup
      exact .inr ⟨_, hn, rfl, rfl, rfl, rfl, rfl⟩
    · exact .inl hr

theorem lookup_same (inflate : B → M) (namespaceId : N) (epoch : Nat) (s : Lookups N X M B) (objectName : X) :
    ∃ cache, (lookup inflate namespaceId epoch s objectName).t = { s.t with cache } ∧
      cache.h = s.t.cache.h ∧
      (lookup inflate namespaceId epoch s objectName).invalidated = s.invalidated ∧
      (lookup inflate namespaceId epoch s objectName).clock = s.clock := by
  have hh := Cache.lookup_h s.t.cache (namespaceId, epoch, objectName)
  unfold lookup
  split
  · rename_i cache hlookup
    exact ⟨cache, rfl, by rw [hlookup] at hh; exact hh, rfl, rfl⟩
  · rename_i stored cache hlookup
    exact ⟨cache, rfl, by rw [hlookup] at hh; exact hh, rfl, rfl⟩

structure Tracks (deflate : M → B) (inflate : B → M) (s : Lookups N X M B) : Prop where
  sane : s.t.Sane deflate
  matching : Matching deflate inflate s

/-- As long as no old manifest is inserted. -/
structure Guarded (deflate : M → B) (inflate : B → M) (s : Lookups N X M B) : Prop
    extends Tracks deflate inflate s where
  current : s.t.Current (Later s.invalidated)
  times : ∀ e ∈ s.invalidated, e.2 < s.clock
  past : ∀ r ∈ s.returned, r.time ≤ s.clock
  fresh : s.Fresh

theorem Tracks.lookup (h : Tracks deflate inflate s) (namespaceId : N) (epoch : Nat) (objectName : X) :
    Tracks deflate inflate (lookup inflate namespaceId epoch s objectName) := by
  obtain ⟨cache, ht, hh, -, -⟩ := lookup_same inflate namespaceId epoch s objectName
  refine ⟨?_, fun r hr => ?_⟩
  · rw [ht]
    exact h.sane.subset fun e he => hh ▸ he
  · rcases mem_returned_lookup hr with hr | ⟨e, he, hkey, hns, hmanifest, -, hsupply⟩
    · exact h.matching r hr
    · obtain ⟨hentryNs, hentryName, hbytes, -⟩ := h.sane.entries e he
      rw [hkey] at hentryNs hentryName
      rw [hsupply, hmanifest, hbytes, hns]
      exact ⟨hentryNs, hentryName, rfl⟩

theorem Guarded.lookup (h : Guarded deflate inflate s) (objectName : X)
    (hepoch : s.t.namespaceEpoch namespaceId = some epoch) :
    Guarded deflate inflate (lookup inflate namespaceId epoch s objectName) := by
  obtain ⟨cache, ht, hh, hinvalidated, hclock⟩ :=
    lookup_same inflate namespaceId epoch s objectName
  refine ⟨h.toTracks.lookup namespaceId epoch objectName, ?_, ?_, fun r hr => ?_, fun r hr => ?_⟩
  · rw [ht, hinvalidated]
    exact h.current.subset fun e he => hh ▸ he
  · rw [hinvalidated, hclock]
    exact h.times
  · rw [hclock]
    rcases mem_returned_lookup hr with hr | ⟨e, -, -, -, -, htime, -⟩
    · exact h.past r hr
    · exact Nat.le_of_eq htime
  · rw [hinvalidated]
    rcases mem_returned_lookup hr with hr | ⟨e, he, hkey, hns, -, -, hsupply⟩
    · exact h.fresh r hr
    · intro time htime _
      have hlater := h.current e he (by rw [hkey]; exact hepoch)
      rw [hsupply]
      rw [hkey] at hlater
      exact hlater time (hns ▸ htime)

theorem lookups_epoch (ns : N) (s : Lookups N X M B) (objectName : X) :
    (lookup inflate namespaceId epoch s objectName).t.namespaceEpoch ns = s.t.namespaceEpoch ns := by
  obtain ⟨cache, ht, -⟩ := lookup_same inflate namespaceId epoch s objectName
  rw [ht]

theorem Tracks.lookupMultiple (h : Tracks deflate inflate s) (namespaceId : N) (objectNames : List X)
    (consistentRead shouldCache : Bool) :
    Tracks deflate inflate (s.lookupMultiple inflate namespaceId objectNames consistentRead shouldCache) := by
  unfold Lookups.lookupMultiple
  split
  · exact ⟨h.sane, h.matching⟩
  · exact List.foldlRecOn _ _ ⟨h.sane.getEpoch namespaceId, h.matching⟩ fun s hs objectName _ =>
      hs.lookup _ _ objectName

theorem Guarded.lookupMultiple (h : Guarded deflate inflate s) (namespaceId : N) (objectNames : List X)
    (consistentRead shouldCache : Bool) :
    Guarded deflate inflate (s.lookupMultiple inflate namespaceId objectNames consistentRead shouldCache) := by
  unfold Lookups.lookupMultiple
  split
  · exact ⟨⟨h.sane, h.matching⟩, h.current, h.times, h.past, h.fresh⟩
  · have hstart : Guarded deflate inflate { s with t := (s.t.getEpoch namespaceId).2 } :=
      ⟨⟨h.sane.getEpoch namespaceId, h.matching⟩, h.current.getEpoch h.sane namespaceId, h.times, h.past,
        h.fresh⟩
    refine (List.foldlRecOn (motive := fun s : Lookups N X M B => Guarded deflate inflate s ∧
      s.t.namespaceEpoch namespaceId = some _) _ _
        ⟨hstart, ManifestCache.getEpoch_current s.t namespaceId⟩ fun s hs objectName _ => ?_).1
    exact ⟨hs.1.lookup objectName hs.2, (lookups_epoch namespaceId s objectName).trans hs.2⟩

theorem lookupMultiple_clock (inflate : B → M) (s : Lookups N X M B) (namespaceId : N)
    (objectNames : List X) (consistentRead shouldCache : Bool) :
    (s.lookupMultiple inflate namespaceId objectNames consistentRead shouldCache).clock = s.clock := by
  unfold Lookups.lookupMultiple
  split
  · rfl
  · refine List.foldlRecOn (motive := fun s' : Lookups N X M B => s'.clock = s.clock) _ _ rfl
      fun s' hs' objectName _ => ?_
    obtain ⟨cache, -, -, -, hclock⟩ := lookup_same inflate namespaceId _ s' objectName
    exact hclock.trans hs'

theorem Guarded.tick (h : Guarded deflate inflate s) {clock : Nat} (hclock : s.clock ≤ clock) :
    Guarded deflate inflate { s with clock } where
  sane := h.sane
  matching := h.matching
  current := h.current
  times e he := Nat.lt_of_lt_of_le (h.times e he) hclock
  past r hr := Nat.le_trans (h.past r hr) hclock
  fresh := h.fresh

theorem inserted_namespaceId {p : Pending N X} {answers : List (Option M)} {supply : Supply N X M}
    (h : supply ∈ inserted p answers) :
    supply.namespaceId = p.namespaceId ∧ supply.started = p.started := by
  unfold inserted at h
  split at h
  · split at h
    · obtain ⟨⟨objectName, answer⟩, -, h⟩ := mem_filterMap.mp h
      obtain ⟨manifest, -, rfl⟩ := Option.map_eq_some_iff.mp h
      exact ⟨rfl, rfl⟩
    · cases h
  · split at h
    · obtain rfl := mem_singleton.mp h
      exact ⟨rfl, rfl⟩
    · cases h

theorem Tracks.step {e : Event N X M} (h : Tracks deflate inflate s)
    (hexec : exec deflate inflate length s e = some s') : Tracks deflate inflate s' := by
  obtain ⟨mid, hhandle, rfl⟩ := Option.map_eq_some_iff.mp hexec
  suffices hmid : Tracks deflate inflate mid from ⟨hmid.sane, hmid.matching⟩
  cases e with
  | lookupMultiple namespaceId objectNames consistentRead shouldCache =>
    cases hhandle
    exact h.lookupMultiple namespaceId objectNames consistentRead shouldCache
  | answer i answers =>
    obtain ⟨p, -, rfl⟩ := Option.map_eq_some_iff.mp hhandle
    exact ⟨List.foldlRecOn _ _ h.sane fun t ht supply _ => ht.add length supply, h.matching⟩
  | add namespaceId objectName manifest =>
    cases hhandle
    exact ⟨h.sane.add length _, h.matching⟩
  | remove namespaceId objectName =>
    cases hhandle
    exact ⟨h.sane.remove namespaceId objectName, h.matching⟩
  | invalidate namespaceId =>
    cases hhandle
    exact ⟨h.sane.invalidate namespaceId, h.matching⟩

theorem Guarded.insert (h : Guarded deflate inflate s) (length : B → Int) {p : Pending N X}
    {answers : List (Option M)}
    (hfresh : inserted p answers ≠ [] → ∀ e ∈ s.invalidated, e.1 = p.namespaceId → e.2 < p.started) :
    ((inserted p answers).foldl (ManifestCache.add deflate length) s.t).Current (Later s.invalidated) := by
  refine (List.foldlRecOn (motive := fun t : ManifestCache N X M B => t.Sane deflate ∧
    t.Current (Later s.invalidated)) _ _ ⟨h.sane, h.current⟩ fun t ht supply hsupply => ?_).2
  obtain ⟨hns, hstarted⟩ := inserted_namespaceId hsupply
  refine ⟨ht.1.add length supply, ht.2.add ht.1 length fun time htime => ?_⟩
  rw [hns] at htime
  rw [hstarted]
  exact hfresh (ne_nil_of_mem hsupply) _ htime rfl

theorem Guarded.step {e : Event N X M} (h : Guarded deflate inflate s)
    (hexec : exec deflate inflate length s e = some s') (hfresh : s.InsertsFresh e) :
    Guarded deflate inflate s' := by
  have htracks := h.toTracks.step hexec
  obtain ⟨mid, hhandle, rfl⟩ := Option.map_eq_some_iff.mp hexec
  have htimes : ∀ e ∈ s.invalidated, e.2 < s.clock + 1 := fun e he => Nat.lt_succ_of_lt (h.times e he)
  have hpast : ∀ r ∈ s.returned, r.time ≤ s.clock + 1 := fun r hr => Nat.le_succ_of_le (h.past r hr)
  cases e with
  | lookupMultiple namespaceId objectNames consistentRead shouldCache =>
    cases hhandle
    refine (h.lookupMultiple namespaceId objectNames consistentRead shouldCache).tick ?_
    rw [lookupMultiple_clock]
    exact Nat.le_succ _
  | answer i answers =>
    obtain ⟨p, hp, rfl⟩ := Option.map_eq_some_iff.mp hhandle
    exact ⟨htracks, h.insert length (hfresh p hp), htimes, hpast, h.fresh⟩
  | add namespaceId objectName manifest =>
    cases hhandle
    exact ⟨htracks, h.current.add h.sane length fun time htime => h.times _ htime, htimes, hpast, h.fresh⟩
  | remove namespaceId objectName =>
    cases hhandle
    exact ⟨htracks, h.current.remove h.sane namespaceId objectName, htimes, hpast, h.fresh⟩
  | invalidate namespaceId =>
    cases hhandle
    refine ⟨htracks, h.current.invalidate ?_, ?_, hpast, ?_⟩
    · intro ns supply hns hlater time htime
      rcases mem_cons.mp htime with heq | htime
      · exact absurd (congrArg Prod.fst heq) hns
      · exact hlater time htime
    · exact forall_mem_cons.mpr ⟨Nat.lt_succ_self _, htimes⟩
    · intro r hr time htime hbefore
      rcases mem_cons.mp htime with heq | htime
      · have hclock : time = s.clock := congrArg Prod.snd heq
        exact absurd (h.past r hr) (by omega)
      · exact h.fresh r hr time htime hbefore

theorem guarded_initial (deflate : M → B) (inflate : B → M) (maxSize : Int) (example' : N × Nat × X) :
    Guarded deflate inflate (initial maxSize example') where
  sane := ⟨fun _ he => absurd he not_mem_nil, nofun⟩
  matching _ hr := absurd hr not_mem_nil
  current _ he := absurd he not_mem_nil
  times _ he := absurd he not_mem_nil
  past _ hr := absurd hr not_mem_nil
  fresh _ hr := absurd hr not_mem_nil

/-- A manifest that is returned as `Fast` was supplied for the namespace and name it is returned for; and,
if no manifest is inserted that was asked for before an invalidation of its namespace, by a call that started
after all invalidations of the namespace. -/
theorem fast_manifests (deflate : M → B) (inflate : B → M) (length : B → Int) (maxSize : Int)
    (example' : N × Nat × X) (events : List (Event N X M)) :
    AllStates (exec deflate inflate length) (Matching deflate inflate) (initial maxSize example') events ∧
      (AllSteps (exec deflate inflate length) InsertsFresh (initial maxSize example') events →
        AllStates (exec deflate inflate length) Fresh (initial maxSize example') events) := by
  have hinitial := guarded_initial deflate inflate maxSize example'
  refine ⟨?_, fun hfresh => ?_⟩
  · exact allStates_of_allSteps (fun _ h => h.matching) (fun _ _ _ h hexec _ => h.step hexec)
      hinitial.toTracks (allSteps_of_forall (G := fun _ _ => True) (fun _ _ _ => trivial) _)
  · exact allStates_of_allSteps (fun _ h => h.fresh) (fun _ _ _ h hexec hG => h.step hexec hG) hinitial
      hfresh

/-- The manifest arrives before the invalidation, and is asked for again after it. -/
theorem fast_manifests_in_order :
    let events : List (Event Nat Nat Nat) := [.lookupMultiple 1 [7] false true, .answer 0 [some 40],
      .lookupMultiple 1 [7] false true, .invalidate 1, .lookupMultiple 1 [7] false true]
    AllStates (exec id id fun _ => 1) Fresh (initial 100 (0, 0, 0)) events :=
  (fast_manifests id id (fun _ => 1) 100 (0, 0, 0) _).2 (by decide +kernel)

/-- The answer to a lookup from before the invalidation is put under the new epoch, and returned to the next
lookup. -/
theorem old_manifest_returned :
    let events : List (Event Nat Nat Nat) := [.lookupMultiple 1 [7] false true, .invalidate 1,
      .answer 0 [some 40], .lookupMultiple 1 [7] false true]
    ¬ AllStates (exec id id fun _ => 1) Fresh (initial 100 (0, 0, 0)) events := by
  intro events h
  let s : Lookups Nat Nat Nat Nat := run (exec id id fun _ => 1) (initial 100 (0, 0, 0)) events
  have hreturned : s.returned = [⟨1, 7, 40, 3, ⟨1, 7, 40, 0⟩⟩] := by decide +kernel
  have hinvalidated : s.invalidated = [(1, 1)] := by decide +kernel
  have hlate := h.last _ (hreturned ▸ mem_singleton_self _) 1 (hinvalidated ▸ mem_singleton_self _)
    (by decide)
  exact absurd hlate (by decide)

end Lookups

end Alba.Client
