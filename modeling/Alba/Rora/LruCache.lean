import Alba.ProofKit.KeyLists
import Alba.ProofKit.Traces

/-! `UnsafeLRUCache` of the C++ client, over any keys and values, and what it holds after any sequence of
operations. The cache makes room before it looks whether the key is present. -/

set_option linter.unusedSectionVars false

namespace Alba.Rora

open ProofKit List

variable {K V : Type} [DecidableEq K]

/-- The entries of the bimap in the order of its right view: the least recently used one first. The left
view is a set: one entry at most has a key. -/
structure LruCache (K V : Type) where
  capacity : Nat
  bimap : List (K × V)

namespace LruCache

/-- A capacity of 0 is refused. -/
def create (capacity : Nat) : Option (LruCache K V) :=
  if capacity = 0 then none else some { capacity, bimap := [] }

def find (c : LruCache K V) (k : K) : Option V × LruCache K V :=
  match c.bimap.find? fun e => e.1 = k with
  | some e => (some e.2, { c with bimap := eraseKey c.bimap k ++ [e] })
  | none => (none, c)

def insert (c : LruCache K V) (k : K) (v : V) : LruCache K V :=
  let bimap := if c.bimap.length ≥ c.capacity then c.bimap.tail else c.bimap
  if hasKey bimap k then { c with bimap := eraseKey bimap k ++ [(k, v)] }
  else { c with bimap := bimap ++ [(k, v)] }

def erase (c : LruCache K V) (k : K) : Bool × LruCache K V :=
  (hasKey c.bimap k, { c with bimap := eraseKey c.bimap k })

end LruCache

inductive CacheOp (K V : Type)
  | insert (k : K) (v : V)
  | find (k : K)
  | erase (k : K)

namespace LruCache

def exec (c : LruCache K V) : CacheOp K V → LruCache K V
  | .insert k v => c.insert k v
  | .find k => (c.find k).2
  | .erase k => (c.erase k).2

end LruCache

section History

/-- The last `n` elements. -/
def latest {α : Type} (n : Nat) (l : List α) : List α := l.drop (l.length - n)

/-- The keys that were inserted and not erased since, each with the value of its last insert, in the
order of their last use. A key is found if it is one of the last `n`. -/
def recordUse (n : Nat) (uses : List (K × V)) : CacheOp K V → List (K × V)
  | .insert k v => eraseKey uses k ++ [(k, v)]
  | .find k =>
    match (latest n uses).find? fun e => e.1 = k with
    | some e => eraseKey uses k ++ [e]
    | none => uses
  | .erase k => eraseKey uses k

/-- The cache beside the keys that were used. -/
structure Used (K V : Type) where
  cache : LruCache K V
  uses : List (K × V)

def Used.after (s : Used K V) (op : CacheOp K V) : Used K V :=
  { cache := s.cache.exec op, uses := recordUse s.cache.capacity s.uses op }

def Used.exec (s : Used K V) (op : CacheOp K V) : Option (Used K V) := some (s.after op)

/-- The cache holds the keys that were used last, as many as it has room for. -/
def HoldsLatest (s : Used K V) : Prop :=
  ∀ e, e ∈ s.cache.bimap ↔ e ∈ latest s.cache.capacity s.uses

/-- A full cache is not asked to insert a key again that it has, unless that is the least recently used
one; and a key is not erased from the cache after another one was evicted. -/
def KeepsLatest (s : Used K V) : CacheOp K V → Prop
  | .insert k _ => s.cache.bimap.length ≥ s.cache.capacity → hasKey s.cache.bimap.tail k = false
  | .find _ => True
  | .erase k => hasKey s.cache.bimap k = true → s.uses.length ≤ s.cache.capacity

instance (s : Used K V) : (op : CacheOp K V) → Decidable (KeepsLatest s op)
  | .insert _ _ => inferInstanceAs (Decidable (_ → _))
  | .find _ => isTrue trivial
  | .erase _ => inferInstanceAs (Decidable (_ → _))

end History

section Invariant

variable {s : Used K V} {evicted : List (K × V)}

/-- The keys that were used are the evicted ones, then those in the cache. -/
structure Ordered (s : Used K V) (evicted : List (K × V)) : Prop where
  uses : s.uses = evicted ++ s.cache.bimap
  room : s.cache.bimap.length ≤ s.cache.capacity
  full : evicted = [] ∨ s.cache.bimap.length = s.cache.capacity
  distinct : KeysNodup s.uses

theorem latest_append {α : Type} {n : Nat} {before last : List α}
    (h : (before = [] ∧ last.length ≤ n) ∨ last.length = n) : latest n (before ++ last) = last := by
  rw [latest, length_append]
  rcases h with ⟨rfl, hle⟩ | heq
  · rw [nil_append, show List.length [] + last.length - n = 0 by simp only [length_nil]; omega]
    rfl
  · rw [show before.length + last.length - n = before.length by omega, drop_left]

theorem Ordered.latest (h : Ordered s evicted) : latest s.cache.capacity s.uses = s.cache.bimap := by
  rw [h.uses]
  exact latest_append (h.full.imp_left fun he => ⟨he, h.room⟩)

theorem Ordered.holdsLatest (h : Ordered s evicted) : HoldsLatest s := by
  rw [HoldsLatest, h.latest]
  exact fun e => Iff.rfl

theorem ordered_find (h : Ordered s evicted) (k : K) : Ordered (s.after (.find k)) evicted := by
  rw [Used.after, recordUse, h.latest, LruCache.exec, LruCache.find]
  cases hfind : s.cache.bimap.find? fun e => e.1 = k with
  | none => exact h
  | some e =>
    obtain rfl : e.1 = k := by simpa using find?_some hfind
    have hk : hasKey s.cache.bimap e.1 = true := hasKey_eq_true.mpr ⟨e.2, mem_of_find?_eq_some hfind⟩
    have hdistinct := h.distinct
    rw [h.uses] at hdistinct
    have hbimap : KeysNodup s.cache.bimap := hdistinct.sublist ((sublist_append_right _ _).map _)
    have hlength : (eraseKey s.cache.bimap e.1 ++ [e]).length = s.cache.bimap.length := by
      rw [length_append]
      exact hbimap.length_eraseKey hk
    exact {
      uses := by
        simp only
        rw [h.uses, eraseKey_append, eraseKey_of_not_hasKey (hdistinct.not_hasKey_left hk),
          append_assoc]
      room := hlength ▸ h.room
      full := hlength ▸ h.full
      distinct := h.distinct.snoc_eraseKey e.2 }

theorem insert_eq (c : LruCache K V) (k : K) (v : V) : c.insert k v = { c with
    bimap := eraseKey (if c.bimap.length ≥ c.capacity then c.bimap.tail else c.bimap) k ++ [(k, v)] } := by
  rw [LruCache.insert]
  generalize (if c.bimap.length ≥ c.capacity then c.bimap.tail else c.bimap) = bimap
  cases hk : hasKey bimap k with
  | true => rfl
  | false =>
    rw [eraseKey_of_not_hasKey hk]
    rfl

theorem capacity_after (op : CacheOp K V) : (s.after op).cache.capacity = s.cache.capacity := by
  cases op with
  | insert k v =>
    rw [Used.after, LruCache.exec, insert_eq]
  | find k =>
    rw [Used.after, LruCache.exec, LruCache.find]
    dsimp only
    split <;> rfl
  | erase k => rfl

theorem Ordered.bimap_distinct (h : Ordered s evicted) : KeysNodup s.cache.bimap := by
  have hdistinct := h.distinct
  rw [h.uses] at hdistinct
  exact hdistinct.sublist ((sublist_append_right _ _).map _)

section Insert

variable {evicted : List (K × V)} (k : K) (v : V)

theorem insert_full (h : Ordered s evicted) (hfull : s.cache.bimap.length ≥ s.cache.capacity)
    {x : K × V} {rest : List (K × V)} (hbimap : s.cache.bimap = x :: rest) :
    (s.after (.insert k v)).cache.bimap = eraseKey rest k ++ [(k, v)] ∧
      (s.after (.insert k v)).uses =
        eraseKey (evicted ++ [x]) k ++ (eraseKey rest k ++ [(k, v)]) := by
  constructor
  · rw [Used.after, LruCache.exec, insert_eq, if_pos hfull, hbimap]
    rfl
  · rw [Used.after, recordUse, h.uses, hbimap, append_cons evicted x rest, eraseKey_append, append_assoc]

theorem ordered_insert (h : Ordered s evicted) (hcapacity : 1 ≤ s.cache.capacity)
    (hkeeps : KeepsLatest s (.insert k v)) : ∃ evicted', Ordered (s.after (.insert k v)) evicted' := by
  by_cases hfull : s.cache.bimap.length ≥ s.cache.capacity
  · obtain ⟨x, rest, hbimap⟩ : ∃ x rest, s.cache.bimap = x :: rest :=
      exists_cons_of_ne_nil fun hnil => by
        rw [hnil, length_nil] at hfull
        omega
    obtain ⟨hcache, huses⟩ := insert_full k v h hfull hbimap
    have hrest : eraseKey rest k = rest := by
      have htail := hkeeps hfull
      rw [hbimap, tail_cons] at htail
      exact eraseKey_of_not_hasKey htail
    have hlength : (eraseKey rest k ++ [(k, v)]).length = s.cache.capacity := by
      have hroom := h.room
      rw [hbimap, length_cons] at hroom hfull
      rw [hrest, length_append, length_singleton]
      omega
    exact ⟨eraseKey (evicted ++ [x]) k, by rw [huses, hcache], by rw [hcache, hlength, capacity_after],
      .inr (by rw [hcache, hlength, capacity_after]), h.distinct.snoc_eraseKey v⟩
  · have hevicted : evicted = [] := h.full.resolve_right (by omega)
    have hcache : (s.after (.insert k v)).cache.bimap = eraseKey s.cache.bimap k ++ [(k, v)] := by
      rw [Used.after, LruCache.exec, insert_eq, if_neg hfull]
    refine ⟨[], ?_, ?_, .inl rfl, h.distinct.snoc_eraseKey v⟩
    · rw [nil_append, hcache, Used.after, recordUse, h.uses, hevicted, nil_append]
    · have hle : (eraseKey s.cache.bimap k).length ≤ s.cache.bimap.length := length_filter_le _ _
      rw [hcache, capacity_after, length_append, length_singleton]
      omega

theorem not_holdsLatest_insert (h : Ordered s evicted) (hcapacity : 1 ≤ s.cache.capacity)
    (hkeeps : ¬ KeepsLatest s (.insert k v)) : ¬ HoldsLatest (s.after (.insert k v)) := by
  obtain ⟨hfull, hk⟩ := Classical.not_imp.mp hkeeps
  obtain ⟨x, rest, hbimap⟩ : ∃ x rest, s.cache.bimap = x :: rest :=
    exists_cons_of_ne_nil fun hnil => by
      rw [hnil, length_nil] at hfull
      omega
  obtain ⟨hcache, huses⟩ := insert_full k v h hfull hbimap
  rw [hbimap, tail_cons, Bool.not_eq_false] at hk
  have hdistinct := h.bimap_distinct
  rw [hbimap] at hdistinct
  have hx : x.1 ≠ k := by
    have hnot : hasKey [x] k = false := KeysNodup.not_hasKey_left (l := [x]) hdistinct hk
    exact hasKey_eq_false.mp hnot x (mem_singleton_self x)
  -- it would be the first of the last keys
  have hlatest : latest (s.after (.insert k v)).cache.capacity (s.after (.insert k v)).uses =
      x :: (eraseKey rest k ++ [(k, v)]) := by
    have hlast : eraseKey (evicted ++ [x]) k = eraseKey evicted k ++ [x] := by
      rw [eraseKey_append, eraseKey_of_not_hasKey (l := [x]) (hasKey_eq_false.mpr (by simpa using hx))]
    have hrest : KeysNodup rest := List.Nodup.of_cons hdistinct
    have hlength := hrest.length_eraseKey hk
    have hroom := h.room
    rw [hbimap, length_cons] at hroom hfull
    rw [capacity_after, huses, hlast, append_assoc]
    refine latest_append (.inr ?_)
    simp only [singleton_append, length_cons, length_append, length_nil]
    omega
  intro hholds
  have hmem := (hholds x).mpr (hlatest ▸ mem_cons_self)
  rw [hcache] at hmem
  rcases mem_append.mp hmem with hmem | hmem
  · have hnot := (nodup_cons.mp hdistinct).1
    exact hnot (mem_map_of_mem (mem_eraseKey.mp hmem).1)
  · rw [mem_singleton.mp hmem] at hx
    exact hx rfl

end Insert

section Erase

variable {evicted : List (K × V)} (k : K)

theorem ordered_erase (h : Ordered s evicted) (hkeeps : KeepsLatest s (.erase k)) :
    ∃ evicted', Ordered (s.after (.erase k)) evicted' := by
  cases hk : hasKey s.cache.bimap k with
  | false =>
    have hcache : (s.after (.erase k)).cache.bimap = s.cache.bimap := eraseKey_of_not_hasKey hk
    refine ⟨eraseKey evicted k, ?_, ?_, ?_, h.distinct.eraseKey⟩
    · rw [Used.after, recordUse, h.uses, eraseKey_append]
      rfl
    · rw [hcache, capacity_after]
      exact h.room
    · rw [hcache, capacity_after]
      exact h.full.imp_left fun hnil => by rw [hnil]; rfl
  | true =>
    have hevicted : evicted = [] := by
      have hall := hkeeps hk
      rw [h.uses, length_append] at hall
      rcases h.full with hnil | hfull
      · exact hnil
      · exact eq_nil_of_length_eq_zero (by omega)
    refine ⟨[], ?_, ?_, .inl rfl, h.distinct.eraseKey⟩
    · rw [Used.after, recordUse, h.uses, hevicted]
      rfl
    · rw [capacity_after]
      exact Nat.le_trans (length_filter_le _ _) h.room

theorem not_holdsLatest_erase (h : Ordered s evicted) (hkeeps : ¬ KeepsLatest s (.erase k)) :
    ¬ HoldsLatest (s.after (.erase k)) := by
  obtain ⟨hk, hmore⟩ := Classical.not_imp.mp hkeeps
  have hdistinct := h.distinct
  have hroom := h.room
  rw [h.uses] at hdistinct hmore
  rw [length_append] at hmore
  have hne : evicted ≠ [] := fun hnil => by
    rw [hnil, length_nil] at hmore
    omega
  have hfull := h.full.resolve_left hne
  obtain ⟨before, y, rfl⟩ := eq_nil_or_concat evicted |>.resolve_left hne
  have huses : (s.after (.erase k)).uses = before ++ (y :: eraseKey s.cache.bimap k) := by
    rw [Used.after, recordUse, h.uses, eraseKey_append,
      eraseKey_of_not_hasKey (hdistinct.not_hasKey_left hk), concat_eq_append, append_assoc]
    rfl
  have hlatest : latest (s.after (.erase k)).cache.capacity (s.after (.erase k)).uses =
      y :: eraseKey s.cache.bimap k := by
    have hlength := h.bimap_distinct.length_eraseKey hk
    rw [capacity_after, huses]
    refine latest_append (.inr ?_)
    rw [length_cons]
    omega
  intro hholds
  have hmem := (hholds y).mpr (hlatest ▸ mem_cons_self)
  have hcached : hasKey s.cache.bimap y.1 = true := hasKey_eq_true.mpr ⟨y.2, (mem_eraseKey.mp hmem).1⟩
  have hnot := hasKey_eq_false.mp (hdistinct.not_hasKey_left hcached)
  exact hnot y (by simp) rfl

end Erase

end Invariant

/-- The cache holds the keys that were used last after every operation, exactly if no operation evicts a
key too many and none erases a key after an eviction. -/
theorem holds_latest_iff (capacity : Nat) (hcapacity : 1 ≤ capacity) (ops : List (CacheOp K V)) :
    AllStates Used.exec HoldsLatest { cache := { capacity, bimap := [] }, uses := [] } ops ↔
      AllSteps Used.exec KeepsLatest { cache := { capacity, bimap := [] }, uses := [] } ops := by
  refine allStates_iff_allSteps (I := fun s : Used K V =>
    s.cache.capacity = capacity ∧ ∃ evicted, Ordered s evicted) ?_ ?_ ?_ ⟨rfl, [], ?_⟩ ops
  · rintro s ⟨-, evicted, h⟩
    exact h.holdsLatest
  · rintro s op s' ⟨rfl, evicted, h⟩ ⟨rfl⟩ hkeeps
    refine ⟨capacity_after op, ?_⟩
    cases op with
    | insert k v => exact ordered_insert k v h hcapacity hkeeps
    | find k => exact ⟨evicted, ordered_find h k⟩
    | erase k => exact ordered_erase k h hkeeps
  · rintro s op s' ⟨rfl, evicted, h⟩ ⟨rfl⟩ hkeeps
    cases op with
    | insert k v => exact not_holdsLatest_insert k v h hcapacity hkeeps
    | find k => exact absurd trivial hkeeps
    | erase k => exact not_holdsLatest_erase k h hkeeps
  · exact ⟨rfl, Nat.zero_le _, .inl rfl, nodup_nil⟩

/-- In a full cache of two keys, the second one is inserted again: the first one is gone. -/
theorem inserted_again_evicts :
    ¬ HoldsLatest (run Used.exec { cache := { capacity := 2, bimap := [] }, uses := [] }
      [.insert 1 10, .insert 2 20, .insert (2 : Nat) (21 : Nat)]) := by
  intro h
  exact absurd ((h (1, 10)).mpr (by decide)) (by decide)

theorem holds_latest_two :
    AllStates Used.exec HoldsLatest { cache := { capacity := 2, bimap := [] }, uses := [] }
      [.insert 1 10, .insert 2 20, .find 1, .insert (3 : Nat) (30 : Nat), .insert 1 11] :=
  (holds_latest_iff 2 (by decide) _).mpr (by decide)

end Alba.Rora
