import Alba.ProofKit.Cells
import Alba.Tools.Cache

/-! What the weighted cache keeps: its table and its list hold the same entries, the most recently used
ones first, and `size` is the sum of their weights, as long as no entry with a weight is removed. -/

set_option linter.unusedSectionVars false

namespace Alba.Tools

open List hiding next
open ProofKit

variable {K V : Type} [DecidableEq K]

namespace Cache

def nodeOf (e : K × (V × Nat)) : Nat := e.2.2

/-- The table holds these entries, and their nodes are linked in this order. -/
structure Holds (c : Cache K V) (l : List (K × (V × Nat))) : Prop where
  perm : c.h.Perm l
  keys : KeysNodup l
  chained : c.links.Chained (front :: l.map nodeOf ++ [back])
  named : ∀ e ∈ l, c.key (nodeOf e) = e.1
  made : ∀ e ∈ l, nodeOf e < c.used
  sentinels : 2 ≤ c.used

variable {c : Cache K V} {l : List (K × (V × Nat))} {e : K × (V × Nat)} {k : K}

theorem Holds.find? (h : Holds c l) (he : e ∈ l) : c.find? e.1 = some e.2 := by
  have hkeys : (c.h.map Prod.fst).Nodup := (h.perm.map Prod.fst).nodup_iff.mpr h.keys
  rw [Cache.find?, find?_of_nodup hkeys (h.perm.mem_iff.mpr he)]
  rfl

theorem Holds.mem_of_find? (h : Holds c l) {x : V × Nat} (hx : c.find? k = some x) : (k, x) ∈ l :=
  h.perm.mem_iff.mp (Cache.mem_of_find? hx)

theorem Holds.hasKey_of_find? (h : Holds c l) (hx : c.find? k = none) : hasKey l k = false := by
  refine hasKey_eq_false.mpr fun e he heq => ?_
  have hfound := h.find? he
  rw [heq, hx] at hfound
  cases hfound

theorem Holds.rehash (h : Holds c l) {h' : List (K × (V × Nat))} (hperm : h'.Perm l) :
    Holds { c with h := h' } l :=
  ⟨hperm, h.keys, h.chained, h.named, h.made, h.sentinels⟩

theorem Holds.resize (h : Holds c l) (size : Int) : Holds { c with size } l :=
  ⟨h.perm, h.keys, h.chained, h.named, h.made, h.sentinels⟩

theorem Holds.erase {before after : List (K × (V × Nat))} (h : Holds c (before ++ e :: after)) :
    Holds { c.unlinkNode (nodeOf e) with h := eraseKey c.h e.1 } (before ++ after) where
  perm := by
    have hfilter := h.perm.filter fun x => decide (x.1 ≠ e.1)
    have herased := h.keys.eraseKey_eq
    rw [eraseKey] at herased
    rw [herased] at hfilter
    exact hfilter
  keys := h.keys.eraseKey_eq ▸ h.keys.eraseKey
  chained := by
    have hchained := h.chained
    rw [map_append, map_cons] at hchained
    rw [map_append]
    exact hchained.erase
  named x hx := h.named x (((sublist_cons_self e after).append_left before).subset hx)
  made x hx := h.made x (((sublist_cons_self e after).append_left before).subset hx)
  sentinels := h.sentinels

theorem Holds.push (h : Holds c l) {n : Nat} (v : V) (hk : hasKey l k = false)
    (hn : n ∉ front :: l.map nodeOf ++ [back]) (hkey : c.key n = k) (hused : n < c.used) :
    Holds { c.insertNode n with h := (k, (v, n)) :: c.h } ((k, (v, n)) :: l) where
  perm := h.perm.cons _
  keys := nodup_cons.mpr ⟨fun hmem => by
    obtain ⟨x, hx, heq⟩ := mem_map.mp hmem
    exact hasKey_eq_false.mp hk x hx heq, h.keys⟩
  chained := by
    obtain ⟨first, rest, hrest⟩ : ∃ first rest, l.map nodeOf ++ [back] = first :: rest :=
      exists_cons_of_ne_nil (by simp)
    have hchained := h.chained
    rw [cons_append, hrest] at hchained hn
    rw [map_cons, cons_append, cons_append, hrest]
    exact hchained.insert hn
  named := forall_mem_cons.mpr ⟨hkey, h.named⟩
  made := forall_mem_cons.mpr ⟨hused, h.made⟩
  sentinels := h.sentinels

theorem Holds.touch (h : Holds c l) {v : V} {n : Nat} (he : (k, (v, n)) ∈ l) (v' : V) :
    Holds { (c.unlinkNode n).insertNode n with h := (k, (v', n)) :: eraseKey c.h k }
      ((k, (v', n)) :: eraseKey l k) := by
  obtain ⟨before, after, rfl⟩ := append_of_mem he
  have hnodes := h.chained.distinct
  have herased := h.erase
  rw [h.keys.eraseKey_eq]
  refine herased.push v' ?_ ?_ (h.named _ he) (h.made _ he)
  · rw [← h.keys.eraseKey_eq]
    exact hasKey_eq_false.mpr fun x hx => (mem_eraseKey.mp hx).2
  · simp only [map_append, map_cons, cons_append, append_assoc, nodeOf] at hnodes
    have hperm : (front :: (before.map nodeOf ++ n :: (after.map nodeOf ++ [back]))).Perm
        (n :: (front :: (before ++ after).map nodeOf ++ [back])) := by
      rw [map_append, cons_append, append_assoc]
      exact (perm_middle.cons front).trans (List.Perm.swap n front _)
    exact (nodup_cons.mp (hperm.nodup_iff.mp hnodes)).1

theorem Holds.not_mem_used (h : Holds c l) : c.used ∉ front :: l.map nodeOf ++ [back] := by
  have hsentinels := h.sentinels
  simp only [cons_append, mem_cons, mem_append, mem_map, not_mem_nil, or_false,
    not_or, not_exists, not_and]
  refine ⟨?_, fun e he heq => ?_, ?_⟩
  · exact fun heq => absurd (heq ▸ hsentinels) (by decide)
  · exact absurd (h.made e he) (by omega)
  · exact fun heq => absurd (heq ▸ hsentinels) (by decide)

theorem Holds.makeNode (h : Holds c l) (k : K) : Holds (c.makeNode k) l where
  perm := h.perm
  keys := h.keys
  chained := h.chained.update h.not_mem_used _ _
  named e he := by
    have hne : nodeOf e ≠ c.used := Nat.ne_of_lt (h.made e he)
    exact (Function.update_of_ne hne _ _).trans (h.named e he)
  made e he := Nat.lt_succ_of_lt (h.made e he)
  sentinels := Nat.le_succ_of_le h.sentinels

/-! ### Eviction -/

section Weighted

variable {weight : V → Int}

def total (weight : V → Int) (l : List (K × (V × Nat))) : Int := (l.map fun e => weight e.2.1).sum

theorem total_cons (e : K × (V × Nat)) : total weight (e :: l) = weight e.2.1 + total weight l := rfl

theorem total_append (l' : List (K × (V × Nat))) :
    total weight (l ++ l') = total weight l + total weight l' := by
  rw [total, map_append, sum_append, total, total]

theorem total_perm {l' : List (K × (V × Nat))} (h : l.Perm l') : total weight l = total weight l' :=
  (h.map _).sum_eq

theorem total_eraseKey {v : V} {n : Nat} (hkeys : KeysNodup l) (he : (k, (v, n)) ∈ l) :
    total weight l = weight v + total weight (eraseKey l k) :=
  total_perm (hkeys.perm_cons_eraseKey he)

theorem evict_heavy {w : Int} {rounds : Nat} (hheavy : c.size + w > c.maxSize)
    (he : c.find? (c.key (c.links.prev back)) = some e.2) (hkey : c.key (c.links.prev back) = e.1) :
    Cache.evict weight w (rounds + 1) c =
      Cache.evict weight w rounds
        { c.unlinkNode (c.links.prev back) with h := eraseKey c.h e.1, size := c.size - weight e.2.1 } := by
  have hnode : (c.unlinkNode (c.links.prev back)).key (c.links.prev back) = e.1 := hkey
  have hfind : (c.unlinkNode (c.links.prev back)).find? e.1 = some e.2 := hkey ▸ he
  rw [Cache.evict, if_pos hheavy]
  dsimp only
  rw [hnode, hfind]
  rfl

/-- Entries are evicted from the end of the list until the rest is not too heavy; the value that is being
added is counted although `size` does not have it yet. -/
theorem Holds.evict {w : Int} {rounds : Nat} (h : Holds c l) (hsize : c.size + w = total weight l)
    (hmax : 0 ≤ c.maxSize) (hrounds : l.length ≤ rounds) :
    ∃ c' kept evicted, Cache.evict weight w rounds c = .ok c' ∧ l = kept ++ evicted ∧ Holds c' kept ∧
      c'.size + w = total weight kept ∧ total weight kept ≤ c.maxSize ∧ c'.maxSize = c.maxSize := by
  induction rounds generalizing c l with
  | zero =>
    obtain rfl := eq_nil_of_length_eq_zero (Nat.le_zero.mp hrounds)
    have hzero : total weight ([] : List (K × (V × Nat))) = 0 := rfl
    refine ⟨c, [], [], ?_, rfl, h, hsize, by omega, rfl⟩
    rw [Cache.evict, if_neg (by omega)]
  | succ rounds ih =>
    by_cases hheavy : c.size + w > c.maxSize
    · -- an empty list is not too heavy
      rcases eq_nil_or_concat l with rfl | ⟨init, e, rfl⟩
      · have hzero : total weight ([] : List (K × (V × Nat))) = 0 := rfl
        omega
      rw [concat_eq_append] at h hsize hrounds ⊢
      have hvictim : c.links.prev back = nodeOf e := by
        have hchained : c.links.Chained ((front :: init.map nodeOf) ++ [nodeOf e, back]) := by
          simpa using h.chained
        exact hchained.prev_last
      have hmem : e ∈ init ++ [e] := mem_append_right _ (mem_singleton_self e)
      have hkey := h.named e hmem
      have hfound := h.find? hmem
      have hrest := h.erase.resize (c.size - weight e.2.1)
      rw [append_nil] at hrest
      have hlight : c.size - weight e.2.1 + w = total weight init := by
        rw [total_append, total_cons] at hsize
        have hzero : total weight ([] : List (K × (V × Nat))) = 0 := rfl
        omega
      rw [length_append, length_singleton] at hrounds
      obtain ⟨c', kept, evicted, hevict, hsplit, hholds, hsize', hlight', hmax'⟩ :=
        ih hrest hlight hmax (by omega)
      refine ⟨c', kept, evicted ++ [e], ?_, ?_, hholds, hsize', hlight', hmax'⟩
      · rw [evict_heavy hheavy (by rw [hvictim, hkey]; exact hfound) (by rw [hvictim]; exact hkey), hvictim]
        exact hevict
      · rw [hsplit, append_assoc]
    · exact ⟨c, l, [], by rw [Cache.evict, if_neg hheavy], (append_nil l).symm, h, hsize, by omega, rfl⟩

theorem Holds.add_present (weight : V → Int) (h : Holds c l) {oldV : V} {n : Nat} (hfind : c.find? k = some (oldV, n)) (v : V) :
    ∃ c', c.add weight k v = .ok c' ∧ Holds c' ((k, (v, n)) :: eraseKey l k) ∧
      c'.size = c.size - weight oldV + weight v ∧ c'.maxSize = c.maxSize := by
  rw [Cache.add, hfind]
  exact ⟨_, rfl, (h.touch (h.mem_of_find? hfind) v).resize _, rfl, rfl⟩

theorem Holds.add_absent (h : Holds c l) (hsize : c.size = total weight l) (hmax : 0 ≤ c.maxSize)
    (hfind : c.find? k = none) (v : V) :
    ∃ c' kept evicted, c.add weight k v = .ok c' ∧ (k, (v, c.used)) :: l = kept ++ evicted ∧
      Holds c' kept ∧ c'.size = total weight kept ∧ total weight kept ≤ c.maxSize ∧
      c'.maxSize = c.maxSize := by
  have hpush := (h.makeNode k).push v (h.hasKey_of_find? hfind) h.not_mem_used
    (Function.update_self ..) (Nat.lt_succ_self _)
  have hweight : c.size + weight v = total weight ((k, (v, c.used)) :: l) := by
    rw [total_cons, hsize]
    exact Int.add_comm ..
  have hrounds : ((k, (v, c.used)) :: l).length ≤ c.h.length + 1 + 1 := by
    rw [length_cons, ← h.perm.length_eq]
    omega
  obtain ⟨c', kept, evicted, hevict, hsplit, hholds, hsize', hlight, hmax'⟩ :=
    hpush.evict hweight hmax hrounds
  refine ⟨{ c' with size := c'.size + weight v }, kept, evicted, ?_, hsplit, hholds.resize _, hsize',
    hlight, hmax'⟩
  rw [Cache.add, hfind]
  exact congrArg (Except.map fun c : Cache K V => { c with size := c.size + weight v }) hevict

end Weighted

/-! ### The order of the list -/

theorem walk_eq {step : Nat → Nat} {stop first fuel : Nat} {nodes : List Nat}
    (hchain : (first :: nodes ++ [stop]).IsChain fun a b => step a = b) (hstop : stop ∉ nodes)
    (hfuel : nodes.length < fuel) : c.walk step stop fuel (step first) = nodes.map c.key := by
  induction nodes generalizing first fuel with
  | nil =>
    obtain ⟨fuel, rfl⟩ := Nat.exists_eq_succ_of_ne_zero (Nat.ne_of_gt hfuel)
    rw [walk, if_pos (isChain_cons_cons.mp hchain).1]
    rfl
  | cons n nodes ih =>
    obtain ⟨fuel, rfl⟩ := Nat.exists_eq_succ_of_ne_zero (Nat.ne_of_gt (Nat.zero_lt_of_lt hfuel))
    obtain ⟨hfirst, hrest⟩ := isChain_cons_cons.mp hchain
    simp only [mem_cons, not_or] at hstop
    rw [walk, hfirst, if_neg (Ne.symm hstop.1), map_cons]
    exact congrArg _ (ih hrest hstop.2 (Nat.lt_of_succ_lt_succ hfuel))

theorem Holds.length_lt (h : Holds c l) : (l.map nodeOf).length < c.used := by
  have hnodes : (front :: l.map nodeOf).Nodup := (nodup_append.mp h.chained.distinct).1
  have hrange : front :: l.map nodeOf ⊆ List.range c.used := by
    intro n hn
    rw [mem_range]
    rcases mem_cons.mp hn with rfl | hn
    · exact Nat.lt_of_lt_of_le (by decide) h.sentinels
    · obtain ⟨e, he, rfl⟩ := mem_map.mp hn
      exact h.made e he
  have hlength := (hnodes.subperm hrange).length_le
  rwa [length_cons, length_range] at hlength

theorem Holds.map_key (h : Holds c l) : (l.map nodeOf).map c.key = l.map Prod.fst := by
  rw [map_map]
  exact map_congr_left h.named

theorem Holds.orderNext (h : Holds c l) : c.orderNext = l.map Prod.fst := by
  have hback : back ∉ l.map nodeOf := fun hmem =>
    (nodup_append.mp h.chained.distinct).2.2 back (mem_cons_of_mem _ hmem) back
      (mem_singleton_self _) rfl
  rw [Cache.orderNext, walk_eq h.chained.next hback h.length_lt, h.map_key]

theorem Holds.orderPrev (h : Holds c l) : c.orderPrev = l.map Prod.fst := by
  have hfront : front ∉ (l.map nodeOf).reverse := by
    rw [mem_reverse]
    exact fun hmem => (nodup_cons.mp h.chained.distinct).1 (mem_append_left _ hmem)
  have hchain : (back :: (l.map nodeOf).reverse ++ [front]).IsChain fun a b => c.links.prev a = b := by
    have hreverse := isChain_reverse.mpr h.chained.prev
    simpa using hreverse
  rw [Cache.orderPrev, walk_eq hchain hfront (by simpa using h.length_lt), map_reverse,
    reverse_reverse, h.map_key]

/-! ### Sequences of operations -/

inductive Op (K V : Type)
  | add (k : K) (v : V)
  | lookup (k : K)
  | remove (k : K)
  | clear

/-- The cache beside all keys that were added or looked up, the last one first; and whether an operation
has raised. -/
structure Used (K V : Type) where
  cache : Cache K V
  recency : List K
  raised : Bool

def Used.initial (maxSize : Int) (exampleKey : K) : Used K V :=
  { cache := make maxSize exampleKey, recency := [], raised := false }

def use (recency : List K) (k : K) : List K := k :: recency.filter fun x => x ≠ k

section Runs

variable (weight : V → Int)

def Used.after (s : Used K V) : Op K V → Used K V
  | .add k v =>
    match s.cache.add weight k v with
    | .ok cache => { s with cache, recency := use s.recency k }
    | .error cache => { cache, recency := use s.recency k, raised := true }
  | .lookup k => { s with cache := (s.cache.lookup k).2, recency := use s.recency k }
  | .remove k => { s with cache := s.cache.remove k }
  | .clear => { s with cache := s.cache.clear }

def Used.exec (s : Used K V) (op : Op K V) : Option (Used K V) := some (s.after weight op)

/-- No operation has raised, the size is the sum of the weights, the list and the table have the same keys,
and the list has them in the order of their last use, seen from either end. -/
structure Books (s : Used K V) : Prop where
  unraised : s.raised = false
  size : s.cache.size = total weight s.cache.h
  same : ∀ k, k ∈ s.cache.orderNext ↔ s.cache.find? k ≠ none
  ends : s.cache.orderPrev = s.cache.orderNext
  ordered : s.cache.orderNext.Sublist s.recency

/-- A key that is added and was absent evicts the least recently used entries, from one of them on, and what
is left is not too heavy. -/
def EvictsSuffix (s : Used K V) : Op K V → Prop
  | .add k v => s.cache.find? k = none →
      let s' := s.after weight (.add k v)
      total weight s'.cache.h ≤ s.cache.maxSize ∧
      (∃ evicted, k :: s.cache.orderNext = s'.cache.orderNext ++ evicted) ∧
      ∀ x ∈ s'.cache.orderNext, (s'.cache.find? x).map Prod.fst =
        if x = k then some v else (s.cache.find? x).map Prod.fst
  | _ => True

/-- A key that is removed is absent or weighs nothing. -/
def RemovesNoWeight (s : Used K V) : Op K V → Prop
  | .remove k => ∀ x ∈ s.cache.find? k, weight x.1 = 0
  | _ => True

instance (s : Used K V) (op : Op K V) : Decidable (RemovesNoWeight weight s op) := by
  unfold RemovesNoWeight
  split <;> infer_instance

/-- What the cache keeps as long as no weight is removed. -/
structure Kept (s : Used K V) (l : List (K × (V × Nat))) : Prop where
  holds : Holds s.cache l
  unraised : s.raised = false
  room : 0 ≤ s.cache.maxSize
  size : s.cache.size = total weight l
  distinct : s.recency.Nodup
  ordered : (l.map Prod.fst).Sublist s.recency

end Runs

variable {weight : V → Int} {s : Used K V}

theorem Kept.books (h : Kept weight s l) : Books weight s where
  unraised := h.unraised
  size := h.size.trans (total_perm h.holds.perm.symm)
  same k := by
    rw [h.holds.orderNext, mem_map]
    constructor
    · rintro ⟨e, he, rfl⟩
      rw [h.holds.find? he]
      exact Option.some_ne_none _
    · intro hne
      obtain ⟨x, hx⟩ := Option.ne_none_iff_exists'.mp hne
      exact ⟨(k, x), h.holds.mem_of_find? hx, rfl⟩
  ends := by rw [h.holds.orderPrev, h.holds.orderNext]
  ordered := by
    rw [h.holds.orderNext]
    exact h.ordered

theorem nodup_use {recency : List K} (h : recency.Nodup) (k : K) : (use recency k).Nodup :=
  nodup_cons.mpr ⟨by simp, h.filter _⟩

theorem sublist_filter {recency : List K} (h : (l.map Prod.fst).Sublist recency) (k : K) :
    ((eraseKey l k).map Prod.fst).Sublist (recency.filter fun x => x ≠ k) := by
  have hfilter : (eraseKey l k).map Prod.fst = (l.map Prod.fst).filter fun y => y ≠ k := by
    rw [eraseKey, filter_map]
    rfl
  rw [hfilter]
  exact h.filter _

theorem Kept.add_present (h : Kept weight s l) {oldV : V} {n : Nat}
    (hfind : s.cache.find? k = some (oldV, n)) (v : V) :
    Kept weight (s.after weight (.add k v)) ((k, (v, n)) :: eraseKey l k) := by
  obtain ⟨c', hadd, hholds, hsize, hmax⟩ := h.holds.add_present weight hfind v
  rw [Used.after, hadd]
  refine ⟨hholds, h.unraised, hmax ▸ h.room, ?_, nodup_use h.distinct k,
    (sublist_filter h.ordered k).cons_cons k⟩
  rw [hsize, h.size, total_cons, total_eraseKey h.holds.keys (h.holds.mem_of_find? hfind)]
  dsimp only
  omega

theorem Kept.add_absent (h : Kept weight s l) (hfind : s.cache.find? k = none) (v : V) :
    ∃ kept evicted, (k, (v, s.cache.used)) :: l = kept ++ evicted ∧
      Kept weight (s.after weight (.add k v)) kept ∧ total weight kept ≤ s.cache.maxSize := by
  obtain ⟨c', kept, evicted, hadd, hsplit, hholds, hsize, hlight, hmax⟩ :=
    h.holds.add_absent h.size h.room hfind v
  refine ⟨kept, evicted, hsplit, ?_, hlight⟩
  rw [Used.after, hadd]
  refine ⟨hholds, h.unraised, hmax ▸ h.room, hsize, nodup_use h.distinct k, ?_⟩
  have hused : (((k, (v, s.cache.used)) :: l).map Prod.fst).Sublist (use s.recency k) := by
    have hothers := sublist_filter h.ordered k
    rw [eraseKey_of_not_hasKey (h.holds.hasKey_of_find? hfind)] at hothers
    exact hothers.cons_cons k
  refine List.Sublist.trans ?_ hused
  rw [hsplit, map_append]
  exact sublist_append_left _ _

theorem Kept.lookup (h : Kept weight s l) (k : K) :
    ∃ l', Kept weight (s.after weight (.lookup k)) l' := by
  rw [Used.after, Cache.lookup]
  cases hfind : s.cache.find? k with
  | none =>
    have hothers := sublist_filter h.ordered k
    rw [eraseKey_of_not_hasKey (h.holds.hasKey_of_find? hfind)] at hothers
    exact ⟨l, h.holds, h.unraised, h.room, h.size, nodup_use h.distinct k, hothers.cons k⟩
  | some x =>
    obtain ⟨v, n⟩ := x
    have hmem := h.holds.mem_of_find? hfind
    have hperm : l.Perm ((k, (v, n)) :: eraseKey l k) := h.holds.keys.perm_cons_eraseKey hmem
    refine ⟨(k, (v, n)) :: eraseKey l k, (h.holds.touch hmem v).rehash (h.holds.perm.trans hperm),
      h.unraised, h.room, h.size.trans (total_perm hperm), nodup_use h.distinct k,
      (sublist_filter h.ordered k).cons_cons k⟩

theorem Kept.remove (h : Kept weight s l) (hweight : RemovesNoWeight weight s (.remove k)) :
    ∃ l', Kept weight (s.after weight (.remove k)) l' := by
  rw [Used.after, Cache.remove]
  cases hfind : s.cache.find? k with
  | none => exact ⟨l, h⟩
  | some x =>
    obtain ⟨v, n⟩ := x
    have hmem := h.holds.mem_of_find? hfind
    have hzero : weight v = 0 := hweight (v, n) hfind
    have htotal : total weight l = weight v + total weight (eraseKey l k) :=
      total_eraseKey h.holds.keys hmem
    obtain ⟨before, after, rfl⟩ := append_of_mem hmem
    rw [h.holds.keys.eraseKey_eq, hzero, Int.zero_add] at htotal
    refine ⟨before ++ after, h.holds.erase, h.unraised, h.room, h.size.trans htotal, h.distinct, ?_⟩
    refine List.Sublist.trans ?_ h.ordered
    exact ((sublist_cons_self _ after).append_left before).map Prod.fst

theorem holds_nil (hh : c.h = []) (hnext : c.links.next front = back)
    (hprev : c.links.prev back = front) (hused : 2 ≤ c.used) : Holds c [] where
  perm := hh ▸ .nil
  keys := nodup_nil
  chained :=
    { next := isChain_cons_cons.mpr ⟨hnext, isChain_singleton _⟩
      prev := isChain_cons_cons.mpr ⟨hprev, isChain_singleton _⟩
      distinct := (by decide : [front, back].Nodup) }
  named _ he := absurd he not_mem_nil
  made _ he := absurd he not_mem_nil
  sentinels := hused

theorem Kept.clear (h : Kept weight s l) : Kept weight (s.after weight .clear) [] where
  holds := holds_nil rfl (by simp [Used.after, Cache.clear]) (by simp [Used.after, Cache.clear])
    h.holds.sentinels
  unraised := h.unraised
  room := h.room
  size := rfl
  distinct := h.distinct
  ordered := nil_sublist _

theorem kept_initial {maxSize : Int} (hmax : 0 ≤ maxSize) (exampleKey : K) :
    Kept weight (Used.initial maxSize exampleKey) [] where
  holds := holds_nil rfl (by simp [Used.initial, make]) (by simp [Used.initial, make])
    (Nat.le_refl 2)
  unraised := rfl
  room := hmax
  size := rfl
  distinct := nodup_nil
  ordered := nil_sublist _

theorem Kept.step (h : Kept weight s l) {op : Op K V} (hweight : RemovesNoWeight weight s op) :
    ∃ l', Kept weight (s.after weight op) l' := by
  cases op with
  | add k v =>
    cases hfind : s.cache.find? k with
    | none =>
      obtain ⟨kept, -, -, hkept, -⟩ := h.add_absent hfind v
      exact ⟨kept, hkept⟩
    | some x => exact ⟨_, h.add_present hfind v⟩
  | lookup k => exact h.lookup k
  | remove k => exact h.remove hweight
  | clear => exact ⟨[], h.clear⟩

theorem Kept.evictsSuffix (h : Kept weight s l) (op : Op K V) : EvictsSuffix weight s op := by
  cases op with
  | add k v =>
    intro hfind
    obtain ⟨kept, evicted, hsplit, hkept, hlight⟩ := h.add_absent hfind v
    refine ⟨?_, ⟨evicted.map Prod.fst, ?_⟩, fun x hx => ?_⟩
    · rw [total_perm hkept.holds.perm]
      exact hlight
    · rw [hkept.holds.orderNext, h.holds.orderNext, ← map_append, ← hsplit]
      rfl
    · rw [hkept.holds.orderNext] at hx
      obtain ⟨e, he, rfl⟩ := mem_map.mp hx
      rw [hkept.holds.find? he]
      have hmem : e ∈ (k, (v, s.cache.used)) :: l := hsplit ▸ mem_append_left evicted he
      rcases mem_cons.mp hmem with rfl | hmem
      · rw [if_pos rfl]
        rfl
      · have hne : e.1 ≠ k := hasKey_eq_false.mp (h.holds.hasKey_of_find? hfind) e hmem
        rw [if_neg hne, h.holds.find? hmem]
  | lookup k => trivial
  | remove k => trivial
  | clear => trivial

theorem Kept.not_books (h : Kept weight s l) {x : V × Nat} (hfind : s.cache.find? k = some x)
    (hweight : weight x.1 ≠ 0) : ¬ Books weight (s.after weight (.remove k)) := by
  intro hbooks
  have hsize := hbooks.size
  have hmem := h.holds.mem_of_find? hfind
  rw [Used.after, Cache.remove, hfind] at hsize
  change s.cache.size = total weight (eraseKey s.cache.h k) at hsize
  have hperm : (eraseKey s.cache.h k).Perm (eraseKey l k) := h.holds.perm.filter _
  rw [h.size, total_eraseKey h.holds.keys hmem, total_perm hperm] at hsize
  omega

end Cache

end Alba.Tools
