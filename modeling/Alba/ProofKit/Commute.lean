import Alba.ProofKit.UpdateList

/-! Update lists that commute, and lists that guard what they read: a list guards a key when it asserts
the value that the key had where the list was computed before it writes the key. -/

set_option linter.unusedSectionVars false

namespace Alba.ProofKit

open Std List

variable {κ K V : Type}

namespace Update

def key : Update K V → K
  | .assert k _ => k
  | .set k _ => k
  | .transform k _ => k

@[simp] theorem key_assert (k : K) (v : Option V) : (Update.assert k v).key = k := rfl
@[simp] theorem key_set (k : K) (v : Option V) : (Update.set k v).key = k := rfl
@[simp] theorem key_transform (k : K) (t : Transform) : (Update.transform k t : Update K V).key = k := rfl
@[simp] theorem key_delete (k : K) : (Update.delete k : Update K V).key = k := rfl
@[simp] theorem key_add (k : K) (x : BitVec 64) : (Update.add k x : Update K V).key = k := rfl

theorem Writes.key_eq {k : K} {u : Update K V} (h : u.Writes k) : u.key = k := by
  cases u with
  | assert => exact absurd h id
  | set => exact h
  | transform => exact h

@[simp] theorem key_mapKey (f : κ → K) (u : Update κ V) : (u.mapKey f).key = f u.key := by
  cases u <;> rfl

/-- Two updates that may be applied in either order. -/
def Commutes (u v : Update K V) : Prop :=
  u.key = v.key → match u, v with
    | .assert _ _, .assert _ _ => True
    | .set _ x, .set _ y => x = y
    | .transform _ _, .transform _ _ => True
    | _, _ => False

theorem Commutes.symm {u v : Update K V} (h : u.Commutes v) : v.Commutes u := by
  intro he
  have := h he.symm
  cases u <;> cases v <;> simp_all

theorem Commutes.mapKey {f : κ → K} (inj : Function.Injective f) {u v : Update κ V}
    (h : u.Commutes v) : (u.mapKey f).Commutes (v.mapKey f) := by
  intro he
  rw [key_mapKey, key_mapKey] at he
  have := h (inj he)
  cases u <;> cases v <;> simp_all [Update.mapKey]

end Update

section Step

variable [DecidableEq V] [CounterValue V]

/-- The integer that a transformation reads, if the value holds one. -/
def numberOf : Option V → Option (BitVec 64)
  | none => some 0
  | some x => CounterValue.toInt64 x

@[simp] theorem numberOf_counter (a : BitVec 64) : numberOf (counter a : Option V) = some a := by
  unfold counter
  split
  · rename_i ha
    rw [ha]
    rfl
  · exact CounterValue.toInt64_ofInt64 a

/-- What an update makes of the value of its own key. -/
def Update.step (v : Option V) : Update K V → Option (Option V)
  | .assert _ x => if v = x then some v else none
  | .set _ x => some x
  | .transform _ (.add d) => (numberOf v).map fun a => counter (a + d)

theorem Update.Commutes.step {u v : Update K V} (h : u.Commutes v) (hk : u.key = v.key)
    (x : Option V) : (u.step x).bind v.step = (v.step x).bind u.step := by
  have hc := h hk
  cases u with
  | assert k a =>
    cases v with
    | assert k' b =>
      simp only [Update.step]
      by_cases ha : x = a <;> by_cases hb : x = b <;> simp_all
    | set => exact absurd hc id
    | transform => exact absurd hc id
  | set k a =>
    cases v with
    | assert => exact absurd hc id
    | set k' b => simpa [Update.step] using (show a = b from hc).symm
    | transform => exact absurd hc id
  | transform k s =>
    cases v with
    | assert => exact absurd hc id
    | set => exact absurd hc id
    | transform k' t =>
      obtain ⟨d⟩ := s
      obtain ⟨e⟩ := t
      simp only [Update.step]
      cases numberOf x with
      | none => rfl
      | some a =>
        simp only [Option.map_some, Option.bind_some, numberOf_counter]
        rw [add_assoc, add_comm d, add_assoc]

end Step

section Apply

variable [Ord K] [TransOrd K] [LawfulEqOrd K] [DecidableEq K] [DecidableEq V] [CounterValue V]

theorem put_self (kv : ExtTreeMap K V) (k : K) : put kv k kv[k]? = kv := by
  refine ExtTreeMap.ext_getElem? fun {k'} => ?_
  rw [getElem?_put]
  split
  · rename_i he
    rw [he]
  · rfl

theorem put_put (kv : ExtTreeMap K V) (k : K) (v w : Option V) : put (put kv k v) k w = put kv k w := by
  refine ExtTreeMap.ext_getElem? fun {k'} => ?_
  simp only [getElem?_put]
  split <;> rfl

theorem put_comm (kv : ExtTreeMap K V) {k k' : K} (hk : k ≠ k') (v w : Option V) :
    put (put kv k v) k' w = put (put kv k' w) k v := by
  refine ExtTreeMap.ext_getElem? fun {j} => ?_
  simp only [getElem?_put]
  split
  · rename_i h'
    rw [if_neg fun h => hk (h.trans h'.symm)]
  · rfl

theorem apply_eq (kv : ExtTreeMap K V) (u : Update K V) :
    u.apply kv = (u.step kv[u.key]?).map (put kv u.key) := by
  cases u with
  | assert k v =>
    show (if kv[k]? = v then some kv else none) = (if kv[k]? = v then some kv[k]? else none).map (put kv k)
    split
    · rw [Option.map_some, put_self]
    · rfl
  | set k v => rfl
  | transform k t =>
    obtain ⟨d⟩ := t
    simp only [Update.apply, Update.step, Update.key_transform]
    split
    · rename_i hnone
      rw [hnone]
      rfl
    · rename_i v hsome
      rw [hsome, Option.map_map]
      rfl

theorem Update.Commutes.apply {u v : Update K V} (h : u.Commutes v) (kv : ExtTreeMap K V) :
    (u.apply kv).bind v.apply = (v.apply kv).bind u.apply := by
  simp only [apply_eq, Option.bind_map, Function.comp_def, getElem?_put]
  by_cases hk : u.key = v.key
  · have hstep := h.step hk kv[v.key]?
    have hput : ∀ x, put (put kv v.key x) v.key = put kv v.key := fun x => by
      funext y
      exact put_put kv v.key x y
    simp only [hk, if_true, hput]
    have hmap := congrArg (Option.map (put kv v.key)) hstep
    simpa only [Option.map_bind, Function.comp_def] using hmap
  · simp only [hk, Ne.symm hk, if_false]
    cases u.step kv[u.key]? <;> cases v.step kv[v.key]? <;> simp [put_comm kv hk]

theorem applyAll_cons_comm {u : Update K V} {vs : List (Update K V)}
    (h : ∀ v ∈ vs, u.Commutes v) (kv : ExtTreeMap K V) :
    (applyAll kv vs).bind u.apply = applyAll kv (u :: vs) := by
  induction vs generalizing kv with
  | nil => simp [applyAll_cons]
  | cons v vs ih =>
    have hrest := ih fun w hw => h w (mem_cons_of_mem _ hw)
    calc (applyAll kv (v :: vs)).bind u.apply
        = (v.apply kv).bind fun mid => (applyAll mid vs).bind u.apply := by
          rw [applyAll_cons, Option.bind_assoc]
      _ = (v.apply kv).bind fun mid => (u.apply mid).bind fun mid' => applyAll mid' vs := by
          simp only [hrest, applyAll_cons]
      _ = ((u.apply kv).bind v.apply).bind fun mid' => applyAll mid' vs := by
          rw [(h v mem_cons_self).apply kv, Option.bind_assoc]
      _ = applyAll kv (u :: v :: vs) := by
          simp only [applyAll_cons, Option.bind_assoc]

theorem applyAll_comm {us vs : List (Update K V)} (h : ∀ u ∈ us, ∀ v ∈ vs, u.Commutes v)
    (kv : ExtTreeMap K V) : applyAll kv (us ++ vs) = applyAll kv (vs ++ us) := by
  induction us generalizing kv with
  | nil => simp
  | cons u us ih =>
    have hrest := ih fun w hw => h w (mem_cons_of_mem _ hw)
    have hu := h u mem_cons_self
    calc applyAll kv (u :: us ++ vs)
        = (u.apply kv).bind fun mid => applyAll mid (vs ++ us) := by
          simp only [cons_append, applyAll_cons, hrest]
      _ = (applyAll kv (u :: vs)).bind fun mid => applyAll mid us := by
          simp only [applyAll_cons, applyAll_append, Option.bind_assoc]
      _ = applyAll kv (vs ++ u :: us) := by
          rw [← applyAll_cons_comm hu, applyAll_append, Option.bind_assoc]
          simp only [applyAll_cons]

end Apply

section Commit

variable [Ord K] [TransOrd K] [LawfulEqOrd K] [DecidableEq κ] [DecidableEq K] [DecidableEq V]
  [CounterValue V] {enc : κ → K}

def ListsCommute (us vs : List (Update κ V)) : Prop := ∀ u ∈ us, ∀ v ∈ vs, u.Commutes v

theorem ListsCommute.symm {us vs : List (Update κ V)} (h : ListsCommute us vs) :
    ListsCommute vs us := fun v hv u hu => (h u hu v hv).symm

theorem commit_comm (inj : Function.Injective enc) {us vs : List (Update κ V)}
    (h : ListsCommute us vs) (kv : ExtTreeMap K V) :
    commit enc kv (us ++ vs) = commit enc kv (vs ++ us) := by
  unfold commit
  rw [map_append, map_append]
  refine applyAll_comm (fun u hu v hv => ?_) kv
  obtain ⟨u', hu', rfl⟩ := mem_map.mp hu
  obtain ⟨v', hv', rfl⟩ := mem_map.mp hv
  exact (h u' hu' v' hv').mapKey inj

/-- Lists that commute pairwise may be applied in any order. -/
theorem commit_perm (inj : Function.Injective enc) {lists lists' : List (List (Update κ V))}
    (hperm : lists.Perm lists') (h : lists.Pairwise ListsCommute) (kv : ExtTreeMap K V) :
    commit enc kv lists.flatten = commit enc kv lists'.flatten := by
  induction hperm generalizing kv with
  | nil => rfl
  | cons us _ ih =>
    simp only [flatten_cons, commit_append, ih (pairwise_cons.mp h).2]
  | swap us vs rest =>
    have hpair : ListsCommute vs us := (pairwise_cons.mp h).1 us mem_cons_self
    simp only [flatten_cons, ← append_assoc]
    rw [commit_append kv (vs ++ us), commit_append kv (us ++ vs), commit_comm inj hpair]
  | trans hp _ ih ih' =>
    rw [ih h kv]
    exact ih' (hp.pairwise h fun hc => hc.symm) kv

/-- The list asserts `v` of `k` before it does anything else with `k`. -/
def Opens (k : κ) (v : Option V) (us : List (Update κ V)) : Prop :=
  ∃ p q, us = p ++ .assert k v :: q ∧ ∀ u ∈ p, u.key ≠ k

/-- Every key of the kinds that occurs in the list is first asserted to have the value it has by
`get`. -/
def Guards {ι : Type} (kind : κ → ι) (kinds : List ι) (get : κ → Option V)
    (us : List (Update κ V)) : Prop :=
  ∀ u ∈ us, kind u.key ∈ kinds → Opens u.key (get u.key) us

section Guards

variable {ι : Type} {kind : κ → ι} {kinds : List ι} {get : κ → Option V} {us : List (Update κ V)}
  {k : κ} {v : Option V}

theorem Opens.append_right (h : Opens k v us) (vs : List (Update κ V)) : Opens k v (us ++ vs) := by
  obtain ⟨p, q, rfl, hp⟩ := h
  exact ⟨p, q ++ vs, by simp, hp⟩

theorem Opens.append_left {us vs : List (Update κ V)} (h : Opens k v vs) (hus : ∀ u ∈ us, u.key ≠ k) :
    Opens k v (us ++ vs) := by
  obtain ⟨p, q, rfl, hp⟩ := h
  refine ⟨us ++ p, q, by simp, fun u hu => ?_⟩
  rcases mem_append.mp hu with hu | hu
  · exact hus u hu
  · exact hp u hu

theorem Guards.nil : Guards kind kinds get [] := by
  intro u hu
  cases hu

theorem Guards.append {us vs : List (Update κ V)} (h : Guards kind kinds get us)
    (h' : Guards kind kinds get vs) : Guards kind kinds get (us ++ vs) := by
  intro w hw hk
  by_cases hus : ∃ u ∈ us, u.key = w.key
  · obtain ⟨u, hu, he⟩ := hus
    rw [← he] at hk ⊢
    exact (h u hu hk).append_right vs
  · have hv : w ∈ vs := (mem_append.mp hw).resolve_left fun hu => hus ⟨w, hu, rfl⟩
    exact (h' w hv hk).append_left fun u hu he => hus ⟨u, hu, he⟩

theorem Guards.flatten {lists : List (List (Update κ V))}
    (h : ∀ us ∈ lists, Guards kind kinds get us) : Guards kind kinds get lists.flatten := by
  induction lists with
  | nil => exact .nil
  | cons us lists ih =>
    rw [flatten_cons]
    exact (h us mem_cons_self).append (ih fun vs hvs => h vs (mem_cons_of_mem _ hvs))

theorem opens_of_asserts (h : ∀ u ∈ us, u.key = k → u = .assert k v) (hk : ∃ u ∈ us, u.key = k) :
    Opens k v us := by
  induction us with
  | nil => simp at hk
  | cons u us ih =>
    by_cases hu : u.key = k
    · exact ⟨[], us, by rw [h u mem_cons_self hu]; rfl, by simp⟩
    · obtain ⟨w, hw, hkey⟩ := hk
      have hmem : w ∈ us := (mem_cons.mp hw).resolve_left fun he => hu (he ▸ hkey)
      have hrest := ih (fun x hx => h x (mem_cons_of_mem _ hx)) ⟨w, hmem, hkey⟩
      show Opens k v ([u] ++ us)
      exact hrest.append_left (by simpa using hu)

theorem Guards.of_asserts (h : ∀ u ∈ us, kind u.key ∈ kinds → u = .assert u.key (get u.key)) :
    Guards kind kinds get us := by
  intro u hu hk
  refine opens_of_asserts (fun w hw he => ?_) ⟨u, hu, rfl⟩
  rw [← he] at hk ⊢
  exact h w hw hk

theorem Guards.of_outside (h : ∀ u ∈ us, kind u.key ∉ kinds) :
    Guards kind kinds get us := .of_asserts fun u hu hk => absurd hk (h u hu)

theorem Guards.compareAndSwap (h : v = get k) (w : Option V) :
    Guards kind kinds get (Update.compareAndSwap k v w) := by
  intro u hu _
  have hkey : u.key = k := by
    simp only [Update.compareAndSwap, mem_cons, not_mem_nil, or_false] at hu
    rcases hu with rfl | rfl <;> rfl
  rw [hkey]
  exact ⟨[], [.set k w], by rw [h]; rfl, by simp⟩

/-- Where a list applies, the keys that it guards have the values they had where it was computed. -/
theorem Guards.holds (inj : Function.Injective enc) (h : Guards kind kinds get us)
    {kv kv' : ExtTreeMap K V} (hc : commit enc kv us = some kv') {u : Update κ V} (hu : u ∈ us)
    (hk : kind u.key ∈ kinds) : kv[enc u.key]? = get u.key := by
  obtain ⟨p, q, rfl, hp⟩ := h u hu hk
  exact commit_requires inj hc fun w hw hwrites => hp w hw hwrites.key_eq

end Guards

end Commit

end Alba.ProofKit
