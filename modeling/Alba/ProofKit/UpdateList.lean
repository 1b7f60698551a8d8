import Mathlib

/-! Lists of updates of an ordered key-value store, applied atomically. What a list does to one key is a
fold over the updates of that key alone, so that the effect of a list is found key by key. -/

set_option linter.unusedSectionVars false

namespace Alba.ProofKit

open Std List

variable {κ K V : Type}

inductive Transform
  | add (x : BitVec 64)
  deriving DecidableEq

inductive Update (K V : Type)
  | assert (key : K) (value : Option V)
  | set (key : K) (value : Option V)
  | transform (key : K) (change : Transform)
  deriving DecidableEq

namespace Update

def delete (key : K) : Update K V := .set key none

def compareAndSwap (key : K) (expected value : Option V) : List (Update K V) :=
  [.assert key expected, .set key value]

def add (key : K) (x : BitVec 64) : Update K V := .transform key (.add x)

/-- The same update of a store with other keys. -/
def mapKey (f : κ → K) : Update κ V → Update K V
  | .assert k v => .assert (f k) v
  | .set k v => .set (f k) v
  | .transform k t => .transform (f k) t

/-- The update changes the value of `k`. -/
def Writes (k : K) : Update K V → Prop
  | .assert _ _ => False
  | .set k' _ => k' = k
  | .transform k' _ => k' = k

end Update

/-- The values that hold a 64-bit integer. -/
class CounterValue (V : Type) where
  ofInt64 : BitVec 64 → V
  toInt64 : V → Option (BitVec 64)
  toInt64_ofInt64 : ∀ x, toInt64 (ofInt64 x) = some x

/-- The value that stands for the integer `x`: zero is stored as an absent key. -/
def counter [CounterValue V] (x : BitVec 64) : Option V :=
  if x = 0 then none else some (CounterValue.ofInt64 x)

/-- The integer that a key holds, zero when the key is absent. -/
def intOf [CounterValue V] (v : Option V) : BitVec 64 := (v.bind CounterValue.toInt64).getD 0

@[simp] theorem intOf_counter [CounterValue V] (x : BitVec 64) : intOf (counter x : Option V) = x := by
  unfold intOf counter
  split
  · rename_i h
    simp [h]
  · simp [CounterValue.toInt64_ofInt64]

section Apply

variable [Ord K] [TransOrd K] [LawfulEqOrd K] [DecidableEq V] [CounterValue V]

/-- Store `v` under `k`, or remove `k`. -/
def put (kv : ExtTreeMap K V) (k : K) : Option V → ExtTreeMap K V
  | some v => kv.insert k v
  | none => kv.erase k

/-- One update: an assertion compares the present value, a transformation reads the integer that
the key holds and removes the key when the result is zero. -/
def Update.apply (kv : ExtTreeMap K V) : Update K V → Option (ExtTreeMap K V)
  | .assert k v => if kv[k]? = v then some kv else none
  | .set k v => some (put kv k v)
  | .transform k (.add x) =>
    match kv[k]? with
    | none => some (put kv k (counter (0 + x)))
    | some v => (CounterValue.toInt64 v).map fun a => put kv k (counter (a + x))

def applyAll (kv : ExtTreeMap K V) (us : List (Update K V)) : Option (ExtTreeMap K V) :=
  us.foldlM Update.apply kv

theorem applyAll_append (kv : ExtTreeMap K V) (us vs : List (Update K V)) :
    applyAll kv (us ++ vs) = (applyAll kv us).bind fun kv' => applyAll kv' vs := by
  simp [applyAll, foldlM_append]

@[simp] theorem applyAll_nil (kv : ExtTreeMap K V) :
    applyAll kv ([] : List (Update K V)) = some kv := rfl

theorem applyAll_cons (kv : ExtTreeMap K V) (u : Update K V) (us : List (Update K V)) :
    applyAll kv (u :: us) = (u.apply kv).bind fun kv' => applyAll kv' us := by
  simp [applyAll, foldlM_cons]

omit [DecidableEq V] [CounterValue V] in
theorem getElem?_put [DecidableEq K] (kv : ExtTreeMap K V) (k k' : K) (v : Option V) :
    (put kv k v)[k']? = if k = k' then v else kv[k']? := by
  cases v <;> simp [put, ExtTreeMap.getElem?_insert, ExtTreeMap.getElem?_erase]

end Apply

section Act

variable [DecidableEq κ] [CounterValue V] {us : List (Update κ V)}

/-- What an update does to the value of `k`. -/
def Update.act (k : κ) (v : Option V) : Update κ V → Option V
  | .assert _ _ => v
  | .set k' v' => if k' = k then v' else v
  | .transform k' (.add x) => if k' = k then counter (intOf v + x) else v

/-- What a list of updates does to the value of `k`. -/
def runKey (k : κ) (us : List (Update κ V)) (v : Option V) : Option V :=
  us.foldl (Update.act k) v

@[simp] theorem runKey_nil (k : κ) (v : Option V) : runKey k [] v = v := rfl

theorem runKey_cons (k : κ) (u : Update κ V) (us : List (Update κ V)) (v : Option V) :
    runKey k (u :: us) v = runKey k us (u.act k v) := rfl

@[simp] theorem runKey_append (k : κ) (us vs : List (Update κ V)) (v : Option V) :
    runKey k (us ++ vs) v = runKey k vs (runKey k us v) := by
  simp [runKey, foldl_append]

theorem runKey_of_not_writes {k : κ} (v : Option V) (h : ∀ u ∈ us, ¬u.Writes k) :
    runKey k us v = v := by
  induction us generalizing v with
  | nil => rfl
  | cons u us ih =>
    have hu := h u (by simp)
    rw [runKey_cons, ih _ fun w hw => h w (by simp [hw])]
    cases u with
    | assert => rfl
    | set k' _ => simp [Update.act, show ¬k' = k from hu]
    | transform k' t => cases t; simp [Update.act, show ¬k' = k from hu]

/-- Where every update of `k` stores `x`, one of them is enough. -/
theorem runKey_sets [DecidableEq V] {k : κ} {x : Option V} (h : ∀ u ∈ us, u.Writes k → u = .set k x)
    (v : Option V) : runKey k us v = if .set k x ∈ us then x else v := by
  induction us generalizing v with
  | nil => simp
  | cons u us ih =>
    have hrest := fun v => ih (fun w hw => h w (mem_cons_of_mem _ hw)) v
    rw [runKey_cons, hrest]
    by_cases hw : u.Writes k
    · rw [h u (by simp) hw]
      simp [Update.act]
    · have hne : ¬u = .set k x := fun he => hw (by rw [he]; exact rfl)
      have hact : runKey k [u] v = v := runKey_of_not_writes v (by simpa using hw)
      rw [runKey_cons, runKey_nil] at hact
      simp [hact, Ne.symm hne]

/-- The list changes only keys of the given kinds. -/
def WritesOnly {ι : Type} (kind : κ → ι) (kinds : List ι) (us : List (Update κ V)) : Prop :=
  ∀ u ∈ us, ∀ k, u.Writes k → kind k ∈ kinds

theorem runKey_of_writesOnly {ι : Type} {kind : κ → ι} {kinds : List ι}
    (h : WritesOnly kind kinds us) {k : κ} (hk : kind k ∉ kinds) (v : Option V) : runKey k us v = v :=
  runKey_of_not_writes v fun u hu hw => hk (h u hu k hw)

end Act

section Commit

variable [Ord K] [TransOrd K] [LawfulEqOrd K] [DecidableEq κ] [DecidableEq K] [DecidableEq V]
  [CounterValue V] {enc : κ → K} {kv kv' : ExtTreeMap K V} {us : List (Update κ V)}

def commit (enc : κ → K) (kv : ExtTreeMap K V) (us : List (Update κ V)) :
    Option (ExtTreeMap K V) :=
  applyAll kv (us.map (Update.mapKey enc))

theorem commit_append (kv : ExtTreeMap K V) (us vs : List (Update κ V)) :
    commit enc kv (us ++ vs) = (commit enc kv us).bind fun kv' => commit enc kv' vs := by
  simp [commit, applyAll_append]

theorem apply_get (inj : Function.Injective enc) {u : Update κ V}
    (h : (u.mapKey enc).apply kv = some kv') (k : κ) : kv'[enc k]? = u.act k kv[enc k]? := by
  cases u with
  | assert k' v =>
    simp only [Update.mapKey, Update.apply, Option.ite_none_right_eq_some, Option.some.injEq] at h
    rw [← h.2]
    rfl
  | set k' v =>
    simp only [Update.mapKey, Update.apply, Option.some.injEq] at h
    rw [← h, getElem?_put]
    simp [Update.act, inj.eq_iff]
  | transform k' t =>
    obtain ⟨x⟩ := t
    simp only [Update.mapKey, Update.apply] at h
    by_cases hk : k' = k
    · subst hk
      split at h
      · rename_i hv
        cases h
        simp [getElem?_put, Update.act, hv, intOf]
      · rename_i v hv
        simp only [Option.map_eq_some_iff] at h
        obtain ⟨a, ha, rfl⟩ := h
        simp [getElem?_put, Update.act, hv, intOf, ha]
    · have hne : ¬enc k' = enc k := fun he => hk (inj he)
      simp only [Update.act, hk, if_false]
      split at h
      · cases h
        simp [getElem?_put, hne]
      · simp only [Option.map_eq_some_iff] at h
        obtain ⟨a, _, rfl⟩ := h
        simp [getElem?_put, hne]

theorem commit_get (inj : Function.Injective enc) (h : commit enc kv us = some kv') (k : κ) :
    kv'[enc k]? = runKey k us kv[enc k]? := by
  induction us generalizing kv with
  | nil =>
    simp only [commit, map_nil, applyAll_nil, Option.some.injEq] at h
    rw [h]
    rfl
  | cons u us ih =>
    simp only [commit, map_cons, applyAll_cons, Option.bind_eq_some_iff] at h
    obtain ⟨mid, hu, hrest⟩ := h
    rw [ih hrest, apply_get inj hu, runKey_cons]

theorem applyAll_get {us : List (Update K V)} (h : applyAll kv us = some kv') (k : K) :
    kv'[k]? = runKey k us kv[k]? := by
  have hsame : us.map (Update.mapKey id) = us := by
    refine (map_congr_left fun u _ => ?_).trans (map_id us)
    cases u <;> rfl
  have hcommit : commit id kv us = some kv' := by rwa [commit, hsame]
  exact commit_get Function.injective_id hcommit k

theorem commit_get_other (h : commit enc kv us = some kv') {b : K} (hb : ∀ k, enc k ≠ b) :
    kv'[b]? = kv[b]? := by
  induction us generalizing kv with
  | nil =>
    simp only [commit, map_nil, applyAll_nil, Option.some.injEq] at h
    rw [h]
  | cons u us ih =>
    simp only [commit, map_cons, applyAll_cons, Option.bind_eq_some_iff] at h
    obtain ⟨mid, hu, hrest⟩ := h
    rw [ih hrest]
    cases u with
    | assert k v =>
      simp only [Update.mapKey, Update.apply, Option.ite_none_right_eq_some,
        Option.some.injEq] at hu
      rw [← hu.2]
    | set k v =>
      simp only [Update.mapKey, Update.apply, Option.some.injEq] at hu
      rw [← hu, getElem?_put, if_neg (hb k)]
    | transform k t =>
      obtain ⟨x⟩ := t
      simp only [Update.mapKey, Update.apply] at hu
      split at hu
      · cases hu
        rw [getElem?_put, if_neg (hb k)]
      · simp only [Option.map_eq_some_iff] at hu
        obtain ⟨a, _, rfl⟩ := hu
        rw [getElem?_put, if_neg (hb k)]

theorem commit_of_asserts (hus : ∀ u ∈ us, ∃ k v, u = .assert k v) (h : commit enc kv us = some kv') :
    kv' = kv := by
  induction us with
  | nil =>
    cases h
    rfl
  | cons u us ih =>
    obtain ⟨k, v, rfl⟩ := hus u (by simp)
    simp only [commit, map_cons, applyAll_cons, Update.mapKey, Update.apply,
      Option.bind_eq_some_iff, Option.ite_none_right_eq_some, Option.some.injEq] at h
    obtain ⟨_, ⟨_, rfl⟩, hrest⟩ := h
    exact ih (fun w hw => hus w (by simp [hw])) hrest

theorem commit_assert (inj : Function.Injective enc) {us vs : List (Update κ V)} {k : κ}
    {v : Option V} (h : commit enc kv (us ++ .assert k v :: vs) = some kv') :
    runKey k us kv[enc k]? = v := by
  rw [commit_append, Option.bind_eq_some_iff] at h
  obtain ⟨mid, hus, hvs⟩ := h
  simp only [commit, map_cons, applyAll_cons, Option.bind_eq_some_iff, Update.mapKey,
    Update.apply, Option.ite_none_right_eq_some] at hvs
  obtain ⟨_, ⟨hv, _⟩, _⟩ := hvs
  rw [← commit_get inj hus, hv]

theorem commit_requires (inj : Function.Injective enc) {p q : List (Update κ V)} {k : κ}
    {v : Option V} (h : commit enc kv (p ++ .assert k v :: q) = some kv') (hp : ∀ u ∈ p, ¬u.Writes k) :
    kv[enc k]? = v := by
  rw [← commit_assert inj h, runKey_of_not_writes _ hp]

end Commit

end Alba.ProofKit
