import Alba.ProofKit.Totals
import Alba.ProofKit.Run

/-! Databases of several tables, each an ordered map with its own type of keys and of rows. A change of
one row leaves every other row and every other table as it is. -/

set_option linter.unusedSectionVars false

namespace Alba.ProofKit

open Std List

section Script

variable {σ α β : Type} {step : σ → α → Option σ} {s s' : σ} {l : List α}

theorem foldlM_keeps {f : σ → β} (h : ∀ a ∈ l, ∀ s s', step s a = some s' → f s' = f s)
    (hrun : l.foldlM step s = some s') : f s' = f s := by
  induction l generalizing s with
  | nil =>
    cases hrun
    rfl
  | cons a l ih =>
    simp only [foldlM_cons, Option.bind_eq_bind, Option.bind_eq_some_iff] at hrun
    obtain ⟨mid, hstep, hrest⟩ := hrun
    rw [ih (fun b hb => h b (mem_cons_of_mem a hb)) hrest]
    exact h a mem_cons_self s mid hstep

theorem foldlM_preserves {P : σ → Prop} (h : ∀ a ∈ l, ∀ s s', P s → step s a = some s' → P s')
    (hs : P s) (hrun : l.foldlM step s = some s') : P s' := by
  induction l generalizing s with
  | nil =>
    cases hrun
    exact hs
  | cons a l ih =>
    simp only [foldlM_cons, Option.bind_eq_bind, Option.bind_eq_some_iff] at hrun
    obtain ⟨mid, hstep, hrest⟩ := hrun
    exact ih (fun b hb => h b (mem_cons_of_mem a hb)) (h a mem_cons_self s mid hs hstep)
      hrest

theorem foldlM_append_some {l l' : List α} :
    (l ++ l').foldlM step s = some s' ↔
      ∃ mid, l.foldlM step s = some mid ∧ l'.foldlM step mid = some s' := by
  simp [foldlM_append, Option.bind_eq_some_iff]

theorem foldlM_cons_some {a : α} :
    (a :: l).foldlM step s = some s' ↔ ∃ mid, step s a = some mid ∧ l.foldlM step mid = some s' := by
  simp [foldlM_cons, Option.bind_eq_some_iff]

/-- The step `a` of a list gives `f` the value `x`, and no step of the list gives it another one. -/
theorem foldlM_sets {f : σ → β} {x : β} {a : α} (ha : a ∈ l)
    (hset : ∀ s s', step s a = some s' → f s' = x)
    (hrest : ∀ b ∈ l, ∀ s s', step s b = some s' → f s' = f s ∨ f s' = x)
    (hrun : l.foldlM step s = some s') : f s' = x := by
  obtain ⟨before, after, rfl⟩ := append_of_mem ha
  obtain ⟨_, _, hrun⟩ := foldlM_append_some.mp hrun
  obtain ⟨mid, hmid, hrun⟩ := foldlM_cons_some.mp hrun
  refine foldlM_preserves (P := fun s => f s = x) (fun b hb s s' hs hstep => ?_) (hset _ mid hmid) hrun
  rcases hrest b (by simp [hb]) s s' hstep with h | h
  · rw [h, hs]
  · exact h

end Script

section Tables

variable {ι : Type} [DecidableEq ι] {K V : ι → Type} [∀ t, Ord (K t)] [∀ t, TransOrd (K t)]
  [∀ t, LawfulEqOrd (K t)] [∀ t, DecidableEq (K t)]

/-- A database: a table for each name. -/
structure Tables (K V : ι → Type) [∀ t, Ord (K t)] where
  table : (t : ι) → ExtTreeMap (K t) (V t)

namespace Tables

variable {db : Tables K V} {t : ι}

def empty : Tables K V where
  table _ := ∅

/-- The row `k` of table `t`. -/
def get (db : Tables K V) (t : ι) (k : K t) : Option (V t) := (db.table t)[k]?

/-- Store `v` as the row `k` of table `t`, or remove the row. -/
def put (db : Tables K V) (t : ι) (k : K t) (v : Option (V t)) : Tables K V where
  table := Function.update db.table t (ProofKit.put (db.table t) k v)

def rows (db : Tables K V) (t : ι) : List (K t × V t) := (db.table t).toList

theorem put_table {t t' : ι} (k : K t) (v : Option (V t)) (h : t' ≠ t) :
    (db.put t k v).table t' = db.table t' :=
  Function.update_of_ne h _ _

theorem put_table_self (db : Tables K V) (t : ι) (k : K t) (v : Option (V t)) :
    (db.put t k v).table t = ProofKit.put (db.table t) k v :=
  Function.update_self _ _ _

theorem get_put (db : Tables K V) (t : ι) (k k' : K t) (v : Option (V t)) :
    (db.put t k v).get t k' = if k = k' then v else db.get t k' := by
  rw [get, put_table_self, getElem?_put]
  rfl

@[simp] theorem get_put_self (db : Tables K V) (t : ι) (k : K t) (v : Option (V t)) :
    (db.put t k v).get t k = v := by
  rw [get_put, if_pos rfl]

theorem get_put_of_ne {k k' : K t} (v : Option (V t)) (h : k ≠ k') :
    (db.put t k v).get t k' = db.get t k' := by
  rw [get_put, if_neg h]

theorem get_congr {db db' : Tables K V} (h : db'.table t = db.table t) (k : K t) :
    db'.get t k = db.get t k := by
  rw [get, get, h]

@[simp] theorem get_put_table {t t' : ι} (k : K t) (v : Option (V t)) (k' : K t') (h : t' ≠ t) :
    (db.put t k v).get t' k' = db.get t' k' :=
  get_congr (put_table k v h) k'

theorem get_put_cell {t t' : ι} {k : K t} {k' : K t'} (v : Option (V t))
    (h : (⟨t', k'⟩ : (t : ι) × K t) ≠ ⟨t, k⟩) : (db.put t k v).get t' k' = db.get t' k' := by
  by_cases ht : t' = t
  · subst ht
    exact get_put_of_ne v fun hk => h (by rw [hk])
  · exact get_put_table k v k' ht

theorem table_congr {db db' : Tables K V} (h : ∀ k, db'.get t k = db.get t k) :
    db'.table t = db.table t :=
  ExtTreeMap.ext_getElem? h

theorem mem_rows {k : K t} {v : V t} : (k, v) ∈ db.rows t ↔ db.get t k = some v :=
  ExtTreeMap.mem_toList_iff_getElem?_eq_some

theorem rows_sorted (db : Tables K V) (t : ι) : (db.rows t).Pairwise fun a b => compare a.1 b.1 = .lt :=
  ExtTreeMap.ordered_keys_toList

theorem rows_keys_nodup (db : Tables K V) (t : ι) : ((db.rows t).map Prod.fst).Nodup :=
  keys_nodup (db.table t)

end Tables

end Tables

end Alba.ProofKit
