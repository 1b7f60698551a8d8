import Alba.Albamgr.Requests
import Alba.ProofKit.Optimistic

/-! The alba manager as a system. An update is computed from the database as it is and applied later; a
sequence whose assertions do not hold any more is dropped, and the request is computed again. -/

namespace Alba.Albamgr

open ProofKit

/-- A request that is computed and applied in one step. -/
def exec (db : Db) (r : Request) : Option Db :=
  match handleUpdate db r with
  | .ok (_, plan) => plan.apply db
  | .error _ => none

/-- The manager with the replies of the requests that were applied, the last one first. -/
structure Server where
  db : Db
  replies : List Reply := []

/-- A request that has been computed: the database it was computed from, the reply to give and what is
to be applied. -/
structure Computed where
  snapshot : Db
  reply : Reply
  plan : Plan

def compute (s : Server) (r : Request) : Option Computed :=
  match handleUpdate s.db r with
  | .ok (reply, plan) => some { snapshot := s.db, reply, plan }
  | .error _ => none

def applyComputed (s : Server) (c : Computed) : Option Server :=
  (c.plan.apply s.db).map fun db => { db, replies := c.reply :: s.replies }

/-- One event of the manager with any number of clients. -/
def serve : Pool Server Request Computed → PoolEvent Request → Option (Pool Server Request Computed) :=
  Pool.exec compute applyComputed

theorem compute_eq_some {s : Server} {r : Request} {c : Computed} :
    compute s r = some c ↔ c.snapshot = s.db ∧ handleUpdate s.db r = .ok (c.reply, c.plan) := by
  obtain ⟨snapshot, reply, plan⟩ := c
  unfold compute
  split
  · rename_i reply' plan' hplan
    simp only [hplan, Option.some.injEq, Computed.mk.injEq, Except.ok.injEq, Prod.mk.injEq]
    tauto
  · simp_all

theorem applyComputed_eq_some {s s' : Server} {c : Computed} :
    applyComputed s c = some s' ↔ c.plan.apply s.db = some s'.db ∧ s'.replies = c.reply :: s.replies := by
  obtain ⟨db', replies'⟩ := s'
  simp only [applyComputed, Option.map_eq_some_iff, Server.mk.injEq]
  constructor
  · rintro ⟨db, hdb, rfl, rfl⟩
    exact ⟨hdb, rfl⟩
  · rintro ⟨hdb, rfl⟩
    exact ⟨db', hdb, rfl, rfl⟩

section Runs

variable {I : Db → Prop} {B : Db → Db → Prop} {C : Db → Request → Computed → Prop}
  {events : List (PoolEvent Request)} {db : Db}

/-- The changes of a request that was computed from an earlier database are applied under the
condition `C`. -/
def Applies (C : Db → Request → Computed → Prop) :
    Pool Server Request Computed → PoolEvent Request → Prop :=
  Pool.Meets applyComputed fun s r c => C s.db r c

instance Applies.decidable [∀ db r c, Decidable (C db r c)] (p : Pool Server Request Computed)
    (e : PoolEvent Request) : Decidable (Applies C p e) :=
  inferInstanceAs (Decidable (Pool.Meets applyComputed (fun s r c => C s.db r c) p e))

theorem applies_of_requests {A : Request → Prop} (h : ∀ r, .compute r ∈ events → A r)
    (hC : AllSteps serve (Applies C) { store := { db } } events) :
    AllSteps serve (Applies fun db r c => A r ∧ C db r c) { store := { db } } events := by
  have hA : AllSteps serve (Applies fun _ r _ => A r) { store := { db } } events := by
    refine Pool.meets_of_requests h fun rc hrc => ?_
    cases hrc
  refine (hA.and hC).mono fun p e he => ?_
  cases e with
  | compute => trivial
  | apply i => exact fun rc hrc happly => ⟨he.1 rc hrc happly, he.2 rc hrc happly⟩

/-- An invariant of the manager that every request keeps, when it was computed where the invariant held
and is applied later. -/
theorem serve_valid {I : Server → Prop} {B : Server → Server → Prop} (refl : ∀ s, B s s)
    (trans : ∀ a b c, B a b → B b c → B a c) (step : ∀ s₀ r c s s', I s₀ → c.snapshot = s₀.db →
      handleUpdate c.snapshot r = .ok (c.reply, c.plan) → B s₀ s → I s → C s.db r c →
      c.plan.apply s.db = some s'.db → s'.replies = c.reply :: s.replies → I s' ∧ B s s')
    {p : Pool Server Request Computed} (h : p.Valid compute (fun s _ => I s) fun x y => B x.1 y.1)
    (hC : AllSteps serve (Applies C) p events) :
    (run serve p events).Valid compute (fun s _ => I s) (fun x y => B x.1 y.1) ∧
      B p.store (run serve p events).store := by
  refine Pool.run_valid_of (fun x => refl x.1) (fun x y z => trans x.1 y.1 z.1)
    (fun s₀ _ r c s _ s' h₀ hcomputed hbefore hs hc happly => ?_) h hC
  obtain ⟨hsnapshot, hplan⟩ := compute_eq_some.mp hcomputed
  obtain ⟨hdb, hreplies⟩ := applyComputed_eq_some.mp happly
  rw [← hsnapshot] at hplan
  exact step s₀ r c s s' h₀ hsnapshot hplan hbefore hs hc hdb hreplies

section

variable (refl : ∀ db, B db db) (trans : ∀ a b c, B a b → B b c → B a c)
  (step : ∀ r c db db', I c.snapshot → handleUpdate c.snapshot r = .ok (c.reply, c.plan) →
    B c.snapshot db → I db → C db r c → c.plan.apply db = some db' → I db' ∧ B db db') (h : I db)
include refl trans step h

theorem serve_later {events more : List (PoolEvent Request)}
    (hC : AllSteps serve (Applies C) { store := { db } } (events ++ more)) :
    I (run serve { store := { db } } events).store.db ∧
      I (run serve { store := { db } } (events ++ more)).store.db ∧
      B (run serve { store := { db } } events).store.db
        (run serve { store := { db } } (events ++ more)).store.db := by
  have step' : ∀ (s₀ : Server) (r : Request) (c : Computed) (s s' : Server), I s₀.db →
      c.snapshot = s₀.db → handleUpdate c.snapshot r = .ok (c.reply, c.plan) → B s₀.db s.db → I s.db →
      C s.db r c → c.plan.apply s.db = some s'.db → s'.replies = c.reply :: s.replies →
      I s'.db ∧ B s.db s'.db := by
    intro s₀ r c s s' h₀ hsnapshot hplan hbefore hs hc hdb _
    rw [← hsnapshot] at h₀ hbefore
    exact step r c s.db s'.db h₀ hplan hbefore hs hc hdb
  have refl' : ∀ s : Server, B s.db s.db := fun s => refl s.db
  have trans' : ∀ a b c : Server, B a.db b.db → B b.db c.db → B a.db c.db :=
    fun a b c => trans a.db b.db c.db
  obtain ⟨hevents, hmore⟩ := allSteps_append.mp hC
  obtain ⟨hvalid, _⟩ := serve_valid (I := fun s => I s.db) refl' trans' step' (Pool.Valid.start h) hevents
  obtain ⟨hvalid', hbefore⟩ := serve_valid (I := fun s => I s.db) refl' trans' step' hvalid hmore
  rw [run_append]
  exact ⟨hvalid.now, hvalid'.now, hbefore⟩

theorem serve_holds (hC : AllSteps serve (Applies C) { store := { db } } events) :
    I (run serve { store := { db } } events).store.db := by
  rw [← List.append_nil events] at hC
  exact (serve_later refl trans step h hC).1

end

end Runs

/-! ### The first connection -/

def defaultName : Bytes := ascii ['d', 'e', 'f', 'a', 'u', 'l', 't']

/-- The database of a manager that has just been connected to: `ensure_alba_id_and_default_preset`,
`ensure_work_item_count` and the first propagation of all presets, of which there is one. -/
def startUp (albaId : Bytes) : Option Db := do
  let db ← applyAll Tables.empty
    [.assert .albaId () none, .set .albaId () (some albaId), .assert .presetDefault () none,
      .set .presetDefault () (some defaultName), .set .presets defaultName (some (defaultPreset, 0))]
  let db ← applyAll db [.assert .workCount () none, .set .workCount () (some 0)]
  match propagatePresetVersion db defaultName 0 with
  | .ok us => applyAll db us
  | .error _ => none

theorem get_empty (t : Table) (key : t.Key) : (Tables.empty : Db).get t key = none := by
  simp [Tables.get, Tables.empty]

/-- The rows that are made on the first connection. -/
def initial (albaId : Bytes) : Db :=
  let db := (Tables.empty : Db).put .albaId () (some albaId)
  let db := db.put .presetDefault () (some defaultName)
  let db := db.put .presets defaultName (some (defaultPreset, 0))
  let db := db.put .workCount () (some 0)
  let db := db.put .workItems 0 (some (.propagatePreset defaultName))
  let db := db.put .workNextId () (some 1)
  let db := db.put .workCount () (some 1)
  db.put .propagation defaultName (some (0, []))

theorem startUp_eq (albaId : Bytes) : startUp albaId = some (initial albaId) := rfl

end Alba.Albamgr
