import Alba.Albamgr.Footprint

/-! Nsm hosts of the alba manager: a host that is lost stays lost as long as no update of its record is
applied over a record that it has not read. -/

namespace Alba.Albamgr

open ProofKit

/-- The host is known to be lost. -/
def Lost (db : Db) (id : Bytes) : Prop := ∃ nsmHost, db.get .nsmHostInfo id = some nsmHost ∧ nsmHost.lost

/-- An update of the record of a nsm host is applied to the record that it has read. -/
def HostAsRead (db : Db) (r : Request) (c : Computed) : Prop :=
  match r with
  | .updateNsmHost id _ => db.get .nsmHostInfo id = c.snapshot.get .nsmHostInfo id
  | _ => True

instance (db : Db) (r : Request) (c : Computed) : Decidable (HostAsRead db r c) := by
  unfold HostAsRead
  split <;> infer_instance

theorem lost_of_apply {r : Request} {c : Computed} {db db' : Db} {id : Bytes}
    (h : handleUpdate c.snapshot r = .ok (c.reply, c.plan)) (hread : HostAsRead db r c)
    (happly : c.plan.apply db = some db') (hlost : Lost db id) : Lost db' id := by
  obtain ⟨host, hhost, hlost⟩ := hlost
  by_cases ht : Table.nsmHostInfo ∈ r.tables
  · cases r with
    | addNsmHost id' nsmHost =>
      obtain ⟨us, hus, hplan⟩ := map_eq_ok.mp h
      obtain ⟨_, rfl⟩ := addNsmHost_eq_ok hus
      rw [← (Prod.mk.inj hplan).2] at happly
      simp only [Plan.apply, applyAll_cons, Update.apply, Option.some.injEq, applyAll_nil] at happly
      obtain ⟨mid, rfl, rfl⟩ := happly
      -- a host with a record is not added again
      split
      · rename_i hnone
        refine ⟨host, ?_, hlost⟩
        rw [Tables.get_put_of_ne _ fun heq => ?_]
        · exact hhost
        · rw [heq, hhost] at hnone
          cases hnone
      · exact ⟨host, hhost, hlost⟩
    | updateNsmHost id' nsmHost =>
      obtain ⟨us, hus, hplan⟩ := map_eq_ok.mp h
      obtain ⟨old, hold, hkeep, rfl⟩ := updateNsmHost_eq_ok hus
      rw [← (Prod.mk.inj hplan).2] at happly
      simp only [Plan.apply, applyAll_set_cons, applyAll_nil] at happly
      subst happly
      by_cases hid : id' = id
      · subst hid
        have hsame : old = host := by
          have hnow := hread.symm.trans hhost
          rw [hold] at hnow
          exact Option.some.inj hnow
        exact ⟨nsmHost, Tables.get_put_self .., hkeep (hsame ▸ hlost)⟩
      · exact ⟨host, by rw [Tables.get_put_of_ne _ hid, hhost], hlost⟩
    | markMsgDelivered t => cases t <;> simp [Request.tables, workTables, logTables] at ht
    | markMsgsDelivered t => cases t <;> simp [Request.tables, workTables, logTables] at ht
    | _ => simp [Request.tables, workTables, logTables] at ht
  · exact ⟨host, by rw [get_of_apply h happly ht, hhost], hlost⟩

/-- In a run in which every update of a host is applied to the record that it has read, a host that is
lost is lost in every later state. -/
theorem lost_stays (db : Db) (events more : List (PoolEvent Request)) (id : Bytes)
    (hread : AllSteps serve (Applies HostAsRead) { store := { db } } (events ++ more))
    (hlost : Lost (run serve { store := { db } } events).store.db id) :
    Lost (run serve { store := { db } } (events ++ more)).store.db id := by
  have hlater := serve_later (I := fun _ => True) (B := fun a b => ∀ id, Lost a id → Lost b id)
    (fun _ _ h => h) (fun _ _ _ h h' id hlost => h' id (h id hlost))
    (fun r c db db' _ hplan _ _ hread happly =>
      ⟨trivial, fun id => lost_of_apply hplan hread happly⟩) trivial hread
  exact hlater.2.2 id hlost

def oneHost : Db :=
  (Tables.empty : Db).put .nsmHostInfo (ascii ['h']) (some { kind := ascii ['k'], lost := false })

/-- One client marks the host as lost and another one changes its configuration, both after they have
read the host. -/
def racingUpdates : List (PoolEvent Request) :=
  [.compute (.updateNsmHost (ascii ['h']) { kind := ascii ['k'], lost := true }),
    .compute (.updateNsmHost (ascii ['h']) { kind := ascii ['j'], lost := false }), .apply 0]

theorem lost_host_found :
    Lost (run serve { store := { db := oneHost } } racingUpdates).store.db (ascii ['h']) ∧
      ¬Lost (run serve { store := { db := oneHost } } (racingUpdates ++ [.apply 0])).store.db
        (ascii ['h']) := by
  have hbefore : (run serve { store := { db := oneHost } } racingUpdates).store.db.get .nsmHostInfo
      (ascii ['h']) = some { kind := ascii ['k'], lost := true } := by decide +kernel
  have hafter : (run serve { store := { db := oneHost } } (racingUpdates ++ [.apply 0])).store.db.get
      .nsmHostInfo (ascii ['h']) = some { kind := ascii ['j'], lost := false } := by decide +kernel
  refine ⟨⟨_, hbefore, rfl⟩, ?_⟩
  rintro ⟨host, hhost, hlost⟩
  rw [hafter] at hhost
  cases hhost
  cases hlost

/-- The host is marked as lost, and its configuration is changed afterwards. -/
theorem lost_stays_after_change : Lost (run serve { store := { db := oneHost } }
      ([.compute (.updateNsmHost (ascii ['h']) { kind := ascii ['k'], lost := true }), .apply 0] ++
        [.compute (.updateNsmHost (ascii ['h']) { kind := ascii ['j'], lost := true }),
          .compute (.updateNsmHost (ascii ['h']) { kind := ascii ['i'], lost := false }), .apply 0])).store.db
      (ascii ['h']) := by
  refine lost_stays oneHost _ _ (ascii ['h']) (by decide +kernel) ?_
  exact ⟨{ kind := ascii ['k'], lost := true }, by decide +kernel, rfl⟩

end Alba.Albamgr
