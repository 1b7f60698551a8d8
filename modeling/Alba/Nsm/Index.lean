import Alba.Nsm.Outcome

/-! The object index of a namespace: names, objects and the objects of each osd agree in every state
that requests can reach. -/

namespace Alba.Nsm

open ProofKit Std

variable {id : Bytes} {kv kv' : Store}

def manifestAt (kv : Store) (objectId : Bytes) : Option Manifest :=
  match kvGet kv (.objects objectId) with
  | some (.manifest t) => some t
  | _ => none

theorem manifestAt_eq_some {kv : Store} {t : Manifest} :
    manifestAt kv id = some t ↔ kvGet kv (.objects id) = some (.manifest t) := by
  unfold manifestAt
  split <;> simp_all

theorem manifestAt_congr (h : kvGet kv' (.objects id) = kvGet kv (.objects id)) :
    manifestAt kv' id = manifestAt kv id := by
  simp only [manifestAt, h]

theorem manifestAt_of_get {kv : Store} {m : Option Manifest}
    (h : kvGet kv (.objects id) = m.map .manifest) : manifestAt kv id = m := by
  unfold manifestAt
  cases m <;> simp_all

structure Indexed (kv : Store) : Prop where
  names : ∀ n v, kvGet kv (.names n) = some v →
    ∃ id t, v = .objectInfo id ∧ kvGet kv (.objects id) = some (.manifest t) ∧ t.name = n
  objects : ∀ id v, kvGet kv (.objects id) = some v →
    ∃ t, v = .manifest t ∧ t.objectId = id ∧ kvGet kv (.names t.name) = some (.objectInfo id)
  marks : ∀ d id, kvGet kv (.osdObjects d id) = mark d (manifestAt kv id)

theorem Indexed.empty : Indexed ∅ := by
  constructor
  · intro n v h
    simp [kvGet] at h
  · intro id v h
    simp [kvGet] at h
  · intro d id
    simp [kvGet, manifestAt, mark]

theorem Indexed.congr (hi : Indexed kv)
    (h : ∀ k : Key, k.kind ∈ [.names, .objects, .osdObjects] → kvGet kv' k = kvGet kv k) :
    Indexed kv' := by
  have hnames : ∀ n, kvGet kv' (.names n) = kvGet kv (.names n) := fun n => h _ (by simp)
  have hobjects : ∀ id, kvGet kv' (.objects id) = kvGet kv (.objects id) := fun id => h _ (by simp)
  constructor
  · intro n v hv
    obtain ⟨id, t, hid, ht, hname⟩ := hi.names n v (by rw [← hnames, hv])
    exact ⟨id, t, hid, by rw [hobjects, ht], hname⟩
  · intro id v hv
    obtain ⟨t, ht, hid, hname⟩ := hi.objects id v (by rw [← hobjects, hv])
    exact ⟨t, ht, hid, by rw [hnames, hname]⟩
  · intro d id
    rw [h _ (by simp), hi.marks, manifestAt_congr (hobjects id)]

section Effects

variable {namespaceId : NamespaceId} {c : Change} {kv kv' : Store} {t : Manifest} {gcEpoch : Int64}

theorem Indexed.name_eq (hi : Indexed kv) {n id : Bytes}
    (hn : kvGet kv (.names n) = some (.objectInfo id))
    (ht : kvGet kv (.objects id) = some (.manifest t)) : t.name = n ∧ t.objectId = id := by
  obtain ⟨_, t', he, ht', hname⟩ := hi.names n _ hn
  cases he
  rw [ht] at ht'
  cases ht'
  obtain ⟨t', he, hid, _⟩ := hi.objects id _ ht
  cases he
  exact ⟨hname, hid⟩

theorem Effect.marks_indexed (h : Effect namespaceId c kv kv') (hi : Indexed kv) (d : OsdId)
    (id : Bytes) : kvGet kv' (.osdObjects d id) = mark d (manifestAt kv' id) := by
  by_cases hid : id ∈ c.slots.map Slot.objectId
  · obtain ⟨s, hs, rfl⟩ := List.mem_map.mp hid
    have hbefore : manifestAt kv s.objectId = s.before := manifestAt_of_get (h.before s hs)
    rw [manifestAt_of_get (h.after s hs)]
    exact h.marks s hs d (by rw [hi.marks, hbefore])
  · rw [h.osdObjects d id hid, hi.marks, manifestAt_congr (h.objects id hid)]

theorem Effect.put_old {m : Manifest} {old : Option (Bytes × Manifest)}
    (h : Effect namespaceId (.put m gcEpoch old) kv kv') (hi : Indexed kv) {id : Bytes}
    (hold : old = some (id, t)) : kvGet kv (.names m.name) = some (.objectInfo id) ∧
      kvGet kv (.objects id) = some (.manifest t) ∧ t.name = m.name := by
  subst hold
  have hname : kvGet kv (.names m.name) = some (.objectInfo id) := h.nameBefore
  have ht : kvGet kv (.objects id) = some (.manifest t) :=
    h.old_before
  exact ⟨hname, ht, (hi.name_eq hname ht).1⟩

theorem Effect.put_indexed {m : Manifest} {old : Option (Bytes × Manifest)}
    (h : Effect namespaceId (.put m gcEpoch old) kv kv') (hi : Indexed kv) : Indexed kv' := by
  have hnew := h.put_before
  have hput := h.put_after
  have hname : kvGet kv' (.names m.name) = some (.objectInfo m.objectId) := by
    simp [h.names, Change.nameAfter]
  have hother : ∀ n, m.name ≠ n → kvGet kv' (.names n) = kvGet kv (.names n) := by
    intro n hn
    simp [h.names, Change.nameAfter, hn]
  constructor
  · intro n v hv
    by_cases hn : m.name = n
    · subst hn
      rw [hname] at hv
      cases hv
      exact ⟨m.objectId, m, rfl, hput, rfl⟩
    · rw [hother n hn] at hv
      obtain ⟨id, t, rfl, ht, htn⟩ := hi.names n v hv
      refine ⟨id, t, rfl, ?_, htn⟩
      rw [h.objects id ?_, ht]
      simp only [Change.slots, List.map_cons, List.map_map, List.mem_cons, List.mem_map,
        Option.mem_toList, Function.comp_apply, not_or, not_exists, not_and]
      refine ⟨fun he => ?_, fun o ho he => ?_⟩
      · rw [he, hnew] at ht
        cases ht
      · -- the old object of this name would be the object of another name
        obtain ⟨_, ht', hname'⟩ := h.put_old hi (Option.mem_def.mp ho)
        rw [he, ht] at ht'
        cases ht'
        exact hn (hname'.symm.trans htn)
  · intro id v hv
    by_cases hid : id ∈ (Change.put m gcEpoch old).slots.map Slot.objectId
    · obtain ⟨s, hs, rfl⟩ := List.mem_map.mp hid
      rcases List.mem_cons.mp hs with rfl | hs'
      · rw [hput] at hv
        cases hv
        exact ⟨m, rfl, rfl, hname⟩
      · obtain ⟨o, _, rfl⟩ := List.mem_map.mp hs'
        rw [h.after _ hs] at hv
        cases hv
    · rw [h.objects id hid] at hv
      obtain ⟨t, rfl, htid, htn⟩ := hi.objects id v hv
      refine ⟨t, rfl, htid, ?_⟩
      by_cases hn : m.name = t.name
      · have hold : kvGet kv (.names m.name) = old.map fun o => .objectInfo o.1 := h.nameBefore
        rw [hn, htn] at hold
        cases old with
        | none => cases hold
        | some o =>
          cases hold
          exact absurd (by simp [Change.slots]) hid
      · rw [hother _ hn, htn]
  · exact h.marks_indexed hi

theorem Effect.delete_indexed {name objectId : Bytes}
    (h : Effect namespaceId (.delete name objectId t) kv kv') (hi : Indexed kv) : Indexed kv' := by
  have hname : kvGet kv (.names name) = some (.objectInfo objectId) := h.nameBefore
  have hgone := h.delete_after
  have hobjects : ∀ id, id ≠ objectId → kvGet kv' (.objects id) = kvGet kv (.objects id) :=
    fun id hid => h.objects id (by simpa [Change.slots] using hid)
  have hnames : ∀ n, kvGet kv' (.names n) = if name = n then none else kvGet kv (.names n) :=
    h.names
  constructor
  · intro n v hv
    rw [hnames] at hv
    split at hv
    · cases hv
    · rename_i hn
      obtain ⟨id, t', rfl, ht', htn⟩ := hi.names n v hv
      refine ⟨id, t', rfl, ?_, htn⟩
      rw [hobjects id, ht']
      rintro rfl
      exact hn ((hi.name_eq hname ht').1.symm.trans htn)
  · intro id v hv
    by_cases hid : id = objectId
    · rw [hid, hgone] at hv
      cases hv
    · rw [hobjects id hid] at hv
      obtain ⟨t', rfl, htid, htn⟩ := hi.objects id v hv
      refine ⟨t', rfl, htid, ?_⟩
      rw [hnames, if_neg, htn]
      rintro rfl
      rw [htn] at hname
      cases hname
      exact hid rfl
  · exact h.marks_indexed hi

theorem Effect.update_indexed {objectId : Bytes} {table : List FragmentUpdate} {versionId : Int32}
    (h : Effect namespaceId (.update objectId table gcEpoch versionId t) kv kv') (hi : Indexed kv) :
    Indexed kv' := by
  have ht := h.update_before
  have hafter := h.update_after
  have hobjects : ∀ id, id ≠ objectId → kvGet kv' (.objects id) = kvGet kv (.objects id) :=
    fun id hid => h.objects id (by simpa [Change.slots] using hid)
  have hnames : ∀ n, kvGet kv' (.names n) = kvGet kv (.names n) := h.names
  constructor
  · intro n v hv
    rw [hnames] at hv
    obtain ⟨id, t', rfl, ht', htn⟩ := hi.names n v hv
    by_cases hid : id = objectId
    · subst hid
      rw [ht] at ht'
      cases ht'
      exact ⟨id, _, rfl, hafter, htn⟩
    · exact ⟨id, t', rfl, by rw [hobjects id hid, ht'], htn⟩
  · intro id v hv
    by_cases hid : id = objectId
    · subst hid
      rw [hafter] at hv
      cases hv
      obtain ⟨_, he, htid, htn⟩ := hi.objects id _ ht
      cases he
      exact ⟨_, rfl, htid, by rw [hnames]; exact htn⟩
    · rw [hobjects id hid] at hv
      obtain ⟨t', rfl, htid, htn⟩ := hi.objects id v hv
      exact ⟨t', rfl, htid, by rw [hnames, htn]⟩
  · exact h.marks_indexed hi

theorem Effect.indexed (h : Effect namespaceId c kv kv') (hi : Indexed kv) : Indexed kv' := by
  cases c with
  | put m gcEpoch old => exact h.put_indexed hi
  | delete name objectId t => exact h.delete_indexed hi
  | update objectId table gcEpoch versionId t => exact h.update_indexed hi

end Effects

theorem exec_indexed {namespaceId : NamespaceId} {r : Request} (hi : Indexed kv)
    (h : exec namespaceId kv r = some kv') : Indexed kv' :=
  exec_preserves [.names, .objects, .osdObjects] (by decide) (fun _ _ _ effect hi => effect.indexed hi)
    (fun _ _ same hi => hi.congr same) hi h

theorem run_indexed (namespaceId : NamespaceId) (requests : List Request) :
    Indexed (run (exec namespaceId) ∅ requests) :=
  run_invariant (fun _ _ _ hi h => exec_indexed hi h) requests .empty

/-- After any requests a name holds an id exactly when the object of that id has that name, and an
osd lists an object exactly when a fragment of it is located there. -/
theorem objectIndex_reachable (namespaceId : NamespaceId) (requests : List Request) :
    (∀ n id, kvGet (run (exec namespaceId) ∅ requests) (.names n) = some (.objectInfo id) ↔
      ∃ t, kvGet (run (exec namespaceId) ∅ requests) (.objects id) = some (.manifest t) ∧
        t.name = n ∧ t.objectId = id) ∧
    ∀ d id, (kvGet (run (exec namespaceId) ∅ requests) (.osdObjects d id)).isSome ↔
      ∃ t, kvGet (run (exec namespaceId) ∅ requests) (.objects id) = some (.manifest t) ∧
        t.LocatedOn d := by
  have hi := run_indexed namespaceId requests
  generalize run (exec namespaceId) ∅ requests = kv at hi
  refine ⟨fun n id => ⟨fun hn => ?_, ?_⟩, fun d id => ?_⟩
  · obtain ⟨_, t, he, ht, _⟩ := hi.names n _ hn
    cases he
    exact ⟨t, ht, hi.name_eq hn ht⟩
  · rintro ⟨t, ht, rfl, rfl⟩
    obtain ⟨_, he, _, hn⟩ := hi.objects _ _ ht
    cases he
    exact hn
  · rw [hi.marks]
    simp only [mark, ← manifestAt_eq_some, Option.mem_def]
    split <;> simp_all

end Alba.Nsm
