import Alba.Nsm.Reads
import Alba.Nsm.Policies

/-! `apply_sequence` against its updates executed one at a time. When the whole list applies, the
updates that count have different names and touch different objects, so that their lists commute. -/

namespace Alba.Nsm

open ProofKit Std List

/-- One update on its own: computed from the store as it is and applied to it. -/
def executeUpdate (namespaceId : NamespaceId) (cache : Option (BitVec 64 × Preset)) (kv : Store)
    (u : NsmUpdate) : Option Store :=
  match updatesForUpdate namespaceId cache kv u with
  | .ok us => commit Key.encode kv us
  | .error _ => none

def NsmUpdate.LastIn (updates : List NsmUpdate) (u : NsmUpdate) : Prop :=
  ∃ before after, updates = before ++ u :: after ∧ ∀ w ∈ after, w.name ≠ u.name

theorem mem_lastUpdates_iff {updates : List NsmUpdate} {u : NsmUpdate} :
    u ∈ lastUpdates updates ↔ u.LastIn updates := by
  induction updates with
  | nil => simp [lastUpdates, NsmUpdate.LastIn]
  | cons w updates ih =>
    have hcons : u.LastIn (w :: updates) ↔
        (u = w ∧ ∀ v ∈ updates, v.name ≠ w.name) ∨ u.LastIn updates := by
      constructor
      · rintro ⟨before, after, he, hlast⟩
        cases before with
        | nil =>
          cases he
          exact Or.inl ⟨rfl, hlast⟩
        | cons x before =>
          cases he
          exact Or.inr ⟨before, after, rfl, hlast⟩
      · rintro (⟨rfl, hlast⟩ | ⟨before, after, rfl, hlast⟩)
        · exact ⟨[], updates, rfl, hlast⟩
        · exact ⟨w :: before, after, rfl, hlast⟩
    rw [hcons, lastUpdates]
    split
    · rename_i hany
      rw [ih]
      refine ⟨Or.inr, fun h => h.resolve_left ?_⟩
      rintro ⟨_, hlast⟩
      obtain ⟨v, hv, hname⟩ := any_eq_true.mp hany
      exact hlast v hv (by simpa using hname)
    · rename_i hany
      have hlast : ∀ v ∈ updates, v.name ≠ w.name := by
        intro v hv he
        exact hany (any_eq_true.mpr ⟨v, hv, by simpa using he⟩)
      rw [mem_cons, ih]
      exact or_congr_left ⟨fun he => ⟨he, hlast⟩, And.left⟩

theorem lastUpdates_names_nodup (updates : List NsmUpdate) :
    ((lastUpdates updates).map NsmUpdate.name).Nodup := by
  induction updates with
  | nil => simp [lastUpdates]
  | cons w updates ih =>
    rw [lastUpdates]
    split
    · exact ih
    · rename_i hany
      refine nodup_cons.mpr ⟨fun hmem => hany ?_, ih⟩
      obtain ⟨v, hv, hname⟩ := mem_map.mp hmem
      obtain ⟨before, after, rfl, _⟩ := mem_lastUpdates_iff.mp hv
      exact any_eq_true.mpr ⟨v, by simp, by simpa using hname⟩

section Lists

variable (namespaceId : NamespaceId) (cache : Option (BitVec 64 × Preset)) (kv : Store)

/-- The updates computed for `u`. -/
def listFor (u : NsmUpdate) : List Upd := resultD (updatesForUpdate namespaceId cache kv u) []

/-- The updates for `u` are computed without an exception. -/
def Computes (u : NsmUpdate) : Prop :=
  updatesForUpdate namespaceId cache kv u = .ok (listFor namespaceId cache kv u)

/-- Two updates touch different names and objects. -/
def NsmUpdate.Apart (u u' : NsmUpdate) : Prop :=
  u.name ≠ u'.name ∧ ∀ id, u.Ids kv id → ¬u'.Ids kv id

end Lists

section Apart

variable {namespaceId : NamespaceId} {cache : Option (BitVec 64 × Preset)} {kv kv₁ kv₂ : Store}
  {u u' : NsmUpdate}

theorem NsmUpdate.Apart.symm (h : u.Apart kv u') : u'.Apart kv u :=
  ⟨h.1.symm, fun id hid hid' => h.2 id hid' hid⟩

section

variable (h : Computes namespaceId cache kv u)
include h

theorem Computes.within : ∀ w ∈ listFor namespaceId cache kv u, Within (· = u.name) (u.Ids kv) w := by
  rcases updatesForUpdate_footprint h with ⟨_, _, hnil⟩ | hfoot
  · simp [hnil]
  · exact hfoot.within

theorem Computes.guards : Guards Key.kind guardedKinds (kvGet kv) (listFor namespaceId cache kv u) := by
  rcases updatesForUpdate_footprint h with ⟨_, _, hnil⟩ | hfoot
  · rw [hnil]
    exact .nil
  · exact hfoot.guards

theorem Computes.listsCommute (h' : Computes namespaceId cache kv u') (hapart : u.Apart kv u') :
    ListsCommute (listFor namespaceId cache kv u) (listFor namespaceId cache kv u') :=
  listsCommute_of_within h.within h'.within (fun _ hn hn' => hapart.1 (hn.symm.trans hn')) hapart.2

theorem Computes.present {id : Bytes}
    (hnew : kvGet kv (.objects id) = none) {v : Option Value} (hv : v ≠ none) :
    runKey (.objects id) (listFor namespaceId cache kv u) v ≠ none := by
  rcases updatesForUpdate_footprint h with ⟨_, _, hnil⟩ | hfoot
  · simpa [hnil] using hv
  by_cases hid : u.Ids kv id
  · rcases hid with ⟨p, hp, rfl⟩ | hold
    · simp [hfoot.stored p hp]
    · exact absurd hnew (hfoot.old id hold)
  · have hkey : (Key.objects id).Owned (fun _ => False) (· = id) := rfl
    rw [runKey_of_within hfoot.within hkey (fun _ => False.elim) fun i hi => by rwa [hi]]
    exact hv

end

section

variable {order : List NsmUpdate} (h : ∀ u ∈ order, Computes namespaceId cache kv u)
  (hc : commit Key.encode kv₁ (order.map (listFor namespaceId cache kv)).flatten = some kv₂)
include h hc

theorem not_put_of_present {id : Bytes}
    (hnew : kvGet kv (.objects id) = none) (hpresent : kvGet kv₁ (.objects id) ≠ none) :
    ∀ u ∈ order, ∀ p ∈ u.put?, p.1.objectId ≠ id := by
  induction order generalizing kv₁ with
  | nil => simp
  | cons u order ih =>
    have hu := h u mem_cons_self
    rw [map_cons, flatten_cons, commit_append, Option.bind_eq_some_iff] at hc
    obtain ⟨mid, hfirst, hrest⟩ := hc
    have hmid : kvGet mid (.objects id) ≠ none := by
      have hget : kvGet mid (.objects id) = _ := commit_get Key.encode_injective hfirst _
      rw [hget]
      exact hu.present hnew hpresent
    refine forall_mem_cons.mpr ⟨fun p hp he => ?_, ?_⟩
    · rcases updatesForUpdate_footprint hu with ⟨hput, _, _⟩ | hfoot
      · rw [hput] at hp
        cases hp
      · have hassert := hfoot.objects id (Or.inl ⟨p, hp, he⟩)
        have hholds := hfoot.guards.holds Key.encode_injective hfirst hassert (by simp [guardedKinds])
        exact hpresent (hholds.trans hnew)
    · exact ih (fun w hw => h w (mem_cons_of_mem _ hw)) hrest hmid

theorem puts_pairwise :
    order.Pairwise fun u u' => ∀ p ∈ u.put?, ∀ p' ∈ u'.put?, p'.1.objectId ≠ p.1.objectId := by
  induction order generalizing kv₁ with
  | nil => exact .nil
  | cons u order ih =>
    have hrest := fun w hw => h w (mem_cons_of_mem u hw)
    rw [map_cons, flatten_cons, commit_append, Option.bind_eq_some_iff] at hc
    obtain ⟨mid, hfirst, hc⟩ := hc
    refine pairwise_cons.mpr ⟨fun u' hu' p hp p' hp' => ?_, ih hrest hc⟩
    rcases updatesForUpdate_footprint (h u mem_cons_self) with ⟨hput, _, _⟩ | hfoot
    · rw [hput] at hp
      cases hp
    have hget : kvGet mid (.objects p.1.objectId) = _ := commit_get Key.encode_injective hfirst _
    rw [hfoot.stored p hp] at hget
    exact not_put_of_present hrest hc (hfoot.fresh p hp) (by simp [hget]) u' hu' p' hp'

end

theorem apart_of_footprints {us us' : List Upd} (hi : Indexed kv) (h : Footprint kv u us)
    (h' : Footprint kv u' us') (hname : u.name ≠ u'.name)
    (hputs : ∀ p ∈ u.put?, ∀ p' ∈ u'.put?, p'.1.objectId ≠ p.1.objectId) : u.Apart kv u' := by
  refine ⟨hname, fun id hid hid' => ?_⟩
  rcases hid with ⟨p, hp, rfl⟩ | hold
  · rcases hid' with ⟨p', hp', he⟩ | hold'
    · exact hputs p hp p' hp' he
    · exact h'.old _ hold' (h.fresh p hp)
  · rcases hid' with ⟨p', hp', rfl⟩ | hold'
    · exact h.old _ hold (h'.fresh p' hp')
    · -- by the index the object has one name
      obtain ⟨_, t, he, ht, htn⟩ := hi.names _ _ hold
      cases he
      exact hname (htn.symm.trans (hi.name_eq hold' ht).1)

theorem not_ids_of_missing (hput : u.put? = none) (hname : kvGet kv (.names u.name) = none)
    (id : Bytes) : ¬u.Ids kv id := by
  rintro (⟨p, hp, _⟩ | hold)
  · rw [hput] at hp
    cases hp
  · rw [hname] at hold
    cases hold

theorem apart_of_names (hi : Indexed kv) (h : Computes namespaceId cache kv u)
    (h' : Computes namespaceId cache kv u') (hname : u.name ≠ u'.name)
    (hputs : ∀ p ∈ u.put?, ∀ p' ∈ u'.put?, p'.1.objectId ≠ p.1.objectId) : u.Apart kv u' := by
  rcases updatesForUpdate_footprint h with ⟨hput, hnone, _⟩ | hfoot
  · exact ⟨hname, fun id hid => absurd hid (not_ids_of_missing hput hnone id)⟩
  rcases updatesForUpdate_footprint h' with ⟨hput, hnone, _⟩ | hfoot'
  · exact ⟨hname, fun id _ => not_ids_of_missing hput hnone id⟩
  exact apart_of_footprints hi hfoot hfoot' hname hputs

end Apart

section Execute

variable {namespaceId : NamespaceId} {cache : Option (BitVec 64 × Preset)} {kv kv₁ kv' : Store}
  {u : NsmUpdate} {order rest : List NsmUpdate}

/-- The lists of updates that touch other objects leave what the computation for `u` reads. -/
theorem agree_of_apart {done : List NsmUpdate} (h : ∀ w ∈ done, Computes namespaceId cache kv w)
    (hapart : ∀ w ∈ done, u.Apart kv w)
    (hc : commit Key.encode kv (done.map (listFor namespaceId cache kv)).flatten = some kv₁) :
    Agree u kv kv₁ := by
  have get : ∀ k, (∀ w ∈ done, ∀ x, Within (· = w.name) (w.Ids kv) x → ¬x.Writes k) →
      kvGet kv₁ k = kvGet kv k := by
    intro k hk
    have hget : kvGet kv₁ k = _ := commit_get Key.encode_injective hc k
    rw [hget]
    refine runKey_of_not_writes _ fun x hx => ?_
    obtain ⟨l, hl, hxl⟩ := mem_flatten.mp hx
    obtain ⟨w, hw, rfl⟩ := mem_map.mp hl
    exact hk w hw x ((h w hw).within x hxl)
  have owned : ∀ k : Key, k.Owned (· = u.name) (u.Ids kv) → kvGet kv₁ k = kvGet kv k := by
    intro k hk
    refine get k fun w hw x hx hwrites => ?_
    have hname : ∀ n, n = u.name → ¬n = w.name := fun n hn hn' => (hapart w hw).1 (hn.symm.trans hn')
    exact hk.key_ne hx hname (hapart w hw).2 hwrites.key_eq.symm
  refine ⟨fun k hk => get k fun w hw x hx => hx.not_writes_frame ?_, owned _ rfl,
    fun id hid => owned (.objects id) hid, fun _ => get _ fun w hw x hx => hx.not_writes_frame ?_⟩
  · simp only [mem_cons, not_mem_nil, or_false] at hk
    simp only [frameKinds, mem_cons, not_mem_nil, or_false]
    tauto
  · simp [frameKinds]

/-- Updates that touch different objects, executed one at a time, do what their lists, all computed
at the start, do one after the other. -/
theorem foldlM_executeUpdate (done : List NsmUpdate)
    (h : ∀ w ∈ done ++ rest, Computes namespaceId cache kv w)
    (hapart : (done ++ rest).Pairwise (NsmUpdate.Apart kv))
    (hc : commit Key.encode kv (done.map (listFor namespaceId cache kv)).flatten = some kv₁) :
    rest.foldlM (executeUpdate namespaceId cache) kv₁ =
      commit Key.encode kv₁ (rest.map (listFor namespaceId cache kv)).flatten := by
  induction rest generalizing done kv₁ with
  | nil => rfl
  | cons u rest ih =>
    have hagree : Agree u kv kv₁ :=
      agree_of_apart (fun w hw => h w (mem_append_left _ hw))
        (fun w hw => ((pairwise_append.mp hapart).2.2 w hw u mem_cons_self).symm) hc
    have hstep : executeUpdate namespaceId cache kv₁ u =
        commit Key.encode kv₁ (listFor namespaceId cache kv u) := by
      rw [executeUpdate, hagree.updatesForUpdate, h u (by simp)]
    rw [foldlM_cons, map_cons, flatten_cons, commit_append, hstep]
    cases hu : commit Key.encode kv₁ (listFor namespaceId cache kv u) with
    | none => rfl
    | some mid =>
      have hnext : commit Key.encode kv ((done ++ [u]).map (listFor namespaceId cache kv)).flatten =
          some mid := by
        rw [map_append, flatten_append, commit_append, hc]
        simpa using hu
      refine ih (done ++ [u]) ?_ ?_ hnext
      · simpa using h
      · simpa using hapart

theorem applySequence_eq_ok {asserts : List Assert} {updates : List NsmUpdate} {us : List Upd}
    (h : applySequence namespaceId cache kv asserts updates order = .ok us) :
    order.Perm (lastUpdates updates) ∧ (∀ u ∈ order, Computes namespaceId cache kv u) ∧
      ∃ checks, asserts.mapM (updateForAssert kv) = .ok checks ∧
        us = checks.reverse ++ (order.map (listFor namespaceId cache kv)).flatten := by
  simp only [applySequence, bind_eq_ok, check_eq_ok, isPerm_iff] at h
  obtain ⟨_, hperm, checks, hchecks, lists, hlists, h⟩ := h
  cases h
  obtain ⟨hall, rfl⟩ := mapM_eq_ok_resultD hlists []
  exact ⟨hperm, hall, checks, hchecks, reverseAux_eq⟩

theorem applySequence_of_computes {asserts : List Assert} {updates : List NsmUpdate}
    {checks : List Upd} (hperm : order.Perm (lastUpdates updates))
    (hall : ∀ u ∈ order, Computes namespaceId cache kv u)
    (hchecks : asserts.mapM (updateForAssert kv) = .ok checks) :
    applySequence namespaceId cache kv asserts updates order =
      .ok (checks.reverse ++ (order.map (listFor namespaceId cache kv)).flatten) := by
  have hcheck : check (order.isPerm (lastUpdates updates) = true) Exn.failure = .ok () :=
    check_eq_ok.mpr (isPerm_iff.mpr hperm)
  simp only [applySequence, hcheck, hchecks, mapM_of_forall hall, ok_bind, reverseAux_eq]
  rfl

theorem order_apart (hi : Indexed kv) (hnames : (order.map NsmUpdate.name).Nodup)
    (hall : ∀ u ∈ order, Computes namespaceId cache kv u)
    (hc : commit Key.encode kv₁ (order.map (listFor namespaceId cache kv)).flatten = some kv') :
    order.Pairwise (NsmUpdate.Apart kv) := by
  have hdistinct : order.Pairwise fun u u' => u.name ≠ u'.name := pairwise_map.mp hnames
  refine (hdistinct.and (puts_pairwise hall hc)).imp_of_mem fun hu hu' hpair => ?_
  exact apart_of_names hi (hall _ hu) (hall _ hu') hpair.1 hpair.2

end Execute

/-- A sequence that applies does what its surviving updates do one at a time, each computed from the
state that the ones before it leave, in whatever order; and it does the same for every order in which
the hash table yields them. -/
theorem applySequence_refines {namespaceId : NamespaceId} {cache : Option (BitVec 64 × Preset)}
    {kv kv' : Store} {asserts : List Assert} {updates order : List NsmUpdate} {us : List Upd}
    (hi : Indexed kv) (hop : applySequence namespaceId cache kv asserts updates order = .ok us)
    (hc : commit Key.encode kv us = some kv') (order' : List NsmUpdate) (hnodup : order'.Nodup)
    (hlast : ∀ u, u ∈ order' ↔ u.LastIn updates) :
    order'.foldlM (executeUpdate namespaceId cache) kv = some kv' ∧
      ∃ us', applySequence namespaceId cache kv asserts updates order' = .ok us' ∧
        commit Key.encode kv us' = some kv' := by
  obtain ⟨hperm, hall, checks, hchecks, rfl⟩ := applySequence_eq_ok hop
  have hnames := lastUpdates_names_nodup updates
  have hperm' : order'.Perm (lastUpdates updates) := by
    refine (perm_ext_iff_of_nodup hnodup (hnames.of_map _)).mpr fun u => ?_
    rw [hlast, mem_lastUpdates_iff]
  have horder : order.Perm order' := hperm.trans hperm'.symm
  have hall' : ∀ u ∈ order', Computes namespaceId cache kv u :=
    fun u hu => hall u (horder.mem_iff.mpr hu)
  rw [commit_append, Option.bind_eq_some_iff] at hc
  obtain ⟨mid, hasserts, hc⟩ := hc
  have hsame : mid = kv := by
    rw [(mapM_updateForAssert_ok_iff.mp hchecks).2] at hasserts
    exact commit_of_asserts (checksOf_asserts asserts) hasserts
  subst hsame
  have hapart := order_apart hi ((hperm.map _).nodup_iff.mpr hnames) hall hc
  have hcommute : (order.map (listFor namespaceId cache mid)).Pairwise ListsCommute := by
    refine pairwise_map.mpr (hapart.imp_of_mem fun hu hu' h => ?_)
    exact (hall _ hu).listsCommute (hall _ hu') h
  have hc' : commit Key.encode mid (order'.map (listFor namespaceId cache mid)).flatten = some kv' := by
    rw [← commit_perm Key.encode_injective (horder.map _) hcommute, hc]
  refine ⟨?_, _, applySequence_of_computes hperm' hall' hchecks, ?_⟩
  · have hapart' := horder.pairwise hapart fun h => h.symm
    rw [foldlM_executeUpdate [] (by simpa using hall') (by simpa using hapart') rfl, hc']
  · rw [commit_append, hasserts]
    exact hc'

/-- Another object like the one of `sampleManifest`. -/
def sampleOther : Manifest := { sampleManifest with name := ascii ['b'], objectId := ascii ['y'] }

def sampleUpdates : List NsmUpdate := [.deleteObject (ascii ['a']), .putObject sampleOther 0]

theorem applySequence_refines_sample :
    ∃ us kv', applySequence 0 none (run (exec 0) ∅ sampleRequests) [] sampleUpdates sampleUpdates =
        .ok us ∧ commit Key.encode (run (exec 0) ∅ sampleRequests) us = some kv' ∧
      sampleUpdates.reverse.foldlM (executeUpdate 0 none) (run (exec 0) ∅ sampleRequests) =
        some kv' := by
  have hsome : ((applySequence 0 none (run (exec 0) ∅ sampleRequests) [] sampleUpdates
      sampleUpdates).toOption.bind (commit Key.encode (run (exec 0) ∅ sampleRequests))).isSome =
        true := by decide +kernel
  obtain ⟨kv', hkv'⟩ := Option.isSome_iff_exists.mp hsome
  obtain ⟨us, hus, hc⟩ := Option.bind_eq_some_iff.mp hkv'
  have hop : applySequence 0 none (run (exec 0) ∅ sampleRequests) [] sampleUpdates sampleUpdates =
      .ok us := by
    cases h : applySequence 0 none (run (exec 0) ∅ sampleRequests) [] sampleUpdates sampleUpdates with
    | error e => simp [h, Except.toOption] at hus
    | ok us' => simpa [h, Except.toOption] using hus
  have hlast : ∀ u, u ∈ sampleUpdates.reverse ↔ u.LastIn sampleUpdates := by
    intro u
    rw [← mem_lastUpdates_iff, mem_reverse, show lastUpdates sampleUpdates = sampleUpdates by decide]
  exact ⟨us, kv', hop, hc,
    (applySequence_refines (run_indexed 0 sampleRequests) hop hc _ (by decide) hlast).1⟩

end Alba.Nsm
