import Alba.NsmHost.Host

/-! The namespaces of an nsm host do not meet: no text of a namespace starts the text of another one, and
none of their keys is an entry of the list of namespaces or a key of the host. -/

namespace Alba.NsmHost

open ProofKit Nsm Std List

section Keys

theorem xInt64To_append_inj {i j : Nat63} {s t : Bytes}
    (h : xInt64To i ++ s = xInt64To j ++ t) : i = j ∧ s = t :=
  switched_append_inj leBytes_length leBytes_eq_iff h

theorem getLast?_leBytes (width n : Nat) :
    (leBytes (width + 1) n).getLast? = some (UInt8.ofNat (n / 256 ^ width)) := by
  induction width generalizing n with
  | zero => simp [leBytes]
  | succ width ih =>
    rw [leBytes, getLast?_cons, ih, Nat.div_div_eq_div_mul, ← Nat.pow_succ']
    rfl

theorem getLast?_xInt64To (i : Nat63) : (xInt64To i).getLast? ≠ some 255 := by
  have hi := i.fits
  have hlow : ∀ {n : Nat}, n < 128 → UInt8.ofNat n ≠ 255 := by
    intro n hn he
    rw [show (255 : UInt8) = UInt8.ofNat 255 from rfl, ofNat_eq_iff] at he
    omega
  rw [xInt64To]
  split
  · rw [getLast?_leBytes]
    exact fun he => hlow (by omega) (Option.some.inj he)
  · rw [getLast?_append, getLast?_leBytes]
    exact fun he => hlow (by omega) (Option.some.inj he)

theorem xInt64To_ne_nil (i : Nat63) : xInt64To i ≠ [] := by
  rw [xInt64To]
  split <;> exact ne_nil_of_length_pos (by simp)

namespace Keys

variable {a b : NamespaceId}

theorem namespaceContent_append_inj {s t : Bytes}
    (h : namespaceContent a ++ s = namespaceContent b ++ t) : a = b ∧ s = t := by
  rw [namespaceContent, namespaceContent, append_assoc, append_assoc] at h
  exact xInt64To_append_inj (append_cancel_left h)

theorem getLast?_namespaceContent (a : NamespaceId) : (namespaceContent a).getLast? ≠ some 255 := by
  rw [namespaceContent, getLast?_append_of_ne_nil _ (xInt64To_ne_nil a)]
  exact getLast?_xInt64To a

theorem namespaceInfo_inj (h : namespaceInfo a = namespaceInfo b) : a = b := by
  have happ : xInt64To a ++ [] = xInt64To b ++ [] := by simpa [namespaceInfo] using h
  exact (xInt64To_append_inj happ).1

theorem content_ne {key : Bytes} (h : key.take 5 ≠ namespaceContentPrefix) (a : NamespaceId)
    (k : Bytes) : namespaceContent a ++ k ≠ key := by
  rintro rfl
  refine h ?_
  rw [namespaceContent, append_assoc]
  exact take_left' rfl

theorem content_ne_info (a b : NamespaceId) (k : Bytes) :
    namespaceContent a ++ k ≠ namespaceInfo b := by
  refine content_ne ?_ a k
  rw [namespaceInfo, take_append_of_le_length (by decide)]
  decide

theorem content_ne_nextMsg (a : NamespaceId) (k : Bytes) : namespaceContent a ++ k ≠ nextMsg :=
  content_ne (by decide) a k

theorem content_ne_nsmHostVersion (a : NamespaceId) (k : Bytes) :
    namespaceContent a ++ k ≠ nsmHostVersion :=
  content_ne (by decide) a k

end Keys

end Keys

section Updates

def keyOf : HostUpd → Bytes
  | .assert k _ => k
  | .set k _ => k
  | .transform k _ => k

def Touches (a : NamespaceId) (u : HostUpd) : Prop := ∃ k, keyOf u = Keys.namespaceContent a ++ k

theorem transformUpdates_touches {a : NamespaceId} {us : List Upd} :
    ∀ u ∈ transformUpdates a us, Touches a u := by
  intro u hu
  obtain ⟨w, _, rfl⟩ := mem_map.mp hu
  cases w with
  | assert k v => exact ⟨k.encode, rfl⟩
  | set k v => cases v <;> exact ⟨k.encode, rfl⟩
  | transform k t => exact ⟨k.encode, rfl⟩

theorem keyOf_of_writes {u : HostUpd} {key : Bytes} (h : u.Writes key) : keyOf u = key := by
  cases u with
  | assert => exact h.elim
  | set | transform => exact h

theorem applyAll_other {db db' : HostDb} {us : List HostUpd} (h : applyAll db us = some db')
    {key : Bytes} (hkey : ∀ u ∈ us, keyOf u ≠ key) : db'[key]? = db[key]? := by
  rw [applyAll_get h]
  exact runKey_of_not_writes _ fun u hu hw => hkey u hu (keyOf_of_writes hw)

end Updates

section Cleanup

variable {V : Type}

theorem keys_inRange (kv : ExtTreeMap Bytes V) : kv.keys.filter (inRange [] true none) = kv.keys := by
  refine filter_eq_self.mpr fun k _ => ?_
  cases k <;> rfl

theorem upTo_subset {α : Type} {max : Int} {l : List α} {a : α} (h : a ∈ (upTo max l).1) : a ∈ l := by
  unfold upTo at h
  split at h
  · exact h
  · exact mem_of_mem_take h

theorem mapRange_keys {α : Type} {pfx : Bytes} (hpfx : pfx.getLast? ≠ some 255)
    (db : ExtTreeMap Bytes V) (first : Bytes) (finc : Bool) (last : Option (Bytes × Bool)) (max : Int)
    (reverse : Bool) (g : Bytes → α) {ks : List Bytes} {more : Bool}
    (hks : upTo max ((if reverse then Direction.left else .right).along
      ((within pfx db).keys.filter (inRange first finc last))) = (ks, more)) :
    mapRange pfx db first finc last max reverse (fun key _ => .ok (g key)) =
      .ok (((ks.length : Int), ks.map g), more) := by
  have hmem : ∀ k ∈ ks, k ∈ within pfx db := by
    intro k hk
    have hall := upTo_subset (a := k) (by rw [hks]; exact hk)
    rw [Direction.mem_along] at hall
    exact ExtTreeMap.mem_keys.mp (mem_filter.mp hall).1
  have hitem : ∀ k ∈ ks, itemAt (within pfx db) (fun key _ => .ok (g key)) k = .ok (g k) := by
    intro k hk
    obtain ⟨v, hv⟩ := Option.isSome_iff_exists.mp (ExtTreeMap.mem_iff_isSome_getElem?.mp (hmem k hk))
    rw [itemAt, hv]
    rfl
  rw [mapRange_eq hpfx, collected, Int.sub_zero, hks, mapM_of_forall hitem]
  simp [ok_bind, pure, Except.pure]

theorem range_all {pfx : Bytes} (hpfx : pfx.getLast? ≠ some 255) (db : ExtTreeMap Bytes V) :
    range pfx db [] true none 1000 false =
      .ok (((((within pfx db).keys.take 1000).length : Int), (within pfx db).keys.take 1000),
        decide (1000 < (within pfx db).keys.length)) := by
  have hks : upTo 1000 ((if false then Direction.left else .right).along
      ((within pfx db).keys.filter (inRange [] true none))) =
      ((within pfx db).keys.take 1000, decide (1000 < (within pfx db).keys.length)) := by
    rw [keys_inRange]
    rfl
  have h := mapRange_keys hpfx db [] true none 1000 false id hks
  rwa [map_id] at h

theorem keys_content (db : HostDb) (a : NamespaceId) :
    (content db a).keys = (within (Keys.namespaceContent a) db).keys := by
  have hmap : content db a = (within (Keys.namespaceContent a) db).map fun _ v => v.toNsm :=
    ExtTreeMap.ext_getElem? fun k => by simp [content, nsmView, ExtTreeMap.getElem?_map]
  rw [hmap, ExtTreeMap.keys_map]

theorem cleanupForNamespace_eq (db : HostDb) (a : NamespaceId) :
    cleanupForNamespace db a =
      .ok ((((content db a).keys.take 1000).length : Int),
        ((content db a).keys.take 1000).map fun k => .set (Keys.namespaceContent a ++ k) none) := by
  rw [cleanupForNamespace, range_all (Keys.getLast?_namespaceContent a), keys_content]
  rfl

end Cleanup

section Isolation

/-- What namespace `a` does on the host concerns only its own keys; `b` is another namespace. -/
structure Isolated (db : HostDb) (a b : NamespaceId) : Prop where
  /-- A query finds what it would find in a store with the keys of `a` alone. -/
  query : ∀ q, execQuery (Keys.namespaceContent a) (nsmView db) q = execQuery [] (content db a) q
  /-- Two hosts that list `a` and have the same keys of `a` answer `a` in the same way. -/
  result : ∀ db', content db' a = content db a →
    (Keys.namespaceInfo a ∈ db' ↔ Keys.namespaceInfo a ∈ db) →
    (∀ q, handleQuery db' a q = handleQuery db a q) ∧
      (∀ r, nsmUpdate db' a r = nsmUpdate db a r) ∧
      cleanupForNamespace db' a = cleanupForNamespace db a
  update : ∀ r us res, nsmUpdate db a r = .ok (us, res) → ∀ u ∈ us, Touches a u
  cleanup : ∀ cnt us, cleanupForNamespace db a = .ok (cnt, us) → ∀ u ∈ us, Touches a u
  message : ∀ msg, ∀ u ∈ handleMsg db (.namespaceMsg a msg), Touches a u
  /-- Updates of keys of `a` leave all other keys as they are. -/
  effect : ∀ us db', (∀ u ∈ us, Touches a u) → applyAll db us = some db' →
    content db' b = content db b ∧
      ∀ key, ¬Keys.namespaceContent a <+: key → db'[key]? = db[key]?
  /-- No key of `a` is a key of `b`, an entry of the list of namespaces or a key of the host. -/
  apart : ∀ k, (∀ k', Keys.namespaceContent a ++ k ≠ Keys.namespaceContent b ++ k') ∧
    (∀ c, Keys.namespaceContent a ++ k ≠ Keys.namespaceInfo c) ∧
    Keys.namespaceContent a ++ k ≠ Keys.nextMsg ∧ Keys.namespaceContent a ++ k ≠ Keys.nsmHostVersion

variable {db : HostDb} {a b : NamespaceId} {us : List HostUpd}

theorem handleQuery_eq (db : HostDb) (a : NamespaceId) (q : Query) :
    handleQuery db a q = if Keys.namespaceInfo a ∈ db then execQuery [] (content db a) q
      else .error (.nsm .namespaceIdNotFound (.osd a)) := by
  rw [handleQuery, execQuery_within (Keys.getLast?_namespaceContent a)]
  rfl

theorem nsmUpdate_touches {r : Request} {res : Result} (h : nsmUpdate db a r = .ok (us, res)) :
    ∀ u ∈ us, Touches a u := by
  unfold nsmUpdate at h
  split at h
  · obtain ⟨p, _, hp⟩ := bind_eq_ok.mp h
    cases hp
    exact transformUpdates_touches
  · cases h

theorem cleanupForNamespace_touches {cnt : Int} (h : cleanupForNamespace db a = .ok (cnt, us)) :
    ∀ u ∈ us, Touches a u := by
  rw [cleanupForNamespace_eq] at h
  cases h
  intro u hu
  obtain ⟨k, _, rfl⟩ := mem_map.mp hu
  exact ⟨k, rfl⟩

theorem handleMsg_touches (db : HostDb) (a : NamespaceId) (msg : NamespaceMessage) :
    ∀ u ∈ handleMsg db (.namespaceMsg a msg), Touches a u := by
  intro u hu
  simp only [handleMsg] at hu
  split at hu
  · exact transformUpdates_touches u hu
  · cases hu

theorem applyAll_outside {db' : HostDb} (hus : ∀ u ∈ us, Touches a u)
    (h : applyAll db us = some db') {key : Bytes} (hkey : ¬Keys.namespaceContent a <+: key) :
    db'[key]? = db[key]? := by
  refine applyAll_other h fun u hu he => hkey ?_
  obtain ⟨k, hk⟩ := hus u hu
  exact ⟨k, hk.symm.trans he⟩

/-- A host with one namespace next to another, whose id takes twelve bytes. -/
def sampleHost : HostDb :=
  let entries : List (Bytes × HostValue) :=
    [(Keys.namespaceInfo 1, .state (.active (ascii ['a']))),
      (Keys.namespaceInfo 2147483647, .state (.active (ascii ['b']))),
      (Keys.namespaceContent 1 ++ (Key.names (ascii ['x'])).encode,
        .nsm (.objectInfo (ascii ['o']))),
      (Keys.namespaceContent 2147483647 ++ (Key.names (ascii ['y'])).encode,
        .nsm (.objectInfo (ascii ['p'])))]
  .ofList entries

end Isolation

end Alba.NsmHost
