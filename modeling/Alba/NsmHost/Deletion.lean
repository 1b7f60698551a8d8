import Alba.NsmHost.Isolation
import Alba.ProofKit.Optimistic

/-! The end of a namespace on its host. A namespace that was deleted and whose keys were all removed
stays empty, when no update of the namespace is applied after it left the list of namespaces; the
assertions alone do not ensure that. -/

namespace Alba.NsmHost

open List hiding next
open ProofKit Nsm Std

abbrev MessageLog := Nat → Message

/-- The host, with the ids of the messages that were delivered. -/
structure Host where
  db : HostDb := ∅
  delivered : List Nat := []

inductive HostRequest
  | nsmUpdate (namespaceId : NamespaceId) (r : Request)
  | nsmsUpdate (reqs : List (NamespaceId × Request))
  | cleanupForNamespace (namespaceId : NamespaceId)
  | deliverMsg (id : Nat)
  | deliverMsgs (first count : Nat)

/-- What is applied for a request: a sequence of updates, which delivers some messages, or the user
function with the messages. -/
inductive HostUpdates
  | sequence (us : List HostUpd) (delivers : List Nat)
  | userFunction (msgs : List (Nat × Message))

section Exec

variable (log : MessageLog)

def deliverMsg (db : HostDb) (id : Nat) : Except Exn HostUpdates := do
  let (expectedIdS, expectedId) ← getNextMsgId db
  if id ≠ expectedId then return .sequence [] []
  else
    let bumpNextMsg : List HostUpd :=
      [.assert Keys.nextMsg expectedIdS, .set Keys.nextMsg (some (.msgId (expectedId + 1)))]
    return .sequence (bumpNextMsg ++ handleMsg db (log id)) [id]

def getUpdates (h : Host) : HostRequest → Except Exn HostUpdates
  | .nsmUpdate namespaceId r => (fun p => .sequence p.1 []) <$> NsmHost.nsmUpdate h.db namespaceId r
  | .nsmsUpdate reqs => (fun p => .sequence p.1 []) <$> NsmHost.nsmsUpdate h.db reqs
  | .cleanupForNamespace namespaceId =>
    (fun p => .sequence p.2 []) <$> NsmHost.cleanupForNamespace h.db namespaceId
  | .deliverMsg id => NsmHost.deliverMsg log h.db id
  | .deliverMsgs first count =>
    .ok (.userFunction ((List.range' first count).map fun id => (id, log id)))

def compute (h : Host) (r : HostRequest) : Option HostUpdates := (getUpdates log h r).toOption

def apply (h : Host) : HostUpdates → Option Host
  | .sequence us delivers =>
    (applyAll h.db us).map fun db => { db, delivered := delivers ++ h.delivered }
  | .userFunction msgs =>
    match getNextMsgId h.db, deliverMsgs h.db msgs with
    | .ok (_, firstMsgId), .ok db => some
        { db, delivered := ((msgs.map Prod.fst).filter (firstMsgId ≤ ·)).reverse ++ h.delivered }
    | _, _ => none

end Exec

/-- After its deletion no message brings a namespace back. -/
def NeverReused (log : MessageLog) : Prop :=
  ∀ i j a name, i < j → log i = .deleteNamespace a →
    log j ≠ .createNamespace name a ∧ log j ≠ .recoverNamespace name a

def Host.Deleted (log : MessageLog) (h : Host) (a : NamespaceId) : Prop :=
  ∃ id ∈ h.delivered, log id = .deleteNamespace a

/-- A round of the cleanup finds no key left. -/
def Host.FoundEmpty (h : Host) (a : NamespaceId) : Prop :=
  ∃ us, cleanupForNamespace h.db a = .ok (0, us)

def HostRequest.namespaces : HostRequest → List NamespaceId
  | nsmUpdate a _ => [a]
  | nsmsUpdate reqs => reqs.map Prod.fst
  | _ => []

def HostUpdates.touches (a : NamespaceId) : HostUpdates → Bool
  | sequence us _ => us.any fun u => (Keys.namespaceContent a).isPrefixOf (keyOf u)
  | userFunction _ => false

/-- The namespaces whose keys are updated are still in the list of namespaces. -/
def WhileListed (h : Host) (r : HostRequest) (u : HostUpdates) : Prop :=
  ∀ a ∈ r.namespaces, u.touches a = true → Keys.namespaceInfo a ∈ h.db

instance (h : Host) (r : HostRequest) (u : HostUpdates) : Decidable (WhileListed h r u) :=
  inferInstanceAs (Decidable (∀ a ∈ r.namespaces, u.touches a = true → Keys.namespaceInfo a ∈ h.db))

variable {log : MessageLog}

section Deliver

variable {db : HostDb} {m : Nat}

def nextOf (db : HostDb) : Nat :=
  match db[Keys.nextMsg]? with
  | some (.msgId id) => id
  | _ => 0

theorem getNextMsgId_eq_ok {s : Option HostValue} {n : Nat} (h : getNextMsgId db = .ok (s, n)) :
    db[Keys.nextMsg]? = s ∧ nextOf db = n := by
  unfold getNextMsgId at h
  unfold nextOf
  split at h <;> cases h <;> simp_all

theorem info_ne_nextMsg (a : NamespaceId) : Keys.namespaceInfo a ≠ Keys.nextMsg := by
  intro h
  have htake : (Keys.namespaceInfo a).take 5 = Keys.nextMsg.take 5 := by rw [h]
  rw [Keys.namespaceInfo, take_append_of_le_length (by decide)] at htake
  exact absurd htake (by decide)

/-- What the delivery of message `m` does to the next id, the list of namespaces and the keys of the
namespaces that are not listed. -/
structure Delivers (log : MessageLog) (db db' : HostDb) (m : Nat) : Prop where
  next : nextOf db' = m + 1
  listed : ∀ b, Keys.namespaceInfo b ∈ db' →
    (Keys.namespaceInfo b ∈ db ∧ log m ≠ .deleteNamespace b) ∨
      ∃ name, log m = .createNamespace name b ∨ log m = .recoverNamespace name b
  kept : ∀ a k, Keys.namespaceInfo a ∉ db →
    db'[Keys.namespaceContent a ++ k]? = db[Keys.namespaceContent a ++ k]?

theorem not_writes_of_touches {a : NamespaceId} {us : List HostUpd} (h : ∀ u ∈ us, Touches a u)
    {key : Bytes} (hkey : ∀ k, Keys.namespaceContent a ++ k ≠ key) : ∀ u ∈ us, ¬u.Writes key := by
  intro u hu hw
  obtain ⟨k, hk⟩ := h u hu
  exact hkey k (hk.symm.trans (keyOf_of_writes hw))

def Message.namespaceId : Message → NamespaceId
  | createNamespace _ a => a
  | deleteNamespace a => a
  | recoverNamespace _ a => a
  | namespaceMsg a _ => a

theorem handleMsg_keys {m : Message} {u : HostUpd} (hu : u ∈ handleMsg db m) :
    keyOf u = Keys.namespaceInfo m.namespaceId ∨
      (Keys.namespaceInfo m.namespaceId ∈ db ∧ Touches m.namespaceId u) := by
  cases m with
  | createNamespace | deleteNamespace | recoverNamespace =>
    left
    simp only [handleMsg, mem_cons, not_mem_nil, or_false] at hu
    rcases hu with rfl | rfl <;> rfl
  | namespaceMsg a msg =>
    right
    refine ⟨?_, handleMsg_touches db a msg u hu⟩
    by_contra hnot
    simp [handleMsg, show Keys.namespaceInfo a ∉ db from hnot] at hu

theorem delivers_of_runKey {db db' : HostDb}
    (h : ∀ key, db'[key]? = if key = Keys.nextMsg then some (.msgId (m + 1))
      else runKey key (handleMsg db (log m)) db[key]?) : Delivers log db db' m := by
  refine ⟨?_, fun b hb => ?_, fun a k ha => ?_⟩
  · rw [nextOf, h, if_pos rfl]
  · rw [ExtTreeMap.mem_iff_isSome_getElem?, h, if_neg (info_ne_nextMsg b)] at hb
    rw [ExtTreeMap.mem_iff_isSome_getElem?]
    cases hm : log m with
    | createNamespace name a | recoverNamespace name a =>
      by_cases hab : Keys.namespaceInfo a = Keys.namespaceInfo b
      · obtain rfl := Keys.namespaceInfo_inj hab
        exact Or.inr ⟨name, by simp⟩
      · simp only [hm, handleMsg, runKey_cons, runKey_nil, Update.act, if_neg hab] at hb
        exact Or.inl ⟨hb, by simp⟩
    | deleteNamespace a =>
      by_cases hab : Keys.namespaceInfo a = Keys.namespaceInfo b
      · simp [hm, handleMsg, runKey_cons, Update.act, hab] at hb
      · simp only [hm, handleMsg, runKey_cons, runKey_nil, Update.act, if_neg hab] at hb
        refine Or.inl ⟨hb, fun he => hab ?_⟩
        rw [Message.deleteNamespace.inj he]
    | namespaceMsg a msg =>
      rw [hm, runKey_of_not_writes _ (not_writes_of_touches (handleMsg_touches db a msg)
        fun k => Keys.content_ne_info a b k)] at hb
      exact Or.inl ⟨hb, by simp⟩
  · rw [h, if_neg (Keys.content_ne_nextMsg a k)]
    refine runKey_of_not_writes _ fun u hu hw => ?_
    rcases handleMsg_keys hu with hinfo | ⟨hlisted, k', hk'⟩
    · exact Keys.content_ne_info a _ k ((keyOf_of_writes hw).symm.trans hinfo)
    · have hsame := Keys.namespaceContent_append_inj (hk'.symm.trans (keyOf_of_writes hw))
      exact ha (hsame.1 ▸ hlisted)

theorem handleMsg_plain (db : HostDb) (m : Message) :
    ∀ u ∈ handleMsg db m, (∃ k v, u = .assert k v) ∨ ∃ k v, u = .set k v := by
  intro u hu
  cases m with
  | createNamespace | deleteNamespace | recoverNamespace =>
    simp only [handleMsg, mem_cons, not_mem_nil, or_false] at hu
    rcases hu with rfl | rfl <;> simp
  | namespaceMsg a msg =>
    simp only [handleMsg] at hu
    split at hu
    · obtain ⟨w, hw, rfl⟩ := mem_map.mp hu
      right
      cases msg with
      | linkOsd d info =>
        simp only [NamespaceMessage.updates, linkOsd, mem_cons, not_mem_nil,
          or_false] at hw
        rcases hw with rfl | rfl <;> exact ⟨_, _, rfl⟩
      | unlinkOsd d =>
        obtain rfl := mem_singleton.mp hw
        exact ⟨_, _, rfl⟩
    · cases hu

theorem handleMsg_not_nextMsg (db : HostDb) (m : Message) :
    ∀ u ∈ handleMsg db m, ¬u.Writes Keys.nextMsg := by
  intro u hu hw
  rcases handleMsg_keys hu with hinfo | ⟨-, k, hk⟩
  · exact info_ne_nextMsg _ (hinfo.symm.trans (keyOf_of_writes hw))
  · exact Keys.content_ne_nextMsg _ k (hk.symm.trans (keyOf_of_writes hw))

theorem foldl_applyUpdate_get {us : List HostUpd}
    (plain : ∀ u ∈ us, (∃ k v, u = .assert k v) ∨ ∃ k v, u = .set k v) (db : HostDb) (key : Bytes) :
    (us.foldl applyUpdate db)[key]? = runKey key us db[key]? := by
  induction us generalizing db with
  | nil => rfl
  | cons u us ih =>
    rw [foldl_cons, ih fun w hw => plain w (mem_cons_of_mem u hw), runKey_cons]
    congr 1
    rcases plain u mem_cons_self with ⟨k, v, rfl⟩ | ⟨k, v, rfl⟩
    · rfl
    · exact getElem?_put db k key v

theorem deliverOne_delivers {first m : Nat} (h : first ≤ m) :
    Delivers log db (deliverOne first db (m, log m)) m := by
  refine delivers_of_runKey fun key => ?_
  rw [deliverOne, if_pos h, getElem?_put, foldl_applyUpdate_get (handleMsg_plain db (log m))]
  simp only [eq_comm]

theorem deliverMsg_eq_ok {u : HostUpdates} (h : deliverMsg log db m = .ok u) :
    u = .sequence [] [] ∨ (nextOf db = m ∧
      u = .sequence ([.assert Keys.nextMsg db[Keys.nextMsg]?,
        .set Keys.nextMsg (some (.msgId (m + 1)))] ++ handleMsg db (log m)) [m]) := by
  obtain ⟨⟨s, n⟩, hn, hseq⟩ := bind_eq_ok.mp h
  obtain ⟨rfl, hnext⟩ := getNextMsgId_eq_ok hn
  by_cases hm : m = n
  · subst hm
    simp only [ne_eq, not_true_eq_false, if_false] at hseq
    cases hseq
    exact Or.inr ⟨hnext, rfl⟩
  · simp only [ne_eq, hm, not_false_eq_true, if_true] at hseq
    cases hseq
    exact Or.inl rfl

theorem deliverMsg_delivers {db₀ db db' : HostDb} {s : Option HostValue}
    (hlisted : ∀ a, db[Keys.namespaceInfo a]? = db₀[Keys.namespaceInfo a]?)
    (h : applyAll db ([.assert Keys.nextMsg s, .set Keys.nextMsg (some (.msgId (m + 1)))] ++
      handleMsg db₀ (log m)) = some db') : Delivers log db db' m := by
  have hsame : handleMsg db₀ (log m) = handleMsg db (log m) := by
    cases log m with
    | createNamespace | deleteNamespace | recoverNamespace => rfl
    | namespaceMsg a msg =>
      simp only [handleMsg, ExtTreeMap.mem_iff_isSome_getElem?, hlisted]
  rw [hsame] at h
  refine delivers_of_runKey fun key => ?_
  rw [applyAll_get h, runKey_append]
  split
  · rename_i hkey
    subst hkey
    rw [runKey_of_not_writes _ (handleMsg_not_nextMsg db (log m))]
    simp [runKey_cons, Update.act]
  · rename_i hkey
    simp [runKey_cons, Update.act, Ne.symm hkey]

end Deliver

section Steps

variable {h : Host} {db' : HostDb} {us : List HostUpd}

/-- Messages below the next id are delivered, and the namespaces that were deleted are not listed. -/
structure Host.Holds (log : MessageLog) (h : Host) : Prop where
  below : ∀ id ∈ h.delivered, id < nextOf h.db
  absent : ∀ a, h.Deleted log a → Keys.namespaceInfo a ∉ h.db

/-- The namespace was deleted, and none of its keys is left. -/
structure Host.Gone (log : MessageLog) (h : Host) (a : NamespaceId) : Prop where
  deleted : h.Deleted log a
  empty : ∀ k, h.db[Keys.namespaceContent a ++ k]? = none

/-- How a host goes on: as long as no message is delivered the list of namespaces stays as it is, and
what is gone stays gone. -/
structure Host.Later (log : MessageLog) (h h' : Host) : Prop where
  next : nextOf h.db ≤ nextOf h'.db
  listed : nextOf h.db = nextOf h'.db →
    ∀ a, h'.db[Keys.namespaceInfo a]? = h.db[Keys.namespaceInfo a]?
  gone : ∀ a, h.Gone log a → h'.Gone log a

theorem Host.Later.refl (h : Host) : h.Later log h := ⟨le_rfl, fun _ _ => rfl, fun _ => id⟩

theorem Host.Later.trans {h h' h'' : Host} (h₁ : h.Later log h') (h₂ : h'.Later log h'') :
    h.Later log h'' := by
  refine ⟨h₁.next.trans h₂.next, fun he a => ?_, fun a ha => h₂.gone a (h₁.gone a ha)⟩
  have hnext := h₁.next
  have hnext' := h₂.next
  rw [h₂.listed (by omega), h₁.listed (by omega)]

theorem Host.deliver {m : Nat} (reused : NeverReused log) (hh : h.Holds log) (hm : nextOf h.db ≤ m)
    (hd : Delivers log h.db db' m) :
    Host.Holds log { db := db', delivered := m :: h.delivered } ∧
      h.Later log { db := db', delivered := m :: h.delivered } := by
  have hholds : Host.Holds log { db := db', delivered := m :: h.delivered } := by
    constructor
    · intro id hid
      show id < nextOf db'
      rw [hd.next]
      rcases mem_cons.mp hid with rfl | hid
      · omega
      · have := hh.below id hid
        omega
    · rintro a ⟨id, hid, hlog⟩ hinfo
      rcases hd.listed a hinfo with ⟨hbefore, hnot⟩ | ⟨name, hcreate⟩
      · rcases mem_cons.mp hid with rfl | hid
        · exact hnot hlog
        · exact hh.absent a ⟨id, hid, hlog⟩ hbefore
      · rcases mem_cons.mp hid with rfl | hid
        · rw [hlog] at hcreate
          rcases hcreate with he | he <;> cases he
        · have hlt : id < m := by
            have := hh.below id hid
            omega
          have hnever := reused id m a name hlt hlog
          rcases hcreate with he | he
          · exact hnever.1 he
          · exact hnever.2 he
  refine ⟨hholds, ?_, fun he => ?_, fun a ha => ?_⟩
  · show nextOf h.db ≤ nextOf db'
    rw [hd.next]
    omega
  · have he' : nextOf h.db = nextOf db' := he
    rw [hd.next] at he'
    omega
  · obtain ⟨id, hid, hlog⟩ := ha.deleted
    refine ⟨⟨id, mem_cons_of_mem m hid, hlog⟩, fun k => ?_⟩
    show db'[Keys.namespaceContent a ++ k]? = none
    rw [hd.kept a k (hh.absent a ha.deleted), ha.empty k]

theorem Host.change (hh : h.Holds log) (hnext : db'[Keys.nextMsg]? = h.db[Keys.nextMsg]?)
    (hlisted : ∀ a, db'[Keys.namespaceInfo a]? = h.db[Keys.namespaceInfo a]?)
    (hempty : ∀ a, h.Gone log a → ∀ k, db'[Keys.namespaceContent a ++ k]? = none) :
    Host.Holds log { h with db := db' } ∧ h.Later log { h with db := db' } := by
  have hnext' : nextOf db' = nextOf h.db := by rw [nextOf, nextOf, hnext]
  refine ⟨⟨fun id hid => ?_, fun a ha => ?_⟩, ⟨?_, fun _ => hlisted, fun a ha => ⟨ha.deleted, hempty a ha⟩⟩⟩
  · show id < nextOf db'
    rw [hnext']
    exact hh.below id hid
  · have habsent := hh.absent a ha
    rw [ExtTreeMap.mem_iff_isSome_getElem?] at habsent ⊢
    show ¬(db'[Keys.namespaceInfo a]?).isSome
    rwa [hlisted]
  · exact hnext'.ge

theorem applyAll_keeps_list {db db' : HostDb} (h : applyAll db us = some db')
    (hus : ∀ u ∈ us, ∃ a, Touches a u) :
    db'[Keys.nextMsg]? = db[Keys.nextMsg]? ∧
      ∀ a, db'[Keys.namespaceInfo a]? = db[Keys.namespaceInfo a]? := by
  refine ⟨applyAll_other h fun u hu he => ?_, fun a => applyAll_other h fun u hu he => ?_⟩
  · obtain ⟨b, k, hk⟩ := hus u hu
    exact Keys.content_ne_nextMsg b k (hk.symm.trans he)
  · obtain ⟨b, k, hk⟩ := hus u hu
    exact Keys.content_ne_info b a k (hk.symm.trans he)

theorem Host.update {r : HostRequest} (hh : h.Holds log)
    (hus : ∀ u ∈ us, ∃ a ∈ r.namespaces, Touches a u) (hlisted : WhileListed h r (.sequence us []))
    (happly : applyAll h.db us = some db') :
    Host.Holds log { h with db := db' } ∧ h.Later log { h with db := db' } := by
  obtain ⟨hnext, hlist⟩ := applyAll_keeps_list happly fun u hu =>
    (hus u hu).imp fun a ha => ha.2
  refine Host.change hh hnext hlist fun a ha k => ?_
  rw [applyAll_other happly, ha.empty k]
  intro u hu he
  -- such an update would need the namespace in the list
  obtain ⟨b, hb, k', hk'⟩ := hus u hu
  obtain ⟨rfl, -⟩ := Keys.namespaceContent_append_inj (hk'.symm.trans he)
  refine hh.absent b ha.deleted (hlisted b hb (any_eq_true.mpr ⟨u, hu, ?_⟩))
  rw [he, List.isPrefixOf_iff_prefix]
  exact List.prefix_append _ _

theorem Host.cleanup (hh : h.Holds log)
    (hus : ∀ u ∈ us, ∃ a k, u = .set (Keys.namespaceContent a ++ k) none)
    (happly : applyAll h.db us = some db') :
    Host.Holds log { h with db := db' } ∧ h.Later log { h with db := db' } := by
  obtain ⟨hnext, hlist⟩ := applyAll_keeps_list happly fun u hu => by
    obtain ⟨a, k, rfl⟩ := hus u hu
    exact ⟨a, k, rfl⟩
  refine Host.change hh hnext hlist fun a ha k => ?_
  have hsets : ∀ u ∈ us, u.Writes (Keys.namespaceContent a ++ k) →
      u = .set (Keys.namespaceContent a ++ k) none := by
    intro u hu hw
    obtain ⟨b, k', rfl⟩ := hus u hu
    rw [show Keys.namespaceContent b ++ k' = Keys.namespaceContent a ++ k from hw]
  rw [applyAll_get happly, runKey_sets hsets, ha.empty k]
  exact ite_self _

theorem nsmsUpdate_touches {db : HostDb} {reqs : List (NamespaceId × Request)}
    {res : List (Except Err Result)} (h : nsmsUpdate db reqs = .ok (us, res)) :
    ∀ u ∈ us, ∃ a ∈ reqs.map Prod.fst, Touches a u := by
  obtain ⟨rows, hrows, he⟩ := bind_eq_ok.mp h
  cases he
  intro u hu
  obtain ⟨l, hl, hul⟩ := mem_flatten.mp hu
  obtain ⟨row, hrow, rfl⟩ := mem_map.mp hl
  obtain ⟨req, hreq, hreq'⟩ := (mapM_mem hrows).1 row hrow
  refine ⟨req.1, mem_map_of_mem hreq, ?_⟩
  split at hreq'
  · rename_i hupdate
    cases hreq'
    exact nsmUpdate_touches hupdate u hul
  · cases hreq'
    cases hul
  · cases hreq'

theorem Host.deliverAll {first : Nat} (reused : NeverReused log) (ids : List Nat) (hh : h.Holds log)
    (hids : ids.Pairwise (· < ·)) (hfirst : ∀ id ∈ ids, first ≤ id → nextOf h.db ≤ id) :
    Host.Holds log
        { db := (ids.map fun id => (id, log id)).foldl (deliverOne first) h.db
          delivered := (ids.filter (first ≤ ·)).reverse ++ h.delivered } ∧
      h.Later log
        { db := (ids.map fun id => (id, log id)).foldl (deliverOne first) h.db
          delivered := (ids.filter (first ≤ ·)).reverse ++ h.delivered } := by
  induction ids generalizing h with
  | nil => exact ⟨hh, .refl h⟩
  | cons m ids ih =>
    obtain ⟨hm, hids⟩ := pairwise_cons.mp hids
    by_cases hskip : first ≤ m
    · have hd : Delivers log h.db (deliverOne first h.db (m, log m)) m := deliverOne_delivers hskip
      obtain ⟨hmid, hlater⟩ := Host.deliver reused hh (hfirst m mem_cons_self hskip) hd
      have hrest := ih hmid hids fun id hid _ => by
        show nextOf (deliverOne first h.db (m, log m)) ≤ id
        rw [hd.next]
        exact hm id hid
      simp only [map_cons, foldl_cons, filter_cons, hskip, decide_true, if_true,
        reverse_cons, append_assoc, singleton_append]
      exact ⟨hrest.1, hlater.trans hrest.2⟩
    · have hsame : deliverOne first h.db (m, log m) = h.db := if_neg hskip
      have hrest := ih hh hids fun id hid => hfirst id (mem_cons_of_mem m hid)
      simpa only [map_cons, foldl_cons, hsame, filter_cons, hskip, decide_false,
        Bool.false_eq_true, if_false] using hrest

theorem Host.step (reused : NeverReused log) {h₀ h h' : Host} {r : HostRequest} {u : HostUpdates}
    (hu : compute log h₀ r = some u) (hlater : h₀.Later log h) (hh : h.Holds log)
    (hlisted : WhileListed h r u) (happly : apply h u = some h') : h'.Holds log ∧ h.Later log h' := by
  have hu' : getUpdates log h₀ r = .ok u := by
    unfold compute at hu
    cases hget : getUpdates log h₀ r with
    | error e => rw [hget] at hu; cases hu
    | ok v => rw [hget] at hu; cases hu; rfl
  cases r with
  | nsmUpdate a req =>
    obtain ⟨⟨us, res⟩, hus, rfl⟩ := map_eq_ok.mp hu'
    obtain ⟨db', hdb', rfl⟩ := Option.map_eq_some_iff.mp happly
    refine Host.update hh (fun w hw => ?_) hlisted hdb'
    exact ⟨a, mem_singleton_self a, nsmUpdate_touches hus w hw⟩
  | nsmsUpdate reqs =>
    obtain ⟨⟨us, res⟩, hus, rfl⟩ := map_eq_ok.mp hu'
    obtain ⟨db', hdb', rfl⟩ := Option.map_eq_some_iff.mp happly
    exact Host.update hh (nsmsUpdate_touches hus) hlisted hdb'
  | cleanupForNamespace a =>
    obtain ⟨⟨cnt, us⟩, hus, rfl⟩ := map_eq_ok.mp hu'
    obtain ⟨db', hdb', rfl⟩ := Option.map_eq_some_iff.mp happly
    rw [cleanupForNamespace_eq] at hus
    cases hus
    refine Host.cleanup hh (fun w hw => ?_) hdb'
    obtain ⟨k, _, rfl⟩ := mem_map.mp hw
    exact ⟨a, k, rfl⟩
  | deliverMsg id =>
    rcases deliverMsg_eq_ok hu' with rfl | ⟨hnext, rfl⟩
    · cases happly
      exact ⟨hh, .refl h⟩
    · obtain ⟨db', hdb', rfl⟩ := Option.map_eq_some_iff.mp happly
      -- the next id is still the one that was read, so no message was delivered since
      have hs : h.db[Keys.nextMsg]? = h₀.db[Keys.nextMsg]? := by
        rw [cons_append, applyAll_cons] at hdb'
        obtain ⟨_, hassert, _⟩ := Option.bind_eq_some_iff.mp hdb'
        exact (Option.ite_none_right_eq_some.mp hassert).1
      have hnext' : nextOf h.db = nextOf h₀.db := by rw [nextOf, nextOf, hs]
      have hd := deliverMsg_delivers (hlater.listed hnext'.symm) hdb'
      exact Host.deliver reused hh (hnext'.trans hnext).le hd
  | deliverMsgs first count =>
    cases hu'
    simp only [apply] at happly
    split at happly
    · rename_i s n db' hn hdb'
      obtain ⟨⟨_, n'⟩, hn', hfold⟩ := bind_eq_ok.mp hdb'
      obtain rfl : n = n' := congrArg (fun p => p.2) (Except.ok.inj (hn.symm.trans hn'))
      cases hfold
      cases happly
      have hids := Host.deliverAll reused (List.range' first count) hh (pairwise_lt_range')
        fun id _ hid => (getNextMsgId_eq_ok hn).2.trans_le hid
      simpa only [map_map, Function.comp_def, map_id'] using hids
    · cases happly

end Steps

section Run

theorem empty_of_foundEmpty {h : Host} {a : NamespaceId} (hfound : h.FoundEmpty a) (k : Bytes) :
    h.db[Keys.namespaceContent a ++ k]? = none := by
  obtain ⟨us, hus⟩ := hfound
  rw [cleanupForNamespace_eq] at hus
  have hlength : (((content h.db a).keys.take 1000).length : Int) = 0 :=
    congrArg Prod.fst (Except.ok.inj hus)
  have hkeys : (content h.db a).keys = [] := by
    rw [length_take] at hlength
    exact length_eq_zero_iff.mp (by omega)
  rw [keys_content] at hkeys
  have hnot : k ∉ within (Keys.namespaceContent a) h.db := by
    rw [← ExtTreeMap.mem_keys, hkeys]
    exact not_mem_nil
  rwa [mem_within, ExtTreeMap.mem_iff_isSome_getElem?, Option.not_isSome_iff_eq_none] at hnot

/-- A namespace that was deleted and found empty stays empty, in every run in which the keys of a
namespace are only updated while it is in the list of namespaces. -/
theorem deleted_stays_deleted (reused : NeverReused log) (db : HostDb)
    (before after : List (PoolEvent HostRequest)) (a : NamespaceId)
    (hlisted : AllSteps (Pool.exec (compute log) apply) (Pool.Meets apply WhileListed)
      { store := { db } } (before ++ after))
    (hdeleted : (run (Pool.exec (compute log) apply) { store := { db } } before).store.Deleted log a)
    (hfound : (run (Pool.exec (compute log) apply) { store := { db } } before).store.FoundEmpty a)
    (k : Bytes) :
    (run (Pool.exec (compute log) apply) { store := { db } } (before ++ after)).store.db[
      Keys.namespaceContent a ++ k]? = none := by
  obtain ⟨hbefore, hafter⟩ := allSteps_append.mp hlisted
  have hstart : Host.Holds log { db } := ⟨nofun, fun _ ⟨_, hid, _⟩ => nomatch hid⟩
  have hrun : ∀ (p : Pool Host HostRequest HostUpdates) (events : List (PoolEvent HostRequest)),
      Pool.Valid (compute log) (fun h _ => h.Holds log) (fun x y => x.1.Later log y.1) p →
      AllSteps (Pool.exec (compute log) apply) (Pool.Meets apply WhileListed) p events →
      Pool.Valid (compute log) (fun h _ => h.Holds log) (fun x y => x.1.Later log y.1)
          (run (Pool.exec (compute log) apply) p events) ∧
        p.store.Later log (run (Pool.exec (compute log) apply) p events).store := by
    intro p events hp hC
    refine Pool.run_valid_of ?_ ?_ ?_ hp hC
    · exact fun x => .refl x.1
    · exact fun _ _ _ => .trans
    · intro h₀ _ r u h _ h' _ hu hlater hh hmeets happly
      exact Host.step reused hu hlater hh hmeets happly
  have hmid := (hrun _ before (.start hstart) hbefore).1
  have hend := (hrun _ after hmid hafter).2
  have hgone : (run (Pool.exec (compute log) apply) { store := { db } } before).store.Gone log a :=
    ⟨hdeleted, empty_of_foundEmpty hfound⟩
  rw [run_append]
  exact (hend.gone a hgone).empty k

def sampleLog : MessageLog
  | 0 => .createNamespace (ascii ['n']) 1
  | _ => .deleteNamespace 1

theorem sampleLog_neverReused : NeverReused sampleLog := by
  intro i j a name hij hi
  obtain ⟨n, rfl⟩ : ∃ n, j = n + 1 := ⟨j - 1, by omega⟩
  exact ⟨nofun, nofun⟩

def closeEpoch : HostRequest := .nsmUpdate 1 { op := .disableGcEpoch 0 }

/-- The namespace is created, a gc epoch is closed, and the namespace is deleted; a round of the
cleanup removes what it stored. -/
def orderly : List (PoolEvent HostRequest) :=
  [.compute (.deliverMsg 0), .apply 0, .compute closeEpoch, .apply 0, .compute (.deliverMsg 1),
    .apply 0, .compute (.cleanupForNamespace 1), .apply 0]

/-- The gc epoch is closed by an update that was computed before the deletion. -/
def overtaken : List (PoolEvent HostRequest) :=
  [.compute (.deliverMsg 0), .apply 0, .compute closeEpoch, .compute (.deliverMsg 1), .apply 1]

theorem deleted_stays_deleted_orderly : (run (Pool.exec (compute sampleLog) apply) { store := {} }
      (orderly ++ [.compute closeEpoch])).store.db[
        Keys.namespaceContent 1 ++ Key.gcEpochs.encode]? = none :=
  deleted_stays_deleted sampleLog_neverReused ∅ orderly [.compute closeEpoch] 1
    (by decide +kernel) ⟨1, by decide +kernel, rfl⟩ ⟨[], by decide +kernel⟩ Key.gcEpochs.encode

/-- The assertion of an update holds as long as the key is absent that it is about, also after the
namespace was deleted and cleaned up. -/
theorem deleted_namespace_comes_back :
    NeverReused sampleLog ∧
      (run (Pool.exec (compute sampleLog) apply) { store := {} } overtaken).store.Deleted
        sampleLog 1 ∧
      (run (Pool.exec (compute sampleLog) apply) { store := {} } overtaken).store.FoundEmpty 1 ∧
      (run (Pool.exec (compute sampleLog) apply) { store := {} }
        (overtaken ++ [.compute (.cleanupForNamespace 1), .apply 1, .apply 0])).store.db[
          Keys.namespaceContent 1 ++ Key.gcEpochs.encode]? ≠ none :=
  ⟨sampleLog_neverReused, ⟨1, by decide +kernel, rfl⟩, ⟨[], by decide +kernel⟩, by decide +kernel⟩

end Run

end Alba.NsmHost
