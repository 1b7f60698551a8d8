import Alba.Recovery.Rebuild

/-! `gather_and_push_objects`: one fiber puts the infos of each object on a buffer, another one takes
them off, rebuilds the manifest and sends it to the nsm host. The second fiber takes one item and ends. -/

namespace Alba.Recovery

open List hiding next
open ProofKit Nsm Std

def fragmentKey (i : FragmentInfo) : Bytes :=
  ascii ['f'] ++ stringTo i.objectId ++ intTo i.chunkId ++ intTo i.fragmentId ++ intTo i.versionId.toInt

/-- The recovery database: the records of the fragments in the order of their keys, and the number of
records that an iterator finds after them. -/
structure RecoveryDb where
  fragments : List FragmentInfo
  others : Nat
  ordered : fragments.Pairwise fun i j => compare (fragmentKey i) (fragmentKey j) = .lt

/-- What an iterator can be at: the record of a fragment or another one. -/
inductive Entry where
  | fragment (info : FragmentInfo)
  | other

def RecoveryDb.entries (db : RecoveryDb) : List Entry :=
  db.fragments.map .fragment ++ List.replicate db.others .other

inductive Producer where
  | gathering (acc : List FragmentInfo)
  | waitUntilEmpty
  | returned

inductive Consumer where
  | taking
  | ended

structure Gathering where
  it : List Entry
  producer : Producer
  buf : List (List FragmentInfo)
  consumer : Consumer
  /-- The manifests that were sent to `put_object`. -/
  sent : List Manifest

inductive Fiber where
  | producer
  | consumer

def Gathering.initial (db : RecoveryDb) : Gathering where
  it := db.entries
  producer := .gathering []
  buf := []
  consumer := .taking
  sent := []

def produce (s : Gathering) : Option Gathering :=
  match s.producer, s.it with
  | .gathering [], .fragment cur :: it => some { s with it, producer := .gathering [cur] }
  | .gathering (first :: acc), .fragment cur :: it =>
    if first.objectId = cur.objectId then
      some { s with it, producer := .gathering (cur :: first :: acc) }
    else
      some { s with it, producer := .gathering [cur], buf := s.buf ++ [first :: acc] }
  | .gathering acc, .other :: _ => some { s with producer := .waitUntilEmpty, buf := s.buf ++ [acc] }
  | .gathering acc, [] => some { s with producer := .waitUntilEmpty, buf := s.buf ++ [acc] }
  | .waitUntilEmpty, _ => if s.buf = [] then some { s with producer := .returned } else none
  | .returned, _ => none

/-- The item that was taken is dealt with before the producer's last sleep is over. An exception is
only logged. -/
def consume (order : HashOrder) (encryptInfo : EncryptInfo) (s : Gathering) : Option Gathering :=
  match s.consumer, s.buf with
  | .taking, acc :: buf =>
    let sent := match rebuild order encryptInfo acc with
      | .ok manifest => s.sent ++ [manifest]
      | .error _ => s.sent
    some { s with buf, consumer := .ended, sent }
  | .taking, [] => none
  | .ended, _ => none

def gather (order : HashOrder) (encryptInfo : EncryptInfo) (s : Gathering) : Fiber → Option Gathering
  | .producer => produce s
  | .consumer => consume order encryptInfo s

def RecoveryDb.infosOf (db : RecoveryDb) (objectId : Bytes) : List FragmentInfo :=
  db.fragments.filter fun i => i.objectId = objectId

/-- Every action of the list is one that its fiber can take. -/
def Effective (order : HashOrder) (encryptInfo : EncryptInfo) : Gathering → List Fiber → Prop
  | _, [] => True
  | s, f :: fibers => ∃ s', gather order encryptInfo s f = some s' ∧ Effective order encryptInfo s' fibers

/-- The recovery ends in every interleaving of the two fibers, and when it has returned, a manifest of
every recoverable object was sent. -/
structure RecoversAll (order : HashOrder) (encryptInfo : EncryptInfo) (db : RecoveryDb) : Prop where
  ends : ∃ bound, ∀ fibers, Effective order encryptInfo (.initial db) fibers → fibers.length ≤ bound
  returns : ∀ fibers,
    (∀ f, gather order encryptInfo (run (gather order encryptInfo) (.initial db) fibers) f = none) →
      (run (gather order encryptInfo) (.initial db) fibers).producer = .returned
  sent : ∀ fibers, (run (gather order encryptInfo) (.initial db) fibers).producer = .returned →
    ∀ objectId n info, Recoverable (db.infosOf objectId) n info →
      ∃ manifest ∈ (run (gather order encryptInfo) (.initial db) fibers).sent,
        manifest.objectId = objectId

variable {order : HashOrder} {encryptInfo : EncryptInfo} {db : RecoveryDb} {s s' : Gathering}

section Steps

/-- What a step of the producer is: one more fragment of the object, the first fragment of the next
object, the end of the fragments, or the return. -/
theorem produce_cases (h : produce s = some s') :
    (∃ acc cur it, s.producer = .gathering acc ∧ s.it = .fragment cur :: it ∧
      (∀ first ∈ acc.head?, first.objectId = cur.objectId) ∧
      s' = { s with it, producer := .gathering (cur :: acc) }) ∨
    (∃ first acc cur it, s.producer = .gathering (first :: acc) ∧ s.it = .fragment cur :: it ∧
      first.objectId ≠ cur.objectId ∧
      s' = { s with it, producer := .gathering [cur], buf := s.buf ++ [first :: acc] }) ∨
    (∃ acc, s.producer = .gathering acc ∧ (∀ cur it, s.it ≠ .fragment cur :: it) ∧
      s' = { s with producer := .waitUntilEmpty, buf := s.buf ++ [acc] }) ∨
    (s.producer = .waitUntilEmpty ∧ s.buf = [] ∧ s' = { s with producer := .returned }) := by
  unfold produce at h
  split at h
  case h_1 cur it hproducer hit =>
    cases h
    exact .inl ⟨[], cur, it, hproducer, hit, by simp, rfl⟩
  case h_2 first acc cur it hproducer hit =>
    split at h
    · rename_i hsame
      cases h
      exact .inl ⟨first :: acc, cur, it, hproducer, hit, by simpa using hsame, rfl⟩
    · rename_i hother
      cases h
      exact .inr (.inl ⟨first, acc, cur, it, hproducer, hit, hother, rfl⟩)
  case h_3 acc it hproducer hit =>
    cases h
    exact .inr (.inr (.inl ⟨acc, hproducer, by simp [hit], rfl⟩))
  case h_4 acc hproducer hit =>
    cases h
    exact .inr (.inr (.inl ⟨acc, hproducer, by simp [hit], rfl⟩))
  case h_5 hproducer =>
    split at h
    · rename_i hbuf
      cases h
      exact .inr (.inr (.inr ⟨hproducer, hbuf, rfl⟩))
    · cases h
  case h_6 => cases h

theorem consume_cases (h : consume order encryptInfo s = some s') :
    ∃ acc buf, s.consumer = .taking ∧ s.buf = acc :: buf ∧ s' = { s with
      buf, consumer := .ended
      sent := match rebuild order encryptInfo acc with
        | .ok manifest => s.sent ++ [manifest]
        | .error _ => s.sent } := by
  unfold consume at h
  split at h
  case h_1 acc buf hconsumer hbuf =>
    cases h
    exact ⟨acc, buf, hconsumer, hbuf, rfl⟩
  case h_2 => cases h
  case h_3 => cases h

theorem produce_ne_none {acc : List FragmentInfo} (h : s.producer = .gathering acc) :
    produce s ≠ none := by
  cases hit : s.it with
  | nil => simp [produce, h, hit]
  | cons entry it =>
    cases entry with
    | other => simp [produce, h, hit]
    | fragment cur =>
      cases acc with
      | nil => simp [produce, h, hit]
      | cons first acc =>
        simp only [produce, h, hit]
        split <;> exact Option.some_ne_none _

end Steps

section Bound

def Gathering.remaining (s : Gathering) : Nat :=
  (match s.producer with
    | .gathering _ => s.it.length + 2
    | .waitUntilEmpty => 1
    | .returned => 0) +
  match s.consumer with
    | .taking => 1
    | .ended => 0

theorem remaining_gather {f : Fiber} (h : gather order encryptInfo s f = some s') :
    s'.remaining < s.remaining := by
  cases f with
  | producer =>
    obtain ⟨acc, cur, it, hproducer, hit, _, rfl⟩ | ⟨first, acc, cur, it, hproducer, hit, _, rfl⟩ |
      ⟨acc, hproducer, _, rfl⟩ | ⟨hproducer, _, rfl⟩ := produce_cases h
    · simp [Gathering.remaining, hproducer, hit]
    · simp [Gathering.remaining, hproducer, hit]
    · simp [Gathering.remaining, hproducer]
    · simp [Gathering.remaining, hproducer]
  | consumer =>
    obtain ⟨acc, buf, hconsumer, _, rfl⟩ := consume_cases h
    simp [Gathering.remaining, hconsumer]

theorem length_le_remaining {fibers : List Fiber} (h : Effective order encryptInfo s fibers) :
    fibers.length ≤ s.remaining := by
  induction fibers generalizing s with
  | nil => exact Nat.zero_le _
  | cons f fibers ih =>
    obtain ⟨s', hstep, hrest⟩ := h
    exact Nat.lt_of_le_of_lt (ih hrest) (remaining_gather hstep)

end Bound

section OneObject

/-- The buffer, the consumer and what was sent, once the producer has put the infos of the only object
on the buffer. -/
def Handled (order : HashOrder) (encryptInfo : EncryptInfo) (infos : List FragmentInfo)
    (s : Gathering) : Prop :=
  s.buf = [] ∧ s.consumer = .ended ∧
    ∀ manifest, rebuild order encryptInfo infos = .ok manifest → manifest ∈ s.sent

/-- With one object there is one item, and it is put on the buffer at the end. -/
def OneItem (order : HashOrder) (encryptInfo : EncryptInfo) (db : RecoveryDb) (s : Gathering) : Prop :=
  match s.producer with
  | .gathering acc => s.buf = [] ∧ s.consumer = .taking ∧
      ∃ rest, s.it = rest.map .fragment ++ List.replicate db.others .other ∧
        acc.reverse ++ rest = db.fragments
  | .waitUntilEmpty => (s.buf = [db.fragments.reverse] ∧ s.consumer = .taking) ∨
      Handled order encryptInfo db.fragments.reverse s
  | .returned => Handled order encryptInfo db.fragments.reverse s

theorem rest_of_fragment {rest : List FragmentInfo} {others : Nat} {cur : FragmentInfo}
    {it : List Entry} (h : rest.map .fragment ++ List.replicate others .other = .fragment cur :: it) :
    ∃ rest', rest = cur :: rest' ∧ it = rest'.map .fragment ++ List.replicate others .other := by
  cases rest with
  | nil => cases others <;> cases h
  | cons i rest =>
    cases h
    exact ⟨rest, rfl, rfl⟩

theorem oneItem_initial (order : HashOrder) (encryptInfo : EncryptInfo) (db : RecoveryDb) :
    OneItem order encryptInfo db (.initial db) :=
  ⟨rfl, rfl, db.fragments, rfl, rfl⟩

theorem oneItem_produce (hone : ∀ i ∈ db.fragments, ∀ j ∈ db.fragments, i.objectId = j.objectId)
    (hs : OneItem order encryptInfo db s) (h : produce s = some s') :
    OneItem order encryptInfo db s' := by
  obtain ⟨acc, cur, it, hproducer, hit, _, rfl⟩ | ⟨first, acc, cur, it, hproducer, hit, hother, rfl⟩ |
    ⟨acc, hproducer, hend, rfl⟩ | ⟨hproducer, hbuf, rfl⟩ := produce_cases h
  · simp only [OneItem, hproducer] at hs
    obtain ⟨hbuf, hconsumer, rest, hrest, hall⟩ := hs
    obtain ⟨rest, rfl, rfl⟩ := rest_of_fragment (hrest.symm.trans hit)
    exact ⟨hbuf, hconsumer, rest, rfl, by simpa using hall⟩
  · simp only [OneItem, hproducer] at hs
    obtain ⟨_, _, rest, hrest, hall⟩ := hs
    obtain ⟨rest, rfl, rfl⟩ := rest_of_fragment (hrest.symm.trans hit)
    exact absurd (hone first (by simp [← hall]) cur (by simp [← hall])) hother
  · simp only [OneItem, hproducer] at hs
    obtain ⟨hbuf, hconsumer, rest, hrest, hall⟩ := hs
    cases rest with
    | nil =>
      refine .inl ⟨?_, hconsumer⟩
      simp [hbuf, ← hall]
    | cons i rest => exact absurd hrest (hend i _)
  · simp only [OneItem, hproducer] at hs
    rcases hs with ⟨hitem, _⟩ | hhandled
    · simp [hbuf] at hitem
    · exact hhandled

theorem oneItem_consume (hs : OneItem order encryptInfo db s)
    (h : consume order encryptInfo s = some s') : OneItem order encryptInfo db s' := by
  obtain ⟨acc, buf, hconsumer, hbuf, rfl⟩ := consume_cases h
  unfold OneItem at hs ⊢
  cases hproducer : s.producer with
  | gathering =>
    simp only [hproducer] at hs
    simp [hs.1] at hbuf
  | waitUntilEmpty =>
    simp only [hproducer] at hs ⊢
    rcases hs with ⟨hitem, _⟩ | ⟨hempty, _, _⟩
    · obtain ⟨rfl, rfl⟩ : acc = db.fragments.reverse ∧ buf = [] := by simpa [hbuf] using hitem
      exact .inr ⟨rfl, rfl, fun manifest hmanifest => by simp [hmanifest]⟩
    · simp [hempty] at hbuf
  | returned =>
    simp only [hproducer] at hs
    simp [hs.1] at hbuf

theorem oneItem_run (hone : ∀ i ∈ db.fragments, ∀ j ∈ db.fragments, i.objectId = j.objectId)
    (fibers : List Fiber) :
    OneItem order encryptInfo db (run (gather order encryptInfo) (.initial db) fibers) := by
  refine run_invariant (fun s f s' hs h => ?_) fibers (oneItem_initial order encryptInfo db)
  cases f with
  | producer => exact oneItem_produce hone hs h
  | consumer => exact oneItem_consume hs h

theorem returned_of_stuck (hs : OneItem order encryptInfo db s)
    (hstuck : ∀ f, gather order encryptInfo s f = none) : s.producer = .returned := by
  have hproduce : produce s = none := hstuck .producer
  have hconsume : consume order encryptInfo s = none := hstuck .consumer
  cases hproducer : s.producer with
  | gathering acc => exact absurd hproduce (produce_ne_none hproducer)
  | waitUntilEmpty =>
    simp only [OneItem, hproducer] at hs
    rcases hs with ⟨hitem, htaking⟩ | ⟨hempty, _, _⟩
    · simp [consume, hitem, htaking] at hconsume
    · simp [produce, hproducer, hempty] at hproduce
  | returned => rfl

theorem infosOf_eq (hone : ∀ i ∈ db.fragments, ∀ j ∈ db.fragments, i.objectId = j.objectId)
    {objectId : Bytes} {i : FragmentInfo} (hi : i ∈ db.infosOf objectId) :
    db.infosOf objectId = db.fragments := by
  obtain ⟨hmem, hid⟩ := mem_filter.mp hi
  refine filter_eq_self.mpr fun j hj => decide_eq_true ?_
  exact (hone j hj i hmem).trans (of_decide_eq_true hid)

theorem recoversAll_of_one (hone : ∀ i ∈ db.fragments, ∀ j ∈ db.fragments, i.objectId = j.objectId) :
    RecoversAll order encryptInfo db := by
  refine ⟨⟨_, fun fibers h => length_le_remaining h⟩, fun fibers hstuck =>
    returned_of_stuck (oneItem_run hone fibers) hstuck, fun fibers hreturned objectId n info h => ?_⟩
  have hs : OneItem order encryptInfo db (run (gather order encryptInfo) (.initial db) fibers) :=
    oneItem_run hone fibers
  simp only [OneItem, hreturned] at hs
  obtain ⟨i, hi, _⟩ := (h.complete 0).mpr h.positive
  rw [infosOf_eq hone hi] at h
  obtain ⟨manifest, x, best, top, hrebuild, hfrom⟩ := rebuild_of_recoverable order encryptInfo
    (h.of_mem_iff fun _ => mem_reverse)
  refine ⟨manifest, hs.2.2 manifest hrebuild, ?_⟩
  have hx : x ∈ db.infosOf objectId := by
    rw [infosOf_eq hone hi]
    exact mem_reverse.mp (mem_inChunk.mp hfrom.last).1
  rw [hfrom.objectId]
  exact of_decide_eq_true (mem_filter.mp hx).2

end OneObject

section MoreObjects

/-- The items that the producer puts on the buffer when it goes on with `acc` and the infos `rest`. -/
def itemsFrom (acc : List FragmentInfo) : List FragmentInfo → List (List FragmentInfo)
  | [] => [acc]
  | cur :: rest =>
    match acc with
    | [] => itemsFrom [cur] rest
    | first :: acc =>
      if first.objectId = cur.objectId then itemsFrom (cur :: first :: acc) rest
      else (first :: acc) :: itemsFrom [cur] rest

theorem itemsFrom_ne_nil (acc rest : List FragmentInfo) : itemsFrom acc rest ≠ [] := by
  induction rest generalizing acc with
  | nil => simp [itemsFrom]
  | cons cur rest ih =>
    cases acc with
    | nil => exact ih [cur]
    | cons first acc =>
      rw [itemsFrom]
      split
      · exact ih _
      · simp

theorem two_items {first : FragmentInfo} {acc rest : List FragmentInfo} {i : FragmentInfo}
    (hi : i ∈ rest) (hne : i.objectId ≠ first.objectId) :
    ∃ item item' items, itemsFrom (first :: acc) rest = item :: item' :: items := by
  induction rest generalizing first acc with
  | nil => cases hi
  | cons cur rest ih =>
    rw [itemsFrom]
    split
    · rename_i hsame
      rcases mem_cons.mp hi with rfl | hi
      · exact absurd hsame.symm hne
      · exact ih hi (hsame ▸ hne)
    · obtain ⟨item', items, hitems⟩ := exists_cons_of_ne_nil (itemsFrom_ne_nil [cur] rest)
      exact ⟨first :: acc, item', items, by rw [hitems]⟩

theorem run_producer (order : HashOrder) (encryptInfo : EncryptInfo) (acc rest : List FragmentInfo) (others : Nat) (s : Gathering)
    (hproducer : s.producer = .gathering acc)
    (hit : s.it = rest.map .fragment ++ List.replicate others .other) :
    run (gather order encryptInfo) s (List.replicate (rest.length + 1) .producer) =
      { s with it := List.replicate others .other, producer := .waitUntilEmpty,
               buf := s.buf ++ itemsFrom acc rest } := by
  induction rest generalizing s acc with
  | nil =>
    cases others with
    | zero => simp [next, gather, produce, hproducer, hit, itemsFrom]
    | succ others => simp [next, gather, produce, hproducer, hit, itemsFrom, replicate_succ]
  | cons cur rest ih =>
    rw [length_cons, replicate_succ, run_cons]
    cases acc with
    | nil =>
      have hnext : next (gather order encryptInfo) s .producer =
          { s with it := rest.map .fragment ++ List.replicate others .other,
                   producer := .gathering [cur] } := by
        simp [next, gather, produce, hproducer, hit]
      rw [hnext, ih [cur] _ rfl rfl]
      rfl
    | cons first acc =>
      by_cases hsame : first.objectId = cur.objectId
      · have hnext : next (gather order encryptInfo) s .producer =
            { s with it := rest.map .fragment ++ List.replicate others .other,
                     producer := .gathering (cur :: first :: acc) } := by
          simp [next, gather, produce, hproducer, hit, hsame]
        rw [hnext, ih _ _ rfl rfl, itemsFrom, if_pos hsame]
      · have hnext : next (gather order encryptInfo) s .producer =
            { s with it := rest.map .fragment ++ List.replicate others .other,
                     producer := .gathering [cur], buf := s.buf ++ [first :: acc] } := by
          simp [next, gather, produce, hproducer, hit, hsame]
        rw [hnext, ih _ _ rfl rfl, itemsFrom, if_neg hsame]
        simp

theorem not_recoversAll_of_two {i j : FragmentInfo} (hi : i ∈ db.fragments) (hj : j ∈ db.fragments)
    (hne : i.objectId ≠ j.objectId) : ¬RecoversAll order encryptInfo db := by
  intro h
  obtain ⟨first, rest, hfragments⟩ := exists_cons_of_ne_nil (ne_nil_of_mem hi)
  obtain ⟨k, hk, hother⟩ : ∃ k ∈ rest, k.objectId ≠ first.objectId := by
    rw [hfragments] at hi hj
    rcases mem_cons.mp hi with rfl | hi
    · rcases mem_cons.mp hj with rfl | hj
      · exact absurd rfl hne
      · exact ⟨j, hj, hne.symm⟩
    · by_cases hif : i.objectId = first.objectId
      · rcases mem_cons.mp hj with rfl | hj
        · exact absurd hif hne
        · exact ⟨j, hj, fun hjf => hne (hif.trans hjf.symm)⟩
      · exact ⟨i, hi, hif⟩
  obtain ⟨item, item', items, hitems⟩ :
      ∃ item item' items, itemsFrom [] db.fragments = item :: item' :: items := by
    rw [hfragments]
    exact two_items hk hother
  have hproduced := run_producer order encryptInfo [] db.fragments db.others (.initial db) rfl rfl
  have hwaiting : ∃ s, run (gather order encryptInfo) (.initial db)
      (List.replicate (db.fragments.length + 1) .producer ++ [.consumer]) = s ∧
        s.producer = .waitUntilEmpty ∧ s.buf = item' :: items ∧ s.consumer = .ended := by
    refine ⟨_, rfl, ?_⟩
    rw [run_append, hproduced, hitems]
    simp [next, gather, consume, Gathering.initial]
  obtain ⟨s, hs, hproducer, hbuf, hconsumer⟩ := hwaiting
  have hreturned := h.returns (List.replicate (db.fragments.length + 1) .producer ++ [.consumer])
  rw [hs] at hreturned
  have hstuck : ∀ f, gather order encryptInfo s f = none := by
    intro f
    cases f with
    | producer => simp [gather, produce, hproducer, hbuf]
    | consumer => simp [gather, consume, hconsumer]
  cases hproducer.symm.trans (hreturned hstuck)

end MoreObjects

/-- The recovery is complete exactly when the database holds at most one object. -/
theorem recovers_all_iff_one_object (order : HashOrder) (encryptInfo : EncryptInfo) (db : RecoveryDb) :
    RecoversAll order encryptInfo db ↔
      ∀ i ∈ db.fragments, ∀ j ∈ db.fragments, i.objectId = j.objectId := by
  refine ⟨fun h i hi j hj => ?_, recoversAll_of_one⟩
  by_contra hne
  exact not_recoversAll_of_two hi hj hne h

section Sample

def sampleInfo : ObjectInfo where
  storageScheme := { k := 1, m := 0, w := .w8, compression := .noCompression }
  size := 1
  checksum := .noChecksum
  timestamp := ⟨0⟩

def sampleFragment (objectId : Bytes) : FragmentInfo where
  objectId
  chunkId := 0
  fragmentId := 0
  versionId := 0
  recoveryInfo :=
    { name := objectId, chunkSize := 1, fragmentSizes := [1], fragmentChecksums := [.noChecksum]
      fragmentCtr := none, objectInfoO := some sampleInfo }
  osdId := ⟨0, by decide⟩

theorem recoverable_sampleFragment (objectId : Bytes) :
    Recoverable [sampleFragment objectId] 1 sampleInfo where
  complete := fun c => by
    simp only [mem_singleton, exists_eq_left, sampleFragment, Nat.lt_one_iff]
    exact eq_comm
  positive := Nat.one_pos
  last := by simp [inChunk, sampleFragment]
  enough := fun c hc => by
    obtain rfl := Nat.lt_one_iff.mp hc
    have hcount : fragmentCount [sampleFragment objectId] sampleInfo.width 0 = 1 := rfl
    rw [hcount]
    exact le_rfl
  sizes := by simp [sampleFragment, sampleInfo, ObjectInfo.width]
  checksums := by simp [sampleFragment, sampleInfo, ObjectInfo.width]
  counted := by decide

def twoObjects : RecoveryDb where
  fragments := [sampleFragment (ascii ['a']), sampleFragment (ascii ['b'])]
  others := 1
  ordered := by decide

/-- Each of the two objects could be recovered alone. -/
theorem two_objects_not_recovered :
    (∀ i ∈ twoObjects.fragments, Recoverable (twoObjects.infosOf i.objectId) 1 sampleInfo) ∧
      ∀ order encryptInfo, ¬RecoversAll order encryptInfo twoObjects := by
  refine ⟨fun i hi => ?_, fun order encryptInfo => ?_⟩
  · rcases mem_cons.mp hi with rfl | hi
    · exact recoverable_sampleFragment _
    · cases mem_singleton.mp hi
      exact recoverable_sampleFragment _
  · exact not_recoversAll_of_two mem_cons_self (mem_cons_of_mem _ mem_cons_self)
      (by decide)

end Sample

end Alba.Recovery
