import Alba.Transfer.Download

/-! The upload of a chunk over every order of its events: it is decided at the latest when all
attempts have ended, and the fragments that get an osd in the manifest are those whose upload has
returned, at least as many as the policy asks for. -/

namespace Alba.Transfer

open List hiding next
open ProofKit Nsm

section Osds

theorem Osds.store_self (osds : Osds) (d : OsdId) (key : FragmentKey) (b : Bytes) :
    osds.store d key b d key = some b := by
  simp [Osds.store]

theorem Osds.store_other {osds : Osds} {d d' : OsdId} {key key' : FragmentKey} (b : Bytes)
    (h : key' ≠ key) : osds.store d key b d' key' = osds d' key' := by
  simp [Osds.store, h]

end Osds

section Chunk

variable (ctx : ChunkContext) {osds : Osds} {i : Nat}

/-- The fragment `f` that the upload of number `i` returned: it names the osd that holds the packed
fragment, or none. -/
structure Uploaded (osds : Osds) (i : Nat) (t : Target) (f : Fragment) : Prop where
  fragment : ∃ fnr, f = t.fragment ctx.versionId f.osd fnr
  target : ∀ d, f.osd = some d → t.osdIdO = some d ∧ osds d (ctx.key i) = some t.packed.bytes

/-- Keys of other chunks are left alone, keys of this chunk are written with its fragments only. -/
structure Wrote (osds₀ osds : Osds) : Prop where
  others : ∀ d key, (∀ i, key ≠ ctx.key i) → osds d key = osds₀ d key
  kept : ∀ d i t, ctx.targets[i]? = some t → osds d (ctx.key i) = osds₀ d (ctx.key i) ∨
    osds d (ctx.key i) = some t.packed.bytes

structure ChunkUpload.Sound (count : Nat) (osds₀ : Osds) (u : ChunkUpload) : Prop where
  first : u.first.Inv hasOsd count
  length : u.first.threads.length = ctx.targets.length
  replies : ∀ i f, u.first.Replied i f → ∃ t, ctx.targets[i]? = some t ∧ Uploaded ctx u.osds i t f
  wrote : Wrote ctx osds₀ u.osds

variable {ctx} {count : Nat} {osds₀ : Osds} {u u' : ChunkUpload}

theorem ChunkContext.key_inj {i j : Nat} : ctx.key i = ctx.key j ↔ i = j := by
  simp [ChunkContext.key]

theorem Wrote.refl (osds : Osds) : Wrote ctx osds osds :=
  ⟨fun _ _ _ => rfl, fun _ _ _ _ => .inl rfl⟩

theorem Wrote.store (h : Wrote ctx osds₀ osds) {t : Target} (ht : ctx.targets[i]? = some t)
    (d : OsdId) : Wrote ctx osds₀ (osds.store d (ctx.key i) t.packed.bytes) := by
  constructor
  · intro d' key hkey
    rw [Osds.store_other _ (hkey i), h.others d' key hkey]
  · intro d' j t' ht'
    by_cases hj : j = i
    · subst hj
      obtain rfl : t' = t := by simpa [ht'] using ht
      by_cases hd : d' = d
      · subst hd
        exact .inr (Osds.store_self ..)
      · simpa [Osds.store, hd] using h.kept d' j t' ht'
    · have hne : ctx.key j ≠ ctx.key i := fun h => hj (ChunkContext.key_inj.mp h)
      rw [Osds.store_other _ hne]
      exact h.kept d' j t' ht'

theorem Uploaded.store {i j : Nat} {t t' : Target} {f : Fragment} (ht : ctx.targets[i]? = some t)
    (ht' : ctx.targets[j]? = some t') (h : Uploaded ctx osds i t f) (d : OsdId) :
    Uploaded ctx (osds.store d (ctx.key j) t'.packed.bytes) i t f := by
  refine ⟨h.fragment, fun d' hd' => ⟨(h.target d' hd').1, ?_⟩⟩
  have hheld := (h.target d' hd').2
  by_cases hij : i = j
  · subst hij
    obtain rfl : t' = t := by simpa [ht'] using ht
    unfold Osds.store
    split
    · rfl
    · exact hheld
  · rw [Osds.store_other _ fun hkey => hij (ChunkContext.key_inj.mp hkey), hheld]

theorem uploadFragment_cases (ctx : ChunkContext) (osds : Osds) (i : Nat) (t : Target) (attempt : Attempt) :
    (∃ d, (uploadFragment ctx osds i t attempt).2 = osds.store d (ctx.key i) t.packed.bytes) ∨
      (uploadFragment ctx osds i t attempt).2 = osds := by
  unfold uploadFragment
  split
  · exact .inr rfl
  · rename_i d _
    split
    · exact .inl ⟨d, rfl⟩
    · exact .inl ⟨d, rfl⟩
    · exact .inr rfl

theorem uploadFragment_uploaded {t : Target} {attempt : Attempt} {f : Fragment}
    (h : (uploadFragment ctx osds i t attempt).1 = .value f) :
    Uploaded ctx (uploadFragment ctx osds i t attempt).2 i t f := by
  unfold uploadFragment at h ⊢
  split at h
  · cases h
    refine ⟨⟨none, rfl⟩, ?_⟩
    intro d hd
    cases hd
  · rename_i d hosd
    split at h
    · rename_i fnr
      cases h
      refine ⟨⟨fnr, rfl⟩, ?_⟩
      intro d' hd'
      obtain rfl : d = d' := by simpa [Target.fragment] using hd'
      exact ⟨hosd, Osds.store_self ..⟩
    · cases h
    · cases h

theorem ChunkUpload.Sound.start {minFragmentCount : Int} {cacheOnWrite : Bool}
    (h : ChunkUpload.start ctx minFragmentCount cacheOnWrite osds = .ok u) :
    u.Sound ctx minFragmentCount.toNat osds := by
  unfold ChunkUpload.start at h
  split at h
  · rename_i first hstart
    cases h
    obtain ⟨hlength, inv⟩ := FirstN.start_inv hstart
    refine ⟨inv, hlength, fun i f hreplied => ?_, .refl osds⟩
    obtain ⟨_, _, rfl⟩ := FirstN.start_eq_some.mp hstart
    simp [FirstN.Replied, getElem?_replicate] at hreplied
  · cases h

section

variable (sound : u.Sound ctx count osds₀)
include sound

theorem ChunkUpload.Sound.own {e : Event Fragment}
    (he : ∀ i reply, e ≠ .resolve i reply) (h : u.own e = some u') : u'.Sound ctx count osds₀ := by
  obtain ⟨first, hstep, rfl⟩ := Option.map_eq_some_iff.mp h
  refine ⟨sound.first.step hstep, by simpa [FirstN.step_length hstep] using sound.length, ?_,
    sound.wrote⟩
  intro i f hreplied
  rcases sound.first.replied hstep hreplied with hreplied | rfl
  · exact sound.replies i f hreplied
  · exact absurd rfl (he i _)

theorem ChunkUpload.Sound.upload {attempt : Attempt}
    (h : u.exec ctx (.upload i attempt) = some u') : u'.Sound ctx count osds₀ := by
  simp only [ChunkUpload.exec, Option.bind_eq_bind, Option.bind_eq_some_iff] at h
  obtain ⟨t, ht, first, hstep, h⟩ := h
  cases h
  refine ⟨sound.first.step hstep, by simpa [FirstN.step_length hstep] using sound.length, ?_, ?_⟩
  · intro j f hreplied
    rcases sound.first.replied hstep hreplied with hreplied | hevent
    · obtain ⟨t', ht', huploaded⟩ := sound.replies j f hreplied
      refine ⟨t', ht', ?_⟩
      rcases uploadFragment_cases ctx u.osds i t attempt with ⟨d, hosds⟩ | hosds
      · simpa [hosds] using huploaded.store ht' ht d
      · simpa [hosds] using huploaded
    · obtain ⟨rfl, hreply⟩ : i = j ∧ (uploadFragment ctx u.osds i t attempt).1 = .value f := by
        simpa using hevent
      exact ⟨t, ht, uploadFragment_uploaded hreply⟩
  · rcases uploadFragment_cases ctx u.osds i t attempt with ⟨d, hosds⟩ | hosds
    · simpa [hosds] using sound.wrote.store ht d
    · simpa [hosds] using sound.wrote

theorem ChunkUpload.Sound.exec {e : ChunkEvent}
    (h : u.exec ctx e = some u') : u'.Sound ctx count osds₀ := by
  cases e with
  | upload i attempt => exact sound.upload h
  | written | decided | expired | joined => exact sound.own (by simp) h
  | cached =>
    cases h
    exact ⟨sound.first, sound.length, sound.replies, sound.wrote⟩

theorem ChunkUpload.Sound.run (events : List ChunkEvent) :
    (run (ChunkUpload.exec ctx) u events).Sound ctx count osds₀ :=
  run_invariant (fun _ _ _ hs h => hs.exec h) events sound

end

end Chunk

section Sampling

variable {ctx : ChunkContext} {count : Nat} {osds₀ : Osds} {u : ChunkUpload}

def isStored (ctx : ChunkContext) (osds : Osds) (target : Target × Nat) : Bool :=
  match target.1.osdIdO with
  | some d => osds d (ctx.key target.2) = some target.1.packed.bytes
  | none => false

theorem countP_le_of_forall {α β : Type} {p : α → Bool} {q : β → Bool} {l : List α} {l' : List β}
    (hlength : l.length = l'.length)
    (h : ∀ (i : Nat) a b, l[i]? = some a → l'[i]? = some b → p a → q b) : l.countP p ≤ l'.countP q := by
  induction l generalizing l' with
  | nil => simp
  | cons a l ih =>
    cases l' with
    | nil => simp at hlength
    | cons b l' =>
      have hrest : l.countP p ≤ l'.countP q := ih (by simpa using hlength)
        fun i a b ha hb => h (i + 1) a b (by simpa using ha) (by simpa using hb)
      have hhead : p a → q b := h 0 a b rfl rfl
      rw [countP_cons, countP_cons]
      by_cases hp : p a
      · rw [if_pos hp, if_pos (hhead hp)]
        omega
      · rw [if_neg hp]
        omega

theorem hasOsd_fragmentInfo (versionId : Int32) (t : Target) (thread : Thread Fragment) :
    hasOsd (fragmentInfo versionId t thread) = decide (thread.returned hasOsd = some true) := by
  rcases thread with _ | reply | (f | _) <;>
    simp [fragmentInfo, Thread.returned, Reply.passes, hasOsd, Target.fragment]

theorem countP_fragmentInfos {threads : List (Thread Fragment)}
    (h : threads.length = ctx.targets.length) :
    (fragmentInfos ctx threads).countP hasOsd = tally (Thread.returned hasOsd) (some true) threads := by
  unfold fragmentInfos tally
  generalize ctx.targets = targets at h
  induction threads generalizing targets with
  | nil => simp
  | cons thread threads ih =>
    cases targets with
    | nil => simp at h
    | cons t targets =>
      rw [zipWith_cons_cons, countP_cons, countP_cons, hasOsd_fragmentInfo,
        ih targets (by simpa using h)]

theorem getElem?_fragmentInfos {threads : List (Thread Fragment)} {i : Nat} {f : Fragment}
    (h : (fragmentInfos ctx threads)[i]? = some f) :
    ∃ t thread, ctx.targets[i]? = some t ∧ threads[i]? = some thread ∧
      f = fragmentInfo ctx.versionId t thread := by
  rw [fragmentInfos, getElem?_zipWith] at h
  cases ht : ctx.targets[i]? <;> cases hthread : threads[i]? <;> simp [ht, hthread] at h
  exact ⟨_, _, rfl, rfl, h.symm⟩

theorem fragmentInfo_located {versionId : Int32} {t : Target} {thread : Thread Fragment} :
    hasOsd (fragmentInfo versionId t thread) ↔
      ∃ f, thread = .resolved (.value f) ∧ hasOsd f ∧ fragmentInfo versionId t thread = f := by
  rcases thread with _ | reply | (f | _) <;> simp [fragmentInfo, hasOsd, Target.fragment]

theorem ChunkUpload.Sound.uploaded (sound : u.Sound ctx count osds₀) {i : Nat} {f : Fragment}
    (h : (fragmentInfos ctx u.first.threads)[i]? = some f) :
    ∃ t, ctx.targets[i]? = some t ∧ Uploaded ctx u.osds i t f := by
  obtain ⟨t, thread, ht, hthread, rfl⟩ := getElem?_fragmentInfos h
  refine ⟨t, ht, ?_⟩
  have hfailed : Uploaded ctx u.osds i t (t.fragment ctx.versionId none none) :=
    ⟨⟨none, rfl⟩, fun d hd => by cases hd⟩
  rcases thread with _ | reply | (f | _)
  · exact hfailed
  · exact hfailed
  · obtain ⟨t', ht', huploaded⟩ := sound.replies i f (.inr hthread)
    obtain rfl : t' = t := by simpa [ht'] using ht
    exact huploaded
  · exact hfailed

theorem ChunkUpload.result_eq_ok {objectName : Bytes} {fragments : List Fragment} {osds : Osds}
    (h : u.result ctx objectName = .ok (fragments, osds)) :
    u.first.wait = .returned true ∧ fragments = fragmentInfos ctx u.first.threads ∧ osds = u.osds := by
  unfold ChunkUpload.result at h
  split at h
  · cases h
    exact ⟨‹_›, rfl, rfl⟩
  · cases h
  · cases h

theorem ChunkUpload.Sound.located (sound : u.Sound ctx count osds₀)
    (h : u.first.wait = .returned true) :
    count ≤ (fragmentInfos ctx u.first.threads).countP hasOsd := by
  have hcount := sound.first.outcome h
  rw [countP_fragmentInfos sound.length]
  simpa [settled] using hcount

theorem ChunkUpload.Sound.stored (sound : u.Sound ctx count osds₀) :
    (fragmentInfos ctx u.first.threads).countP hasOsd ≤
      ctx.targets.zipIdx.countP (isStored ctx u.osds) := by
  refine countP_le_of_forall (by simp [fragmentInfos, sound.length]) fun i f target hf htarget hosd => ?_
  obtain ⟨t, ht, huploaded⟩ := sound.uploaded hf
  obtain rfl : (t, i) = target := by simpa [getElem?_zipIdx, ht] using htarget
  obtain ⟨d, hd⟩ := Option.isSome_iff_exists.mp hosd
  obtain ⟨htargetOsd, hheld⟩ := huploaded.target d hd
  simp [isStored, htargetOsd, hheld]

end Sampling

section Decided

variable {ctx : ChunkContext} {count : Nat} {osds₀ : Osds} {u : ChunkUpload}

/-- The events that need neither an osd nor the timer. -/
def ChunkEvent.Own : ChunkEvent → Prop
  | .written | .decided | .joined => True
  | .upload _ _ | .expired | .cached => False

def Event.toChunk : Event Fragment → ChunkEvent
  | .resolve _ _ => .cached
  | .written => .written
  | .decided => .decided
  | .expired => .expired
  | .joined => .joined

/-- The events of `first_n` alone, as events of the upload of a chunk. -/
theorem run_own (ctx : ChunkContext) (es : List (Event Fragment)) (hes : ∀ e ∈ es, Event.Own e) :
    (∀ e ∈ es.map Event.toChunk, ChunkEvent.Own e) ∧
      (run (ChunkUpload.exec ctx) u (es.map Event.toChunk)).first =
        run (FirstN.step hasOsd) u.first es := by
  induction es generalizing u with
  | nil => simp
  | cons e es ih =>
    have he := hes e (by simp)
    have hfirst : (next (ChunkUpload.exec ctx) u e.toChunk).first = next (FirstN.step hasOsd) u.first e := by
      unfold next
      cases e with
      | resolve | expired => exact absurd he id
      | written | decided | joined =>
        simp only [Event.toChunk, ChunkUpload.exec, ChunkUpload.own]
        cases FirstN.step hasOsd u.first _ <;> rfl
    obtain ⟨hown, hrun⟩ := ih (u := next (ChunkUpload.exec ctx) u e.toChunk)
      fun e' he' => hes e' (mem_cons_of_mem e he')
    refine ⟨?_, by rw [map_cons, run_cons, run_cons, hrun, hfirst]⟩
    simp only [map_cons, forall_mem_cons]
    refine ⟨?_, hown⟩
    cases e with
    | resolve | expired => exact absurd he id
    | written | decided | joined => trivial

theorem ChunkUpload.Sound.decided (sound : u.Sound ctx count osds₀) (idle : u.first.Idle) :
    ∃ es, (∀ e ∈ es, ChunkEvent.Own e) ∧
      ∃ success, (ProofKit.run (ChunkUpload.exec ctx) u es).first.wait = .returned success := by
  obtain ⟨es, hown, hreturned⟩ := sound.first.returns idle
  obtain ⟨hown', hrun⟩ := run_own (u := u) ctx es hown
  exact ⟨es.map Event.toChunk, hown', by rwa [hrun]⟩

end Decided

section Object

variable {c : Codec} {k m : Nat} {e : Erasure k m} {u : Upload} {chunk : Bytes} {p p' : Progress}

theorem raising_eq_ok {α : Type} {x : Except Exn α} {a : α} : raising x = .ok a ↔ x = .ok a := by
  cases x <;> simp [raising, Except.mapError]

/-- Every located fragment of a chunk is read back as the plain fragment of its place. -/
structure ChunkStored (c : Codec) (e : Erasure k m) (u : Upload) (osds : Osds) (chunkId : Nat)
    (chunk : Bytes) (fragments : List Fragment) : Prop where
  length : fragments.length = k + m
  version : ∀ f ∈ fragments, f.ver = 0
  located : ∀ i f d, fragments[i]? = some f → f.osd = some d →
    ∃ plain, (plainFragments e chunk)[i]? = some plain ∧
      downloadFragment c osds u.encryption u.compression u.objectId k chunkId i (d, f.ver) f.crc f.ctr =
        .ok plain

def SameChunks (p : Nat → Prop) (osds osds' : Osds) : Prop :=
  ∀ d key, p key.chunkId → osds' d key = osds d key

theorem ChunkStored.same {osds osds' : Osds} {chunkId : Nat} {fragments : List Fragment}
    {p : Nat → Prop} (h : ChunkStored c e u osds chunkId chunk fragments)
    (same : SameChunks p osds osds') (hp : p chunkId) :
    ChunkStored c e u osds' chunkId chunk fragments := by
  refine ⟨h.length, h.version, fun i f d hf hd => ?_⟩
  obtain ⟨plain, hplain, hread⟩ := h.located i f d hf hd
  refine ⟨plain, hplain, ?_⟩
  rw [← hread]
  simp only [downloadFragment, downloadPackedFragment]
  rw [same d { objectId := u.objectId, versionId := f.ver, chunkId, fragmentId := i } hp]

theorem uploadChunk_spec {osds osds' : Osds} {chunkId : Nat} {fragments : List Fragment}
    (h : uploadChunk c e u osds chunkId chunk = .ok (fragments, osds')) :
    ChunkStored c e u osds' chunkId chunk fragments ∧ SameChunks (· ≠ chunkId) osds osds' ∧
      u.minFragmentCount.toNat ≤ fragments.countP hasOsd := by
  simp only [uploadChunk, bind_eq_ok, raising_eq_ok] at h
  obtain ⟨packed, hpacked, _, hcheck, start, hstart, h⟩ := h
  obtain ⟨hlength, hreadable⟩ := chunkToPackedFragments_readable hpacked
  have hosds : packed.length = u.targetOsds.length := check_eq_ok.mp hcheck
  have sound := (ChunkUpload.Sound.start hstart).run (u.schedule chunkId)
  obtain ⟨hreturned, rfl, rfl⟩ := ChunkUpload.result_eq_ok h
  refine ⟨⟨?_, fun f hf => ?_, fun i f d hf hd => ?_⟩, fun d key hkey => ?_, sound.located hreturned⟩
  · simp [fragmentInfos, sound.length, hosds ▸ hlength, hlength]
  · obtain ⟨i, hi⟩ := mem_iff_getElem?.mp hf
    obtain ⟨t, _, huploaded⟩ := sound.uploaded hi
    obtain ⟨fnr, hfragment⟩ := huploaded.fragment
    rw [hfragment]
    rfl
  · obtain ⟨t, ht, huploaded⟩ := sound.uploaded hf
    obtain ⟨fnr, hfragment⟩ := huploaded.fragment
    obtain ⟨_, hheld⟩ := huploaded.target d hd
    obtain ⟨p, osdIdO, hp, _, rfl⟩ := getElem?_zipWith_eq_some.mp ht
    have hi : i < (plainFragments e chunk).length := by
      rw [plainFragments_length, ← hlength]
      exact (List.getElem?_eq_some_iff.mp hp).1
    refine ⟨_, getElem?_eq_getElem hi, ?_⟩
    have hread := hreadable i p _ hp (getElem?_eq_getElem hi)
    rw [hfragment]
    simp only [downloadFragment, downloadPackedFragment, Target.fragment]
    simp only [ChunkContext.key] at hheld
    rw [hheld]
    exact hread
  · exact sound.wrote.others d key fun i hkeyi => hkey (by rw [hkeyi]; rfl)

/-- The chunks that have been uploaded so far, in order. -/
structure Progress.Stored (c : Codec) (e : Erasure k m) (u : Upload) (p : Progress)
    (chunks : List Bytes) : Prop where
  chunkId : p.chunkId = chunks.length
  length : p.fragments.length = chunks.length
  sizes : p.chunkSizes.reverse.map Prod.snd = chunks.map List.length
  stored : ∀ (j : Nat) chunk fragments, chunks[j]? = some chunk →
    p.fragments.reverse[j]? = some fragments → ChunkStored c e u p.osds j chunk fragments
  located : ∀ fragments ∈ p.fragments, u.minFragmentCount.toNat ≤ fragments.countP hasOsd

/-- What `foldChunk` computes, apart from the buffer. -/
structure Uploads (c : Codec) (e : Erasure k m) (u : Upload) (p p' : Progress) (chunk : Bytes) : Prop where
  fragments : ∃ infos, uploadChunk c e u p.osds p.chunkId chunk = .ok (infos, p'.osds) ∧
    p'.fragments = infos :: p.fragments
  chunkSizes : p'.chunkSizes = (p.chunkId, chunk.length) :: p.chunkSizes
  chunkId : p'.chunkId = p.chunkId + 1

theorem Progress.Stored.step {chunks : List Bytes} (h : p.Stored c e u chunks)
    (uploads : Uploads c e u p p' chunk) : p'.Stored c e u (chunks ++ [chunk]) := by
  obtain ⟨infos, hupload, hfragments⟩ := uploads.fragments
  obtain ⟨hstored, hsame, hcount⟩ := uploadChunk_spec hupload
  constructor
  case chunkId => rw [uploads.chunkId, h.chunkId, length_append, length_singleton]
  case length => simp [hfragments, h.length]
  case sizes => simp [uploads.chunkSizes, h.sizes]
  case stored =>
    intro j b fragments hb hj
    rw [hfragments, reverse_cons] at hj
    have hlength : p.fragments.reverse.length = chunks.length := by simp [h.length]
    by_cases hlt : j < chunks.length
    · rw [getElem?_append_left hlt] at hb
      rw [getElem?_append_left (by omega)] at hj
      refine (h.stored j b fragments hb hj).same hsame ?_
      rw [h.chunkId]
      omega
    · obtain rfl : j = chunks.length := by
        have := (List.getElem?_eq_some_iff.mp hb).1
        simp only [length_append, length_singleton] at this
        omega
      obtain rfl : chunk = b := by simpa using hb
      obtain rfl : infos = fragments := by simpa [← hlength] using hj
      rwa [← h.chunkId]
  case located =>
    rw [hfragments]
    exact forall_mem_cons.mpr ⟨hcount, h.located⟩

theorem foldChunk_fragments {data : Bytes} {desired : Nat} {more : Bool}
    (h : foldChunk c e u data desired p = .ok (p', more)) :
    ∃ fragments, p'.fragments = fragments :: p.fragments ∧
      u.minFragmentCount.toNat ≤ fragments.countP hasOsd := by
  simp only [foldChunk, bind_eq_ok, raising_eq_ok] at h
  obtain ⟨_, _, _, _, chunk, _, ⟨fragments, osds⟩, hupload, h⟩ := h
  cases h
  exact ⟨fragments, rfl, (uploadChunk_spec hupload).2.2⟩

theorem foldChunks_located {data : Bytes} {desired fuel : Nat}
    (h : foldChunks c e u data desired fuel p = .ok p')
    (hp : ∀ fragments ∈ p.fragments, u.minFragmentCount.toNat ≤ fragments.countP hasOsd) :
    ∀ fragments ∈ p'.fragments, u.minFragmentCount.toNat ≤ fragments.countP hasOsd := by
  induction fuel generalizing p with
  | zero => cases h
  | succ fuel ih =>
    simp only [foldChunks, bind_eq_ok] at h
    obtain ⟨⟨mid, more⟩, hstep, h⟩ := h
    obtain ⟨fragments, hmid, hcount⟩ := foldChunk_fragments hstep
    have hmidLocated : ∀ fragments ∈ mid.fragments,
        u.minFragmentCount.toNat ≤ fragments.countP hasOsd := by
      rw [hmid]
      exact forall_mem_cons.mpr ⟨hcount, hp⟩
    split at h
    · exact ih h hmidLocated
    · cases h
      exact hmidLocated

/-- An upload of a chunk, whatever has happened so far: it does not wait for anything else once all
attempts have ended; it returns only with enough fragments on the osds; and the fragments it gives an
osd to are those whose upload has returned with one. -/
structure ChunkUpload.Protected (ctx : ChunkContext) (count : Nat) (u : ChunkUpload) : Prop where
  decided : u.first.Idle → ∃ es, (∀ e ∈ es, ChunkEvent.Own e) ∧
    ∃ success, (ProofKit.run (ChunkUpload.exec ctx) u es).first.wait = .returned success
  stored : ∀ objectName fragments osds, u.result ctx objectName = .ok (fragments, osds) →
    count ≤ ctx.targets.zipIdx.countP (isStored ctx osds)
  sampled : ∀ objectName fragments osds, u.result ctx objectName = .ok (fragments, osds) →
    ∀ (i : Nat) f, fragments[i]? = some f →
      (hasOsd f ↔ ∃ r, u.first.threads[i]? = some (.resolved (.value r)) ∧ hasOsd r)
  located : ∀ objectName fragments osds, u.result ctx objectName = .ok (fragments, osds) →
    count ≤ fragments.countP hasOsd

theorem ChunkUpload.Sound.isProtected {ctx : ChunkContext} {count : Nat} {osds₀ : Osds} {u : ChunkUpload}
    (sound : u.Sound ctx count osds₀) : u.Protected ctx count where
  decided := sound.decided
  stored objectName fragments osds h := by
    obtain ⟨hreturned, rfl, rfl⟩ := ChunkUpload.result_eq_ok h
    exact (sound.located hreturned).trans sound.stored
  sampled objectName fragments osds h i f hf := by
    obtain ⟨_, rfl, rfl⟩ := ChunkUpload.result_eq_ok h
    obtain ⟨t, thread, _, hthread, rfl⟩ := getElem?_fragmentInfos hf
    rw [fragmentInfo_located, hthread]
    constructor
    · rintro ⟨r, rfl, hr, _⟩
      exact ⟨r, rfl, hr⟩
    · rintro ⟨r, hr, hosd⟩
      cases hr
      exact ⟨r, rfl, hosd, rfl⟩
  located objectName fragments osds h := by
    obtain ⟨hreturned, rfl, rfl⟩ := ChunkUpload.result_eq_ok h
    exact sound.located hreturned

/-- An upload whose third fragment is still on its way when the slack time ends. -/
def slowEvents : List ChunkEvent :=
  [.upload 0 (.stored none), .upload 1 (.stored none), .written, .decided, .written, .written, .expired,
    .written]

def slowContext : ChunkContext where
  objectId := [111]
  versionId := 0
  chunkId := 0
  targets := [some 1, some 2, some 3].map fun osdIdO =>
    { packed := { bytes := [1, 2], checksum := .noChecksum, ctr := none }, osdIdO }

end Object

end Alba.Transfer
