import Alba.Transfer.Protection

/-! An object that is uploaded and then downloaded is written back byte for byte. The loop over the
chunks stays inside its buffer and ends; only the last chunk is padded. -/

namespace Alba.Transfer

open ProofKit Nsm List

section Errors

variable {ε α β : Type}

theorem bind_eq_error {x : Except ε α} {f : α → Except ε β} {err : ε} :
    (x >>= f) = .error err ↔ x = .error err ∨ ∃ a, x = .ok a ∧ f a = .error err := by
  cases x <;> simp [bind, Except.bind]

theorem mapM_eq_error {f : α → Except ε β} {l : List α} {err : ε} (h : l.mapM f = .error err) :
    ∃ a ∈ l, f a = .error err := by
  induction l with
  | nil => cases h
  | cons a l ih =>
    simp only [mapM_cons, bind_eq_error] at h
    rcases h with h | ⟨b, _, h | ⟨rest, _, h⟩⟩
    · exact ⟨a, by simp, h⟩
    · obtain ⟨a', ha', h⟩ := ih h
      exact ⟨a', by simp [ha'], h⟩
    · cases h

theorem raising_error {x : Except Exn α} {stop : Stop} (h : raising x = .error stop)
    (hbounds : x ≠ .error .outOfBounds) : stop ≠ .diverges ∧ stop ≠ .raised .outOfBounds := by
  cases x with
  | ok a => cases h
  | error err =>
    cases h
    simpa using hbounds

end Errors

section Cut

/-- The number of bytes of the object that go into the chunk that starts at `position`. -/
def cutSize (data : Bytes) (desired position : Nat) : Nat := min desired (data.length - position)

/-- The bytes of that chunk, with zeros up to the padded size. -/
def cut (data : Bytes) (k desired position : Nat) : Bytes :=
  let n := cutSize data desired position
  (data.drop position).take n ++ List.replicate (chunkSizeWithPadding k n - n) 0

variable {k desired n : Nat}

theorem le_chunkSizeWithPadding (hk : 1 ≤ k) : n ≤ chunkSizeWithPadding k n := by
  by_cases h1 : k = 1
  · subst h1
    rw [chunkSizeWithPadding_one]
  · rw [chunkSizeWithPadding_eq h1]
    exact (roundUpToMultiple_spec (Nat.mul_pos (by decide) hk)).2.1

theorem chunkSizeWithPadding_le (hk : 1 ≤ k) (hmultiple : k ≠ 1 → fragmentMultiple * k ∣ desired)
    (hn : n ≤ desired) : chunkSizeWithPadding k n ≤ desired := by
  by_cases h1 : k = 1
  · subst h1
    rwa [chunkSizeWithPadding_one]
  · rw [chunkSizeWithPadding_eq h1]
    exact (roundUpToMultiple_spec (Nat.mul_pos (by decide) hk)).2.2 desired (hmultiple h1) hn

theorem chunkSizeWithPadding_dvd (hk : 1 ≤ k) (h1 : k ≠ 1) :
    fragmentMultiple * k ∣ chunkSizeWithPadding k n := by
  rw [chunkSizeWithPadding_eq h1]
  exact (roundUpToMultiple_spec (Nat.mul_pos (by decide) hk)).1

theorem chunkSizeWithPadding_of_dvd (hmultiple : k ≠ 1 → fragmentMultiple * k ∣ n) :
    chunkSizeWithPadding k n = n := by
  unfold chunkSizeWithPadding
  by_cases h1 : k = 1
  · simp [h1]
  · simp [Nat.mod_eq_zero_of_dvd (hmultiple h1)]

theorem readInto_eq (data chunk : Bytes) {position : Nat} (hn : n ≤ chunk.length)
    (hposition : position + n ≤ data.length) :
    readInto data position n chunk = .ok ((data.drop position).take n ++ chunk.drop n) := by
  rw [readInto, if_pos ⟨hn, hposition⟩]

theorem padChunk_eq {chunk : Bytes} (hk : 1 ≤ k) (hs : chunkSizeWithPadding k n ≤ chunk.length) :
    ∃ chunk', padChunk k chunk n = .ok (chunk', chunkSizeWithPadding k n) ∧
      chunk'.length = chunk.length ∧
      chunk'.take (chunkSizeWithPadding k n) =
        chunk.take n ++ List.replicate (chunkSizeWithPadding k n - n) 0 := by
  have hle := le_chunkSizeWithPadding (n := n) hk
  by_cases hpad : n % (fragmentMultiple * k) = 0 ∨ k = 1
  · have hsize : chunkSizeWithPadding k n = n := by
      unfold chunkSizeWithPadding
      rw [if_pos hpad]
    refine ⟨chunk, by rw [padChunk, if_pos hpad, hsize], rfl, by simp [hsize]⟩
  · have hsize : chunkSizeWithPadding k n = (n / (fragmentMultiple * k) + 1) * (fragmentMultiple * k) := by
      unfold chunkSizeWithPadding
      rw [if_neg hpad]
    have hfill : fill chunk n (chunkSizeWithPadding k n - n) = .ok (chunk.take n ++
        List.replicate (chunkSizeWithPadding k n - n) 0 ++
        chunk.drop (n + (chunkSizeWithPadding k n - n))) := by
      rw [fill, if_pos (by omega)]
    refine ⟨_, by simp only [padChunk, if_neg hpad, ← hsize, hfill]; rfl, ?_, ?_⟩
    · simp only [length_append, length_take, length_replicate, length_drop]
      omega
    · rw [take_append_of_le_length]
      · rw [take_of_length_le]
        simp only [length_append, length_take, length_replicate]
        omega
      · simp only [length_append, length_take, length_replicate]
        omega

end Cut

section Loop

variable {c : Codec} {k m : Nat} {e : Erasure k m} {u : Upload} {data : Bytes} {desired : Nat}

theorem raising_ok {α : Type} (a : α) : raising (.ok a) = .ok a := rfl

theorem foldChunk_eq {p : Progress} (hk : 1 ≤ k) (hmultiple : k ≠ 1 → fragmentMultiple * k ∣ desired)
    (hbuffer : p.chunk.length = desired) (htotal : p.totalSize ≤ data.length) :
    ∃ chunk, chunk.length = desired ∧ foldChunk c e u data desired p =
      uploadChunk c e u p.osds p.chunkId (cut data k desired p.totalSize) >>= fun r => .ok (
        { chunk, osds := r.2
          hashed := p.hashed ++ (data.drop p.totalSize).take (cutSize data desired p.totalSize)
          chunkSizes := (p.chunkId, chunkSizeWithPadding k (cutSize data desired p.totalSize)) ::
            p.chunkSizes
          fragments := r.1 :: p.fragments
          totalSize := p.totalSize + cutSize data desired p.totalSize
          chunkId := p.chunkId + 1 },
        decide (p.totalSize + cutSize data desired p.totalSize < data.length)) := by
  have hcut : cutSize data desired p.totalSize = min desired (data.length - p.totalSize) := rfl
  unfold foldChunk cut
  rw [← hcut]
  generalize cutSize data desired p.totalSize = n at hcut ⊢
  have hread := readInto_eq (n := n) data p.chunk (by omega)
    (show p.totalSize + n ≤ data.length by omega)
  have hsize := chunkSizeWithPadding_le (n := n) hk hmultiple (by omega)
  have hlength : ((data.drop p.totalSize).take n ++ p.chunk.drop n).length = desired := by
    simp only [length_append, length_take, length_drop]
    omega
  have hfirst : ((data.drop p.totalSize).take n ++ p.chunk.drop n).take n =
      (data.drop p.totalSize).take n := by
    refine take_left' ?_
    simp only [length_take, length_drop]
    omega
  obtain ⟨chunk, hpad, hpadded, htake⟩ := padChunk_eq (n := n) hk (hlength ▸ hsize)
  have hextract : extract chunk (chunkSizeWithPadding k n) = .ok (chunk.take (chunkSizeWithPadding k n)) := by
    rw [extract, if_pos (by omega)]
  refine ⟨chunk, by omega, ?_⟩
  simp only [hread, raising_ok, ok_bind, hpad, hextract, htake, hfirst]
  rfl

theorem packFragment_error {encryption : Encryption} {objectId : Bytes} {chunkId fragmentId : Nat}
    {ignore : Bool} {compression : Compression} {algo : Algo} {fragment : Bytes} {err : Exn}
    (h : c.packFragment encryption objectId chunkId fragmentId ignore compression algo fragment =
      .error err) : err = .assertFailure := by
  simp only [Codec.packFragment, bind_eq_error] at h
  rcases h with h | ⟨_, _, h⟩
  · cases encryption with
    | noEncryption => cases h
    | algoWithKey algo key =>
      simp only [Codec.maybeEncrypt, bind_eq_error] at h
      rcases h with h | ⟨_, _, h⟩
      · simp only [Codec.verifyKeyLength, check] at h
        split at h <;> cases h
        rfl
      · cases hmode : algo.mode <;> rw [hmode] at h <;> cases h
  · cases h

theorem chunkToPackedFragments_error {encryption : Encryption} {compression : Compression}
    {algo : Algo} {objectId chunk : Bytes} {chunkId : Nat} {err : Exn}
    (h : chunkToPackedFragments c e encryption compression algo objectId chunkId chunk = .error err) :
    err = .assertFailure := by
  unfold chunkToPackedFragments at h
  split at h
  · rcases bind_eq_error.mp h with h | ⟨_, _, h⟩
    · exact packFragment_error h
    · cases h
  · rcases bind_eq_error.mp h with h | ⟨_, _, h⟩
    · unfold check at h
      split at h <;> cases h
      rfl
    · obtain ⟨_, _, h⟩ := mapM_eq_error h
      exact packFragment_error h

theorem uploadChunk_error {osds : Osds} {chunkId : Nat} {chunk : Bytes} {stop : Stop}
    (h : uploadChunk c e u osds chunkId chunk = .error stop) :
    stop ≠ .diverges ∧ stop ≠ .raised .outOfBounds := by
  simp only [uploadChunk, bind_eq_error] at h
  rcases h with h | ⟨packed, _, h | ⟨_, _, h | ⟨start, _, h⟩⟩⟩
  · exact raising_error h fun herr => by cases chunkToPackedFragments_error herr
  · refine raising_error h fun herr => ?_
    unfold check at herr
    split at herr <;> cases herr
  · refine raising_error h fun herr => ?_
    unfold ChunkUpload.start at herr
    split at herr <;> cases herr
  · unfold ChunkUpload.result at h
    split at h <;> cases h <;> simp

/-- The state of the loop before its last round: whole chunks, without padding. -/
structure Progress.Whole (data : Bytes) (desired : Nat) (p : Progress) (chunks : List Bytes) : Prop where
  buffer : p.chunk.length = desired
  total : p.totalSize ≤ data.length
  hashed : p.hashed = data.take p.totalSize
  bytes : chunks.flatten = data.take p.totalSize

structure Progress.Finished (k : Nat) (data : Bytes) (desired : Nat) (p : Progress)
    (chunks : List Bytes) : Prop where
  total : p.totalSize = data.length
  hashed : p.hashed = data
  cut : ∃ whole position, chunks = whole ++ [Transfer.cut data k desired position] ∧
    position ≤ data.length ∧ whole.flatten = data.take position ∧
    position + cutSize data desired position = data.length ∧ ∀ chunk ∈ whole, chunk.length = desired

theorem length_cut {position : Nat} (hk : 1 ≤ k) :
    (cut data k desired position).length = chunkSizeWithPadding k (cutSize data desired position) := by
  have hle := le_chunkSizeWithPadding (n := cutSize data desired position) hk
  have hmin : cutSize data desired position = min desired (data.length - position) := rfl
  simp only [cut, length_append, length_take, length_drop, length_replicate]
  omega

theorem cut_of_more {position : Nat} (hmultiple : k ≠ 1 → fragmentMultiple * k ∣ desired)
    (hmore : position + cutSize data desired position < data.length) :
    cutSize data desired position = desired ∧
      cut data k desired position = (data.drop position).take desired := by
  have hsize : cutSize data desired position = desired := by
    have hmin : cutSize data desired position = min desired (data.length - position) := rfl
    omega
  refine ⟨hsize, ?_⟩
  simp [cut, hsize, chunkSizeWithPadding_of_dvd hmultiple]

theorem foldChunks_spec (hk : 1 ≤ k) (hmultiple : k ≠ 1 → fragmentMultiple * k ∣ desired)
    (hpos : 0 < data.length → 0 < desired) (fuel : Nat) {p : Progress} {chunks : List Bytes}
    (hfuel : data.length - p.totalSize < fuel) (whole : p.Whole data desired chunks)
    (hsizes : ∀ chunk ∈ chunks, chunk.length = desired) (stored : p.Stored c e u chunks) :
    match foldChunks c e u data desired fuel p with
    | .ok p' => ∃ chunks', p'.Finished k data desired chunks' ∧ p'.Stored c e u chunks'
    | .error stop => stop ≠ .diverges ∧ stop ≠ .raised .outOfBounds := by
  induction fuel generalizing p chunks with
  | zero => omega
  | succ fuel ih =>
    obtain ⟨buffer, hbuffer, hstep⟩ := foldChunk_eq (c := c) (e := e) (u := u) (p := p) hk hmultiple
      whole.buffer whole.total
    have hcut : cutSize data desired p.totalSize = min desired (data.length - p.totalSize) := rfl
    have htotal := whole.total
    rw [foldChunks, hstep]
    cases hupload : uploadChunk c e u p.osds p.chunkId (cut data k desired p.totalSize) with
    | error stop => exact uploadChunk_error hupload
    | ok r =>
      have hstored : Progress.Stored c e u
          { chunk := buffer, osds := r.2
            hashed := p.hashed ++ (data.drop p.totalSize).take (cutSize data desired p.totalSize)
            chunkSizes := (p.chunkId, chunkSizeWithPadding k (cutSize data desired p.totalSize)) ::
              p.chunkSizes
            fragments := r.1 :: p.fragments
            totalSize := p.totalSize + cutSize data desired p.totalSize
            chunkId := p.chunkId + 1 } (chunks ++ [cut data k desired p.totalSize]) :=
        stored.step ⟨⟨r.1, hupload, rfl⟩, by rw [length_cut hk], rfl⟩
      have hhashed : p.hashed ++ (data.drop p.totalSize).take (cutSize data desired p.totalSize) =
          data.take (p.totalSize + cutSize data desired p.totalSize) := by
        rw [whole.hashed, take_add]
      simp only [ok_bind]
      by_cases hmore : p.totalSize + cutSize data desired p.totalSize < data.length
      · obtain ⟨hfull, hbytes⟩ := cut_of_more hmultiple hmore
        have hdesired : 0 < desired := hpos (by omega)
        have hflatten : (chunks ++ [cut data k desired p.totalSize]).flatten =
            data.take (p.totalSize + cutSize data desired p.totalSize) := by
          rw [flatten_append, whole.bytes, flatten_singleton, hbytes, hfull, take_add]
        rw [if_pos (by simpa using hmore)]
        refine ih (by simp only; omega) ⟨hbuffer, hmore.le, hhashed, hflatten⟩ ?_ hstored
        intro chunk hchunk
        rcases mem_append.mp hchunk with hchunk | hchunk
        · exact hsizes chunk hchunk
        · rw [mem_singleton.mp hchunk, length_cut hk, hfull, chunkSizeWithPadding_of_dvd hmultiple]
      · rw [if_neg (by simpa using hmore)]
        have hall : p.totalSize + cutSize data desired p.totalSize = data.length := by omega
        refine ⟨_, ⟨hall, ?_, chunks, p.totalSize, rfl, htotal, whole.bytes, hall, hsizes⟩, hstored⟩
        simp only [hhashed, hall, take_length]

end Loop

section Object

variable {c : Codec} {k m : Nat} {e : Erasure k m} {u : Upload} {data : Bytes} {osds osds' : Osds}
  {manifest : Manifest}

/-- What the manifest of an uploaded object says, and what the osds hold for it. -/
structure ObjectStored (c : Codec) (e : Erasure k m) (u : Upload) (osds : Osds) (manifest : Manifest)
    (chunks : List Bytes) : Prop where
  objectId : manifest.objectId = u.objectId
  scheme : manifest.k = k ∧ manifest.m = m ∧ manifest.compression = u.compression
  encryptInfo : manifest.encryptInfo = fromEncryption c u.encryption
  versionId : manifest.versionId = 0
  chunkSizes : manifest.chunkSizes = chunks.map List.length
  fragments : manifest.fragments.length = chunks.length
  stored : ∀ (j : Nat) chunk fragments, chunks[j]? = some chunk →
    manifest.fragments[j]? = some fragments → ChunkStored c e u osds j chunk fragments
  located : ∀ fragments ∈ manifest.fragments, u.minFragmentCount.toNat ≤ fragments.countP hasOsd

/-- The chunks of an object: its bytes in order, the last chunk with zeros after them. -/
structure CutOf (e : Erasure k m) (maxFragmentSize : Nat) (data : Bytes) (chunks : List Bytes) : Prop where
  bytes : ∃ whole rest padding, chunks = whole ++ [rest ++ List.replicate padding 0] ∧
    data = whole.flatten ++ rest
  multiple : k ≠ 1 → ∀ chunk ∈ chunks, fragmentMultiple * k ∣ chunk.length
  fragment : ∀ chunk ∈ chunks, ∀ f ∈ plainFragments e chunk, f.length ≤ maxFragmentSize

theorem plainFragments_size (hk : 1 ≤ k) {chunk : Bytes} :
    ∀ f ∈ plainFragments e chunk, f.length = chunk.length / k := by
  have hdata : ∀ f ∈ dataFragments chunk k, f.length = chunk.length / k := dataFragments_size
  intro f hf
  unfold plainFragments fragmentsOf at hf
  split at hf
  · rename_i h1
    subst h1
    rw [eq_of_mem_replicate hf, dataFragments_one]
    simp
  · rcases mem_append.mp hf with hf | hf
    · exact hdata f hf
    · exact e.encode_size _ _ dataFragments_length hdata f hf

theorem Progress.Finished.cutOf {p : Progress} {desired maxFragmentSize : Nat} {chunks : List Bytes}
    (h : p.Finished k data desired chunks) (hk : 1 ≤ k)
    (size : ChunkSize data.length maxFragmentSize k desired) : CutOf e maxFragmentSize data chunks := by
  obtain ⟨whole, position, rfl, hle, hflatten, hall, hsizes⟩ := h.cut
  have hcut : cutSize data desired position ≤ desired := Nat.min_le_left _ _
  have hlast := chunkSizeWithPadding_le hk size.multiple hcut
  constructor
  case bytes =>
    refine ⟨whole, (data.drop position).take (cutSize data desired position), _, rfl, ?_⟩
    rw [hflatten, ← take_add, hall, take_length]
  case multiple =>
    intro h1 chunk hchunk
    rcases mem_append.mp hchunk with hchunk | hchunk
    · rw [hsizes chunk hchunk]
      exact size.multiple h1
    · rw [mem_singleton.mp hchunk, length_cut hk]
      exact chunkSizeWithPadding_dvd hk h1
  case fragment =>
    intro chunk hchunk f hf
    have hbound : chunk.length ≤ desired := by
      rcases mem_append.mp hchunk with hchunk | hchunk
      · exact (hsizes chunk hchunk).le
      · rw [mem_singleton.mp hchunk, length_cut hk]
        exact hlast
    rw [plainFragments_size hk f hf]
    exact (Nat.div_le_div_right hbound).trans size.fragment

theorem foldChunks_initial (c : Codec) (e : Erasure k m) (osds : Osds) {desired : Nat} (hk : 1 ≤ k)
    (size : ChunkSize data.length u.maxFragmentSize k desired) :
    match foldChunks c e u data desired (data.length + 1) (Progress.initial c desired osds) with
    | .ok p => ∃ chunks, p.Finished k data desired chunks ∧ p.Stored c e u chunks
    | .error stop => stop ≠ .diverges ∧ stop ≠ .raised .outOfBounds := by
  have hwhole : (Progress.initial c desired osds).Whole data desired [] :=
    ⟨c.length_fresh desired, Nat.zero_le _, rfl, rfl⟩
  have hstored : (Progress.initial c desired osds).Stored c e u [] :=
    ⟨rfl, rfl, rfl, by simp, by simp [Progress.initial]⟩
  refine foldChunks_spec hk size.multiple size.positive (data.length + 1) ?_ hwhole (by simp) hstored
  simp [Progress.initial]

theorem uploadObject_error (hk : 1 ≤ k)
    (hsize : if k = 1 then 1 ≤ u.maxFragmentSize else fragmentMultiple ≤ u.maxFragmentSize)
    {stop : Stop} (h : uploadObject c e u osds data = .error stop) :
    stop ≠ .diverges ∧ stop ≠ .raised .outOfBounds := by
  obtain ⟨desired, hdesired, size⟩ := determineChunkSize_spec data.length hk hsize
  simp only [uploadObject, bind_eq_error] at h
  rcases h with h | ⟨algo, _, h | ⟨desired', hdesired', h | ⟨p, hp, h | ⟨_, _, h⟩⟩⟩⟩
  · refine raising_error h fun herr => ?_
    unfold objectChecksumAlgo at herr
    split at herr
    · cases herr
    · rcases bind_eq_error.mp herr with herr | ⟨_, _, herr⟩
      · unfold check at herr
        split at herr <;> cases herr
      · cases herr
  · rw [hdesired] at h
    cases h
  · obtain rfl : desired = desired' := by simpa [hdesired, raising_ok] using hdesired'
    have hfold := foldChunks_initial c e osds hk size
    rw [h] at hfold
    exact hfold
  · refine raising_error h fun herr => ?_
    unfold manifestChecksum at herr
    split at herr
    · cases herr
    · rcases bind_eq_error.mp herr with herr | ⟨_, _, herr⟩
      · unfold check at herr
        split at herr <;> cases herr
      · cases herr
  · cases h

theorem manifestChecksum_eq {algo : Algo} {checksum : Checksum} {b : Bytes}
    (h : manifestChecksum u (c.hash algo b) = .ok checksum)
    (hverified : u.checksumO = none ∨ u.objectChecksum.verifyUpload) :
    checksum = c.hash checksum.algoOf b := by
  have hsame : checksum = c.hash algo b := by
    unfold manifestChecksum at h
    split at h
    · cases h
      rfl
    · rename_i given hgiven
      obtain ⟨_, hcheck, h⟩ := bind_eq_ok.mp h
      cases h
      have hboth := check_eq_ok.mp hcheck
      have hverify : u.objectChecksum.verifyUpload := by simpa [hgiven] using hverified
      by_contra hne
      exact hboth ⟨hverify, hne⟩
  rw [hsame, c.algoOf_hash]

theorem uploadObject_ok (hk : 1 ≤ k)
    (hsize : if k = 1 then 1 ≤ u.maxFragmentSize else fragmentMultiple ≤ u.maxFragmentSize)
    (h : uploadObject c e u osds data = .ok (manifest, osds')) :
    ∃ chunks, ObjectStored c e u osds' manifest chunks ∧ CutOf e u.maxFragmentSize data chunks ∧
      manifest.size = data.length ∧ (u.checksumO = none ∨ u.objectChecksum.verifyUpload →
        manifest.checksum = c.hash manifest.checksum.algoOf data) := by
  obtain ⟨desired, hdesired, size⟩ := determineChunkSize_spec data.length hk hsize
  simp only [uploadObject, bind_eq_ok, raising_eq_ok] at h
  obtain ⟨algo, _, desired', hdesired', p, hp, checksum, hchecksum, h⟩ := h
  obtain rfl : desired = desired' := by simpa [hdesired] using hdesired'
  have hfold := foldChunks_initial c e osds hk size
  rw [hp] at hfold
  obtain ⟨chunks, finished, stored⟩ := hfold
  cases h
  refine ⟨chunks, ?_, finished.cutOf hk size, finished.total, fun hverified => ?_⟩
  · exact ⟨rfl, ⟨rfl, rfl, rfl⟩, rfl, rfl, stored.sizes, by simpa using stored.length, stored.stored,
      fun fragments hf => stored.located fragments (mem_reverse.mp hf)⟩
  · rw [finished.hashed] at hchecksum
    exact manifestChecksum_eq hchecksum hverified

end Object

section Decode

variable {c : Codec} {k m : Nat} {e : Erasure k m} {size : Nat} {plain : List Bytes}
  {table : List (Nat × Bytes)}

/-- The table holds fragments of one chunk, each under its own number. -/
structure TableOf (plain : List Bytes) (size : Nat) (table : List (Nat × Bytes)) : Prop where
  nodup : (table.map Prod.fst).Nodup
  plain : ∀ i b, (i, b) ∈ table → plain[i]? = some b
  size : ∀ i b, (i, b) ∈ table → b.length = size

/-- What is passed to the decoder for a fragment. -/
def content (c : Codec) (size : Nat) (table : List (Nat × Bytes)) (i : Nat) : Bytes :=
  (table.lookup i).getD (c.fresh size)

def missing (table : List (Nat × Bytes)) (i : Nat) : Bool := (table.lookup i).isNone

theorem mem_of_lookup {i : Nat} {b : Bytes} (h : table.lookup i = some b) : (i, b) ∈ table := by
  induction table with
  | nil => cases h
  | cons head table ih =>
    obtain ⟨j, b'⟩ := head
    rw [lookup_cons] at h
    split at h
    · rename_i hj
      cases h
      simp [beq_iff_eq.mp hj]
    · exact mem_cons_of_mem _ (ih h)

theorem lookup_of_mem {i : Nat} {b : Bytes} (h : (i, b) ∈ table) : (table.lookup i).isSome := by
  induction table with
  | nil => cases h
  | cons head table ih =>
    obtain ⟨j, b'⟩ := head
    rw [lookup_cons]
    split
    · rfl
    · rename_i hj
      rcases mem_cons.mp h with h | h
      · cases h
        simp at hj
      · exact ih h

theorem TableOf.length_content (h : TableOf plain size table) (i : Nat) :
    (content c size table i).length = size := by
  unfold content
  cases hlookup : table.lookup i with
  | none => simp [c.length_fresh]
  | some b => simpa using h.size i b (mem_of_lookup hlookup)

theorem gatherFragments_eq (chunkId : Nat) (hsize : ∀ i b, (i, b) ∈ table → b.length = size)
    (ids : List Nat) (s : List Bytes × List Nat) :
    ids.foldlM (gatherFragment c chunkId size table) s =
      .ok ((ids.map (content c size table)).reverse ++ s.1, (ids.filter (missing table)).reverse ++ s.2) := by
  induction ids generalizing s with
  | nil => rfl
  | cons i ids ih =>
    have hstep : gatherFragment c chunkId size table s i =
        .ok (content c size table i :: s.1, if missing table i then i :: s.2 else s.2) := by
      unfold gatherFragment content missing
      cases hlookup : table.lookup i with
      | none => rfl
      | some b => simp [check, hsize i b (mem_of_lookup hlookup), ok_bind, pure, Except.pure]
    rw [foldlM_cons, hstep, ok_bind, ih]
    by_cases hi : missing table i <;> simp [hi]

theorem TableOf.enough (h : TableOf plain size table) (hplain : plain.length = k + m) :
    table.length ≤ ((List.range (k + m)).filter
      (· ∉ (List.range (k + m)).filter (missing table))).length := by
  have hsub : table.map Prod.fst ⊆
      (List.range (k + m)).filter (· ∉ (List.range (k + m)).filter (missing table)) := by
    intro i hi
    obtain ⟨⟨_, b⟩, hmem, rfl⟩ := mem_map.mp hi
    have hlt := (List.getElem?_eq_some_iff.mp (h.plain _ b hmem)).1
    have hsome := lookup_of_mem hmem
    simp only [mem_filter, mem_range, decide_eq_true_eq, missing]
    refine ⟨by omega, fun hnone => ?_⟩
    rw [Option.isNone_iff_eq_none.mp hnone.2] at hsome
    cases hsome
  simpa using (h.nodup.subperm hsub).length_le

theorem take_fragmentsOf {data : List Bytes} (hdata : data.length = k) :
    (fragmentsOf e.encode k m data).take k = data := by
  unfold fragmentsOf
  split
  · rename_i h1
    subst h1
    obtain ⟨d, rfl⟩ := length_eq_one_iff.mp hdata
    simp [take_replicate]
  · exact take_left' hdata

theorem decodeChunk_eq (c : Codec) (chunkId : Nat) {data : List Bytes} (hk : 1 ≤ k) (hdata : data.length = k)
    (hsize : ∀ d ∈ data, d.length = size)
    (h : TableOf (fragmentsOf e.encode k m data) size table) (henough : k ≤ table.length) :
    decodeChunk c e chunkId table = .ok (data, (fragmentsOf e.encode k m data).drop k) := by
  obtain ⟨⟨i, b⟩, rest, rfl⟩ := exists_cons_of_length_pos (show 0 < table.length by omega)
  have hb : b.length = size := h.size i b (by simp)
  have hrange : List.range (k + m) = List.range k ++ List.range' k m := by
    rw [range_eq_range', range_eq_range', range'_append_1.symm]
    simp
  have hdecode := e.decode_any data size ((List.range (k + m)).filter (missing ((i, b) :: rest)))
    ((List.range (k + m)).map (content c size ((i, b) :: rest))) hdata hsize (by simp)
    (by simpa using fun i _ => h.length_content (c := c) i) (fun j hj hmissing => ?_)
    (henough.trans (h.enough (fragmentsOf_length hdata)))
  · rw [decodeChunk, if_neg (by simpa using henough)]
    simp only [hb, gatherFragments_eq chunkId h.size, ok_bind]
    rw [take_fragmentsOf hdata] at hdecode
    rw [← hdecode, hrange]
    simp [pure, Except.pure, map_append, take_left', drop_left']
  · cases hlookup : List.lookup j ((i, b) :: rest) with
    | none => exact absurd (mem_filter.mpr ⟨mem_range.mpr hj, by simp [missing, hlookup]⟩) hmissing
    | some b' =>
      rw [h.plain j b' (mem_of_lookup hlookup)]
      simp [hj, content, hlookup]

end Decode

section Write

variable {objectSize fragmentSize : Nat}

theorem writeFragments_eq {fragments : List Bytes} {s : Nat × Bytes}
    (hsize : ∀ f ∈ fragments, f.length = fragmentSize) (hoffset : s.1 ≤ objectSize) :
    ∃ offset, fragments.foldlM (writeFragment objectSize fragmentSize) s =
        .ok (offset, s.2 ++ fragments.flatten.take (objectSize - s.1)) ∧
      offset = s.1 + (fragments.flatten.take (objectSize - s.1)).length := by
  induction fragments generalizing s with
  | nil => exact ⟨s.1, by simp [pure, Except.pure], by simp⟩
  | cons f fragments ih =>
    have hf := hsize f (by simp)
    have hstep : writeFragment objectSize fragmentSize s f =
        .ok (s.1 + (f.take (objectSize - s.1)).length, s.2 ++ f.take (objectSize - s.1)) := by
      unfold writeFragment
      by_cases hmore : s.1 + fragmentSize < objectSize
      · have hall : f.take (objectSize - s.1) = f := take_of_length_le (by omega)
        simp only [hmore, if_true]
        rw [check, if_pos ⟨by omega, by omega⟩]
        simp [ok_bind, pure, Except.pure, hall, ← hf]
      · have hn : ((objectSize : Int) - s.1).toNat = objectSize - s.1 := by omega
        simp only [hmore, if_false]
        rw [check, if_pos ⟨by omega, by omega⟩]
        simp only [ok_bind, hn, length_take, pure, Except.pure]
        congr 2
        omega
    have hlength : (f.take (objectSize - s.1)).length = min (objectSize - s.1) f.length :=
      length_take
    obtain ⟨offset, hrest, hoffset'⟩ := ih
      (s := (s.1 + (f.take (objectSize - s.1)).length, s.2 ++ f.take (objectSize - s.1)))
      (fun g hg => hsize g (mem_cons_of_mem f hg)) (by simp only; omega)
    have hleft : objectSize - (s.1 + (f.take (objectSize - s.1)).length) = objectSize - s.1 - f.length := by
      omega
    simp only [hleft] at hrest hoffset'
    refine ⟨offset, ?_, ?_⟩
    · rw [foldlM_cons, hstep, ok_bind, hrest, flatten_cons, take_append, append_assoc]
    · rw [hoffset', flatten_cons, take_append, length_append, Nat.add_assoc]

end Write

section Download

variable {c : Codec} {k m : Nat} {e : Erasure k m} {u : Upload} {data : Bytes} {osds osds' : Osds}
  {manifest : Manifest} {chunks : List Bytes} {chunk : Bytes} {j : Nat} {fragments : List Fragment}

/-- For every chunk at least `k` located fragments, each once. -/
structure Receives (k : Nat) (manifest : Manifest) (received : Nat → List Nat) : Prop where
  nodup : ∀ j, (received j).Nodup
  enough : ∀ j < manifest.fragments.length, k ≤ (received j).length
  located : ∀ (j : Nat) fragments, manifest.fragments[j]? = some fragments → ∀ i ∈ received j,
    ∃ f : Fragment, fragments[i]? = some f ∧ f.osd.isSome

theorem ChunkStored.receive {ids : List Nat} (h : ChunkStored c e u osds j chunk fragments)
    (hids : ∀ i ∈ ids, ∃ f : Fragment, fragments[i]? = some f ∧ f.osd.isSome) :
    ids.mapM (downloadLocated c osds u.encryption u.compression u.objectId k j fragments) =
      .ok (ids.map fun i => (i, (plainFragments e chunk).getD i [])) := by
  refine mapM_of_forall fun i hi => ?_
  obtain ⟨f, hf, hosd⟩ := hids i hi
  obtain ⟨d, hd⟩ := Option.isSome_iff_exists.mp hosd
  obtain ⟨plain, hplain, hread⟩ := h.located i f d hf hd
  simp only [downloadLocated, hf, hd, hread, getD_eq_getElem?_getD, hplain]
  rfl

theorem ChunkStored.tableOf {ids : List Nat} (hk : 1 ≤ k)
    (h : ChunkStored c e u osds j chunk fragments) (hnodup : ids.Nodup)
    (hids : ∀ i ∈ ids, ∃ f : Fragment, fragments[i]? = some f ∧ f.osd.isSome) :
    TableOf (plainFragments e chunk) (chunk.length / k)
      (ids.map fun i => (i, (plainFragments e chunk).getD i [])) := by
  have hplain (i : Nat) (hi : i ∈ ids) :
      (plainFragments e chunk)[i]? = some ((plainFragments e chunk).getD i []) := by
    obtain ⟨f, hf, hosd⟩ := hids i hi
    obtain ⟨d, hd⟩ := Option.isSome_iff_exists.mp hosd
    obtain ⟨plain, hplain, _⟩ := h.located i f d hf hd
    simp [getD_eq_getElem?_getD, hplain]
  constructor
  · simpa [map_map, Function.comp_def] using hnodup
  · intro i b hb
    obtain ⟨i', hi', heq⟩ := mem_map.mp hb
    cases heq
    exact hplain i hi'
  · intro i b hb
    obtain ⟨i', hi', heq⟩ := mem_map.mp hb
    cases heq
    exact plainFragments_size hk _ (mem_of_getElem? (hplain i hi'))

theorem writeChunk_eq {received : Nat → List Nat} {s : Nat × Bytes} (hk : 1 ≤ k)
    (hmultiple : k ∣ chunk.length) (object : ObjectStored c e u osds manifest chunks)
    (hchunk : chunks[j]? = some chunk) (hfragments : manifest.fragments[j]? = some fragments)
    (receives : Receives k manifest received) (hoffset : s.1 ≤ manifest.size) :
    ∃ offset, writeChunk c e manifest osds u.encryption received s (fragments, j) =
        .ok (offset, s.2 ++ chunk.take (manifest.size - s.1)) ∧
      offset = s.1 + (chunk.take (manifest.size - s.1)).length := by
  have hstored := object.stored j chunk fragments hchunk hfragments
  have hids := receives.located j fragments hfragments
  have htable := hstored.tableOf hk (receives.nodup j) hids
  have henough := receives.enough j (List.getElem?_eq_some_iff.mp hfragments).1
  have hsize : manifest.chunkSizes[j]? = some chunk.length := by
    rw [object.chunkSizes, getElem?_map, hchunk]
    rfl
  have hdecode := decodeChunk_eq c j (e := e) hk dataFragments_length dataFragments_size
    htable (by simpa using henough)
  obtain ⟨offset, hwrite, heq⟩ := writeFragments_eq (s := s) dataFragments_size hoffset
  rw [dataFragments_flatten hmultiple] at hwrite heq
  refine ⟨offset, ?_, heq⟩
  simp only [writeChunk, hsize, object.objectId, object.scheme.1, object.scheme.2.2]
  rw [hstored.receive hids, ok_bind, hdecode, ok_bind]
  exact hwrite

/-- After `n` chunks, what they hold of the object has been written. -/
theorem writeChunks_eq {received : Nat → List Nat} (hk : 1 ≤ k)
    (hmultiple : ∀ chunk ∈ chunks, k ∣ chunk.length)
    (object : ObjectStored c e u osds manifest chunks) (receives : Receives k manifest received)
    {n : Nat} (hn : n ≤ chunks.length) :
    ∃ offset, (manifest.fragments.zipIdx.take n).foldlM
        (writeChunk c e manifest osds u.encryption received) (0, []) =
        .ok (offset, (chunks.take n).flatten.take manifest.size) ∧
      offset = ((chunks.take n).flatten.take manifest.size).length := by
  induction n with
  | zero => exact ⟨0, by simp [pure, Except.pure], by simp⟩
  | succ n ih =>
    obtain ⟨offset, hbefore, hoffset⟩ := ih (by omega)
    have hchunk : chunks[n]? = some chunks[n] := getElem?_eq_getElem (by omega)
    have hlength := object.fragments
    have hfragments : manifest.fragments[n]? = some manifest.fragments[n] :=
      getElem?_eq_getElem (by omega)
    have hle : offset ≤ manifest.size := by
      rw [hoffset, length_take]
      omega
    obtain ⟨offset', hwrite, hoffset'⟩ := writeChunk_eq
      (s := (offset, (chunks.take n).flatten.take manifest.size)) hk
      (hmultiple _ (getElem_mem (by omega))) object hchunk hfragments receives hle
    -- what is left of the object is either the same or nothing on both sides
    have hleft : (chunks[n]).take (manifest.size - offset) =
        (chunks[n]).take (manifest.size - (chunks.take n).flatten.length) := by
      congr 1
      rw [hoffset, length_take]
      omega
    have htake : (chunks.take (n + 1)).flatten.take manifest.size =
        (chunks.take n).flatten.take manifest.size ++ (chunks[n]).take (manifest.size - offset) := by
      rw [take_succ_eq_append_getElem (by omega), flatten_append, flatten_singleton,
        take_append, hleft]
    refine ⟨offset', ?_, ?_⟩
    · rw [take_succ_eq_append_getElem (by simpa using (by omega : n < manifest.fragments.length)),
        foldlM_append, hbefore, ok_bind, htake]
      simp only [getElem_zipIdx, Nat.zero_add, foldlM_cons, foldlM_nil, hwrite]
      rfl
    · rw [htake, length_append, ← hoffset, hoffset']

theorem CutOf.dvd {maxFragmentSize : Nat} (h : CutOf e maxFragmentSize data chunks) :
    ∀ chunk ∈ chunks, k ∣ chunk.length := by
  intro chunk hchunk
  by_cases h1 : k = 1
  · simp [h1]
  · exact (Nat.dvd_mul_left k fragmentMultiple).trans (h.multiple h1 chunk hchunk)

/-- An upload ends without leaving its buffer, and what it stored is written back exactly, from any
`k` located fragments of every chunk. -/
theorem upload_download (c : Codec) (e : Erasure k m) (u : Upload) (osds : Osds) (data : Bytes)
    (hk : 1 ≤ k)
    (hsize : if k = 1 then 1 ≤ u.maxFragmentSize else fragmentMultiple ≤ u.maxFragmentSize) :
    uploadObject c e u osds data ≠ .error .diverges ∧
    uploadObject c e u osds data ≠ .error (.raised .outOfBounds) ∧
    ∀ manifest osds', uploadObject c e u osds data = .ok (manifest, osds') →
      (∃ chunks, manifest.chunkSizes = chunks.map List.length ∧
        CutOf e u.maxFragmentSize data chunks) ∧
      ∀ received, Receives k manifest received →
        ∃ verdict, downloadObject c e manifest osds' u.encryption received = .ok (data, verdict) ∧
          (u.checksumO = none ∨ u.objectChecksum.verifyUpload → verdict = .ok ()) := by
  refine ⟨fun h => (uploadObject_error hk hsize h).1 rfl, fun h => (uploadObject_error hk hsize h).2 rfl, ?_⟩
  intro manifest osds' h
  obtain ⟨chunks, object, cutOf, hobject, hchecksum⟩ := uploadObject_ok hk hsize h
  refine ⟨⟨chunks, object.chunkSizes, cutOf⟩, fun received receives => ?_⟩
  obtain ⟨offset, hwrite, _⟩ := writeChunks_eq hk cutOf.dvd object receives le_rfl
  obtain ⟨whole, rest, padding, hchunks, hdata⟩ := cutOf.bytes
  have hwritten : chunks.flatten.take manifest.size = data := by
    rw [hobject, hchunks, flatten_append, flatten_singleton, ← append_assoc, ← hdata,
      take_left]
  rw [take_of_length_le (by simp [object.fragments]), take_length, hwritten] at hwrite
  refine ⟨_, by rw [downloadObject, object.encryptInfo, getEncryption_fromEncryption, ok_bind, hwrite]; rfl,
    fun hverified => ?_⟩
  exact check_eq_ok.mpr (hchecksum hverified)

end Download

section Sample

/-- Forty bytes in two chunks, the second one padded. -/
theorem upload_download_padded : ∃ manifest osds verdict,
    uploadObject markCodec xorParity sampleUpload (fun _ _ => none) sampleData = .ok (manifest, osds) ∧
      downloadObject markCodec xorParity manifest osds sampleUpload.encryption (fun _ => [0, 1]) =
        .ok (sampleData, verdict) := by
  have hchecked : (match uploadObject markCodec xorParity sampleUpload (fun _ _ => none) sampleData with
      | .ok (manifest, _) => manifest.fragments.all fun fragments =>
          [0, 1].all fun i => (fragments[i]?).any fun f => f.osd.isSome
      | .error _ => false) = true := by decide +kernel
  split at hchecked
  · rename_i manifest osds hupload
    have hreceives : Receives 2 manifest fun _ => [0, 1] := by
      refine ⟨by simp, by simp, fun j fragments hj i hi => ?_⟩
      have hall := all_eq_true.mp hchecked fragments (mem_of_getElem? hj)
      simpa [Option.any_eq_true] using all_eq_true.mp hall i hi
    obtain ⟨_, _, hdownload⟩ := upload_download markCodec xorParity sampleUpload (fun _ _ => none)
      sampleData (by decide) (by decide)
    obtain ⟨verdict, hwritten, _⟩ := (hdownload manifest osds hupload).2 _ hreceives
    exact ⟨manifest, osds, verdict, hupload, hwritten⟩
  · cases hchecked

end Sample

end Alba.Transfer
