import Alba.Transfer.Codec

/-! How an object is cut: `Fragment_size_helper.determine_chunk_size`, the padding of the last chunk and
the fragments of a chunk. -/

namespace Alba.Transfer

open ProofKit Nsm List

def fragmentMultiple : Nat := 16

def roundDownToMultiple (x y : Nat) : Nat := x / y * y

def roundUpToMultiple (x y : Nat) : Nat :=
  let r := x % y
  if r = 0 then x else x - r + y

def determineChunkSize (objectLength maxFragmentSize k : Nat) : Except Exn Nat :=
  if k = 1 then .ok (min objectLength (maxFragmentSize * k))
  else do
    let erasureCodingMaxFragmentSize := roundDownToMultiple maxFragmentSize fragmentMultiple
    check (0 < erasureCodingMaxFragmentSize) .assertFailure
    let maxChunkSize := erasureCodingMaxFragmentSize * k
    return if maxChunkSize < objectLength then maxChunkSize
      else roundUpToMultiple objectLength (k * fragmentMultiple)

def chunkSizeWithPadding (k chunkSize : Nat) : Nat :=
  let kf := fragmentMultiple * k
  if chunkSize % kf = 0 ∨ k = 1 then chunkSize else (chunkSize / kf + 1) * kf

theorem roundUpToMultiple_spec {x y : Nat} (hy : 0 < y) :
    y ∣ roundUpToMultiple x y ∧ x ≤ roundUpToMultiple x y ∧
      ∀ z, y ∣ z → x ≤ z → roundUpToMultiple x y ≤ z := by
  have hr := Nat.mod_lt x hy
  have hdiv := Nat.div_add_mod x y
  unfold roundUpToMultiple
  dsimp only
  split
  · rename_i h0
    exact ⟨Nat.dvd_of_mod_eq_zero h0, le_rfl, fun z _ hz => hz⟩
  · have hx : x - x % y + y = y * (x / y + 1) := by
      rw [Nat.mul_add, Nat.mul_one]
      omega
    rw [hx]
    refine ⟨Nat.dvd_mul_right _ _, by rw [Nat.mul_add, Nat.mul_one]; omega, ?_⟩
    rintro z ⟨q, rfl⟩ hz
    refine Nat.mul_le_mul_left y ?_
    by_contra hq
    have hle : y * q ≤ y * (x / y) := Nat.mul_le_mul_left y (by omega)
    omega

theorem chunkSizeWithPadding_eq {k : Nat} (hk : k ≠ 1) (chunkSize : Nat) :
    chunkSizeWithPadding k chunkSize = roundUpToMultiple chunkSize (fragmentMultiple * k) := by
  have hdiv := Nat.div_add_mod chunkSize (fragmentMultiple * k)
  unfold chunkSizeWithPadding roundUpToMultiple
  simp only [hk, or_false]
  split
  · rfl
  · rw [Nat.add_mul, Nat.one_mul, Nat.mul_comm (chunkSize / _)]
    omega

theorem chunkSizeWithPadding_one (chunkSize : Nat) : chunkSizeWithPadding 1 chunkSize = chunkSize := by
  simp [chunkSizeWithPadding]

/-- What is known about the size of the buffer of an upload. -/
structure ChunkSize (objectLength maxFragmentSize k desired : Nat) : Prop where
  positive : 0 < objectLength → 0 < desired
  multiple : k ≠ 1 → fragmentMultiple * k ∣ desired
  fragment : desired / k ≤ maxFragmentSize
  covers : k ≠ 1 → desired < objectLength ∨ roundUpToMultiple objectLength (fragmentMultiple * k) ≤ desired

theorem determineChunkSize_spec (objectLength : Nat) {maxFragmentSize k : Nat} (hk : 1 ≤ k)
    (hsize : if k = 1 then 1 ≤ maxFragmentSize else fragmentMultiple ≤ maxFragmentSize) :
    ∃ desired, determineChunkSize objectLength maxFragmentSize k = .ok desired ∧
      ChunkSize objectLength maxFragmentSize k desired := by
  by_cases h1 : k = 1
  · subst h1
    simp only [if_true] at hsize
    refine ⟨min objectLength (maxFragmentSize * 1), by simp [determineChunkSize], ?_⟩
    constructor
    · omega
    · simp
    · simp
    · simp
  · simp only [h1, if_false] at hsize
    have hmultiple : 0 < fragmentMultiple := by decide
    have hdown : roundDownToMultiple maxFragmentSize fragmentMultiple ≤ maxFragmentSize :=
      Nat.div_mul_le_self _ _
    have hpos : 0 < roundDownToMultiple maxFragmentSize fragmentMultiple :=
      Nat.mul_pos (Nat.div_pos hsize hmultiple) hmultiple
    have hdvd : fragmentMultiple * k ∣
        roundDownToMultiple maxFragmentSize fragmentMultiple * k :=
      Nat.mul_dvd_mul_right (Nat.dvd_mul_left _ _) k
    have hkf : 0 < fragmentMultiple * k := Nat.mul_pos hmultiple hk
    obtain ⟨hup, hle, hleast⟩ := roundUpToMultiple_spec (x := objectLength) hkf
    rw [determineChunkSize, if_neg h1]
    simp only [check, hpos, if_true]
    refine ⟨_, rfl, ?_⟩
    by_cases hmax : roundDownToMultiple maxFragmentSize fragmentMultiple * k < objectLength
    · rw [if_pos hmax]
      constructor
      · intro _
        exact Nat.mul_pos hpos hk
      · intro _
        exact hdvd
      · rwa [Nat.mul_div_cancel _ hk]
      · intro _
        exact .inl hmax
    · rw [if_neg hmax, Nat.mul_comm k]
      constructor
      · omega
      · intro _
        exact hup
      · have hbound := hleast _ hdvd (Nat.le_of_not_lt hmax)
        calc roundUpToMultiple objectLength (fragmentMultiple * k) / k
            ≤ roundDownToMultiple maxFragmentSize fragmentMultiple * k / k :=
              Nat.div_le_div_right hbound
          _ = roundDownToMultiple maxFragmentSize fragmentMultiple := Nat.mul_div_cancel _ hk
          _ ≤ maxFragmentSize := hdown
      · intro _
        exact .inr le_rfl

section Fragments

def chunkToDataFragments (chunk : Bytes) (fragmentSize : Nat) : Nat → List Bytes → List Bytes
  | 0, acc => acc
  | n + 1, acc =>
    chunkToDataFragments chunk fragmentSize n ((chunk.drop (n * fragmentSize)).take fragmentSize :: acc)

def dataFragments (chunk : Bytes) (k : Nat) : List Bytes :=
  chunkToDataFragments chunk (chunk.length / k) k []

theorem chunkToDataFragments_flatten (chunk : Bytes) (fragmentSize n : Nat) (acc : List Bytes) :
    (chunkToDataFragments chunk fragmentSize n acc).flatten =
      chunk.take (n * fragmentSize) ++ acc.flatten := by
  induction n generalizing acc with
  | zero => simp [chunkToDataFragments]
  | succ n ih =>
    rw [chunkToDataFragments, ih, flatten_cons, ← append_assoc, Nat.add_mul, Nat.one_mul,
      take_add]

theorem chunkToDataFragments_length (chunk : Bytes) (fragmentSize n : Nat) (acc : List Bytes) :
    (chunkToDataFragments chunk fragmentSize n acc).length = n + acc.length := by
  induction n generalizing acc with
  | zero => simp [chunkToDataFragments]
  | succ n ih =>
    rw [chunkToDataFragments, ih, length_cons]
    omega

theorem chunkToDataFragments_size {chunk : Bytes} {fragmentSize n : Nat} {acc : List Bytes}
    (hn : n * fragmentSize ≤ chunk.length) (hacc : ∀ f ∈ acc, f.length = fragmentSize) :
    ∀ f ∈ chunkToDataFragments chunk fragmentSize n acc, f.length = fragmentSize := by
  induction n generalizing acc with
  | zero => simpa [chunkToDataFragments] using hacc
  | succ n ih =>
    rw [Nat.add_mul, Nat.one_mul] at hn
    refine ih (by omega) (forall_mem_cons.mpr ⟨?_, hacc⟩)
    rw [length_take, length_drop]
    omega

variable {k : Nat} {chunk : Bytes}

theorem dataFragments_length : (dataFragments chunk k).length = k := by
  simp [dataFragments, chunkToDataFragments_length]

theorem dataFragments_size : ∀ f ∈ dataFragments chunk k, f.length = chunk.length / k :=
  chunkToDataFragments_size (Nat.mul_div_le _ _) (by simp)

theorem dataFragments_flatten (hk : k ∣ chunk.length) : (dataFragments chunk k).flatten = chunk := by
  rw [dataFragments, chunkToDataFragments_flatten, Nat.mul_div_cancel' hk]
  simp

end Fragments

section Pack

variable (c : Codec) {k m : Nat} (e : Erasure k m) (encryption : Encryption) (compression : Compression)
  (checksumAlgo : Algo) (objectId : Bytes) (chunkId : Nat)

def plainFragments (chunk : Bytes) : List Bytes := fragmentsOf e.encode k m (dataFragments chunk k)

/-- The packed fragments of a chunk, by fragment id. Replicas share one packed fragment, whose vector
leaves the fragment id out. -/
def chunkToPackedFragments (chunk : Bytes) : Except Exn (List Codec.Packed) :=
  if k = 1 then do
    let packed ← c.packFragment encryption objectId chunkId 0 true compression checksumAlgo chunk
    return List.replicate (k + m) packed
  else do
    check (chunk.length % (fragmentMultiple * k) = 0) .assertFailure
    let data := dataFragments chunk k
    (data ++ e.encode data).zipIdx.mapM fun (fragment, fragmentId) =>
      c.packFragment encryption objectId chunkId fragmentId false compression checksumAlgo fragment

variable {c e encryption compression checksumAlgo objectId chunkId} {chunk : Bytes}
  {packed : List Codec.Packed}

theorem fragmentsOf_length {data : List Bytes} (hdata : data.length = k) :
    (fragmentsOf e.encode k m data).length = k + m := by
  unfold fragmentsOf
  split
  · simp
  · simp [hdata, e.encode_length data hdata]

theorem plainFragments_length : (plainFragments e chunk).length = k + m :=
  fragmentsOf_length dataFragments_length

/-- A packed fragment, read with the `k` of the object, is the plain fragment of its place. -/
def Readable (c : Codec) (encryption : Encryption) (compression : Compression) (objectId : Bytes)
    (k chunkId fragmentId : Nat) (p : Codec.Packed) (plain : Bytes) : Prop :=
  c.unpackFragment encryption objectId chunkId fragmentId (k == 1) compression p.checksum p.ctr
    p.bytes = .ok plain

theorem dataFragments_one : dataFragments chunk 1 = [chunk] := by
  simp [dataFragments, chunkToDataFragments]

theorem chunkToPackedFragments_readable
    (h : chunkToPackedFragments c e encryption compression checksumAlgo objectId chunkId chunk =
      .ok packed) :
    packed.length = k + m ∧ ∀ i p plain, packed[i]? = some p → (plainFragments e chunk)[i]? = some plain →
      Readable c encryption compression objectId k chunkId i p plain := by
  unfold chunkToPackedFragments at h
  split at h
  · rename_i hk
    subst hk
    obtain ⟨p, hpack, h⟩ := bind_eq_ok.mp h
    cases h
    refine ⟨by simp, fun i q plain hq hplain => ?_⟩
    rw [plainFragments, fragmentsOf, if_pos rfl, dataFragments_one] at hplain
    obtain rfl := eq_of_mem_replicate (mem_of_getElem? hq)
    obtain rfl := eq_of_mem_replicate (mem_of_getElem? hplain)
    exact Codec.unpackFragment_of_packFragment hpack fun _ => rfl
  · rename_i hk
    obtain ⟨_, _, h⟩ := bind_eq_ok.mp h
    have hrows := mapM_eq_ok h
    have hlength := hrows.length_eq
    rw [length_zipIdx] at hlength
    have hplain : plainFragments e chunk = dataFragments chunk k ++ e.encode (dataFragments chunk k) := by
      rw [plainFragments, fragmentsOf, if_neg hk]
    rw [← hplain] at hlength hrows
    refine ⟨by rw [← hlength, plainFragments_length], fun i p plain hp hi => ?_⟩
    obtain ⟨_, hget⟩ := forall₂_iff_get.mp hrows
    obtain ⟨hi', rfl⟩ := List.getElem?_eq_some_iff.mp hi
    obtain ⟨hp', rfl⟩ := List.getElem?_eq_some_iff.mp hp
    have hpack := hget i (by simpa using hi') hp'
    simp only [get_eq_getElem, getElem_zipIdx, Nat.zero_add] at hpack
    exact Codec.unpackFragment_of_packFragment hpack fun _ => by simp [Codec.ivNumber, hk]

end Pack

end Alba.Transfer
