import Alba.Nsm.Layouts
import Alba.ProofKit.Groups

/-! How the manifest of an object is rebuilt after its nsm host is lost. The recovery infos of its
fragments are grouped by chunk and fragment, and in every chunk the info with the highest version tells
the checksums and the sizes. -/

namespace Alba.Recovery

open ProofKit Nsm Std List

structure ObjectInfo where
  storageScheme : StorageScheme
  size : BitVec 64
  checksum : Checksum
  timestamp : Timestamp
  deriving DecidableEq

def ObjectInfo.width (info : ObjectInfo) : Nat := (info.storageScheme.k + info.storageScheme.m).toNat

structure RecoveryInfo where
  name : Bytes
  chunkSize : Int
  fragmentSizes : List Int
  fragmentChecksums : List Checksum
  fragmentCtr : Option Bytes
  objectInfoO : Option ObjectInfo
  deriving DecidableEq

structure FragmentInfo where
  objectId : Bytes
  chunkId : Nat
  fragmentId : Nat
  versionId : Int32
  recoveryInfo : RecoveryInfo
  osdId : OsdId
  deriving DecidableEq

/-- The order in which a hash table lists the fragments of a chunk. -/
structure HashOrder where
  list : List (Nat × List FragmentInfo) → List (Nat × List FragmentInfo)
  perm : ∀ l, (list l).Perm l

def hdExn {α : Type} : List α → Except Exn α
  | [] => .error .failure
  | a :: _ => .ok a

def sortVersion (infos : List FragmentInfo) : List FragmentInfo :=
  infos.insertionSort fun i0 i1 => i1.versionId.toInt ≤ i0.versionId.toInt

/-- The infos of an object by chunk, in the order of the chunks, one for each fragment. -/
def chunksOf (order : HashOrder) (acc : List FragmentInfo) :
    Except Exn (List (Nat × List FragmentInfo)) :=
  (groupBy FragmentInfo.chunkId acc).toList.mapM fun c => do
    let best ← (order.list (groupBy FragmentInfo.fragmentId c.2).toList).mapM fun infos =>
      hdExn (sortVersion infos.2)
    return (c.1, best)

def findFragment (chunkFragments : List FragmentInfo) (fragmentId : Nat) : Option FragmentInfo :=
  chunkFragments.find? fun f => f.fragmentId = fragmentId

def locationIn (chunkFragments : List FragmentInfo) (fragmentId : Nat) : Loc :=
  (findFragment chunkFragments fragmentId).elim (none, 0) fun f => (some f.osdId, f.versionId)

def ctrIn (chunkFragments : List FragmentInfo) (fragmentId : Nat) : Option Bytes :=
  (findFragment chunkFragments fragmentId).bind fun f => f.recoveryInfo.fragmentCtr

/-- Where the fragments of a chunk are; at least `k` of them must have been found. -/
def fragmentLocations (k : Int) (n : Nat) (chunkFragments : List FragmentInfo) :
    Except Exn (List Loc) := do
  let found := (List.range n).filterMap (findFragment chunkFragments)
  check (k ≤ found.length) .assertFailure
  return (List.range n).map (locationIn chunkFragments)

def fragmentCtrs (fs : List (Nat × List FragmentInfo)) (n : Nat) (chunkId : Nat) :
    Except Exn (List (Option Bytes)) :=
  match fs.find? fun c => c.1 = chunkId with
  | none => .error .keyNotFound
  | some c => .ok ((List.range n).map (ctrIn c.2))

def maxVersion (fs : List (Nat × List FragmentInfo)) : Int32 :=
  fs.foldl (fun maxV c => c.2.foldl (fun maxV f =>
    if maxV.toInt < f.versionId.toInt then f.versionId else maxV) maxV) 0

/-- The fragments of a manifest that is sent are counted in 32 bits. -/
def makeManifest (encryptInfo : EncryptInfo) (name objectId : Bytes) (info : ObjectInfo)
    (chunkSizes : List Int) (fragments : Layout Fragment) (versionId : Int32) :
    Except Exn Manifest :=
  if h : fragments.length < 2 ^ 31 ∧ ∀ chunk ∈ fragments, chunk.length < 2 ^ 31 then .ok
    { name, objectId, storageScheme := info.storageScheme, encryptInfo, chunkSizes
      size := info.size, checksum := info.checksum, fragments, versionId
      maxDisksPerNode := 100, timestamp := info.timestamp, counted := h }
  else .error .invalidArgument

def rebuild (order : HashOrder) (encryptInfo : EncryptInfo) (acc : List FragmentInfo) :
    Except Exn Manifest := do
  let fs ← chunksOf order acc
  let (lastChunkId, lastChunk) ← fs.getLast?.elim (.error .failure) .ok
  let x ← hdExn lastChunk
  -- only the last chunk tells about the object
  let info ← x.recoveryInfo.objectInfoO.elim (.error .failure) .ok
  check (fs.length = lastChunkId + 1) .assertFailure
  let reduced ← fs.mapM fun c => hdExn (sortVersion c.2)
  let n := info.width
  let locations ← fs.mapM fun c => fragmentLocations info.storageScheme.k n c.2
  let ctrs ← (List.range fs.length).mapM (fragmentCtrs fs n)
  let fragments ← Layout.map4 Fragment.make' locations
    (reduced.map fun f => f.recoveryInfo.fragmentChecksums)
    (reduced.map fun f => f.recoveryInfo.fragmentSizes) ctrs
  makeManifest encryptInfo x.recoveryInfo.name x.objectId info
    (reduced.map fun f => f.recoveryInfo.chunkSize) fragments (maxVersion fs)

section Versions

/-- The first info after sorting is one with the highest version. -/
structure IsTop (infos : List FragmentInfo) (f : FragmentInfo) : Prop where
  mem : f ∈ infos
  highest : ∀ i ∈ infos, i.versionId.toInt ≤ f.versionId.toInt

theorem hdExn_sortVersion {infos : List FragmentInfo} (h : infos ≠ []) :
    ∃ f, hdExn (sortVersion infos) = .ok f ∧ IsTop infos f := by
  have hsorted : (sortVersion infos).Pairwise fun i0 i1 => i1.versionId.toInt ≤ i0.versionId.toInt := by
    have : Std.Total fun i0 i1 : FragmentInfo => i1.versionId.toInt ≤ i0.versionId.toInt :=
      ⟨fun a b => by omega⟩
    have : IsTrans FragmentInfo fun i0 i1 => i1.versionId.toInt ≤ i0.versionId.toInt :=
      ⟨fun a b c hab hbc => by omega⟩
    exact pairwise_insertionSort _ infos
  have hperm : (sortVersion infos).Perm infos := perm_insertionSort _ infos
  cases hs : sortVersion infos with
  | nil =>
    rw [hs] at hperm
    exact absurd hperm.nil_eq.symm h
  | cons f rest =>
    rw [hs] at hperm hsorted
    refine ⟨f, rfl, hperm.subset mem_cons_self, fun i hi => ?_⟩
    rcases mem_cons.mp (hperm.symm.subset hi) with rfl | hi
    · exact le_rfl
    · exact (pairwise_cons.mp hsorted).1 i hi

end Versions

section Chunks

variable {acc : List FragmentInfo}

/-- The infos that are kept of a chunk: some of those that were gathered, for every fragment one that no
other one surpasses in version. -/
structure IsBest (infos best : List FragmentInfo) : Prop where
  mem : ∀ f ∈ best, f ∈ infos
  best : ∀ i ∈ infos, ∃ f ∈ best, f.fragmentId = i.fragmentId ∧ i.versionId.toInt ≤ f.versionId.toInt

theorem mem_toList_groupBy {κ : Type} [Ord κ] [TransOrd κ] [LawfulEqOrd κ] [DecidableEq κ]
    {f : FragmentInfo → κ} {l : List FragmentInfo} {g : κ × List FragmentInfo}
    (h : g ∈ (groupBy f l).toList) : (∀ i, i ∈ g.2 ↔ i ∈ l ∧ f i = g.1) ∧ g.2 ≠ [] := by
  obtain ⟨hgroup, hne⟩ :=
    getElem?_groupBy.mp (ExtTreeMap.mem_toList_iff_getElem?_eq_some.mp h)
  refine ⟨fun i => ?_, hne⟩
  rw [hgroup, mem_reverse, mem_filter, decide_eq_true_iff]

theorem best_of_chunk (order : HashOrder) (infos : List FragmentInfo) :
    ∃ best, (order.list (groupBy FragmentInfo.fragmentId infos).toList).mapM
      (fun g => hdExn (sortVersion g.2)) = .ok best ∧ IsBest infos best := by
  have hmem : ∀ g, g ∈ order.list (groupBy FragmentInfo.fragmentId infos).toList ↔
      g ∈ (groupBy FragmentInfo.fragmentId infos).toList := fun g => (order.perm _).mem_iff
  obtain ⟨best, hbest⟩ := mapM_of_exists (f := fun g : Nat × List FragmentInfo =>
      hdExn (sortVersion g.2)) fun g hg => by
    obtain ⟨f, hf, _⟩ := hdExn_sortVersion (mem_toList_groupBy ((hmem g).mp hg)).2
    exact ⟨f, hf⟩
  obtain ⟨hfrom, hto⟩ := mapM_mem hbest
  refine ⟨best, hbest, fun f hf => ?_, fun i hi => ?_⟩
  · obtain ⟨g, hg, hgf⟩ := hfrom f hf
    obtain ⟨hgroup, hne⟩ := mem_toList_groupBy ((hmem g).mp hg)
    obtain ⟨f', hf', htop⟩ := hdExn_sortVersion hne
    obtain rfl : f' = f := Except.ok.inj (hf'.symm.trans hgf)
    exact ((hgroup f').mp htop.mem).1
  · have hkey : i.fragmentId ∈ groupBy FragmentInfo.fragmentId infos := mem_groupBy.mpr ⟨i, hi, rfl⟩
    obtain ⟨group, hget⟩ :=
      Option.isSome_iff_exists.mp (ExtTreeMap.mem_iff_isSome_getElem?.mp hkey)
    have hg := ExtTreeMap.mem_toList_iff_getElem?_eq_some.mpr hget
    obtain ⟨hgroup, hne⟩ := mem_toList_groupBy hg
    obtain ⟨f, hf, htop⟩ := hdExn_sortVersion hne
    obtain ⟨f', hf', hgf'⟩ := hto _ ((hmem _).mpr hg)
    obtain rfl : f = f' := Except.ok.inj (hf.symm.trans hgf')
    exact ⟨f, hf', ((hgroup f).mp htop.mem).2, htop.highest i ((hgroup i).mpr ⟨hi, rfl⟩)⟩

def inChunk (acc : List FragmentInfo) (chunkId : Nat) : List FragmentInfo :=
  acc.filter fun i => i.chunkId = chunkId

theorem mem_inChunk {chunkId : Nat} {i : FragmentInfo} :
    i ∈ inChunk acc chunkId ↔ i ∈ acc ∧ i.chunkId = chunkId := by
  rw [inChunk, mem_filter, decide_eq_true_iff]

/-- The chunks of an object that was found completely. -/
def Complete (acc : List FragmentInfo) (n : Nat) : Prop :=
  ∀ chunkId, (∃ i ∈ acc, i.chunkId = chunkId) ↔ chunkId < n

theorem Complete.keys {n : Nat} (h : Complete acc n) :
    (groupBy FragmentInfo.chunkId acc).toList.map Prod.fst = List.range n := by
  rw [ExtTreeMap.map_fst_toList_eq_keys]
  have hkeys : (groupBy FragmentInfo.chunkId acc).keys.Pairwise (· < ·) :=
    ExtTreeMap.ordered_keys.imp fun hlt => compare_lt_iff_lt.mp hlt
  refine List.Perm.eq_of_pairwise (fun a b _ _ hab hba => absurd (hab.trans hba) (Nat.lt_irrefl a))
    hkeys pairwise_lt_range ?_
  refine (perm_ext_iff_of_nodup (hkeys.imp Nat.ne_of_lt) nodup_range).mpr fun c => ?_
  rw [ExtTreeMap.mem_keys, mem_groupBy, mem_range]
  exact h c

theorem chunksOf_of_complete (order : HashOrder) {n : Nat} (h : Complete acc n) :
    ∃ best : Nat → List FragmentInfo,
      chunksOf order acc = .ok ((List.range n).map fun c => (c, best c)) ∧
        ∀ c, IsBest (inChunk acc c) (best c) := by
  choose best hbest hspec using fun c => best_of_chunk order (inChunk acc c).reverse
  have hrev : ∀ c, IsBest (inChunk acc c) (best c) := fun c =>
    ⟨fun f hf => mem_reverse.mp ((hspec c).mem f hf),
      fun i hi => (hspec c).best i (mem_reverse.mpr hi)⟩
  refine ⟨best, ?_, hrev⟩
  rw [chunksOf, mapM_of_forall (g := fun c => (c.1, best c.1)) fun c hc => ?_, ← h.keys, map_map]
  · rfl
  · have hgroup := (getElem?_groupBy.mp (ExtTreeMap.mem_toList_iff_getElem?_eq_some.mp hc)).1
    have hchunk : c.2 = (inChunk acc c.1).reverse := hgroup
    rw [hchunk, hbest, ok_bind]
    rfl

end Chunks

section Manifests

variable {α β γ δ ε : Type} {n : Nat}

theorem map4_of_length {f : α → β → γ → δ → Except Exn ε} {P : Nat → ε → Prop} (as : List α)
    (bs : List β) (cs : List γ) (ds : List δ) (hb : bs.length = as.length)
    (hc : cs.length = as.length) (hd : ds.length = as.length)
    (h : ∀ i a b c d, as[i]? = some a → bs[i]? = some b → cs[i]? = some c → ds[i]? = some d →
      ∃ e, f a b c d = .ok e ∧ P i e) :
    ∃ es, map4 f as bs cs ds = .ok es ∧ es.length = as.length ∧ ∀ i e, es[i]? = some e → P i e := by
  induction as generalizing bs cs ds P with
  | nil =>
    obtain rfl := length_eq_zero_iff.mp hb
    obtain rfl := length_eq_zero_iff.mp hc
    obtain rfl := length_eq_zero_iff.mp hd
    exact ⟨[], rfl, rfl, by simp⟩
  | cons a as ih =>
    obtain ⟨b, bs, rfl⟩ := exists_cons_of_length_eq_add_one hb
    obtain ⟨c, cs, rfl⟩ := exists_cons_of_length_eq_add_one hc
    obtain ⟨d, ds, rfl⟩ := exists_cons_of_length_eq_add_one hd
    obtain ⟨e, he, hP⟩ := h 0 a b c d rfl rfl rfl rfl
    obtain ⟨es, hes, hlength, hall⟩ := ih (P := fun i => P (i + 1)) bs cs ds
      (Nat.succ.inj hb) (Nat.succ.inj hc) (Nat.succ.inj hd) fun i => h (i + 1)
    refine ⟨e :: es, by rw [map4, he, ok_bind, hes]; rfl, congrArg (· + 1) hlength, fun i e' he' => ?_⟩
    cases i with
    | zero =>
      cases he'
      exact hP
    | succ i => exact hall i e' he'

theorem findFragment_isSome {infos best : List FragmentInfo} (h : IsBest infos best) {fragmentId : Nat} :
    (findFragment best fragmentId).isSome ↔ ∃ i ∈ infos, i.fragmentId = fragmentId := by
  rw [findFragment, find?_isSome]
  constructor
  · rintro ⟨f, hf, hid⟩
    exact ⟨f, h.mem f hf, of_decide_eq_true hid⟩
  · rintro ⟨i, hi, rfl⟩
    obtain ⟨f, hf, hid, _⟩ := h.best i hi
    exact ⟨f, hf, decide_eq_true hid⟩

def fragmentCount (acc : List FragmentInfo) (n chunkId : Nat) : Nat :=
  (((inChunk acc chunkId).map FragmentInfo.fragmentId).toFinset.filter (· < n)).card

theorem length_found {acc best : List FragmentInfo} {n chunkId : Nat}
    (h : IsBest (inChunk acc chunkId) best) :
    ((List.range n).filterMap (findFragment best)).length = fragmentCount acc n chunkId := by
  have hfilter : ((List.range n).filterMap (findFragment best)).length =
      ((List.range n).filter fun i => (findFragment best i).isSome).length := by
    rw [length_filterMap_eq_countP, countP_eq_length_filter]
  rw [hfilter, ← toFinset_card_of_nodup (nodup_range.filter _), fragmentCount]
  congr 1
  ext i
  simp only [mem_toFinset, mem_filter, mem_range, findFragment_isSome h,
    Finset.mem_filter, mem_map]
  exact And.comm

/-- The infos of an object are enough: all its chunks are there, the last one with the info about the
object, and every chunk has at least `k` different fragments. The rest is how infos are written: they have
a size and a checksum for each of the `k + m` fragments of a chunk, and numbers of 32 bits. -/
structure Recoverable (acc : List FragmentInfo) (n : Nat) (info : ObjectInfo) : Prop where
  complete : Complete acc n
  positive : 0 < n
  last : ∀ i ∈ inChunk acc (n - 1), i.recoveryInfo.objectInfoO = some info
  enough : ∀ chunkId < n, info.storageScheme.k ≤ fragmentCount acc info.width chunkId
  sizes : ∀ i ∈ acc, i.recoveryInfo.fragmentSizes.length = info.width
  checksums : ∀ i ∈ acc, i.recoveryInfo.fragmentChecksums.length = info.width
  counted : n < 2 ^ 31 ∧ info.width < 2 ^ 31

theorem Recoverable.of_mem_iff {acc acc' : List FragmentInfo} {info : ObjectInfo}
    (h : Recoverable acc n info) (hmem : ∀ i, i ∈ acc' ↔ i ∈ acc) : Recoverable acc' n info := by
  have hchunk : ∀ c i, i ∈ inChunk acc' c ↔ i ∈ inChunk acc c := fun c i => by
    rw [mem_inChunk, mem_inChunk, hmem]
  have hcount : ∀ size c, fragmentCount acc' size c = fragmentCount acc size c := fun size c => by
    unfold fragmentCount
    congr 2
    ext fragmentId
    simp only [mem_toFinset, mem_map, hchunk]
  exact
    { complete := fun c => by simpa only [hmem] using h.complete c
      positive := h.positive
      last := fun i hi => h.last i ((hchunk _ i).mp hi)
      enough := fun c hc => by simpa only [hcount] using h.enough c hc
      sizes := fun i hi => h.sizes i ((hmem i).mp hi)
      checksums := fun i hi => h.checksums i ((hmem i).mp hi)
      counted := h.counted }

/-- What the manifest is made of: `x` is one of the infos of the last chunk, `best` are the infos that were
kept of each chunk and `top` is the one that tells about the whole chunk. -/
structure RebuiltFrom (acc : List FragmentInfo) (n : Nat) (info : ObjectInfo) (x : FragmentInfo)
    (best : Nat → List FragmentInfo) (top : Nat → FragmentInfo) (manifest : Manifest) : Prop where
  last : x ∈ inChunk acc (n - 1)
  kept : ∀ chunkId, IsBest (inChunk acc chunkId) (best chunkId)
  highest : ∀ chunkId < n, IsTop (best chunkId) (top chunkId)
  name : manifest.name = x.recoveryInfo.name
  objectId : manifest.objectId = x.objectId
  storageScheme : manifest.storageScheme = info.storageScheme
  size : manifest.size = info.size
  checksum : manifest.checksum = info.checksum
  chunkSizes : manifest.chunkSizes = (List.range n).map fun c => (top c).recoveryInfo.chunkSize
  chunks : manifest.fragments.length = n
  rows : ∀ row ∈ manifest.fragments, row.length = info.width
  fragments : ∀ (chunkId fragmentId : Nat) row fragment, manifest.fragments[chunkId]? = some row →
    row[fragmentId]? = some fragment →
      ∃ crc len, (top chunkId).recoveryInfo.fragmentChecksums[fragmentId]? = some crc ∧
        (top chunkId).recoveryInfo.fragmentSizes[fragmentId]? = some len ∧
        fragment = Fragment.make' (locationIn (best chunkId) fragmentId) crc len
          (ctrIn (best chunkId) fragmentId)

theorem exists_top {acc : List FragmentInfo} {best : Nat → List FragmentInfo}
    (hcomplete : Complete acc n) (hbest : ∀ c, IsBest (inChunk acc c) (best c)) :
    ∃ top : Nat → FragmentInfo, ∀ c < n, hdExn (sortVersion (best c)) = .ok (top c) ∧
      IsTop (best c) (top c) := by
  have h : ∀ c, ∃ f, c < n → hdExn (sortVersion (best c)) = .ok f ∧ IsTop (best c) f := by
    intro c
    by_cases hc : c < n
    · obtain ⟨i, hi, hic⟩ := (hcomplete c).mpr hc
      obtain ⟨f, hf, _⟩ := (hbest c).best i (mem_inChunk.mpr ⟨hi, hic⟩)
      obtain ⟨top, htop⟩ := hdExn_sortVersion (ne_nil_of_mem hf)
      exact ⟨top, fun _ => htop⟩
    · have : Nonempty FragmentInfo := ⟨⟨[], 0, 0, 0, ⟨[], 0, [], [], none, none⟩, ⟨0, by decide⟩⟩⟩
      exact ⟨this.some, fun h => absurd h hc⟩
  choose top htop using h
  exact ⟨top, htop⟩

def numbered (n : Nat) (best : Nat → List FragmentInfo) : List (Nat × List FragmentInfo) :=
  (List.range n).map fun c => (c, best c)

theorem mapM_numbered (best : Nat → List FragmentInfo) {f : Nat × List FragmentInfo → Except Exn α}
    {g : Nat → α} (h : ∀ c < n, f (c, best c) = .ok (g c)) :
    (numbered n best).mapM f = .ok ((List.range n).map g) := by
  rw [mapM_of_forall (g := fun c => g c.1), numbered, map_map]
  · rfl
  · intro chunk hmem
    obtain ⟨c, hc, rfl⟩ := mem_map.mp hmem
    exact h c (mem_range.mp hc)

theorem getLast?_numbered (best : Nat → List FragmentInfo) (h : 0 < n) :
    (numbered n best).getLast? = some (n - 1, best (n - 1)) := by
  rw [numbered, getLast?_map, getLast?_range, if_neg (by omega)]
  rfl

theorem fragmentCtrs_numbered (best : Nat → List FragmentInfo) {c : Nat} (hc : c < n) (size : Nat) :
    fragmentCtrs (numbered n best) size c = .ok ((List.range size).map (ctrIn (best c))) := by
  have hfind : (numbered n best).find? (fun chunk => chunk.1 = c) = some (c, best c) := by
    rw [numbered, find?_map]
    have : (List.range n).find? (fun c' => c' = c) = some c := by
      rw [find?_range_eq_some]
      exact ⟨decide_eq_true rfl, mem_range.mpr hc, fun j hj => by simp; omega⟩
    simpa [Function.comp_def] using this
  rw [fragmentCtrs, hfind]

theorem getElem?_map_range {g : Nat → α} {n i : Nat} {a : α} :
    ((List.range n).map g)[i]? = some a ↔ i < n ∧ g i = a := by
  simp [List.getElem?_eq_some_iff]

/-- A row of the manifest that the info `top` tells about. -/
def RowOf (top : FragmentInfo) (size : Nat) (loc : Nat → Loc) (ctr : Nat → Option Bytes)
    (row : List Fragment) : Prop :=
  row.length = size ∧ ∀ (i : Nat) fragment, row[i]? = some fragment →
    ∃ crc len, top.recoveryInfo.fragmentChecksums[i]? = some crc ∧
      top.recoveryInfo.fragmentSizes[i]? = some len ∧ fragment = Fragment.make' (loc i) crc len (ctr i)

theorem row_of_top {top : FragmentInfo} {size : Nat} (loc : Nat → Loc) (ctr : Nat → Option Bytes)
    (hsizes : top.recoveryInfo.fragmentSizes.length = size)
    (hchecksums : top.recoveryInfo.fragmentChecksums.length = size) :
    ∃ row, map4 (fun a b c d => .ok (Fragment.make' a b c d)) ((List.range size).map loc)
      top.recoveryInfo.fragmentChecksums top.recoveryInfo.fragmentSizes
      ((List.range size).map ctr) = .ok row ∧ RowOf top size loc ctr row := by
  have hlength : ((List.range size).map loc).length = size := by simp
  have hctrs : ((List.range size).map ctr).length = ((List.range size).map loc).length := by simp
  obtain ⟨row, hrow, hcount, hall⟩ := map4_of_length
    (f := fun a b c d => .ok (Fragment.make' a b c d))
    (P := fun i fragment => ∃ crc len, top.recoveryInfo.fragmentChecksums[i]? = some crc ∧
      top.recoveryInfo.fragmentSizes[i]? = some len ∧ fragment = Fragment.make' (loc i) crc len (ctr i))
    ((List.range size).map loc) _ _ ((List.range size).map ctr) (hchecksums.trans hlength.symm) (hsizes.trans hlength.symm) hctrs fun i a b c d ha hb hc hd => by
      obtain ⟨_, rfl⟩ := getElem?_map_range.mp ha
      obtain ⟨_, rfl⟩ := getElem?_map_range.mp hd
      exact ⟨_, rfl, b, c, hb, hc, rfl⟩
  exact ⟨row, hrow, hcount.trans hlength, hall⟩

theorem layout_of_tops {top : Nat → FragmentInfo} {n size : Nat} (loc : Nat → Nat → Loc)
    (ctr : Nat → Nat → Option Bytes)
    (hsizes : ∀ c < n, (top c).recoveryInfo.fragmentSizes.length = size)
    (hchecksums : ∀ c < n, (top c).recoveryInfo.fragmentChecksums.length = size) :
    ∃ fragments, Layout.map4 Fragment.make' ((List.range n).map fun c => (List.range size).map (loc c))
      ((List.range n).map fun c => (top c).recoveryInfo.fragmentChecksums)
      ((List.range n).map fun c => (top c).recoveryInfo.fragmentSizes)
      ((List.range n).map fun c => (List.range size).map (ctr c)) = .ok fragments ∧
      fragments.length = n ∧ ∀ (c : Nat) row, fragments[c]? = some row →
        RowOf (top c) size (loc c) (ctr c) row := by
  obtain ⟨fragments, hfragments, hcount, hall⟩ := map4_of_length
    (f := map4 fun a b c d => .ok (Fragment.make' a b c d))
    (P := fun c row => RowOf (top c) size (loc c) (ctr c) row)
    ((List.range n).map fun c => (List.range size).map (loc c))
    ((List.range n).map fun c => (top c).recoveryInfo.fragmentChecksums)
    ((List.range n).map fun c => (top c).recoveryInfo.fragmentSizes)
    ((List.range n).map fun c => (List.range size).map (ctr c))
    (by simp) (by simp) (by simp) fun c as bs cs ds ha hb hc hd => by
      obtain ⟨hlt, rfl⟩ := getElem?_map_range.mp ha
      obtain ⟨_, rfl⟩ := getElem?_map_range.mp hb
      obtain ⟨_, rfl⟩ := getElem?_map_range.mp hc
      obtain ⟨_, rfl⟩ := getElem?_map_range.mp hd
      exact row_of_top (loc c) (ctr c) (hsizes c hlt) (hchecksums c hlt)
  exact ⟨fragments, hfragments, hcount.trans (by simp), hall⟩

theorem rebuild_of_recoverable (order : HashOrder) (encryptInfo : EncryptInfo)
    {acc : List FragmentInfo} {info : ObjectInfo} (h : Recoverable acc n info) :
    ∃ manifest x best top, rebuild order encryptInfo acc = .ok manifest ∧
      RebuiltFrom acc n info x best top manifest := by
  obtain ⟨best, hchunks, hbest⟩ := chunksOf_of_complete order h.complete
  obtain ⟨top, htop⟩ := exists_top h.complete hbest
  have hlast : n - 1 < n := Nat.sub_lt h.positive Nat.one_pos
  obtain ⟨x, hx, hxmem⟩ : ∃ x, hdExn (best (n - 1)) = .ok x ∧ x ∈ best (n - 1) := by
    cases hne : best (n - 1) with
    | nil => exact absurd (htop (n - 1) hlast).2.mem (by simp [hne])
    | cons f rest => exact ⟨f, rfl, mem_cons_self⟩
  have hxlast : x ∈ inChunk acc (n - 1) := (hbest (n - 1)).mem x hxmem
  have htopMem : ∀ c < n, top c ∈ acc := fun c hc =>
    (mem_inChunk.mp ((hbest c).mem _ (htop c hc).2.mem)).1
  have hreduced := mapM_numbered best (f := fun c => hdExn (sortVersion c.2)) fun c hc => (htop c hc).1
  have hlocations := mapM_numbered best (n := n)
    (f := fun c => fragmentLocations info.storageScheme.k info.width c.2)
    (g := fun c => (List.range info.width).map (locationIn (best c))) fun c hc => by
      rw [fragmentLocations, length_found (hbest c), check, if_pos (h.enough c hc)]
      rfl
  have hctrs := mapM_of_forall (l := List.range n) fun c hc =>
    fragmentCtrs_numbered best (mem_range.mp hc) info.width
  obtain ⟨fragments, hfragments, hcount, hrows⟩ := layout_of_tops (fun c => locationIn (best c))
    (fun c => ctrIn (best c)) (fun c hc => h.sizes _ (htopMem c hc)) fun c hc =>
      h.checksums _ (htopMem c hc)
  have hsizes : ∀ row ∈ fragments, row.length = info.width := by
    intro row hrow
    obtain ⟨c, hc⟩ := mem_iff_getElem?.mp hrow
    exact (hrows c row hc).1
  have hrebuild : rebuild order encryptInfo acc = makeManifest encryptInfo x.recoveryInfo.name x.objectId
      info ((List.range n).map fun c => (top c).recoveryInfo.chunkSize) fragments
      (maxVersion (numbered n best)) := by
    have hlength : (numbered n best).length = n := by simp [numbered]
    rw [rebuild, hchunks, ok_bind, ← numbered, getLast?_numbered best h.positive]
    simp only [Option.elim_some, ok_bind, hx, h.last x hxlast, hreduced, hlocations, hlength, hctrs,
      map_map, Function.comp_def, hfragments]
    rw [check, if_pos (Nat.sub_add_cancel h.positive).symm]
    rfl
  have hcounted : fragments.length < 2 ^ 31 ∧ ∀ chunk ∈ fragments, chunk.length < 2 ^ 31 :=
    ⟨hcount ▸ h.counted.1, fun row hrow => hsizes row hrow ▸ h.counted.2⟩
  refine ⟨_, x, best, top, hrebuild.trans (dif_pos hcounted), ?_⟩
  exact
    { last := hxlast, kept := hbest, highest := fun c hc => (htop c hc).2
      name := rfl, objectId := rfl, storageScheme := rfl, size := rfl, checksum := rfl
      chunkSizes := rfl, chunks := hcount, rows := hsizes
      fragments := fun c i row fragment hrow => (hrows c row hrow).2 i fragment }

end Manifests

end Alba.Recovery
