import Alba.Nsm.Types

/-! The keys of a namespace in the store of its namespace manager, and the keys of its fragments on an
osd. A key is written symbolically; the encoding tells all keys apart. -/

namespace Alba.Nsm

open ProofKit List

section Llio

/-- `Llio.int_to`: the low 32 bits, little-endian. -/
def intTo (i : Int) : Bytes := leBytes 4 (BitVec.ofInt 32 i).toNat

def int32BeTo (x : BitVec 32) : Bytes := beBytes 4 x.toNat

def int64BeTo (x : Int64) : Bytes := beBytes 8 x.toBitVec.toNat

def stringTo (s : Bytes) : Bytes := intTo s.length ++ s

/-- `x_int64_be_to` of a number that is not negative. -/
def xInt64BeTo (i : Nat63) : Bytes :=
  if i.val < 2 ^ 31 - 1 then beBytes 4 i.val else beBytes 4 (2 ^ 31 - 1) ++ beBytes 8 i.val

@[simp] theorem intTo_length (i : Int) : (intTo i).length = 4 := by simp [intTo]

@[simp] theorem int32BeTo_length (x : BitVec 32) : (int32BeTo x).length = 4 := by simp [int32BeTo]

theorem intTo_eq_iff (i j : Int) : intTo i = intTo j ↔ BitVec.ofInt 32 i = BitVec.ofInt 32 j := by
  rw [intTo, intTo, leBytes_eq_iff, ← BitVec.toNat_inj]
  have hi := (BitVec.ofInt 32 i).isLt
  have hj := (BitVec.ofInt 32 j).isLt
  omega

@[simp] theorem int32BeTo_inj (x y : BitVec 32) : int32BeTo x = int32BeTo y ↔ x = y := by
  rw [int32BeTo, int32BeTo, beBytes_eq_iff, ← BitVec.toNat_inj]
  have hx := x.isLt
  have hy := y.isLt
  omega

@[simp] theorem stringTo_inj (s t : Bytes) : stringTo s = stringTo t ↔ s = t := by
  constructor
  · intro h
    exact (append_inj h (by simp)).2
  · rintro rfl
    rfl

/-- A number in four bytes, or the largest word and the number in eight: no such code is the start of
another one. -/
theorem switched_append_inj {word : Nat → Nat → Bytes} (hlength : ∀ w n, (word w n).length = w)
    (hword : ∀ w n m, word w n = word w m ↔ n % 256 ^ w = m % 256 ^ w) {i j : Nat63} {s t : Bytes}
    (h : (if i.val < 2 ^ 31 - 1 then word 4 i.val else word 4 (2 ^ 31 - 1) ++ word 8 i.val) ++ s =
      (if j.val < 2 ^ 31 - 1 then word 4 j.val else word 4 (2 ^ 31 - 1) ++ word 8 j.val) ++ t) :
    i = j ∧ s = t := by
  have hi := i.fits
  have hj := j.fits
  split at h <;> split at h
  · obtain ⟨heq, hrest⟩ := append_inj h (by simp [hlength])
    rw [hword] at heq
    exact ⟨Nat63.ext (by omega), hrest⟩
  · rw [append_assoc] at h
    have heq := (append_inj h (by simp [hlength])).1
    rw [hword] at heq
    omega
  · rw [append_assoc] at h
    have heq := (append_inj h (by simp [hlength])).1
    rw [hword] at heq
    omega
  · rw [append_assoc, append_assoc] at h
    obtain ⟨heq, hrest⟩ := append_inj (append_cancel_left h) (by simp [hlength])
    rw [hword] at heq
    exact ⟨Nat63.ext (by omega), hrest⟩

theorem xInt64BeTo_append_inj {i j : Nat63} {s t : Bytes}
    (h : xInt64BeTo i ++ s = xInt64BeTo j ++ t) : i = j ∧ s = t :=
  switched_append_inj beBytes_length beBytes_eq_iff h

theorem xInt64BeTo_inj {i j : Nat63} (h : xInt64BeTo i = xInt64BeTo j) : i = j :=
  (xInt64BeTo_append_inj (s := []) (t := []) (by simpa using h)).1

end Llio

/-- `(k, m, fragment_count, max_disks_per_node)`, as the 32-bit integers of a key. -/
structure Bucket where
  k : BitVec 32
  m : BitVec 32
  fragmentCount : BitVec 32
  maxDisksPerNode : BitVec 32
  deriving DecidableEq

inductive Key
  | names (name : Bytes)
  | objects (objectId : Bytes)
  | gcEpochs
  | namespaceLogicalSize
  | namespaceStorageSize
  | policies (bucket : Bucket) (objectId : Bytes)
  | policiesCnt (bucket : Bucket)
  | preset
  | presetVersion
  | osdInfo (osdId : OsdId)
  | activeOsds (osdId : OsdId)
  | osdObjects (osdId : OsdId) (objectId : Bytes)
  | keysToBeDeleted (osdId : OsdId) (key : Bytes)
  | osdSize (osdId : OsdId)
  deriving DecidableEq

inductive Kind
  | names
  | objects
  | gcEpochs
  | namespaceLogicalSize
  | namespaceStorageSize
  | policies
  | policiesCnt
  | preset
  | presetVersion
  | osdInfo
  | activeOsds
  | osdObjects
  | keysToBeDeleted
  | osdSize
  deriving DecidableEq

instance : Fintype Kind where
  elems := {.names, .objects, .gcEpochs, .namespaceLogicalSize, .namespaceStorageSize, .policies,
    .policiesCnt, .preset, .presetVersion, .osdInfo, .activeOsds, .osdObjects, .keysToBeDeleted,
    .osdSize}
  complete kind := by cases kind <;> decide

/-- The text that the keys of a kind start with. -/
def Kind.start : Kind → Bytes
  | .names => ascii ['n', 'a', 'm', 'e', 's', '/']
  | .objects => ascii ['o', 'b', 'j', 'e', 'c', 't', 's', '/']
  | .gcEpochs => ascii ['g', 'c', '_', 'e', 'p', 'o', 'c', 'h', 's']
  | .namespaceLogicalSize => ascii ['n', 'a', 'm', 'e', 's', 'p', 'a', 'c', 'e', '_', 'l', 'o', 'g',
      'i', 'c', 'a', 'l', '_', 's', 'i', 'z', 'e']
  | .namespaceStorageSize => ascii ['n', 'a', 'm', 'e', 's', 'p', 'a', 'c', 'e', '_', 's', 't', 'o',
      'r', 'a', 'g', 'e', '_', 's', 'i', 'z', 'e']
  | .policies => ascii ['p', 'o', 'l', 'i', 'c', 'i', 'e', 's', '/']
  | .policiesCnt => ascii ['p', 'o', 'l', 'i', 'c', 'i', 'e', 's', '_', 'c', 'n', 't', '/']
  | .preset => ascii ['p', 'r', 'e', 's', 'e', 't']
  | .presetVersion => ascii ['p', 'r', 'e', 's', 'e', 't', '_', 'v', 'e', 'r', 's', 'i', 'o', 'n']
  | .osdInfo => ascii ['o', 's', 'd', 's', '/', 'i', 'n', 'f', 'o', '/']
  | .activeOsds => ascii ['o', 's', 'd', 's', '/', 'a', 'c', 't', 'i', 'v', 'e', '/']
  | .osdObjects => ascii ['o', 's', 'd', 's', '/', 'o', 'b', 'j', 'e', 'c', 't', 's', '/']
  | .keysToBeDeleted => ascii ['o', 's', 'd', 's', '/', 'd', 'e', 'l', 'e', 't', 'e', 's', '/']
  | .osdSize => ascii ['o', 's', 'd', 's', '/', 's', 'i', 'z', 'e', '/']

namespace Key

@[simp, reducible] def kind : Key → Kind
  | names _ => .names
  | objects _ => .objects
  | gcEpochs => .gcEpochs
  | namespaceLogicalSize => .namespaceLogicalSize
  | namespaceStorageSize => .namespaceStorageSize
  | policies _ _ => .policies
  | policiesCnt _ => .policiesCnt
  | preset => .preset
  | presetVersion => .presetVersion
  | osdInfo _ => .osdInfo
  | activeOsds _ => .activeOsds
  | osdObjects _ _ => .osdObjects
  | keysToBeDeleted _ _ => .keysToBeDeleted
  | osdSize _ => .osdSize

/-- What follows the text of a key's kind. -/
def rest : Key → Bytes
  | names name => name
  | objects objectId => objectId
  | gcEpochs => []
  | namespaceLogicalSize => []
  | namespaceStorageSize => []
  | policies b objectId =>
    int32BeTo b.k ++ (int32BeTo b.m ++ (int32BeTo b.fragmentCount ++
      (int32BeTo (-b.maxDisksPerNode) ++ stringTo objectId)))
  | policiesCnt b =>
    int32BeTo b.k ++ (int32BeTo b.m ++ (int32BeTo b.fragmentCount ++ int32BeTo b.maxDisksPerNode))
  | preset => []
  | presetVersion => []
  | osdInfo osdId => xInt64BeTo osdId
  | activeOsds osdId => xInt64BeTo osdId
  | osdObjects osdId objectId => xInt64BeTo osdId ++ (ascii ['/'] ++ objectId)
  | keysToBeDeleted osdId key => xInt64BeTo osdId ++ (ascii ['/'] ++ key)
  | osdSize osdId => xInt64BeTo osdId

def encode (k : Key) : Bytes := k.kind.start ++ k.rest

/-- Only `preset` starts the text of another kind. -/
theorem start_extends : ∀ a b : Kind, a.start <+: b.start →
    a = b ∨ (a = .preset ∧ b = .presetVersion) := by
  decide

theorem rest_of_preset {k : Key} (h : k.kind = .preset ∨ k.kind = .presetVersion) : k.rest = [] := by
  cases k <;> simp_all [kind, rest]

theorem kind_eq_of_encode_eq {a b : Key} (h : a.encode = b.encode) : a.kind = b.kind := by
  have comparable : a.kind.start <+: b.kind.start ∨ b.kind.start <+: a.kind.start :=
    List.prefix_or_prefix_of_prefix ⟨a.rest, h⟩ ⟨b.rest, rfl⟩
  -- the two remaining kinds have no rest, and their texts differ
  have notPreset : ∀ c d : Key, c.kind = .preset → d.kind = .presetVersion →
      c.encode ≠ d.encode := by
    intro c d hc hd
    rw [encode, encode, rest_of_preset (Or.inl hc), rest_of_preset (Or.inr hd), hc, hd]
    decide
  rcases comparable with hp | hp
  · rcases start_extends _ _ hp with hk | ⟨ha, hb⟩
    · exact hk
    · exact absurd h (notPreset a b ha hb)
  · rcases start_extends _ _ hp with hk | ⟨hb, ha⟩
    · exact hk.symm
    · exact absurd h.symm (notPreset b a hb ha)

theorem kind_of_start {k : Key} {kind : Kind} (hpreset : kind ≠ .preset)
    (hversion : kind ≠ .presetVersion) (h : kind.start <+: k.encode) : k.kind = kind := by
  rcases List.prefix_or_prefix_of_prefix h ⟨k.rest, rfl⟩ with hp | hp
  · rcases start_extends _ _ hp with hk | ⟨hk, _⟩
    · exact hk.symm
    · exact absurd hk hpreset
  · rcases start_extends _ _ hp with hk | ⟨_, hk⟩
    · exact hk
    · exact absurd hk hversion

theorem policiesRest_inj {b c : Bucket} {s t : Bytes}
    (h : (policies b s).rest = (policies c t).rest) : b = c ∧ s = t := by
  simp only [rest] at h
  obtain ⟨hk, h⟩ := append_inj h (by simp)
  obtain ⟨hm, h⟩ := append_inj h (by simp)
  obtain ⟨hf, h⟩ := append_inj h (by simp)
  obtain ⟨hd, h⟩ := append_inj h (by simp)
  rw [int32BeTo_inj] at hk hm hf hd
  rw [stringTo_inj] at h
  cases b
  cases c
  simp_all

theorem policiesCntRest_inj {b c : Bucket}
    (h : (policiesCnt b).rest = (policiesCnt c).rest) : b = c := by
  simp only [rest] at h
  obtain ⟨hk, h⟩ := append_inj h (by simp)
  obtain ⟨hm, h⟩ := append_inj h (by simp)
  obtain ⟨hf, hd⟩ := append_inj h (by simp)
  rw [int32BeTo_inj] at hk hm hf hd
  cases b
  cases c
  simp_all

theorem slashRest_inj {d e : OsdId} {s t : Bytes}
    (h : xInt64BeTo d ++ (ascii ['/'] ++ s) = xInt64BeTo e ++ (ascii ['/'] ++ t)) : d = e ∧ s = t := by
  obtain ⟨hd, h⟩ := xInt64BeTo_append_inj h
  exact ⟨hd, append_cancel_left h⟩

theorem encode_injective : Function.Injective encode := by
  intro a b h
  have hkind := kind_eq_of_encode_eq h
  have hrest : a.rest = b.rest := by
    rw [encode, encode, hkind] at h
    exact append_cancel_left h
  cases a <;> cases b <;> simp only [kind, reduceCtorEq] at hkind
  case gcEpochs | namespaceLogicalSize | namespaceStorageSize | preset | presetVersion => rfl
  case names | objects => simpa [rest] using hrest
  case policies => simpa using policiesRest_inj hrest
  case policiesCnt => simpa using policiesCntRest_inj hrest
  case osdInfo | activeOsds | osdSize => simpa using xInt64BeTo_inj hrest
  case osdObjects | keysToBeDeleted => simpa using slashRest_inj hrest

@[simp] theorem encode_inj {a b : Key} : a.encode = b.encode ↔ a = b := encode_injective.eq_iff

end Key

namespace Key

/-- `next_prefix`: the last character that can be incremented is, and the ones after it become
zero. -/
def nextPrefix (start : Bytes) : Option Bytes :=
  let rec inner : Bytes → Option Bytes
    | [] => none
    | c :: before => if c = 255 then (inner before).map (0 :: ·) else some ((c + 1) :: before)
  (inner start.reverse).map List.reverse

/-- `keys_to_be_deleted_extract_key`: the id of the osd is read back to find its width. -/
def keysToBeDeletedExtractKey (key : Bytes) : Bytes :=
  let id := key.drop Kind.osdObjects.start.length
  let width := if id.take 4 = beBytes 4 (2 ^ 31 - 1) then 12 else 4
  id.drop (width + 1)

end Key

/-! The keys of `Osd_keys.AlbaInstance`. -/

/-- What the fragment key, the recovery info key and the gc tag of a fragment have in common. -/
def fragmentSuffix (objectId : Bytes) (chunkId fragmentId versionId : Int) : Bytes :=
  stringTo objectId ++ (intTo chunkId ++ (intTo fragmentId ++ intTo versionId))

def fragment (objectId : Bytes) (versionId chunkId fragmentId : Int) : Bytes :=
  ascii ['o'] ++ fragmentSuffix objectId chunkId fragmentId versionId

def fragmentRecoveryInfo (objectId : Bytes) (versionId chunkId fragmentId : Int) : Bytes :=
  ascii ['r'] ++ fragmentSuffix objectId chunkId fragmentId versionId

def gcEpochTag (gcEpoch : Int64) (objectId : Bytes) (versionId chunkId fragmentId : Int) : Bytes :=
  ascii ['g'] ++ (int64BeTo gcEpoch ++ fragmentSuffix objectId chunkId fragmentId versionId)

def namespacePrefix (namespaceId : NamespaceId) : Bytes :=
  ascii ['p'] ++ (int32BeTo 0 ++ (ascii ['n'] ++ xInt64BeTo namespaceId))

def toGlobalKey (namespaceId : NamespaceId) (key : Bytes) : Bytes :=
  namespacePrefix namespaceId ++ key

@[simp] theorem toGlobalKey_inj {namespaceId : NamespaceId} {s t : Bytes} :
    toGlobalKey namespaceId s = toGlobalKey namespaceId t ↔ s = t := by
  simp [toGlobalKey]

theorem fragmentSuffix_eq_iff {s t : Bytes} {c f v c' f' v' : Int} :
    fragmentSuffix s c f v = fragmentSuffix t c' f' v' ↔
      s = t ∧ BitVec.ofInt 32 c = BitVec.ofInt 32 c' ∧ BitVec.ofInt 32 f = BitVec.ofInt 32 f' ∧
        BitVec.ofInt 32 v = BitVec.ofInt 32 v' := by
  constructor
  · intro h
    have hlength := congrArg List.length h
    simp only [fragmentSuffix, stringTo, length_append, intTo_length] at hlength
    obtain ⟨hs, h⟩ := append_inj h (by simp only [stringTo, length_append, intTo_length]; omega)
    obtain ⟨hc, h⟩ := append_inj h (by simp)
    obtain ⟨hf, hv⟩ := append_inj h (by simp)
    rw [intTo_eq_iff] at hc hf hv
    exact ⟨(stringTo_inj s t).mp hs, hc, hf, hv⟩
  · rintro ⟨rfl, hc, hf, hv⟩
    rw [fragmentSuffix, fragmentSuffix, (intTo_eq_iff _ _).mpr hc, (intTo_eq_iff _ _).mpr hf,
      (intTo_eq_iff _ _).mpr hv]

end Alba.Nsm
