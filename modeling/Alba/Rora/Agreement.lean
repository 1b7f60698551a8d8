import Alba.Rora.Decoding

/-! What the client makes of the bytes that the server writes. -/

namespace Alba.Rora

open ProofKit List
open Nsm (intTo stringTo Checksum Compression EncryptInfo StorageScheme OsdId)
open NsmHost (xInt64To)

/-- The word of 32 bits that `Llio.int_to` writes. -/
def word (i : Int) : UInt32 := UInt32.ofNat (BitVec.ofInt 32 i).toNat

section Llio

variable {α β γ : Type}

theorem reads_uint8 (n : Nat) : Reads fromUInt8 (int8To n) (UInt8.ofNat n) :=
  (reads_nextBytes _ (int8To n)).bind_ret _

theorem reads_tag : Reads fromTag (int8To 1) () := (reads_uint8 1).bind_pure rfl

theorem reads_bool (b : Bool) : Reads fromBool (int8To b.toNat) b := by
  cases b <;> exact (reads_uint8 _).bind_pure rfl

theorem reads_uint32 (n : Nat) : Reads fromUInt32 (leBytes 4 n) (UInt32.ofNat n) :=
  reads_word 4 n UInt32.ofNat (UInt32.toNat_inj.mp (by simp))

theorem reads_int (i : Int) : Reads fromUInt32 (intTo i) (word i) := reads_uint32 _

theorem reads_uint64 (n : Nat) : Reads fromUInt64 (leBytes 8 n) (UInt64.ofNat n) :=
  reads_word 8 n UInt64.ofNat (UInt64.toNat_inj.mp (by simp))

theorem reads_double (t : Nsm.Timestamp) : Reads fromDouble (leBytes 8 t.bits.toNat) t := by
  have hlt : t.bits.toNat < 256 ^ 8 := t.bits.isLt
  have hread := reads_word (e := Broken.outside) 8 t.bits.toNat
    (fun n => (⟨BitVec.ofNat 64 n⟩ : Nsm.Timestamp)) (by rw [Nat.mod_eq_of_lt hlt])
  rwa [BitVec.ofNat_toNat, BitVec.setWidth_eq] at hread

theorem word_natCast {n : Nat} (h : n < 2 ^ 32) : (word n).toNat = n := by
  rw [word, BitVec.ofInt_natCast, BitVec.toNat_ofNat, Nat.mod_eq_of_lt h,
    UInt32.toNat_ofNat_of_lt' h]

theorem reads_string {s : Bytes} (h : s.length < 2 ^ 32) : Reads fromString (stringTo s) s := by
  refine (reads_int _).bind ?_
  rw [word_natCast h]
  exact reads_nextBytes _ s

theorem reads_vector {p : From α} {write : γ → Bytes} {value : γ → α} {xs : List γ}
    (hlength : xs.length < 2 ^ 32) (h : ∀ x ∈ xs, Reads p (write x) (value x)) :
    Reads (fromVector p) (listTo write xs) (xs.map value) := by
  refine (reads_int _).bind ?_
  rw [word_natCast hlength]
  exact reads_readDown xs h

theorem reads_optional {p : From α} {write : γ → Bytes} {value : γ → α} {x : Option γ}
    (h : ∀ y ∈ x, Reads p (write y) (value y)) :
    Reads (fromOptional p) (optionTo write x) (x.map value) := by
  cases x with
  | none => exact (reads_bool false).bind_pure rfl
  | some y => exact (reads_bool true).bind ((h y rfl).bind_ret some)

theorem varintLoop_varintTo (i : Nat) (rest : Bytes) (r shift : Nat) (h : r + i * 2 ^ shift < 2 ^ 64) :
    varintLoop (varintTo i ++ rest) r shift = .ok (r + i * 2 ^ shift, rest) := by
  induction i using varintTo.induct generalizing r shift with
  | case1 i hi =>
    rw [varintTo, if_pos hi]
    have hbyte : (UInt8.ofNat i).toNat = i := by
      rw [toNat_ofNat]
      omega
    simp only [int8To, singleton_append, varintLoop, hbyte, if_neg (Nat.not_le.mpr hi),
      Nat.mod_eq_of_lt h]
  | case2 i hi ih =>
    rw [varintTo, if_neg hi]
    have hbyte : (UInt8.ofNat (i % 128 + 128)).toNat = i % 128 + 128 := by
      rw [toNat_ofNat]
      omega
    have hsplit : i * 2 ^ shift = i % 128 * 2 ^ shift + i / 128 * 2 ^ (shift + 7) := by
      conv_lhs => rw [← Nat.mod_add_div i 128]
      rw [pow_add]
      ring
    have hmod : (i % 128 + 128) % 128 = i % 128 := by omega
    have hlt : r + i % 128 * 2 ^ shift < 2 ^ 64 := by omega
    simp only [int8To, cons_append, nil_append, varintLoop, hbyte, hmod,
      if_pos (Nat.le_add_left 128 (i % 128)), Nat.mod_eq_of_lt hlt]
    rw [ih (r + i % 128 * 2 ^ shift) (shift + 7) (by omega), hsplit, Nat.add_assoc]

theorem reads_varint {n : Nat} (h : n < 2 ^ 64) : Reads fromVarint (varintTo n) n := fun rest => by
  have hloop := varintLoop_varintTo n rest 0 0 (by simpa using h)
  rwa [Nat.zero_add, pow_zero, Nat.mul_one] at hloop

theorem reads_smallString {s : Bytes} (h : s.length < 2 ^ 64) :
    Reads fromSmallString (smallBytesTo s) s :=
  (reads_varint h).bind (reads_nextBytes _ s)

theorem reads_xuint64 (i : OsdId) : Reads fromXUInt64 (xInt64To i) (UInt64.ofNat i.val) := by
  by_cases h : i.val < 2 ^ 31 - 1
  · have hword : (UInt32.ofNat i.val).toNat = i.val := UInt32.toNat_ofNat_of_lt' (by
      change i.val < 2 ^ 32
      omega)
    rw [xInt64To, if_pos h]
    refine (reads_uint32 i.val).bind_pure ?_
    have hvalue : (UInt32.ofNat i.val).toUInt64 = UInt64.ofNat i.val := by
      apply UInt64.toNat_inj.mp
      rw [UInt32.toNat_toUInt64, hword, UInt64.toNat_ofNat_of_lt' (i.fits.trans (by decide))]
    rw [hword, if_pos h, hvalue]
  · rw [xInt64To, if_neg h]
    exact (reads_uint32 _).bind (reads_uint64 i.val)

end Llio

section Values

theorem reads_encodingScheme (s : StorageScheme) :
    Reads fromEncodingScheme (encodingSchemeOutput s) ⟨word s.k, word s.m, 1⟩ :=
  (reads_uint8 1).bind ((reads_int s.k).bind ((reads_int s.m).bind ((reads_uint8 1).bind_ret _)))

theorem reads_compression (c : Compression) : Reads fromCompression (compressionOutput c) c := by
  cases c <;> exact (reads_uint8 _).bind_pure rfl

theorem reads_chainingMode (mode : Nsm.ChainingMode) :
    Reads fromChainingMode (chainingModeTo mode) mode := by
  cases mode <;> exact (reads_uint8 _).bind_pure rfl

def KeyOk : EncryptInfo → Prop
  | .noEncryption => True
  | .encrypted _ keySha256 => keySha256.length = 32

theorem reads_encryptInfo {e : EncryptInfo} (h : KeyOk e) : Reads fromEncryptInfo (encryptInfoTo e) e := by
  cases e with
  | noEncryption => exact (reads_uint8 1).bind_pure rfl
  | encrypted algo key =>
    have hkey : key.length = 32 := h
    exact (reads_uint8 2).bind (reads_tag.bind ((reads_chainingMode _).bind (reads_tag.bind
      (reads_tag.bind ((reads_string (by omega)).bind_pure (if_neg (not_not.mpr hkey)))))))

theorem refuses_encryptInfo {e : EncryptInfo} (h : ¬ KeyOk e) (hfits : ∀ algo key,
    e = .encrypted algo key → key.length < 2 ^ 32) : Refuses fromEncryptInfo (encryptInfoTo e) := by
  cases e with
  | noEncryption => exact (h trivial).elim
  | encrypted algo key =>
    have hkey : key.length ≠ 32 := h
    rw [encryptInfoTo, ← append_nil (stringTo key)]
    refine (reads_uint8 2).bind_refuses (reads_tag.bind_refuses ((reads_chainingMode _).bind_refuses
      (reads_tag.bind_refuses (reads_tag.bind_refuses
        ((reads_string (hfits algo key rfl)).bind_refuses fun rest => ⟨.unexpected, ?_⟩)))))
    rw [if_pos hkey]
    rfl

theorem toBitVec_ofNat_toNat (b : BitVec 32) : (UInt32.ofNat b.toNat).toBitVec = b := by simp

theorem reads_checksum {c : Checksum} (h : ∀ digest, c = .sha1 digest → digest.length < 2 ^ 32) :
    Reads fromChecksum (checksumOutput c) c := by
  cases c with
  | noChecksum => exact (reads_uint8 1).bind_pure rfl
  | sha1 digest => exact (reads_uint8 2).bind ((reads_string (h digest rfl)).bind_ret _)
  | crc32c digest =>
    have hread := (reads_uint32 digest.toNat).bind_ret fun x => Checksum.crc32c x.toBitVec
    rw [toBitVec_ofNat_toNat] at hread
    exact (reads_uint8 3).bind hread

def locOf (f : Nsm.Fragment) : Option UInt64 × UInt32 :=
  (f.osd.map fun osd => UInt64.ofNat osd.val, word f.ver.toInt)

theorem reads_location (f : Nsm.Fragment) : Reads fromLocation (locTo f.locOf) (locOf f) :=
  (reads_optional fun osd _ => reads_xuint64 osd).bind ((reads_int _).bind_ret _)

theorem reads_rest {p : From (Option Bytes)} {b : Bytes} {a : Option Bytes} (h : Reads p b a)
    (hb : b ≠ []) : Reads (fromRest p) b a := fun rest => by
  have hlength : (b ++ rest).length > 0 := by
    have := length_pos_iff.mpr hb
    simp only [length_append]
    omega
  simp only [fromRest, StateT.run_bind, StateT.run_get]
  rw [pure_bind, if_pos hlength]
  exact h rest

theorem optionTo_ne_nil {γ : Type} (write : γ → Bytes) (x : Option γ) : optionTo write x ≠ [] := by
  cases x <;> simp [optionTo, int8To]

end Values

section Fragments

/-- A fragment that the server can write: `Checksum.output` checks the digest, and Llio counts the bytes
of a string in 32 bits. -/
structure FragmentFits (f : Nsm.Fragment) : Prop where
  digest : ∀ digest, f.crc = .sha1 digest → digest.length = 20
  whole : (innerFragmentTo f).length < 2 ^ 31
  ctr : ∀ ctr ∈ f.ctr, ctr.length < 2 ^ 31
  fnr : ∀ fnr ∈ f.fnr, fnr.length < 2 ^ 31

/-- What the client reads of a fragment: the counter and the number are in version 2 only. -/
def fragmentOf (version : Version) (f : Nsm.Fragment) : Fragment where
  loc := locOf f
  crc := f.crc
  len := word f.len
  ctr := match version with | .one => none | .two => f.ctr
  fnr := match version with | .one => none | .two => f.fnr

theorem reads_smallOption {x : Option Bytes} (h : ∀ s ∈ x, s.length < 2 ^ 31) :
    Reads (fromRest (fromOptional fromSmallString)) (optionTo smallBytesTo x) x := by
  have hread := reads_optional (p := fromSmallString) (x := x) fun s hs =>
    reads_smallString ((h s hs).trans (by decide))
  rw [Option.map_id'] at hread
  exact reads_rest hread (optionTo_ne_nil _ _)

theorem reads_fragment {f : Nsm.Fragment} (h : FragmentFits f) :
    Reads fromFragment (fragmentTo f) (fragmentOf .two f) := by
  have hinner : Reads innerFromFragment (innerFragmentTo f) (fragmentOf .two f) :=
    reads_tag.bind ((reads_location f).bind
      ((reads_checksum fun digest hd => by rw [h.digest digest hd]; decide).bind
        ((reads_int f.len).bind ((reads_smallOption h.ctr).bind ((reads_smallOption h.fnr).bind_ret _)))))
  have hrun := hinner []
  rw [append_nil] at hrun
  refine (reads_varint (h.whole.trans (by decide))).bind ((reads_nextBytes _ _).bind_pure ?_)
  rw [hrun]

end Fragments

section Manifests

variable {m : Nsm.Manifest} {mf : Manifest} {compress uncompress : Bytes → Bytes}

/-- A manifest that the server can write. -/
structure Encodable (m : Nsm.Manifest) (compress : Bytes → Bytes) : Prop where
  name : m.name.length < 2 ^ 31
  objectId : m.objectId.length < 2 ^ 31
  chunkCount : m.chunkSizes.length < 2 ^ 31
  key : ∀ algo key, m.encryptInfo = .encrypted algo key → key.length < 2 ^ 31
  digest : ∀ digest, m.checksum = .sha1 digest → digest.length = 20
  fragments : ∀ chunk ∈ m.fragments, ∀ f ∈ chunk, FragmentFits f
  compressed : ∀ version, (compress (serialize m version)).length < 2 ^ 31

/-- The record after the fields that both versions start with. -/
def headOf (m : Nsm.Manifest) (mf : Manifest) : Manifest := { mf with
  name := m.name
  objectId := m.objectId
  chunkSizes := m.chunkSizes.map word
  encodingScheme := ⟨word m.storageScheme.k, word m.storageScheme.m, 1⟩
  compression := m.storageScheme.compression
  encryptInfo := m.encryptInfo
  checksum := m.checksum
  size := UInt64.ofNat m.size.toNat }

theorem reads_head (hm : Encodable m compress) (hkey : KeyOk m.encryptInfo) :
    Reads (fromHead mf) (headTo m) (headOf m mf) := by
  simp only [headTo, storageSchemeOutput, append_assoc]
  exact (reads_string (by have := hm.name; omega)).bind
    ((reads_string (by have := hm.objectId; omega)).bind
      ((reads_vector (by have := hm.chunkCount; omega) fun i _ => reads_int i).bind
        (reads_tag.bind ((reads_encodingScheme _).bind ((reads_compression _).bind
          ((reads_encryptInfo hkey).bind
            ((reads_checksum fun digest hd => by rw [hm.digest digest hd]; decide).bind
              ((reads_uint64 _).bind_ret _))))))))

theorem refuses_head (hm : Encodable m compress) (hkey : ¬ KeyOk m.encryptInfo) :
    Refuses (fromHead mf) (headTo m) := by
  simp only [headTo, storageSchemeOutput, append_assoc]
  have hencrypt := refuses_encryptInfo hkey fun algo key he => (hm.key algo key he).trans (by decide)
  exact (reads_string (by have := hm.name; omega)).bind_refuses
    ((reads_string (by have := hm.objectId; omega)).bind_refuses
      ((reads_vector (by have := hm.chunkCount; omega) fun i _ => reads_int i).bind_refuses
        (reads_tag.bind_refuses ((reads_encodingScheme _).bind_refuses
          ((reads_compression _).bind_refuses hencrypt.bind)))))

theorem reads_layout {γ α : Type} {p : From α} {write : γ → Bytes} {value : γ → α} {t : Nsm.Layout γ}
    (hcounted : t.length < 2 ^ 31 ∧ ∀ chunk ∈ t, chunk.length < 2 ^ 31)
    (h : ∀ chunk ∈ t, ∀ x ∈ chunk, Reads p (write x) (value x)) :
    Reads (fromVector (fromVector p)) (listTo (listTo write) t) (t.map (·.map value)) :=
  reads_vector (hcounted.1.trans (by decide)) fun chunk hchunk =>
    reads_vector ((hcounted.2 chunk hchunk).trans (by decide)) (h chunk hchunk)

theorem item_map {γ α : Type} {xs : List γ} {i : Nat} {x : γ} (h : xs[i]? = some x) (value : γ → α) :
    item (xs.map value) i = .ok (value x) := by
  rw [item, getElem?_map, h]
  rfl

theorem buildFragments_eq (t : Nsm.Layout Nsm.Fragment) :
    buildFragments (t.map (·.map locOf)) (t.map (·.map fun f => f.crc))
      (t.map (·.map fun f => word f.len)) = .ok (t.map (·.map (fragmentOf .one))) := by
  rw [buildFragments, length_map]
  refine mapM_range fun c chunk hchunk => ?_
  rw [item_map hchunk, ok_bind, length_map]
  refine mapM_range fun i f hf => ?_
  rw [item_map hf, item_map hchunk, ok_bind, ok_bind, item_map hf, item_map hchunk, ok_bind, ok_bind,
    item_map hf]
  rfl

/-- What the client makes of a manifest. Version 2 stops behind the fragments. -/
def manifestOf (version : Version) (m : Nsm.Manifest) (mf : Manifest) : Manifest :=
  match version with
  | .one => { headOf m mf with
      fragments := mf.fragments ++ m.fragments.map (·.map (fragmentOf .one))
      versionId := word m.versionId.toInt
      maxDisksPerNode := word m.maxDisksPerNode
      timestamp := m.timestamp }
  | .two => { headOf m mf with fragments := m.fragments.map (·.map (fragmentOf .two)) }

theorem innerFromVersion1_eq (hm : Encodable m compress) (hkey : KeyOk m.encryptInfo) :
    (innerFromVersion1 mf).run (innerToBuffer1 m) =
      .ok (manifestOf .one m mf, layoutOutput (fun f => optionTo stringTo f.ctr) m.fragments) := by
  have hread : Reads (innerFromVersion1 mf)
      (headTo m ++ (layoutOutput (fun f => locTo f.locOf) m.fragments ++
        (layoutOutput (fun f => checksumOutput f.crc) m.fragments ++
          (layoutOutput (fun f => intTo f.len) m.fragments ++ ([] ++ tailTo m)))))
      (manifestOf .one m mf) := by
    simp only [layoutOutput, append_assoc]
    exact (reads_head hm hkey).bind (reads_tag.bind
      ((reads_layout m.counted fun _ _ f _ => reads_location f).bind (reads_tag.bind
        ((reads_layout m.counted fun chunk hchunk f hf => reads_checksum fun digest hd => by
            rw [(hm.fragments chunk hchunk f hf).digest digest hd]; decide).bind
          (reads_tag.bind ((reads_layout m.counted fun _ _ f _ => reads_int f.len).bind
            ((Reads.lift (buildFragments_eq m.fragments)).bind ((reads_int _).bind
              ((reads_int _).bind ((reads_double _).bind_ret _))))))))))
  have hrun := hread (layoutOutput (fun f => optionTo stringTo f.ctr) m.fragments)
  simpa only [innerToBuffer1, append_assoc, nil_append] using hrun

theorem innerFromVersion2_eq (hm : Encodable m compress) (hkey : KeyOk m.encryptInfo) :
    (innerFromVersion2 mf).run (innerToBuffer2 m) = .ok (manifestOf .two m mf, tailTo m) := by
  have hread : Reads (innerFromVersion2 mf) (headTo m ++ layoutOutput fragmentTo m.fragments)
      (manifestOf .two m mf) :=
    (reads_head hm hkey).bind (reads_tag.bind
      ((reads_layout m.counted fun chunk hchunk f hf =>
        reads_fragment (hm.fragments chunk hchunk f hf)).bind_ret _))
  have hrun := hread (tailTo m)
  rwa [append_assoc] at hrun

/-- What is left of the uncompressed bytes once the client has the manifest. -/
def unread (m : Nsm.Manifest) : Version → Bytes
  | .one => layoutOutput (fun f => optionTo stringTo f.ctr) m.fragments
  | .two => tailTo m

def innerFromVersion (mf : Manifest) : Version → From Manifest
  | .one => innerFromVersion1 mf
  | .two => innerFromVersion2 mf

theorem innerFromVersion_eq (hm : Encodable m compress) (hkey : KeyOk m.encryptInfo) (mf : Manifest)
    (version : Version) : (innerFromVersion mf version).run (serialize m version) =
      .ok (manifestOf version m mf, unread m version) := by
  cases version with
  | one => exact innerFromVersion1_eq hm hkey
  | two => exact innerFromVersion2_eq hm hkey

theorem innerFromVersion_refuses (hm : Encodable m compress) (hkey : ¬ KeyOk m.encryptInfo)
    (mf : Manifest) (version : Version) :
    ∃ e, (innerFromVersion mf version).run (serialize m version) = .error e := by
  have hrefuses : Refuses (innerFromVersion mf version) (serialize m version) := by
    cases version <;> exact (refuses_head hm hkey).bind
  obtain ⟨e, he⟩ := hrefuses []
  rw [append_nil] at he
  exact ⟨e, he⟩

theorem reads_manifest (hsnappy : ∀ b, uncompress (compress b) = b) (hm : Encodable m compress)
    (hkey : KeyOk m.encryptInfo) (mf : Manifest) (version : Version) :
    Reads (fromManifest uncompress mf) (toBuffer m compress version) (manifestOf version m mf) := by
  have hinner := innerFromVersion_eq hm hkey mf version
  rw [← hsnappy (serialize m version)] at hinner
  have hstring := reads_string ((hm.compressed version).trans (by decide))
  cases version <;>
  · refine (reads_uint8 _).bind (hstring.bind_pure ?_)
    simp only [innerFromVersion] at hinner
    rw [hinner]
    rfl

theorem refuses_manifest (hsnappy : ∀ b, uncompress (compress b) = b) (hm : Encodable m compress)
    (hkey : ¬ KeyOk m.encryptInfo) (mf : Manifest) (version : Version) :
    Refuses (fromManifest uncompress mf) (toBuffer m compress version) := by
  obtain ⟨e, he⟩ := innerFromVersion_refuses hm hkey mf version
  rw [← hsnappy (serialize m version)] at he
  have hstring := reads_string ((hm.compressed version).trans (by decide))
  unfold toBuffer
  rw [← append_nil (stringTo _)]
  cases version <;>
  · refine (reads_uint8 _).bind_refuses (hstring.bind_refuses fun rest => ⟨e, ?_⟩)
    simp only [innerFromVersion] at he
    rw [he]
    rfl

end Manifests

section Agreement

def InInt32 (i : Int) : Prop := -2 ^ 31 ≤ i ∧ i < 2 ^ 31

/-- The client's word stands for the integer. -/
def SameInt (x : UInt32) (i : Int) : Prop := x.toBitVec.toInt = i

theorem sameInt_iff {x : UInt32} {i : Int} (h : InInt32 i) : SameInt x i ↔ x = word i := by
  have hword : (word i).toBitVec = BitVec.ofInt 32 i := toBitVec_ofNat_toNat _
  constructor
  · intro hx
    apply UInt32.toBitVec_inj.mp
    rw [hword, ← hx, BitVec.ofInt_toInt]
  · rintro rfl
    rw [SameInt, hword]
    exact BitVec.toInt_ofInt_eq_self (by decide) h.1 h.2

theorem sameInt_word {i : Int} (h : InInt32 i) : SameInt (word i) i := (sameInt_iff h).mpr rfl

structure SameFragment (version : Version) (f : Nsm.Fragment) (g : Fragment) : Prop where
  osd : g.loc.1.map UInt64.toNat = f.osd.map Nsm.Nat63.val
  ver : SameInt g.loc.2 f.ver.toInt
  crc : g.crc = f.crc
  len : SameInt g.len f.len
  ctr : g.ctr = f.ctr
  fnr : version = .two → g.fnr = f.fnr

structure SameManifest (version : Version) (t : Nsm.Manifest) (mf : Manifest) : Prop where
  name : mf.name = t.name
  objectId : mf.objectId = t.objectId
  chunkSizes : List.Forall₂ SameInt mf.chunkSizes t.chunkSizes
  k : SameInt mf.encodingScheme.k t.storageScheme.k
  m : SameInt mf.encodingScheme.m t.storageScheme.m
  w : mf.encodingScheme.w = 1
  compression : mf.compression = t.storageScheme.compression
  encryptInfo : mf.encryptInfo = t.encryptInfo
  checksum : mf.checksum = t.checksum
  size : mf.size.toBitVec = t.size
  versionId : SameInt mf.versionId t.versionId.toInt
  maxDisksPerNode : SameInt mf.maxDisksPerNode t.maxDisksPerNode
  timestamp : mf.timestamp = t.timestamp
  fragments : List.Forall₂ (List.Forall₂ (SameFragment version)) t.fragments mf.fragments

/-- The integers of the manifest are in the range of 32 bits. -/
structure Ranged (t : Nsm.Manifest) : Prop where
  chunkSizes : ∀ i ∈ t.chunkSizes, InInt32 i
  k : InInt32 t.storageScheme.k
  m : InInt32 t.storageScheme.m
  maxDisksPerNode : InInt32 t.maxDisksPerNode
  len : ∀ chunk ∈ t.fragments, ∀ f ∈ chunk, InInt32 f.len

/-- The bits of 1.0. -/
def one : Nsm.Timestamp := ⟨0x3FF0000000000000⟩

/-- A record that the constructor made: `timestamp` has an initial value, the integers may be anything. -/
structure Fresh (mf : Manifest) : Prop where
  fragments : mf.fragments = []
  timestamp : mf.timestamp = one

/-- What the client's code does not read is there already. -/
def Covered (version : Version) (t : Nsm.Manifest) (mf : Manifest) : Prop :=
  match version with
  | .one => ∀ chunk ∈ t.fragments, ∀ f ∈ chunk, f.ctr = none
  | .two => mf.versionId = word t.versionId.toInt ∧ mf.maxDisksPerNode = word t.maxDisksPerNode ∧
      t.timestamp = one

variable {t : Nsm.Manifest} {mf : Manifest} {compress uncompress : Bytes → Bytes}

theorem int32_ranged (i : Int32) : InInt32 i.toInt := ⟨i.le_toInt, i.toInt_lt⟩

theorem sameFragment_iff {version : Version} {f : Nsm.Fragment} (hlen : InInt32 f.len) :
    SameFragment version f (fragmentOf version f) ↔ (version = .one → f.ctr = none) := by
  constructor
  · intro h hone
    subst hone
    exact h.ctr.symm
  · intro h
    refine ⟨?_, sameInt_word (int32_ranged _), rfl, sameInt_word hlen, ?_, ?_⟩
    · cases hosd : f.osd with
      | none => simp [fragmentOf, locOf, hosd]
      | some osd =>
        have hval : (UInt64.ofNat osd.val).toNat = osd.val :=
          UInt64.toNat_ofNat_of_lt' (osd.fits.trans (by decide))
        simp only [fragmentOf, locOf, hosd, Option.map_some, hval]
    · cases version with
      | one => exact (h rfl).symm
      | two => rfl
    · rintro rfl
      rfl

theorem sameLayout_iff (version : Version) (hlen : ∀ chunk ∈ t.fragments, ∀ f ∈ chunk, InInt32 f.len) :
    List.Forall₂ (List.Forall₂ (SameFragment version)) t.fragments
        (t.fragments.map (·.map (fragmentOf version))) ↔
      (version = .one → ∀ chunk ∈ t.fragments, ∀ f ∈ chunk, f.ctr = none) := by
  simp only [forall₂_map_right_iff, forall₂_same]
  constructor
  · intro h hone chunk hchunk f hf
    exact (sameFragment_iff (hlen chunk hchunk f hf)).mp (h chunk hchunk f hf) hone
  · intro h chunk hchunk f hf
    exact (sameFragment_iff (hlen chunk hchunk f hf)).mpr fun hone => h hone chunk hchunk f hf

theorem sameManifest_iff (ht : Ranged t) (hmf : Fresh mf) (version : Version) :
    SameManifest version t (manifestOf version t mf) ↔ Covered version t mf := by
  have hsizes : List.Forall₂ SameInt (t.chunkSizes.map word) t.chunkSizes := by
    rw [forall₂_map_left_iff, forall₂_same]
    exact fun i hi => sameInt_word (ht.chunkSizes i hi)
  have hsize : (UInt64.ofNat t.size.toNat).toBitVec = t.size := by simp
  cases version with
  | one =>
    have hlayout := sameLayout_iff .one ht.len
    constructor
    · intro h
      have hfragments := h.fragments
      rw [manifestOf, hmf.fragments, nil_append] at hfragments
      exact hlayout.mp hfragments rfl
    · intro h
      refine ⟨rfl, rfl, hsizes, sameInt_word ht.k, sameInt_word ht.m, rfl, rfl, rfl, rfl, hsize,
        sameInt_word (int32_ranged _), sameInt_word ht.maxDisksPerNode, rfl, ?_⟩
      rw [manifestOf, hmf.fragments, nil_append]
      exact hlayout.mpr fun _ => h
  | two =>
    have hlayout := sameLayout_iff .two ht.len
    constructor
    · intro h
      exact ⟨(sameInt_iff (int32_ranged _)).mp h.versionId,
        (sameInt_iff ht.maxDisksPerNode).mp h.maxDisksPerNode,
        h.timestamp.symm.trans hmf.timestamp⟩
    · rintro ⟨hversion, hmax, htime⟩
      exact ⟨rfl, rfl, hsizes, sameInt_word ht.k, sameInt_word ht.m, rfl, rfl, rfl, rfl, hsize,
        (sameInt_iff (int32_ranged _)).mpr hversion, (sameInt_iff ht.maxDisksPerNode).mpr hmax,
        hmf.timestamp.trans htime.symm, hlayout.mpr nofun⟩

/-- The client gets the manifest out of what the server wrote, field by field. -/
def Agree (compress uncompress : Bytes → Bytes) (version : Version) (t : Nsm.Manifest) (mf : Manifest) :
    Prop :=
  ∃ mf', Reads (fromManifest uncompress mf) (toBuffer t compress version) mf' ∧ SameManifest version t mf'

theorem agree_iff_covered (hsnappy : ∀ b, uncompress (compress b) = b) (ht : Encodable t compress)
    (hranged : Ranged t) (hmf : Fresh mf) (hkey : KeyOk t.encryptInfo) (version : Version) :
    Agree compress uncompress version t mf ↔ Covered version t mf := by
  have hreads := reads_manifest hsnappy ht hkey mf version
  have hsame := sameManifest_iff hranged hmf version
  constructor
  · rintro ⟨mf', hreads', hsame'⟩
    cases (hreads []).symm.trans (hreads' [])
    exact hsame.mp hsame'
  · exact fun h => ⟨_, hreads, hsame.mpr h⟩

/-- The client decodes what the server encodes, in each version, exactly when the key has 256 bits and
the fields that the version's reader leaves out have the value that the record starts with. -/
theorem manifest_agrees_iff (hsnappy : ∀ b, uncompress (compress b) = b) (ht : Encodable t compress)
    (hranged : Ranged t) (hmf : Fresh mf) (version : Version) :
    Agree compress uncompress version t mf ↔ KeyOk t.encryptInfo ∧ Covered version t mf := by
  by_cases hkey : KeyOk t.encryptInfo
  · rw [agree_iff_covered hsnappy ht hranged hmf hkey version, and_iff_right hkey]
  · constructor
    · rintro ⟨mf', hreads', -⟩
      obtain ⟨e, he⟩ := refuses_manifest hsnappy ht hkey mf version []
      cases he.symm.trans (hreads' [])
    · exact fun h => (hkey h.1).elim

def single (ctr : Option Bytes) : Nsm.Manifest where
  name := [0x61]
  objectId := [0x62]
  storageScheme := { k := 1, m := 0, w := .w8, compression := .noCompression }
  encryptInfo := .encrypted ⟨.ctr⟩ (List.replicate 32 7)
  chunkSizes := [4]
  size := 4
  checksum := .noChecksum
  fragments := [[{ osd := some 3, ver := 0, crc := .noChecksum, len := 4, ctr := ctr, fnr := none }]]
  versionId := 1
  maxDisksPerNode := 2
  timestamp := ⟨0x41D5000000000000⟩
  counted := by simp

/-- A record as `new ManifestWithNamespaceId()` makes it. -/
def blank : Manifest where
  name := []
  objectId := []
  chunkSizes := []
  encodingScheme := ⟨0, 0, 0⟩
  compression := .noCompression
  encryptInfo := .noEncryption
  checksum := .noChecksum
  size := 0
  fragments := []
  versionId := 0
  maxDisksPerNode := 0
  timestamp := one

theorem fresh_blank : Fresh blank := ⟨rfl, rfl⟩

theorem ranged_single (ctr : Option Bytes) : Ranged (single ctr) := by
  constructor <;> simp [single, InInt32]

def counter : Bytes := List.replicate 16 9

theorem encodable_single : ∀ ctr ∈ [none, some counter], Encodable (single ctr) id := by
  have hlengths : ∀ ctr ∈ [none, some counter],
      (∀ chunk ∈ (single ctr).fragments, ∀ f ∈ chunk, (innerFragmentTo f).length < 2 ^ 31) ∧
        (serialize (single ctr) .one).length < 2 ^ 31 ∧ (serialize (single ctr) .two).length < 2 ^ 31 := by
    decide +kernel
  intro ctr hctr
  obtain ⟨hinner, hone, htwo⟩ := hlengths ctr hctr
  constructor
  case fragments =>
    intro chunk hchunk f hf
    have hlength := hinner chunk hchunk f hf
    simp only [single, mem_singleton] at hchunk hf
    subst hchunk
    cases mem_singleton.mp hf
    refine ⟨by simp, hlength, ?_, by simp⟩
    simp only [mem_cons, not_mem_nil, or_false] at hctr
    rcases hctr with rfl | rfl <;> simp [counter]
  case compressed =>
    intro version
    cases version with
    | one => exact hone
    | two => exact htwo
  case key =>
    intro algo key he
    cases he
    decide
  all_goals simp [single]

/-- Version 2 loses the version and the number of disks per node, version 1 the counter of the fragment. -/
theorem single_not_agrees : Encodable (single (some counter)) id ∧ Ranged (single (some counter)) ∧
    Fresh blank ∧ KeyOk (single (some counter)).encryptInfo ∧
      ∀ version, ¬ Agree id id version (single (some counter)) blank := by
  have hencodable := encodable_single (some counter) (by simp)
  have hranged := ranged_single (some counter)
  refine ⟨hencodable, hranged, fresh_blank, rfl, fun version => ?_⟩
  rw [agree_iff_covered (fun _ => rfl) hencodable hranged fresh_blank rfl]
  cases version with
  | one => simp [Covered, single]
  | two =>
    rintro ⟨hversion, -⟩
    exact absurd hversion (by decide)

theorem manifest_agrees_iff_single : Encodable (single none) id ∧ Ranged (single none) ∧ Fresh blank ∧
    Agree id id .one (single none) blank := by
  have hencodable := encodable_single none (by simp)
  have hranged := ranged_single none
  refine ⟨hencodable, hranged, fresh_blank, ?_⟩
  exact (manifest_agrees_iff (fun _ => rfl) hencodable hranged fresh_blank .one).mpr
    ⟨rfl, by simp [Covered, single]⟩

end Agreement

end Alba.Rora
