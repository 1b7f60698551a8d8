import Alba.FragmentCache.Model
import Alba.NsmHost.Isolation
import Alba.ProofKit.Scans

/-! What the records of the database say: which blobs are cached, each with the id of its file, its size
and its last access. A blob is named by the bytes that its keys start with. -/

namespace Alba.FragmentCache

open ProofKit Std List
open Nsm (Nat63 intTo stringTo)
open NsmHost (xInt64To xInt64To_append_inj)

inductive Name
  | fsid
  | size
  | access
  deriving DecidableEq

namespace Name

def bytes : Name → Bytes
  | fsid => fsidName
  | size => sizeName
  | access => accessName

theorem getLast?_append_bytes (base : Bytes) (n : Name) :
    (base ++ n.bytes).getLast? = n.bytes.getLast? := by
  rw [getLast?_append]
  cases n <;> rfl

theorem append_bytes_inj {a b : Bytes} {n n' : Name} :
    a ++ n.bytes = b ++ n'.bytes ↔ a = b ∧ n = n' := by
  refine ⟨fun h => ?_, fun ⟨ha, hn⟩ => by rw [ha, hn]⟩
  have hn : n = n' := by
    have hlast : n.bytes.getLast? = n'.bytes.getLast? := by
      rw [← getLast?_append_bytes a, ← getLast?_append_bytes b, h]
    revert hlast
    cases n <;> cases n' <;> decide
  subst hn
  exact ⟨append_cancel_right h, rfl⟩

end Name

structure Blob where
  fsid : Nat
  size : Int
  access : Nat
  deriving DecidableEq

namespace Blob

def attr (b : Blob) : Name → Attr
  | .fsid => .fsid b.fsid
  | .size => .size b.size
  | .access => .access b.access

end Blob

abbrev Contents := ExtTreeMap Bytes Blob

theorem mem_of_get {m : Contents} {base : Bytes} {b : Blob} (h : m[base]? = some b) : base ∈ m :=
  ExtTreeMap.isSome_getElem?_iff_mem.mp (by simp [h])

/-- The records are those of the blobs `m`. -/
structure Stores (blobs : ExtTreeMap Bytes Attr) (m : Contents) : Prop where
  get : ∀ base n, blobs[base ++ Name.bytes n]? = m[base]?.map (Blob.attr · n)
  named : ∀ key ∈ blobs, ∃ base n, key = base ++ Name.bytes n

def without (m : Contents) (victims : List Victim) : Contents :=
  victims.foldl (fun m v => m.erase (boidValueOf v.boid)) m

theorem getElem?_without (m : Contents) (victims : List Victim) (base : Bytes) :
    (without m victims)[base]? =
      if base ∈ victims.map (fun v => boidValueOf v.boid) then none else m[base]? := by
  induction victims generalizing m with
  | nil => rfl
  | cons v victims ih =>
    change (without (m.erase (boidValueOf v.boid)) victims)[base]? = _
    rw [ih, ExtTreeMap.getElem?_erase]
    by_cases hbase : boidValueOf v.boid = base
    · simp [hbase]
    · simp [hbase, Ne.symm hbase]

namespace Stores

variable {s : Cache} {blobs : ExtTreeMap Bytes Attr} {m : Contents} {boid : Boid} {base : Bytes}

theorem empty : Stores ∅ ∅ where
  get _ _ := by simp
  named key h := absurd h ExtTreeMap.not_mem_empty

theorem mem_iff (h : Stores blobs m) {n : Name} : base ++ n.bytes ∈ blobs ↔ base ∈ m := by
  rw [← ExtTreeMap.isSome_getElem?_iff_mem, ← ExtTreeMap.isSome_getElem?_iff_mem, h.get,
    Option.isSome_map]

theorem findFsid_eq (h : Stores s.blobs m) : findFsid s boid = m[boidValueOf boid]?.map Blob.fsid := by
  have hget := h.get (boidValueOf boid) .fsid
  unfold findFsid blobFsidKeyOf blobKey
  change s.blobs[xInt64To boid.1 ++ boid.2 ++ fsidName]? = _ at hget
  rw [hget]
  cases m[boidValueOf boid]? <;> rfl

theorem getFsid_eq_ok (h : Stores s.blobs m) {fsid : Nat} :
    getFsid s boid = .ok fsid ↔ ∃ b, m[boidValueOf boid]? = some b ∧ b.fsid = fsid := by
  unfold getFsid
  rw [h.findFsid_eq]
  cases m[boidValueOf boid]? <;> simp

theorem getSize_eq_ok (h : Stores s.blobs m) {size : Int} :
    getSize s boid = .ok size ↔ ∃ b, m[boidValueOf boid]? = some b ∧ b.size = size := by
  have hget := h.get (boidValueOf boid) .size
  unfold getSize blobSizeKeyOf blobKey
  change s.blobs[xInt64To boid.1 ++ boid.2 ++ sizeName]? = _ at hget
  rw [hget]
  cases m[boidValueOf boid]? <;> simp [Blob.attr]

theorem getAccess_eq_ok (h : Stores s.blobs m) {access : Nat} :
    getAccess s boid = .ok access ↔ ∃ b, m[boidValueOf boid]? = some b ∧ b.access = access := by
  have hget := h.get (boidValueOf boid) .access
  unfold getAccess blobAccessKeyOf blobKey
  change s.blobs[xInt64To boid.1 ++ boid.2 ++ accessName]? = _ at hget
  rw [hget]
  cases m[boidValueOf boid]? <;> simp [Blob.attr]

section Changes

variable {b : Blob}

theorem insert (h : Stores blobs m) (base : Bytes) (b : Blob) :
    Stores (((blobs.insert (base ++ fsidName) (.fsid b.fsid)).insert (base ++ sizeName)
      (.size b.size)).insert (base ++ accessName) (.access b.access)) (m.insert base b) where
  get base' n := by
    change (((blobs.insert (base ++ Name.fsid.bytes) _).insert (base ++ Name.size.bytes) _).insert
      (base ++ Name.access.bytes) _)[_]? = _
    simp only [ExtTreeMap.getElem?_insert, Std.compare_eq_iff_eq, Name.append_bytes_inj, h.get]
    by_cases hb : base = base'
    · cases n <;> simp [hb, Blob.attr]
    · simp [hb]
  named key hkey := by
    simp only [ExtTreeMap.mem_insert, Std.compare_eq_iff_eq] at hkey
    rcases hkey with rfl | rfl | rfl | hkey
    · exact ⟨base, .access, rfl⟩
    · exact ⟨base, .size, rfl⟩
    · exact ⟨base, .fsid, rfl⟩
    · exact h.named key hkey

theorem erase (h : Stores blobs m) (base : Bytes) :
    Stores (((blobs.erase (base ++ fsidName)).erase (base ++ sizeName)).erase (base ++ accessName))
      (m.erase base) where
  get base' n := by
    change (((blobs.erase (base ++ Name.fsid.bytes)).erase (base ++ Name.size.bytes)).erase
      (base ++ Name.access.bytes))[_]? = _
    simp only [ExtTreeMap.getElem?_erase, Std.compare_eq_iff_eq, Name.append_bytes_inj, h.get]
    by_cases hb : base = base'
    · cases n <;> simp [hb]
    · simp [hb]
  named key hkey := by
    simp only [ExtTreeMap.mem_erase] at hkey
    exact h.named key hkey.2.2.2

theorem delete (h : Stores s.blobs m) (victims : List Victim) :
    Stores (victims.foldl deleteVictim s).blobs (without m victims) := by
  induction victims generalizing s m with
  | nil => exact h
  | cons v victims ih => exact @ih (deleteVictim s v) _ (h.erase (boidValueOf v.boid))

end Changes

end Stores

section Names

theorem boidValueOf_inj {a b : Boid} (h : boidValueOf a = boidValueOf b) : a = b := by
  obtain ⟨hbid, hoid⟩ := xInt64To_append_inj h
  exact Prod.ext hbid hoid

/-- The ids of the buckets that are written in four bytes. -/
def Small (bid : Bid) : Prop := bid.val < 2 ^ 31 - 1

instance (bid : Bid) : Decidable (Small bid) := inferInstanceAs (Decidable (_ < _))

theorem xInt64To_small {bid : Bid} (h : Small bid) : xInt64To bid = leBytes 4 bid.val := by
  exact if_pos h

theorem xInt64From_small {bid : Bid} (h : Small bid) (rest : Bytes) :
    xInt64From (xInt64To bid ++ rest) = .ok bid := by
  have htake : (xInt64To bid ++ rest).take 4 = leBytes 4 bid.val := by
    rw [xInt64To_small h, take_left' (leBytes_length 4 _)]
  have hword : ofLe (leBytes 4 bid.val) = bid.val := by
    rw [ofLe_leBytes]
    exact Nat.mod_eq_of_lt (Nat.lt_trans h (by decide))
  unfold xInt64From
  rw [if_neg (by rw [xInt64To_small h, length_append, leBytes_length]; omega)]
  simp only [htake, hword]
  exact dif_pos h

theorem drop_small {bid : Bid} (h : Small bid) (rest : Bytes) : (xInt64To bid ++ rest).drop 4 = rest := by
  rw [xInt64To_small h, drop_left' (leBytes_length 4 _)]

theorem boidOf_boidValueOf {boid : Boid} (h : Small boid.1) : boidOf (boidValueOf boid) = .ok boid := by
  unfold boidOf boidValueOf
  rw [xInt64From_small h, ok_bind, drop_small h]
  rfl

theorem boidOfFsidKey_of_small {boid : Boid} (h : Small boid.1) :
    boidOfFsidKey (boidValueOf boid ++ fsidName) = .ok boid := by
  unfold boidOfFsidKey boidValueOf
  rw [append_assoc, xInt64From_small h, ok_bind, if_neg, drop_small h]
  · change Except.ok (boid.1, _) = _
    rw [xInt64To_small h, length_append, length_append, leBytes_length, take_left' (by omega)]
  · rw [xInt64To_small h, length_append, length_append, leBytes_length]
    omega

end Names

end Alba.FragmentCache
