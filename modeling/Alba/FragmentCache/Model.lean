import Alba.NsmHost.Store
import Alba.ProofKit.Words

/-! The fragment cache on a local file system: the records of its database and the eviction of dropped
buckets by `blob_cache`. A key prefix of the database is a table here, and a path is the bucket and the
file system id of the blob. -/

namespace Alba.FragmentCache

open ProofKit Std
open Nsm (Nat63 intTo stringTo)
open NsmHost (xInt64To)

abbrev Bid := Nat63

abbrev Boid := Bid × Bytes

/-- `Fragment_cache_keys.make_key` -/
def makeKey (objectId : Bytes) (chunkId fragmentId : Int) : Bytes :=
  stringTo objectId ++ (intTo chunkId ++ intTo fragmentId)

inductive Exn
  | notFound
  | invalidArgument
  | assertFailure
  | endOfFile
  deriving DecidableEq

section Keys

def fsidName : Bytes := ascii ['0', '0', '_', 'f', 's', 'i', 'd']

def sizeName : Bytes := ascii ['1', '0', '_', 's', 'i', 'z', 'e']

def accessName : Bytes := ascii ['2', '0', '_', 'a', 'c', 'c', 'e', 's', 's']

def pastNames : Bytes := ascii ['9', '9']

def blobKey (boid : Boid) (attributeName : Bytes) : Bytes := xInt64To boid.1 ++ boid.2 ++ attributeName

def blobStartKeyOf (bid : Bid) : Bytes := blobKey (bid, []) []

def blobFsidKeyOf (boid : Boid) : Bytes := blobKey boid fsidName

def blobSizeKeyOf (boid : Boid) : Bytes := blobKey boid sizeName

def blobAccessKeyOf (boid : Boid) : Bytes := blobKey boid accessName

/-- The first key of the next bucket; for the last one, the end of the table. -/
def blobTooFarKeyOf (bid : Bid) : Option Bytes :=
  if h : bid.val + 1 < 2 ^ 63 then some (blobStartKeyOf ⟨bid.val + 1, h⟩) else none

/-- `x_int64_from` of bytes that were written for a number that is not negative. -/
def xInt64From (b : Bytes) : Except Exn Bid :=
  let i := ofLe (b.take 4)
  if b.length < 4 then .error .invalidArgument
  else if h : i < 2 ^ 31 - 1 then .ok ⟨i, by omega⟩
  else if b.length < 12 then .error .invalidArgument
  else if h : ofLe ((b.drop 4).take 8) < 2 ^ 63 then .ok ⟨_, h⟩
  else .error .invalidArgument

def boidOfFsidKey (key : Bytes) : Except Exn Boid := do
  let bid ← xInt64From key
  -- `String.sub` with four bytes for the bucket
  if key.length < 4 + fsidName.length then throw .invalidArgument
  return (bid, (key.drop 4).take (key.length - 4 - fsidName.length))

def boidOf (vboid : Bytes) : Except Exn Boid := do
  let bid ← xInt64From vboid
  return (bid, vboid.drop 4)

def boidValueOf (boid : Boid) : Bytes := xInt64To boid.1 ++ boid.2

/-- What `Llio.int_from` reads of a size that `Llio.int_to` wrote. -/
def sizeValueOf (size : Nat) : Int := (BitVec.ofNat 32 size).toInt

end Keys

section State

inductive Attr
  | fsid (fsid : Nat)
  | size (size : Int)
  | access (access : Nat)
  deriving DecidableEq

structure Cache where
  blobs : ExtTreeMap Bytes Attr := ∅
  lru : ExtTreeMap Nat Bytes := ∅
  totalCount : Int := 0
  totalSize : Int := 0
  files : Bid × Nat → Option Bytes := fun _ => none
  /-- the buckets that are being dropped -/
  dropping : List Bid := []
  /-- the number of file system ids that have been made -/
  c : Nat := 0
  /-- the last access time -/
  low : Nat := 0

abbrev Act := EStateM Exn Cache

/-- `Hashtbl.choose_first`: some element of the table, if it has one. -/
structure Choice where
  first : List Bid → Option Bid
  mem : ∀ {l b}, first l = some b → b ∈ l
  exists_first : ∀ {l}, l ≠ [] → ∃ b, first l = some b

def findFsid (s : Cache) (boid : Boid) : Option Nat :=
  match s.blobs[blobFsidKeyOf boid]? with
  | some (.fsid fsid) => some fsid
  | _ => none

def getFsid (s : Cache) (boid : Boid) : Except Exn Nat :=
  match findFsid s boid with
  | some fsid => .ok fsid
  | none => .error .notFound

def getSize (s : Cache) (boid : Boid) : Except Exn Int :=
  match s.blobs[blobSizeKeyOf boid]? with
  | some (.size size) => .ok size
  | _ => .error .notFound

def getAccess (s : Cache) (boid : Boid) : Except Exn Nat :=
  match s.blobs[blobAccessKeyOf boid]? with
  | some (.access access) => .ok access
  | _ => .error .notFound

end State

section Evict

structure Victim where
  access : Nat
  boid : Boid
  fsid : Nat
  size : Int
  deriving DecidableEq

/-- The key on which a cursor stands after a jump to the right. -/
def jump (s : Cache) (key : Bytes) : Option Bytes := Direction.right.seek true key s.blobs.keys

def beyond (tooFar : Option Bytes) (key : Bytes) : Bool :=
  match tooFar with
  | some tooFar => compare key tooFar != .lt
  | none => false

/-- The loop of `get_bid_victims`. -/
def bidLoop (s : Cache) (tooFar : Option Bytes) (victimsSize : Int) :
    Nat → Option Bytes → List Victim → Nat → Int → Except Exn (List Victim × Nat × Int)
  | 0, _, victims, n, delta => .ok (victims, n, delta)
  | _ + 1, none, victims, n, delta => .ok (victims, n, delta)
  | fuel + 1, some kboid, victims, n, delta =>
    if delta ≥ victimsSize then .ok (victims, n, delta)
    else if beyond tooFar kboid then .ok (victims, n, delta)
    else do
      let boid ← boidOfFsidKey kboid
      let size ← getSize s boid
      let fsid ← getFsid s boid
      let access ← getAccess s boid
      bidLoop s tooFar victimsSize fuel (jump s (blobKey boid pastNames))
        ({ access, boid, fsid, size } :: victims) (n + 1) (delta + size)

/-- Each round passes a key, or gathers a blob again that is not empty. -/
def getBidVictims (s : Cache) (bid : Bid) (victimsSize : Int) : Except Exn (List Victim × Nat × Int) :=
  bidLoop s (blobTooFarKeyOf bid) victimsSize (s.blobs.size + victimsSize.toNat + 1)
    (jump s (blobStartKeyOf bid)) [] 0 0

/-- `inner` of `get_dropping_victims`. A bucket stays in the table only when it gave enough, and then no
other one is asked: a size is not negative. -/
def droppingLoop (choice : Choice) (victimsSize : Int) :
    Nat → List Victim → Nat → Int → Act (List Victim × Nat × Int)
  | 0, victims, n, delta => return (victims, n, delta)
  | fuel + 1, victims, n, delta => do
    if delta ≥ victimsSize then return (victims, n, delta)
    let s ← get
    match choice.first s.dropping with
    | none => return (victims, n, delta)
    | some bid =>
      let (victims', n', delta') ← MonadExcept.ofExcept (getBidVictims s bid victimsSize)
      if delta' < victimsSize then set { s with dropping := s.dropping.erase bid }
      droppingLoop choice victimsSize fuel (victims'.reverse ++ victims) (n + n') (delta + delta')

def getDroppingVictims (choice : Choice) (victimsSize : Int) : Act (List Victim × Nat × Int) := do
  let s ← get
  droppingLoop choice victimsSize (s.dropping.length + 1) [] 0 0

def deleteVictim (s : Cache) (v : Victim) : Cache := { s with
  blobs := ((s.blobs.erase (blobFsidKeyOf v.boid)).erase (blobSizeKeyOf v.boid)).erase
    (blobAccessKeyOf v.boid)
  lru := s.lru.erase v.access }

def deleteVictimsFromRocksdb (victims : List Victim) : Act Unit :=
  modify fun s => victims.foldl deleteVictim s

end Evict

/-- The records of a blob, as every kind of `add` writes them. -/
def putRecords (access fsid : Nat) (boid : Boid) (blob : Bytes) (s : Cache) : Cache := { s with
  blobs := ((s.blobs.insert (blobFsidKeyOf boid) (.fsid fsid)).insert (blobSizeKeyOf boid)
    (.size (sizeValueOf blob.length))).insert (blobAccessKeyOf boid) (.access access)
  lru := s.lru.insert access (boidValueOf boid) }

/-- The state after an action, also when it raised. -/
def after {α : Type} (act : Act α) (s : Cache) : Cache :=
  match act.run s with
  | .ok _ s => s
  | .error _ s => s

end Alba.FragmentCache
