import Alba.Nsm.Ranges
import Alba.ProofKit.Cursors

/-! The database of an nsm host. The keys of a namespace carry a text with its id, which
`WrapReadUserDb` adds to what is asked for and takes off what is found, and which `transform_updates`
adds to the keys that are changed. -/

namespace Alba.NsmHost

open ProofKit Nsm Std

/-- `x_int64_to` of a number that is not negative. -/
def xInt64To (i : Nat63) : Bytes :=
  if i.val < 2 ^ 31 - 1 then leBytes 4 i.val else leBytes 4 (2 ^ 31 - 1) ++ leBytes 8 i.val

namespace Keys

def nsmHostVersion : Bytes :=
  ascii ['/', 'n', 's', 'm', '_', 'h', 'o', 's', 't', '_', 'v', 'e', 'r', 's', 'i', 'o', 'n', '/']

def nextMsg : Bytes :=
  ascii ['/', 'n', 's', 'm', '_', 'h', 'o', 's', 't', '_', 'n', 'e', 'x', 't', '_', 'm', 's', 'g',
    '/']

def namespaceInfoPrefix : Bytes := ascii ['/', 'n', 's', 'm', 's', '/']

def namespaceInfo (namespaceId : NamespaceId) : Bytes := namespaceInfoPrefix ++ xInt64To namespaceId

def namespaceContentPrefix : Bytes := ascii ['/', 'n', 's', 'm', '/']

def namespaceContent (namespaceId : NamespaceId) : Bytes :=
  namespaceContentPrefix ++ xInt64To namespaceId

end Keys

section WrapReadUserDb

variable {V α : Type} (pfx : Bytes) (db : ExtTreeMap Bytes V)

def keyHasPrefix : Bytes → Bytes → Bool
  | [], _ => true
  | _ :: _, [] => false
  | a :: pfx, b :: key => b == a && keyHasPrefix pfx key

/-- The cursor of the database, by the key on which it stands, and the key that the namespace sees
there. -/
structure Cursor where
  cur : Option Bytes := none
  key : Option Bytes := none

def wrapGet (key : Bytes) : Option V := db[pfx ++ key]?

/-- A move of the database's cursor, which may find no key or one of somebody else. -/
def jumpAndValidate : Option Bytes → Bool × Cursor
  | some k =>
    if keyHasPrefix pfx k then (true, { cur := some k, key := some (k.drop pfx.length) })
    else (false, { cur := some k, key := none })
  | none => (false, { cur := none, key := none })

def curGetKey (c : Cursor) : Except Exn Bytes :=
  match c.key with
  | none => .error .failure
  | some k => .ok k

def curGetValue (c : Cursor) : Except Exn V :=
  match c.key with
  | none => .error .failure
  | some _ => (c.cur.bind fun k => db[k]?).elim (.error .failure) .ok

def curLast : Bool × Cursor :=
  jumpAndValidate pfx <|
    match Key.nextPrefix pfx with
    | none => db.keys.getLast?
    | some prefixNext => Direction.left.seek false prefixNext db.keys

def curPrev (c : Cursor) : Bool × Cursor :=
  jumpAndValidate pfx (c.cur.bind fun k => Direction.left.seek false k db.keys)

def curNext (c : Cursor) : Bool × Cursor :=
  jumpAndValidate pfx (c.cur.bind fun k => Direction.right.seek false k db.keys)

def curJump (dir : Direction) (key : Bytes) : Bool × Cursor :=
  jumpAndValidate pfx (dir.seek true (pfx ++ key) db.keys)

/-- The loop of `_fold_range`. The callback gets the value on which the cursor stands with its key.
There is fuel for every key of the database, and a cursor meets none of them twice. -/
def foldRangeLoop (compEndKey : Bytes → Bool) (curNext : Cursor → Bool × Cursor) (max : Int)
    (f : Bytes → V → Int × α → Except Exn (Int × α)) :
    Nat → Cursor → α → Int → Except Exn ((Int × α) × Bool)
  | 0, _, _, _ => .error .failure
  | fuel + 1, cur, acc, count =>
    if count = max then do
      let k ← curGetKey cur
      return ((count, acc), compEndKey k)
    else do
      let k ← curGetKey cur
      if compEndKey k then
        let v ← curGetValue db cur
        let (count', acc') ← f k v (count, acc)
        if (curNext cur).1 then
          foldRangeLoop compEndKey curNext max f fuel (curNext cur).2 acc' count'
        else return ((count', acc'), false)
      else return ((count, acc), false)

/-- Go one key further when the cursor stands on the bound and the bound is left out. -/
def skipBound (move : Cursor → Bool × Cursor) (inc : Bool) (bound : Bytes) (start : Bool × Cursor) :
    Bool × Cursor :=
  if start.1 && !inc && start.2.key == some bound then move start.2 else start

def compFirstKey (first : Bytes) (finc : Bool) (k : Bytes) : Bool :=
  if finc then compare k first != .lt else compare k first == .gt

def compLastKey (last : Option (Bytes × Bool)) (k : Bytes) : Bool :=
  match last with
  | none => true
  | some (last, linc) => if linc then compare k last != .gt else compare k last == .lt

def foldRange (first : Bytes) (finc : Bool) (last : Option (Bytes × Bool)) (max : Int)
    (reverse : Bool) (f : Bytes → V → Int × α → Except Exn (Int × α)) (init : α) :
    Except Exn ((Int × α) × Bool) :=
  if reverse then
    let start := match last with
      | none => curLast pfx db
      | some (last, linc) => skipBound (curPrev pfx db) linc last (curJump pfx db .left last)
    if start.1 then
      foldRangeLoop db (compFirstKey first finc) (curPrev pfx db) max f db.size start.2 init 0
    else .ok ((0, init), false)
  else
    let start := skipBound (curNext pfx db) finc first (curJump pfx db .right first)
    if start.1 then
      foldRangeLoop db (compLastKey last) (curNext pfx db) max f db.size start.2 init 0
    else .ok ((0, init), false)

def mapRange (first : Bytes) (finc : Bool) (last : Option (Bytes × Bool)) (max : Int)
    (reverse : Bool) (f : Bytes → V → Except Exn α) : Except Exn ((Int × List α) × Bool) := do
  let ((cnt, items), haveMore) ← foldRange pfx db first finc last max reverse
    (fun key v (cnt, acc) => do
      let item ← f key v
      return (cnt + 1, item :: acc)) []
  return ((cnt, items.reverse), haveMore)

def range (first : Bytes) (finc : Bool) (last : Option (Bytes × Bool)) (max : Int)
    (reverse : Bool) : Except Exn ((Int × List Bytes) × Bool) :=
  mapRange pfx db first finc last max reverse fun key _ => .ok key

end WrapReadUserDb

end Alba.NsmHost
