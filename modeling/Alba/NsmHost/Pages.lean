import Alba.NsmHost.Isolation

/-! Ranges that are read in pages. A page ends at the last key that it returned, and the next one starts
past it; so the pages of a range are parts of the list of its keys, one after the other. -/

namespace Alba.NsmHost

open List hiding next
open ProofKit Nsm Std

/-- `list_all_x` with the number of pages that may be read; `none` when there are more. A page starts
at a `P`, and `next` is the start past a key. -/
def listAllX {P : Type} (next : Bytes → P) (harvest : P → Except Exn ((Int × List Bytes) × Bool)) :
    Nat → Int → List Bytes → P → Except Exn (Option (Int × List Bytes))
  | 0, _, _, _ => .ok none
  | fuel + 1, cnt, acc, first => do
    let ((cnt', items), hasMore) ← harvest first
    let acc' := items.reverse ++ acc
    if hasMore then
      match acc' with
      | [] => .error .failure
      | k :: _ => listAllX next harvest fuel (cnt + cnt') acc' (next k)
    else return some (cnt + cnt', acc'.reverse)

/-- What a range query answers when the keys of the range are `ks`. -/
def page (max : Int) (ks : List Bytes) : (Int × List Bytes) × Bool :=
  ((((upTo max ks).1.length : Int), (upTo max ks).1), (upTo max ks).2)

theorem listAllX_eq {P : Type} {next : Bytes → P}
    {harvest : P → Except Exn ((Int × List Bytes) × Bool)} {n : Nat} {all : List Bytes}
    (hnext : ∀ before k rest, all = before ++ k :: rest → harvest (next k) = .ok (page (n + 1) rest))
    {fuel : Nat} {first : P} {seen rest : List Bytes} (hall : all = seen ++ rest)
    (hfirst : harvest first = .ok (page (n + 1) rest)) (hfuel : rest.length < fuel) :
    listAllX next harvest fuel seen.length seen.reverse first =
      .ok (some ((all.length : Int), all)) := by
  induction fuel generalizing first seen rest with
  | zero => exact absurd hfuel (Nat.not_lt_zero _)
  | succ fuel ih =>
    have hpage : upTo (n + 1) rest = (rest.take (n + 1), decide (n + 1 < rest.length)) := by
      simp [upTo, show ¬(n : Int) + 1 < 0 by omega]
    rw [listAllX, hfirst, ok_bind, page, hpage]
    by_cases hmore : n + 1 < rest.length
    · -- the page is full; its last key is where the next one starts
      obtain ⟨init, k, hk⟩ : ∃ init k, rest.take (n + 1) = init ++ [k] :=
        ⟨_, _, take_succ_eq_append_getElem (by omega)⟩
      have hrest : rest = init ++ k :: rest.drop (n + 1) := by
        conv_lhs => rw [← take_append_drop (n + 1) rest, hk]
        simp
      have hsplit : all = (seen ++ init) ++ k :: rest.drop (n + 1) := by
        rw [hall]
        conv_lhs => rw [hrest]
        simp
      have hacc : (init ++ [k]).reverse ++ seen.reverse = k :: (seen ++ init).reverse := by simp
      have hseen : k :: (seen ++ init).reverse = (seen ++ init ++ [k]).reverse := by simp
      have hcount : (seen.length : Int) + ((init ++ [k]).length : Int) =
          ((seen ++ init ++ [k]).length : Int) := by simp
      simp only [hmore, decide_true, if_true, hk, hacc]
      rw [hcount, hseen]
      refine ih (by rw [hsplit]; simp) (hnext _ _ _ hsplit) ?_
      rw [length_drop]
      omega
    · have hrest : rest.take (n + 1) = rest := take_of_length_le (by omega)
      simp [hmore, hrest, hall]
      rfl

section Ranges

variable {V : Type} (db : ExtTreeMap Bytes V)

/-- The keys of a range, in the order in which they are returned. -/
def keysOf (first : Bytes) (finc : Bool) (last : Option (Bytes × Bool)) (reverse : Bool) : List Bytes :=
  (if reverse then Direction.left else .right).along (db.keys.filter (inRange first finc last))

theorem range_eq (first : Bytes) (finc : Bool) (last : Option (Bytes × Bool)) (max : Int)
    (reverse : Bool) :
    range [] db first finc last max reverse = .ok (page max (keysOf db first finc last reverse)) := by
  have hpfx : ([] : Bytes).getLast? ≠ some 255 := by simp
  have h := mapRange_keys hpfx db first finc last max reverse id rfl
  rw [map_id, within_nil] at h
  exact h

variable {db}

theorem filter_past {dir : Direction} {start comp : Bytes → Bool}
    (hstart : ∀ a b, dir.ahead a b = true → start a = true → start b = true)
    {before rest : List Bytes} {k : Bytes}
    (h : dir.along (db.keys.filter fun x => start x && comp x) = before ++ k :: rest) :
    dir.along (db.keys.filter fun x => dir.ahead k x && comp x) = rest := by
  have hk : k ∈ db.keys.filter fun x => start x && comp x := by
    rw [← Direction.mem_along dir, h]
    simp
  have hsub : (db.keys.filter fun x => dir.ahead k x && comp x) =
      (db.keys.filter fun x => start x && comp x).filter (dir.ahead k) := by
    rw [filter_filter]
    refine filter_congr fun x _ => ?_
    cases hx : dir.ahead k x with
    | false => rfl
    | true =>
      have hin : start k = true ∧ comp k = true := by simpa using (mem_filter.mp hk).2
      simp [hstart k x hx hin.1]
  have hsorted : (dir.along (db.keys.filter fun x => start x && comp x)).Pairwise
      fun a b => dir.ahead a b = true := by
    rw [Direction.along_filter]
    exact (Direction.along_keys_pairwise dir db).filter _
  rw [h] at hsorted
  obtain ⟨-, hrest, hbefore⟩ := pairwise_append.mp hsorted
  have hnone : before.filter (dir.ahead k) = [] := by
    refine filter_eq_nil_iff.mpr fun a ha => ?_
    simp [Direction.ahead_asymm (hbefore a ha k mem_cons_self)]
  rw [hsub, Direction.along_filter, h, filter_append, hnone, filter_cons_of_neg (by simp),
    filter_eq_self.mpr (pairwise_cons.mp hrest).1]
  rfl

theorem keysOf_forward (first : Bytes) (finc : Bool) (last : Option (Bytes × Bool)) :
    keysOf db first finc last false =
      Direction.right.along (db.keys.filter fun k => past .right finc first k && compLastKey last k) := by
  rw [← compFirstKey_eq]
  rfl

theorem keysOf_reverse (first : Bytes) (finc : Bool) (last : Option (Bytes × Bool)) :
    keysOf db first finc last true =
      Direction.left.along (db.keys.filter fun k => compLastKey last k && compFirstKey first finc k) :=
  congrArg Direction.left.along (filter_congr fun _ _ => Bool.and_comm _ _)

variable (db) in
theorem length_keysOf_lt (first : Bytes) (finc : Bool) (last : Option (Bytes × Bool)) (reverse : Bool)
    (extra : Nat) : (keysOf db first finc last reverse).length < db.size + 1 + extra := by
  have hle := length_filter_le (inRange first finc last) db.keys
  rw [ExtTreeMap.length_keys] at hle
  rw [keysOf, Direction.length_along]
  omega

/-- Every range query answers with the first keys of its range, in order, and with whether there are
more; and reading the range in pages of any size, each from the last key of the one before, ends with
all its keys. -/
theorem range_paged (db : ExtTreeMap Bytes V) (first : Bytes) (finc : Bool)
    (last : Option (Bytes × Bool)) :
    (∀ max reverse, range [] db first finc last max reverse =
      .ok (page max (keysOf db first finc last reverse))) ∧
    ∀ n extra : Nat, listAllX (fun k => (k, false)) (fun p => range [] db p.1 p.2 last (n + 1) false)
          (db.size + 1 + extra) 0 [] (first, finc) =
        .ok (some (((keysOf db first finc last false).length : Int), keysOf db first finc last false)) ∧
      listAllX (fun k => some (k, false)) (fun p => range [] db first finc p (n + 1) true)
          (db.size + 1 + extra) 0 [] last =
        .ok (some (((keysOf db first finc last true).length : Int), keysOf db first finc last true)) := by
  refine ⟨range_eq db first finc last, fun n extra => ⟨?_, ?_⟩⟩
  · refine listAllX_eq (fun before k rest h => ?_) (nil_append _).symm (range_eq db _ _ _ _ _)
      (length_keysOf_lt db first finc last false extra)
    rw [keysOf_forward] at h
    rw [range_eq, keysOf_forward, ← filter_past (fun a b => past_closed .right finc first) h]
    rfl
  · refine listAllX_eq (fun before k rest h => ?_) (nil_append _).symm (range_eq db _ _ _ _ _)
      (length_keysOf_lt db first finc last true extra)
    rw [keysOf_reverse] at h
    rw [range_eq, keysOf_reverse, ← filter_past (fun a b => compLastKey_closed last) h,
      compLastKey_some]
    rfl

end Ranges

end Alba.NsmHost
