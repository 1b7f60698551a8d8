import Alba.NsmHost.Store

/-! What a namespace finds through `WrapReadUserDb`: a cursor notices where the keys of the namespace end
whatever keys of others lie next to them. -/

namespace Alba.NsmHost

open List hiding next
open ProofKit Nsm Std

variable {V α : Type} {pfx : Bytes} {db : ExtTreeMap Bytes V}

@[simp] theorem keyHasPrefix_eq (pfx key : Bytes) : keyHasPrefix pfx key = pfx.isPrefixOf key := by
  induction pfx generalizing key with
  | nil => simp [keyHasPrefix]
  | cons a pfx ih =>
    cases key with
    | nil => rfl
    | cons b key =>
      rw [keyHasPrefix, ih, List.isPrefixOf, Bool.beq_comm]

section Cursors

def Cursor.on (pfx k : Bytes) : Cursor := { cur := some (pfx ++ k), key := some k }

/-- A move has found `k`, or nothing. -/
def Finds (pfx : Bytes) : Option Bytes → Bool × Cursor → Prop
  | some k, r => r = (true, Cursor.on pfx k)
  | none, r => r.1 = false

theorem finds_of_filter {moved own : Option Bytes}
    (h : moved.filter (pfx.isPrefixOf ·) = own.map (pfx ++ ·)) :
    Finds pfx own (jumpAndValidate pfx moved) := by
  cases moved with
  | none =>
    cases own with
    | none => rfl
    | some k => exact nomatch h
  | some key =>
    by_cases hkey : pfx.isPrefixOf key = true
    · simp only [Option.filter_some, hkey, if_true] at h
      cases own with
      | none => exact nomatch h
      | some k =>
        obtain rfl : key = pfx ++ k := Option.some.inj h
        show jumpAndValidate pfx (some (pfx ++ k)) = _
        simp [jumpAndValidate, Cursor.on]
    · simp only [Option.filter_some, hkey] at h
      cases own with
      | none =>
        show (jumpAndValidate pfx (some key)).1 = false
        simp [jumpAndValidate, hkey]
      | some k => exact nomatch h

theorem curJump_finds (dir : Direction) (key : Bytes) :
    Finds pfx (dir.seek true key (within pfx db).keys) (curJump pfx db dir key) :=
  finds_of_filter (seek_within dir true key)

/-- `cur_next` or `cur_prev`. -/
def curMove (pfx : Bytes) (db : ExtTreeMap Bytes V) : Direction → Cursor → Bool × Cursor
  | .right => curNext pfx db
  | .left => curPrev pfx db

theorem curMove_on_finds (dir : Direction) (k : Bytes) :
    Finds pfx (dir.seek false k (within pfx db).keys) (curMove pfx db dir (Cursor.on pfx k)) := by
  cases dir with
  | left => exact finds_of_filter (seek_within .left false k)
  | right => exact finds_of_filter (seek_within .right false k)

theorem nextPrefix_append_singleton {q : Bytes} {b : UInt8} (hb : b ≠ 255) :
    Key.nextPrefix (q ++ [b]) = some (q ++ [b + 1]) := by
  simp [Key.nextPrefix, Key.nextPrefix.inner, hb]

theorem lt_add_one {b : UInt8} (hb : b ≠ 255) : compare b (b + 1) = .lt := by
  rw [Std.LawfulLTCmp.eq_lt_iff_lt, UInt8.lt_iff_toNat_lt, UInt8.toNat_add]
  have hne : b.toNat ≠ 255 := fun he => hb (UInt8.toNat_inj.mp he)
  have := b.toNat_lt
  simp
  omega

/-- Where the last byte is not the highest one, nothing lies between the texts with a start and the
text with the next one. -/
theorem start_of_lt_next {q key : Bytes} {b : UInt8} (hfirst : compare (q ++ [b]) key ≠ .gt)
    (hlast : compare key (q ++ [b + 1]) = .lt) : q ++ [b] <+: key := by
  obtain ⟨r, rfl, hb, hnext⟩ := start_of_between hfirst hlast
  rw [List.prefix_append_right_inj]
  cases r with
  | nil => exact absurd rfl hb
  | cons c r =>
    rcases compare_cons_ne_gt hb with hlt | ⟨rfl, _⟩
    · rcases compare_cons_lt hnext with hlt' | ⟨rfl, hempty⟩
      · rw [UInt8.lt_iff_toNat_lt] at hlt hlt'
        rw [UInt8.toNat_add] at hlt'
        have := Nat.mod_le (b.toNat + 1) (2 ^ 8)
        simp at hlt'
        omega
      · cases r <;> exact nomatch hempty
    · exact ⟨r, rfl⟩

theorem start_of_all_highest {x key : Bytes} (hpfx : ∀ c ∈ pfx, c = 255)
    (h : compare (pfx ++ x) key ≠ .gt) : pfx <+: key := by
  have hrep : pfx = List.replicate pfx.length 255 := eq_replicate_iff.mpr ⟨rfl, hpfx⟩
  rw [hrep] at h ⊢
  exact start_of_highest h

theorem nextPrefix_eq_none : Key.nextPrefix pfx = none ↔ ∀ c ∈ pfx, c = 255 := by
  constructor
  · intro h c hc
    by_contra hne
    exact nextPrefix_ne_none ⟨c, hc, hne⟩ h
  · intro h
    cases hnext : Key.nextPrefix pfx with
    | none => rfl
    | some next =>
      obtain ⟨q, b, n, hb, rfl, -⟩ := nextPrefix_eq_some hnext
      exact absurd (h b (by simp)) hb

theorem getLast?_keys_highest (hpfx : ∀ c ∈ pfx, c = 255) :
    db.keys.getLast?.filter (pfx.isPrefixOf ·) = (within pfx db).keys.getLast?.map (pfx ++ ·) := by
  have hsorted := ExtTreeMap.ordered_keys (t := db)
  rw [← getLast?_map, keys_within]
  rcases eq_nil_or_concat db.keys with hkeys | ⟨l, last, hkeys⟩
  · rw [hkeys]
    rfl
  · rw [concat_eq_append] at hkeys
    rw [hkeys] at hsorted ⊢
    by_cases hlast : pfx <+: last
    · simp [hlast]
    · have hnone : l.filter (pfx.isPrefixOf ·) = [] := by
        refine filter_eq_nil_iff.mpr fun k hk hstart => hlast ?_
        obtain ⟨s, rfl⟩ := List.isPrefixOf_iff_prefix.mp hstart
        have hlt := (pairwise_append.mp hsorted).2.2 _ hk last (by simp)
        exact start_of_all_highest hpfx (x := s) (by simp [hlt])
      rw [filter_append, hnone]
      simp [hlast]

/-- `next_prefix` ends its carries at a byte that is the last one. -/
def EndsCarry (pfx : Bytes) : Prop := pfx.getLast? ≠ some 255 ∨ ∀ c ∈ pfx, c = 255

theorem curLast_finds (hpfx : EndsCarry pfx) :
    Finds pfx (within pfx db).keys.getLast? (curLast pfx db) := by
  by_cases hall : ∀ c ∈ pfx, c = 255
  · rw [curLast, nextPrefix_eq_none.mpr hall]
    exact finds_of_filter (getLast?_keys_highest hall)
  rcases eq_nil_or_concat pfx with rfl | ⟨q, b, rfl⟩
  · simp at hall
  · rw [concat_eq_append] at hpfx hall ⊢
    have hb : b ≠ 255 := fun he => hpfx.elim (fun h => h (by simp [he])) hall
    have hnext := nextPrefix_append_singleton (q := q) hb
    rw [curLast, hnext]
    refine finds_of_filter ?_
    show (Direction.left.seek false (q ++ [b + 1]) db.keys).filter _ = _
    rw [Direction.seek, find?_within .left]
    · -- all keys of the namespace lie before the next text
      rw [getLast?_eq_head?_reverse, ← head?_filter, filter_eq_self.mpr]
      · rfl
      · intro k _
        simp [Direction.ahead, compare_append_left, lt_add_one hb]
    · intro k hk
      have hgt : ∀ s, compare (q ++ [b] ++ s) k = .lt := by simpa [Direction.ahead] using hk
      simp only [Bool.false_eq_true, if_false, Direction.ahead, beq_eq_false_iff_ne]
      intro hlt
      obtain ⟨s, rfl⟩ := start_of_lt_next (by
        have h := hgt []
        rw [append_nil] at h
        simp [h]) hlt
      cases (hgt s).symm.trans ReflOrd.compare_self

/-- The texts from `pfx` up to its `next_prefix` are the ones that start with `pfx`. -/
def ExactBound (pfx : Bytes) : Prop :=
  match Key.nextPrefix pfx with
  | none => ∀ s : Bytes, compare pfx s ≠ .gt → pfx <+: s
  | some next => ∀ s, compare pfx s ≠ .gt ∧ compare s next = .lt ↔ pfx <+: s

/-- `cur_last` finds the greatest key, in every store that has one. -/
def LastFound (pfx : Bytes) : Prop :=
  ∀ {V : Type} (db : ExtTreeMap Bytes V) (k : Bytes), (within pfx db).keys.getLast? = some k →
    curLast pfx db = (true, Cursor.on pfx k)

theorem endsCarry_of_exactBound (h : ExactBound pfx) : EndsCarry pfx := by
  unfold ExactBound at h
  split at h
  · rename_i hnext
    exact .inr (nextPrefix_eq_none.mp hnext)
  · rename_i next hnext
    obtain ⟨q, b, n, hb, rfl, rfl⟩ := nextPrefix_eq_some hnext
    cases n with
    | zero => exact .inl (by simp [hb])
    | succ n =>
      -- the text without the zeroed bytes lies in between
      have hstart := (h (q ++ [b + 1])).mp
        ⟨by simp [compare_append_left, lt_add_one hb],
          by rw [compare_append_left, compare_cons, ReflOrd.compare_self]; rfl⟩
      simpa using hstart.length_le

theorem bounds_of_start {next : Bytes} (hnext : Key.nextPrefix pfx = some next) (t : Bytes) :
    compare pfx (pfx ++ t) ≠ .gt ∧ compare (pfx ++ t) next = .lt := by
  constructor
  · nth_rewrite 1 [← append_nil pfx]
    rw [compare_append_left]
    cases t <;> exact nofun
  · obtain ⟨q, b, n, hb, rfl, rfl⟩ := nextPrefix_eq_some hnext
    rw [append_assoc, compare_append_left, cons_append, compare_cons, lt_add_one hb]
    rfl

theorem moved_of_found {moved : Option Bytes} {k : Bytes}
    (h : jumpAndValidate pfx moved = (true, Cursor.on pfx k)) : moved = some (pfx ++ k) := by
  unfold jumpAndValidate at h
  split at h
  · split at h
    · exact congrArg (fun r : Bool × Cursor => r.2.cur) h
    · cases h
  · cases h

theorem exactBound_of_lastFound (h : LastFound pfx) : ExactBound pfx := by
  unfold ExactBound
  split
  · rename_i hnext
    intro s hs
    exact start_of_all_highest (nextPrefix_eq_none.mp hnext) (x := []) (by rwa [append_nil])
  · rename_i next hnext
    intro s
    constructor
    · rintro ⟨hfirst, hlast⟩
      by_contra hstart
      have hafter : ∀ t, compare s (pfx ++ t) = .gt := by
        refine (before_or_after_of_not_start hstart).resolve_left fun hbefore => hfirst ?_
        have hlt := hbefore []
        rw [append_nil] at hlt
        exact OrientedCmp.gt_of_lt hlt
      -- in a store with `pfx` and `s` the cursor stops at `s`
      let db : ExtTreeMap Bytes Unit := (ExtTreeMap.empty.insert pfx ()).insert s ()
      have hs : s ∈ db.keys := by simp [db]
      have hpfx : [] ∈ (within pfx db).keys := by simp [db]
      obtain ⟨k, hk⟩ : ∃ k, (within pfx db).keys.getLast? = some k :=
        ⟨_, getLast?_eq_some_getLast (ne_nil_of_mem hpfx)⟩
      have hfound := h db k hk
      simp only [curLast, hnext] at hfound
      obtain ⟨-, -, hnearest⟩ := find?_nearest (Direction.along_keys_pairwise .left db)
        (moved_of_found hfound)
      have hnot := hnearest s hs (by simpa [Direction.ahead] using hlast)
      simp [Direction.ahead, OrientedCmp.lt_of_gt (hafter k)] at hnot
    · rintro ⟨t, rfl⟩
      exact bounds_of_start hnext t

theorem lastFound_of_endsCarry (h : EndsCarry pfx) : LastFound pfx := by
  intro V db k hk
  have hfinds : Finds pfx (within pfx db).keys.getLast? (curLast pfx db) := curLast_finds h
  rwa [hk] at hfinds

/-- `next_prefix` fails on the texts of highest bytes only; and it gives an exact bound, and the last
key is found, where no zeroed byte is left behind. -/
theorem nextPrefix_exact_iff (pfx : Bytes) :
    (Key.nextPrefix pfx = none ↔ ∀ c ∈ pfx, c = 255) ∧
      (ExactBound pfx ↔ EndsCarry pfx) ∧ (LastFound pfx ↔ EndsCarry pfx) :=
  ⟨nextPrefix_eq_none,
    ⟨endsCarry_of_exactBound, fun h => exactBound_of_lastFound (lastFound_of_endsCarry h)⟩,
    ⟨fun h => endsCarry_of_exactBound (exactBound_of_lastFound h), lastFound_of_endsCarry⟩⟩

/-- The prefix a followed by the highest byte: b lies before the next prefix. -/
theorem zeroed_byte_left :
    Key.nextPrefix [97, 255] = some [98, 0] ∧ ¬ ExactBound [97, 255] ∧ ¬ LastFound [97, 255] := by
  have hnot : ¬ EndsCarry [97, 255] := by simp [EndsCarry]
  exact ⟨by decide, fun h => hnot (endsCarry_of_exactBound h),
    fun h => hnot (endsCarry_of_exactBound (exactBound_of_lastFound h))⟩

section Along

variable {dir : Direction} {skipped rest : List Bytes} {k : Bytes}

theorem mem_of_along (h : dir.along (within pfx db).keys = skipped ++ k :: rest) :
    k ∈ within pfx db := by
  rw [← ExtTreeMap.mem_keys, ← Direction.mem_along dir, h]
  simp

theorem curMove_finds (h : dir.along (within pfx db).keys = skipped ++ k :: rest) :
    Finds pfx rest.head? (curMove pfx db dir (Cursor.on pfx k)) := by
  have hfinds : Finds pfx (dir.seek false k (within pfx db).keys) _ := curMove_on_finds dir k
  have hsorted := Direction.along_keys_pairwise dir (within pfx db)
  rw [h] at hsorted
  have hnext := find?_ahead hsorted
  rw [← h] at hnext
  rwa [Direction.seek, show (fun x => if false = true then !dir.ahead x k else dir.ahead k x) =
    dir.ahead k from rfl, hnext] at hfinds

end Along

end Cursors

section Loop

/-- The first `max` items, and whether there are more; a negative `max` is no bound. -/
def upTo (max : Int) (l : List α) : List α × Bool :=
  if max < 0 then (l, false) else (l.take max.toNat, decide (max.toNat < l.length))

theorem upTo_zero (l : List α) : upTo 0 l = ([], decide (0 < l.length)) := by simp [upTo]

theorem upTo_nil (max : Int) : upTo max ([] : List α) = ([], false) := by
  unfold upTo
  split <;> simp

theorem upTo_cons {max : Int} (h : max ≠ 0) (a : α) (l : List α) :
    upTo max (a :: l) = (a :: (upTo (max - 1) l).1, (upTo (max - 1) l).2) := by
  unfold upTo
  by_cases hneg : max < 0
  · simp [hneg, show max - 1 < 0 by omega]
  · obtain ⟨n, rfl⟩ : ∃ n : Nat, max = n + 1 := ⟨max.toNat - 1, by omega⟩
    simp [show ¬(n : Int) < 0 by omega, show ¬(n : Int) + 1 < 0 by omega]

/-- What a callback makes of a key of the store. -/
def itemAt (kv : ExtTreeMap Bytes V) (f : Bytes → V → Except Exn α) (k : Bytes) : Except Exn α :=
  kv[k]?.elim (.error .failure) (f k)

/-- The callback of `map_range`. -/
def collect (f : Bytes → V → Except Exn α) (key : Bytes) (v : V) (acc : Int × List α) :
    Except Exn (Int × List α) := do
  let item ← f key v
  return (acc.1 + 1, item :: acc.2)

theorem curGetValue_on {k : Bytes} (hk : k ∈ within pfx db) (f : Bytes → V → Except Exn α) :
    (curGetValue db (Cursor.on pfx k) >>= f k) = itemAt (within pfx db) f k := by
  obtain ⟨v, hv⟩ := Option.isSome_iff_exists.mp (ExtTreeMap.mem_iff_isSome_getElem?.mp hk)
  have hv' : db[pfx ++ k]? = some v := by simpa using hv
  simp [curGetValue, Cursor.on, itemAt, hv']
  rfl

/-- What the loop makes of the keys `ks` that lie ahead in the range, with `count` items collected. -/
def collected (kv : ExtTreeMap Bytes V) (f : Bytes → V → Except Exn α) (max : Int)
    (ks : List Bytes) (acc : List α) (count : Int) : Except Exn ((Int × List α) × Bool) := do
  let items ← (upTo (max - count) ks).1.mapM (itemAt kv f)
  return ((count + items.length, items.reverse ++ acc), (upTo (max - count) ks).2)

variable {f : Bytes → V → Except Exn α} {max : Int} {acc : List α} {count : Int}

theorem collected_nil (kv : ExtTreeMap Bytes V) :
    collected kv f max [] acc count = .ok ((count, acc), false) := by
  simp [collected, upTo_nil]
  rfl

theorem collected_full (kv : ExtTreeMap Bytes V) (ks : List Bytes) :
    collected kv f max ks acc max = .ok ((max, acc), decide (0 < ks.length)) := by
  simp [collected, upTo_zero]
  rfl

theorem collected_cons (kv : ExtTreeMap Bytes V) (h : count ≠ max) (k : Bytes) (ks : List Bytes) :
    collected kv f max (k :: ks) acc count =
      (itemAt kv f k >>= fun item => collected kv f max ks (item :: acc) (count + 1)) := by
  have hmax : max - count - 1 = max - (count + 1) := by omega
  simp only [collected, upTo_cons (show max - count ≠ 0 by omega), hmax, mapM_cons, bind_assoc,
    pure_bind]
  refine bind_congr fun item => bind_congr fun items => ?_
  simp [Int.add_assoc, Int.add_comm 1]

theorem foldRangeLoop_succ {comp : Bytes → Bool} {move : Cursor → Bool × Cursor} {k : Bytes}
    (hk : k ∈ within pfx db) (fuel : Nat) :
    foldRangeLoop db comp move max (collect f) (fuel + 1) (Cursor.on pfx k) acc count =
      if count = max then .ok ((count, acc), comp k)
      else if comp k then
        itemAt (within pfx db) f k >>= fun item =>
          if (move (Cursor.on pfx k)).1 then
            foldRangeLoop db comp move max (collect f) fuel (move (Cursor.on pfx k)).2 (item :: acc)
              (count + 1)
          else .ok ((count + 1, item :: acc), false)
      else .ok ((count, acc), false) := by
  have hkey : curGetKey (Cursor.on pfx k) = .ok k := rfl
  rw [foldRangeLoop]
  split
  · rw [hkey]
    rfl
  · rw [hkey, ok_bind]
    split
    · rw [← curGetValue_on hk f, bind_assoc]
      refine bind_congr fun v => ?_
      simp only [collect, bind_assoc, pure_bind]
      rfl
    · rfl

/-- From a key of the namespace on, the loop collects keys up to the end of the range, as many as it
may, and says whether there are more. -/
theorem foldRangeLoop_eq (dir : Direction) (comp : Bytes → Bool) {skipped rest : List Bytes}
    {k : Bytes} {fuel : Nat} (hkeys : dir.along (within pfx db).keys = skipped ++ k :: rest)
    (hfuel : rest.length < fuel) :
    foldRangeLoop db comp (curMove pfx db dir) max (collect f) fuel (Cursor.on pfx k) acc count =
      collected (within pfx db) f max ((k :: rest).takeWhile comp) acc count := by
  induction fuel generalizing skipped rest k acc count with
  | zero => exact absurd hfuel (Nat.not_lt_zero _)
  | succ fuel ih =>
    have hmove := curMove_finds hkeys
    rw [foldRangeLoop_succ (mem_of_along hkeys)]
    by_cases hfull : count = max
    · subst hfull
      rw [if_pos rfl, collected_full]
      cases hcomp : comp k <;> simp [hcomp]
    rw [if_neg hfull]
    by_cases hcomp : comp k = true
    · rw [if_pos hcomp, takeWhile_cons_of_pos hcomp, collected_cons _ hfull]
      refine bind_congr fun item => ?_
      cases rest with
      | nil =>
        have hend : (curMove pfx db dir (Cursor.on pfx k)).1 = false := hmove
        rw [hend, takeWhile_nil, collected_nil]
        rfl
      | cons k' rest =>
        have hnext : curMove pfx db dir (Cursor.on pfx k) = (true, Cursor.on pfx k') := hmove
        have hkeys' : dir.along (within pfx db).keys = (skipped ++ [k]) ++ k' :: rest := by
          simpa using hkeys
        rw [hnext, if_pos rfl, ih hkeys' (Nat.lt_of_succ_lt_succ hfuel)]
    · rw [if_neg hcomp, takeWhile_cons_of_neg hcomp, collected_nil]

end Loop

section Range

/-- The texts on one side of a bound. -/
def past (dir : Direction) (inc : Bool) (bound k : Bytes) : Bool :=
  if inc then !dir.ahead k bound else dir.ahead bound k

theorem past_closed (dir : Direction) (inc : Bool) (bound : Bytes) {a b : Bytes}
    (hab : dir.ahead a b = true) (ha : past dir inc bound a = true) : past dir inc bound b = true := by
  cases inc with
  | false => exact Direction.ahead_trans ha hab
  | true =>
    have hnot : dir.ahead a bound = false := by simpa [past] using ha
    show (!dir.ahead b bound) = true
    cases hb : dir.ahead b bound with
    | false => rfl
    | true => exact nomatch hnot.symm.trans (Direction.ahead_trans hab hb)

theorem past_of_ahead {dir : Direction} {bound k : Bytes} (h : dir.ahead bound k = true)
    (inc : Bool) : past dir inc bound k = true := by
  cases inc with
  | false => exact h
  | true => simp [past, Direction.ahead_asymm h]

/-- `cur_jump` and the step off the bound: the cursor stands on the first key past the bound. -/
theorem start_finds (dir : Direction) (inc : Bool) (bound : Bytes) :
    Finds pfx ((dir.along (within pfx db).keys).filter (past dir inc bound)).head?
      (skipBound (curMove pfx db dir) inc bound (curJump pfx db dir bound)) := by
  have hjump : Finds pfx (dir.seek true bound (within pfx db).keys) (curJump pfx db dir bound) :=
    curJump_finds dir bound
  have hsorted := Direction.along_keys_pairwise dir (within pfx db)
  obtain ⟨skipped, hkeys, hskipped⟩ : ∃ skipped, dir.along (within pfx db).keys =
      skipped ++ (dir.along (within pfx db).keys).filter (past dir true bound) ∧
        ∀ a ∈ skipped, past dir true bound a = false :=
    append_filter_of_closed hsorted fun a b => past_closed dir true bound
  rw [Direction.seek, ← head?_filter,
    show (fun k => if true = true then !dir.ahead k bound else dir.ahead bound k) =
      past dir true bound from rfl] at hjump
  cases inc with
  | true =>
    have hstay : skipBound (curMove pfx db dir) true bound (curJump pfx db dir bound) =
        curJump pfx db dir bound := by simp [skipBound]
    rwa [hstay]
  | false =>
    have hnone : skipped.filter (past dir false bound) = [] := by
      refine filter_eq_nil_iff.mpr fun k hk hpast => ?_
      cases (hskipped k hk).symm.trans (past_of_ahead hpast true)
    have hpast : ∀ k ∈ (dir.along (within pfx db).keys).filter (past dir true bound),
        past dir true bound k = true := fun k hk => (mem_filter.mp hk).2
    generalize (dir.along (within pfx db).keys).filter (past dir true bound) = ks at *
    rw [hkeys, filter_append, hnone, nil_append]
    cases ks with
    | nil =>
      have hend : (curJump pfx db dir bound).1 = false := hjump
      show (skipBound (curMove pfx db dir) false bound (curJump pfx db dir bound)).1 = false
      simp [skipBound, hend]
    | cons k rest =>
      have hon : curJump pfx db dir bound = (true, Cursor.on pfx k) := hjump
      rw [hkeys] at hsorted
      have hrest := (pairwise_cons.mp (pairwise_append.mp hsorted).2.1).1
      by_cases hbound : k = bound
      · subst hbound
        have hmove := curMove_finds hkeys
        have hall : rest.filter (past dir false k) = rest := filter_eq_self.mpr hrest
        rw [hon, filter_cons_of_neg (by simp [past]), hall]
        simpa [skipBound, Cursor.on] using hmove
      · have hnot : dir.ahead k bound = false := by simpa [past] using hpast k mem_cons_self
        have hahead : dir.ahead bound k = true := Direction.ahead_of_not_ahead hnot hbound
        rw [hon, filter_cons_of_pos (show past dir false bound k = true from hahead)]
        show skipBound _ false bound (true, Cursor.on pfx k) = _
        simp [skipBound, Cursor.on, hbound]

theorem length_keys_within_le : (within pfx db).keys.length ≤ db.size := by
  rw [← ExtTreeMap.length_keys, ← length_map (pfx ++ ·), keys_within]
  exact length_filter_le _ _

theorem foldRangeLoop_from (dir : Direction) (f : Bytes → V → Except Exn α) (max : Int)
    {start comp : Bytes → Bool} {r : Bool × Cursor}
    (hstart : ∀ a b, dir.ahead a b = true → start a = true → start b = true)
    (hcomp : ∀ a b, dir.ahead a b = true → comp b = true → comp a = true)
    (hr : Finds pfx ((dir.along (within pfx db).keys).filter start).head? r) :
    (if r.1 then foldRangeLoop db comp (curMove pfx db dir) max (collect f) db.size r.2 [] 0
      else .ok ((0, []), false)) =
    collected (within pfx db) f max
      (dir.along ((within pfx db).keys.filter fun k => start k && comp k)) [] 0 := by
  have hsorted := Direction.along_keys_pairwise dir (within pfx db)
  obtain ⟨skipped, hkeys, -⟩ := append_filter_of_closed hsorted hstart
  have hrange : dir.along ((within pfx db).keys.filter fun k => start k && comp k) =
      ((dir.along (within pfx db).keys).filter start).takeWhile comp := by
    rw [takeWhile_eq_filter_of_closed (hsorted.filter _) hcomp, filter_filter,
      Direction.along_filter]
    exact filter_congr fun k _ => Bool.and_comm _ _
  rw [hrange]
  generalize hks : (dir.along (within pfx db).keys).filter start = ks at *
  cases ks with
  | nil =>
    have hend : r.1 = false := hr
    rw [hend, takeWhile_nil, collected_nil]
    rfl
  | cons k rest =>
    obtain rfl : r = (true, Cursor.on pfx k) := hr
    have hfuel : rest.length < db.size := by
      have hle : (within pfx db).keys.length ≤ db.size := length_keys_within_le
      have hlength := congrArg List.length hkeys
      rw [Direction.length_along, length_append, length_cons] at hlength
      omega
    rw [if_pos rfl, foldRangeLoop_eq dir comp hkeys hfuel]

theorem compFirstKey_eq (first : Bytes) (finc : Bool) :
    compFirstKey first finc = past .right finc first := by
  funext k
  rw [past, compFirstKey, Direction.ahead, Direction.ahead,
    show compare first k = (compare k first).swap from OrientedCmp.eq_swap]
  cases finc <;> cases compare k first <;> rfl

theorem compLastKey_some (last : Bytes) (linc : Bool) :
    compLastKey (some (last, linc)) = past .left linc last := by
  funext k
  rw [past, compLastKey, Direction.ahead, Direction.ahead,
    show compare last k = (compare k last).swap from OrientedCmp.eq_swap]
  cases linc <;> cases compare k last <;> rfl

theorem compLastKey_closed (last : Option (Bytes × Bool)) {a b : Bytes}
    (hab : Direction.left.ahead a b = true) (ha : compLastKey last a = true) :
    compLastKey last b = true := by
  cases last with
  | none => rfl
  | some l =>
    rw [compLastKey_some] at ha ⊢
    exact past_closed .left l.2 l.1 hab ha

def inRange (first : Bytes) (finc : Bool) (last : Option (Bytes × Bool)) (k : Bytes) : Bool :=
  compFirstKey first finc k && compLastKey last k

theorem mapRange_eq (hpfx : pfx.getLast? ≠ some 255) (first : Bytes) (finc : Bool)
    (last : Option (Bytes × Bool)) (max : Int) (reverse : Bool) (f : Bytes → V → Except Exn α) :
    mapRange pfx db first finc last max reverse f =
      (collected (within pfx db) f max ((if reverse then Direction.left else .right).along
        ((within pfx db).keys.filter (inRange first finc last))) [] 0 >>= fun r =>
          .ok ((r.1.1, r.1.2.reverse), r.2)) := by
  have hfirst : ∀ a b, Direction.right.ahead a b = true → compFirstKey first finc a = true →
      compFirstKey first finc b = true := by
    rw [compFirstKey_eq]
    exact fun a b => past_closed .right finc first
  refine congrArg (· >>= _) ?_
  unfold foldRange
  cases reverse with
  | true =>
    have hrange : inRange first finc last = fun k => compLastKey last k && compFirstKey first finc k :=
      funext fun k => Bool.and_comm _ _
    rw [if_pos rfl, if_pos rfl, hrange]
    refine foldRangeLoop_from .left f max (fun a b => compLastKey_closed last)
      (fun a b hab => hfirst b a hab) ?_
    cases last with
    | none =>
      rw [show compLastKey none = fun _ => true from rfl, filter_true, Direction.along,
        ← getLast?_eq_head?_reverse]
      exact curLast_finds (.inl hpfx)
    | some l =>
      rw [compLastKey_some]
      exact start_finds .left l.2 l.1
  | false =>
    have hstart : Finds pfx ((Direction.right.along (within pfx db).keys).filter
        (compFirstKey first finc)).head?
        (skipBound (curNext pfx db) finc first (curJump pfx db .right first)) := by
      rw [compFirstKey_eq]
      exact start_finds .right finc first
    rw [if_neg Bool.false_ne_true, if_neg Bool.false_ne_true]
    exact foldRangeLoop_from .right f max hfirst (fun a b hab => compLastKey_closed last hab) hstart

end Range

end Alba.NsmHost
