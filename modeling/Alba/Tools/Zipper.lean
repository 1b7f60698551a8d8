import Alba.ProofKit.Cursors

/-! The zipper of `Prelude.Map`: a position in a search tree, kept as the subtree there and the way down to
it. Every move goes to the first of the bindings that lie ahead. -/

namespace Alba.Tools

open ProofKit Std List

variable {K V : Type}

/-- The tree of a map, with the height that the map keeps in each node. -/
inductive Tree (K V : Type)
  | empty
  | node (l : Tree K V) (key : K) (value : V) (r : Tree K V) (height : Int)

namespace Tree

def isEmpty : Tree K V → Bool
  | empty => true
  | node .. => false

def child : Direction → Tree K V → Tree K V
  | _, empty => empty
  | .left, node l _ _ _ _ => l
  | .right, node _ _ _ r _ => r

def binding : Tree K V → List (K × V)
  | empty => []
  | node _ k v _ _ => [(k, v)]

/-- The bindings as they are met on the way in the direction `d`. -/
def walk (d : Direction) : Tree K V → List (K × V)
  | empty => []
  | node l k v r _ =>
    match d with
    | .left => walk d r ++ (k, v) :: walk d l
    | .right => walk d l ++ (k, v) :: walk d r

end Tree

/-- The steps from the root down, the last one first: a node and the side on which it was left. -/
abbrev Path (K V : Type) := List (Tree K V × Direction)

abbrev Zipper (K V : Type) := Tree K V × Path K V

namespace Zipper

/-- Down to the end of the tree on the side `d`. -/
def extreme (d : Direction) (acc : Path K V) : Tree K V → Option (Zipper K V)
  | .empty => none
  | .node l k v r h =>
    let t := .node l k v r h
    match d with
    | .left => if l.isEmpty then some (t, acc) else extreme d ((t, d) :: acc) l
    | .right => if r.isEmpty then some (t, acc) else extreme d ((t, d) :: acc) r

def first (t : Tree K V) (z : Path K V := []) : Option (Zipper K V) := extreme .left z t

def last (t : Tree K V) (z : Path K V := []) : Option (Zipper K V) := extreme .right z t

def get : Zipper K V → Except String (K × V)
  | (.empty, _) => .error "invalid zipper"
  | (.node _ k v _ _, _) => .ok (k, v)

/-- Up to the first node that was not left on the side `d`. -/
def climb (d : Direction) : Path K V → Option (Zipper K V)
  | [] => none
  | (t, d') :: z => if d' = d then climb d z else some (t, z)

def next : Zipper K V → Except String (Option (Zipper K V))
  | (.empty, _) => .error "invalid zipper"
  | (.node _ _ _ .empty _, z) => .ok (climb .right z)
  | (.node l k v r h, z) => .ok (first r ((.node l k v r h, .right) :: z))

def prev : Zipper K V → Except String (Option (Zipper K V))
  | (.empty, _) => .error "invalid zipper"
  | (.node .empty _ _ _ _, z) => .ok (climb .left z)
  | (.node l k v r h, z) => .ok (last l ((.node l k v r h, .left) :: z))

def jump [Ord K] (dir : Direction) (k : K) (t : Tree K V) : Option (Zipper K V) :=
  inner [] t
where
  inner (acc : Path K V) : Tree K V → Option (Zipper K V)
    | .empty => climb dir acc
    | .node l k' v r h =>
      let t := .node l k' v r h
      match compare k k' with
      | .lt => inner ((t, .left) :: acc) l
      | .eq => some (t, acc)
      | .gt => inner ((t, .right) :: acc) r

/-- The positions that the functions above lead to. -/
inductive Reachable [Ord K] (t : Tree K V) : Zipper K V → Prop
  | first {z : Zipper K V} : first t = some z → Reachable t z
  | last {z : Zipper K V} : last t = some z → Reachable t z
  | jump {dir : Direction} {k : K} {z : Zipper K V} : jump dir k t = some z → Reachable t z
  | next {z z' : Zipper K V} : Reachable t z → next z = .ok (some z') → Reachable t z'
  | prev {z z' : Zipper K V} : Reachable t z → prev z = .ok (some z') → Reachable t z'

end Zipper

section Order

variable [Ord K]

/-- `a` comes before `b` on the way in this direction. -/
def before : Direction → K → K → Prop
  | .right, a, b => compare a b = .lt
  | .left, a, b => compare b a = .lt

structure SearchTree (K V : Type) [Ord K] where
  tree : Tree K V
  sorted : (tree.walk .right).Pairwise fun a b => compare a.1 b.1 = .lt

/-- The result is the first binding, in the direction `d`, of those whose key has `P`. -/
def Finds (t : SearchTree K V) (d : Direction) (P : K → Prop) : Option (Zipper K V) → Prop
  | none => ∀ c ∈ t.tree.walk .right, ¬P c.1
  | some z => ∃ b ∈ t.tree.walk .right, z.get = .ok b ∧ P b.1 ∧
      ∀ c ∈ t.tree.walk .right, P c.1 → ¬before d c.1 b.1

end Order

def opposite : Direction → Direction
  | .left => .right
  | .right => .left

section Order

variable [Ord K] [TransOrd K] {d : Direction} {a b c : K}

omit [TransOrd K] in
theorem before_opposite : before (opposite d) a b ↔ before d b a := by
  cases d <;> exact Iff.rfl

theorem before_asymm (h : before d a b) : ¬before d b a := by
  intro h'
  cases d <;> exact absurd (h'.symm.trans (OrientedCmp.gt_of_lt h)) (by decide)

theorem before_irrefl : ¬before d a a := fun h => before_asymm h h

theorem before_trans (hab : before d a b) (hbc : before d b c) : before d a c := by
  cases d with
  | left => exact TransCmp.lt_trans hbc hab
  | right => exact TransCmp.lt_trans hab hbc

theorem before_congr_right (h : compare b c = .eq) : before d a b ↔ before d a c := by
  cases d with
  | left => rw [before, before, TransCmp.congr_left h]
  | right => rw [before, before, TransCmp.congr_right h]

theorem before_congr_left (h : compare a b = .eq) : before d a c ↔ before d b c := by
  cases d with
  | left => rw [before, before, TransCmp.congr_right h]
  | right => rw [before, before, TransCmp.congr_left h]

end Order

theorem opposite_opposite (d : Direction) : opposite (opposite d) = d := by cases d <;> rfl

theorem opposite_ne (d : Direction) : opposite d ≠ d := by cases d <;> decide

theorem eq_opposite {d e : Direction} (h : e ≠ d) : e = opposite d := by
  cases d <;> cases e <;> first | rfl | exact absurd rfl h

namespace Tree

variable {t : Tree K V} {d : Direction}

theorem induction_child {P : Tree K V → Prop} (empty : P empty)
    (node : ∀ t, t ≠ .empty → (∀ d, P (t.child d)) → P t) : ∀ t, P t
  | .empty => empty
  | .node l k v r h => node _ nofun fun d => by
    cases d with
    | left => exact induction_child empty node l
    | right => exact induction_child empty node r

theorem not_isEmpty : ¬t.isEmpty = true ↔ t ≠ empty := by
  cases t <;> simp [isEmpty]

theorem binding_reverse (t : Tree K V) : t.binding.reverse = t.binding := by
  cases t <;> rfl

theorem walk_of_isEmpty (h : t.isEmpty = true) (d : Direction) : t.walk d = [] := by
  cases t with
  | empty => rfl
  | node => cases h

theorem walk_eq (ht : t ≠ empty) (d : Direction) :
    t.walk d = (t.child (opposite d)).walk d ++ (t.binding ++ (t.child d).walk d) := by
  cases t with
  | empty => exact absurd rfl ht
  | node => cases d <;> rfl

theorem walk_opposite (t : Tree K V) (d : Direction) : t.walk (opposite d) = (t.walk d).reverse := by
  induction t using induction_child with
  | empty => rfl
  | node t ht ih =>
    rw [walk_eq ht, walk_eq ht, ih, ih, opposite_opposite]
    simp [binding_reverse]

theorem mem_walk (d e : Direction) (b : K × V) : b ∈ t.walk d ↔ b ∈ t.walk e := by
  by_cases h : d = e
  · rw [h]
  · rw [eq_opposite h, walk_opposite, mem_reverse]

end Tree

namespace Zipper

variable {root h t : Tree K V} {z acc : Path K V} {d : Direction} {b : K × V} {bs : List (K × V)}
  {o : Option (Zipper K V)}

/-- Each tree is the child of the one above it, and the last one is the root. -/
def Linked (root : Tree K V) : Tree K V → Path K V → Prop
  | h, [] => h = root
  | h, (t, d) :: z => t ≠ .empty ∧ t.child d = h ∧ Linked root t z

/-- A position in the tree `root`. -/
def At (root : Tree K V) (z : Zipper K V) : Prop := z.1 ≠ .empty ∧ Linked root z.1 z.2

def above (d : Direction) : Path K V → List (K × V)
  | [] => []
  | (t, d') :: z => if d' = d then above d z else t.binding ++ ((t.child d).walk d ++ above d z)

def ahead (d : Direction) (z : Zipper K V) : List (K × V) := (z.1.child d).walk d ++ above d z.2

/-- The result is the position of the first of `bs`, with the others ahead. -/
def Heads (root : Tree K V) (d : Direction) (bs : List (K × V)) : Option (Zipper K V) → Prop
  | none => bs = []
  | some z => At root z ∧ bs = z.1.binding ++ ahead d z

theorem above_ne {e : Direction} (h : e ≠ d) :
    above d ((t, e) :: z) = t.binding ++ ((t.child d).walk d ++ above d z) :=
  if_neg h

theorem above_self : above d ((t, d) :: z) = above d z := if_pos rfl

theorem extreme_eq (ht : t ≠ .empty) (d : Direction) (acc : Path K V) :
    extreme d acc t =
      if (t.child d).isEmpty then some (t, acc) else extreme d ((t, d) :: acc) (t.child d) := by
  cases t with
  | empty => exact absurd rfl ht
  | node => cases d <;> rfl

/-- What lies around a subtree and in it is the whole tree. -/
theorem walk_root (hz : Linked root h z) (d : Direction) :
    root.walk d = (above (opposite d) z).reverse ++ (h.walk d ++ above d z) := by
  induction z generalizing h with
  | nil =>
    rw [show h = root from hz]
    simp [above]
  | cons frame z ih =>
    obtain ⟨t, e⟩ := frame
    obtain ⟨ht, rfl, hz⟩ := hz
    rw [ih hz, Tree.walk_eq ht d]
    by_cases he : e = d
    · subst he
      rw [above_self, above_ne (opposite_ne e).symm, Tree.walk_opposite]
      simp [Tree.binding_reverse]
    · rw [above_ne he, eq_opposite he, above_self]
      simp

theorem walk_position {z : Zipper K V} (hz : At root z) (d : Direction) :
    root.walk d = (ahead (opposite d) z).reverse ++ (z.1.binding ++ ahead d z) := by
  rw [walk_root hz.2 d, Tree.walk_eq hz.1, ahead, ahead, Tree.walk_opposite]
  simp

theorem climb_heads (hz : Linked root h z) : Heads root d (above d z) (climb d z) := by
  induction z generalizing h with
  | nil => rfl
  | cons frame z ih =>
    obtain ⟨t, e⟩ := frame
    obtain ⟨ht, -, hz⟩ := hz
    by_cases he : e = d
    · rw [he, above_self, climb, if_pos rfl]
      exact ih hz
    · rw [climb, if_neg he, above_ne he]
      exact ⟨⟨ht, hz⟩, rfl⟩

theorem extreme_heads (ht : t ≠ .empty) (hz : Linked root t acc) :
    Heads root d (t.walk d ++ above d acc) (extreme (opposite d) acc t) := by
  induction t using Tree.induction_child generalizing acc with
  | empty => exact absurd rfl ht
  | node t _ ih =>
    rw [extreme_eq ht, Tree.walk_eq ht]
    split
    · rename_i hempty
      rw [Tree.walk_of_isEmpty hempty, nil_append, append_assoc]
      exact ⟨⟨ht, hz⟩, rfl⟩
    · rename_i hchild
      have hlinked : Linked root (t.child (opposite d)) ((t, opposite d) :: acc) := ⟨ht, rfl, hz⟩
      have hheads := ih (opposite d) (Tree.not_isEmpty.mp hchild) hlinked
      rw [above_ne (opposite_ne d)] at hheads
      simpa using hheads

/-- `next` or `prev`. -/
def move : Direction → Zipper K V → Except String (Option (Zipper K V))
  | .left => prev
  | .right => next

theorem move_eq {z : Zipper K V} (hne : z.1 ≠ .empty) (d : Direction) :
    move d z = .ok (if (z.1.child d).isEmpty then climb d z.2
      else extreme (opposite d) ((z.1, d) :: z.2) (z.1.child d)) := by
  obtain ⟨t, z⟩ := z
  cases t with
  | empty => exact absurd rfl hne
  | node l k v r h =>
    cases d with
    | left => cases l <;> rfl
    | right => cases r <;> rfl

theorem move_heads {z : Zipper K V} (hz : At root z) (d : Direction) :
    ∃ o, move d z = .ok o ∧ Heads root d (ahead d z) o := by
  refine ⟨_, move_eq hz.1 d, ?_⟩
  split
  · rename_i hempty
    rw [ahead, Tree.walk_of_isEmpty hempty]
    exact climb_heads hz.2
  · rename_i hchild
    have hlinked : Linked root (z.1.child d) ((z.1, d) :: z.2) := ⟨hz.1, rfl, hz.2⟩
    have hheads := extreme_heads (d := d) (Tree.not_isEmpty.mp hchild) hlinked
    rwa [above_self] at hheads

theorem climb_extreme {e : Direction} {z : Zipper K V} (h : extreme e acc t = some z) :
    z.1 ≠ .empty ∧ (z.1.child e).isEmpty = true ∧ climb e z.2 = climb e acc := by
  induction t using Tree.induction_child generalizing acc with
  | empty => cases h
  | node t ht ih =>
    rw [extreme_eq ht] at h
    split at h
    · rename_i hempty
      cases h
      exact ⟨ht, hempty, rfl⟩
    · obtain ⟨hne, hend, hclimb⟩ := ih e h
      exact ⟨hne, hend, hclimb.trans (if_pos rfl)⟩

/-- Climbing to a node and going down again is going down from where the climb began. -/
theorem extreme_climb {t : Zipper K V} (hne : h ≠ .empty) (hz : Linked root h z)
    (hclimb : climb d z = some t) :
    t.1 ≠ .empty ∧ t.1.child (opposite d) ≠ .empty ∧
      extreme d ((t.1, opposite d) :: t.2) (t.1.child (opposite d)) = extreme d z h := by
  induction z generalizing h with
  | nil => cases hclimb
  | cons frame z ih =>
    obtain ⟨p, e⟩ := frame
    obtain ⟨hp, rfl, hz⟩ := hz
    rw [climb] at hclimb
    split at hclimb
    · rename_i he
      subst he
      obtain ⟨ht, hchild, hdown⟩ := ih hp hz hclimb
      rw [extreme_eq hp, if_neg (Tree.not_isEmpty.mpr hne)] at hdown
      exact ⟨ht, hchild, hdown⟩
    · rename_i he
      cases hclimb
      rw [eq_opposite he] at hne ⊢
      exact ⟨hp, hne, rfl⟩

theorem move_back {z z' : Zipper K V} (hz : At root z) (hmove : move d z = .ok (some z')) :
    move (opposite d) z' = .ok (some z) := by
  rw [move_eq hz.1, Except.ok.injEq] at hmove
  split at hmove
  · rename_i hempty
    obtain ⟨hne', hchild, hdown⟩ := extreme_climb hz.1 hz.2 hmove
    rw [move_eq hne', if_neg (Tree.not_isEmpty.mpr hchild), opposite_opposite, hdown, extreme_eq hz.1,
      if_pos hempty]
  · obtain ⟨hne', hend, hclimb⟩ := climb_extreme hmove
    rw [move_eq hne', if_pos hend, hclimb, climb, if_neg (opposite_ne d).symm]

theorem get_of_binding {z : Zipper K V} (hne : z.1 ≠ .empty) : ∃ b, z.get = .ok b ∧ z.1.binding = [b] := by
  obtain ⟨h, z⟩ := z
  cases h with
  | empty => exact absurd rfl hne
  | node l k v r h => exact ⟨(k, v), rfl, rfl⟩

section Order

variable [Ord K] {s : SearchTree K V} {P : K → Prop}

/-- The bindings that have `P` are the last ones, and the result is the position of the first of them. -/
def Reaches (s : SearchTree K V) (d : Direction) (P : K → Prop) (o : Option (Zipper K V)) : Prop :=
  ∃ skipped bs, s.tree.walk d = skipped ++ bs ∧ (∀ c ∈ skipped, ¬P c.1) ∧ (∀ c ∈ bs, P c.1) ∧
    Heads s.tree d bs o

theorem sorted_walk (s : SearchTree K V) (d : Direction) :
    (s.tree.walk d).Pairwise fun a b => before d a.1 b.1 := by
  cases d with
  | right => exact s.sorted
  | left =>
    rw [show s.tree.walk .left = _ from Tree.walk_opposite s.tree .right, pairwise_reverse]
    exact s.sorted

theorem before_ahead {z : Zipper K V} (hz : At s.tree z) (hb : z.1.binding = [b]) :
    ∀ c ∈ ahead d z, before d b.1 c.1 := by
  have hsorted := sorted_walk s d
  rw [walk_position hz, hb, pairwise_append] at hsorted
  exact (pairwise_cons.mp hsorted.2.1).1

theorem Reaches.at {z : Zipper K V} (h : Reaches s d P (some z)) : At s.tree z := by
  obtain ⟨_, _, _, _, _, hz, _⟩ := h
  exact hz

theorem extreme_reaches (s : SearchTree K V) (d : Direction) :
    Reaches s d (fun _ => True) (extreme (opposite d) [] s.tree) := by
  refine ⟨[], _, rfl, nofun, fun _ _ => trivial, ?_⟩
  by_cases hne : s.tree = .empty
  · rw [hne]
    rfl
  · have hheads := extreme_heads (d := d) hne (show Linked s.tree s.tree [] from rfl)
    rwa [above, append_nil] at hheads

theorem first_reaches (s : SearchTree K V) : Reaches s .right (fun _ => True) (first s.tree) :=
  extreme_reaches s .right

theorem last_reaches (s : SearchTree K V) : Reaches s .left (fun _ => True) (last s.tree) :=
  extreme_reaches s .left

variable [TransOrd K]

theorem Reaches.finds (h : Reaches s d P o) : Finds s d P o := by
  obtain ⟨skipped, bs, hwalk, hskipped, hbs, ho⟩ := h
  have hmem : ∀ c, c ∈ s.tree.walk .right ↔ c ∈ skipped ∨ c ∈ bs := fun c => by
    rw [Tree.mem_walk .right d, hwalk, mem_append]
  cases o with
  | none =>
    cases show bs = [] from ho
    exact fun c hc => hskipped c (by simpa using (hmem c).mp hc)
  | some z =>
    obtain ⟨hz, hhead⟩ := ho
    obtain ⟨b, hget, hb⟩ := get_of_binding hz.1
    rw [hb] at hhead
    subst hhead
    refine ⟨b, (hmem b).mpr (by simp), hget, hbs b (by simp), fun c hc hP => ?_⟩
    rcases (hmem c).mp hc with hc | hc
    · exact absurd hP (hskipped c hc)
    · rcases mem_cons.mp hc with rfl | hc
      · exact before_irrefl
      · exact before_asymm (before_ahead hz hb c hc)

theorem move_reaches {z : Zipper K V} (hz : At s.tree z) (hb : z.1.binding = [b]) (d : Direction) :
    ∃ o, move d z = .ok o ∧ Reaches s d (before d b.1) o := by
  obtain ⟨o, hmove, hheads⟩ := move_heads hz d
  refine ⟨o, hmove, (ahead (opposite d) z).reverse ++ [b], ahead d z, ?_, ?_, ?_, hheads⟩
  · rw [walk_position hz, hb, append_assoc]
  · intro c hc
    rcases mem_append.mp hc with hc | hc
    · have hbefore := before_ahead hz hb c (mem_reverse.mp hc)
      exact before_asymm (before_opposite.mp hbefore)
    · rw [mem_singleton.mp hc]
      exact before_irrefl
  · exact before_ahead hz hb

/-- Going down on the side of `k` leaves only bindings on the right side of `k` behind. -/
theorem before_above {k : K} {e : Direction} {t : Tree K V} (ht : t ≠ .empty) (hz : Linked s.tree t acc)
    (hacc : ∀ e, ∀ c ∈ above e acc, before e k c.1) (hb : t.binding = [b])
    (hk : before (opposite e) k b.1) : ∀ e', ∀ c ∈ above e' ((t, e) :: acc), before e' k c.1 := by
  intro e' c hc
  by_cases he : e = e'
  · rw [he, above_self] at hc
    exact hacc e' c hc
  · rw [above_ne he, hb] at hc
    obtain rfl : e' = opposite e := eq_opposite (Ne.symm he)
    rcases mem_cons.mp hc with rfl | hc
    · exact hk
    · exact before_trans hk (before_ahead (z := (t, acc)) ⟨ht, hz⟩ hb c hc)

theorem inner_reaches {dir : Direction} {k : K} (hz : Linked s.tree t acc)
    (hacc : ∀ e, ∀ c ∈ above e acc, before e k c.1) :
    Reaches s dir (fun a => ¬before dir a k) (jump.inner dir k acc t) := by
  induction t generalizing acc with
  | empty =>
    refine ⟨_, _, walk_root hz dir, fun c hc => ?_, fun c hc => ?_, climb_heads hz⟩
    · exact not_not.mpr (before_opposite.mp (hacc _ c (mem_reverse.mp hc)))
    · exact before_asymm (hacc _ c hc)
  | node l k' v r h ihl ihr =>
    have hne : Tree.node l k' v r h ≠ .empty := nofun
    rw [jump.inner]
    split
    · rename_i hk
      exact ihl ⟨hne, rfl, hz⟩ (before_above hne hz hacc rfl hk)
    · rename_i hk
      have hkey : ∀ e, ∀ c ∈ ahead e (Tree.node l k' v r h, acc), before e k c.1 := fun e c hc =>
        (before_congr_left hk).mpr (before_ahead ⟨hne, hz⟩ rfl c hc)
      refine ⟨_, _, walk_position ⟨hne, hz⟩ dir, fun c hc => ?_, fun c hc => ?_, ⟨hne, hz⟩, rfl⟩
      · exact not_not.mpr (before_opposite.mp (hkey _ c (mem_reverse.mp hc)))
      · rcases mem_cons.mp hc with rfl | hc
        · exact mt (before_congr_right hk).mp before_irrefl
        · exact before_asymm (hkey _ c hc)
    · rename_i hk
      exact ihr ⟨hne, rfl, hz⟩ (before_above hne hz hacc rfl (OrientedCmp.lt_of_gt hk))

theorem jump_reaches (s : SearchTree K V) (dir : Direction) (k : K) :
    Reaches s dir (fun a => ¬before dir a k) (jump dir k s.tree) :=
  inner_reaches rfl (by simp [above])

theorem Reachable.at {z : Zipper K V} (h : Reachable s.tree z) : At s.tree z := by
  have hmove : ∀ {z z' : Zipper K V} {d}, At s.tree z → move d z = .ok (some z') → At s.tree z' := by
    intro z z' d hz hz'
    obtain ⟨o, hmove, hheads⟩ := move_heads hz d
    cases hmove.symm.trans hz'
    exact hheads.1
  induction h with
  | first hz => exact Reaches.at (hz.symm ▸ first_reaches s)
  | last hz => exact Reaches.at (hz.symm ▸ last_reaches s)
  | jump hz => exact (hz ▸ jump_reaches s _ _).at
  | next _ hz ih => exact hmove (d := .right) ih hz
  | prev _ hz ih => exact hmove (d := .left) ih hz

end Order

/-- The extreme positions and the jumps find the binding that they are for, and from every position
reached `next` and `prev` go to the neighbours in the whole map, and back. -/
theorem zipper_in_order [Ord K] [TransOrd K] (s : SearchTree K V) :
    Finds s .right (fun _ => True) (first s.tree) ∧ Finds s .left (fun _ => True) (last s.tree) ∧
    (∀ dir k, Finds s dir (fun a => ¬before dir a k) (jump dir k s.tree)) ∧
    ∀ z, Reachable s.tree z → ∃ b after earlier,
      z.get = .ok b ∧ next z = .ok after ∧ prev z = .ok earlier ∧
      Finds s .right (before .right b.1) after ∧ Finds s .left (before .left b.1) earlier ∧
      (∀ z', after = some z' → prev z' = .ok (some z)) ∧
      ∀ z', earlier = some z' → next z' = .ok (some z) := by
  refine ⟨(first_reaches s).finds, (last_reaches s).finds, fun dir k => (jump_reaches s dir k).finds,
    fun z hz => ?_⟩
  have hat := hz.at
  obtain ⟨b, hget, hb⟩ := get_of_binding hat.1
  obtain ⟨after, hnext, hafter⟩ := move_reaches hat hb .right
  obtain ⟨earlier, hprev, hearlier⟩ := move_reaches hat hb .left
  refine ⟨b, after, earlier, hget, hnext, hprev, hafter.finds, hearlier.finds, ?_, ?_⟩
  · rintro z' rfl
    exact move_back (d := .right) hat hnext
  · rintro z' rfl
    exact move_back (d := .left) hat hprev

def oddKeys : SearchTree Nat Nat where
  tree := .node (.node .empty 1 10 .empty 1) 3 30 .empty 2
  sorted := by decide

theorem zipper_in_order_oddKeys : (jump .right 2 oddKeys.tree).map get = some (.ok (3, 30)) ∧
    Finds oddKeys .right (fun a => ¬before .right a 2) (jump .right 2 oddKeys.tree) :=
  ⟨rfl, (zipper_in_order oddKeys).2.2.1 .right 2⟩

end Zipper

end Alba.Tools
