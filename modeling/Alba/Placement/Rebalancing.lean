import Alba.Placement.Spread
import Alba.ProofKit.Scans

/-! `Rebalancing_helper.plan_move`: the move of one fragment of an object from a fuller osd to an emptier
one. The osds of the object are counted per node; a node that has none of them is not in that table. -/

namespace Alba.Placement

open ProofKit Nsm Std List

inductive MoveFailure
  | notFound
  deriving DecidableEq

/-- A number of osds, and the osds with their fill rates. -/
abbrev Category := Int × List (OsdId × Float)

structure Move where
  manifest : Manifest
  src : OsdId
  tgt : OsdId
  score : Int
  deriving DecidableEq

/-- The integers of the machine have 63 bits. -/
def compareMoves (a b : Move) : Int := (a.score - b.score).bmod (2 ^ 63)

def compareMoves' (a b : Move) : Int := compareMoves b a

namespace PlanMove

def inter (s t : DeviceSet) : DeviceSet := s.filter fun d => d ∈ t

def asSet (category : Category) : DeviceSet :=
  category.2.foldl (fun acc e => DeviceSet.add e.1 acc) []

def fillRates (tooLow ok tooHigh : Category) : OsdId → Option Float :=
  (tooHigh.2 ++ ok.2 ++ tooLow.2).foldl (fun tbl e => Function.update tbl e.1 (some e.2)) fun _ => none

def find {α : Type} (entry : Option α) : Except MoveFailure α := entry.elim (.error .notFound) .ok

section Moves

variable (cache : OsdTable)

def nodeIdOf (osdId : OsdId) : Except MoveFailure Bytes := do
  let info ← find (cache.entries.find? fun e => e.1 = osdId)
  return info.2.nodeId

def countOsd (h : ExtTreeMap Bytes Int) (osdId : OsdId) : Except MoveFailure (ExtTreeMap Bytes Int) := do
  let nodeId ← nodeIdOf cache osdId
  return h.insert nodeId (h[nodeId]?.getD 0 + 1)

/-- The table behind `osds_used_on_node`. -/
def countPerNode (objectOsds : DeviceSet) : Except MoveFailure (ExtTreeMap Bytes Int) :=
  objectOsds.foldlM (countOsd cache) ∅

variable (h : ExtTreeMap Bytes Int) (fillRateOf : OsdId → Option Float) (intOfFloat : Float → Int)
  (manifest : Manifest)

def checkMove (src tgt : OsdId) : Except MoveFailure Bool := do
  let tgtNid ← nodeIdOf cache tgt
  let srcNid ← nodeIdOf cache src
  if srcNid = tgtNid then return true
  return (← find h[tgtNid]?) < manifest.maxDisksPerNode

def scoreOf (src tgt : OsdId) : Except MoveFailure Int := do
  let srcRate ← find (fillRateOf src)
  let tgtRate ← find (fillRateOf tgt)
  let rate := srcRate - tgtRate
  let sameNode := (← nodeIdOf cache src) = (← nodeIdOf cache tgt)
  return (intOfFloat (rate * 1000.0) + if sameNode then 10 else 0).bmod (2 ^ 63)

def addMove (src : OsdId) (acc : List Move) (tgt : OsdId) : Except MoveFailure (List Move) := do
  if ← checkMove cache h manifest src tgt then
    let score ← scoreOf cache fillRateOf intOfFloat src tgt
    return { manifest, src, tgt, score } :: acc
  else return acc

def validMoves (sources targets : DeviceSet) : Except MoveFailure (List Move) :=
  sources.foldlM (fun acc src =>
    targets.foldlM (addMove cache h fillRateOf intOfFloat manifest src) acc) []

def search (haveMove : Option Move) (group : DeviceSet × DeviceSet) : Except MoveFailure (Option Move) :=
  match haveMove with
  | some x => .ok (some x)
  | none => do
    let vm ← validMoves cache h fillRateOf intOfFloat manifest group.1 group.2
    return (vm.mergeSort fun a b => compareMoves' a b ≤ 0).head?

end Moves

end PlanMove

open PlanMove in
/-- `int_of_float` is the conversion of the machine. -/
def planMove (intOfFloat : Float → Int) (cache : OsdTable) (tooLow ok tooHigh : Category)
    (manifest : Manifest) : Except MoveFailure (Option Move) := do
  let objectOsds := manifest.osdsUsed
  let h ← countPerNode cache objectOsds
  let highSrc := inter objectOsds (asSet tooHigh)
  let okSrc := inter objectOsds (asSet ok)
  let okTgt := (asSet ok).diff objectOsds
  let lowTgt := (asSet tooLow).diff objectOsds
  [(highSrc, lowTgt), (highSrc, okTgt), (okSrc, lowTgt)].foldlM
    (search cache h (fillRates tooLow ok tooHigh) intOfFloat manifest) none

/-! ### The counts per node -/

namespace PlanMove

theorem add_pairwise {d : OsdId} {s : DeviceSet} (h : s.Pairwise fun a b => a.val < b.val) :
    (DeviceSet.add d s).Pairwise fun a b => a.val < b.val := by
  induction s with
  | nil => simp [DeviceSet.add]
  | cons e s ih =>
    obtain ⟨hlt, hs⟩ := pairwise_cons.mp h
    rw [DeviceSet.add]
    split
    · rename_i hde
      exact pairwise_cons.mpr ⟨forall_mem_cons.mpr ⟨hde, fun x hx => hde.trans (hlt x hx)⟩, h⟩
    · split
      · exact h
      · rename_i hde hne
        refine pairwise_cons.mpr ⟨fun x hx => ?_, ih hs⟩
        rcases DeviceSet.mem_add.mp hx with rfl | hx
        · exact Nat.lt_of_le_of_ne (Nat.le_of_not_lt hde) fun heq => hne (Nat63.ext heq.symm)
        · exact hlt x hx

theorem osdsUsed_nodup (manifest : Manifest) : manifest.osdsUsed.Nodup := by
  have hsorted : manifest.osdsUsed.Pairwise fun a b => a.val < b.val := by
    rw [Manifest.osdsUsed, Manifest.osdsUsed', ← foldl_flatten]
    refine List.foldlRecOn _ _ List.Pairwise.nil fun s hs f _ => ?_
    cases (Fragment.locOf f).1 with
    | none => exact hs
    | some osdId => exact add_pairwise hs
  exact hsorted.imp fun hlt => fun heq => (Nat.ne_of_lt hlt) (congrArg Nat63.val heq)

theorem mem_asSet {category : Category} {d : OsdId} :
    d ∈ asSet category ↔ d ∈ category.2.map Prod.fst := by
  have general : ∀ (l : List (OsdId × Float)) (s : DeviceSet),
      d ∈ l.foldl (fun acc e => DeviceSet.add e.1 acc) s ↔ d ∈ s ∨ d ∈ l.map Prod.fst := by
    intro l
    induction l with
    | nil => simp
    | cons e l ih =>
      intro s
      rw [foldl_cons, ih, DeviceSet.mem_add, map_cons, mem_cons, or_comm (a := d = e.1),
        or_assoc]
  rw [asSet, general]
  simp

variable {cache : OsdTable} {manifest : Manifest} {h : ExtTreeMap Bytes Int}

theorem nodeIdOf_eq {d : OsdId} (hd : d ∈ cache.ids) : nodeIdOf cache d = .ok (cache.node d) := by
  obtain ⟨e, he, rfl⟩ := mem_map.mp hd
  rw [nodeIdOf, cache.find?_eq he, cache.node_eq he]
  rfl

/-- The table has the nodes of the listed osds, and no others. -/
def Counts (cache : OsdTable) (listed : List OsdId) (h : ExtTreeMap Bytes Int) : Prop :=
  ∀ n, h[n]? = if cache.onNode listed n = 0 then none else some (cache.onNode listed n : Int)

theorem Counts.snoc {listed : List OsdId} (hcounts : Counts cache listed h) (d : OsdId) :
    Counts cache (listed ++ [d]) (h.insert (cache.node d) (h[cache.node d]?.getD 0 + 1)) := by
  intro n
  rw [ExtTreeMap.getElem?_insert, cache.onNode_append]
  by_cases hn : cache.node d = n
  · subst hn
    have hone : cache.onNode [d] (cache.node d) = 1 := by simp [OsdTable.onNode]
    rw [if_pos (ReflCmp.compare_self), hone, if_neg (Nat.succ_ne_zero _), hcounts]
    split
    · rename_i hzero
      rw [hzero]
      rfl
    · rfl
  · have hnone : cache.onNode [d] n = 0 := by simp [OsdTable.onNode, hn]
    rw [if_neg fun heq => hn (LawfulEqOrd.eq_of_compare heq), hnone, Nat.add_zero]
    exact hcounts n

theorem countPerNode_eq {objectOsds : DeviceSet} (hknown : ∀ d ∈ objectOsds, d ∈ cache.ids) :
    ∃ h, countPerNode cache objectOsds = .ok h ∧ Counts cache objectOsds h := by
  have general : ∀ (l listed : List OsdId) (h : ExtTreeMap Bytes Int), (∀ d ∈ l, d ∈ cache.ids) →
      Counts cache listed h →
        ∃ h', l.foldlM (countOsd cache) h = .ok h' ∧ Counts cache (listed ++ l) h' := by
    intro l
    induction l with
    | nil =>
      intro listed h _ hcounts
      exact ⟨h, rfl, by rwa [append_nil]⟩
    | cons d l ih =>
      intro listed h hl hcounts
      obtain ⟨hd, hl⟩ := forall_mem_cons.mp hl
      obtain ⟨h', hrest, hcounts'⟩ := ih (listed ++ [d]) _ hl (hcounts.snoc d)
      refine ⟨h', ?_, by simpa using hcounts'⟩
      rw [foldlM_cons, countOsd, nodeIdOf_eq hd]
      exact hrest
  exact general objectOsds [] ∅ hknown fun n => rfl

/-! ### The moves -/

/-- The osds of the table that hold a fragment of the object and are on the node. -/
def objectOsdsOn (cache : OsdTable) (manifest : Manifest) (n : Bytes) : List OsdId :=
  cache.ids.filter fun d => d ∈ manifest.osdsUsed ∧ cache.node d = n

theorem onNode_osdsUsed (hknown : ∀ d ∈ manifest.osdsUsed, d ∈ cache.ids) (n : Bytes) :
    cache.onNode manifest.osdsUsed n = (objectOsdsOn cache manifest n).length := by
  rw [OsdTable.onNode, countP_eq_length_filter]
  refine ((perm_ext_iff_of_nodup ((osdsUsed_nodup manifest).filter _)
    (cache.distinct.filter _)).mpr fun d => ?_).length_eq
  simp only [mem_filter, decide_eq_true_eq]
  exact ⟨fun h => ⟨hknown d h.1, h⟩, And.right⟩

/-- The node of the target can take an osd of the object. -/
def Fits (cache : OsdTable) (manifest : Manifest) (src tgt : OsdId) : Prop :=
  cache.node src = cache.node tgt ∨
    ((objectOsdsOn cache manifest (cache.node tgt)).length : Int) < manifest.maxDisksPerNode

instance (src tgt : OsdId) : Decidable (Fits cache manifest src tgt) :=
  inferInstanceAs (Decidable (_ ∨ _))

/-- The node of the target is the source's, or has an osd of the object. -/
def Counted (cache : OsdTable) (manifest : Manifest) (src tgt : OsdId) : Prop :=
  cache.node src = cache.node tgt ∨ objectOsdsOn cache manifest (cache.node tgt) ≠ []

instance (src tgt : OsdId) : Decidable (Counted cache manifest src tgt) :=
  inferInstanceAs (Decidable (_ ∨ _))

section Candidates

variable {fillRateOf : OsdId → Option Float} {intOfFloat : Float → Int} {sources targets : DeviceSet}
  {src tgt : OsdId}

def moveOf (cache : OsdTable) (fillRateOf : OsdId → Option Float) (intOfFloat : Float → Int)
    (manifest : Manifest) (src tgt : OsdId) : List Move :=
  if Fits cache manifest src tgt then
    [{ manifest, src, tgt, score := resultD (scoreOf cache fillRateOf intOfFloat src tgt) 0 }]
  else []

/-- Every candidate's target node is in the table of counts. -/
def AllCounted (cache : OsdTable) (manifest : Manifest) (sources targets : DeviceSet) : Prop :=
  ∀ src ∈ sources, ∀ tgt ∈ targets, Counted cache manifest src tgt

instance : Decidable (AllCounted cache manifest sources targets) :=
  inferInstanceAs (Decidable (∀ _ ∈ _, _))

def SomeFits (cache : OsdTable) (manifest : Manifest) (sources targets : DeviceSet) : Prop :=
  ∃ src ∈ sources, ∃ tgt ∈ targets, Fits cache manifest src tgt

def moves (cache : OsdTable) (fillRateOf : OsdId → Option Float) (intOfFloat : Float → Int)
    (manifest : Manifest) (sources targets : DeviceSet) : List Move :=
  sources.reverse.flatMap fun src =>
    targets.reverse.flatMap (moveOf cache fillRateOf intOfFloat manifest src)

theorem mem_moves {m : Move} :
    m ∈ moves cache fillRateOf intOfFloat manifest sources targets ↔
      ∃ src ∈ sources, ∃ tgt ∈ targets, Fits cache manifest src tgt ∧
        m = ⟨manifest, src, tgt, resultD (scoreOf cache fillRateOf intOfFloat src tgt) 0⟩ := by
  simp only [moves, moveOf, mem_flatMap, mem_reverse, mem_ite_nil_right,
    mem_singleton]

theorem moves_ne_nil_iff :
    moves cache fillRateOf intOfFloat manifest sources targets ≠ [] ↔
      SomeFits cache manifest sources targets := by
  constructor
  · intro hne
    obtain ⟨m, hm⟩ := exists_mem_of_ne_nil _ hne
    obtain ⟨src, hsrc, tgt, htgt, hfits, -⟩ := mem_moves.mp hm
    exact ⟨src, hsrc, tgt, htgt, hfits⟩
  · rintro ⟨src, hsrc, tgt, htgt, hfits⟩
    exact ne_nil_of_mem (mem_moves.mpr ⟨src, hsrc, tgt, htgt, hfits, rfl⟩)

/-- The move that a search over these candidates gives. -/
def best (cache : OsdTable) (fillRateOf : OsdId → Option Float) (intOfFloat : Float → Int)
    (manifest : Manifest) (sources targets : DeviceSet) : Option Move :=
  ((moves cache fillRateOf intOfFloat manifest sources targets).mergeSort
    fun a b => compareMoves' a b ≤ 0).head?

theorem best_isSome_iff :
    (best cache fillRateOf intOfFloat manifest sources targets).isSome ↔
      SomeFits cache manifest sources targets := by
  rw [best, isSome_head?, ne_eq, ← length_eq_zero_iff, length_mergeSort,
    length_eq_zero_iff]
  exact moves_ne_nil_iff

theorem fits_of_best {m : Move}
    (hm : best cache fillRateOf intOfFloat manifest sources targets = some m) :
    m.manifest = manifest ∧ m.src ∈ sources ∧ m.tgt ∈ targets ∧ Fits cache manifest m.src m.tgt := by
  have hmem := (mergeSort_perm _ _).mem_iff.mp (mem_of_mem_head? hm)
  obtain ⟨src, hsrc, tgt, htgt, hfits, rfl⟩ := mem_moves.mp hmem
  exact ⟨rfl, hsrc, htgt, hfits⟩

/-- Every search up to the first one that has a move can be made. -/
def Searched (cache : OsdTable) (manifest : Manifest) : List (DeviceSet × DeviceSet) → Prop
  | [] => True
  | (sources, targets) :: groups =>
    AllCounted cache manifest sources targets ∧
      (¬ SomeFits cache manifest sources targets → Searched cache manifest groups)

variable {groups : List (DeviceSet × DeviceSet)}

theorem foldlM_search_some (m : Move) :
    groups.foldlM (search cache h fillRateOf intOfFloat manifest) (some m) = .ok (some m) := by
  induction groups with
  | nil => rfl
  | cons g groups ih => exact ih

variable (hknown : ∀ d ∈ manifest.osdsUsed, d ∈ cache.ids)
  (hcounts : Counts cache manifest.osdsUsed h)

include hknown hcounts

theorem checkMove_eq (hsrc : src ∈ cache.ids) (htgt : tgt ∈ cache.ids) :
    checkMove cache h manifest src tgt =
      if Counted cache manifest src tgt then .ok (decide (Fits cache manifest src tgt))
      else .error .notFound := by
  rw [checkMove, nodeIdOf_eq hsrc, nodeIdOf_eq htgt]
  change (if cache.node src = cache.node tgt then _ else _) = _
  by_cases hsame : cache.node src = cache.node tgt
  · have hcounted : Counted cache manifest src tgt := Or.inl hsame
    have hfits : Fits cache manifest src tgt := Or.inl hsame
    rw [if_pos hsame, if_pos hcounted, decide_eq_true hfits]
    rfl
  · rw [if_neg hsame, hcounts, onNode_osdsUsed hknown]
    by_cases hempty : objectOsdsOn cache manifest (cache.node tgt) = []
    · rw [if_pos (by rw [hempty]; rfl), if_neg fun hc => hc.elim hsame fun hne => hne hempty]
      rfl
    · have hcounted : Counted cache manifest src tgt := Or.inr hempty
      rw [if_neg fun hz => hempty (eq_nil_of_length_eq_zero hz), if_pos hcounted]
      simp only [Fits, hsame, false_or]
      rfl

variable (hrates : ∀ d ∈ cache.ids, (fillRateOf d).isSome)

include hrates

theorem addMove_eq (hsrc : src ∈ cache.ids) (acc : List Move) (htgt : tgt ∈ cache.ids) :
    addMove cache h fillRateOf intOfFloat manifest src acc tgt =
      if Counted cache manifest src tgt then
        .ok (moveOf cache fillRateOf intOfFloat manifest src tgt ++ acc)
      else .error .notFound := by
  rw [addMove, checkMove_eq hknown hcounts hsrc htgt]
  split
  · rw [ok_bind, moveOf]
    by_cases hfits : Fits cache manifest src tgt
    · obtain ⟨a, ha⟩ := Option.isSome_iff_exists.mp (hrates src hsrc)
      obtain ⟨b, hb⟩ := Option.isSome_iff_exists.mp (hrates tgt htgt)
      have hscore : ∃ score, scoreOf cache fillRateOf intOfFloat src tgt = .ok score := by
        rw [scoreOf, ha, hb, nodeIdOf_eq hsrc, nodeIdOf_eq htgt]
        exact ⟨_, rfl⟩
      obtain ⟨score, hscore⟩ := hscore
      rw [decide_eq_true hfits, if_pos rfl, if_pos hfits, hscore]
      rfl
    · rw [decide_eq_false hfits, if_neg (by decide), if_neg hfits]
      rfl
  · rfl

theorem validMoves_eq (hsources : ∀ d ∈ sources, d ∈ cache.ids) (htargets : ∀ d ∈ targets, d ∈ cache.ids) :
    validMoves cache h fillRateOf intOfFloat manifest sources targets =
      if AllCounted cache manifest sources targets then
        .ok (moves cache fillRateOf intOfFloat manifest sources targets)
      else .error .notFound := by
  have hinner : ∀ acc, ∀ src ∈ sources,
      targets.foldlM (addMove cache h fillRateOf intOfFloat manifest src) acc =
        if ∀ tgt ∈ targets, Counted cache manifest src tgt then
          .ok (targets.reverse.flatMap (moveOf cache fillRateOf intOfFloat manifest src) ++ acc)
        else .error .notFound := fun acc src hsrc =>
    foldlM_collect acc fun acc tgt htgt =>
      addMove_eq hknown hcounts hrates (hsources src hsrc) acc (htargets tgt htgt)
  rw [validMoves, foldlM_collect [] hinner, append_nil]
  rfl

theorem search_eq (hsources : ∀ d ∈ sources, d ∈ cache.ids) (htargets : ∀ d ∈ targets, d ∈ cache.ids) :
    search cache h fillRateOf intOfFloat manifest none (sources, targets) =
      if AllCounted cache manifest sources targets then
        .ok (best cache fillRateOf intOfFloat manifest sources targets)
      else .error .notFound := by
  rw [search, validMoves_eq hknown hcounts hrates hsources htargets]
  split
  · rfl
  · rfl

section

variable (hgroups : ∀ g ∈ groups, (∀ d ∈ g.1, d ∈ cache.ids) ∧ ∀ d ∈ g.2, d ∈ cache.ids)
include hgroups

theorem foldlM_search_of_searched (hsearched : Searched cache manifest groups) :
    ∃ plan, groups.foldlM (search cache h fillRateOf intOfFloat manifest) none = .ok plan ∧
      (∀ m, plan = some m → ∃ g ∈ groups,
        m.manifest = manifest ∧ m.src ∈ g.1 ∧ m.tgt ∈ g.2 ∧ Fits cache manifest m.src m.tgt) ∧
      ((∃ g ∈ groups, SomeFits cache manifest g.1 g.2) → plan.isSome) := by
  induction groups with
  | nil => exact ⟨none, rfl, nofun, fun ⟨_, hg, _⟩ => absurd hg not_mem_nil⟩
  | cons g groups ih =>
    obtain ⟨hg, hgroups⟩ := forall_mem_cons.mp hgroups
    obtain ⟨hcounted, hrest⟩ := hsearched
    rw [foldlM_cons, search_eq hknown hcounts hrates hg.1 hg.2, if_pos hcounted, ok_bind]
    cases hbest : best cache fillRateOf intOfFloat manifest g.1 g.2 with
    | some m =>
      refine ⟨some m, foldlM_search_some m, ?_, fun _ => rfl⟩
      rintro _ ⟨⟩
      exact ⟨g, mem_cons_self, fits_of_best hbest⟩
    | none =>
      have hnone : ¬ SomeFits cache manifest g.1 g.2 := fun hsome => by
        rw [← best_isSome_iff, hbest] at hsome
        exact absurd hsome Bool.false_ne_true
      obtain ⟨plan, hplan, hvalid, hsome⟩ := ih hgroups (hrest hnone)
      refine ⟨plan, hplan, fun m hm => ?_, ?_⟩
      · obtain ⟨g', hg', hm⟩ := hvalid m hm
        exact ⟨g', mem_cons_of_mem g hg', hm⟩
      · rintro ⟨g', hg', hfits⟩
        rcases mem_cons.mp hg' with rfl | hg'
        · exact absurd hfits hnone
        · exact hsome ⟨g', hg', hfits⟩

theorem foldlM_search_of_not_searched (hsearched : ¬ Searched cache manifest groups) :
    groups.foldlM (search cache h fillRateOf intOfFloat manifest) none = .error .notFound := by
  induction groups with
  | nil => exact absurd trivial hsearched
  | cons g groups ih =>
    obtain ⟨hg, hgroups⟩ := forall_mem_cons.mp hgroups
    rw [foldlM_cons, search_eq hknown hcounts hrates hg.1 hg.2]
    by_cases hcounted : AllCounted cache manifest g.1 g.2
    · have hrest : ¬ SomeFits cache manifest g.1 g.2 ∧ ¬ Searched cache manifest groups :=
        Classical.not_imp.mp fun hrest => hsearched ⟨hcounted, hrest⟩
      have hbest : best cache fillRateOf intOfFloat manifest g.1 g.2 = none :=
        Option.not_isSome_iff_eq_none.mp fun hsome => hrest.1 (best_isSome_iff.mp hsome)
      rw [if_pos hcounted, hbest, ok_bind]
      exact ih hgroups hrest.2
    · rw [if_neg hcounted]
      rfl

end

end Candidates

/-- The osds of the table, each in one category. -/
structure Partition (cache : OsdTable) (tooLow ok tooHigh : Category) : Prop where
  all : ((tooLow.2 ++ ok.2 ++ tooHigh.2).map Prod.fst).Perm cache.ids

theorem fillRates_isSome {tooLow ok tooHigh : Category} (hpart : Partition cache tooLow ok tooHigh)
    {d : OsdId} (hd : d ∈ cache.ids) : (fillRates tooLow ok tooHigh d).isSome := by
  have general : ∀ (l : List (OsdId × Float)) (tbl : OsdId → Option Float),
      ((tbl d).isSome ∨ d ∈ l.map Prod.fst) →
        ((l.foldl (fun (tbl : OsdId → Option Float) e => Function.update tbl e.1 (some e.2)) tbl)
          d).isSome := by
    intro l
    induction l with
    | nil => simp
    | cons e l ih =>
      intro tbl hor
      refine ih _ ?_
      by_cases hde : d = e.1
      · subst hde
        simp
      · simpa [hde] using hor
  refine general _ _ (Or.inr ?_)
  have hmem := hpart.all.mem_iff.mpr hd
  simp only [map_append, mem_append] at hmem ⊢
  tauto

section Plan

variable {tooLow ok tooHigh : Category} {intOfFloat : Float → Int}

/-- The osds of the category that hold a fragment of the object, and those that do not. -/
def sourcesIn (manifest : Manifest) (category : Category) : DeviceSet :=
  inter manifest.osdsUsed (asSet category)

def targetsIn (manifest : Manifest) (category : Category) : DeviceSet :=
  (asSet category).diff manifest.osdsUsed

theorem mem_sourcesIn {category : Category} {d : OsdId} :
    d ∈ sourcesIn manifest category ↔ manifest.LocatedOn d ∧ d ∈ category.2.map Prod.fst := by
  rw [sourcesIn, inter, mem_filter, decide_eq_true_eq, Manifest.mem_osdsUsed, mem_asSet]

theorem mem_targetsIn {category : Category} {d : OsdId} :
    d ∈ targetsIn manifest category ↔ d ∈ category.2.map Prod.fst ∧ ¬ manifest.LocatedOn d := by
  rw [targetsIn, DeviceSet.mem_diff, mem_asSet, Manifest.mem_osdsUsed]

def candidates (manifest : Manifest) (tooLow ok tooHigh : Category) : List (DeviceSet × DeviceSet) :=
  [(sourcesIn manifest tooHigh, targetsIn manifest tooLow),
    (sourcesIn manifest tooHigh, targetsIn manifest ok),
    (sourcesIn manifest ok, targetsIn manifest tooLow)]

theorem eq_of_mem_candidates {g : DeviceSet × DeviceSet}
    (hg : g ∈ candidates manifest tooLow ok tooHigh) :
    ∃ c, ∃ c' ∈ [tooLow, ok], g = (sourcesIn manifest c, targetsIn manifest c') := by
  simp only [candidates, mem_cons, not_mem_nil, or_false] at hg
  rcases hg with rfl | rfl | rfl
  · exact ⟨tooHigh, tooLow, by simp, rfl⟩
  · exact ⟨tooHigh, ok, by simp, rfl⟩
  · exact ⟨ok, tooLow, by simp, rfl⟩

/-- The lookups of `osds_used_on_node` find the node of every target they are made for: in the searches
up to the first one that has a move. -/
def LookupsFound (cache : OsdTable) (tooLow ok tooHigh : Category) (manifest : Manifest) : Prop :=
  Searched cache manifest (candidates manifest tooLow ok tooHigh)

/-- The move takes a fragment of the object to an osd that has none, on a node that has room. -/
def ValidMove (cache : OsdTable) (manifest : Manifest) (src tgt : OsdId) : Prop :=
  manifest.LocatedOn src ∧ ¬ manifest.LocatedOn tgt ∧ Fits cache manifest src tgt

/-- The plan is made, is valid, and is a move if there is one from a too full osd to a too empty one. -/
def PlansValid (intOfFloat : Float → Int) (cache : OsdTable) (tooLow ok tooHigh : Category)
    (manifest : Manifest) : Prop :=
  ∃ plan, planMove intOfFloat cache tooLow ok tooHigh manifest = .ok plan ∧
    (∀ m, plan = some m → m.manifest = manifest ∧ ValidMove cache manifest m.src m.tgt) ∧
    ((∃ src ∈ tooHigh.2.map Prod.fst, ∃ tgt ∈ tooLow.2.map Prod.fst,
      ValidMove cache manifest src tgt) → plan.isSome)

theorem planMove_eq (intOfFloat : Float → Int) (hknown : ∀ d ∈ manifest.osdsUsed, d ∈ cache.ids) :
    ∃ h, Counts cache manifest.osdsUsed h ∧ planMove intOfFloat cache tooLow ok tooHigh manifest =
      (candidates manifest tooLow ok tooHigh).foldlM
        (search cache h (fillRates tooLow ok tooHigh) intOfFloat manifest) none := by
  obtain ⟨h, hcount, hcounts⟩ := countPerNode_eq hknown
  refine ⟨h, hcounts, ?_⟩
  rw [planMove, hcount]
  rfl

theorem candidates_known (hpart : Partition cache tooLow ok tooHigh)
    (hlocated : ∀ d, manifest.LocatedOn d → d ∈ cache.ids) :
    ∀ g ∈ candidates manifest tooLow ok tooHigh,
      (∀ d ∈ g.1, d ∈ cache.ids) ∧ ∀ d ∈ g.2, d ∈ cache.ids := by
  intro g hg
  obtain ⟨c, c', hc', rfl⟩ := eq_of_mem_candidates hg
  refine ⟨fun d hd => hlocated d (mem_sourcesIn.mp hd).1, fun d hd => hpart.all.mem_iff.mp ?_⟩
  have hd := (mem_targetsIn.mp hd).1
  simp only [map_append, mem_append]
  rcases mem_pair.mp hc' with rfl | rfl
  · exact .inl (.inl hd)
  · exact .inl (.inr hd)

/-- A plan is made, and is valid, exactly if no target on a node without an osd of the object is looked
at. -/
theorem plans_valid_iff (intOfFloat : Float → Int) (hpart : Partition cache tooLow ok tooHigh)
    (hlocated : ∀ d, manifest.LocatedOn d → d ∈ cache.ids) :
    PlansValid intOfFloat cache tooLow ok tooHigh manifest ↔
      LookupsFound cache tooLow ok tooHigh manifest := by
  have hknown : ∀ d ∈ manifest.osdsUsed, d ∈ cache.ids := fun d hd =>
    hlocated d (Manifest.mem_osdsUsed.mp hd)
  have hgroups := candidates_known hpart hlocated
  have hrates : ∀ d ∈ cache.ids, (fillRates tooLow ok tooHigh d).isSome := fun _ =>
    fillRates_isSome hpart
  obtain ⟨h, hcounts, hplan⟩ := planMove_eq intOfFloat hknown
  constructor
  · rintro ⟨plan, hok, -⟩
    by_contra hnot
    rw [hplan, foldlM_search_of_not_searched hknown hcounts hrates hgroups hnot] at hok
    cases hok
  · intro hfound
    obtain ⟨plan, hok, hvalid, hsome⟩ :=
      foldlM_search_of_searched hknown hcounts hrates hgroups hfound
    refine ⟨plan, hplan.trans hok, fun m hm => ?_, ?_⟩
    · obtain ⟨g, hg, hmanifest, hsrc, htgt, hfits⟩ := hvalid m hm
      obtain ⟨c, c', -, rfl⟩ := eq_of_mem_candidates hg
      exact ⟨hmanifest, (mem_sourcesIn.mp hsrc).1, (mem_targetsIn.mp htgt).2, hfits⟩
    · rintro ⟨src, hsrc, tgt, htgt, hsrcLocated, htgtFree, hfits⟩
      exact hsome ⟨_, mem_cons_self, src, mem_sourcesIn.mpr ⟨hsrcLocated, hsrc⟩, tgt,
        mem_targetsIn.mpr ⟨htgt, htgtFree⟩, hfits⟩

end Plan

/-- The osds of `threeFragments`, osd 1 being too full, and an empty osd on the given node. -/
def withEmptyOsd (nodeId : Bytes) : OsdTable where
  entries := [(1, ⟨ascii ['p'], 100, 90⟩), (2, ⟨ascii ['p'], 100, 50⟩), (3, ⟨ascii ['q'], 100, 50⟩),
    (4, ⟨nodeId, 100, 0⟩)]
  distinct := (by decide : ([1, 2, 3, 4] : List OsdId).Nodup)

def emptyOnes : Category := (1, [(4, 0.0)])
def fairOnes : Category := (2, [(2, 0.5), (3, 0.5)])
def fullOnes : Category := (1, [(1, 0.9)])

theorem located_withEmptyOsd (nodeId : Bytes) (d : OsdId) (hd : threeFragments.LocatedOn d) :
    d ∈ (withEmptyOsd nodeId).ids := by
  have hused : threeFragments.osdsUsed = [1, 2, 3] := by decide +kernel
  have hall : ∀ d ∈ ([1, 2, 3] : List OsdId), d ∈ (withEmptyOsd nodeId).ids := by
    simp [OsdTable.ids, withEmptyOsd]
  exact hall d (hused ▸ Manifest.mem_osdsUsed.mpr hd)

/-- The empty osd is on the node of osd 3. -/
theorem plans_valid_same_node :
    PlansValid (fun _ => 900) (withEmptyOsd (ascii ['q'])) emptyOnes fairOnes fullOnes threeFragments :=
  (plans_valid_iff _ ⟨by decide +kernel⟩ (located_withEmptyOsd _)).mpr
    ⟨by decide +kernel, fun hnone =>
      absurd ⟨1, by decide +kernel, 4, by decide +kernel, by decide +kernel⟩ hnone⟩

/-- The empty osd is on a node of its own, which would be the best place for the fragment. -/
theorem new_node_raises :
    Partition (withEmptyOsd (ascii ['r'])) emptyOnes fairOnes fullOnes ∧
    (∀ d, threeFragments.LocatedOn d → d ∈ (withEmptyOsd (ascii ['r'])).ids) ∧
    ValidMove (withEmptyOsd (ascii ['r'])) threeFragments 1 4 ∧
    ¬ PlansValid (fun _ => 900) (withEmptyOsd (ascii ['r'])) emptyOnes fairOnes fullOnes
      threeFragments := by
  have hraises : planMove (fun _ => 900) (withEmptyOsd (ascii ['r'])) emptyOnes fairOnes fullOnes
      threeFragments = .error .notFound := by decide +kernel
  refine ⟨⟨by decide +kernel⟩, located_withEmptyOsd _, ⟨?_, ?_, by decide +kernel⟩, ?_⟩
  · rw [← Manifest.mem_osdsUsed]
    decide +kernel
  · rw [← Manifest.mem_osdsUsed]
    decide +kernel
  · rintro ⟨plan, hok, -⟩
    rw [hraises] at hok
    cases hok

end PlanMove

end Alba.Placement
