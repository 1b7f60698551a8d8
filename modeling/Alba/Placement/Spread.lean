import Alba.Placement.Required

/-! How the chosen devices are spread. All nodes that have devices left have given `c` or `c + 1` of them,
and the next device comes from one that has given `c`. -/

namespace Alba.Placement

open ProofKit Nsm List

section Biased

variable {α : Type} (weightOf : α → Float)

theorem takeBiasedLoop_eq (n : Float) {xs : List α} (hxs : xs ≠ []) (cw : Float) (sx : List α) :
    ∃ a x b, xs = a ++ x :: b ∧ takeBiasedLoop weightOf n cw sx xs = .ok (x, sx.reverse ++ (a ++ b)) := by
  induction xs generalizing cw sx with
  | nil => exact absurd rfl hxs
  | cons x xs ih =>
    cases xs with
    | nil => exact ⟨[], x, [], rfl, by simp [takeBiasedLoop]⟩
    | cons y xt =>
      rw [takeBiasedLoop]
      split
      · exact ⟨[], x, y :: xt, rfl, by simp⟩
      · obtain ⟨a, z, b, hsplit, hloop⟩ := ih (by simp) (cw + weightOf x) (x :: sx)
        refine ⟨x :: a, z, b, by rw [hsplit]; rfl, ?_⟩
        rw [hloop]
        simp

theorem takeBiased_eq (draw : Float → Float) {xs : List α} (hxs : xs ≠ []) :
    ∃ a x b, xs = a ++ x :: b ∧ takeBiased weightOf draw xs = .ok (x, a ++ b) := by
  obtain ⟨a, x, b, hsplit, hloop⟩ := takeBiasedLoop_eq weightOf
    (draw (xs.foldl (fun sum n => sum + weightOf n) 0.0)) hxs 0.0 []
  exact ⟨a, x, b, hsplit, hloop⟩

end Biased

/-- A node with the devices that have not been taken from it. -/
structure Group where
  node : Bytes
  weight : Float
  devices : List (Float × OsdId)

namespace Group

def ids (g : Group) : List OsdId := g.devices.map Prod.snd

def toNode (c : Int) (g : Group) : Node := .g g.weight c [g.devices.map fun d => .d d.1 0 d.2]

end Group

/-- The bag of the nodes that have given `c` devices, if there are any. -/
def bagOf (c : Int) : List Group → List NodeBag
  | [] => []
  | g :: gs => [(g :: gs).map (Group.toNode c)]

/-- The state when the nodes `low` have given `c` devices and the nodes `high` one more. -/
def stateOf (c : Int) (low high : List Group) : List NodeBag := bagOf c low ++ bagOf (c + 1) high

theorem stateOf_nil (c : Int) (high : List Group) : stateOf c [] high = stateOf (c + 1) high [] := by
  simp [stateOf, bagOf]

theorem flatten_bagOf (c : Int) (low : List Group) (c' : Int) (high : List Group) :
    flatten (low.map (Group.toNode c) :: bagOf c' high) = bagOf c low ++ bagOf c' high := by
  cases low <;> cases high <;> rfl

theorem insert_bagOf (c : Int) (g : Group) (high : List Group) :
    insert (g.toNode c) (bagOf c high) = bagOf c (g :: high) := by
  cases high with
  | nil => rfl
  | cons h high =>
    have hcount : (h.toNode c).countOf = (g.toNode c).countOf := rfl
    simp only [insert, bagOf, map_cons, insertLoop, hcount, if_true]
    rfl

section Draws

variable {random : Draws} {fuel i : Nat} {bag rest : NodeBag} {t : List NodeBag} {w : Float} {c : Int}

theorem chooseDevice_device {osdId : OsdId} (hbag : bag ≠ [])
    (htake : takeBiased Node.weightOf (random i) bag = .ok (.d w c osdId, rest)) :
    chooseDevice random (fuel + 1) i (bag :: t) = .ok (.d w c osdId, flatten (rest :: t), i + 1) := by
  rw [chooseDevice, htake, ok_bind]
  · rfl
  · exact hbag

theorem chooseDevice_group {xs xs' : List NodeBag} {x : Node} {j : Nat} (hbag : bag ≠ [])
    (htake : takeBiased Node.weightOf (random i) bag = .ok (.g w c xs, rest))
    (hx : chooseDevice random fuel (i + 1) xs = .ok (x, xs', j)) :
    chooseDevice random (fuel + 1) i (bag :: t) =
      .ok (x, flatten (rest :: if xs'.isEmpty then t else insert (.g w (c + 1) xs') t), j) := by
  rw [chooseDevice, htake, ok_bind]
  · simp only [hx, ok_bind]
    rfl
  · exact hbag

end Draws

theorem chooseDevice_eq (random : Draws) {fuel : Nat} (hfuel : 2 ≤ fuel) (i : Nat) (c : Int)
    {low : List Group} (high : List Group) (hlow : low ≠ []) (hdevices : ∀ g ∈ low, g.devices ≠ []) :
    ∃ before g after first w d last, low = before ++ g :: after ∧ g.devices = first ++ (w, d) :: last ∧
      chooseDevice random fuel i (stateOf c low high) =
        .ok (.d w 0 d, stateOf c (before ++ after)
          (if first ++ last = [] then high else { g with devices := first ++ last } :: high), i + 2) := by
  obtain ⟨fuel, rfl⟩ : ∃ f, fuel = f + 2 := ⟨fuel - 2, by omega⟩
  -- the draw of the node
  have hbag : low.map (Group.toNode c) ≠ [] := by simpa using hlow
  obtain ⟨a, x, b, hsplit, htake⟩ := takeBiased_eq Node.weightOf (random i) hbag
  obtain ⟨before, rest, rfl, rfl, hrest⟩ := map_eq_append_iff.mp hsplit
  obtain ⟨g, after, rfl, rfl, rfl⟩ := map_eq_cons_iff.mp hrest
  -- the draw of the device
  have hinner : g.devices.map (fun d => Node.d d.1 0 d.2) ≠ [] := by
    simpa using hdevices g (by simp)
  obtain ⟨a', x', b', hsplit', htake'⟩ :=
    takeBiased_eq Node.weightOf (random (i + 1)) hinner
  obtain ⟨first, rest', hparts, rfl, hrest'⟩ := map_eq_append_iff.mp hsplit'
  obtain ⟨⟨w, d⟩, last, rfl, rfl, rfl⟩ := map_eq_cons_iff.mp hrest'
  refine ⟨before, g, after, first, w, d, last, rfl, hparts, ?_⟩
  have hstate : stateOf c (before ++ g :: after) high =
      (before ++ g :: after).map (Group.toNode c) :: bagOf (c + 1) high := by
    cases before <;> rfl
  rw [← map_append] at htake htake'
  have hdevice : chooseDevice random (fuel + 1) (i + 1) [g.devices.map fun d => Node.d d.1 0 d.2] = _ :=
    chooseDevice_device hinner htake'
  rw [hstate, chooseDevice_group hbag htake hdevice]
  cases hleft : first ++ last with
  | nil => exact congrArg (fun state => Except.ok (_, state, _)) (flatten_bagOf c _ (c + 1) high)
  | cons e es =>
    have hinsert := insert_bagOf (c + 1) { g with devices := e :: es } high
    have hbags : flatten [(e :: es).map fun d => Node.d d.1 0 d.2] =
        [(e :: es).map fun d => Node.d d.1 0 d.2] := rfl
    simp only [Group.toNode] at hinsert
    simp only [hbags, isEmpty_cons, Bool.false_eq_true, if_false, hinsert, reduceCtorEq]
    exact congrArg (fun state => Except.ok (_, state, _)) (flatten_bagOf c _ (c + 1) _)

/-! ### The spread of the devices -/

def Node.osdId? : Node → Option OsdId
  | .d _ _ osdId => some osdId
  | .g _ _ _ => none

def OsdTable.node (info : OsdTable) (osdId : OsdId) : Bytes :=
  ((info.entries.find? fun e => e.1 = osdId).map fun e => e.2.nodeId).getD []

def OsdTable.ids (info : OsdTable) : List OsdId := info.entries.map Prod.fst

def OsdTable.onNode (info : OsdTable) (ids : List OsdId) (n : Bytes) : Nat :=
  ids.countP fun d => info.node d = n

section Fair

variable {info : OsdTable} {c : Nat} {low high : List Group} {taken : List OsdId}

theorem OsdTable.find?_eq (info : OsdTable) {e : OsdId × DeviceInfo} (he : e ∈ info.entries) :
    info.entries.find? (fun x => x.1 = e.1) = some e :=
  find?_of_nodup info.distinct he

theorem OsdTable.node_eq (info : OsdTable) {e : OsdId × DeviceInfo} (he : e ∈ info.entries) :
    info.node e.1 = e.2.nodeId := by
  rw [OsdTable.node, info.find?_eq he]
  rfl

theorem OsdTable.onNode_append (info : OsdTable) (l l' : List OsdId) (n : Bytes) :
    info.onNode (l ++ l') n = info.onNode l n + info.onNode l' n :=
  countP_append

/-- The devices `taken` have been taken evenly from the nodes. -/
structure Fair (info : OsdTable) (c : Nat) (low high : List Group) (taken : List OsdId) : Prop where
  nonempty : ∀ g ∈ low ++ high, g.devices ≠ []
  nodes : ((low ++ high).map Group.node).Nodup
  located : ∀ g ∈ low ++ high, ∀ d ∈ g.ids, info.node d = g.node
  all : (taken ++ (low ++ high).flatMap Group.ids).Perm info.ids
  fromLow : ∀ g ∈ low, info.onNode taken g.node = c
  fromHigh : ∀ g ∈ high, info.onNode taken g.node = c + 1

theorem Fair.raise (h : Fair info c [] high taken) : Fair info (c + 1) high [] taken where
  nonempty g hg := h.nonempty g (by simpa using hg)
  nodes := by simpa using h.nodes
  located g hg := h.located g (by simpa using hg)
  all := by simpa using h.all
  fromLow := h.fromHigh
  fromHigh := by simp

theorem Fair.least (h : Fair info c low high taken) (n : Bytes) :
    min c (info.onNode info.ids n) ≤ info.onNode taken n := by
  have hall : info.onNode info.ids n =
      info.onNode taken n + info.onNode ((low ++ high).flatMap Group.ids) n := by
    rw [← OsdTable.onNode_append]
    exact (h.all.countP_eq _).symm
  by_cases hn : ∃ g ∈ low ++ high, g.node = n
  · obtain ⟨g, hg, rfl⟩ := hn
    rcases mem_append.mp hg with hg | hg
    · have := h.fromLow g hg
      omega
    · have := h.fromHigh g hg
      omega
  · have hnone : info.onNode ((low ++ high).flatMap Group.ids) n = 0 := by
      refine countP_eq_zero.mpr fun d hd hnode => ?_
      obtain ⟨g, hg, hdg⟩ := mem_flatMap.mp hd
      exact hn ⟨g, hg, (h.located g hg d hdg).symm.trans (by simpa using hnode)⟩
    omega

/-- A device `d` of the node of `g`, which had given `c` devices, is taken. -/
theorem Fair.take {before after : List Group} {g : Group} {first last : List (Float × OsdId)} {w : Float}
    {d : OsdId} (h : Fair info c (before ++ g :: after) high taken)
    (hdevices : g.devices = first ++ (w, d) :: last) :
    info.node d = g.node ∧ info.onNode taken g.node = c ∧
      Fair info c (before ++ after)
        (if first ++ last = [] then high else { g with devices := first ++ last } :: high) (d :: taken) := by
  have hids : g.ids.Perm (d :: Group.ids { g with devices := first ++ last }) := by
    rw [Group.ids, Group.ids, hdevices]
    simp
  have hnode : info.node d = g.node := h.located g (by simp) d (hids.mem_iff.mpr (by simp))
  have hperm : (before ++ g :: after ++ high).Perm (g :: (before ++ after ++ high)) := by simp
  have hnodes : (g.node :: (before ++ after ++ high).map Group.node).Nodup :=
    ((hperm.map Group.node).nodup_iff).mp h.nodes
  have hother : ∀ g' ∈ before ++ after ++ high, g'.node ≠ g.node := fun g' hg' heq =>
    (nodup_cons.mp hnodes).1 (heq ▸ mem_map_of_mem hg')
  have hkept : ∀ g' ∈ before ++ after ++ high, info.onNode (d :: taken) g'.node =
      info.onNode taken g'.node := by
    intro g' hg'
    rw [OsdTable.onNode, countP_cons, hnode]
    simp [OsdTable.onNode, Ne.symm (hother g' hg')]
  have hraised : info.onNode (d :: taken) g.node = c + 1 := by
    rw [OsdTable.onNode, countP_cons, hnode]
    have := h.fromLow g (by simp)
    simpa [OsdTable.onNode] using this
  have hall : (d :: taken ++ (Group.ids { g with devices := first ++ last } ++
      (before ++ after ++ high).flatMap Group.ids)).Perm info.ids := by
    refine List.Perm.trans ?_ h.all
    refine List.Perm.trans ?_ ((hperm.flatMap_right Group.ids).append_left taken).symm
    rw [flatMap_cons]
    refine List.Perm.trans ?_ ((hids.append_right _).append_left taken).symm
    simpa using perm_middle.symm
  refine ⟨hnode, h.fromLow g (by simp), ?_⟩
  have hold : ∀ g' ∈ before ++ after ++ high, g' ∈ before ++ g :: after ++ high := fun g' hg' =>
    hperm.mem_iff.mpr (mem_cons_of_mem g hg')
  have hlow : ∀ g' ∈ before ++ after, info.onNode (d :: taken) g'.node = c := by
    intro g' hg'
    rw [hkept g' (mem_append_left _ hg')]
    refine h.fromLow g' ?_
    rcases mem_append.mp hg' with hg' | hg' <;> simp [hg']
  have hhigh : ∀ g' ∈ high, info.onNode (d :: taken) g'.node = c + 1 := by
    intro g' hg'
    rw [hkept g' (mem_append_right _ hg')]
    exact h.fromHigh g' hg'
  split
  · rename_i hnone
    constructor
    case nonempty => exact fun g' hg' => h.nonempty g' (hold g' hg')
    case nodes => exact (nodup_cons.mp hnodes).2
    case located => exact fun g' hg' => h.located g' (hold g' hg')
    case all => simpa [Group.ids, hnone] using hall
    case fromLow => exact hlow
    case fromHigh => exact hhigh
  · rename_i hleft
    have hperm' : (before ++ after ++ { g with devices := first ++ last } :: high).Perm
        ({ g with devices := first ++ last } :: (before ++ after ++ high)) := perm_middle
    have hcases : ∀ g' ∈ before ++ after ++ { g with devices := first ++ last } :: high,
        g' = { g with devices := first ++ last } ∨ g' ∈ before ++ after ++ high := fun g' hg' =>
      mem_cons.mp (hperm'.mem_iff.mp hg')
    constructor
    case nonempty =>
      intro g' hg'
      rcases hcases g' hg' with rfl | hg'
      · exact hleft
      · exact h.nonempty g' (hold g' hg')
    case nodes => exact ((hperm'.map Group.node).nodup_iff).mpr hnodes
    case located =>
      intro g' hg' d' hd'
      rcases hcases g' hg' with rfl | hg'
      · exact h.located g (by simp) d' (hids.mem_iff.mpr (mem_cons_of_mem d hd'))
      · exact h.located g' (hold g' hg') d' hd'
    case all => exact ((hperm'.flatMap_right Group.ids).append_left (d :: taken)).trans hall
    case fromLow => exact hlow
    case fromHigh => exact forall_mem_cons.mpr ⟨hraised, hhigh⟩

theorem Fair.level_lt (h : Fair info c low high taken) {n : Nat} {p : Int} (htaken : taken.length < n)
    (hp : n ≤ cappedCount p info.node info.ids) : (c : Int) < p := by
  by_contra hlevel
  have hmono : cappedCount p info.node info.ids ≤ cappedCount c info.node info.ids :=
    cappedCount_mono (Int.not_lt.mp hlevel) _ _
  have hids : ∀ d ∈ taken, info.node d ∈ info.ids.map info.node := fun d hd =>
    mem_map_of_mem (h.all.subset (mem_append_left _ hd))
  have hlength : cappedCount c info.node info.ids ≤ taken.length :=
    cappedCount_le_length hids fun m _ => by exact_mod_cast h.least m
  omega

theorem Fair.some_left (h : Fair info c low high taken) (htaken : taken.length < info.ids.length) :
    low ++ high ≠ [] := by
  intro hnil
  have hlength := h.all.length_eq
  rw [hnil] at hlength
  simp at hlength
  omega

/-- `total` different osds of the table with at most `p` on a node. -/
structure Spreads (info : OsdTable) (total : Nat) (p : Int) (chosen : List OsdId) : Prop where
  length : chosen.length = total
  distinct : chosen.Nodup
  known : ∀ d ∈ chosen, d ∈ info.ids
  bounded : ∀ n, (info.onNode chosen n : Int) ≤ p

/-- The devices are found, and no node gives more than `p`. -/
theorem chooseDevicesLoop_spreads (random : Draws) {fuel : Nat} (hfuel : 2 ≤ fuel) {total : Nat} {p : Int}
    (htotal : total ≤ info.ids.length) (hp : total ≤ cappedCount p info.node info.ids) (n i : Nat)
    (acc : List Node) (h : Fair info c low high taken) (hacc : acc.map Node.osdId? = taken.map some)
    (hn : taken.length + n = total) (hbound : ∀ m, (info.onNode taken m : Int) ≤ p) :
    ∃ r chosen, chooseDevicesLoop random fuel n i acc (stateOf c low high) = .ok r ∧
      r.map Node.osdId? = chosen.map some ∧ Spreads info total p chosen := by
  induction n generalizing i acc c low high taken with
  | zero =>
    have hnodup : (taken ++ (low ++ high).flatMap Group.ids).Nodup := h.all.nodup_iff.mpr info.distinct
    exact ⟨acc, taken, rfl, hacc, ⟨hn, hnodup.of_append_left,
      fun d hd => h.all.subset (mem_append_left _ hd), hbound⟩⟩
  | succ n ih =>
    -- one device is taken from a node of the lower level
    have step : ∀ {c : Nat} {low high : List Group}, low ≠ [] → Fair info c low high taken →
        ∃ r chosen, chooseDevicesLoop random fuel (n + 1) i acc (stateOf c low high) = .ok r ∧
          r.map Node.osdId? = chosen.map some ∧ Spreads info total p chosen := by
      intro c low high hlow h
      obtain ⟨before, g, after, first, w, d, last, rfl, hdevices, hchoose⟩ :=
        chooseDevice_eq random hfuel i c high hlow fun g hg => h.nonempty g (mem_append_left _ hg)
      obtain ⟨hnode, hlevel, hfair⟩ := h.take hdevices
      have hlt := h.level_lt (by omega) hp
      have hbound' : ∀ m, (info.onNode (d :: taken) m : Int) ≤ p := by
        intro m
        rw [OsdTable.onNode, countP_cons, hnode]
        by_cases hm : g.node = m
        · subst hm
          rw [OsdTable.onNode] at hlevel
          simp only [decide_true, if_true]
          omega
        · simpa [hm, OsdTable.onNode] using hbound m
      obtain ⟨r, chosen, hr, hchosen⟩ := ih (i + 2) (.d w 0 d :: acc) hfair (by simp [hacc, Node.osdId?])
        (by simp only [length_cons]; omega) hbound'
      refine ⟨r, chosen, ?_, hchosen⟩
      rw [chooseDevicesLoop, hchoose, ok_bind]
      exact hr
    have hleft := h.some_left (by omega)
    cases low with
    | nil =>
      have hstate : stateOf c [] high = stateOf ((c + 1 : Nat) : Int) high [] := by
        rw [stateOf_nil]
        push_cast
        rfl
      rw [hstate]
      exact step (by simpa using hleft) h.raise
    | cons g low => exact step (by simp) h

end Fair

/-! ### The first state -/

section Start

variable (info : OsdTable)

/-- The groups of a table, the one with the greatest node id first. -/
def OsdTable.groups : List Group :=
  ((groupBy (fun e => e.2.nodeId) info.entries).toList.map fun e =>
    { node := e.1
      weight := groupWeight (e.2.map fun d => Node.d (deviceWeight d.2) 0 d.1)
      devices := e.2.map fun d => (deviceWeight d.2, d.1) : Group }).reverse

theorem buildInitialState_eq : buildInitialState info = info.groups.map fun g => [g.toNode 0] := by
  have h : ∀ (l : List (Bytes × List (OsdId × DeviceInfo))) (acc : List NodeBag),
      l.foldl (fun acc e =>
        let dNodes := e.2.map fun d => Node.d (deviceWeight d.2) 0 d.1
        [.g (groupWeight dNodes) 0 [dNodes]] :: acc) acc =
      (l.map fun e => [Node.g (groupWeight (e.2.map fun d => Node.d (deviceWeight d.2) 0 d.1)) 0
        [e.2.map fun d => Node.d (deviceWeight d.2) 0 d.1]]).reverse ++ acc := by
    intro l
    induction l with
    | nil => simp
    | cons e l ih =>
      intro acc
      rw [foldl_cons, ih]
      simp
  rw [buildInitialState, h, append_nil, OsdTable.groups, map_reverse, map_map]
  congr 1
  refine map_congr_left fun e _ => ?_
  simp [Group.toNode, Function.comp_def]

theorem mem_groups {g : Group} (h : g ∈ info.groups) :
    g.ids = ((info.entries.filter fun e => e.2.nodeId = g.node).reverse.map Prod.fst) ∧ g.devices ≠ [] := by
  rw [OsdTable.groups, mem_reverse] at h
  obtain ⟨e, he, rfl⟩ := mem_map.mp h
  obtain ⟨hgroup, hne⟩ := getElem?_groupBy.mp (Std.ExtTreeMap.mem_toList_iff_getElem?_eq_some.mp he)
  refine ⟨?_, by simpa using hne⟩
  rw [← hgroup]
  simp [Group.ids]

theorem groups_nodup : (info.groups.map Group.node).Nodup := by
  rw [OsdTable.groups, map_reverse, nodup_reverse, map_map]
  exact keys_nodup (groupBy (fun e => e.2.nodeId) info.entries)

theorem located_groups : ∀ g ∈ info.groups, ∀ d ∈ g.ids, info.node d = g.node := by
  intro g hg d hd
  rw [(mem_groups info hg).1] at hd
  obtain ⟨e, he, rfl⟩ := mem_map.mp hd
  rw [mem_reverse, mem_filter] at he
  rw [info.node_eq he.1]
  simpa using he.2

theorem exists_group {e : OsdId × DeviceInfo} (he : e ∈ info.entries) : ∃ g ∈ info.groups, e.1 ∈ g.ids := by
  have hmem : e.2.nodeId ∈ groupBy (fun e => e.2.nodeId) info.entries := mem_groupBy.mpr ⟨e, he, rfl⟩
  obtain ⟨group, hget⟩ := Option.isSome_iff_exists.mp (Std.ExtTreeMap.mem_iff_isSome_getElem?.mp hmem)
  obtain ⟨hgroup, _⟩ := getElem?_groupBy.mp hget
  refine ⟨_, mem_reverse.mpr (mem_map_of_mem (Std.ExtTreeMap.mem_toList_iff_getElem?_eq_some.mpr hget)), ?_⟩
  simp only [Group.ids, map_map, mem_map]
  exact ⟨e, by simp [hgroup, he], rfl⟩

theorem fair_start : Fair info 0 info.groups [] [] where
  nonempty g hg := (mem_groups info (by simpa using hg)).2
  nodes := by simpa using groups_nodup info
  located g hg := located_groups info g (by simpa using hg)
  all := by
    have hids : ∀ g ∈ info.groups, g.ids.Nodup := by
      intro g hg
      rw [(mem_groups info hg).1, map_reverse, nodup_reverse]
      exact info.distinct.sublist (filter_sublist.map _)
    have hnodup : (info.groups.flatMap Group.ids).Nodup := by
      refine nodup_flatMap.mpr ⟨hids, ?_⟩
      refine (pairwise_map.mp (groups_nodup info)).imp_of_mem fun {a b} ha hb hne d hda hdb => hne ?_
      rw [← located_groups info a ha d hda, located_groups info b hb d hdb]
    rw [nil_append, append_nil]
    refine (perm_ext_iff_of_nodup hnodup info.distinct).mpr fun d => ?_
    constructor
    · intro hd
      obtain ⟨g, hg, hdg⟩ := mem_flatMap.mp hd
      rw [(mem_groups info hg).1] at hdg
      obtain ⟨e, he, rfl⟩ := mem_map.mp hdg
      rw [mem_reverse, mem_filter] at he
      exact mem_map_of_mem he.1
    · intro hd
      obtain ⟨e, he, rfl⟩ := mem_map.mp hd
      obtain ⟨g, hg, hdg⟩ := exists_group info he
      exact mem_flatMap.mpr ⟨g, hg, hdg⟩
  fromLow := by simp [OsdTable.onNode]
  fromHigh := by simp

theorem mergeLoop_same (acc : List NodeBag) (bag : NodeBag) (c : Int) (bags : List NodeBag) :
    mergeLoop acc bag c (bags.map fun b => (c, b)) = ((bag ++ bags.flatten) :: acc).reverse := by
  induction bags generalizing bag with
  | nil => simp [mergeLoop]
  | cons b bags ih =>
    rw [map_cons, mergeLoop, if_pos rfl, ih, flatten_cons, append_assoc]

theorem mergeBags_start (h : info.groups ≠ []) :
    mergeBags ((info.groups.map fun g => ((0 : Int), [g.toNode 0])).mergeSort fun x y => x.1 ≤ y.1) =
      .ok (stateOf 0 info.groups []) := by
  have hsorted : (info.groups.map fun g => ((0 : Int), [g.toNode 0])).Pairwise fun x y =>
      decide (x.1 ≤ y.1) = true := by
    refine pairwise_map.mpr (pairwise_of_forall fun a b => ?_)
    simp
  rw [mergeSort_of_pairwise hsorted]
  obtain ⟨g, gs, hgroups⟩ := exists_cons_of_ne_nil h
  have hbags : gs.map (fun g => ((0 : Int), [g.toNode 0])) =
      (gs.map fun g => [g.toNode 0]).map fun b => (0, b) := by
    simp
  rw [hgroups, map_cons, mergeBags, hbags, mergeLoop_same]
  have hflatten : (gs.map fun g => [g.toNode 0]).flatten = gs.map (Group.toNode 0) := by
    rw [← flatMap_def, ← map_eq_flatMap]
  simp [hflatten, stateOf, bagOf]

theorem mapM_deviceOf {r : List Node} {chosen : List OsdId} (h : r.map Node.osdId? = chosen.map some)
    (hknown : ∀ d ∈ chosen, d ∈ info.ids) :
    ∃ devices, r.mapM (deviceOf info) = .ok devices ∧ devices.map Prod.fst = chosen ∧
      ∀ e ∈ devices, e ∈ info.entries := by
  induction r generalizing chosen with
  | nil =>
    have hnil : chosen = [] := by simpa using h.symm
    exact ⟨[], rfl, by simp [hnil], by simp⟩
  | cons node r ih =>
    cases chosen with
    | nil => simp at h
    | cons d chosen =>
      rw [map_cons, map_cons, List.cons.injEq] at h
      obtain ⟨hd, hrest⟩ := forall_mem_cons.mp hknown
      obtain ⟨devices, hdevices, hfst, hentries⟩ := ih h.2 hrest
      obtain ⟨e, he, rfl⟩ := mem_map.mp hd
      have hdevice : deviceOf info node = .ok e := by
        cases node with
        | d w c osdId =>
          have hosd : osdId = e.1 := Option.some.inj h.1
          rw [deviceOf, hosd, info.find?_eq he]
        | g w c bags => cases h.1
      refine ⟨e :: devices, ?_, by simp [hfst], forall_mem_cons.mpr ⟨he, hentries⟩⟩
      rw [mapM_cons, hdevice, ok_bind, hdevices]
      rfl

/-- For every outcome of the draws, `n` different osds are chosen with at most `p` on a node, if `p` of
each node are enough. -/
theorem chooseDevices_spreads (random : Draws) {fuel : Nat} (hfuel : 2 ≤ fuel) {n : Nat} (hpos : 0 < n)
    (hn : n ≤ info.ids.length) {p : Int} (hp : n ≤ cappedCount p info.node info.ids) (hp₀ : 0 ≤ p) :
    ∃ devices, chooseDevices random fuel n info = .ok devices ∧ (∀ e ∈ devices, e ∈ info.entries) ∧
      Spreads info n p (devices.map Prod.fst) := by
  have hgroups : info.groups ≠ [] := by
    have := (fair_start info).some_left (by simpa using Nat.lt_of_lt_of_le hpos hn)
    simpa using this
  have hbound : ∀ m, (info.onNode [] m : Int) ≤ p := fun m => by simpa [OsdTable.onNode] using hp₀
  obtain ⟨r, chosen, hloop, hr, hspreads⟩ := chooseDevicesLoop_spreads random hfuel hn hp n 0 []
    (fair_start info) rfl (by simp) hbound
  obtain ⟨devices, hdevices, hfst, hentries⟩ := mapM_deviceOf info hr hspreads.known
  refine ⟨devices, ?_, hentries, by rwa [hfst]⟩
  have hcounted : (info.groups.map fun g => [g.toNode 0]).mapM (fun bag => do
      return (← bagCount bag, bag)) = .ok (info.groups.map fun g => ((0 : Int), [g.toNode 0])) := by
    rw [mapM_of_forall (g := fun bag => ((0 : Int), bag)), map_map]
    · rfl
    · intro bag hbag
      obtain ⟨g, _, rfl⟩ := mem_map.mp hbag
      rfl
  have hassert : check (info.entries.length ≥ n) ChooseFailure.assertFailure = .ok () := by
    simpa [OsdTable.ids] using hn
  simp only [chooseDevices, chooseExtraDevices, hassert, foldlM_nil, pure, Except.pure, ok_bind,
    buildInitialState_eq]
  simp only [pure, Except.pure] at hcounted
  rw [hcounted, ok_bind, mergeBags_start info hgroups, ok_bind]
  rw [show ((0 : Nat) : Int) = 0 from rfl] at hloop
  rw [hloop, ok_bind]
  exact hdevices

end Start

/-! ### The policy and its devices -/

section Best

variable {info : OsdTable}

theorem OsdTable.osds_eq (info : OsdTable) :
    info.osds = (info.entries.map fun e => (e.1, e.2.nodeId)).reverse := by
  have h : ∀ (l : List (OsdId × DeviceInfo)) (acc : List (OsdId × Bytes)),
      l.foldl (fun acc e => (e.1, e.2.nodeId) :: acc) acc =
        (l.map fun e => (e.1, e.2.nodeId)).reverse ++ acc := by
    intro l
    induction l with
    | nil => simp
    | cons e l ih =>
      intro acc
      rw [foldl_cons, ih]
      simp
  rw [OsdTable.osds, h, append_nil]

theorem cappedCount_osds (info : OsdTable) (p : Int) :
    cappedCount p Prod.snd info.osds = cappedCount p info.node info.ids := by
  have hnodes : info.ids.map info.node = info.entries.map fun e => e.2.nodeId := by
    rw [OsdTable.ids, map_map]
    exact map_congr_left fun e he => info.node_eq he
  have hcount : ∀ n, info.osds.countP (fun e => e.2 = n) = info.ids.countP fun d => info.node d = n := by
    intro n
    have hleft : info.osds.countP (fun e => e.2 = n) =
        (info.entries.map fun e => e.2.nodeId).countP fun m => m = n := by
      rw [info.osds_eq, countP_reverse, countP_map, countP_map]
      rfl
    rw [hleft, ← hnodes, countP_map]
    rfl
  have hfinset : (info.osds.map Prod.snd).toFinset = (info.ids.map info.node).toFinset := by
    rw [hnodes, info.osds_eq, map_reverse, toFinset_reverse, map_map]
    rfl
  unfold cappedCount
  rw [hfinset]
  exact Finset.sum_congr rfl fun n _ => by rw [hcount]

theorem countP_devices {devices : List (OsdId × DeviceInfo)} (h : ∀ e ∈ devices, e ∈ info.entries)
    (n : Bytes) : devices.countP (fun e => e.2.nodeId = n) = info.onNode (devices.map Prod.fst) n := by
  rw [OsdTable.onNode, countP_map]
  refine countP_congr fun e he => ?_
  simp [info.node_eq (h e he)]

/-- The search for a policy ends, and the policy that it finds is the first one that can be applied. Its
number of fragments is allowed by the policy, and it is reached with `p` osds of each node but not with
fewer; with every outcome of the draws that many different osds are chosen, at most `p` on a node. -/
theorem bestPolicy_met (policies : List Policy) (hvalid : ∀ q ∈ policies, PolicyValid q) (info : OsdTable)
    (fuel : Nat) (hfuel : info.entries.length < fuel) :
    ∃ best, getBestPolicy fuel policies info = some best ∧
      ∀ policy cnt p, best = some (policy, cnt, p) →
        (∃ before after, policies = before ++ policy :: after ∧
          (∀ q ∈ before, ¬q.fragmentCount ≤ getApplicableOsdCount q.maxDisksPerNode info.osds) ∧
          policy.fragmentCount ≤ getApplicableOsdCount policy.maxDisksPerNode info.osds) ∧
        policy.fragmentCount ≤ cnt ∧ cnt ≤ policy.k + policy.m ∧ p ≤ policy.maxDisksPerNode ∧
        IsRequired info.osds cnt p ∧
        ∀ random depth, 2 ≤ depth → ∃ devices, chooseDevices random depth cnt.toNat info = .ok devices ∧
          (devices.length : Int) = cnt ∧ (devices.map Prod.fst).Nodup ∧ (∀ e ∈ devices, e ∈ info.entries) ∧
          ∀ n, (devices.countP (fun e => e.2.nodeId = n) : Int) ≤ p := by
  have hlength : info.osds.length = info.entries.length := by simp [info.osds_eq]
  cases hfirst : getFirstApplicablePolicy policies info.osds with
  | none => exact ⟨none, by simp [getBestPolicy, hfirst], by simp⟩
  | some found =>
    obtain ⟨policy, cnt⟩ := found
    obtain ⟨before, after, hpolicies, hbefore, happlicable, hcnt⟩ := getFirstApplicablePolicy_eq_some hfirst
    obtain ⟨hk, hkmin, hmin⟩ := hvalid policy (by simp [hpolicies])
    -- a policy without osds per node is not applicable
    have hmax : 0 < policy.maxDisksPerNode := by
      by_contra hnonpos
      have := getApplicableOsdCount_nonpos info.osds (Int.not_lt.mp hnonpos)
      omega
    have hcapped : cnt ≤ cappedCount policy.maxDisksPerNode Prod.snd info.osds := by
      rw [← getApplicableOsdCount_eq hmax.le, hcnt]
      exact min_le_left _ _
    have hall : cappedCount policy.maxDisksPerNode Prod.snd info.osds ≤ info.osds.length :=
      (cappedCount_mono (le_max_left _ (info.osds.length : Int)) _ _).trans
        (cappedCount_length Prod.snd info.osds (le_max_right _ _)).le
    have hpos : 0 < cnt := by omega
    obtain ⟨p, hp⟩ := requiredOsdsPerNode_terminates (hcapped.trans hall) (hlength.trans_lt hfuel)
    refine ⟨some (policy, cnt, p), by simp [getBestPolicy, hfirst, hp], ?_⟩
    rintro policy' cnt' p' heq
    cases heq
    have hrequired := isRequired_of_some hpos hp
    have hle : p ≤ policy.maxDisksPerNode := by
      by_contra hgt
      have := hrequired.least _ (Int.not_le.mp hgt)
      omega
    have hp₀ : 0 ≤ p := by
      by_contra hneg
      have := cappedCount_nonpos Prod.snd info.osds (p := p) (by omega)
      have := hrequired.enough
      omega
    refine ⟨⟨before, after, hpolicies, hbefore, happlicable⟩, by omega, by omega, hle, hrequired, ?_⟩
    intro random depth hdepth
    have hn : cnt.toNat ≤ info.ids.length := by
      simp only [OsdTable.ids, length_map]
      omega
    have henough : (cnt.toNat : Int) ≤ cappedCount p info.node info.ids := by
      rw [← cappedCount_osds, Int.toNat_of_nonneg hpos.le]
      exact hrequired.enough
    obtain ⟨devices, hchosen, hentries, hspreads⟩ := chooseDevices_spreads info random hdepth
      (by omega) hn henough hp₀
    refine ⟨devices, hchosen, ?_, hspreads.distinct, hentries, fun n => ?_⟩
    · have := hspreads.length
      rw [length_map] at this
      omega
    · rw [countP_devices hentries]
      exact hspreads.bounded n

def threeDevices : OsdTable where
  entries := [(1, ⟨ascii ['p'], 100, 10⟩), (2, ⟨ascii ['p'], 100, 20⟩), (3, ⟨ascii ['q'], 100, 30⟩)]
  distinct := by decide

/-- The first policy wants more osds than there are. -/
theorem bestPolicy_met_threeDevices :
    ∃ devices, chooseDevices (fun _ bound => bound) 2 3 threeDevices = .ok devices ∧
      (devices.map Prod.fst).Nodup := by
  obtain ⟨best, hbest, hmet⟩ := bestPolicy_met [⟨3, 1, 4, 1⟩, ⟨2, 1, 3, 2⟩] (by simp [PolicyValid])
    threeDevices 4 (by decide)
  have hfound : best = some (⟨2, 1, 3, 2⟩, 3, 2) := by
    have hrun : getBestPolicy 4 [⟨3, 1, 4, 1⟩, ⟨2, 1, 3, 2⟩] threeDevices =
        some (some (⟨2, 1, 3, 2⟩, 3, 2)) := by decide +kernel
    rw [hbest] at hrun
    exact Option.some.inj hrun
  obtain ⟨devices, hchosen, _, hdistinct, _⟩ := (hmet _ _ _ hfound).2.2.2.2.2 (fun _ bound => bound) 2 (by decide)
  exact ⟨devices, hchosen, hdistinct⟩

end Best

end Alba.Placement
