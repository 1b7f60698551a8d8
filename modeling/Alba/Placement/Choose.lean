import Alba.Placement.Policy

/-! The policy that is applied to a namespace, and the choice of devices for an upload. The nodes of a
bag have given the same number of devices so far; a device is taken from a node of the first bag by
weighted random choice, with the `i`th draw as an argument. -/

namespace Alba.Placement

open ProofKit Nsm

/-! ### Policies -/

section Required

variable {α : Type}

def peelNode (s : List (List α) × Int) : List α → List (List α) × Int
  | [] => s
  | _ :: tl => (tl :: s.1, s.2 + 1)

def peel (nodeOsds : List (List α)) (possibleFragmentCount : Int) : List (List α) × Int :=
  nodeOsds.foldl peelNode ([], possibleFragmentCount)

/-- The rounds of `required_osds_per_node`; `none` when there are more of them than `fuel`. -/
def requiredInner (desiredFragmentCount : Int) : Nat → List (List α) → Int → Int → Option Int
  | 0, _, _, _ => none
  | fuel + 1, nodeOsds, osdsPerNode, possibleFragmentCount =>
    let s := peel nodeOsds possibleFragmentCount
    if s.2 ≥ desiredFragmentCount then some osdsPerNode
    else requiredInner desiredFragmentCount fuel s.1 (osdsPerNode + 1) s.2

end Required

/-- `Policy.required_osds_per_node`. -/
def requiredOsdsPerNode (fuel : Nat) (osds : List (OsdId × Bytes)) (desiredFragmentCount : Int) :
    Option Int :=
  requiredInner desiredFragmentCount fuel ((groupBy Prod.snd osds).toList.map Prod.snd) 1 0

def applicableCount (osds : List (OsdId × Bytes)) (policy : Policy) : Option Int :=
  let cnt := getApplicableOsdCount policy.maxDisksPerNode osds
  if policy.fragmentCount ≤ cnt then some (min cnt (policy.k + policy.m)) else none

/-- `Policy.get_first_applicable_policy`. -/
def getFirstApplicablePolicy (policies : List Policy) (osds : List (OsdId × Bytes)) :
    Option (Policy × Int) :=
  policies.findSome? fun policy => (applicableCount osds policy).map fun cnt => (policy, cnt)

structure DeviceInfo where
  nodeId : Bytes
  total : Int
  used : Int

/-- The table of osds, in the order in which it is iterated. -/
structure OsdTable where
  entries : List (OsdId × DeviceInfo)
  distinct : (entries.map Prod.fst).Nodup

def OsdTable.osds (info : OsdTable) : List (OsdId × Bytes) :=
  info.entries.foldl (fun acc e => (e.1, e.2.nodeId) :: acc) []

/-- `get_best_policy`: the policy, the number of fragments and the number of osds needed of a node. -/
def getBestPolicy (fuel : Nat) (policies : List Policy) (info : OsdTable) :
    Option (Option (Policy × Int × Int)) :=
  match getFirstApplicablePolicy policies info.osds with
  | none => some none
  | some (policy, cnt) =>
    (requiredOsdsPerNode fuel info.osds cnt).map fun osdsPerNode => some (policy, cnt, osdsPerNode)

/-! ### Devices -/

inductive ChooseFailure
  | emptyChoose
  | assertFailure
  | notFound
  | failwith (payload : String)
  /-- The bags are nested more deeply than the fuel allows. -/
  | fuel
  deriving DecidableEq

/-- The random numbers: the result of each draw below a bound. -/
abbrev Draws := Nat → Float → Float

/-- The loop of `take_biased` for the random number `n`. -/
def takeBiasedLoop {α : Type} (weightOf : α → Float) (n : Float) :
    Float → List α → List α → Except ChooseFailure (α × List α)
  | _, _, [] => .error (.failwith "take_biased on empty list")
  | _, sx, [x] => .ok (x, sx.reverse)
  | cw, sx, x :: y :: xt =>
    if n < cw + weightOf x then .ok (x, sx.reverseAux (y :: xt))
    else takeBiasedLoop weightOf n (cw + weightOf x) (x :: sx) (y :: xt)

def takeBiased {α : Type} (weightOf : α → Float) (draw : Float → Float) (xs : List α) :
    Except ChooseFailure (α × List α) :=
  let total := xs.foldl (fun sum n => sum + weightOf n) 0.0
  takeBiasedLoop weightOf (draw total) 0.0 [] xs

/-- A device, or a group with what has not been taken from it; the count is what has been taken. -/
inductive Node
  | d (weight : Float) (count : Int) (osdId : OsdId)
  | g (weight : Float) (count : Int) (bags : List (List Node))

abbrev NodeBag := List Node

namespace Node

def countOf : Node → Int
  | d _ c _ | g _ c _ => c

def weightOf : Node → Float
  | d w _ _ | g w _ _ => w

end Node

def insertLoop (node : Node) : List NodeBag → List NodeBag → List NodeBag
  | acc, [] => ([node] :: acc).reverse
  | acc, [] :: t => insertLoop node acc t
  | acc, (item :: rest) :: t =>
    if item.countOf = node.countOf then acc.reverseAux ((node :: item :: rest) :: t)
    else insertLoop node ((item :: rest) :: acc) t

def insert (node : Node) (bags : List NodeBag) : List NodeBag := insertLoop node [] bags

def flattenLoop : List NodeBag → List NodeBag → List NodeBag
  | acc, [] => acc.reverse
  | acc, [] :: t => flattenLoop acc t
  | acc, h :: t => flattenLoop (h :: acc) t

def flatten (bags : List NodeBag) : List NodeBag := flattenLoop [] bags

/-- `choose_device` from the `i`th draw on, with the number of the next draw. -/
def chooseDevice (random : Draws) :
    Nat → Nat → List NodeBag → Except ChooseFailure (Node × List NodeBag × Nat)
  | _, _, [] => .error .emptyChoose
  | 0, _, _ => .error .fuel
  | fuel + 1, i, [] :: t => chooseDevice random fuel i t
  | fuel + 1, i, bag :: t => do
    let (p, rbags) ← takeBiased Node.weightOf (random i) bag
    match p with
    | .d w c osdId => return (.d w c osdId, flatten (rbags :: t), i + 1)
    | .g w c xs =>
      let (x, xs', j) ← chooseDevice random fuel (i + 1) xs
      let t' := if xs'.isEmpty then t else insert (.g w (c + 1) xs') t
      return (x, flatten (rbags :: t'), j)

section Forced

variable (osdId : OsdId)

mutual

def Node.contains : Node → Bool
  | .d _ _ osdId' => osdId' = osdId
  | .g _ _ bags => bagsContain bags

def bagContains : NodeBag → Bool
  | [] => false
  | hd :: tl => hd.contains || bagContains tl

def bagsContain : List NodeBag → Bool
  | [] => false
  | hd :: tl => bagContains hd || bagsContain tl

end

def takeOsdId : NodeBag → NodeBag → Except ChooseFailure (Node × NodeBag)
  | _, [] => .error (.failwith "can't happen 2")
  | acc, x :: tl =>
    if x.contains osdId then .ok (x, acc.reverseAux tl) else takeOsdId (x :: acc) tl

/-- The bags up to the first one that has the device, that one, and the bags after it. -/
def splitAtOsdId : List NodeBag → Except ChooseFailure (List NodeBag × NodeBag × List NodeBag)
  | [] => .error (.failwith "can't happen 1")
  | h :: t =>
    if bagContains osdId h then .ok ([], h, t)
    else (fun s => (h :: s.1, s.2)) <$> splitAtOsdId t

/-- `choose_device_forced`: the device is taken although nobody draws it. -/
def chooseDeviceForced : Nat → List NodeBag → Except ChooseFailure (List NodeBag)
  | 0, _ => .error .fuel
  | fuel + 1, bags => do
    let (before, h, t) ← splitAtOsdId osdId bags
    let (p, hr) ← takeOsdId osdId [] h
    match p with
    | .d _ _ _ => return flatten (before ++ hr :: t)
    | .g w c xs =>
      let xs' ← chooseDeviceForced fuel xs
      let t' := if xs'.isEmpty then t else insert (.g w (c + 1) xs') t
      return flatten (before ++ hr :: t')

end Forced

/-- `Inner.choose_devices`: `n` devices on top of `acc`. -/
def chooseDevicesLoop (random : Draws) (fuel : Nat) :
    Nat → Nat → List Node → List NodeBag → Except ChooseFailure (List Node)
  | 0, _, acc, _ => .ok acc
  | n + 1, i, acc, state => do
    let (d, state', j) ← chooseDevice random fuel i state
    chooseDevicesLoop random fuel n j (d :: acc) state'

def groupWeight (dNodes : List Node) : Float :=
  let s := dNodes.foldl (fun (s : Float × Nat) d => (s.1 + d.weightOf, s.2 + 1)) (0.0, 0)
  s.1 / s.2.toFloat

def deviceWeight (info : DeviceInfo) : Float := Float.ofInt info.total / (1.0 + Float.ofInt info.used)

/-- `build_initial_state`: a bag for each node, the greatest node id first. -/
def buildInitialState (info : OsdTable) : List NodeBag :=
  (groupBy (fun e => e.2.nodeId) info.entries).toList.foldl (fun acc e =>
    let dNodes := e.2.map fun d => Node.d (deviceWeight d.2) 0 d.1
    [.g (groupWeight dNodes) 0 [dNodes]] :: acc) []

def bagCount : NodeBag → Except ChooseFailure Int
  | .g _ c _ :: _ => .ok c
  | _ => .error (.failwith "count_of")

/-- Bags with the same count that follow each other are merged. -/
def mergeLoop : List NodeBag → NodeBag → Int → List (Int × NodeBag) → List NodeBag
  | acc, currentBag, _, [] => (currentBag :: acc).reverse
  | acc, currentBag, currentCount, (count, bag) :: bags =>
    if count = currentCount then mergeLoop acc (currentBag ++ bag) count bags
    else mergeLoop (currentBag :: acc) bag count bags

def mergeBags : List (Int × NodeBag) → Except ChooseFailure (List NodeBag)
  | [] => .error (.failwith "merge?")
  | (count, bag) :: bags => .ok (mergeLoop [] bag count bags)

/-- The device that was chosen, with its information. -/
def deviceOf (info : OsdTable) : Node → Except ChooseFailure (OsdId × DeviceInfo)
  | .d _ _ osdId =>
    match info.entries.find? fun e => e.1 = osdId with
    | some e => .ok (osdId, e.2)
    | none => .error .notFound
  | .g _ _ _ => .error (.failwith "can't happen 3")

def chooseExtraDevices (random : Draws) (fuel n : Nat) (info : OsdTable) (chosen : List OsdId) :
    Except ChooseFailure (List (OsdId × DeviceInfo)) := do
  check (info.entries.length ≥ n) .assertFailure
  let state1u ← chosen.foldlM (fun state osdId => chooseDeviceForced osdId fuel state)
    (buildInitialState info)
  let counted ← state1u.mapM fun bag => do return (← bagCount bag, bag)
  let state2 ← mergeBags (counted.mergeSort fun x y => x.1 ≤ y.1)
  let rInner ← chooseDevicesLoop random fuel n 0 [] state2
  rInner.mapM (deviceOf info)

def chooseDevices (random : Draws) (fuel n : Nat) (info : OsdTable) :
    Except ChooseFailure (List (OsdId × DeviceInfo)) :=
  chooseExtraDevices random fuel n info []

end Alba.Placement
