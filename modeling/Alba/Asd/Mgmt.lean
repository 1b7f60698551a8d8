import Alba.Asd.Device
import Alba.Nsm.Keys

/-! The management state of a device: how much is stored on it, and whether it still takes data. The
device answers an Apply request only after its updates have been allowed, and keeps the disk usage when
it commits one. -/

namespace Alba.Asd

open Nsm ProofKit Std

/-- `Osd_keys.AlbaInstance.next_msg_id`. -/
def nextMsgId : Bytes := ascii ['p'] ++ int32BeTo 0 ++ ascii ['m']

/-- The result of an operation on int64 numbers. -/
def int64 (x : Int) : Int := Int.bmod x (2 ^ 64)

/-- `AsdMgmt.t`, with int64 numbers; `full` is set by a client. -/
structure AsdMgmt where
  latestDiskUsage : Int
  capacity : Int
  limit : Int
  full : Bool

namespace AsdMgmt

variable (t : AsdMgmt)

def checkThisUpdate : List Update → Bool
  | [] => true
  | ⟨_, none⟩ :: updates => checkThisUpdate updates
  | ⟨k, some _⟩ :: _ => k = nextMsgId

/-- The test of `updates_allowed`. -/
def detectsFull : Bool :=
  t.full || decide (int64 (100 * t.latestDiskUsage) ≥ int64 (t.limit * t.capacity))

def updatesAllowed (updates : List Update) : Bool :=
  if t.detectsFull then checkThisUpdate updates else true

/-- Stored bytes are counted, so the sum does not overflow. -/
def updateLatestDiskUsage (delta : Int) : AsdMgmt :=
  { t with latestDiskUsage := t.latestDiskUsage + delta }

/-- The device has no room left, or is told not to use it. -/
def IsFull : Prop := t.full ∨ 100 * t.latestDiskUsage ≥ t.limit * t.capacity

end AsdMgmt

def Value.getSize : Value → Nat
  | direct blob => blob.length
  | onFs _ size => size

def sizeOf? (value : Option (Checksum × Value)) : Int := value.elim 0 fun v => v.2.getSize

/-- What a batch adds to the disk usage, with the values that are stored when it is made. -/
def sizeDelta (db : Db) (updates : List Immediate) : Int :=
  updates.foldl (fun delta u => delta - sizeOf? db.values[u.key]? + sizeOf? u.value) 0

def Db.size (db : Db) : Int := total (fun _ value => (value.2.getSize : Int)) db.values

/-- The device with its management state and the Apply requests that it has taken up, in the order of
their numbers. -/
structure AsdServer where
  device : State
  mgmt : AsdMgmt
  made : List (List Assert × List Update)

inductive Error
  | full
  deriving DecidableEq

inductive AsdAction
  | device (action : Action)
  | setFull (full : Bool)
  | setCapacity (capacity : Int)

namespace AsdServer

variable (s : AsdServer)

def initial (capacity limit : Int) : AsdServer :=
  { device := .initial, mgmt := ⟨0, capacity, limit, false⟩, made := [] }

def apply (asserts : List Assert) (updates : List Update) (nextFnr : Nat) : Except Error Unit × AsdServer :=
  if s.mgmt.updatesAllowed updates then
    (.ok (), { s with
      device := s.device.apply asserts updates nextFnr
      made := s.made ++ [(asserts, updates)] })
  else (.error .full, s)

def tryApplyImmediate (i attempt : Nat) (values : List (Bytes × (Checksum × Value))) (r : Request) :
    AsdServer :=
  match checkAsserts s.device.db r.asserts values with
  | .ok () =>
    let mgmt := s.mgmt.updateLatestDiskUsage (sizeDelta s.device.db r.updates)
    -- `NegDiskUsage` ends the process before the batch is written
    if mgmt.latestDiskUsage < 0 then { s with mgmt, device := { s.device with server := .down, requests := [] } }
    else { s with mgmt, device := s.device.tryApplyImmediate i attempt values r }
  | .error _ => { s with device := s.device.tryApplyImmediate i attempt values r }

def exec : AsdAction → Option AsdServer
  | .setFull full => some { s with mgmt := { s.mgmt with full } }
  | .setCapacity capacity => some { s with mgmt := { s.mgmt with capacity } }
  | .device action =>
    match action with
    | .apply asserts updates =>
      match s.device.server with
      | .running nextFnr => some (s.apply asserts updates nextFnr).2
      | _ => none
    | .tryApplyImmediate i =>
      s.device.requests[i]?.bind fun r =>
        match r.phase with
        | .asserted attempt values => some (s.tryApplyImmediate i attempt values r)
        | _ => none
    | .crash _ _ => none
    | action => (Asd.exec s.device action).map fun device => { s with device }

end AsdServer

/-! ### A full device -/

/-- The update stores no data that the device could do without. -/
def Update.Exempt (u : Update) : Prop := u.value = none ∨ u.key = nextMsgId

instance (u : Update) : Decidable u.Exempt := inferInstanceAs (Decidable (_ ∨ _))

/-- The first update of the list that sets a value sets the next message id. -/
def FirstSetExempt : List Update → Prop
  | [] => False
  | ⟨_, none⟩ :: updates => FirstSetExempt updates
  | ⟨k, some _⟩ :: _ => k = nextMsgId

theorem checkThisUpdate_eq_false {updates : List Update} (h : ¬∀ u ∈ updates, u.Exempt) :
    AsdMgmt.checkThisUpdate updates = false ↔ ¬FirstSetExempt updates := by
  induction updates with
  | nil => exact absurd (by simp) h
  | cons u updates ih =>
    obtain ⟨k, _ | value⟩ := u
    · have hrest : ¬∀ u ∈ updates, u.Exempt := fun hall =>
        h (List.forall_mem_cons.mpr ⟨.inl rfl, hall⟩)
      exact ih hrest
    · simp [AsdMgmt.checkThisUpdate, FirstSetExempt]

/-- The device, when it is full, refuses the updates if they store data that it could do without. -/
def AsdServer.RefusesData (s : AsdServer) (asserts : List Assert) (updates : List Update) (nextFnr : Nat) :
    Prop :=
  s.mgmt.IsFull → (¬∀ u ∈ updates, u.Exempt) → s.apply asserts updates nextFnr = (.error .full, s)

theorem apply_eq_full {s : AsdServer} {asserts : List Assert} {updates : List Update} {nextFnr : Nat} :
    s.apply asserts updates nextFnr = (.error .full, s) ↔ s.mgmt.updatesAllowed updates = false := by
  unfold AsdServer.apply
  split
  · rename_i hallowed
    simp [hallowed]
  · rename_i hallowed
    simp [hallowed]

/-- A full device refuses a list with other data exactly when it notices that it is full, with products
that are cut to 64 bits, and the list does not begin, apart from deletes, with a set of the next message
id. -/
theorem refusesData_iff (s : AsdServer) (asserts : List Assert) (updates : List Update) (nextFnr : Nat) :
    s.RefusesData asserts updates nextFnr ↔
      (s.mgmt.IsFull → (∀ u ∈ updates, u.Exempt) ∨
        (s.mgmt.full ∨ int64 (100 * s.mgmt.latestDiskUsage) ≥ int64 (s.mgmt.limit * s.mgmt.capacity)) ∧
          ¬FirstSetExempt updates) := by
  unfold AsdServer.RefusesData
  refine imp_congr_right fun _ => ?_
  by_cases hexempt : ∀ u ∈ updates, u.Exempt
  · exact iff_of_true (fun h => absurd hexempt h) (.inl hexempt)
  · have hdetects : s.mgmt.detectsFull = true ↔ s.mgmt.full ∨
        int64 (100 * s.mgmt.latestDiskUsage) ≥ int64 (s.mgmt.limit * s.mgmt.capacity) := by
      simp [AsdMgmt.detectsFull]
    rw [apply_eq_full, ← hdetects, AsdMgmt.updatesAllowed]
    simp only [hexempt, not_false_eq_true, forall_const, false_or]
    cases s.mgmt.detectsFull with
    | false => simp
    | true => simp [checkThisUpdate_eq_false hexempt]

/-- A device that is told to take no data, and the updates that get some onto it. -/
theorem data_after_nextMsgId :
    let s : AsdServer := { device := .initial, mgmt := ⟨0, 100, 90, true⟩, made := [] }
    let blob : Blob := ⟨1, 7⟩
    ¬s.RefusesData [] [⟨nextMsgId, some (blob, .noChecksum)⟩, ⟨ascii ['a'], some (blob, .noChecksum)⟩] 0 := by
  intro s blob h
  have hfull : s.mgmt.IsFull := .inl rfl
  have hrefused := h hfull (by decide +kernel)
  rw [apply_eq_full] at hrefused
  exact absurd hrefused (by decide +kernel)

end Alba.Asd
