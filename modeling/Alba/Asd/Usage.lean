import Alba.Asd.Mgmt
import Alba.ProofKit.Traces

/-! The disk usage of a device is kept in memory and in the database. The number in memory is advanced
while the batch is made, before the write of the batch, which may raise. -/

namespace Alba.Asd

open Nsm ProofKit

/-- The device with its record of the disk usage (`Keys.disk_usage`); `up` from the time when the process
has made its management state until it exits. -/
structure UsageServer where
  server : AsdServer
  diskUsage : Option Int
  up : Bool

inductive UsageAction
  | step (action : AsdAction)
  /-- `try_apply_immediate` for a request, whose `Rocks.write` raises if it gets there. -/
  | writeRaises (i : Nat)

namespace UsageServer

variable (s : UsageServer)

def initial (capacity limit : Int) : UsageServer :=
  { server := .initial capacity limit, diskUsage := none, up := false }

/-- The management state is made when the device starts to serve, with the record if there is one. -/
def serve (server : AsdServer) : UsageServer :=
  let latestDiskUsage := s.diskUsage.getD server.device.db.size
  { server := { server with mgmt := { server.mgmt with latestDiskUsage, full := false } }
    diskUsage := some latestDiskUsage
    up := true }

def tryApplyImmediate (i attempt : Nat) (values : List (Bytes × (Checksum × Value))) (r : Request)
    (raises : Bool) : UsageServer :=
  match checkAsserts s.server.device.db r.asserts values with
  | .error _ => { s with server := s.server.tryApplyImmediate i attempt values r }
  | .ok () =>
    let mgmt := s.server.mgmt.updateLatestDiskUsage (sizeDelta s.server.device.db r.updates)
    if mgmt.latestDiskUsage < 0 then
      { s with server := s.server.tryApplyImmediate i attempt values r, up := false }
    else if raises then
      { s with server := { s.server with
          mgmt
          device := s.server.device.withRequest i { r with phase := .failed false } } }
    else
      { s with
        server := s.server.tryApplyImmediate i attempt values r
        diskUsage := some mgmt.latestDiskUsage }

def tryRequest (i : Nat) (raises : Bool) : Option UsageServer :=
  s.server.device.requests[i]?.bind fun r =>
    match r.phase with
    | .asserted attempt values => some (s.tryApplyImmediate i attempt values r raises)
    | _ => none

def exec : UsageAction → Option UsageServer
  | .writeRaises i => s.tryRequest i true
  | .step (.device (.tryApplyImmediate i)) => s.tryRequest i false
  | .step (.device .serve) => (s.server.exec (.device .serve)).map s.serve
  | .step action => (s.server.exec action).map fun server => { s with server }

/-! ### The two numbers -/

/-- While the process is up, its number is that of the record. -/
def Agrees : Prop := s.up = true → s.diskUsage = some s.server.mgmt.latestDiskUsage

/-- The batch of the request that is about to be written, if its asserts hold and the usage does not become
negative, changes the usage by this much. -/
def writtenDelta (i : Nat) : Option Int := do
  let r ← s.server.device.requests[i]?
  match r.phase with
  | .asserted _ values =>
    let delta := sizeDelta s.server.device.db r.updates
    if checkAsserts s.server.device.db r.asserts values = .ok () ∧ 0 ≤ s.server.mgmt.latestDiskUsage + delta
    then some delta else none
  | _ => none

/-- A write of a batch that raises is one that would not have changed the usage. -/
def RaisesUnchanged : UsageAction → Prop
  | .step _ => True
  | .writeRaises i => s.up = true → ∀ delta ∈ s.writtenDelta i, delta = 0

variable {s} {s' : UsageServer}

theorem tryRequest_cases {i : Nat} {raises : Bool} (h : s.tryRequest i raises = some s') :
    (s.writtenDelta i = none ∧ (s'.up = true → s'.up = s.up ∧ s'.diskUsage = s.diskUsage ∧
      s'.server.mgmt.latestDiskUsage = s.server.mgmt.latestDiskUsage)) ∨
    ∃ delta, s.writtenDelta i = some delta ∧ s'.up = s.up ∧
      s'.server.mgmt.latestDiskUsage = s.server.mgmt.latestDiskUsage + delta ∧
      s'.diskUsage = if raises then s.diskUsage else some (s.server.mgmt.latestDiskUsage + delta) := by
  simp only [tryRequest, Option.bind_eq_some_iff] at h
  obtain ⟨r, hr, h⟩ := h
  split at h
  · rename_i attempt values hphase
    cases h
    unfold tryApplyImmediate
    cases hcheck : checkAsserts s.server.device.db r.asserts values with
    | error e =>
      refine .inl ⟨by simp [writtenDelta, hr, hphase, hcheck], fun _ => ⟨rfl, rfl, ?_⟩⟩
      simp [AsdServer.tryApplyImmediate, hcheck]
    | ok u =>
      by_cases hneg : s.server.mgmt.latestDiskUsage + sizeDelta s.server.device.db r.updates < 0
      · refine .inl ⟨by simp [writtenDelta, hr, hphase, hcheck, hneg], ?_⟩
        simp [AsdMgmt.updateLatestDiskUsage, hneg]
      · refine .inr ⟨sizeDelta s.server.device.db r.updates, ?_, ?_⟩
        · simp [writtenDelta, hr, hphase, hcheck, not_lt.mp hneg]
        · cases raises with
          | true => simp [AsdMgmt.updateLatestDiskUsage, hneg]
          | false => simp [AsdMgmt.updateLatestDiskUsage, AsdServer.tryApplyImmediate, hcheck, hneg]
  · cases h

theorem latestDiskUsage_of_exec {server : AsdServer} {action : AsdAction}
    (hcommit : ∀ i, action ≠ .device (.tryApplyImmediate i)) (h : s.server.exec action = some server) :
    server.mgmt.latestDiskUsage = s.server.mgmt.latestDiskUsage := by
  cases action with
  | setFull full =>
    cases h
    rfl
  | setCapacity capacity =>
    cases h
    rfl
  | device action =>
    simp only [AsdServer.exec] at h
    split at h
    · split at h
      · cases h
        unfold AsdServer.apply
        split
        · rfl
        · rfl
      · cases h
    · exact absurd rfl (hcommit _)
    · cases h
    · obtain ⟨device, -, rfl⟩ := Option.map_eq_some_iff.mp h
      rfl

theorem Agrees.step {a : UsageAction} (h : s.Agrees) (hexec : s.exec a = some s')
    (hunchanged : s.RaisesUnchanged a) : s'.Agrees := by
  intro hup
  have attempt : ∀ i raises, s.tryRequest i raises = some s' →
      (raises = true → s.up = true → ∀ delta ∈ s.writtenDelta i, delta = 0) →
      s'.diskUsage = some s'.server.mgmt.latestDiskUsage := by
    intro i raises htry hzero
    rcases tryRequest_cases htry with ⟨-, hkept⟩ | ⟨delta, hdelta, hsame, husage, hrecord⟩
    · obtain ⟨hsame, hrecord, husage⟩ := hkept hup
      rw [hrecord, husage]
      exact h (hsame ▸ hup)
    · cases raises with
      | false => rw [hrecord, husage, if_neg Bool.false_ne_true]
      | true =>
        rw [hrecord, husage, if_pos rfl, hzero rfl (hsame ▸ hup) delta hdelta, Int.add_zero]
        exact h (hsame ▸ hup)
  unfold exec at hexec
  split at hexec
  · exact attempt _ true hexec fun _ => hunchanged
  · exact attempt _ false hexec nofun
  · obtain ⟨server, -, rfl⟩ := Option.map_eq_some_iff.mp hexec
    rfl
  · rename_i action hcommit hserve
    obtain ⟨server, hserver, rfl⟩ := Option.map_eq_some_iff.mp hexec
    rw [latestDiskUsage_of_exec (fun i heq => hcommit i (heq ▸ rfl)) hserver]
    exact h hup

/-- The numbers agree along a run exactly if no write raises that would have changed the usage. -/
theorem agrees_iff (capacity limit : Int) (actions : List UsageAction) :
    AllStates exec Agrees (initial capacity limit) actions ↔
      AllSteps exec RaisesUnchanged (initial capacity limit) actions := by
  refine allStates_iff_allSteps (fun _ h => h) (fun s a s' h hexec hG => h.step hexec hG) ?_ nofun actions
  intro s a s' h hexec hchanged hagrees
  cases a with
  | step action => exact hchanged trivial
  | writeRaises i =>
    simp only [RaisesUnchanged, Classical.not_imp, not_forall] at hchanged
    obtain ⟨hup, delta, hdelta, hne⟩ := hchanged
    rcases tryRequest_cases hexec with ⟨hnone, -⟩ | ⟨delta', hdelta', hsame, husage, hrecord⟩
    · rw [hnone] at hdelta
      cases hdelta
    · obtain rfl : delta = delta' := Option.some.inj (hdelta.symm.trans hdelta')
      have hafter := hagrees (hsame.trans hup)
      rw [hrecord, husage, if_pos rfl, h hup, Option.some.injEq] at hafter
      omega

/-- A blob of five bytes is put on a new device, and the write of the batch raises. -/
theorem raised_write_counted :
    let put := [⟨ascii ['k'], some (⟨5, 0⟩, .noChecksum)⟩]
    let actions := [.step (.device .start), .step (.device .listToBeDeleted),
      .step (.device .startupRemoveToBeDeleted), .step (.device .serve), .step (.device (.apply [] put)),
      .step (.device (.transformAsserts 0)), .writeRaises 0]
    let s := run exec (initial 100 90) actions
    s.server.mgmt.latestDiskUsage = 5 ∧ s.diskUsage = some 0 ∧
      ¬ AllStates exec Agrees (initial 100 90) actions := by
  refine ⟨by decide +kernel, by decide +kernel, fun h => ?_⟩
  have hagrees := h _ List.prefix_rfl (by decide +kernel)
  revert hagrees
  decide +kernel

end UsageServer

end Alba.Asd
