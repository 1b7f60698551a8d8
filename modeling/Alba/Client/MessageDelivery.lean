import Alba.ProofKit.Traces

/-! `deliver_osd_messages_deduped`: while messages are being delivered to an osd, later callers leave a
waker in the table and wait. The first caller's run looks at the entry of the osd when it completes; the
run it starts for the wakers it finds there does not. The state is that of one osd. -/

namespace Alba.Client

open ProofKit List

inductive Outcome
  | success
  | failure
  deriving DecidableEq

/-- A run of `inner`. -/
structure DeliveryRun where
  started : Nat
  wakers : List Nat
  /-- Its completion looks at the entry of the table. -/
  looks : Bool
  deriving DecidableEq

structure Woken where
  call : Nat
  run : Nat
  outcome : Outcome
  deriving DecidableEq

structure Deduped where
  clock : Nat
  /-- The entry of the osd in `osd_msg_delivery_threads`. -/
  entry : Option (List Nat)
  active : List DeliveryRun
  /-- Runs that timed out, with a delivery that goes on. -/
  background : List DeliveryRun
  waiting : List Nat
  woken : List Woken

namespace Deduped

def initial : Deduped where
  clock := 0
  entry := none
  active := []
  background := []
  waiting := []
  woken := []

/-- What the first caller's `Lwt.finalize` does. -/
def finalizer (s : Deduped) : Deduped :=
  match s.entry with
  | none => s
  | some [] => { s with entry := none }
  | some wakers =>
    { s with entry := some [], active := ⟨s.clock, wakers, false⟩ :: s.active }

def complete (s : Deduped) (r : DeliveryRun) : Deduped := if r.looks then s.finalizer else s

def wakeUp (s : Deduped) (r : DeliveryRun) (outcome : Outcome) : Deduped :=
  { s with
    waiting := s.waiting.filter fun c => c ∉ r.wakers
    woken := (r.wakers.map fun c => ⟨c, r.started, outcome⟩) ++ s.woken }

def deliverOsdMessagesDeduped (s : Deduped) : Deduped :=
  match s.entry with
  | none => { s with entry := some [], active := ⟨s.clock, [], true⟩ :: s.active }
  | some wakers => { s with entry := some (s.clock :: wakers), waiting := s.clock :: s.waiting }

inductive Event
  | call
  /-- The delivery of a run ends. -/
  | delivered (run : Nat) (outcome : Outcome)
  | timeout (run : Nat)
  deriving DecidableEq

def without (runs : List DeliveryRun) (r : DeliveryRun) : List DeliveryRun :=
  runs.filter fun x => x.started ≠ r.started

def findRun (runs : List DeliveryRun) (started : Nat) : Option DeliveryRun :=
  runs.find? fun x => x.started = started

def handle (s : Deduped) : Event → Option Deduped
  | .call => some s.deliverOsdMessagesDeduped
  | .delivered run outcome =>
    match findRun s.active run with
    | some r => some (({ s with active := without s.active r }.wakeUp r outcome).complete r)
    | none =>
      match findRun s.background run with
      | some r => some ({ s with background := without s.background r }.wakeUp r outcome)
      | none => none
  | .timeout run =>
    match findRun s.active run with
    | some r =>
      some ({ s with active := without s.active r, background := r :: s.background }.complete r)
    | none => none

def exec (s : Deduped) (e : Event) : Option Deduped :=
  (s.handle e).map fun s' => { s' with clock := s.clock + 1 }

/-! ### Nobody is stranded -/

/-- Somebody will look at the entry, a call that waits has its waker there or with a run that started after
it, and no call was woken by an older run. -/
structure StrandsNobody (s : Deduped) : Prop where
  looked : s.entry ≠ none → ∃ r ∈ s.active, r.looks = true
  kept : ∀ c ∈ s.waiting, (∃ wakers, s.entry = some wakers ∧ c ∈ wakers) ∨
    ∃ r ∈ s.active ++ s.background, c ∈ r.wakers ∧ c < r.started
  later : ∀ w ∈ s.woken, w.call < w.run
  cleared : s.active = [] → s.entry = none

def completed (s : Deduped) : Event → Option DeliveryRun
  | .call => none
  | .delivered run _ => findRun s.active run
  | .timeout run => findRun s.active run

/-- A first run that completes, by the end of its delivery or by a timeout, finds no waker. -/
def FindsNoWaker (s : Deduped) (e : Event) : Prop :=
  ∀ r ∈ s.completed e, r.looks = true → s.entry.getD [] = []

instance (s : Deduped) (e : Event) : Decidable (s.FindsNoWaker e) :=
  inferInstanceAs (Decidable (∀ _ ∈ _, _))

/-- As long as no run finds a waker: there is one run and an entry with the calls that wait, or neither. -/
structure Single (s : Deduped) : Prop where
  runs : (s.active = [] ∧ s.entry = none ∧ s.waiting = []) ∨
    ∃ started, s.active = [⟨started, [], true⟩] ∧ s.entry = some s.waiting
  background : ∀ r ∈ s.background, r.wakers = []
  woken : s.woken = []

variable {s s' : Deduped} {e : Event} {r : DeliveryRun}

theorem Single.strandsNobody (h : Single s) : StrandsNobody s := by
  have hlater : ∀ w ∈ s.woken, w.call < w.run := by simp [h.woken]
  rcases h.runs with ⟨hactive, hentry, hwaiting⟩ | ⟨started, hactive, hentry⟩
  · exact ⟨fun hne => absurd hentry hne, by simp [hwaiting], hlater, fun _ => hentry⟩
  · exact ⟨fun _ => ⟨_, hactive ▸ mem_singleton_self _, rfl⟩,
      fun c hc => Or.inl ⟨_, hentry, hc⟩, hlater, by simp [hactive]⟩

theorem wakeUp_of_no_wakers (hr : r.wakers = []) (outcome : Outcome) : s.wakeUp r outcome = s := by
  simp [wakeUp, hr]

theorem eq_of_findRun {started run : Nat} (hactive : s.active = [⟨started, [], true⟩])
    (hfound : findRun s.active run = some r) : r = ⟨started, [], true⟩ ∧ without s.active r = [] := by
  have hmem := mem_of_find?_eq_some hfound
  rw [hactive, mem_singleton] at hmem
  exact ⟨hmem, by simp [without, hactive, hmem]⟩

theorem Single.complete (hactive : s.active = []) (hentry : s.entry = some s.waiting)
    (hbackground : ∀ r ∈ s.background, r.wakers = []) (hwoken : s.woken = [])
    (hlooks : r.looks = true) (hnone : s.waiting = []) : Single (s.complete r) := by
  rw [Deduped.complete, if_pos hlooks, finalizer, hentry, hnone]
  exact ⟨.inl ⟨hactive, rfl, rfl⟩, hbackground, hwoken⟩

theorem not_strandsNobody_complete {wakers : List Nat} (hactive : s.active = [])
    (hentry : s.entry = some wakers) (hlooks : r.looks = true) (hsome : wakers ≠ []) (clock : Nat) :
    ¬ StrandsNobody { s.complete r with clock } := by
  intro h
  have hlooked := h.looked
  obtain ⟨c, rest, rfl⟩ := exists_cons_of_ne_nil hsome
  rw [Deduped.complete, if_pos hlooks, finalizer, hentry, hactive] at hlooked
  obtain ⟨x, hx, hxlooks⟩ := hlooked nofun
  obtain rfl := mem_singleton.mp hx
  cases hxlooks

theorem Single.tick (h : Single s) (clock : Nat) : Single { s with clock } :=
  ⟨h.runs, h.background, h.woken⟩

theorem Single.handle (h : Single s) (hhandle : s.handle e = some s') (hnone : s.FindsNoWaker e) :
    Single s' := by
  cases e with
  | call =>
    cases hhandle
    rcases h.runs with ⟨hactive, hentry, hwaiting⟩ | ⟨started, hactive, hentry⟩
    · rw [deliverOsdMessagesDeduped, hentry]
      refine ⟨.inr ⟨s.clock, by rw [hactive], ?_⟩, h.background, h.woken⟩
      rw [hwaiting]
    · rw [deliverOsdMessagesDeduped, hentry]
      exact ⟨.inr ⟨started, hactive, rfl⟩, h.background, h.woken⟩
  | delivered run outcome =>
    simp only [Deduped.handle] at hhandle
    split at hhandle
    · rename_i r hfound
      cases hhandle
      rcases h.runs with ⟨hactive, -, -⟩ | ⟨started, hactive, hentry⟩
      · rw [hactive] at hfound
        cases hfound
      · have hwaiting := hnone r hfound
        obtain ⟨rfl, hrest⟩ := eq_of_findRun hactive hfound
        rw [hrest, wakeUp_of_no_wakers rfl]
        rw [hentry] at hwaiting
        exact Single.complete rfl hentry h.background h.woken rfl (hwaiting rfl)
    · split at hhandle
      · rename_i r hfound
        cases hhandle
        have hmem := mem_of_find?_eq_some hfound
        rw [wakeUp_of_no_wakers (h.background r hmem)]
        exact ⟨h.runs, fun x hx => h.background x (mem_of_mem_filter hx), h.woken⟩
      · cases hhandle
  | timeout run =>
    simp only [Deduped.handle] at hhandle
    split at hhandle
    · rename_i r hfound
      cases hhandle
      rcases h.runs with ⟨hactive, -, -⟩ | ⟨started, hactive, hentry⟩
      · rw [hactive] at hfound
        cases hfound
      · have hwaiting := hnone r hfound
        obtain ⟨rfl, hrest⟩ := eq_of_findRun hactive hfound
        rw [hrest]
        rw [hentry] at hwaiting
        exact Single.complete rfl hentry (forall_mem_cons.mpr ⟨rfl, h.background⟩) h.woken rfl
          (hwaiting rfl)
    · cases hhandle

theorem Single.not_strandsNobody (h : Single s) (hhandle : s.handle e = some s')
    (hfinds : ¬ s.FindsNoWaker e) (clock : Nat) : ¬ StrandsNobody { s' with clock } := by
  simp only [FindsNoWaker, not_forall] at hfinds
  obtain ⟨r, hr, hlooks, hsome⟩ := hfinds
  rcases h.runs with ⟨-, hentry, -⟩ | ⟨started, hactive, hentry⟩
  · rw [hentry] at hsome
    exact absurd rfl hsome
  · rw [hentry] at hsome
    cases e with
    | call => cases hr
    | delivered run outcome =>
      have hfound : findRun s.active run = some r := hr
      obtain ⟨rfl, hrest⟩ := eq_of_findRun hactive hfound
      simp only [Deduped.handle, hfound] at hhandle
      cases hhandle
      rw [hrest, wakeUp_of_no_wakers rfl]
      exact not_strandsNobody_complete (s := { s with active := [] }) (r := ⟨started, [], true⟩) rfl
        hentry rfl hsome clock
    | timeout run =>
      have hfound : findRun s.active run = some r := hr
      obtain ⟨rfl, hrest⟩ := eq_of_findRun hactive hfound
      simp only [Deduped.handle, hfound] at hhandle
      cases hhandle
      rw [hrest]
      exact not_strandsNobody_complete
        (s := { s with active := [], background := ⟨started, [], true⟩ :: s.background })
        (r := ⟨started, [], true⟩) rfl hentry rfl hsome clock

/-- Nobody is stranded along a run exactly if no first run ever finds a waker when it completes. -/
theorem strands_nobody_iff (events : List Event) :
    AllStates exec StrandsNobody initial events ↔ AllSteps exec FindsNoWaker initial events := by
  refine allStates_iff_allSteps (I := Single) (fun s h => h.strandsNobody) ?_ ?_
    ⟨.inl ⟨rfl, rfl, rfl⟩, fun _ hr => absurd hr not_mem_nil, rfl⟩ events
  · intro s e s' h hexec hnone
    obtain ⟨mid, hhandle, rfl⟩ := Option.map_eq_some_iff.mp hexec
    exact (h.handle hhandle hnone).tick _
  · intro s e s' h hexec hfinds
    obtain ⟨mid, hhandle, rfl⟩ := Option.map_eq_some_iff.mp hexec
    exact h.not_strandsNobody hhandle hfinds _

/-- The second caller arrives during the delivery of the first; the third one waits for ever. -/
theorem third_caller_stranded :
    let events := [.call, .call, .delivered 0 .success, .delivered 2 .success, .call]
    (run exec initial events).active.length = 0 ∧ (run exec initial events).waiting = [4] ∧
      ¬ AllStates exec StrandsNobody initial events := by
  refine ⟨by decide +kernel, by decide +kernel, fun h => ?_⟩
  have hcleared := (h _ List.prefix_rfl).cleared
  revert hcleared
  decide +kernel

end Deduped

end Alba.Client
