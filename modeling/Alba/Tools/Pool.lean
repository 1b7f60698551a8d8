import Alba.ProofKit.KeyLists
import Alba.ProofKit.Traces

/-! The pool of connections (`Lwt_pool2`). The calls of `use` run interleaved; between two points where a
call waits it runs in one go, and a waiter that is woken goes on at once. -/

namespace Alba.Tools

open ProofKit List

variable {ρ : Type}

/-- A call of `use`. -/
abbrev Caller := Nat

inductive CheckResult
  | keep
  | dropThis
  | dropPool
  deriving DecidableEq

structure Pool (ρ : Type) where
  maxSize : Int
  count : Int
  availableItems : List ρ
  waiters : List Caller
  finalizing : Bool

/-- What a call of `use` has of the pool: a resource that is being made, or one that its body uses. -/
inductive Task (ρ : Type)
  | creating
  | using (a : ρ)
  deriving DecidableEq

namespace Pool

def create (maxSize : Int) : Pool ρ where
  maxSize := maxSize
  count := 0
  availableItems := []
  waiters := []
  finalizing := false

/-- The pool, the calls that have a resource, and those that wait for the clean up of theirs. -/
structure Calls (ρ : Type) where
  pool : Pool ρ
  busy : List (Caller × Task ρ)
  closing : List (Caller × ρ)

def initial (maxSize : Int) : Calls ρ := { pool := create maxSize, busy := [], closing := [] }

namespace Calls

def acquire (s : Calls ρ) (c : Caller) : Calls ρ :=
  match s.pool.availableItems with
  | [] =>
    if s.pool.count < s.pool.maxSize then
      { s with pool.count := s.pool.count + 1, busy := (c, .creating) :: s.busy }
    else { s with pool.waiters := s.pool.waiters ++ [c] }
  | a :: rest => { s with pool.availableItems := rest, busy := (c, .using a) :: s.busy }

/-- The end of a call: it wakes up the first waiter, which tries again. -/
def wake (s : Calls ρ) : Calls ρ :=
  match s.pool.waiters with
  | [] => s
  | c :: rest => acquire { s with pool.waiters := rest } c

def leave (s : Calls ρ) (c : Caller) : Calls ρ := { s with busy := eraseKey s.busy c }

def active (s : Calls ρ) (c : Caller) : Bool :=
  hasKey s.busy c || c ∈ s.pool.waiters || hasKey s.closing c

def taskOf (s : Calls ρ) (c : Caller) : Option (Task ρ) :=
  (s.busy.find? fun e => e.1 = c).map Prod.snd

def returned (s : Calls ρ) (c : Caller) (a : ρ) : Calls ρ :=
  if s.pool.finalizing then
    { leave s c with pool.count := s.pool.count - 1, closing := (c, a) :: s.closing }
  else wake { leave s c with pool.availableItems := s.pool.availableItems ++ [a] }

def raised (s : Calls ρ) (c : Caller) (a : ρ) : CheckResult → Calls ρ
  | .keep => wake { leave s c with pool.availableItems := s.pool.availableItems ++ [a] }
  | .dropThis => wake { leave s c with pool.count := s.pool.count - 1 }
  | .dropPool => wake { leave s c with pool.count := 0, pool.availableItems := [] }

end Calls

inductive Event (ρ : Type)
  | use (c : Caller)
  | created (c : Caller) (a : ρ)
  | factoryFailed (c : Caller)
  | returned (c : Caller)
  | raised (c : Caller) (check : CheckResult)
  | closed (c : Caller)
  | closeFailed (c : Caller) (check : CheckResult)
  | finalize

open Calls in
/-- A call that starts while the pool is being finalized fails. A clean up that fails in `use` is handled
like a failure of the body. -/
def exec (s : Calls ρ) : Event ρ → Option (Calls ρ)
  | .use c =>
    if active s c then none else if s.pool.finalizing then some s else some (acquire s c)
  | .created c a =>
    match taskOf s c with
    | some .creating => some { leave s c with busy := (c, .using a) :: (leave s c).busy }
    | _ => none
  | .factoryFailed c =>
    match taskOf s c with
    | some .creating => some (wake { leave s c with pool.count := s.pool.count - 1 })
    | _ => none
  | .returned c =>
    match taskOf s c with
    | some (.using a) => some (returned s c a)
    | _ => none
  | .raised c check =>
    match taskOf s c with
    | some (.using a) => some (raised s c a check)
    | _ => none
  | .closed c =>
    match s.closing.find? fun e => e.1 = c with
    | some _ => some (wake { s with closing := eraseKey s.closing c })
    | none => none
  | .closeFailed c check =>
    match s.closing.find? fun e => e.1 = c with
    | some e => some (raised { s with closing := eraseKey s.closing c } c e.2 check)
    | none => none
  | .finalize => some { s with pool.finalizing := true }

/-! ### The count of the resources -/

/-- Every call that has a resource, or has one made, is counted, and so is every resource that is
available. -/
structure Books (s : Calls ρ) : Prop where
  positive : 1 ≤ s.pool.maxSize
  unclosed : s.closing = []
  keys : KeysNodup s.busy
  queue : s.pool.waiters.Nodup
  apart : ∀ c ∈ s.pool.waiters, hasKey s.busy c = false
  exact : s.pool.count = s.busy.length + s.pool.availableItems.length
  room : s.pool.count ≤ s.pool.maxSize

/-- While a call waits, another one has a resource. -/
structure Kept (s : Calls ρ) : Prop extends Books s where
  served : s.pool.waiters ≠ [] → s.busy ≠ []

variable {s s' : Calls ρ} {c : Caller}

theorem Books.acquire (h : Books s) (hbusy : hasKey s.busy c = false) (hqueue : c ∉ s.pool.waiters) :
    Kept (s.acquire c) := by
  have hkeys : ∀ task, KeysNodup ((c, task) :: s.busy) := fun task =>
    nodup_cons.mpr ⟨fun hc => by
      obtain ⟨e, he, heq⟩ := mem_map.mp hc
      exact hasKey_eq_false.mp hbusy e he heq, h.keys⟩
  have hapart : ∀ task, ∀ w ∈ s.pool.waiters, hasKey ((c, task) :: s.busy) w = false := fun task w hw =>
    hasKey_eq_false.mpr (forall_mem_cons.mpr
      ⟨fun (heq : c = w) => hqueue (heq ▸ hw), hasKey_eq_false.mp (h.apart w hw)⟩)
  have hexact := h.exact
  have hroom := h.room
  unfold Calls.acquire
  split
  · rename_i hnone
    rw [hnone, length_nil] at hexact
    split
    · refine ⟨⟨h.positive, h.unclosed, hkeys _, h.queue, hapart _, ?_, ?_⟩, fun _ => cons_ne_nil _ _⟩
      · simp only [hnone, length_cons, length_nil]
        omega
      · simp only
        omega
    · refine ⟨⟨h.positive, h.unclosed, h.keys, ?_, ?_, h.exact, h.room⟩, fun _ hempty => ?_⟩
      · exact nodup_append.mpr ⟨h.queue, nodup_singleton c, fun a ha b hb heq =>
          hqueue (mem_singleton.mp hb ▸ heq ▸ ha)⟩
      · intro w hw
        rcases mem_append.mp hw with hw | hw
        · exact h.apart w hw
        · exact mem_singleton.mp hw ▸ hbusy
      · -- the pool is full, so somebody has a resource
        have hpositive := h.positive
        have hzero : s.busy.length = 0 := congrArg List.length hempty
        omega
  · rename_i a rest hsome
    rw [hsome, length_cons] at hexact
    refine ⟨⟨h.positive, h.unclosed, hkeys _, h.queue, hapart _, ?_, h.room⟩, fun _ => cons_ne_nil _ _⟩
    simp only [length_cons]
    omega

theorem Books.wake (h : Books s) : Kept s.wake := by
  unfold Calls.wake
  split
  · rename_i hnone
    exact ⟨h, fun hne => absurd hnone hne⟩
  · rename_i c rest hqueue
    have hnodup := nodup_cons.mp (hqueue ▸ h.queue)
    have hrest : Books { s with pool.waiters := rest } :=
      ⟨h.positive, h.unclosed, h.keys, hnodup.2, fun w hw => h.apart w (hqueue ▸ mem_cons_of_mem c hw),
        h.exact, h.room⟩
    exact hrest.acquire (h.apart c (hqueue ▸ mem_cons_self)) hnodup.1

theorem hasKey_of_taskOf {task : Task ρ} (h : s.taskOf c = some task) : hasKey s.busy c = true := by
  obtain ⟨e, he, -⟩ := Option.map_eq_some_iff.mp h
  refine hasKey_eq_true.mpr ⟨e.2, ?_⟩
  have hc : e.1 = c := by simpa using find?_some he
  exact hc ▸ mem_of_find?_eq_some he

theorem Books.leave (h : Books s) (hc : hasKey s.busy c = true) {count : Int} {items : List ρ}
    (hexact : count + 1 = s.busy.length + items.length) (hroom : count ≤ s.pool.maxSize) :
    Books { s.leave c with pool.count := count, pool.availableItems := items } where
  positive := h.positive
  unclosed := h.unclosed
  keys := h.keys.eraseKey
  queue := h.queue
  apart w hw := hasKey_eq_false.mpr fun e he =>
    hasKey_eq_false.mp (h.apart w hw) e (mem_eraseKey.mp he).1
  exact := by
    have hlength : (eraseKey s.busy c).length + 1 = s.busy.length := h.keys.length_eraseKey hc
    change count = (eraseKey s.busy c).length + items.length
    omega
  room := hroom

theorem Books.shrink (h : Books s) (hc : hasKey s.busy c = true) :
    Kept (Calls.wake { s.leave c with pool.count := s.pool.count - 1 }) := by
  have hexact := h.exact
  have hroom := h.room
  have hleave : Books { s.leave c with
      pool.count := s.pool.count - 1, pool.availableItems := s.pool.availableItems } :=
    h.leave hc (by omega) (by omega)
  exact hleave.wake

theorem Kept.created (h : Kept s) (hc : hasKey s.busy c = true) (a : ρ) :
    Kept { s.leave c with busy := (c, .using a) :: (s.leave c).busy } where
  positive := h.positive
  unclosed := h.unclosed
  keys := nodup_cons.mpr ⟨fun hmem => by
    obtain ⟨e, he, heq⟩ := mem_map.mp hmem
    exact (mem_eraseKey.mp he).2 heq, h.keys.eraseKey⟩
  queue := h.queue
  apart w hw := by
    have hw := hasKey_eq_false.mp (h.apart w hw)
    obtain ⟨task, htask⟩ := hasKey_eq_true.mp hc
    exact hasKey_eq_false.mpr (forall_mem_cons.mpr
      ⟨(hw (c, task) htask : c ≠ w), fun e he => hw e (mem_eraseKey.mp he).1⟩)
  exact := by
    have hlength : (eraseKey s.busy c).length + 1 = s.busy.length := h.keys.length_eraseKey hc
    rw [length_cons, Calls.leave, hlength]
    exact h.exact
  room := h.room
  served _ := cons_ne_nil _ _

@[simp] theorem acquire_finalizing (s : Calls ρ) (c : Caller) :
    (s.acquire c).pool.finalizing = s.pool.finalizing := by
  unfold Calls.acquire
  split
  · split
    · rfl
    · rfl
  · rfl

@[simp] theorem wake_finalizing (s : Calls ρ) : s.wake.pool.finalizing = s.pool.finalizing := by
  unfold Calls.wake
  split
  · rfl
  · simp

@[simp] theorem raised_finalizing (s : Calls ρ) (c : Caller) (a : ρ) (check : CheckResult) :
    (s.raised c a check).pool.finalizing = s.pool.finalizing := by
  cases check with
  | keep => exact wake_finalizing _
  | dropThis => exact wake_finalizing _
  | dropPool => exact wake_finalizing _

/-- The count is that of the existing resources, those that are being made included, it is within the
limit, and a call that waits does so for another one. -/
def Respects (s : Calls ρ) : Prop :=
  s.pool.finalizing = false →
    s.pool.count = s.busy.length + s.pool.availableItems.length ∧
    0 ≤ s.pool.count ∧ s.pool.count ≤ s.pool.maxSize ∧
    ∀ c ∈ s.pool.waiters, ∃ e ∈ s.busy, e.1 ≠ c

/-- The pool is dropped only by a call that is the only one to have a resource. -/
def DropsAlone (s : Calls ρ) : Event ρ → Prop
  | .raised c .dropPool => s.pool.finalizing = false → ∀ e ∈ s.busy, e.1 = c
  | _ => True

instance (s : Calls ρ) (a : Event ρ) : Decidable (DropsAlone s a) := by
  unfold DropsAlone
  split
  · infer_instance
  · infer_instance

theorem Kept.respects (h : Kept s) : Respects s := fun _ => by
  refine ⟨h.exact, ?_, h.room, fun c hc => ?_⟩
  · rw [h.exact]
    omega
  · obtain ⟨e, he⟩ := exists_mem_of_ne_nil _ (h.served (ne_nil_of_mem hc))
    exact ⟨e, he, hasKey_eq_false.mp (h.apart c hc) e he⟩

theorem Kept.raised (h : Kept s) (hc : hasKey s.busy c = true) (a : ρ) (check : CheckResult)
    (halone : check = .dropPool → ∀ e ∈ s.busy, e.1 = c) : Kept (s.raised c a check) := by
  have hexact := h.exact
  have hroom := h.room
  cases check with
  | keep =>
    refine (h.leave hc ?_ hroom).wake
    rw [hexact, length_append, length_singleton]
    omega
  | dropThis => exact h.shrink hc
  | dropPool =>
    have hpositive := h.positive
    have hone : s.busy.length = 1 := by
      have hnone : eraseKey s.busy c = [] :=
        eq_nil_iff_forall_not_mem.mpr fun e he =>
          (mem_eraseKey.mp he).2 (halone rfl e (mem_eraseKey.mp he).1)
      have hlength := h.keys.length_eraseKey hc
      rw [hnone] at hlength
      exact hlength.symm
    exact (h.leave hc (by simp [hone]) (by omega)).wake

theorem kept_step {a : Event ρ} (h : s.pool.finalizing = false → Kept s)
    (hexec : exec s a = some s') (halone : DropsAlone s a) (hopen : s'.pool.finalizing = false) :
    Kept s' := by
  cases a with
  | use c =>
    simp only [exec] at hexec
    split at hexec
    · cases hexec
    · rename_i hidle
      simp only [Calls.active, Bool.or_eq_true, not_or, Bool.not_eq_true, decide_eq_true_eq] at hidle
      split at hexec
      · cases hexec
        exact h hopen
      · cases hexec
        exact (h (by simpa using hopen)).acquire hidle.1.1 hidle.1.2
  | created c a =>
    simp only [exec] at hexec
    split at hexec
    · rename_i htask
      cases hexec
      exact (h hopen).created (hasKey_of_taskOf htask) a
    · cases hexec
  | factoryFailed c =>
    simp only [exec] at hexec
    split at hexec
    · rename_i htask
      cases hexec
      rw [wake_finalizing] at hopen
      exact (h hopen).shrink (hasKey_of_taskOf htask)
    · cases hexec
  | returned c =>
    simp only [exec] at hexec
    split at hexec
    · rename_i a htask
      cases hexec
      unfold Calls.returned at hopen ⊢
      by_cases hfinalizing : s.pool.finalizing = true
      · rw [if_pos hfinalizing] at hopen
        exact absurd (hfinalizing.symm.trans hopen) (by decide)
      · rw [if_neg hfinalizing]
        -- the resource is made available, as after a failure that keeps it
        exact (h (by simpa using hfinalizing)).raised (hasKey_of_taskOf htask) a .keep nofun
    · cases hexec
  | raised c check =>
    simp only [exec] at hexec
    split at hexec
    · rename_i a htask
      cases hexec
      rw [raised_finalizing] at hopen
      refine (h hopen).raised (hasKey_of_taskOf htask) a check fun hdrop => ?_
      subst hdrop
      exact halone hopen
    · cases hexec
  | closed c =>
    simp only [exec] at hexec
    split at hexec
    · rename_i hfound
      cases hexec
      rw [wake_finalizing] at hopen
      rw [(h hopen).unclosed] at hfound
      cases hfound
    · cases hexec
  | closeFailed c check =>
    simp only [exec] at hexec
    split at hexec
    · rename_i hfound
      cases hexec
      rw [raised_finalizing] at hopen
      rw [(h hopen).unclosed] at hfound
      cases hfound
    · cases hexec
  | finalize =>
    cases hexec
    cases hopen

/-- By how much the count is too high. -/
def excess (s : Calls ρ) : Int := s.pool.count - (s.busy.length + s.pool.availableItems.length)

theorem acquire_excess (s : Calls ρ) (c : Caller) : excess (s.acquire c) = excess s := by
  unfold Calls.acquire
  split
  · rename_i hnone
    split
    · simp only [excess, hnone, length_cons]
      omega
    · rfl
  · rename_i a rest hsome
    simp only [excess, hsome, length_cons]
    omega

theorem wake_excess (s : Calls ρ) : excess s.wake = excess s := by
  unfold Calls.wake
  split
  · rfl
  · exact acquire_excess _ _

theorem not_respects_of_dropPool {e : Caller × Task ρ} (a : ρ) (hopen : s.pool.finalizing = false)
    (he : e ∈ s.busy) (hne : e.1 ≠ c) : ¬ Respects (s.raised c a .dropPool) := by
  intro h
  have hexact := (h (by rw [raised_finalizing]; exact hopen)).1
  have hexcess : excess (s.raised c a .dropPool) = 0 - ((eraseKey s.busy c).length + 0) := wake_excess _
  have hothers : 0 < (eraseKey s.busy c).length :=
    length_pos_of_mem (mem_eraseKey.mpr ⟨he, hne⟩)
  rw [excess, hexact] at hexcess
  omega

theorem kept_initial {maxSize : Int} (hmax : 1 ≤ maxSize) : Kept (initial maxSize : Calls ρ) where
  positive := hmax
  unclosed := rfl
  keys := nodup_nil
  queue := nodup_nil
  apart _ hw := absurd hw not_mem_nil
  exact := rfl
  room := by
    change 0 ≤ maxSize
    omega
  served hne := absurd rfl hne

/-- The pool keeps its limit along a run exactly if no call drops the pool while another one has a
resource. -/
theorem respects_iff {maxSize : Int} (hmax : 1 ≤ maxSize) (events : List (Event ρ)) :
    AllStates exec Respects (initial maxSize) events ↔
      AllSteps exec DropsAlone (initial maxSize) events := by
  refine allStates_iff_allSteps (I := fun s : Calls ρ => s.pool.finalizing = false → Kept s)
    (fun s h hopen => (h hopen).respects hopen)
    (fun s a s' h hexec halone => kept_step h hexec halone) ?_
    (fun _ => kept_initial hmax) events
  intro s a s' _ hexec hothers
  unfold DropsAlone at hothers
  split at hothers
  · rename_i c
    obtain ⟨hopen, hothers⟩ := Classical.not_imp.mp hothers
    push Not at hothers
    obtain ⟨e, he, hne⟩ := hothers
    simp only [exec] at hexec
    split at hexec
    · cases hexec
      exact not_respects_of_dropPool _ hopen he hne
    · cases hexec
  · exact absurd trivial hothers

/-- Two calls take turns with the only connection, and one of them drops the pool. -/
theorem respects_one : AllStates exec Respects (initial 1 : Calls Nat)
      [.use 1, .created 1 0, .use 2, .returned 1, .raised 2 .dropPool] :=
  (respects_iff (by decide) _).mpr (by decide +kernel)

/-- A call drops the pool while another one uses a connection: then three connections are in use, of
two. -/
theorem dropPool_in_use :
    let events : List (Event Nat) := [.use 1, .created 1 0, .use 2, .created 2 1, .raised 1 .dropPool,
      .use 3, .created 3 2, .use 4, .created 4 3]
    (run exec (initial 2) events).busy.length = 3 ∧
      ¬ AllStates exec Respects (initial 2) events := by
  refine ⟨by decide +kernel, fun h => ?_⟩
  have hexact := (h _ List.prefix_rfl (by decide +kernel)).1
  revert hexact
  decide +kernel

end Pool

end Alba.Tools
