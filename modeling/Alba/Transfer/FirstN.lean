import Alba.ProofKit.Latch
import Alba.ProofKit.Run

/-! `first_n` of `Lwt_extra2`: a thread for every item, two latches that the threads count down, and
the caller, which waits for one latch, then for the slack time or for all threads. -/

namespace Alba.Transfer

open List hiding next
open ProofKit

inductive Reply (ρ : Type)
  | value (r : ρ)
  | exn
  deriving DecidableEq

inductive Thread (ρ : Type)
  | running
  | logging (reply : Reply ρ)
  | resolved (reply : Reply ρ)
  deriving DecidableEq

inductive Wait
  | latches
  | announcement
  | slack
  | slackers
  | returned (success : Bool)
  deriving DecidableEq

/-- A line of the log: that of the thread of an item, which then returns its reply, or one of the
caller. -/
inductive Line (ρ : Type)
  | item (i : Nat) (reply : Reply ρ)
  | caller
  deriving DecidableEq

structure FirstN (ρ : Type) where
  success : Latch
  failures : Latch
  threads : List (Thread ρ)
  wait : Wait
  log : List (Line ρ)
  deriving DecidableEq

inductive Event (ρ : Type)
  | resolve (i : Nat) (reply : Reply ρ)
  | written
  | decided
  | expired
  | joined
  deriving DecidableEq

section Definitions

variable {ρ : Type} (test : ρ → Bool)

def Reply.passes : Reply ρ → Bool
  | value r => test r
  | exn => false

def Thread.verdict : Thread ρ → Option Bool
  | running => none
  | logging reply => some (reply.passes test)
  | resolved reply => some (reply.passes test)

def Thread.isResolved : Thread ρ → Bool
  | resolved _ => true
  | _ => false

namespace FirstN

def start (ρ : Type) (count : Int) (items : Nat) : Option (FirstN ρ) := do
  let success ← Latch.create count
  let failures ← Latch.create (items - count + 1)
  return { success, failures, threads := List.replicate items .running, wait := .latches, log := [] }

def joins (s : FirstN ρ) : Bool := s.threads.all Thread.isResolved

/-- The caller goes on after its line is written. -/
def resume (s : FirstN ρ) : Wait :=
  match s.wait with
  | .announcement => .slack
  | .slackers => .returned s.success.finished
  | wait => wait

def written (s : FirstN ρ) : Option (FirstN ρ) :=
  match s.log with
  | [] => none
  | .item i reply :: log => some { s with threads := s.threads.set i (.resolved reply), log }
  | .caller :: log => some { s with wait := s.resume, log }

/-- The slack time is over: the threads that still run get a line in the log. -/
def expire (s : FirstN ρ) : FirstN ρ :=
  if s.joins then { s with wait := .returned s.success.finished }
  else { s with wait := .slackers, log := s.log ++ [.caller] }

def step (s : FirstN ρ) : Event ρ → Option (FirstN ρ)
  | .resolve i reply =>
    match s.threads[i]? with
    | some .running => some
      { s with
        success := if reply.passes test then s.success.countDown else s.success
        failures := if reply.passes test then s.failures else s.failures.countDown
        threads := s.threads.set i (.logging reply)
        log := s.log ++ [.item i reply] }
    | _ => none
  | .written => s.written
  | .decided =>
    if s.wait = .latches ∧ (s.success.finished ∨ s.failures.finished) then
      some { s with wait := .announcement, log := s.log ++ [.caller] }
    else none
  | .expired => if s.wait = .slack then some s.expire else none
  | .joined =>
    if (s.wait = .slack ∨ s.wait = .slackers) ∧ s.joins then
      some { s with wait := .returned s.success.finished }
    else none

end FirstN

end Definitions

section Cases

variable {ρ : Type} {test : ρ → Bool}

inductive FirstN.Moves (test : ρ → Bool) (s : FirstN ρ) : Event ρ → FirstN ρ → Prop
  | resolve {i : Nat} (reply : Reply ρ) (running : s.threads[i]? = some .running) :
      Moves test s (.resolve i reply)
        { s with
          success := if reply.passes test then s.success.countDown else s.success
          failures := if reply.passes test then s.failures else s.failures.countDown
          threads := s.threads.set i (.logging reply)
          log := s.log ++ [.item i reply] }
  | item {i : Nat} {reply : Reply ρ} {log : List (Line ρ)} (first : s.log = .item i reply :: log) :
      Moves test s .written { s with threads := s.threads.set i (.resolved reply), log }
  | caller {log : List (Line ρ)} (first : s.log = .caller :: log) :
      Moves test s .written { s with wait := s.resume, log }
  | decided (waits : s.wait = .latches) (opened : s.success.finished ∨ s.failures.finished) :
      Moves test s .decided { s with wait := .announcement, log := s.log ++ [.caller] }
  | expired (waits : s.wait = .slack) (late : ¬s.joins) :
      Moves test s .expired { s with wait := .slackers, log := s.log ++ [.caller] }
  | returns {e : Event ρ} (own : e = .expired ∨ e = .joined)
      (waits : s.wait = .slack ∨ s.wait = .slackers) (all : s.joins) :
      Moves test s e { s with wait := .returned s.success.finished }

theorem FirstN.step_moves {s s' : FirstN ρ} {e : Event ρ} (h : s.step test e = some s') :
    FirstN.Moves test s e s' := by
  cases e with
  | resolve i reply =>
    simp only [step] at h
    split at h
    · rename_i running
      cases h
      exact .resolve reply running
    · cases h
  | written =>
    simp only [step, written] at h
    split at h
    · cases h
    · rename_i first
      cases h
      exact .item first
    · rename_i first
      cases h
      exact .caller first
  | decided =>
    simp only [step, Option.ite_none_right_eq_some, Option.some.injEq] at h
    obtain ⟨⟨waits, opened⟩, rfl⟩ := h
    exact .decided waits opened
  | expired =>
    simp only [step, Option.ite_none_right_eq_some, Option.some.injEq] at h
    obtain ⟨waits, rfl⟩ := h
    unfold expire
    split
    · exact .returns (.inl rfl) (.inl waits) ‹_›
    · exact .expired waits ‹_›
  | joined =>
    simp only [step, Option.ite_none_right_eq_some, Option.some.injEq] at h
    obtain ⟨⟨waits, all⟩, rfl⟩ := h
    exact .returns (.inr rfl) waits all

end Cases

section Invariant

variable {ρ : Type}

/-- The verdict of a thread that has returned; a thread that only waits for the log has not. -/
def Thread.returned (test : ρ → Bool) : Thread ρ → Option Bool
  | resolved reply => some (reply.passes test)
  | _ => none

def Line.passes (test : ρ → Bool) : Line ρ → Bool
  | item _ reply => reply.passes test
  | caller => false

def Line.index? : Line ρ → Option Nat
  | item i _ => some i
  | caller => none

def Line.isItem : Line ρ → Bool
  | item _ _ => true
  | caller => false

/-- The lines that are written before the first one of the caller. -/
def ahead (log : List (Line ρ)) : List (Line ρ) := log.takeWhile Line.isItem

theorem ahead_append_of_mem {log : List (Line ρ)} (h : Line.caller ∈ log) (line : Line ρ) :
    ahead (log ++ [line]) = ahead log := by
  induction log with
  | nil => simp at h
  | cons first log ih =>
    cases first with
    | caller => rfl
    | item i reply =>
      have hlog : Line.caller ∈ log := by simpa using h
      simpa [ahead, takeWhile_cons, Line.isItem] using ih hlog

theorem ahead_append_caller {log : List (Line ρ)} (h : Line.caller ∉ log) :
    ahead (log ++ [.caller]) = log := by
  induction log with
  | nil => rfl
  | cons first log ih =>
    cases first with
    | caller => simp at h
    | item i reply =>
      have hlog : Line.caller ∉ log := by simpa using h
      simpa [ahead, takeWhile_cons, Line.isItem] using ih hlog

/-- The threads that passed and have returned, and those that will once the lines are written. -/
def settled (test : ρ → Bool) (s : FirstN ρ) (lines : List (Line ρ)) : Nat :=
  tally (Thread.returned test) (some true) s.threads + lines.countP (Line.passes test)

/-- Every thread that waits for the log has its line there. The threads that passed before the
caller was woken have their lines before its announcement, so that they have returned once it is
written. -/
structure FirstN.Inv (test : ρ → Bool) (count : Nat) (s : FirstN ρ) : Prop where
  fed : Fed (Thread.verdict test) count (s.threads.length + 1 - count) s.threads s.success s.failures
  bound : count ≤ s.threads.length + 1
  lines : ∀ i reply, .item i reply ∈ s.log ↔ s.threads[i]? = some (.logging reply)
  once : (s.log.filterMap Line.index?).Nodup
  counted : settled test s s.log = tally (Thread.verdict test) (some true) s.threads
  quiet : s.wait = .latches → .caller ∉ s.log
  announces : s.wait = .announcement ∨ s.wait = .slackers → .caller ∈ s.log
  announced : s.wait = .announcement → s.failures.finished ∨ count ≤ settled test s (ahead s.log)
  settles : s.wait ≠ .latches → s.wait ≠ .announcement →
    s.failures.finished ∨ count ≤ settled test s []
  outcome : s.wait = .returned true → count ≤ settled test s []

variable {test : ρ → Bool} {count : Nat} {s s' : FirstN ρ}

theorem FirstN.start_eq_some {count : Int} {items : Nat} :
    start ρ count items = some s ↔ 0 ≤ count ∧ count ≤ items + 1 ∧
      s = { success := { needed := count.toNat }, failures := { needed := items + 1 - count.toNat },
            threads := List.replicate items .running, wait := .latches, log := [] } := by
  simp only [start, Latch.create, Option.bind_eq_bind, Option.bind_eq_some_iff,
    Option.ite_none_right_eq_some, Option.some.injEq]
  constructor
  · rintro ⟨_, ⟨h0, rfl⟩, _, ⟨hn, rfl⟩, h⟩
    cases h
    refine ⟨h0, by omega, ?_⟩
    congr 2
    omega
  · rintro ⟨h0, hn, rfl⟩
    refine ⟨_, ⟨h0, rfl⟩, _, ⟨by omega, rfl⟩, ?_⟩
    congr 3
    omega

theorem FirstN.start_inv {count : Int} {items : Nat} (h : start ρ count items = some s) :
    s.threads.length = items ∧ s.Inv test count.toNat := by
  obtain ⟨h0, hn, rfl⟩ := start_eq_some.mp h
  have hreplicate (f : Thread ρ → Option Bool) (hf : f .running = none) :
      tally f (some true) (List.replicate items .running) = 0 := by
    simp [tally, countP_replicate, hf]
  refine ⟨by simp, ?_⟩
  constructor
  case fed => simpa using fed_start (by simp [Thread.verdict])
  case bound => simp only [length_replicate]; omega
  case lines => simp [getElem?_replicate]
  case once => simp
  case counted =>
    rw [settled, hreplicate (Thread.returned test) rfl, hreplicate (Thread.verdict test) rfl]
    rfl
  all_goals simp

namespace FirstN.Inv

theorem finished_countDown {l : Latch} (b : Bool) (h : l.finished) :
    (if b then l else l.countDown).finished := by
  rw [Latch.finished_iff] at h ⊢
  cases b <;> simp [Latch.countDown, h]

section

variable (inv : s.Inv test count)
include inv

theorem resolve {i : Nat} (reply : Reply ρ) (running : s.threads[i]? = some .running) :
    FirstN.Inv test count
      { s with
        success := if reply.passes test then s.success.countDown else s.success
        failures := if reply.passes test then s.failures else s.failures.countDown
        threads := s.threads.set i (.logging reply)
        log := s.log ++ [.item i reply] } := by
  have hfresh (r : Reply ρ) : Line.item i r ∉ s.log := fun h => by
    simp [(inv.lines i r).mp h] at running
  have hreturned : tally (Thread.returned test) (some true) (s.threads.set i (.logging reply)) =
      tally (Thread.returned test) (some true) s.threads := by
    simpa [Thread.returned] using
      tally_set (Thread.returned test) running (.logging reply) (some true)
  have hverdict : tally (Thread.verdict test) (some true) (s.threads.set i (.logging reply)) =
      tally (Thread.verdict test) (some true) s.threads + if reply.passes test then 1 else 0 := by
    simpa [Thread.verdict] using tally_set (Thread.verdict test) running (.logging reply) (some true)
  have hi := (List.getElem?_eq_some_iff.mp running).1
  constructor
  case fed =>
    simpa using inv.fed.ends running rfl (.logging reply) rfl
  case bound => simpa using inv.bound
  case lines =>
    intro j r
    by_cases hj : i = j
    · subst hj
      simp [hfresh, hi, eq_comm]
    · simp [inv.lines, getElem?_set_ne hj, Ne.symm hj]
  case once =>
    have hnot : i ∉ s.log.filterMap Line.index? := by
      intro h
      obtain ⟨line, hline, hindex⟩ := mem_filterMap.mp h
      cases line with
      | caller => simp [Line.index?] at hindex
      | item j r =>
        obtain rfl : j = i := by simpa [Line.index?] using hindex
        exact hfresh r hline
    rw [filterMap_append, nodup_append]
    refine ⟨inv.once, by simp [Line.index?], ?_⟩
    intro a ha b hb
    obtain rfl : b = i := by simpa [Line.index?] using hb
    exact fun hab => hnot (hab ▸ ha)
  case counted =>
    have hcounted := inv.counted
    simp only [settled, hreturned, hverdict, countP_append, countP_singleton,
      Line.passes] at hcounted ⊢
    by_cases hp : reply.passes test <;> simp only [hp, if_true] <;> omega
  case quiet => simpa using inv.quiet
  case announces => intro h; simpa using inv.announces h
  case announced =>
    intro h
    refine (inv.announced h).imp (finished_countDown _) fun hcount => ?_
    simpa [settled, hreturned, ahead_append_of_mem (inv.announces (.inl h))] using hcount
  case settles =>
    intro h h'
    refine (inv.settles h h').imp (finished_countDown _) fun hcount => ?_
    simpa [settled, hreturned] using hcount
  case outcome =>
    intro h
    simpa [settled, hreturned] using inv.outcome h

theorem item {i : Nat} {reply : Reply ρ} {log : List (Line ρ)} (first : s.log = .item i reply :: log) :
    FirstN.Inv test count { s with threads := s.threads.set i (.resolved reply), log } := by
  have hlogging : s.threads[i]? = some (.logging reply) := (inv.lines i reply).mp (by simp [first])
  have hi := (List.getElem?_eq_some_iff.mp hlogging).1
  have hreturned : tally (Thread.returned test) (some true) (s.threads.set i (.resolved reply)) =
      tally (Thread.returned test) (some true) s.threads + if reply.passes test then 1 else 0 := by
    simpa [Thread.returned] using
      tally_set (Thread.returned test) hlogging (.resolved reply) (some true)
  have hverdict : tally (Thread.verdict test) (some true) (s.threads.set i (.resolved reply)) =
      tally (Thread.verdict test) (some true) s.threads := by
    simpa [Thread.verdict] using
      tally_set (Thread.verdict test) hlogging (.resolved reply) (some true)
  have honce : i ∉ log.filterMap Line.index? ∧ (log.filterMap Line.index?).Nodup := by
    simpa [first, Line.index?] using inv.once
  have hmore : ∀ lines, settled test s (.item i reply :: lines) =
      settled test { s with threads := s.threads.set i (.resolved reply), log } lines := by
    intro lines
    simp only [settled, hreturned, countP_cons, Line.passes]
    by_cases hp : reply.passes test <;> simp only [hp, if_true] <;> omega
  constructor
  case fed => simpa using inv.fed.keeps hlogging (.resolved reply) rfl
  case bound => simpa using inv.bound
  case lines =>
    intro j r
    by_cases hj : i = j
    · subst hj
      have hnot : Line.item i r ∉ log := fun h => honce.1 (mem_filterMap.mpr ⟨_, h, rfl⟩)
      simp [hnot, hi]
    · have hlines := inv.lines j r
      simpa [first, getElem?_set_ne hj, Ne.symm hj] using hlines
  case once => exact honce.2
  case counted =>
    have hcounted := inv.counted
    rw [first, hmore] at hcounted
    rw [hcounted, hverdict]
  case quiet => intro h hmem; exact inv.quiet h (by simp [first, hmem])
  case announces => intro h; simpa [first] using inv.announces h
  case announced =>
    intro h
    refine (inv.announced h).imp id fun hcount => ?_
    rw [← hmore]
    simpa [first, ahead, takeWhile_cons, Line.isItem] using hcount
  case settles =>
    intro h h'
    refine (inv.settles h h').imp id fun hcount => hcount.trans ?_
    simp [settled, hreturned]
  case outcome =>
    intro h
    refine (inv.outcome h).trans ?_
    simp [settled, hreturned]

theorem caller_moves {wait : Wait} {log : List (Line ρ)}
    (items : ∀ i reply, .item i reply ∈ log ↔ .item i reply ∈ s.log)
    (once : (log.filterMap Line.index?).Nodup)
    (passing : log.countP (Line.passes test) = s.log.countP (Line.passes test))
    (quiet : wait = .latches → .caller ∉ log)
    (announces : wait = .announcement ∨ wait = .slackers → .caller ∈ log)
    (announced : wait = .announcement → s.failures.finished ∨ count ≤ settled test s (ahead log))
    (settles : wait ≠ .latches → wait ≠ .announcement → s.failures.finished ∨ count ≤ settled test s [])
    (outcome : wait = .returned true → count ≤ settled test s []) :
    FirstN.Inv test count { s with wait, log } where
  fed := inv.fed
  bound := inv.bound
  lines i reply := (items i reply).trans (inv.lines i reply)
  once := once
  counted := by simpa [settled, passing] using inv.counted
  quiet := quiet
  announces := announces
  announced := announced
  settles := settles
  outcome := outcome

theorem outcome_of_settles (h : s.wait = .slack ∨ s.wait = .slackers)
    (hs : s.success.finished) : count ≤ settled test s [] := by
  have hpassed := inv.fed.success_finished.mp hs
  have hsettles := inv.settles (by rcases h with h | h <;> simp [h]) (by rcases h with h | h <;> simp [h])
  refine hsettles.elim (fun hf => ?_) id
  have hless := inv.fed.exclusive (by have := inv.bound; omega) hf
  omega

theorem caller {log : List (Line ρ)} (first : s.log = .caller :: log) :
    FirstN.Inv test count { s with wait := s.resume, log } := by
  have hwait : s.wait ≠ .latches := fun h => inv.quiet h (by simp [first])
  refine inv.caller_moves (by simp [first]) (by simpa [first, filterMap_cons, Line.index?] using inv.once)
    (by simp [first, Line.passes]) ?quiet ?announces ?announced ?settles ?outcome
  case quiet =>
    cases h : s.wait <;> simp [FirstN.resume, h] at hwait ⊢
  case announces =>
    cases h : s.wait <;> simp [FirstN.resume, h]
  case announced =>
    cases h : s.wait <;> simp [FirstN.resume, h]
  case settles =>
    intro _ _
    by_cases h : s.wait = .announcement
    · simpa [first, ahead, Line.isItem] using inv.announced h
    · exact inv.settles hwait h
  case outcome =>
    intro hreturned
    cases h : s.wait <;> simp [FirstN.resume, h] at hreturned
    · exact inv.outcome_of_settles (.inr h) hreturned
    · exact inv.outcome (by rw [h, hreturned])

theorem step {e : Event ρ} (h : s.step test e = some s') : s'.Inv test count := by
  cases FirstN.step_moves h with
  | resolve reply running => exact inv.resolve reply running
  | item first => exact inv.item first
  | caller first => exact inv.caller first
  | decided waits opened =>
    refine inv.caller_moves (by simp) (by simpa [filterMap_cons, Line.index?] using inv.once)
      (by simp [Line.passes])
      (by simp) (by simp) (fun _ => ?_) (by simp) (by simp)
    rw [ahead_append_caller (inv.quiet waits), inv.counted, ← inv.fed.success_finished]
    exact opened.symm
  | expired waits late =>
    refine inv.caller_moves (by simp) (by simpa [filterMap_cons, Line.index?] using inv.once)
      (by simp [Line.passes])
      (by simp) (by simp) (by simp) (fun _ _ => inv.settles ?_ ?_) (by simp)
    · simp [waits]
    · simp [waits]
  | returns own waits all =>
    refine inv.caller_moves (by simp) inv.once rfl (by simp) (by simp) (by simp)
      (fun _ _ => inv.settles ?_ ?_) fun h => ?_
    · rcases waits with h | h <;> simp [h]
    · rcases waits with h | h <;> simp [h]
    · exact inv.outcome_of_settles waits (by simpa using h)

end

end FirstN.Inv

end Invariant

section Progress

variable {ρ : Type} {test : ρ → Bool} {count : Nat} {s : FirstN ρ}

/-- No item is being worked on any more. -/
def FirstN.Idle (s : FirstN ρ) : Prop := ∀ t ∈ s.threads, t ≠ .running

/-- The events that do not need the timer or an item. -/
def Event.Own : Event ρ → Prop
  | .written | .decided | .joined => True
  | .resolve _ _ | .expired => False

def Wait.rank : Wait → Nat
  | latches => 3
  | announcement => 2
  | slack | slackers => 1
  | returned _ => 0

def FirstN.rank (s : FirstN ρ) : Nat := 2 * s.wait.rank + s.log.length

theorem FirstN.resume_rank (s : FirstN ρ) : s.resume.rank ≤ s.wait.rank := by
  unfold resume
  split <;> simp_all [Wait.rank]

section

variable (inv : s.Inv test count) (idle : s.Idle)
include inv idle

theorem FirstN.Inv.joins_of_idle (hlog : s.log = []) : s.joins := by
  refine all_eq_true.mpr fun t ht => ?_
  obtain ⟨i, hi⟩ := mem_iff_getElem?.mp ht
  cases t with
  | running => exact absurd rfl (idle _ ht)
  | logging reply => simpa [hlog] using (inv.lines i reply).mpr hi
  | resolved reply => rfl

theorem FirstN.Inv.decided_of_idle : s.success.finished ∨ s.failures.finished := by
  have hbound := inv.bound
  refine inv.fed.decided (by omega) fun t ht => ?_
  cases t with
  | running => exact absurd rfl (idle _ ht)
  | logging reply => simp [Thread.verdict]
  | resolved reply => simp [Thread.verdict]

theorem FirstN.Inv.progress (hwait : ∀ success, s.wait ≠ .returned success) :
    ∃ e s', Event.Own e ∧ s.step test e = some s' ∧ s'.Idle ∧ s'.rank < s.rank := by
  cases hlog : s.log with
  | cons line log =>
    cases line with
    | item i reply =>
      refine ⟨.written, _, trivial, by rw [FirstN.step, FirstN.written, hlog], fun t ht => ?_, ?_⟩
      · rcases mem_or_eq_of_mem_set ht with ht | rfl
        · exact idle t ht
        · simp
      · simp [FirstN.rank, hlog]
    | caller =>
      refine ⟨.written, { s with wait := s.resume, log }, trivial,
        by rw [FirstN.step, FirstN.written, hlog], idle, ?_⟩
      have hresume := s.resume_rank
      simp only [FirstN.rank, hlog, length_cons]
      omega
  | nil =>
    cases h : s.wait with
    | latches =>
      refine ⟨.decided, { s with wait := .announcement, log := s.log ++ [.caller] }, trivial,
        by rw [FirstN.step, if_pos ⟨h, inv.decided_of_idle idle⟩], idle, ?_⟩
      simp [FirstN.rank, h, hlog, Wait.rank]
    | announcement => simpa [hlog] using inv.announces (.inl h)
    | slack =>
      have hjoins := inv.joins_of_idle idle hlog
      refine ⟨.joined, { s with wait := .returned s.success.finished }, trivial,
        by rw [FirstN.step, if_pos ⟨.inl h, hjoins⟩], idle, ?_⟩
      simp [FirstN.rank, h, Wait.rank]
    | slackers => simpa [hlog] using inv.announces (.inr h)
    | returned success => exact absurd h (hwait success)

theorem FirstN.Inv.returns :
    ∃ es, (∀ e ∈ es, Event.Own e) ∧
      ∃ success, (run (FirstN.step test) s es).wait = .returned success := by
  induction hrank : s.rank using Nat.strong_induction_on generalizing s with
  | h rank ih =>
    by_cases hwait : ∃ success, s.wait = .returned success
    · exact ⟨[], by simp, hwait⟩
    · obtain ⟨e, s', own, hstep, idle', hless⟩ :=
        inv.progress idle fun success h => hwait ⟨success, h⟩
      obtain ⟨es, hown, hreturned⟩ := ih s'.rank (hrank ▸ hless) (inv.step hstep) idle' rfl
      refine ⟨e :: es, forall_mem_cons.mpr ⟨own, hown⟩, ?_⟩
      simpa [next, hstep] using hreturned

end

end Progress

section Replies

variable {ρ : Type} {test : ρ → Bool} {count : Nat} {s s' : FirstN ρ}

/-- The promise of item `i` has ended with `r`. -/
def FirstN.Replied (s : FirstN ρ) (i : Nat) (r : ρ) : Prop :=
  s.threads[i]? = some (.logging (.value r)) ∨ s.threads[i]? = some (.resolved (.value r))

theorem FirstN.Inv.replied (inv : s.Inv test count) {e : Event ρ} (h : s.step test e = some s')
    {i : Nat} {r : ρ} (hr : s'.Replied i r) : s.Replied i r ∨ e = .resolve i (.value r) := by
  cases FirstN.step_moves h with
  | @resolve j reply running =>
    by_cases hj : j = i
    · subst hj
      have hlt := (List.getElem?_eq_some_iff.mp running).1
      simp only [FirstN.Replied, getElem?_set_self hlt] at hr
      right
      simpa using hr
    · left
      simpa [FirstN.Replied, getElem?_set_ne hj] using hr
  | @item j reply log first =>
    left
    by_cases hj : j = i
    · subst hj
      have hlogging := (inv.lines j reply).mp (by simp [first])
      have hlt := (List.getElem?_eq_some_iff.mp hlogging).1
      simp only [FirstN.Replied, getElem?_set_self hlt] at hr
      left
      simpa [hlogging] using hr
    · simpa [FirstN.Replied, getElem?_set_ne hj] using hr
  | caller | decided | expired | returns => exact .inl hr

theorem FirstN.step_length {e : Event ρ} (h : s.step test e = some s') :
    s'.threads.length = s.threads.length := by
  cases FirstN.step_moves h <;> simp

end Replies

end Alba.Transfer
