import Alba.Wire.Llio

/-! `OsdCapabilities`: what an osd says that it can do. A newer osd may list what this version does not
know. -/

namespace Alba.Wire

open ProofKit
open Nsm (intTo stringTo)
open Rora (int8To listTo InInt32)

inductive Capability
  | multiGet2
  | partialGet
  | roraFetcher (port : Int)
  | roraFetcher2 (ips : List Bytes) (port : Int) (transport : Bytes)
  deriving DecidableEq

namespace Capability

def fieldsTo : Capability → Bytes
  | multiGet2 => int8To 1
  | partialGet => int8To 2
  | roraFetcher port => int8To 3 ++ intTo port
  | roraFetcher2 ips port transport =>
    int8To 4 ++ (listTo stringTo ips ++ (intTo port ++ stringTo transport))

def capabilityTo : Capability → Bytes
  | roraFetcher2 ips port transport =>
    int8To 2 ++ serializeWithLength (roraFetcher2 ips port transport).fieldsTo
  | c => int8To 1 ++ c.fieldsTo

/-- The numbers and lengths are those that the fields carry. -/
def Fits : Capability → Prop
  | multiGet2 | partialGet => True
  | roraFetcher port => InInt32 port
  | roraFetcher2 ips port transport =>
    (ips.length < 2 ^ 31 ∧ ∀ ip ∈ ips, ip.length < 2 ^ 31) ∧ InInt32 port ∧ transport.length < 2 ^ 31

end Capability

/-- `` `Ok`` with a capability, `` `BadTag`` with a tag. -/
abbrev Tagged := Except Nat Capability

/-- `inner` -/
def taggedFrom : From Tagged := do
  match ← int8From with
  | 1 => return .ok .multiGet2
  | 2 => return .ok .partialGet
  | 3 => do
    let port ← intFrom
    return .ok (.roraFetcher port)
  | 4 => do
    let ips ← listFrom stringFrom
    let port ← intFrom
    let transport ← stringFrom
    return .ok (.roraFetcher2 ips port transport)
  | k => return .error k

def capabilityFrom : From Tagged := do
  match ← int8From with
  | 1 => do
    match ← taggedFrom with
    | .ok x => return .ok x
    | .error k => raiseBadTag "asd_capability" k
  | 2 => deserializeLengthPrefixed taggedFrom
  | k => raiseBadTag "OsdCapabilities/version" k

def fromBuffer : From (Nat × List Capability) := do
  let r ← countedListFrom capabilityFrom
  let caps := r.2.filterMap Except.toOption
  return (caps.length, caps)

/-- The tag is none of those that this version knows. -/
def NewTag (tag : Nat) : Prop := tag < 256 ∧ tag ∉ [1, 2, 3, 4]

inductive Entry
  /-- What `capability_to` writes. -/
  | known (c : Capability)
  /-- A payload of format 2: a new tag, or a capability, and the fields that a newer osd adds to it. -/
  | newer (head : Tagged) (more : Bytes)

namespace Entry

/-- The payload up to where the fields that this version knows end. -/
def headTo : Tagged → Bytes
  | .ok c => c.fieldsTo
  | .error tag => int8To tag

def entryTo : Entry → Bytes
  | known c => c.capabilityTo
  | newer head more => int8To 2 ++ serializeWithLength (headTo head ++ more)

def read : Entry → Tagged
  | known c => .ok c
  | newer head _ => head

def more : Entry → Bytes
  | known _ => []
  | newer _ more => more

def Fits (e : Entry) : Prop :=
  (match e.read with
    | .ok c => c.Fits
    | .error tag => NewTag tag) ∧
    (headTo e.read ++ e.more).length < 2 ^ 31

end Entry

structure Entries where
  list : List Entry
  fits : ∀ e ∈ list, e.Fits
  counted : list.length < 2 ^ 31

/-- The capabilities of the list that this version knows. -/
def Entries.known (l : Entries) : List Capability := l.list.filterMap fun e => e.read.toOption

theorem reads_fields {c : Capability} (h : c.Fits) : Reads taggedFrom c.fieldsTo (.ok c) := by
  cases c with
  | multiGet2 => exact (reads_int8 (by decide)).bind_pure rfl
  | partialGet => exact (reads_int8 (by decide)).bind_pure rfl
  | roraFetcher port => exact (reads_int8 (by decide)).bind ((reads_int h).bind_ret _)
  | roraFetcher2 ips port transport =>
    obtain ⟨⟨hips, hip⟩, hport, htransport⟩ := h
    have hlist := reads_list hips fun ip hmem => reads_string (hip ip hmem)
    rw [List.map_id'] at hlist
    exact (reads_int8 (by decide)).bind
      (hlist.bind ((reads_int hport).bind ((reads_string htransport).bind_ret _)))

theorem reads_newTag {tag : Nat} (h : NewTag tag) : Reads taggedFrom (int8To tag) (.error tag) := by
  refine (reads_int8 h.1).bind_pure ?_
  have hnew := h.2
  simp only [List.mem_cons, List.not_mem_nil, or_false, not_or] at hnew
  split <;> simp_all

theorem reads_head {e : Entry} (h : e.Fits) : Reads taggedFrom (Entry.headTo e.read) e.read := by
  have hfits := h.1
  revert hfits
  cases e.read with
  | ok c => exact reads_fields
  | error tag => exact reads_newTag

theorem run_entry {e : Entry} (h : e.Fits) (rest : Bytes) :
    capabilityFrom.run (e.entryTo ++ rest) =
      if e.more = [] then .ok (e.read, rest) else .error .assertFailure := by
  have newer : ∀ head more, (Entry.newer head more).Fits →
      capabilityFrom.run ((Entry.newer head more).entryTo ++ rest) =
        if more = [] then .ok (head, rest) else .error .assertFailure := by
    intro head more h
    have hversion : Reads int8From (int8To 2) 2 := reads_int8 (by decide)
    rw [capabilityFrom, StateT.run_bind, Entry.entryTo, List.append_assoc, hversion]
    exact run_lengthPrefixed (reads_head h) h.2 rest
  cases e with
  | newer head more => exact newer head more h
  | known c =>
    cases c with
    | roraFetcher2 ips port transport =>
      have hrun := newer (.ok (.roraFetcher2 ips port transport)) [] h
      rw [Entry.entryTo, List.append_nil] at hrun
      exact hrun
    | _ => exact (reads_int8 (by decide)).bind ((reads_fields h.1).bind_pure rfl) rest

theorem reads_entry {e : Entry} (h : e.Fits) (hmore : e.more = []) :
    Reads capabilityFrom e.entryTo e.read := fun rest => by
  rw [run_entry h, if_pos hmore]

theorem refuses_entry {e : Entry} (h : e.Fits) (hmore : e.more ≠ []) :
    Refuses capabilityFrom e.entryTo := fun rest => by
  rw [run_entry h, if_neg hmore]
  exact ⟨_, rfl⟩

/-- A list of capabilities is read exactly when no entry has more than the fields that this version
knows. -/
theorem reads_capabilities_iff (l : Entries) :
    Reads fromBuffer (listTo Entry.entryTo l.list) (l.known.length, l.known) ↔
      ∀ e ∈ l.list, e.more = [] := by
  constructor
  · intro hreads
    by_contra hmore
    simp only [not_forall] at hmore
    obtain ⟨e, he, hmore⟩ := hmore
    have hone : ∀ e ∈ l.list, Reads capabilityFrom e.entryTo e.read ∨ Refuses capabilityFrom e.entryTo :=
      fun e he => (eq_or_ne e.more []).imp (reads_entry (l.fits e he)) (refuses_entry (l.fits e he))
    have hlist := refuses_countedList l.counted hone ⟨e, he, refuses_entry (l.fits e he) hmore⟩
    refine hreads.not_refuses ?_
    rw [← List.append_nil (listTo _ _)]
    exact hlist.bind
  · intro hmore
    have hlist := reads_countedList l.counted fun e he => reads_entry (l.fits e he) (hmore e he)
    have hread := hlist.bind_ret fun r : Int × List Tagged =>
      ((r.2.filterMap Except.toOption).length, r.2.filterMap Except.toOption)
    simp only [List.filterMap_map] at hread
    exact hread

def newerEntry : Entries where
  list := [.newer (.error 9) [0]]
  fits := by simp [Entry.Fits, Entry.read, Entry.more, Entry.headTo, NewTag, int8To]
  counted := by decide

/-- The fields of the new tag are not skipped: the assertion fails. -/
theorem newer_fields_raise :
    fromBuffer.run (listTo Entry.entryTo newerEntry.list) = .error .assertFailure ∧
      ¬∀ l : Entries, Reads fromBuffer (listTo Entry.entryTo l.list) (l.known.length, l.known) := by
  have hraises : fromBuffer.run (listTo Entry.entryTo newerEntry.list ++ []) = .error .assertFailure := by
    decide +kernel
  refine ⟨hraises, fun h => ?_⟩
  have hread := h newerEntry []
  rw [hraises] at hread
  cases hread

end Alba.Wire
