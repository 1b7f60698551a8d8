import Alba.ProofKit.KeyLists
import Alba.ProofKit.Linked
import Alba.ProofKit.Traces

/-! The weighted cache of `Cache.ml`: a hash table of values with their nodes, a doubly linked list of the
nodes between two sentinels, the most recently used one first, and the sum of the weights. -/

set_option linter.unusedSectionVars false

namespace Alba.Tools

open ProofKit

variable {K V : Type} [DecidableEq K]

/-- The heap of nodes, of which `used` have been made; the sentinels are nodes 0 and 1. In `h` a key is
never added while it is present. -/
structure Cache (K V : Type) where
  h : List (K × (V × Nat))
  key : Nat → K
  links : Links
  used : Nat
  size : Int
  maxSize : Int

namespace Cache

def front : Nat := 0
def back : Nat := 1

/-- A node is its own neighbour when it is made. -/
def makeNode (c : Cache K V) (k : K) : Cache K V :=
  { c with
    key := Function.update c.key c.used k
    links :=
      { prev := Function.update c.links.prev c.used c.used
        next := Function.update c.links.next c.used c.used }
    used := c.used + 1 }

def make (maxSize : Int) (exampleKey : K) : Cache K V where
  h := []
  key := fun _ => exampleKey
  links := { prev := Function.update id back front, next := Function.update id front back }
  used := 2
  size := 0
  maxSize := maxSize

/-- `Hashtbl.find`. -/
def find? (c : Cache K V) (k : K) : Option (V × Nat) := (c.h.find? fun e => e.1 = k).map Prod.snd

def unlinkNode (c : Cache K V) (n : Nat) : Cache K V := { c with links := c.links.unlink n }

def insertNode (c : Cache K V) (n : Nat) : Cache K V := { c with links := c.links.insert front n }

section Weighted

variable (weight : V → Int)

/-- What an operation leaves; it is an error if the operation raises `Not_found`. -/
abbrev Outcome (K V : Type) := Except (Cache K V) (Cache K V)

/-- The `while` loop of `add` for a value of weight `w`. A round takes an entry out of the table or raises,
so more rounds than that are never made. -/
def evict (w : Int) : Nat → Cache K V → Outcome K V
  | 0, c => if c.size + w > c.maxSize then .error c else .ok c
  | rounds + 1, c =>
    if c.size + w > c.maxSize then
      let victim := c.links.prev back
      let c := c.unlinkNode victim
      match c.find? (c.key victim) with
      | none => .error c
      | some (v, _) =>
        evict w rounds { c with h := eraseKey c.h (c.key victim), size := c.size - weight v }
    else .ok c

def add (c : Cache K V) (k : K) (v : V) : Outcome K V :=
  match c.find? k with
  | some (oldV, n) =>
    let c := (({ c with h := (k, (v, n)) :: eraseKey c.h k } : Cache K V).unlinkNode n).insertNode n
    .ok { c with size := c.size - weight oldV + weight v }
  | none =>
    let n := c.used
    let c := c.makeNode k
    let c := ({ c with h := (k, (v, n)) :: c.h } : Cache K V).insertNode n
    (evict weight (weight v) (c.h.length + 1) c).map fun c => { c with size := c.size + weight v }

end Weighted

def lookup (c : Cache K V) (k : K) : Option V × Cache K V :=
  match c.find? k with
  | some (v, n) => (some v, (c.unlinkNode n).insertNode n)
  | none => (none, c)

def clear (c : Cache K V) : Cache K V :=
  { c with
    h := [], size := 0
    links :=
      { prev := Function.update c.links.prev back front, next := Function.update c.links.next front back } }

/-- The keys from one end of the list to the other. -/
def walk (c : Cache K V) (step : Nat → Nat) (stop : Nat) : Nat → Nat → List K
  | 0, _ => []
  | fuel + 1, n => if n = stop then [] else c.key n :: c.walk step stop fuel (step n)

def orderNext (c : Cache K V) : List K := c.walk c.links.next back c.used (c.links.next front)

def orderPrev (c : Cache K V) : List K :=
  (c.walk c.links.prev front c.used (c.links.prev back)).reverse

def remove (c : Cache K V) (k : K) : Cache K V :=
  match c.find? k with
  | none => c
  | some (_, n) => { c.unlinkNode n with h := eraseKey c.h k }

/-! ### The table

Whether an operation raises or not, it puts nothing into the table but the entry that is added. -/

/-- The cache after an operation, whether it has raised or not. -/
def settled : Outcome K V → Cache K V
  | .ok c => c
  | .error c => c

variable {weight : V → Int} {c : Cache K V} {k : K} {v : V} {e : K × (V × Nat)}

theorem mem_of_find? {x : V × Nat} (h : c.find? k = some x) : (k, x) ∈ c.h := by
  obtain ⟨e, he, rfl⟩ := Option.map_eq_some_iff.mp h
  obtain rfl : e.1 = k := by simpa using List.find?_some he
  exact List.mem_of_find?_eq_some he

theorem mem_of_mem_evict {w : Int} {rounds : Nat} (h : e ∈ (settled (evict weight w rounds c)).h) :
    e ∈ c.h := by
  induction rounds generalizing c with
  | zero =>
    rw [evict] at h
    split at h
    · exact h
    · exact h
  | succ rounds ih =>
    rw [evict] at h
    split at h
    · dsimp only at h
      split at h
      · exact h
      · exact (mem_eraseKey.mp (ih h)).1
    · exact h

theorem mem_add (h : e ∈ (settled (c.add weight k v)).h) : (e.1 = k ∧ e.2.1 = v) ∨ e ∈ c.h := by
  unfold add at h
  split at h
  · rcases List.mem_cons.mp h with rfl | h
    · exact .inl ⟨rfl, rfl⟩
    · exact .inr (mem_eraseKey.mp h).1
  · have hmap : ∀ r : Outcome K V, (settled (r.map fun c => { c with size := c.size + weight v })).h =
        (settled r).h := fun r => by cases r <;> rfl
    rw [hmap] at h
    rcases List.mem_cons.mp (mem_of_mem_evict h) with rfl | h
    · exact .inl ⟨rfl, rfl⟩
    · exact .inr h

theorem lookup_h (c : Cache K V) (k : K) : (c.lookup k).2.h = c.h := by
  unfold lookup
  split
  · rfl
  · rfl

theorem mem_of_lookup {cache : Cache K V} (h : c.lookup k = (some v, cache)) : ∃ n, (k, (v, n)) ∈ c.h := by
  unfold lookup at h
  split at h
  · rename_i x n hfind
    cases h
    exact ⟨n, mem_of_find? hfind⟩
  · cases h

theorem mem_of_mem_remove (h : e ∈ (c.remove k).h) : e ∈ c.h := by
  unfold remove at h
  split at h
  · exact h
  · exact (mem_eraseKey.mp h).1

end Cache

end Alba.Tools
