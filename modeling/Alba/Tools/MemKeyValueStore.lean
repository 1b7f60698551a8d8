import Alba.ProofKit.Bytes
import Alba.ProofKit.Run
import Alba.ProofKit.UpdateList
import Alba.ProofKit.Words

/-! The store in memory (`Mem_key_value_store`). In a sequence every assertion and every transformation
looks at the map from before the sequence, and not at what the updates before it have made of it. -/

namespace Alba.Tools.MemKeyValueStore

open ProofKit Std List

abbrev StringMap := ExtTreeMap Bytes Bytes

abbrev Upd := Update Bytes Bytes

inductive Failure
  | assertionFailed (key : Bytes) (expected actual : Option Bytes)
  /-- An exception of `Llio`. -/
  | ko

/-- `Llio.int64_from` at the start of a value: it raises on less than eight bytes. -/
def int64From (v : Bytes) : Except Failure (BitVec 64) :=
  if v.length < 8 then .error .ko else .ok (BitVec.ofNat 64 (ofLe (v.take 8)))

def int64To (x : BitVec 64) : Bytes := leBytes 8 x.toNat

/-- The number that a transformation starts from. -/
def oldValue : Option Bytes → Except Failure (BitVec 64)
  | none => .ok 0
  | some v => int64From v

/-- One update of `kv` that looks at `seen`. -/
def applyUpdate (seen kv : StringMap) : Upd → Except Failure StringMap
  | .assert key (some value) =>
    match seen[key]? with
    | none => .error (.assertionFailed key (some value) none)
    | some mvalue =>
      if mvalue = value then .ok kv else .error (.assertionFailed key (some value) (some mvalue))
  | .assert key none =>
    match seen[key]? with
    | none => .ok kv
    | some mvalue => .error (.assertionFailed key none (some mvalue))
  | .set key (some value) => .ok (kv.insert key value)
  | .set key none => .ok (kv.erase key)
  | .transform key (.add x) => do
    let old ← oldValue seen[key]?
    return kv.insert key (int64To (old + x))

/-- The status, with nothing for `Ok`, and the map that is kept. -/
def finish (map : StringMap) : Except Failure StringMap → Option Failure × StringMap
  | .ok kv => (none, kv)
  | .error status => (some status, map)

def applySequence (map : StringMap) (upds : List Upd) : Option Failure × StringMap :=
  finish map (upds.foldlM (applyUpdate map) map)

/-- The updates one after the other, each one on what the updates before it have left. -/
def applyInOrder (map : StringMap) (upds : List Upd) : Option Failure × StringMap :=
  finish map (upds.foldlM (fun kv => applyUpdate kv kv) map)

/-- An update goes through on the map. -/
def Passes (map : StringMap) : Upd → Prop
  | .assert key value => map[key]? = value
  | .set _ _ => True
  | .transform key _ => ∃ n, oldValue map[key]? = .ok n

/-- What an update makes of the value of `key`. -/
def valueAfter (key : Bytes) (v : Option Bytes) : Upd → Option Bytes
  | .assert _ _ => v
  | .set key' v' => if key' = key then v' else v
  | .transform key' (.add x) =>
    if key' = key then some (int64To (resultD (oldValue v) 0 + x)) else v

/-- The value of `key` after a list of updates. -/
def current (map : StringMap) (upds : List Upd) (key : Bytes) : Option Bytes :=
  upds.foldl (valueAfter key) map[key]?

/-- The update sees no difference between the values that `f` and `g` give to its key. -/
def SeesSame (f g : Bytes → Option Bytes) : Upd → Prop
  | .assert key _ => f key = g key
  | .set _ _ => True
  | .transform key _ => oldValue (f key) = oldValue (g key)

section Steps

variable {map seen kv kv' : StringMap} {upd : Upd} {upds : List Upd}

theorem finish_inj {r r' : Except Failure StringMap} : finish map r = finish map r' ↔ r = r' := by
  cases r <;> cases r' <;> simp [finish]

theorem insert_inj {key v w : Bytes} : kv.insert key v = kv.insert key w ↔ v = w := by
  constructor
  · intro h
    have hget := congrArg (·[key]?) h
    simpa using hget
  · rintro rfl
    rfl

theorem int64To_inj {x y : BitVec 64} : int64To x = int64To y ↔ x = y := by
  have hx := x.isLt
  have hy := y.isLt
  rw [int64To, int64To, leBytes_eq_iff, ← BitVec.toNat_inj]
  omega

theorem applyUpdate_assert (key : Bytes) (value : Option Bytes) :
    applyUpdate seen kv (.assert key value) =
      if seen[key]? = value then .ok kv else .error (.assertionFailed key value seen[key]?) := by
  cases value <;> cases h : seen[key]? <;> simp [applyUpdate, h]

/-- Two maps give one result exactly when the update sees no difference between them. -/
theorem applyUpdate_eq_iff {seen' : StringMap} :
    applyUpdate seen kv upd = applyUpdate seen' kv upd ↔ SeesSame (seen[·]?) (seen'[·]?) upd := by
  cases upd with
  | assert key value =>
    rw [applyUpdate_assert, applyUpdate_assert, SeesSame]
    split <;> split <;> simp_all [eq_comm]
  | set key value => cases value <;> simp [applyUpdate, SeesSame]
  | transform key change =>
    obtain ⟨x⟩ := change
    rw [SeesSame, applyUpdate, applyUpdate]
    cases oldValue seen[key]? <;> cases oldValue seen'[key]? <;>
      simp [bind, Except.bind, pure, Except.pure, insert_inj, int64To_inj]

theorem applyUpdate_ok_iff : (∃ kv', applyUpdate seen kv upd = .ok kv') ↔ Passes seen upd := by
  cases upd with
  | assert key value =>
    rw [applyUpdate_assert, Passes]
    split <;> simp_all
  | set key value => cases value <;> simp [applyUpdate, Passes]
  | transform key change =>
    obtain ⟨x⟩ := change
    rw [Passes, applyUpdate]
    cases oldValue seen[key]? <;> simp [bind, Except.bind, pure, Except.pure]

theorem getElem?_applyUpdate (h : applyUpdate kv kv upd = .ok kv') (key : Bytes) :
    kv'[key]? = valueAfter key kv[key]? upd := by
  cases upd with
  | assert key' value =>
    rw [applyUpdate_assert] at h
    split at h
    · cases h
      rfl
    · cases h
  | set key' value =>
    cases value <;> cases h <;> simp [valueAfter, ExtTreeMap.getElem?_insert, ExtTreeMap.getElem?_erase]
  | transform key' change =>
    obtain ⟨x⟩ := change
    rw [applyUpdate, bind_eq_ok] at h
    obtain ⟨old, hold, h⟩ := h
    cases h
    rw [valueAfter, ExtTreeMap.getElem?_insert]
    by_cases hk : key' = key
    · subst hk
      simp [hold, resultD]
    · simp [hk]

theorem foldlM_snoc {step : StringMap → Upd → Except Failure StringMap} :
    (upds ++ [upd]).foldlM step map = upds.foldlM step map >>= fun kv => step kv upd := by
  simp

theorem foldlM_ok_iff : (∃ kv, upds.foldlM (applyUpdate map) map = .ok kv) ↔ ∀ w ∈ upds, Passes map w := by
  induction upds using reverseRecOn with
  | nil => simp [pure, Except.pure]
  | append_singleton upds upd ih =>
    simp only [foldlM_snoc, bind_eq_ok, mem_append, mem_singleton]
    constructor
    · rintro ⟨kv', kv, hkv, hstep⟩ w (hw | rfl)
      · exact ih.mp ⟨kv, hkv⟩ w hw
      · exact applyUpdate_ok_iff.mp ⟨kv', hstep⟩
    · intro hall
      obtain ⟨kv, hkv⟩ := ih.mpr fun w hw => hall w (.inl hw)
      obtain ⟨kv', hstep⟩ : ∃ kv', applyUpdate map kv upd = .ok kv' :=
        applyUpdate_ok_iff.mpr (hall upd (.inr rfl))
      exact ⟨kv', kv, hkv, hstep⟩

theorem getElem?_inOrder (h : upds.foldlM (fun kv => applyUpdate kv kv) map = .ok kv) (key : Bytes) :
    kv[key]? = current map upds key := by
  refine foldlM_invariant (P := fun p kv => kv[key]? = current map p key) ?_ (p := []) rfl h
  intro p kv upd kv' hp hstep
  rw [getElem?_applyUpdate hstep, hp, current, current, foldl_append]
  rfl

end Steps

/-- After every update of a list the store is as if they had been made in order, exactly when the updates
before an assertion or a transformation have left what it sees. -/
theorem applySequence_iff (map : StringMap) (upds : List Upd) :
    (∀ p, p <+: upds → applySequence map p = applyInOrder map p) ↔
      ∀ p upd, p ++ [upd] <+: upds → (∀ w ∈ p, Passes map w) →
        SeesSame (map[·]?) (current map p) upd := by
  have step : ∀ {p upd kv}, p.foldlM (applyUpdate map) map = .ok kv →
      p.foldlM (fun kv => applyUpdate kv kv) map = .ok kv →
      (applySequence map (p ++ [upd]) = applyInOrder map (p ++ [upd]) ↔
        SeesSame (map[·]?) (current map p) upd) := by
    intro p upd kv hmem horder
    have hcurrent : (kv[·]?) = current map p := funext (getElem?_inOrder horder)
    rw [applySequence, applyInOrder, finish_inj, foldlM_snoc, foldlM_snoc, hmem, horder, ← hcurrent]
    exact applyUpdate_eq_iff
  constructor
  · intro hsame p upd hp hpasses
    obtain ⟨kv, hkv⟩ := foldlM_ok_iff.mpr hpasses
    have hbefore := finish_inj.mp (hsame p ((List.prefix_append p [upd]).trans hp))
    exact (step hkv (hbefore.symm.trans hkv)).mp (hsame _ hp)
  · intro hsees p
    induction p using reverseRecOn with
    | nil => exact fun _ => rfl
    | append_singleton p upd ih =>
      intro hp
      have hbefore := finish_inj.mp (ih ((List.prefix_append p [upd]).trans hp))
      cases hkv : p.foldlM (applyUpdate map) map with
      | ok kv => exact (step hkv (hbefore.symm.trans hkv)).mpr (hsees p upd hp (foldlM_ok_iff.mp ⟨kv, hkv⟩))
      | error e =>
        rw [applySequence, applyInOrder, foldlM_snoc, foldlM_snoc, ← hbefore, hkv]
        rfl

/-- Two fragments on one osd: the second size replaces the first. -/
theorem second_add_replaces :
    applySequence ∅ [.add (ascii ['k']) 1, .add (ascii ['k']) 2] ≠
      applyInOrder ∅ [.add (ascii ['k']) 1, .add (ascii ['k']) 2] := by
  intro h
  have hget := congrArg (·.2[ascii ['k']]?) h
  revert hget
  decide +kernel

end Alba.Tools.MemKeyValueStore
