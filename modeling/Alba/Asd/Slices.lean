import Alba.ProofKit.Bytes

/-! Slices of byte buffers: the byte put before a key, and the lookup of a key of the device. -/

namespace Alba.Asd

open ProofKit

/-- A part of a buffer, which `make` asserts to lie inside it. -/
structure Slice where
  buf : Bytes
  offset : Nat
  length : Nat
  inside : offset + length ≤ buf.length

namespace Slice

def wrapString (buf : Bytes) : Slice :=
  { buf, offset := 0, length := buf.length, inside := by simp }

def getString (t : Slice) : Bytes := (t.buf.drop t.offset).take t.length

def addPrefixByteAsBytes (t : Slice) (c : UInt8) : Bytes := c :: t.getString

/-- What `f` returns or raises, and what the buffer of `t` holds afterwards. -/
def withPrefixByteUnsafe {ε α : Type} (t : Slice) (c : UInt8) (f : Slice → Except ε α) :
    Except ε α × Bytes :=
  if hoff : t.offset < 1 then (f (wrapString (t.addPrefixByteAsBytes c)), t.buf)
  else
    have hinside := t.inside
    have hlt : t.offset - 1 < t.buf.length := by omega
    -- the source's second `c`, which hides the argument
    let c := t.buf[t.offset - 1]
    let buf := t.buf.set (t.offset - 1) c
    let t' : Slice :=
      { buf, offset := t.offset - 1, length := t.length + 1,
        inside := by simp only [buf, List.length_set]; omega }
    (f t', buf.set (t.offset - 1) c)

@[simp] theorem getString_wrapString (buf : Bytes) : (wrapString buf).getString = buf := by
  simp [wrapString, getString]

/-- The byte before the slice is `c`, or the slice starts its buffer. -/
def PrecededBy (t : Slice) (c : UInt8) : Prop := t.offset = 0 ∨ t.buf[t.offset - 1]? = some c

instance (t : Slice) (c : UInt8) : Decidable (t.PrecededBy c) :=
  inferInstanceAs (Decidable (_ ∨ _))

theorem withPrefixByteUnsafe_calls (t : Slice) (c : UInt8) :
    ∃ b t', t'.getString = b :: t.getString ∧ (b = c ↔ t.PrecededBy c) ∧
      ∀ {ε α : Type} (f : Slice → Except ε α), withPrefixByteUnsafe t c f = (f t', t.buf) := by
  by_cases hoff : t.offset < 1
  · have hzero : t.offset = 0 := by omega
    refine ⟨c, wrapString (t.addPrefixByteAsBytes c), getString_wrapString _, ?_, fun f => ?_⟩
    · simp [PrecededBy, hzero]
    · simp [withPrefixByteUnsafe, hzero]
  · have hinside := t.inside
    have hlt : t.offset - 1 < t.buf.length := by omega
    have hnext : t.offset - 1 + 1 = t.offset := by omega
    refine ⟨t.buf[t.offset - 1], ⟨t.buf, t.offset - 1, t.length + 1, by omega⟩, ?_, ?_, fun f => ?_⟩
    · rw [getString, List.drop_eq_getElem_cons hlt, List.take_succ_cons, hnext, getString]
    · have hne : t.offset ≠ 0 := by omega
      simp [PrecededBy, hne, hlt]
    · simp [withPrefixByteUnsafe, hoff]

/-- `f` is called on the byte and the contents of `t`, and the buffer is left as it was. -/
def Prefixes (t : Slice) (c : UInt8) : Prop :=
  ∃ t' : Slice, t'.getString = t.addPrefixByteAsBytes c ∧
    ∀ {ε α : Type} (f : Slice → Except ε α), withPrefixByteUnsafe t c f = (f t', t.buf)

end Slice

def publicPrefixByte : UInt8 := 0

/-- `Value.from_buffer` and the database, which may fail to answer, are parameters. -/
def getValueOption {ε α : Type} (fromBuffer : Bytes → Except ε α)
    (kv : Bytes → Except ε (Option Bytes)) (key : Slice) : Except ε (Option α) := do
  let voRaw ← (key.withPrefixByteUnsafe publicPrefixByte fun key' => kv key'.getString).1
  voRaw.mapM fromBuffer

def LooksUpPublicKey (key : Slice) : Prop :=
  ∀ {ε α : Type} (fromBuffer : Bytes → Except ε α) (kv : Bytes → Except ε (Option Bytes)),
    getValueOption fromBuffer kv key =
      (kv (key.addPrefixByteAsBytes publicPrefixByte)).bind fun voRaw => voRaw.mapM fromBuffer

namespace Slice

theorem prefixes_iff (t : Slice) (c : UInt8) : t.Prefixes c ↔ t.PrecededBy c := by
  obtain ⟨b, t', hcontents, hb, hcalls⟩ := t.withPrefixByteUnsafe_calls c
  rw [← hb]
  constructor
  · rintro ⟨t'', hcontents', hcalls'⟩
    -- a function that returns what it is called on
    have hsame : (Except.ok t', t.buf) = ((Except.ok t'' : Except Unit Slice), t.buf) := by
      rw [← hcalls, ← hcalls']
    cases hsame
    rw [hcontents, addPrefixByteAsBytes] at hcontents'
    exact (List.cons.inj hcontents').1
  · rintro rfl
    exact ⟨t', hcontents, hcalls⟩

theorem looksUpPublicKey_iff (t : Slice) : LooksUpPublicKey t ↔ t.PrecededBy publicPrefixByte := by
  obtain ⟨b, t', hcontents, hb, hcalls⟩ := t.withPrefixByteUnsafe_calls publicPrefixByte
  have hlookup {ε α : Type} (fromBuffer : Bytes → Except ε α)
      (kv : Bytes → Except ε (Option Bytes)) :
      getValueOption fromBuffer kv t =
        (kv (b :: t.getString)).bind fun voRaw => voRaw.mapM fromBuffer := by
    rw [getValueOption, hcalls, hcontents]
    rfl
  rw [← hb]
  constructor
  · intro h
    -- a database that answers with the key it is asked for
    have hkey := (hlookup (ε := Unit) Except.ok (fun k => .ok (some k))).symm.trans (h _ _)
    simpa [Except.bind, addPrefixByteAsBytes] using hkey
  · rintro rfl ε α fromBuffer kv
    exact hlookup fromBuffer kv

theorem prefixes_iff_preceded (t : Slice) (c : UInt8) :
    (t.Prefixes c ↔ t.PrecededBy c) ∧
      (LooksUpPublicKey t ↔ t.PrecededBy publicPrefixByte) :=
  ⟨t.prefixes_iff c, t.looksUpPublicKey_iff⟩

/-- The key b in the buffer ab: the byte before it is kept, and ab is looked up. -/
theorem byte_before_kept :
    let t : Slice := ⟨[97, 98], 1, 1, by decide⟩
    ¬ t.Prefixes publicPrefixByte ∧ ¬ LooksUpPublicKey t := by
  intro t
  rw [prefixes_iff, looksUpPublicKey_iff]
  decide

end Slice

end Alba.Asd
