/-
  Fuse7z.Variant

  The variants of `PropVariant.cpp`, in which the properties of archives and
  of their entries are passed around.  A variant with a string owns the block
  of it: it is freed when the variant is cleared, a copy is a block of its own,
  and `Attach` and `Detach` hand it on.

  `valueStep` is what this is for: the variants have values, and the same
  operations change those.  The two agree until a variant is copied or handed
  on to itself, or gets its own string, and as long as the strings leave room
  for what is added to their length (`variants_are_values`).
-/
import Fuse7z.Bstr
import Fuse7z.HelperFuncs
import Fuse7z.Lib.Heap
import Fuse7z.Lib.Ledger
import Fuse7z.Lib.Simulation
import Mathlib.Logic.Function.Basic

namespace Fuse7z

open Lib

/-! ## Variants -/

def vtBstr : UInt16 := 8

/-- `vt` -/
def PropVariant.vt : PropVariant → UInt16
  | .empty => 0
  | .bstr _ => vtBstr
  | .bool _ => 11
  | .ui1 _ => 17
  | .ui2 _ => 18
  | .ui4 _ => 19
  | .ui8 _ => 21
  | .filetime _ _ => 64
  | .other vt => vt

/-- A `PROPVARIANT` that is all of its value. -/
def Scalar : Type := { v : PropVariant // v.vt ≠ vtBstr }
deriving DecidableEq

/-- A variant: a scalar, or a string, which may be NULL. -/
inductive Variant (β : Type) where
  | scalar (v : Scalar)
  | bstr (bstrVal : Option β)
deriving DecidableEq

namespace Variant

variable {β γ : Type}

/-- VT_EMPTY -/
def empty : Variant β := .scalar ⟨.empty, by decide⟩

def map (f : β → γ) : Variant β → Variant γ
  | .scalar v => .scalar v
  | .bstr bstrVal => .bstr (bstrVal.map f)

/-- The string there is to free. -/
def string? : Variant β → Option β
  | .scalar _ => none
  | .bstr bstrVal => bstrVal

end Variant

/-! ## The variants of a program -/

/-- A `const wchar_t *`: NULL, characters up to a NUL, or a block. -/
inductive WidePtr where
  | null
  | chars (sz : List WChar)
  | block (b : Addr)

/-- The variants, the blocks of all strings that were made, and those that are
    freed. -/
structure VariantState where
  slots : Nat → Variant Addr
  blocks : Heap Bytes
  freed : List Addr

/-- What an operation on `n` variants is.  `m` is what it meets when it asks
    for memory. -/
inductive VariantOp (n : Nat) where
  /-- `operator=` of the type of the scalar -/
  | assign (k : Fin n) (v : Scalar)
  /-- `operator=(LPCOLESTR)` -/
  | assignString (k : Fin n) (lpszSrc : Option (List WChar)) (m : Malloc)
  /-- `operator=(BSTR)` of the `bstrVal` of a variant -/
  | assignBstr (k j : Fin n) (m : Malloc)
  /-- `operator=(const PROPVARIANT &)` -/
  | copy (k j : Fin n) (m : Malloc)
  | attach (k pSrc : Fin n)
  | detach (k pDest : Fin n)
  | clear (k : Fin n)

inductive VariantReply where
  | ok
  /-- `kMemException` is thrown -/
  | outOfMemory
  | fault (f : BstrFault)
deriving DecidableEq

namespace VariantState

/-- Every variant is as its constructor leaves it. -/
def start : VariantState := { slots := fun _ => .empty, blocks := .empty, freed := [] }

def set (s : VariantState) (k : Nat) (v : Variant Addr) : VariantState :=
  { s with slots := Function.update s.slots k v }

/-- A block that was made, in a variant. -/
def setNew (s : VariantState) (k : Nat) (p : Bytes) : VariantState :=
  { s with
    slots := Function.update s.slots k (.bstr (some s.blocks.size))
    blocks := s.blocks.alloc p }

/-- What is read through a pointer to a block. -/
def load (s : VariantState) (b : Addr) : Except BstrFault Bytes :=
  if b ∈ s.freed then .error .freed
  else match s.blocks.get? b with
    | none => .error .load
    | some p => .ok p

/-- `SysFreeString` -/
def sysFreeString (s : VariantState) : Option Addr → Except BstrFault VariantState
  | none => .ok s
  | some b =>
      if b ∈ s.freed then .error .freed else .ok { s with freed := s.freed ++ [b] }

/-- `VariantClear` -/
def variantClear (s : VariantState) (k : Nat) : Except BstrFault VariantState :=
  match s.slots k with
  | .scalar _ => .ok (s.set k .empty)
  | .bstr bstrVal => do
      let s ← s.sysFreeString bstrVal
      .ok (s.set k .empty)

/-- `MyPropVariantClear`; it leaves strings, and what it does not know, to
    `VariantClear`. -/
def myPropVariantClear (s : VariantState) (k : Nat) : Except BstrFault VariantState :=
  match s.slots k with
  | .scalar _ => .ok (s.set k .empty)
  | .bstr _ => s.variantClear k

/-- `InternalClear`; clearing never fails. -/
def internalClear (s : VariantState) (k : Nat) : Except BstrFault VariantState :=
  s.myPropVariantClear k

/-- `SET_PROP_FUNC` -/
def assign (s : VariantState) (k : Nat) (v : Scalar) : Except BstrFault VariantState :=
  match s.slots k with
  | .scalar w =>
      if w.val.vt = v.val.vt then .ok (s.set k (.scalar v))
      else do
        let s ← s.internalClear k
        .ok (s.set k (.scalar v))
  | .bstr _ => do
      let s ← s.internalClear k
      .ok (s.set k (.scalar v))

/-- The characters a pointer leads to. -/
def deref (s : VariantState) : WidePtr → Except BstrFault (Option (List WChar))
  | .null => .ok none
  | .chars sz => .ok (some sz)
  | .block b => do
      let p ← s.load b
      match readWide p with
      | none => .error .load
      | some sz => .ok (some sz)

/-- `operator=(LPCOLESTR)` -/
def assignString (s : VariantState) (k : Nat) (lpszSrc : WidePtr) (m : Malloc) :
    Except BstrFault (VariantReply × VariantState) := do
  let s ← s.internalClear k
  let sz ← s.deref lpszSrc
  match ← sysAllocString m sz with
  | none => .ok (if sz = none then .ok else .outOfMemory, s.set k (.bstr none))
  | some p => .ok (.ok, s.setNew k p)

/-- `operator=(BSTR)`; the pointer is taken out of the other variant first. -/
def assignBstr (s : VariantState) (k j : Nat) (m : Malloc) :
    Except BstrFault (VariantReply × VariantState) :=
  match s.slots j with
  | .scalar _ => .error .load
  | .bstr none => s.assignString k .null m
  | .bstr (some b) => s.assignString k (.block b) m

/-- `SysAllocStringByteLen` of the string at a pointer, as `VariantCopy` calls
    it. -/
def copyBstr (s : VariantState) (m : Malloc) : Option Addr → Except BstrFault (Option Bytes)
  | none => sysAllocStringByteLen m none 0
  | some b => do
      let p ← s.load b
      sysAllocStringByteLen m (some (p.drop 4)) (sysStringByteLen p)

/-- `VariantCopy` -/
def variantCopy (s : VariantState) (k j : Nat) (m : Malloc) :
    Except BstrFault (VariantReply × VariantState) := do
  let s ← s.variantClear k
  match s.slots j with
  | .scalar v => .ok (.ok, s.set k (.scalar v))
  | .bstr bstrVal =>
      match ← s.copyBstr m bstrVal with
      -- `bstrVal` is NULL then, and `vt` is not VT_BSTR yet
      | none => .ok (.outOfMemory, s)
      | some p => .ok (.ok, s.setNew k p)

/-- `Copy`; most scalars are moved in place of the call of `VariantCopy`. -/
def copy (s : VariantState) (k j : Nat) (m : Malloc) :
    Except BstrFault (VariantReply × VariantState) := do
  let s ← s.variantClear k
  match s.slots j with
  | .scalar v => .ok (.ok, s.set k (.scalar v))
  | .bstr _ => s.variantCopy k j m

/-- What is in the one variant, for what was in the other. -/
def handOn (s : VariantState) (dest src : Nat) : Except BstrFault VariantState := do
  let s ← s.myPropVariantClear dest
  .ok ((s.set dest (s.slots src)).set src .empty)

/-- `Attach` -/
def attach (s : VariantState) (k pSrc : Nat) : Except BstrFault VariantState := s.handOn k pSrc

/-- `Detach` -/
def detach (s : VariantState) (k pDest : Nat) : Except BstrFault VariantState := s.handOn pDest k

/-- An operation, as far as nothing that is not there is used. -/
def on {n : Nat} (s : VariantState) : VariantOp n → Except BstrFault (VariantReply × VariantState)
  | .assign k v => (s.assign k v).map fun s => (.ok, s)
  | .assignString k none m => s.assignString k .null m
  | .assignString k (some sz) m => s.assignString k (.chars sz) m
  | .assignBstr k j m => s.assignBstr k j m
  | .copy k j m => s.copy k j m
  | .attach k pSrc => (s.attach k pSrc).map fun s => (.ok, s)
  | .detach k pDest => (s.detach k pDest).map fun s => (.ok, s)
  | .clear k => (s.myPropVariantClear k).map fun s => (.ok, s)

end VariantState

/-- One operation. -/
def variantStep {n : Nat} (s : VariantState) (op : VariantOp n) : VariantReply × VariantState :=
  match s.on op with
  | .error f => (.fault f, s)
  | .ok r => r

/-! ## Values -/

/-- The value of a variant: a string is its characters. -/
abbrev VariantValue := Variant (List WChar)

namespace VariantState

/-- The characters of a block. -/
def blockChars (s : VariantState) (b : Addr) : List WChar := bstrChars ((s.blocks.get? b).getD [])

/-- What the variants are worth. -/
def values (s : VariantState) (a : Nat) : VariantValue := (s.slots a).map s.blockChars

/-- The blocks the variants have. -/
def owns (s : VariantState) (a : Nat) : Option Addr := (s.slots a).string?

end VariantState

/-- A string is assigned; without memory it is NULL. -/
def valueString (vals : Nat → VariantValue) (k : Nat) (m : Malloc) :
    Option (List WChar) → VariantReply × (Nat → VariantValue)
  | none => (.ok, Function.update vals k (.bstr none))
  | some sz =>
      if m.room = true then (.ok, Function.update vals k (.bstr (some sz)))
      else (.outOfMemory, Function.update vals k (.bstr none))

/-- A value is handed on. -/
def valueHandOn (vals : Nat → VariantValue) (dest src : Nat) : Nat → VariantValue :=
  Function.update (Function.update vals src .empty) dest (vals src)

/-- **The purpose**: variants are variables, and all that can go wrong is that
    there is no memory for a string.  A copy of NULL is the empty string. -/
def valueStep {n : Nat} (vals : Nat → VariantValue) :
    VariantOp n → VariantReply × (Nat → VariantValue)
  | .assign k v => (.ok, Function.update vals k (.scalar v))
  | .assignString k lpszSrc m => valueString vals k m lpszSrc
  | .assignBstr k j m => valueString vals k m ((vals j).string?.map wcStr)
  | .copy k j m =>
      match vals j with
      | .scalar v => (.ok, Function.update vals k (.scalar v))
      | .bstr bstrVal =>
          if m.room = true then (.ok, Function.update vals k (.bstr (some (bstrVal.getD []))))
          else (.outOfMemory, Function.update vals k .empty)
  | .attach k pSrc => (.ok, valueHandOn vals k pSrc)
  | .detach k pDest => (.ok, valueHandOn vals pDest k)
  | .clear k => (.ok, Function.update vals k .empty)

/-- An operation that does with the values what it should. -/
def AsValues {n : Nat} (s : VariantState) (op : VariantOp n) : Prop :=
  (variantStep s op).1 = (valueStep s.values op).1 ∧
    (variantStep s op).2.values = (valueStep s.values op).2

/-- An operation between two variants, or on one that is empty, with strings
    that are not too long. -/
def VariantOp.Proper {n : Nat} (s : VariantState) : VariantOp n → Prop
  | .assign _ _ => True
  | .assignString _ none _ => True
  | .assignString _ (some sz) m => sz.length < if m.room = true then 2 ^ 30 - 1 else 2 ^ 32
  | .assignBstr k j _ => (∃ bstrVal, s.slots j = .bstr bstrVal) ∧ (j = k → s.slots k = .bstr none)
  | .copy k j m =>
      (j = k → s.slots k = .empty) ∧
        (m.room = true → ∀ sz, s.values j = .bstr (some sz) → sz.length < 2 ^ 29 - 2)
  | .attach k pSrc => pSrc = k → s.slots k = .empty
  | .detach k pDest => pDest = k → s.slots k = .empty
  | .clear _ => True

/-! ## Invariant -/

namespace VariantState

variable {n : Nat} {s : VariantState}

/-- A block belongs to one variant or was freed, and is that of a string. -/
structure Inv (n : Nat) (s : VariantState) : Prop where
  balanced : Balanced s.owns n s.blocks.size s.freed []
  beyond : ∀ a, n ≤ a → s.slots a = .empty
  isBstr : ∀ {b p}, s.blocks.get? b = some p →
    ∃ sz, IsBstr p (bytesOfWords sz) ∧ sz.length < 2 ^ 30 - 1

theorem owns_eq {a : Nat} {bstrVal : Option Addr} (h : s.slots a = .bstr bstrVal) :
    s.owns a = bstrVal := by
  rw [owns, h]
  rfl

theorem values_scalar {a : Nat} {v : Scalar} (h : s.slots a = .scalar v) :
    s.values a = .scalar v := by
  rw [values, h]
  rfl

theorem values_bstr {a : Nat} {bstrVal : Option Addr} (h : s.slots a = .bstr bstrVal) :
    s.values a = .bstr (bstrVal.map s.blockChars) := by
  rw [values, h]
  rfl

/-- A place behind all variants is none of them. -/
theorem ne_of_beyond {k : Fin n} {a : Nat} (ha : n ≤ a) : a ≠ k :=
  Nat.ne_of_gt (Nat.lt_of_lt_of_le k.isLt ha)

theorem inv_start (n : Nat) : start.Inv n where
  balanced := Balanced.start fun _ _ => rfl
  beyond := fun _ _ => rfl
  isBstr := fun h => absurd h (by simp [start, Heap.get?, Heap.empty])

/-- The block of a variant. -/
theorem Inv.load (h : s.Inv n) {j : Fin n} {b : Addr} (hb : s.slots j = .bstr (some b)) :
    ∃ p, s.load b = .ok p ∧ IsBstr p (bytesOfWords (s.blockChars b)) ∧
      (s.blockChars b).length < 2 ^ 30 - 1 := by
  obtain ⟨hmade, hfreed⟩ := h.balanced.of_slot j.isLt (owns_eq hb)
  obtain ⟨p, hp⟩ := Option.isSome_iff_exists.mp (Heap.get?_isSome_iff.mpr hmade)
  obtain ⟨sz, hbstr, hlen⟩ := h.isBstr hp
  have hchars : s.blockChars b = sz := by
    rw [blockChars, hp]
    exact hbstr.chars_eq
  refine ⟨p, ?_, ?_, ?_⟩
  · rw [VariantState.load, if_neg hfreed, hp]
  · rw [hchars]
    exact hbstr
  · rw [hchars]
    exact hlen

theorem values_eq_empty_iff {a : Nat} : s.values a = .empty ↔ s.slots a = .empty := by
  rw [values]
  cases s.slots a with
  | scalar v =>
      exact ⟨fun h => congrArg Variant.scalar (Variant.scalar.inj h),
        fun h => congrArg Variant.scalar (Variant.scalar.inj h)⟩
  | bstr bstrVal => simp [Variant.map, Variant.empty]

/-- A variant is filled, without a change to the blocks. -/
theorem values_update (k : Nat) (v : Variant Addr) (freed : List Addr) :
    values { s with slots := Function.update s.slots k v, freed } =
      Function.update s.values k (v.map s.blockChars) := by
  funext a
  by_cases ha : a = k
  · rw [ha, Function.update_self, values]
    simp only [Function.update_self]
    rfl
  · rw [Function.update_of_ne ha, values]
    simp only [Function.update_of_ne ha]
    rfl

/-! ## Clearing -/

/-- The state when a variant is cleared. -/
def cleared (s : VariantState) (k : Nat) : VariantState :=
  { s with
    slots := Function.update s.slots k .empty
    freed := s.freed ++ (s.owns k).toList }

theorem cleared_self (s : VariantState) (k : Nat) : (s.cleared k).slots k = .empty :=
  Function.update_self _ _ _

theorem cleared_of_ne (s : VariantState) {k j : Nat} (h : j ≠ k) :
    (s.cleared k).slots j = s.slots j := Function.update_of_ne h _ _

theorem cleared_owns (s : VariantState) (k : Nat) : (s.cleared k).owns k = none := by
  rw [owns, cleared_self]
  rfl

theorem Inv.variantClear_eq (h : s.Inv n) (k : Fin n) : s.variantClear k = .ok (s.cleared k) := by
  rw [variantClear, cleared, owns]
  cases hslot : s.slots k with
  | scalar v => simp [Variant.string?, set]
  | bstr bstrVal =>
      cases bstrVal with
      | none => simp [sysFreeString, Variant.string?, set, bind, Except.bind]
      | some b =>
          have hfreed := (h.balanced.of_slot k.isLt (owns_eq hslot)).2
          simp [sysFreeString, Variant.string?, set, hfreed, bind, Except.bind]

theorem Inv.myPropVariantClear_eq (h : s.Inv n) (k : Fin n) :
    s.myPropVariantClear k = .ok (s.cleared k) := by
  rw [← h.variantClear_eq k, myPropVariantClear]
  cases hslot : s.slots k with
  | scalar v => simp only [variantClear, hslot]
  | bstr bstrVal => rfl

/-- What clearing does to the blocks and to the values. -/
theorem Inv.cleared (h : s.Inv n) (k : Fin n) : (s.cleared k).Inv n where
  balanced := by
    refine h.balanced.give k.isLt (s.cleared_owns k) ?_
    intro a _ ha
    rw [owns, cleared_of_ne s ha]
    rfl
  beyond := by
    intro a ha
    rw [cleared_of_ne s (ne_of_beyond ha), h.beyond a ha]
  isBstr := h.isBstr

theorem values_cleared (k : Nat) : (s.cleared k).values = Function.update s.values k .empty :=
  values_update k .empty _

/-! ## Filling a variant -/

theorem set_self (s : VariantState) (k : Nat) (v : Variant Addr) : (s.set k v).slots k = v :=
  Function.update_self _ _ _

theorem set_of_ne (s : VariantState) {k a : Nat} (ha : a ≠ k) (v : Variant Addr) :
    (s.set k v).slots a = s.slots a := Function.update_of_ne ha _ _

/-- A variant without a block gets a value without one. -/
theorem Inv.set (h : s.Inv n) (k : Fin n) (hempty : s.owns k = none) {v : Variant Addr}
    (hv : v.string? = none) : (s.set k v).Inv n where
  balanced := by
    refine h.balanced.keep ?_
    intro a _
    by_cases ha : a = k
    · rw [ha, hempty, owns, set_self, hv]
    · rw [owns, set_of_ne s ha]
      rfl
  beyond := by
    intro a ha
    rw [set_of_ne s (ne_of_beyond ha), h.beyond a ha]
  isBstr := h.isBstr

theorem values_set (k : Nat) (v : Variant Addr) :
    (s.set k v).values = Function.update s.values k (v.map s.blockChars) :=
  values_update k v _

theorem values_setNew_self (s : VariantState) (k : Nat) (p : Bytes) :
    (s.setNew k p).values k = .bstr (some (bstrChars p)) := by
  have hslot : (s.setNew k p).slots k = .bstr (some s.blocks.size) := Function.update_self _ _ _
  have hget : (s.setNew k p).blocks.get? s.blocks.size = some p := by
    show (s.blocks.alloc p).get? s.blocks.size = some p
    rw [Heap.get?_alloc, if_pos rfl]
  rw [values_bstr hslot, Option.map_some, blockChars, hget]
  rfl

/-- A variant without a block gets a new one. -/
theorem Inv.setNew (h : s.Inv n) (k : Fin n) (hempty : s.owns k = none) {p : Bytes}
    {sz : List WChar} (hp : IsBstr p (bytesOfWords sz)) (hsz : sz.length < 2 ^ 30 - 1) :
    (s.setNew k p).Inv n ∧ (s.setNew k p).values = Function.update s.values k (.bstr (some sz)) := by
  have hold : ∀ a ≠ (k : Nat), (s.setNew k p).slots a = s.slots a :=
    fun a ha => Function.update_of_ne ha _ _
  have hself : (s.setNew k p).slots k = .bstr (some s.blocks.size) := Function.update_self _ _ _
  refine ⟨⟨?_, ?_, ?_⟩, ?_⟩
  · have hothers : ∀ a < n, a ≠ k → (s.setNew k p).owns a = s.owns a := by
      intro a _ ha
      rw [owns, hold a ha]
      rfl
    have hmake := h.balanced.make k.isLt (owns_eq hself) hothers
    rw [hempty] at hmake
    show Balanced _ n (s.blocks.alloc p).size s.freed []
    rw [Heap.size_alloc]
    exact hmake
  · intro a ha
    rw [hold a (ne_of_beyond ha), h.beyond a ha]
  · intro b q hq
    have hget : (s.blocks.alloc p).get? b = some q := hq
    rw [Heap.get?_alloc] at hget
    split_ifs at hget with hb
    · rw [← Option.some.inj hget]
      exact ⟨sz, hp, hsz⟩
    · exact h.isBstr hget
  · -- the blocks there were are as before
    have hchars : ∀ b, b < s.blocks.size → (s.setNew k p).blockChars b = s.blockChars b := by
      intro b hb
      show bstrChars (((s.blocks.alloc p).get? b).getD []) = _
      rw [Heap.get?_alloc, if_neg (Nat.ne_of_lt hb)]
      rfl
    funext a
    by_cases ha : a = k
    · rw [ha, Function.update_self, values_setNew_self, hp.chars_eq]
    · rw [Function.update_of_ne ha, values, hold a ha, values]
      cases hslot : s.slots a with
      | scalar v => rfl
      | bstr bstrVal =>
          cases bstrVal with
          | none => rfl
          | some b =>
              have han : a < n := by
                by_contra hout
                rw [h.beyond a (Nat.le_of_not_lt hout)] at hslot
                exact absurd hslot (by simp [Variant.empty])
              have hb := (h.balanced.of_slot han (owns_eq hslot)).1
              rw [Variant.map, Variant.map, Option.map_some, Option.map_some, hchars b hb]

/-! ## Strings -/

theorem Inv.assignString_eq (h : s.Inv n) (k : Fin n) {lpszSrc : WidePtr} {sz : Option (List WChar)}
    (hsz : (s.cleared k).deref lpszSrc = .ok sz) (m : Malloc) :
    s.assignString k lpszSrc m = (sysAllocString m sz).map fun p =>
      match p with
      | none => (if sz = none then .ok else .outOfMemory, (s.cleared k).set k (.bstr none))
      | some p => (.ok, (s.cleared k).setNew k p) := by
  simp only [assignString, internalClear, h.myPropVariantClear_eq k, hsz, bind, Except.bind]
  cases sysAllocString m sz with
  | error f => rfl
  | ok p => cases p <;> rfl

/-- A variant is assigned a string, or NULL when there is no memory for it. -/
theorem Inv.assigned (h : s.Inv n) (k : Fin n) {lpszSrc : WidePtr} {sz : Option (List WChar)}
    {m : Malloc} (hsz : (s.cleared k).deref lpszSrc = .ok sz)
    (hfits : ∀ z, sz = some z → z.length < if m.room = true then 2 ^ 30 - 1 else 2 ^ 32) :
    ∃ r s', s.assignString k lpszSrc m = .ok (r, s') ∧ s'.Inv n ∧
      r = (valueString s.values k m sz).1 ∧ s'.values = (valueString s.values k m sz).2 := by
  have hclear := h.cleared k
  have hempty := s.cleared_owns k
  have hnull : ((s.cleared k).set k (.bstr none)).values =
      Function.update s.values k (.bstr none) := by
    rw [values_set, values_cleared, Function.update_idem]
    rfl
  rw [h.assignString_eq k hsz m]
  cases sz with
  | none => exact ⟨_, _, rfl, hclear.set k hempty rfl, rfl, hnull⟩
  | some z =>
      have hz := hfits z rfl
      cases hroom : m.room with
      | true =>
          rw [hroom, if_pos rfl] at hz
          obtain ⟨p, hp, hbstr⟩ := sysAllocString_isBstr hroom hz
          obtain ⟨hinv, hvalues⟩ := hclear.setNew k hempty hbstr hz
          rw [values_cleared, Function.update_idem] at hvalues
          rw [hp]
          exact ⟨_, _, rfl, hinv, by simp [valueString, hroom], by simp [valueString, hroom, hvalues]⟩
      | false =>
          rw [hroom, if_neg (by decide)] at hz
          obtain ⟨hlong, -⟩ | ⟨-, -, hp⟩ | ⟨-, htrue, -⟩ := sysAllocString_cases m z
          · exact absurd hz (Nat.not_lt.mpr hlong)
          · rw [hp]
            exact ⟨_, _, rfl, hclear.set k hempty rfl, by simp [valueString, hroom],
              by simp [valueString, hroom, hnull]⟩
          · exact absurd (hroom.symm.trans htrue) Bool.false_ne_true

theorem Inv.assigned_null (h : s.Inv n) (k : Fin n) (m : Malloc) :
    ∃ r s', s.assignString k .null m = .ok (r, s') ∧ s'.Inv n ∧
      r = (valueString s.values k m none).1 ∧ s'.values = (valueString s.values k m none).2 := by
  have hderef : (s.cleared k).deref .null = .ok none := rfl
  exact h.assigned k hderef fun z hz => absurd hz (by simp)

/-- What `VariantCopy` asks for. -/
theorem Inv.copyBstr_eq (h : s.Inv n) {j : Fin n} {bstrVal : Option Addr}
    (hj : s.slots j = .bstr bstrVal) (m : Malloc) :
    ∃ psz len, s.copyBstr m bstrVal = sysAllocStringByteLen m psz len ∧
      len.toNat = 4 * ((bstrVal.map s.blockChars).getD []).length ∧
      ((bstrVal.map s.blockChars).getD []).length < 2 ^ 30 - 1 ∧
      (psz = none → bstrVal = none) ∧
      ∀ z, psz = some z → len.toNat ≤ z.length ∧
        z.take len.toNat = bytesOfWords ((bstrVal.map s.blockChars).getD []) := by
  cases bstrVal with
  | none =>
      exact ⟨none, 0, rfl, rfl, Nat.two_pow_pos 29 |>.trans (by decide), fun _ => rfl, fun z hz => absurd hz (by simp)⟩
  | some b =>
      obtain ⟨p, hload, hbstr, hlen⟩ := h.load hj
      have hbytes : (sysStringByteLen p).toNat = (bytesOfWords (s.blockChars b)).length :=
        hbstr.byteLen
      refine ⟨some (p.drop 4), sysStringByteLen p, ?_, ?_, hlen, fun hnone => absurd hnone (by simp), ?_⟩
      · rw [copyBstr, hload]
        rfl
      · rw [hbytes, length_bytesOfWords]
        rfl
      · intro z hz
        obtain ⟨zeros, hdrop, -⟩ := hbstr.drop_eq
        rw [← Option.some.inj hz, hbytes, hdrop]
        exact ⟨by simp, List.take_left⟩

/-- A string that is not too long is copied. -/
theorem Inv.copyBstr_isBstr (h : s.Inv n) {j : Fin n} {bstrVal : Option Addr}
    (hj : s.slots j = .bstr bstrVal) {m : Malloc} (hroom : m.room = true)
    (hlen : ((bstrVal.map s.blockChars).getD []).length < 2 ^ 29 - 2) :
    ∃ p, s.copyBstr m bstrVal = .ok (some p) ∧
      IsBstr p (bytesOfWords ((bstrVal.map s.blockChars).getD [])) := by
  obtain ⟨psz, len, hcopy, hcount, -, hnone, hsome⟩ := h.copyBstr_eq hj m
  obtain ⟨p, bytes, hp, hbstr, hbytes, htake⟩ := sysAllocStringByteLen_isBstr hroom
    (fun z hz => (hsome z hz).1) (show len.toNat < 2 ^ 31 - 11 by omega)
  refine ⟨p, hcopy.trans hp, ?_⟩
  cases psz with
  | none =>
      have hnil : bytes = [] := by
        rw [hnone rfl] at hcount
        exact List.eq_nil_of_length_eq_zero (hbytes.trans hcount)
      rw [hnone rfl]
      rw [hnil] at hbstr
      exact hbstr
  | some z =>
      rw [← (hsome z rfl).2, ← htake z rfl]
      exact hbstr

/-- Without memory no string is. -/
theorem Inv.copyBstr_noRoom (h : s.Inv n) {j : Fin n} {bstrVal : Option Addr}
    (hj : s.slots j = .bstr bstrVal) {m : Malloc} (hroom : m.room = false) :
    s.copyBstr m bstrVal = .ok none := by
  obtain ⟨psz, len, hcopy, -⟩ := h.copyBstr_eq hj m
  rw [hcopy, sysAllocStringByteLen_noRoom hroom]

/-- And neither is one that is too long. -/
theorem Inv.copyBstr_long (h : s.Inv n) {j : Fin n} {b : Addr}
    (hj : s.slots j = .bstr (some b)) {m : Malloc} (hroom : m.room = true)
    (hlen : 2 ^ 29 - 2 ≤ (s.blockChars b).length) :
    s.copyBstr m (some b) = .ok none ∨ s.copyBstr m (some b) = .error .store := by
  obtain ⟨psz, len, hcopy, hcount, -, hnone, hsome⟩ := h.copyBstr_eq hj m
  have hlong : len.toNat = 4 * (s.blockChars b).length := hcount
  rw [hcopy]
  rcases Nat.lt_or_ge len.toNat (2 ^ 32 - 11) with hnegative | hsmall
  · exact Or.inl (sysAllocStringByteLen_negative m psz (by omega) hnegative)
  · cases psz with
    | none => exact absurd (hnone rfl) (by simp)
    | some z => exact Or.inr (sysAllocStringByteLen_small hroom (hsome z rfl).1 hsmall)

/-! ## Copying and handing on -/

/-- Clearing twice is clearing once. -/
theorem cleared_cleared (s : VariantState) (k : Nat) : (s.cleared k).cleared k = s.cleared k := by
  have howns := s.cleared_owns k
  rw [cleared, howns, Option.toList_none, List.append_nil]
  simp only [cleared, Function.update_idem]

theorem Inv.copy_scalar (h : s.Inv n) {k : Fin n} {j : Nat} {v : Scalar}
    (hj : (s.cleared k).slots j = .scalar v) (m : Malloc) :
    s.copy k j m = .ok (.ok, (s.cleared k).set k (.scalar v)) := by
  simp only [copy, h.variantClear_eq k, bind, Except.bind, hj]

theorem Inv.copy_bstr (h : s.Inv n) {k : Fin n} {j : Nat} {bstrVal : Option Addr}
    (hj : (s.cleared k).slots j = .bstr bstrVal) (m : Malloc) :
    s.copy k j m = ((s.cleared k).copyBstr m bstrVal).map fun p =>
      match p with
      | none => (.outOfMemory, s.cleared k)
      | some p => (.ok, (s.cleared k).setNew k p) := by
  have hagain := (h.cleared k).variantClear_eq k
  rw [cleared_cleared] at hagain
  simp only [copy, variantCopy, h.variantClear_eq k, hagain, hj, bind, Except.bind]
  cases (s.cleared k).copyBstr m bstrVal with
  | error f => rfl
  | ok p => cases p <;> rfl

/-- The state when a variant is handed on. -/
def handedOn (s : VariantState) (dest src : Nat) : VariantState :=
  ((s.cleared dest).set dest ((s.cleared dest).slots src)).set src .empty

theorem Inv.handOn_eq (h : s.Inv n) (dest : Fin n) (src : Nat) :
    s.handOn dest src = .ok (s.handedOn dest src) := by
  rw [handOn, h.myPropVariantClear_eq dest]
  rfl

/-- A variant takes over what another one has. -/
theorem Inv.handedOn (h : s.Inv n) {dest src : Fin n} (hne : src ≠ dest) :
    (s.handedOn dest src).Inv n ∧ (s.handedOn dest src).values = valueHandOn s.values dest src := by
  have hsd : (src : Nat) ≠ dest := fun heq => hne (Fin.ext heq)
  have hclear := h.cleared dest
  have hsrc : (s.cleared dest).slots src = s.slots src := s.cleared_of_ne hsd
  refine ⟨⟨?_, ?_, hclear.isBstr⟩, ?_⟩
  · refine hclear.balanced.move dest.isLt src.isLt (Ne.symm hsd) (s.cleared_owns dest) ?_ ?_ ?_
    · rw [owns, VariantState.handedOn, set_of_ne _ (Ne.symm hsd), set_self]
      rfl
    · rw [owns, VariantState.handedOn, set_self]
      rfl
    · intro a _ had has
      rw [owns, VariantState.handedOn, set_of_ne _ has, set_of_ne _ had]
      rfl
  · intro a ha
    rw [VariantState.handedOn, set_of_ne _ (ne_of_beyond ha), set_of_ne _ (ne_of_beyond ha),
      hclear.beyond a ha]
  · rw [VariantState.handedOn, values_set, values_set, values_cleared, Function.update_idem, hsrc,
      valueHandOn, Function.update_comm hsd]
    rfl

/-- A variant that takes over what it has itself loses it. -/
theorem Inv.handedOn_self (h : s.Inv n) (k : Fin n) :
    (s.handedOn k k).Inv n ∧ (s.handedOn k k).values = Function.update s.values k .empty := by
  have hset : s.handedOn k k = (s.cleared k).set k .empty := by
    simp only [VariantState.handedOn, VariantState.set, Function.update_idem]
  rw [hset]
  refine ⟨(h.cleared k).set k (s.cleared_owns k) rfl, ?_⟩
  rw [values_set, values_cleared, Function.update_idem]
  rfl

/-! ## Every operation -/

/-- What an operation does that does what it should. -/
structure Sound (s : VariantState) (op : VariantOp n) : Prop where
  inv : (variantStep s op).2.Inv n
  asValues : AsValues s op

theorem variantStep_of_on {op : VariantOp n} {r : VariantReply × VariantState}
    (hon : s.on op = .ok r) : variantStep s op = r := by rw [variantStep, hon]

theorem Sound.of_on {op : VariantOp n} {r : VariantReply} {s' : VariantState}
    (hon : s.on op = .ok (r, s')) (hinv : s'.Inv n) (hr : r = (valueStep s.values op).1)
    (hvalues : s'.values = (valueStep s.values op).2) : s.Sound op := by
  have hstep := variantStep_of_on hon
  refine ⟨?_, ?_, ?_⟩
  · rw [hstep]
    exact hinv
  · rw [hstep]
    exact hr
  · rw [hstep]
    exact hvalues

/-- An operation that uses what is not there is none on values. -/
theorem not_asValues_of_error {op : VariantOp n} {f : BstrFault} (hon : s.on op = .error f)
    (hr : (valueStep s.values op).1 ≠ .fault f) : ¬ AsValues s op := by
  rintro ⟨hreply, -⟩
  rw [variantStep, hon] at hreply
  exact hr hreply.symm

theorem valueString_ne_fault (vals : Nat → VariantValue) (k : Nat) (m : Malloc)
    (sz : Option (List WChar)) (f : BstrFault) : (valueString vals k m sz).1 ≠ .fault f := by
  cases sz with
  | none => exact VariantReply.noConfusion
  | some z =>
      rw [valueString]
      split_ifs <;> exact VariantReply.noConfusion

theorem sound_assign (h : s.Inv n) (k : Fin n) (v : Scalar) : s.Sound (.assign k v) := by
  have hassign : s.assign k v = .ok ((s.cleared k).set k (.scalar v)) := by
    rw [assign]
    cases hslot : s.slots k with
    | scalar w =>
        have hsame : (s.cleared k).set k (.scalar v) = s.set k (.scalar v) := by
          simp only [cleared, set, owns, hslot, Variant.string?, Option.toList_none, List.append_nil,
            Function.update_idem]
        simp only [internalClear, h.myPropVariantClear_eq k, bind, Except.bind, hsame, ite_self]
    | bstr bstrVal =>
        simp only [internalClear, h.myPropVariantClear_eq k, bind, Except.bind]
  refine .of_on (by rw [on, hassign]; rfl) ((h.cleared k).set k (s.cleared_owns k) rfl) rfl ?_
  rw [values_set, values_cleared, Function.update_idem]
  rfl

theorem sound_assignString (h : s.Inv n) {k : Fin n} {lpszSrc : Option (List WChar)} {m : Malloc}
    (hproper : (VariantOp.assignString k lpszSrc m).Proper s) :
    s.Sound (.assignString k lpszSrc m) := by
  cases lpszSrc with
  | none =>
      obtain ⟨r, s', hon, hinv, hr, hvalues⟩ := h.assigned_null k m
      exact .of_on hon hinv hr hvalues
  | some sz =>
      have hderef : (s.cleared k).deref (.chars sz) = .ok (some sz) := rfl
      obtain ⟨r, s', hon, hinv, hr, hvalues⟩ :=
        h.assigned k hderef (fun z hz => Option.some.inj hz ▸ hproper)
      exact .of_on hon hinv hr hvalues

/-- The string of another variant is read once the variant is cleared. -/
theorem sound_assignBstr (h : s.Inv n) {k j : Fin n} {m : Malloc}
    (hproper : (VariantOp.assignBstr k j m).Proper s) : s.Sound (.assignBstr k j m) := by
  obtain ⟨⟨bstrVal, hj⟩, hself⟩ := hproper
  have hvalue := values_bstr hj
  cases bstrVal with
  | none =>
      obtain ⟨r, s', hassign, hinv, hr, hvalues⟩ := h.assigned_null k m
      have hon : s.on (.assignBstr k j m) = .ok (r, s') := by
        rw [on, assignBstr, hj]
        exact hassign
      refine .of_on hon hinv ?_ ?_
      · rw [valueStep, hvalue]
        exact hr
      · rw [valueStep, hvalue]
        exact hvalues
  | some b =>
      have hjk : (j : Nat) ≠ k := by
        intro heq
        rw [heq, hself (Fin.ext heq)] at hj
        exact absurd hj (by simp)
      have hslot : (s.cleared k).slots j = .bstr (some b) := by rw [s.cleared_of_ne hjk, hj]
      obtain ⟨p, hload, hbstr, hlen⟩ := (h.cleared k).load hslot
      have hderef : (s.cleared k).deref (.block b) = .ok (some (wcStr (s.blockChars b))) := by
        simp only [deref, hload, bind, Except.bind, hbstr.readWide_eq]
        rfl
      have hshort : (wcStr (s.blockChars b)).length < 2 ^ 30 - 1 :=
        Nat.lt_of_le_of_lt (List.takeWhile_prefix _).length_le hlen
      obtain ⟨r, s', hassign, hinv, hr, hvalues⟩ := h.assigned k (m := m) hderef
        (fun z hz => by
          rw [← Option.some.inj hz]
          split_ifs
          · exact hshort
          · omega)
      have hon : s.on (.assignBstr k j m) = .ok (r, s') := by
        rw [on, assignBstr, hj]
        exact hassign
      refine .of_on hon hinv ?_ ?_
      · rw [valueStep, hvalue]
        exact hr
      · rw [valueStep, hvalue]
        exact hvalues

theorem sound_copy (h : s.Inv n) {k j : Fin n} {m : Malloc}
    (hproper : (VariantOp.copy k j m).Proper s) : s.Sound (.copy k j m) := by
  obtain ⟨hself, hlen⟩ := hproper
  have hclear := h.cleared k
  -- the source is as before when the variant is cleared
  have hsame : (s.cleared k).slots j = s.slots j := by
    by_cases hjk : j = k
    · rw [hjk, cleared_self, hself hjk]
    · exact s.cleared_of_ne fun heq => hjk (Fin.ext heq)
  cases hj : s.slots j with
  | scalar v =>
      have hon : s.on (.copy k j m) = .ok (.ok, (s.cleared k).set k (.scalar v)) :=
        h.copy_scalar (hsame.trans hj) m
      have hvalue := values_scalar hj
      refine .of_on hon (hclear.set k (s.cleared_owns k) rfl) ?_ ?_
      · rw [valueStep, hvalue]
      · rw [valueStep, hvalue, values_set, values_cleared, Function.update_idem]
        rfl
  | bstr bstrVal =>
      rw [hj] at hsame
      have hcopy := h.copy_bstr hsame m
      have hvalue := values_bstr hj
      cases hroom : m.room with
      | true =>
          have hshort : ((bstrVal.map s.blockChars).getD []).length < 2 ^ 29 - 2 := by
            cases bstrVal with
            | none => exact Nat.lt_of_lt_of_le Nat.one_pos (by decide)
            | some b => exact hlen hroom _ hvalue
          obtain ⟨p, hp, hbstr⟩ := hclear.copyBstr_isBstr hsame hroom hshort
          obtain ⟨hinv, hvalues⟩ := hclear.setNew k (s.cleared_owns k) hbstr
            (Nat.lt_of_lt_of_le hshort (by decide))
          rw [values_cleared, Function.update_idem] at hvalues
          rw [hp] at hcopy
          have hon : s.on (.copy k j m) = .ok (.ok, (s.cleared k).setNew k p) := hcopy
          refine .of_on hon hinv ?_ ?_
          · simp only [valueStep, hvalue, hroom, if_true]
          · simp only [valueStep, hvalue, hroom, if_true]
            exact hvalues
      | false =>
          rw [hclear.copyBstr_noRoom hsame hroom] at hcopy
          have hon : s.on (.copy k j m) = .ok (.outOfMemory, s.cleared k) := hcopy
          refine .of_on hon hclear ?_ ?_
          · simp only [valueStep, hvalue, hroom, Bool.false_eq_true, if_false]
          · simp only [valueStep, hvalue, hroom, Bool.false_eq_true, if_false]
            exact values_cleared k

theorem sound_clear (h : s.Inv n) (k : Fin n) : s.Sound (.clear k) :=
  .of_on (by rw [on, h.myPropVariantClear_eq k]; rfl) (h.cleared k) rfl (values_cleared k)

/-- An empty variant may be handed on to itself. -/
theorem Inv.handedOn_values (h : s.Inv n) {dest src : Fin n}
    (hself : src = dest → s.slots dest = .empty) :
    (s.handedOn dest src).Inv n ∧ (s.handedOn dest src).values = valueHandOn s.values dest src := by
  by_cases hne : src = dest
  · obtain ⟨hinv, hvalues⟩ := h.handedOn_self dest
    have hempty : s.values dest = .empty := values_eq_empty_iff.mpr (hself hne)
    rw [hne]
    refine ⟨hinv, ?_⟩
    rw [hvalues, valueHandOn, hempty, Function.update_idem]
  · exact h.handedOn hne

theorem sound_attach (h : s.Inv n) {k pSrc : Fin n}
    (hproper : (VariantOp.attach k pSrc).Proper s) : s.Sound (.attach k pSrc) := by
  obtain ⟨hinv, hvalues⟩ := h.handedOn_values hproper
  exact .of_on (by rw [on, attach, h.handOn_eq k]; rfl) hinv rfl hvalues

theorem sound_detach (h : s.Inv n) {k pDest : Fin n}
    (hproper : (VariantOp.detach k pDest).Proper s) : s.Sound (.detach k pDest) := by
  have hself : k = pDest → s.slots pDest = .empty := by
    intro heq
    rw [← heq]
    exact hproper heq.symm
  obtain ⟨hinv, hvalues⟩ := h.handedOn_values hself
  exact .of_on (by rw [on, detach, h.handOn_eq pDest]; rfl) hinv rfl hvalues

/-- **A proper operation is one on values.** -/
theorem sound (h : s.Inv n) {op : VariantOp n} (hproper : op.Proper s) : s.Sound op := by
  cases op with
  | assign k v => exact sound_assign h k v
  | assignString k lpszSrc m => exact sound_assignString h hproper
  | assignBstr k j m => exact sound_assignBstr h hproper
  | copy k j m => exact sound_copy h hproper
  | attach k pSrc => exact sound_attach h hproper
  | detach k pDest => exact sound_detach h hproper
  | clear k => exact sound_clear h k

/-! ## Only the proper ones -/

theorem proper_assignString (h : s.Inv n) {k : Fin n} {sz : List WChar} {m : Malloc}
    (has : AsValues s (.assignString k (some sz) m)) :
    sz.length < if m.room = true then 2 ^ 30 - 1 else 2 ^ 32 := by
  have hderef : (s.cleared k).deref (.chars sz) = .ok (some sz) := rfl
  have hon : s.on (.assignString k (some sz) m) = _ := h.assignString_eq k hderef m
  by_contra hlong
  obtain ⟨-, hend⟩ | ⟨hshort, hroom, -⟩ | ⟨-, hroom, hp⟩ := sysAllocString_cases m sz
  · rw [hend] at hon
    exact not_asValues_of_error hon (valueString_ne_fault _ _ _ _ _) has
  · rw [hroom] at hlong
    exact hlong hshort
  · rw [if_pos hroom] at hlong
    have hcut := sysAllocString_cut hp (Nat.le_of_not_lt hlong)
    rw [hp] at hon
    -- the variant has less than the string
    have hstep := variantStep_of_on hon
    have hvalues := congrFun has.2 k
    rw [hstep, valueStep, valueString, if_pos hroom] at hvalues
    have hself := (values_setNew_self _ _ _).symm.trans (hvalues.trans (Function.update_self _ _ _))
    exact hcut (Option.some.inj (Variant.bstr.inj hself))

theorem proper_assignBstr (h : s.Inv n) {k j : Fin n} {m : Malloc}
    (has : AsValues s (.assignBstr k j m)) : (VariantOp.assignBstr k j m).Proper s := by
  cases hj : s.slots j with
  | scalar v =>
      have hon : s.on (.assignBstr k j m) = .error .load := by rw [on, assignBstr, hj]
      exact absurd has (not_asValues_of_error hon (valueString_ne_fault _ _ _ _ _))
  | bstr bstrVal =>
      refine ⟨⟨bstrVal, hj⟩, ?_⟩
      intro hjk
      rw [← hjk, hj]
      cases bstrVal with
      | none => rfl
      | some b =>
          -- the block has been freed when it is read
          have hfreed : b ∈ (s.cleared k).freed := by
            rw [cleared, ← hjk, owns_eq hj]
            exact List.mem_append_right _ List.mem_cons_self
          have hon : s.on (.assignBstr k j m) = .error .freed := by
            rw [on, assignBstr, hj]
            simp only [assignString, internalClear, h.myPropVariantClear_eq k, deref,
              VariantState.load, if_pos hfreed, bind, Except.bind]
          exact absurd has (not_asValues_of_error hon (valueString_ne_fault _ _ _ _ _))

/-- A copy of a variant to itself empties it. -/
theorem empty_of_copy_self (h : s.Inv n) {k : Fin n} {m : Malloc} (has : AsValues s (.copy k k m)) :
    s.slots k = .empty := by
  have hon : s.on (.copy k k m) = _ := h.copy_scalar (s.cleared_self k) m
  have hstep := variantStep_of_on hon
  obtain ⟨hreply, hvalues⟩ := has
  rw [hstep] at hreply hvalues
  have hempty : Variant.empty = (valueStep s.values (.copy k k m)).2 k := by
    rw [← hvalues, values_set, Function.update_self]
    rfl
  rw [← values_eq_empty_iff]
  cases hvalue : s.values k with
  | scalar v =>
      rw [valueStep, hvalue] at hempty
      exact (hempty.trans (Function.update_self _ _ _)).symm
  | bstr bstrVal =>
      cases hroom : m.room with
      | true =>
          simp only [valueStep, hvalue, hroom, if_true, Function.update_self] at hempty
          exact absurd hempty (by simp [Variant.empty])
      | false =>
          simp only [valueStep, hvalue, hroom, Bool.false_eq_true, if_false] at hreply
          exact absurd hreply VariantReply.noConfusion

theorem proper_copy (h : s.Inv n) {k j : Fin n} {m : Malloc} (has : AsValues s (.copy k j m)) :
    (VariantOp.copy k j m).Proper s := by
  have hself : j = k → s.slots k = .empty := by
    rintro rfl
    exact empty_of_copy_self h has
  refine ⟨hself, ?_⟩
  intro hroom sz hvalue
  by_contra hlong
  cases hj : s.slots j with
  | scalar v =>
      exact absurd ((values_scalar hj).symm.trans hvalue) (by simp)
  | bstr bstrVal =>
      have hjk : (j : Nat) ≠ k := by
        intro heq
        rw [heq, hself (Fin.ext heq)] at hj
        exact absurd hj (by simp [Variant.empty])
      have hslot : (s.cleared k).slots j = .bstr bstrVal := (s.cleared_of_ne hjk).trans hj
      have hsz : Variant.bstr (bstrVal.map s.blockChars) = .bstr (some sz) :=
        (values_bstr hj).symm.trans hvalue
      cases bstrVal with
      | none => exact absurd (Variant.bstr.inj hsz) (by simp)
      | some b =>
          have hchars : s.blockChars b = sz := Option.some.inj (Variant.bstr.inj hsz)
          have hon : s.on (.copy k j m) = _ := h.copy_bstr hslot m
          have hreply : (valueStep s.values (.copy k j m)).1 = .ok := by
            simp only [valueStep, hvalue, hroom, if_true]
          -- there is no copy, with memory or without
          obtain hnone | hstore := (h.cleared k).copyBstr_long hslot hroom
            (show 2 ^ 29 - 2 ≤ (s.blockChars b).length by rw [hchars]; exact Nat.le_of_not_lt hlong)
          · rw [hnone] at hon
            have hstep := variantStep_of_on hon
            have hout := has.1
            rw [hstep, hreply] at hout
            exact VariantReply.noConfusion hout
          · rw [hstore] at hon
            exact not_asValues_of_error hon (by rw [hreply]; exact VariantReply.noConfusion) has

/-- What is handed on to itself is lost. -/
theorem empty_of_handedOn_self (h : s.Inv n) {k : Fin n}
    (hvalues : (s.handedOn k k).values = valueHandOn s.values k k) : s.slots k = .empty := by
  rw [(h.handedOn_self k).2] at hvalues
  have hself := congrFun hvalues k
  rw [valueHandOn, Function.update_self, Function.update_self] at hself
  exact values_eq_empty_iff.mp hself.symm

/-- **An operation is one on values just when it is proper.** -/
theorem asValues_iff (h : s.Inv n) (op : VariantOp n) : AsValues s op ↔ op.Proper s := by
  refine ⟨?_, fun hproper => (sound h hproper).asValues⟩
  intro has
  cases op with
  | assign k v => trivial
  | assignString k lpszSrc m =>
      cases lpszSrc with
      | none => trivial
      | some sz => exact proper_assignString h has
  | assignBstr k j m => exact proper_assignBstr h has
  | copy k j m => exact proper_copy h has
  | attach k pSrc =>
      rintro rfl
      have hon : s.on (.attach pSrc pSrc) = .ok (.ok, s.handedOn pSrc pSrc) := by
        rw [on, attach, h.handOn_eq pSrc]
        rfl
      have hvalues := has.2
      rw [variantStep_of_on hon] at hvalues
      exact empty_of_handedOn_self h hvalues
  | detach k pDest =>
      rintro rfl
      have hon : s.on (.detach pDest pDest) = .ok (.ok, s.handedOn pDest pDest) := by
        rw [on, detach, h.handOn_eq pDest]
        rfl
      have hvalues := has.2
      rw [variantStep_of_on hon] at hvalues
      exact empty_of_handedOn_self h hvalues
  | clear k => trivial

end VariantState

/-! ## Whole runs -/

/-- **Variants are variables.**  Over any operations on variants that start out
    empty, every reply and every value is that of `valueStep` just when every
    operation is proper: none copies or hands on a variant to itself that is
    not empty, or assigns it its own string or that of one without a string, and
    the strings are short enough.  Then the block of every string made is in one
    variant or has been freed, once, and nothing that was freed has been used. -/
theorem variants_are_values {n : Nat} (ops : List (VariantOp n)) :
    (Along variantStep AsValues .start ops ↔
      Along variantStep (fun s op => op.Proper s) .start ops) ∧
    (Along variantStep (fun s op => op.Proper s) .start ops →
      replies variantStep .start ops = replies valueStep (fun _ => .empty) ops ∧
      (run variantStep .start ops).values = run valueStep (fun _ => .empty) ops ∧
      (held (run variantStep .start ops).owns n ++ (run variantStep .start ops).freed).Perm
        (List.range (run variantStep .start ops).blocks.size)) := by
  have hstart := VariantState.inv_start n
  have hiff : Along variantStep AsValues .start ops ↔
      Along variantStep (fun s op => op.Proper s) .start ops :=
    Along.iff_of_invariant (P := fun _ _ => True) (fun s op h _ => VariantState.asValues_iff h op)
      (fun s op h _ has => (VariantState.sound h ((VariantState.asValues_iff h op).mp has)).inv)
      hstart (along_of_forall (fun _ _ => trivial) _ _)
  refine ⟨hiff, ?_⟩
  intro hproper
  obtain ⟨hreplies, hvalues⟩ := (hiff.mpr hproper).view_eq VariantState.values
  have hinv := run_invariant (I := VariantState.Inv n)
    (fun s op h hp => (VariantState.sound h hp).inv) hstart hproper
  exact ⟨hreplies, hvalues, hinv.balanced.lost_eq_nil_iff.mpr rfl⟩

/-- A copy is there when the original is cleared; its own string is not. -/
example :
    replies variantStep .start
      [VariantOp.assignString (n := 2) 0 (some [97]) ⟨true, fun _ => 0⟩,
        .copy 1 0 ⟨true, fun _ => 0⟩, .clear 0, .assignBstr 0 1 ⟨true, fun _ => 0⟩,
        .assignBstr 1 1 ⟨true, fun _ => 0⟩] =
      [.ok, .ok, .ok, .ok, .fault .freed] := by
  decide +kernel

end Fuse7z
