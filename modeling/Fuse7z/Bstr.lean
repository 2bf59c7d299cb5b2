/-
  Fuse7z.Bstr

  `BSTR`s, as `MyWindows.cpp` makes them: a block of memory with the number of
  bytes in front, the characters behind it, and zeros behind those.  The
  pointer is to the characters.

  All lengths are 32 bits wide.  `bstr_format` says for which strings the block
  is one that gives the string back, and for which lengths it is smaller than
  what is stored to it.
-/
import Fuse7z.Extension
import Fuse7z.OutStream
import Fuse7z.Lib.Window
import Fuse7z.Lib.Word
import Fuse7z.Lib.WordBytes

namespace Fuse7z

open Lib

/-! ## Memory -/

/-- What `malloc` meets: whether there is memory, and what is in it. -/
structure Malloc where
  room : Bool
  junk : Nat → Byte

/-- `malloc`, the bytes of the block; half of the address space is never
    there. -/
def Malloc.alloc (m : Malloc) (cb : UInt64) : Option Bytes :=
  if m.room = true ∧ cb.toNat < 2 ^ 63 then some ((List.range cb.toNat).map m.junk) else none

inductive BstrFault where
  /-- a store past the end of a block -/
  | store
  /-- a load past the end of what can be read -/
  | load
  /-- a block is used that was freed -/
  | freed
  /-- `MyStringLen` does not come to an end -/
  | endless
deriving DecidableEq, Repr

/-- A store to a block. -/
def store (p : Bytes) (pos : Nat) (data : Bytes) : Except BstrFault Bytes :=
  match overwrite? p pos data with
  | none => .error .store
  | some p => .ok p

/-! ## MyWindows.cpp -/

/-- `MyStringLen`; the counter is a `UINT`. -/
def myStringLen (s : List WChar) : Except BstrFault UInt32 :=
  if s.length < 2 ^ 32 then .ok (UInt32.ofNat s.length) else .error .endless

/-- `SysAllocStringByteLen`; `psz` is what can be read from the pointer on. -/
def sysAllocStringByteLen (m : Malloc) (psz : Option Bytes) (len : UInt32) :
    Except BstrFault (Option Bytes) :=
  let realLen : Int32 := (len.toUInt64 + 4 + 4 + 3).toUInt32.toInt32
  match m.alloc realLen.toInt64.toUInt64 with
  | none => .ok none
  | some p => do
      let p ← store p 0 (wordBytes len)
      let p ← match psz with
        | none => .ok p
        | some psz =>
            if psz.length < len.toNat then .error .load else store p 4 (psz.take len.toNat)
      let p ← store p (4 + len.toNat) (List.replicate 7 0)
      .ok (some p)

/-- `SysAllocString`, of the characters in front of the NUL. -/
def sysAllocString (m : Malloc) : Option (List WChar) → Except BstrFault (Option Bytes)
  | none => .ok none
  | some sz => do
      let strLen ← myStringLen sz
      let len : UInt32 := (strLen + 1) * 4
      match m.alloc (len.toUInt64 + 4) with
      | none => .ok none
      | some p => do
          let p ← store p 0 (wordBytes (strLen * 4))
          let p ← store p 4 ((bytesOfWords (sz ++ [0])).take len.toNat)
          .ok (some p)

/-- `SysStringByteLen`, of a pointer that is not NULL. -/
def sysStringByteLen : Bytes → UInt32
  | b0 :: b1 :: b2 :: b3 :: _ => wordOf b0 b1 b2 b3
  | _ => 0

/-- `SysStringLen` -/
def sysStringLen (p : Bytes) : UInt32 := sysStringByteLen p / 4

/-! ## What is in a block -/

/-- The bytes the length counts. -/
def bstrBytes (p : Bytes) : Bytes := (p.drop 4).take (sysStringByteLen p).toNat

/-- The characters among them. -/
def bstrChars (p : Bytes) : List WChar := wordsOfBytes (bstrBytes p)

/-- What a reader of `const wchar_t *` sees, if it does not leave the block. -/
def readWide (p : Bytes) : Option (List WChar) :=
  if 0 ∈ wordsOfBytes (p.drop 4) then some (wcStr (wordsOfBytes (p.drop 4))) else none

/-- The block is that of the bytes: zeros follow them, enough for a whole
    character. -/
structure IsBstr (p bytes : Bytes) : Prop where
  length_lt : bytes.length < 2 ^ 32
  layout : ∃ n, p = wordBytes (UInt32.ofNat bytes.length) ++ (bytes ++ List.replicate n 0) ∧
    (bytes.length + 3) / 4 * 4 + 4 ≤ bytes.length + n

namespace IsBstr

variable {p bytes : Bytes}

theorem byteLen (h : IsBstr p bytes) : (sysStringByteLen p).toNat = bytes.length := by
  obtain ⟨n, rfl, -⟩ := h.layout
  have hword := wordsOfBytes_wordBytes_append (UInt32.ofNat bytes.length) []
  have hlen : sysStringByteLen (wordBytes (UInt32.ofNat bytes.length) ++
      (bytes ++ List.replicate n 0)) = UInt32.ofNat bytes.length := (List.cons.inj hword).1
  rw [hlen]
  exact UInt32.toNat_ofNat_of_lt' h.length_lt

theorem drop_eq (h : IsBstr p bytes) : ∃ n, p.drop 4 = bytes ++ List.replicate n 0 ∧
    (bytes.length + 3) / 4 * 4 + 4 ≤ bytes.length + n := by
  obtain ⟨n, rfl, hroom⟩ := h.layout
  exact ⟨n, rfl, hroom⟩

theorem bytes_eq (h : IsBstr p bytes) : bstrBytes p = bytes := by
  obtain ⟨n, hdrop, -⟩ := h.drop_eq
  rw [bstrBytes, h.byteLen, hdrop]
  exact List.take_left

theorem stringLen {s : List WChar} (h : IsBstr p (bytesOfWords s)) :
    (sysStringLen p).toNat = s.length := by
  rw [sysStringLen, UInt32.toNat_div, h.byteLen, length_bytesOfWords]
  exact Nat.mul_div_cancel_left s.length (Nat.succ_pos 3)

theorem chars_eq {s : List WChar} (h : IsBstr p (bytesOfWords s)) : bstrChars p = s := by
  rw [bstrChars, h.bytes_eq, wordsOfBytes_bytesOfWords]

/-- A reader of the characters stops in the block. -/
theorem readWide_isSome (h : IsBstr p bytes) : (readWide p).isSome := by
  obtain ⟨n, hdrop, hroom⟩ := h.drop_eq
  rw [readWide, hdrop, if_pos (mem_wordsOfBytes_zero hroom)]
  rfl

/-- Characters are read up to the first NUL. -/
theorem readWide_eq {s : List WChar} (h : IsBstr p (bytesOfWords s)) :
    readWide p = some (wcStr s) := by
  have hsome := h.readWide_isSome
  obtain ⟨n, hdrop, hroom⟩ := h.drop_eq
  rw [length_bytesOfWords] at hroom
  obtain ⟨k, rfl⟩ := Nat.exists_eq_add_of_le' (show 4 ≤ n by omega)
  have hwords : wordsOfBytes (p.drop 4) = s ++ 0 :: wordsOfBytes (List.replicate k 0) := by
    rw [hdrop, wordsOfBytes_bytesOfWords_append, wordsOfBytes_zeros]
  have hstop : wcStr (s ++ 0 :: wordsOfBytes (List.replicate k 0)) = wcStr s := by
    rw [wcStr, wcStr, List.takeWhile_append]
    split_ifs with hall
    · have hwhole : s.takeWhile (· != 0) = s := List.IsPrefix.eq_of_length
        (List.takeWhile_prefix _) hall
      rw [hwhole]
      simp
    · rfl
  rw [readWide, hwords, hstop, if_pos (List.mem_append_right s List.mem_cons_self)]

end IsBstr

/-! ## Storing to a block -/

theorem Malloc.length_alloc {m : Malloc} {cb : UInt64} {p : Bytes} (h : m.alloc cb = some p) :
    p.length = cb.toNat := by
  rw [Malloc.alloc] at h
  split_ifs at h
  rw [← Option.some.inj h, List.length_map, List.length_range]

theorem Malloc.alloc_eq {m : Malloc} (hroom : m.room = true) {cb : UInt64}
    (hcb : cb.toNat < 2 ^ 63) : ∃ p, m.alloc cb = some p ∧ p.length = cb.toNat := by
  have halloc : m.alloc cb = some ((List.range cb.toNat).map m.junk) := if_pos ⟨hroom, hcb⟩
  exact ⟨_, halloc, length_alloc halloc⟩

theorem Malloc.alloc_noRoom {m : Malloc} (hroom : m.room = false) (cb : UInt64) :
    m.alloc cb = none :=
  if_neg fun h => absurd (hroom.symm.trans h.1) Bool.false_ne_true

/-- The next store goes behind the last one. -/
theorem store_append {d rest data : Bytes} {pos : Nat} (hpos : d.length = pos)
    (h : data.length ≤ rest.length) :
    store (d ++ rest) pos data = .ok (d ++ (data ++ rest.drop data.length)) := by
  rw [store, ← hpos, overwrite?_append h]

theorem store_error {p data : Bytes} {pos : Nat} (h : p.length < pos + data.length) :
    store p pos data = .error .store := by
  rw [store, overwrite?_eq_none h]

/-- The number of bytes is stored first. -/
theorem store_length {p : Bytes} (len : UInt32) (h : 4 ≤ p.length) :
    store p 0 (wordBytes len) = .ok (wordBytes len ++ p.drop 4) :=
  store_append (d := []) rfl h

/-! ## SysAllocString -/

/-- The number of bytes `SysAllocString` makes room for. -/
def allocLen (s : List WChar) : UInt32 := (UInt32.ofNat s.length + 1) * 4

theorem toNat_allocLen (s : List WChar) : (allocLen s).toNat = 4 * (s.length + 1) % 2 ^ 32 := by
  rw [allocLen, UInt32.toNat_mul, UInt32.toNat_add, UInt32.toNat_ofNat']
  show ((s.length % 2 ^ 32 + 1) % 2 ^ 32) * 4 % 2 ^ 32 = _
  omega

/-- What `SysAllocString` makes: as many bytes as `len` has room for. -/
theorem sysAllocString_eq {m : Malloc} (hroom : m.room = true) {s : List WChar}
    (hlen : s.length < 2 ^ 32) :
    sysAllocString m (some s) =
      .ok (some (wordBytes (UInt32.ofNat s.length * 4) ++
        (bytesOfWords (s ++ [0])).take (allocLen s).toNat)) := by
  have hcb : ((allocLen s).toUInt64 + 4).toNat = (allocLen s).toNat + 4 := by
    have hlt : (allocLen s).toNat < 2 ^ 32 := (allocLen s).toNat_lt
    rw [UInt64.toNat_add, UInt32.toNat_toUInt64]
    show ((allocLen s).toNat + 4) % 2 ^ 64 = _
    omega
  have hlt : (allocLen s).toNat < 2 ^ 32 := (allocLen s).toNat_lt
  obtain ⟨p, halloc, hp⟩ :=
    Malloc.alloc_eq hroom (show ((allocLen s).toUInt64 + 4).toNat < 2 ^ 63 by omega)
  rw [hcb] at hp
  have hdata : ((bytesOfWords (s ++ [0])).take (allocLen s).toNat).length = (allocLen s).toNat := by
    rw [List.length_take, length_bytesOfWords, List.length_append, List.length_singleton]
    have hmod := toNat_allocLen s
    omega
  have hrest : (p.drop 4).length = (allocLen s).toNat := by
    rw [List.length_drop]
    omega
  have hfirst : store p 0 (wordBytes (UInt32.ofNat s.length * 4)) = _ :=
    store_length _ (by omega)
  have hsecond : store (wordBytes (UInt32.ofNat s.length * 4) ++ p.drop 4) 4
      ((bytesOfWords (s ++ [0])).take (allocLen s).toNat) = _ :=
    store_append (length_wordBytes _) (Nat.le_of_eq (hdata.trans hrest.symm))
  have hnone : (p.drop 4).drop
      ((bytesOfWords (s ++ [0])).take (allocLen s).toNat).length = [] := by
    rw [hdata, ← hrest]
    exact List.drop_length
  rw [hnone, List.append_nil] at hsecond
  have hcount : myStringLen s = .ok (UInt32.ofNat s.length) := if_pos hlen
  simp only [sysAllocString, hcount, bind, Except.bind]
  rw [← allocLen, halloc]
  simp only [hfirst, hsecond]

/-- How `SysAllocString` ends. -/
theorem sysAllocString_cases (m : Malloc) (s : List WChar) :
    (2 ^ 32 ≤ s.length ∧ sysAllocString m (some s) = .error .endless) ∨
    (s.length < 2 ^ 32 ∧ m.room = false ∧ sysAllocString m (some s) = .ok none) ∨
    (s.length < 2 ^ 32 ∧ m.room = true ∧ sysAllocString m (some s) =
      .ok (some (wordBytes (UInt32.ofNat s.length * 4) ++
        (bytesOfWords (s ++ [0])).take (allocLen s).toNat))) := by
  by_cases hlen : s.length < 2 ^ 32
  · have hcount : myStringLen s = .ok (UInt32.ofNat s.length) := if_pos hlen
    cases hroom : m.room with
    | true => exact Or.inr (Or.inr ⟨hlen, rfl, sysAllocString_eq hroom hlen⟩)
    | false =>
        refine Or.inr (Or.inl ⟨hlen, rfl, ?_⟩)
        simp only [sysAllocString, hcount, bind, Except.bind]
        rw [Malloc.alloc_noRoom hroom]
  · have hcount : myStringLen s = .error .endless := if_neg hlen
    refine Or.inl ⟨Nat.le_of_not_lt hlen, ?_⟩
    simp only [sysAllocString, hcount, bind, Except.bind]

/-- A string that is short enough gets a block of its own. -/
theorem sysAllocString_isBstr {m : Malloc} (hroom : m.room = true) {s : List WChar}
    (hlen : s.length < 2 ^ 30 - 1) :
    ∃ p, sysAllocString m (some s) = .ok (some p) ∧ IsBstr p (bytesOfWords s) := by
  have hbytes : (bytesOfWords s).length = 4 * s.length := length_bytesOfWords s
  refine ⟨_, sysAllocString_eq hroom (by omega), by omega, 4, ?_, by omega⟩
  have hall : (bytesOfWords (s ++ [0])).take (allocLen s).toNat = bytesOfWords (s ++ [0]) := by
    apply List.take_of_length_le
    rw [length_bytesOfWords, List.length_append, List.length_singleton, toNat_allocLen]
    omega
  have hprefix : UInt32.ofNat s.length * 4 = UInt32.ofNat (bytesOfWords s).length := by
    rw [hbytes, Nat.mul_comm]
    exact (UInt32.ofNat_mul _ _).symm
  rw [hall, hprefix, bytesOfWords_append]
  rfl

/-- In a longer one the length is short of the room it needs, so that the
    block does not hold all of its characters. -/
theorem sysAllocString_cut {m : Malloc} {s : List WChar} {p : Bytes}
    (h : sysAllocString m (some s) = .ok (some p)) (hlen : 2 ^ 30 - 1 ≤ s.length) :
    bstrChars p ≠ s := by
  obtain ⟨-, hcase⟩ | ⟨-, -, hcase⟩ | ⟨hshort, -, hcase⟩ := sysAllocString_cases m s
  · exact absurd (hcase.symm.trans h) (by simp)
  · exact absurd (hcase.symm.trans h) (by simp)
  · have hp := Option.some.inj (Except.ok.inj (hcase.symm.trans h))
    have hmod := toNat_allocLen s
    have hcount : (bstrChars p).length ≤ (allocLen s).toNat / 4 := by
      rw [bstrChars, length_wordsOfBytes, bstrBytes, List.length_take, ← hp, List.length_drop,
        List.length_append, List.length_take, length_wordBytes]
      omega
    intro hsame
    rw [hsame] at hcount
    omega

/-! ## SysAllocStringByteLen -/

/-- What `malloc` is asked for: a number that was an `int` on the way. -/
theorem toNat_realLen (len : UInt32) :
    ((len.toUInt64 + 4 + 4 + 3).toUInt32.toInt32.toInt64.toUInt64).toNat =
      if len.toNat < 2 ^ 31 - 11 then len.toNat + 11
      else if len.toNat < 2 ^ 32 - 11 then len.toNat + 11 + (2 ^ 64 - 2 ^ 32)
      else len.toNat + 11 - 2 ^ 32 := by
  have hlt : len.toNat < 2 ^ 32 := len.toNat_lt
  have hsum : (len.toUInt64 + 4 + 4 + 3).toUInt32.toNat = (len.toNat + 11) % 2 ^ 32 := by
    rw [UInt64.toNat_toUInt32, UInt64.toNat_add, UInt64.toNat_add, UInt64.toNat_add,
      UInt32.toNat_toUInt64]
    show ((((len.toNat + 4) % 2 ^ 64 + 4) % 2 ^ 64 + 3) % 2 ^ 64) % 2 ^ 32 = _
    omega
  rw [toNat_signExtend, hsum]
  split_ifs <;> omega

/-- The stores of `SysAllocStringByteLen` in a block that has room for them. -/
theorem fill_isBstr {p bytes : Bytes} {len : UInt32} (hbytes : bytes.length = len.toNat)
    (hp : p.length = len.toNat + 7) :
    ∃ q, store (wordBytes len ++ (bytes ++ p.drop len.toNat)) (4 + len.toNat)
        (List.replicate 7 0) = .ok q ∧ IsBstr q bytes := by
  have hlt : len.toNat < 2 ^ 32 := len.toNat_lt
  have hpos : (wordBytes len ++ bytes).length = 4 + len.toNat := by
    rw [List.length_append, length_wordBytes, hbytes]
  have hrest : (p.drop len.toNat).length = 7 := by
    rw [List.length_drop]
    omega
  have hfits : (List.replicate 7 (0 : Byte)).length ≤ (p.drop len.toNat).length := by
    rw [List.length_replicate, hrest]
  have hstore := store_append hpos hfits
  have hend : (p.drop len.toNat).drop (List.replicate 7 (0 : Byte)).length = [] := by
    rw [List.length_replicate, ← hrest]
    exact List.drop_length
  rw [hend, List.append_nil, List.append_assoc, List.append_assoc] at hstore
  refine ⟨_, hstore, by omega, 7, ?_, by omega⟩
  rw [hbytes, UInt32.ofNat_toNat]

/-- Bytes get a block of their own, and so does a number of bytes that are not
    given. -/
theorem sysAllocStringByteLen_isBstr {m : Malloc} (hroom : m.room = true) {psz : Option Bytes}
    {len : UInt32} (hpsz : ∀ z, psz = some z → len.toNat ≤ z.length)
    (hlen : len.toNat < 2 ^ 31 - 11) :
    ∃ p bytes, sysAllocStringByteLen m psz len = .ok (some p) ∧ IsBstr p bytes ∧
      bytes.length = len.toNat ∧ ∀ z, psz = some z → bytes = z.take len.toNat := by
  have hreal := toNat_realLen len
  rw [if_pos hlen] at hreal
  obtain ⟨p, halloc, hp⟩ :=
    Malloc.alloc_eq hroom (show
      ((len.toUInt64 + 4 + 4 + 3).toUInt32.toInt32.toInt64.toUInt64).toNat < 2 ^ 63 by omega)
  rw [hreal] at hp
  have hfirst : store p 0 (wordBytes len) = .ok (wordBytes len ++ p.drop 4) :=
    store_length len (by omega)
  have hrest : (p.drop 4).length = len.toNat + 7 := by
    rw [List.length_drop]
    omega
  cases psz with
  | none =>
      have hbytes : ((p.drop 4).take len.toNat).length = len.toNat := by
        rw [List.length_take]
        omega
      obtain ⟨q, hq, hbstr⟩ := fill_isBstr hbytes hrest
      rw [List.take_append_drop] at hq
      refine ⟨q, _, ?_, hbstr, hbytes, fun z hz => absurd hz (by simp)⟩
      simp only [sysAllocStringByteLen, halloc, hfirst, bind, Except.bind, hq]
  | some z =>
      have hz := hpsz z rfl
      have hbytes : (z.take len.toNat).length = len.toNat := by
        rw [List.length_take]
        omega
      have hsecond : store (wordBytes len ++ p.drop 4) 4 (z.take len.toNat) = _ :=
        store_append (length_wordBytes len) (by omega)
      rw [hbytes] at hsecond
      obtain ⟨q, hq, hbstr⟩ := fill_isBstr hbytes hrest
      refine ⟨q, _, ?_, hbstr, hbytes, ?_⟩
      · simp only [sysAllocStringByteLen, halloc, hfirst, bind, Except.bind, hsecond,
          if_neg (Nat.not_lt.mpr hz), hq]
      · intro z' hz'
        rw [Option.some.inj hz']

/-- From `2^31 - 11` bytes on the length turns negative, and there is no such
    block. -/
theorem sysAllocStringByteLen_negative (m : Malloc) (psz : Option Bytes) {len : UInt32}
    (hlow : 2 ^ 31 - 11 ≤ len.toNat) (hhigh : len.toNat < 2 ^ 32 - 11) :
    sysAllocStringByteLen m psz len = .ok none := by
  have hreal := toNat_realLen len
  rw [if_neg (by omega), if_pos hhigh] at hreal
  have hnone : m.alloc (len.toUInt64 + 4 + 4 + 3).toUInt32.toInt32.toInt64.toUInt64 = none :=
    if_neg fun h => absurd h.2 (by omega)
  simp only [sysAllocStringByteLen, hnone]

theorem sysAllocStringByteLen_noRoom {m : Malloc} (hroom : m.room = false) (psz : Option Bytes)
    (len : UInt32) : sysAllocStringByteLen m psz len = .ok none := by
  simp only [sysAllocStringByteLen, Malloc.alloc_noRoom hroom]

/-- From `2^32 - 11` on it turns small, and the block with it. -/
theorem sysAllocStringByteLen_small {m : Malloc} (hroom : m.room = true) {z : Bytes}
    {len : UInt32} (hz : len.toNat ≤ z.length) (hlen : 2 ^ 32 - 11 ≤ len.toNat) :
    sysAllocStringByteLen m (some z) len = .error .store := by
  have hlt : len.toNat < 2 ^ 32 := len.toNat_lt
  have hreal := toNat_realLen len
  rw [if_neg (by omega), if_neg (by omega)] at hreal
  obtain ⟨p, halloc, hp⟩ :=
    Malloc.alloc_eq hroom (show
      ((len.toUInt64 + 4 + 4 + 3).toUInt32.toInt32.toInt64.toUInt64).toNat < 2 ^ 63 by omega)
  rw [hreal] at hp
  by_cases hfour : 4 ≤ p.length
  · have hfirst : store p 0 (wordBytes len) = .ok (wordBytes len ++ p.drop 4) :=
      store_length len hfour
    have hsecond : store (wordBytes len ++ p.drop 4) 4 (z.take len.toNat) = .error .store := by
      apply store_error
      rw [List.length_append, length_wordBytes, List.length_drop, List.length_take]
      omega
    simp only [sysAllocStringByteLen, halloc, hfirst, bind, Except.bind, hsecond,
      if_neg (Nat.not_lt.mpr hz)]
  · have hfirst : store p 0 (wordBytes len) = .error .store := by
      apply store_error
      rw [length_wordBytes]
      omega
    simp only [sysAllocStringByteLen, halloc, hfirst, bind, Except.bind]

/-! ## The format -/

/-- **When a block gives back what it was made of.**  A string comes back from
    `SysAllocString` just when its length and the NUL fit in 32 bits of bytes.
    Bytes come back from `SysAllocStringByteLen` when the length stays a
    positive `int` with what is added to it; from there on it is negative and
    there is no block, until it has come around and the block is too small. -/
theorem bstr_format (junk : Nat → Byte) :
    (∀ s : List WChar,
      (∃ p, sysAllocString ⟨true, junk⟩ (some s) = .ok (some p) ∧
        (sysStringLen p).toNat = s.length ∧ bstrChars p = s ∧ readWide p = some (wcStr s)) ↔
      s.length < 2 ^ 30 - 1) ∧
    (∀ c : Chunk,
      ((∃ p, sysAllocStringByteLen ⟨true, junk⟩ (some c.data) c.size = .ok (some p) ∧
          (sysStringByteLen p).toNat = c.data.length ∧ bstrBytes p = c.data ∧
          (readWide p).isSome) ↔
        c.data.length < 2 ^ 31 - 11) ∧
      (sysAllocStringByteLen ⟨true, junk⟩ (some c.data) c.size = .ok none ↔
        2 ^ 31 - 11 ≤ c.data.length ∧ c.data.length < 2 ^ 32 - 11) ∧
      (sysAllocStringByteLen ⟨true, junk⟩ (some c.data) c.size = .error .store ↔
        2 ^ 32 - 11 ≤ c.data.length)) := by
  have hroom : (⟨true, junk⟩ : Malloc).room = true := rfl
  refine ⟨?_, ?_⟩
  · intro s
    refine ⟨?_, ?_⟩
    · rintro ⟨p, hp, -, hchars, -⟩
      by_contra hlong
      exact sysAllocString_cut hp (Nat.le_of_not_lt hlong) hchars
    · intro hlen
      obtain ⟨p, hp, hbstr⟩ := sysAllocString_isBstr hroom hlen
      exact ⟨p, hp, hbstr.stringLen, hbstr.chars_eq, hbstr.readWide_eq⟩
  · intro c
    have hsize : c.size.toNat = c.data.length := UInt32.toNat_ofNat_of_lt' c.size_lt
    -- one of three things happens, and none of the others
    rcases Nat.lt_or_ge c.data.length (2 ^ 31 - 11) with hshort | hlong
    · have hall : ∀ z, some c.data = some z → c.size.toNat ≤ z.length :=
        fun z hz => Option.some.inj hz ▸ Nat.le_of_eq hsize
      obtain ⟨p, bytes, hp, hbstr, hbytes, htake⟩ :=
        sysAllocStringByteLen_isBstr hroom hall (hsize ▸ hshort)
      obtain rfl : bytes = c.data := by
        rw [htake c.data rfl, hsize, List.take_length]
      rw [hp]
      refine ⟨iff_of_true ⟨p, rfl, hbstr.byteLen, hbstr.bytes_eq, hbstr.readWide_isSome⟩ hshort,
        iff_of_false (by simp) (by omega), iff_of_false (by simp) (by omega)⟩
    rcases Nat.lt_or_ge c.data.length (2 ^ 32 - 11) with hnegative | hsmall
    · rw [sysAllocStringByteLen_negative _ _ (hsize ▸ hlong) (hsize ▸ hnegative)]
      exact ⟨iff_of_false (by simp) (by omega), iff_of_true rfl ⟨hlong, hnegative⟩,
        iff_of_false (by simp) (by omega)⟩
    · rw [sysAllocStringByteLen_small hroom (Nat.le_of_eq hsize) (hsize ▸ hsmall)]
      exact ⟨iff_of_false (by simp) (by omega), iff_of_false (by simp) (by omega),
        iff_of_true rfl hsmall⟩

end Fuse7z
