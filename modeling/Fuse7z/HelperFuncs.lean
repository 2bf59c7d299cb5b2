/-
  Fuse7z.HelperFuncs

  How lib7zip reads the properties a format handler answers with, and the
  strings it makes of them: `HelperFuncs.cpp`.

  A handler's function that returns anything but S_OK is `none`; which code it
  was is never looked at.  A property is read through a `res` argument that an
  empty property leaves as it was, so that argument is passed in.
-/
import Fuse7z.Extension
import Fuse7z.Lib.Words

namespace Fuse7z

open Lib

/-! ## Property values -/

abbrev PropId := UInt32

/-- `PROPVARIANT`, by its `vt`; a `BSTR` with the characters its length
    counts.  One that is NULL, or shorter than the `GUID` that is read from it,
    is not represented. -/
inductive PropVariant where
  | empty
  | bstr (bstrVal : List WChar)
  | bool (boolVal : UInt16)
  | ui1 (bVal : UInt8)
  | ui2 (uiVal : UInt16)
  | ui4 (ulVal : UInt32)
  | ui8 (uhVal : UInt64)
  | filetime (dwLowDateTime dwHighDateTime : UInt32)
  | other (vt : UInt16)
deriving DecidableEq, Repr

/-- `VARIANT_BOOLToBool` -/
def variantBoolToBool (v : UInt16) : Bool := v != 0

/-- A `GUID`, by the words of memory it takes; one that is read from a string
    has as many of them as the string. -/
abbrev Guid := List WChar

/-- `*(const GUID *)prop.bstrVal` -/
def guidOf (bstrVal : List WChar) : Guid := bstrVal.take 4

/-- `ConvertPropVariantToUInt64`; the error is what it throws. -/
def convertPropVariantToUInt64 : PropVariant → Except Nat UInt64
  | .ui1 bVal => .ok bVal.toUInt64
  | .ui2 uiVal => .ok uiVal.toUInt64
  | .ui4 ulVal => .ok ulVal.toUInt64
  | .ui8 uhVal => .ok uhVal
  | _ => .error 151199

/-! ## Properties of a library -/

/-- `GetHandlerProperty` -/
abbrev GetHandlerProperty := PropId → Option PropVariant

/-- `GetHandlerProperty2` and `GetMethodProperty`, which have an index more. -/
abbrev GetHandlerProperty2 := UInt32 → PropId → Option PropVariant

/-- `ReadProp`.  Its callers have made sure that one of the two is there. -/
def readProp (getProp : Option GetHandlerProperty) (getProp2 : Option GetHandlerProperty2)
    (index : UInt32) (propID : PropId) : Option PropVariant :=
  match getProp2 with
  | some get => get index propID
  | none => getProp.bind fun get => get propID

/-- `ReadBoolProp` -/
def readBoolProp (getProp : Option GetHandlerProperty) (getProp2 : Option GetHandlerProperty2)
    (index : UInt32) (propID : PropId) (res : Bool) : Option Bool :=
  match readProp getProp getProp2 index propID with
  | some (.bool boolVal) => some (variantBoolToBool boolVal)
  | some .empty => some res
  | _ => none

/-- `ReadStringProp` -/
def readStringProp (getProp : Option GetHandlerProperty) (getProp2 : Option GetHandlerProperty2)
    (index : UInt32) (propID : PropId) (res : List WChar) : Option (List WChar) :=
  match readProp getProp getProp2 index propID with
  | some (.bstr bstrVal) => some (wcStr bstrVal)
  | some .empty => some res
  | _ => none

/-- `GetCoderClass`; `some none` is S_OK with `isAssigned` false. -/
def getCoderClass (getMethodProperty : GetHandlerProperty2) (index : UInt32) (propID : PropId) :
    Option (Option Guid) :=
  match getMethodProperty index propID with
  | some (.bstr bstrVal) => some (some (guidOf bstrVal))
  | some .empty => some none
  | _ => none

/-! ## Properties of an item -/

/-- `IsArchiveItemProp`, for the item `getProperty` is about. -/
def isArchiveItemProp (getProperty : GetHandlerProperty) (propID : PropId) : Option Bool :=
  match getProperty propID with
  | some (.bool boolVal) => some (variantBoolToBool boolVal)
  | some .empty => some false
  | _ => none

/-- `kpidIsDir` of p7zip. -/
def kpidIsDir : PropId := 6

/-- `IsArchiveItemFolder` -/
def isArchiveItemFolder (getProperty : GetHandlerProperty) : Option Bool :=
  isArchiveItemProp getProperty kpidIsDir

/-! ## SplitString -/

/-- `L' '` -/
def wspace : WChar := 32

/-- The loop of `SplitString`: `s` is the piece collected so far. -/
def splitLoop : List WChar → List WChar → List (List WChar) → List (List WChar)
  | [], s, destStrings => if !s.isEmpty then destStrings ++ [s] else destStrings
  | c :: cs, s, destStrings =>
      if c = wspace then
        if !s.isEmpty then splitLoop cs [] (destStrings ++ [s]) else splitLoop cs s destStrings
      else splitLoop cs (s ++ [c]) destStrings

/-- `SplitString` -/
def splitString (srcString : List WChar) : List (List WChar) :=
  if srcString.length = 0 then [] else splitLoop srcString [] []

/-- The loop adds the words of what it collected and what is left. -/
theorem splitLoop_eq (cs : List WChar) {s : List WChar} (hs : wspace ∉ s)
    (destStrings : List (List WChar)) :
    splitLoop cs s destStrings = destStrings ++ words wspace (s ++ cs) := by
  induction cs generalizing s destStrings with
  | nil =>
      rw [splitLoop, List.append_nil, words_of_not_mem hs, word]
      cases s.isEmpty with
      | true => simp
      | false => simp
  | cons c cs ih =>
      rw [splitLoop]
      by_cases hc : c = wspace
      · -- a piece ends here
        rw [if_pos hc, hc, words_append_cons hs, word]
        cases s with
        | nil => simp [ih List.not_mem_nil]
        | cons d s => simp [ih List.not_mem_nil]
      · have hs' : wspace ∉ s ++ [c] := by
          simp [hs, Ne.symm hc]
        rw [if_neg hc, ih hs', List.append_assoc, List.singleton_append]

/-- **`SplitString` finds the words.** -/
theorem splitString_eq (srcString : List WChar) :
    splitString srcString = words wspace srcString := by
  rw [splitString]
  split_ifs with hlen
  · rw [List.eq_nil_of_length_eq_zero hlen]
    rfl
  · rw [splitLoop_eq srcString List.not_mem_nil]
    rfl

/-! ## Comparing without case -/

/-- `MyCharUpper`, which is `toupper` of the GNU C library in the C locale.  It
    takes a negative `char`, but for -1, as the byte it is: -128 to -2 become
    128 to 254.  Other characters than those and a to z stay as they are. -/
def myCharUpper (c : WChar) : WChar :=
  if 97 ≤ c ∧ c ≤ 122 then c - 32
  else if 0xFFFFFF80 ≤ c ∧ c ≤ 0xFFFFFFFE then c + 256
  else c

/-- One turn of `MyStringCompareNoCase`; a `wchar_t` is signed. -/
def compareUpper (c1 c2 : WChar) : Int :=
  if (myCharUpper c1).toInt32 < (myCharUpper c2).toInt32 then -1
  else if (myCharUpper c2).toInt32 < (myCharUpper c1).toInt32 then 1
  else 0

/-- `MyStringCompareNoCase`, on strings in front of their NUL. -/
def myStringCompareNoCase : List WChar → List WChar → Int
  | [], [] => 0
  | [], c2 :: _ => compareUpper 0 c2
  | c1 :: _, [] => compareUpper c1 0
  | c1 :: s1, c2 :: s2 =>
      if c1 ≠ c2 ∧ compareUpper c1 c2 ≠ 0 then compareUpper c1 c2
      else myStringCompareNoCase s1 s2

theorem compareUpper_eq_zero_iff {c1 c2 : WChar} :
    compareUpper c1 c2 = 0 ↔ myCharUpper c1 = myCharUpper c2 := by
  rw [compareUpper]
  refine ⟨?_, ?_⟩
  · intro h
    split_ifs at h with h1 h2
    · exact absurd h (by decide)
    · have heq := Int32.le_antisymm (Int32.not_lt.mp h2) (Int32.not_lt.mp h1)
      have hback := congrArg Int32.toUInt32 heq
      rwa [UInt32.toUInt32_toInt32, UInt32.toUInt32_toInt32] at hback
  · intro h
    have hno : ¬ (myCharUpper c2).toInt32 < (myCharUpper c2).toInt32 := Int32.lt_irrefl
    rw [h, if_neg hno, if_neg hno]

/-- Only the NUL becomes one. -/
theorem myCharUpper_eq_zero_iff {c : WChar} : myCharUpper c = myCharUpper 0 ↔ c = 0 := by
  have hzero : myCharUpper 0 = 0 := by decide
  rw [hzero, myCharUpper]
  split_ifs with hlower hnegative
  · -- a lower-case letter becomes an upper-case one
    obtain ⟨hlo, hhi⟩ := hlower
    have hne : c ≠ 0 := by
      rintro rfl
      exact absurd hlo (by decide)
    have hsub : c - 32 ≠ 0 := by
      intro h
      have hc : c = 32 := by
        have hback := congrArg (· + 32) h
        simpa using hback
      rw [hc] at hlo
      exact absurd hlo (by decide)
    exact iff_of_false hsub hne
  · -- a negative `char` becomes a byte from 128 on
    obtain ⟨hlo, -⟩ := hnegative
    have hne : c ≠ 0 := by
      rintro rfl
      exact absurd hlo (by decide)
    have hadd : c + 256 ≠ 0 := by
      intro h
      have hc : c = -256 := by
        have hback := congrArg (· - 256) h
        simpa using hback
      rw [hc] at hlo
      exact absurd hlo (by decide)
    exact iff_of_false hadd hne
  · exact Iff.rfl

/-- **Two strings compare equal** just when they are in upper case. -/
theorem myStringCompareNoCase_eq_zero_iff {s1 s2 : List WChar} (h1 : 0 ∉ s1) (h2 : 0 ∉ s2) :
    myStringCompareNoCase s1 s2 = 0 ↔ s1.map myCharUpper = s2.map myCharUpper := by
  induction s1 generalizing s2 with
  | nil =>
      cases s2 with
      | nil => exact iff_of_true rfl rfl
      | cons c2 s2 =>
          -- the end of the first string is compared with a character
          have hc2 : c2 ≠ 0 := fun h => h2 (h ▸ List.mem_cons_self)
          rw [myStringCompareNoCase, compareUpper_eq_zero_iff, eq_comm, myCharUpper_eq_zero_iff]
          exact iff_of_false hc2 (by simp)
  | cons c1 s1 ih =>
      cases s2 with
      | nil =>
          have hc1 : c1 ≠ 0 := fun h => h1 (h ▸ List.mem_cons_self)
          rw [myStringCompareNoCase, compareUpper_eq_zero_iff, myCharUpper_eq_zero_iff]
          exact iff_of_false hc1 (by simp)
      | cons c2 s2 =>
          have hrest := ih (fun h => h1 (List.mem_cons_of_mem c1 h))
            (fun h => h2 (List.mem_cons_of_mem c2 h))
          rw [myStringCompareNoCase, List.map_cons, List.map_cons, List.cons.injEq,
            ← compareUpper_eq_zero_iff]
          by_cases hdiff : compareUpper c1 c2 = 0
          · rw [if_neg fun h => h.2 hdiff, hrest, and_iff_right hdiff]
          · have hne : c1 ≠ c2 := by
              rintro rfl
              exact hdiff (compareUpper_eq_zero_iff.mpr rfl)
            rw [if_pos ⟨hne, hdiff⟩]
            exact iff_of_false hdiff fun h => hdiff h.1

end Fuse7z
