/-
  Fuse7z.ArchiveItem

  What lib7zip makes of the properties a format handler answers with:
  `7ZipArchiveItem.cpp`, and the getters of `7ZipArchive.cpp` that do the same
  for the archive as a whole.

  A getter knows some of lib7zip's properties, each under its number in
  p7zip, and takes the handler's answer when it has the type the getter is
  for.  The item and the archive share the getters; only `kpidIsDir` is asked
  for in another way.
-/
import Fuse7z.HelperFuncs
import Fuse7z.Lib7zip

namespace Fuse7z

open Lib

/-! ## Properties -/

/-- `lib7zip::PropertyIndexEnum` -/
inductive PropertyIndex where
  | kpidPackSize | kpidAttrib | kpidCTime | kpidATime | kpidMTime | kpidSolid | kpidEncrypted
  | kpidUser | kpidGroup | kpidComment | kpidPhySize | kpidHeadersSize | kpidChecksum
  | kpidCharacts | kpidCreatorApp | kpidTotalSize | kpidFreeSpace | kpidClusterSize
  | kpidVolumeName | kpidPath | kpidIsDir | kpidSize
deriving DecidableEq, Repr

/-- `kpidPath` of p7zip. -/
def kpidPath : PropId := 3

/-- `kpidSize` of p7zip. -/
def kpidSize : PropId := 7

/-- `kpidEncrypted` of p7zip. -/
def kpidEncrypted : PropId := 15

/-- The switch of `GetUInt64Property`. -/
def uint64Index : PropertyIndex → Option PropId
  | .kpidSize => some kpidSize
  | .kpidPackSize => some 8
  | .kpidAttrib => some 9
  | .kpidPhySize => some 44
  | .kpidHeadersSize => some 45
  | .kpidChecksum => some 46
  | .kpidTotalSize => some 0x1100
  | .kpidFreeSpace => some 0x1101
  | .kpidClusterSize => some 0x1102
  | _ => none

/-- The switch of `GetBoolProperty`, but for `kpidIsDir`. -/
def boolIndex : PropertyIndex → Option PropId
  | .kpidSolid => some 13
  | .kpidEncrypted => some kpidEncrypted
  | _ => none

/-- The switch of `GetStringProperty`. -/
def stringIndex : PropertyIndex → Option PropId
  | .kpidComment => some 28
  | .kpidCharacts => some 47
  | .kpidCreatorApp => some 51
  | .kpidVolumeName => some 0x1103
  | .kpidPath => some kpidPath
  | .kpidUser => some 25
  | .kpidGroup => some 26
  | _ => none

/-- The switch of `GetFileTimeProperty`. -/
def fileTimeIndex : PropertyIndex → Option PropId
  | .kpidCTime => some 10
  | .kpidATime => some 11
  | .kpidMTime => some 12
  | _ => none

/-! ## Values -/

/-- `prop.vt == VT_UI8 || prop.vt == VT_UI4`, and then the conversion. -/
def readUInt64 : PropVariant → Except Nat (Option UInt64)
  | .ui8 uhVal => (convertPropVariantToUInt64 (.ui8 uhVal)).map some
  | .ui4 ulVal => (convertPropVariantToUInt64 (.ui4 ulVal)).map some
  | _ => .ok none

/-- `prop.vt == VT_BOOL`; the value taken is `prop.bVal`, the low byte. -/
def readBool : PropVariant → Except Nat (Option Bool)
  | .bool boolVal => .ok (some (boolVal.toUInt8 != 0))
  | _ => .ok none

/-- `prop.vt == VT_BSTR` -/
def readString : PropVariant → Except Nat (Option (List WChar))
  | .bstr bstrVal => .ok (some (wcStr bstrVal))
  | _ => .ok none

/-- `prop.vt == VT_FILETIME`; the two halves are moved as they lie. -/
def readFileTime : PropVariant → Except Nat (Option UInt64)
  | .filetime dwLowDateTime dwHighDateTime =>
      .ok (some (dwLowDateTime.toUInt64 ||| dwHighDateTime.toUInt64 <<< 32))
  | _ => .ok none

/-- What the getters have in common.  `none` is false, with the output argument
    left as it was; an error is one of `ConvertPropVariantToUInt64`. -/
def getTyped {α : Type} (switch : PropertyIndex → Option PropId)
    (read : PropVariant → Except Nat (Option α)) (getProperty : GetHandlerProperty)
    (propertyIndex : PropertyIndex) : Except Nat (Option α) :=
  match switch propertyIndex with
  | none => .ok none
  | some p7zipIndex =>
      match getProperty p7zipIndex with
      | none => .ok none
      | some prop => read prop

section Getters

-- the properties of one item, or of the archive
variable (getProperty : GetHandlerProperty)

/-- `GetUInt64Property` of `C7ZipArchiveItemImpl` and `C7ZipArchiveImpl`. -/
def getUInt64Property : PropertyIndex → Except Nat (Option UInt64) :=
  getTyped uint64Index readUInt64 getProperty

/-- `GetStringProperty` of both. -/
def getStringProperty : PropertyIndex → Except Nat (Option (List WChar)) :=
  getTyped stringIndex readString getProperty

/-- `GetFileTimeProperty` of both. -/
def getFileTimeProperty : PropertyIndex → Except Nat (Option UInt64) :=
  getTyped fileTimeIndex readFileTime getProperty

/-- `C7ZipArchiveImpl::GetBoolProperty` -/
def archiveBoolProperty : PropertyIndex → Except Nat (Option Bool) :=
  getTyped boolIndex readBool getProperty

/-- `C7ZipArchiveItemImpl::GetBoolProperty` -/
def itemBoolProperty : PropertyIndex → Except Nat (Option Bool)
  | .kpidIsDir => .ok (isArchiveItemFolder getProperty)
  | propertyIndex => getTyped boolIndex readBool getProperty propertyIndex

/-! ## The item -/

/-- `kEmptyFileAlias`, `L"[Content]"` -/
def kEmptyFileAlias : List WChar := [91, 67, 111, 110, 116, 101, 110, 116, 93]

/-- `C7ZipArchiveItemImpl::GetFullPath` -/
def ArchiveItem.getFullPath : List WChar :=
  match getProperty kpidPath with
  | some (.bstr bstrVal) => wcStr bstrVal
  | _ => kEmptyFileAlias

/-- `C7ZipArchiveItemImpl::GetSize` -/
def ArchiveItem.getSize : Except Nat UInt64 :=
  match getProperty kpidSize with
  | none => .ok 0
  | some prop => (readUInt64 prop).map fun size => size.getD 0

/-- `C7ZipArchiveItemImpl::IsEncrypted` -/
def ArchiveItem.isEncrypted : Bool :=
  match getProperty kpidEncrypted with
  | some (.bool boolVal) => boolVal.toUInt8 != 0
  | _ => false

/-- `C7ZipArchiveItemImpl::IsDir`; without an S_OK the local keeps its false. -/
def ArchiveItem.isDir : Bool := (isArchiveItemFolder getProperty).getD false

/-- What the constructor reads of an item, in its order. -/
def ArchiveItem.readItem : Except Nat Item := do
  let size ← getUInt64Property getProperty .kpidSize
  let aTime ← getFileTimeProperty getProperty .kpidATime
  let cTime ← getFileTimeProperty getProperty .kpidCTime
  let mTime ← getFileTimeProperty getProperty .kpidMTime
  return {
    fullPath := ArchiveItem.getFullPath getProperty
    isDir := ArchiveItem.isDir getProperty
    size, aTime, cTime, mTime }

end Getters

/-! ## No getter throws -/

/-- The number a property value counts as. -/
def PropVariant.uint64? : PropVariant → Option UInt64
  | .ui8 uhVal => some uhVal
  | .ui4 ulVal => some ulVal.toUInt64
  | _ => none

/-- The truth value it counts as. -/
def PropVariant.bool? : PropVariant → Option Bool
  | .bool boolVal => some (boolVal.toUInt8 != 0)
  | _ => none

/-- The string it counts as. -/
def PropVariant.string? : PropVariant → Option (List WChar)
  | .bstr bstrVal => some (wcStr bstrVal)
  | _ => none

/-- The time it counts as. -/
def PropVariant.fileTime? : PropVariant → Option UInt64
  | .filetime dwLowDateTime dwHighDateTime =>
      some (dwLowDateTime.toUInt64 ||| dwHighDateTime.toUInt64 <<< 32)
  | _ => none

theorem readUInt64_eq (prop : PropVariant) : readUInt64 prop = .ok prop.uint64? := by
  cases prop with
  | ui8 uhVal => rfl
  | ui4 ulVal => rfl
  | _ => rfl

theorem readBool_eq (prop : PropVariant) : readBool prop = .ok prop.bool? := by
  cases prop with
  | bool boolVal => rfl
  | _ => rfl

theorem readString_eq (prop : PropVariant) : readString prop = .ok prop.string? := by
  cases prop with
  | bstr bstrVal => rfl
  | _ => rfl

theorem readFileTime_eq (prop : PropVariant) : readFileTime prop = .ok prop.fileTime? := by
  cases prop with
  | filetime dwLowDateTime dwHighDateTime => rfl
  | _ => rfl

/-- A getter whose conversion does not throw does not throw. -/
theorem getTyped_eq {α : Type} {switch : PropertyIndex → Option PropId}
    {read : PropVariant → Except Nat (Option α)} {value : PropVariant → Option α}
    (hread : ∀ prop, read prop = .ok (value prop)) (getProperty : GetHandlerProperty)
    (propertyIndex : PropertyIndex) :
    getTyped switch read getProperty propertyIndex =
      .ok (((switch propertyIndex).bind getProperty).bind value) := by
  rw [getTyped]
  cases switch propertyIndex with
  | none => rfl
  | some p7zipIndex =>
      show (match getProperty p7zipIndex with | none => _ | some prop => _) = _
      rw [Option.bind_some]
      cases getProperty p7zipIndex with
      | none => rfl
      | some prop => exact hread prop

/-! ## Getters and accessors -/

/-- A getter returned true. -/
def returned {α : Type} : Except Nat (Option α) → Bool
  | .ok (some _) => true
  | _ => false

section Getters

variable (getProperty : GetHandlerProperty)

theorem getUInt64Property_eq (propertyIndex : PropertyIndex) :
    getUInt64Property getProperty propertyIndex =
      .ok (((uint64Index propertyIndex).bind getProperty).bind PropVariant.uint64?) :=
  getTyped_eq readUInt64_eq getProperty propertyIndex

theorem getFileTimeProperty_eq (propertyIndex : PropertyIndex) :
    getFileTimeProperty getProperty propertyIndex =
      .ok (((fileTimeIndex propertyIndex).bind getProperty).bind PropVariant.fileTime?) :=
  getTyped_eq readFileTime_eq getProperty propertyIndex

theorem getStringProperty_eq (propertyIndex : PropertyIndex) :
    getStringProperty getProperty propertyIndex =
      .ok (((stringIndex propertyIndex).bind getProperty).bind PropVariant.string?) :=
  getTyped_eq readString_eq getProperty propertyIndex

theorem itemBoolProperty_eq {propertyIndex : PropertyIndex} (h : propertyIndex ≠ .kpidIsDir) :
    itemBoolProperty getProperty propertyIndex =
      .ok (((boolIndex propertyIndex).bind getProperty).bind PropVariant.bool?) := by
  have hgetter : itemBoolProperty getProperty propertyIndex =
      getTyped boolIndex readBool getProperty propertyIndex := by
    cases propertyIndex with
    | kpidIsDir => exact absurd rfl h
    | _ => rfl
  rw [hgetter]
  exact getTyped_eq readBool_eq getProperty propertyIndex

/-- The archive has the getters of an item, but does not know `kpidIsDir`. -/
theorem archiveBoolProperty_eq (propertyIndex : PropertyIndex) :
    archiveBoolProperty getProperty propertyIndex =
      if propertyIndex = .kpidIsDir then .ok none
      else itemBoolProperty getProperty propertyIndex := by
  split_ifs with hdir
  · rw [hdir]
    rfl
  · rw [itemBoolProperty_eq getProperty hdir]
    exact getTyped_eq readBool_eq getProperty propertyIndex

/-- Every property is known to one getter. -/
theorem one_switch (propertyIndex : PropertyIndex) :
    (uint64Index propertyIndex).isSome.toNat +
      ((boolIndex propertyIndex).isSome || propertyIndex == .kpidIsDir).toNat +
      (stringIndex propertyIndex).isSome.toNat + (fileTimeIndex propertyIndex).isSome.toNat = 1 := by
  cases propertyIndex with
  | _ => rfl

/-- A getter that returns true knows the property. -/
theorem returned_le {α : Type} (switch : Option PropId) (value : PropVariant → Option α) :
    (returned (.ok ((switch.bind getProperty).bind value))).toNat ≤ switch.isSome.toNat := by
  cases switch with
  | none => exact Nat.le_refl 0
  | some p7zipIndex => exact Bool.toNat_le _

theorem returned_bool_le (propertyIndex : PropertyIndex) :
    (returned (itemBoolProperty getProperty propertyIndex)).toNat ≤
      ((boolIndex propertyIndex).isSome || propertyIndex == .kpidIsDir).toNat := by
  by_cases hdir : propertyIndex = .kpidIsDir
  · rw [hdir]
    exact Bool.toNat_le _
  · rw [itemBoolProperty_eq getProperty hdir, beq_false_of_ne hdir, Bool.or_false]
    exact returned_le getProperty _ _

/-- **The getters of an item.**  A property is returned by one of them at
    most, whatever the handler answers; none of them throws; and the accessors
    without a property index return what the getters do, or their default. -/
theorem item_getters :
    (∀ propertyIndex,
      (returned (getUInt64Property getProperty propertyIndex)).toNat +
        (returned (itemBoolProperty getProperty propertyIndex)).toNat +
        (returned (getStringProperty getProperty propertyIndex)).toNat +
        (returned (getFileTimeProperty getProperty propertyIndex)).toNat ≤ 1) ∧
    (∀ propertyIndex n, getUInt64Property getProperty propertyIndex ≠ .error n) ∧
    ArchiveItem.getSize getProperty =
      (getUInt64Property getProperty .kpidSize).map (·.getD 0) ∧
    .ok (ArchiveItem.isEncrypted getProperty) =
      (itemBoolProperty getProperty .kpidEncrypted).map (·.getD false) ∧
    .ok (ArchiveItem.isDir getProperty) =
      (itemBoolProperty getProperty .kpidIsDir).map (·.getD false) ∧
    .ok (ArchiveItem.getFullPath getProperty) =
      (getStringProperty getProperty .kpidPath).map (·.getD kEmptyFileAlias) := by
  refine ⟨?_, ?_, ?_, ?_, rfl, ?_⟩
  · intro propertyIndex
    have huint := returned_le getProperty (uint64Index propertyIndex) PropVariant.uint64?
    have hbool := returned_bool_le getProperty propertyIndex
    have hstring := returned_le getProperty (stringIndex propertyIndex) PropVariant.string?
    have htime := returned_le getProperty (fileTimeIndex propertyIndex) PropVariant.fileTime?
    have hone := one_switch propertyIndex
    rw [← getUInt64Property_eq] at huint
    rw [← getStringProperty_eq] at hstring
    rw [← getFileTimeProperty_eq] at htime
    omega
  · intro propertyIndex n h
    rw [getUInt64Property_eq] at h
    exact absurd h (by simp)
  · rw [getUInt64Property_eq, ArchiveItem.getSize]
    show _ = Except.ok (((getProperty kpidSize).bind PropVariant.uint64?).getD 0)
    cases getProperty kpidSize with
    | none => rfl
    | some prop =>
        show (readUInt64 prop).map _ = _
        rw [readUInt64_eq]
        rfl
  · rw [itemBoolProperty_eq getProperty (by decide), ArchiveItem.isEncrypted]
    show _ = Except.ok (((getProperty kpidEncrypted).bind PropVariant.bool?).getD false)
    cases getProperty kpidEncrypted with
    | none => rfl
    | some prop =>
        cases prop with
        | bool boolVal => rfl
        | _ => rfl
  · rw [getStringProperty_eq, ArchiveItem.getFullPath]
    show _ = Except.ok (((getProperty kpidPath).bind PropVariant.string?).getD kEmptyFileAlias)
    cases getProperty kpidPath with
    | none => rfl
    | some prop =>
        cases prop with
        | bstr bstrVal => rfl
        | _ => rfl

end Getters

end Fuse7z
