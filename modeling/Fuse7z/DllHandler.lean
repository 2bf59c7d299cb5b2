/-
  Fuse7z.DllHandler

  One library of format handlers, `7z.so` or a plugin: `C7ZipDllHandler` and
  the loaders of `7zipLibrary.cpp`.

  A library is what `dlsym` finds in it.  Its formats are listed once, when it
  is loaded; an archive is then opened with the first format that lists the
  extension of its name, in any case, and with no other format of that library
  (`DllHandler.openArchive_cases`).

  The stream that is opened is a parameter: a handler may leave it in another
  state, also when it does not open it.
-/
import Fuse7z.ArchiveImpl

namespace Fuse7z

open Lib

variable {σ : Type}

/-! ## What a library exports -/

/-- An `IInArchive` that is not open yet. -/
structure FormatHandler (σ : Type) where
  /-- whether it has an `ISetCompressCodecsInfo`, and whether that is content -/
  setCompressCodecsInfo : Option Bool
  /-- `Open` -/
  openStream : σ → Option InArchive × σ

/-- `U7ZipFunctions`; a symbol that is not there is `none`.  A number is `none`
    when its function does not return S_OK, and so is an object; an object can
    also be missing after an S_OK. -/
structure Functions (σ : Type) where
  getMethodProperty : Option GetHandlerProperty2
  getNumberOfMethods : Option (Option UInt32)
  getNumberOfFormats : Option (Option UInt32)
  getHandlerProperty : Option GetHandlerProperty
  getHandlerProperty2 : Option GetHandlerProperty2
  createObject : Option (Guid → Option (Option (FormatHandler σ)))

/-- `IsValid` -/
def Functions.isValid (functions : Functions σ) : Bool :=
  functions.getMethodProperty.isSome && functions.getNumberOfMethods.isSome &&
    functions.createObject.isSome

/-! ## Formats -/

namespace NArchive

def kName : PropId := 0
def kClassID : PropId := 1
def kExtension : PropId := 2
def kAddExtension : PropId := 3
def kUpdate : PropId := 4
def kKeepName : PropId := 5

end NArchive

/-- `C7ZipFormatInfo` -/
structure FormatInfo where
  name : List WChar
  classID : Guid
  updateEnabled : Bool
  keepName : Bool
  exts : List (List WChar)
  addExts : List (List WChar)
  formatIndex : UInt32
deriving DecidableEq, Repr

/-- The class a property value names, when it is a `VT_BSTR`. -/
def PropVariant.guid? : PropVariant → Option Guid
  | .bstr bstrVal => some (guidOf bstrVal)
  | _ => none

/-- One turn of `LoadFormats`; `none` is a `continue`. -/
def loadFormat (functions : Functions σ) (i : UInt32) : Option FormatInfo := do
  let stringProp := fun propID =>
    readStringProp functions.getHandlerProperty functions.getHandlerProperty2 i propID []
  let boolProp := fun propID =>
    readBoolProp functions.getHandlerProperty functions.getHandlerProperty2 i propID false
  let name ← stringProp NArchive.kName
  let classID ← (readProp functions.getHandlerProperty functions.getHandlerProperty2 i
    NArchive.kClassID).bind PropVariant.guid?
  let ext ← stringProp NArchive.kExtension
  let addExt ← stringProp NArchive.kAddExtension
  -- these two are not looked at when they fail
  let updateEnabled := (boolProp NArchive.kUpdate).getD false
  let keepName := if updateEnabled then (boolProp NArchive.kKeepName).getD false else false
  return {
    name, classID, updateEnabled, keepName
    exts := splitString ext
    addExts := splitString addExt
    formatIndex := i }

/-- `numFormats` of `LoadFormats`; without `GetHandlerProperty2` there is one
    format, however many are reported. -/
def numberOfFormats (functions : Functions σ) : Option UInt32 :=
  match functions.getNumberOfFormats with
  | none => some 1
  | some none => none
  | some (some numFormats) => some (if functions.getHandlerProperty2.isNone then 1 else numFormats)

/-- `LoadFormats`; `none` is false. -/
def loadFormats (functions : Functions σ) : Option (List FormatInfo) :=
  if functions.getHandlerProperty.isNone && functions.getHandlerProperty2.isNone then none
  else
    (numberOfFormats functions).map fun numFormats =>
      (List.range numFormats.toNat).filterMap fun i => loadFormat functions (UInt32.ofNat i)

/-! ## Codecs -/

namespace NMethodPropID

def kDecoder : PropId := 2
def kEncoder : PropId := 3
def kDecoderIsAssigned : PropId := 7
def kEncoderIsAssigned : PropId := 8

end NMethodPropID

/-- `C7ZipCodecInfo`; a coder that is not assigned is `none`. -/
structure CodecInfo (σ : Type) where
  encoder : Option Guid
  decoder : Option Guid
  codecIndex : UInt32
  functions : Functions σ

/-- `LoadCodecs`; `none` is false.  It is called for valid functions only. -/
def loadCodecs (functions : Functions σ) : Option (List (CodecInfo σ)) :=
  match functions.createObject, functions.getMethodProperty, functions.getNumberOfMethods with
  | some _, some getMethodProperty, some (some numMethods) =>
      some <| (List.range numMethods.toNat).filterMap fun i => do
        let encoder ← getCoderClass getMethodProperty (UInt32.ofNat i) NMethodPropID.kEncoder
        let decoder ← getCoderClass getMethodProperty (UInt32.ofNat i) NMethodPropID.kDecoder
        return { encoder, decoder, codecIndex := UInt32.ofNat i, functions }
  | _, _, _ => none

/-! ## The handler -/

/-- `C7ZipDllHandler`.  `pHandler` is the handle `dlopen` returned. -/
structure DllHandler (σ : Type) where
  pHandler : Nat
  functions : Functions σ
  codecInfos : List (CodecInfo σ)
  formatInfos : List FormatInfo
  initialized : Bool

namespace DllHandler

/-- The constructor, with `Initialize`. -/
def new (pHandler : Nat) (functions : Functions σ) : DllHandler σ :=
  if functions.isValid then
    let codecs := loadCodecs functions
    let formats := loadFormats functions
    { pHandler, functions
      codecInfos := codecs.getD []
      formatInfos := formats.getD []
      initialized := codecs.isSome || formats.isSome }
  else
    { pHandler, functions, codecInfos := [], formatInfos := [], initialized := false }

/-- `C7ZipDllHandler::GetSupportedExts`, which adds to `exts`. -/
def getSupportedExts (handler : DllHandler σ) (exts : List (List WChar)) : List (List WChar) :=
  if !handler.initialized then exts else exts ++ handler.formatInfos.flatMap FormatInfo.exts

end DllHandler

/-- The test of `CreateInArchive`; the strings are compared up to their NUL. -/
def FormatInfo.lists (ext : List WChar) (info : FormatInfo) : Bool :=
  info.exts.any fun extIt => myStringCompareNoCase (wcStr extIt) (wcStr ext) = 0

/-- `CreateInArchive` -/
def createInArchive (functions : Functions σ) (formatInfos : List FormatInfo) (ext : List WChar) :
    Option (Option (FormatHandler σ)) :=
  match formatInfos.find? (FormatInfo.lists ext) with
  | none => none
  | some info => functions.createObject.bind fun createObject => createObject info.classID

/-- What `InternalOpenArchive` does with the object. -/
def openObject (archive : FormatHandler σ) (stream : σ) : Option ArchiveImpl × σ :=
  if archive.setCompressCodecsInfo = some false then (none, stream)
  else
    match archive.openStream stream with
    | (none, stream') => (none, stream')
    | (some pInArchive, stream') => (create7ZipArchive pInArchive, stream')

/-- `InternalOpenArchive` -/
def internalOpenArchive (handler : DllHandler σ) (ext : List WChar) (stream : σ) :
    Option ArchiveImpl × σ :=
  match createInArchive handler.functions handler.formatInfos ext with
  | none => (none, stream)
  -- S_OK, but `archive == NULL`
  | some none => (none, stream)
  | some (some archive) => openObject archive stream

/-- `C7ZipDllHandler::OpenArchive` -/
def DllHandler.openArchive (getExt : σ → List WChar) (handler : DllHandler σ) (stream : σ) :
    Option ArchiveImpl × σ :=
  let ext := getExt stream
  if ext.length = 0 then (none, stream) else internalOpenArchive handler ext stream

/-! ## Extensions a format lists -/

theorem not_mem_wcStr (s : List WChar) : 0 ∉ wcStr s := by
  intro h
  have hne := List.all_takeWhile (p := (· != (0 : WChar))) (l := s)
  rw [List.all_eq_true] at hne
  exact absurd (hne 0 h) (by decide)

theorem wcStr_of_not_mem {s : List WChar} (h : 0 ∉ s) : wcStr s = s := by
  rw [wcStr, List.takeWhile_eq_self_iff]
  intro c hc
  exact bne_iff_ne.mpr fun heq => h (heq ▸ hc)

/-- A string property has no NUL. -/
theorem not_mem_readStringProp {getProp : Option GetHandlerProperty}
    {getProp2 : Option GetHandlerProperty2} {index : UInt32} {propID : PropId} {s : List WChar}
    (h : readStringProp getProp getProp2 index propID [] = some s) : 0 ∉ s := by
  rw [readStringProp] at h
  split at h
  · rw [← Option.some.inj h]
    exact not_mem_wcStr _
  · rw [← Option.some.inj h]
    exact List.not_mem_nil
  · exact absurd h (by simp)

/-- The extensions of a format are words: not empty, without a blank, and
    without a NUL. -/
structure FormatInfo.Worded (info : FormatInfo) : Prop where
  nonempty : ∀ e ∈ info.exts, e ≠ []
  noBlank : ∀ e ∈ info.exts, wspace ∉ e
  noNul : ∀ e ∈ info.exts, 0 ∉ e

/-- What `LoadFormats` takes down of a format. -/
theorem loadFormat_guards {functions : Functions σ} {i : UInt32} {info : FormatInfo}
    (h : loadFormat functions i = some info) :
    ∃ ext, readStringProp functions.getHandlerProperty functions.getHandlerProperty2 i
        NArchive.kExtension [] = some ext ∧ info.exts = splitString ext ∧
      info.formatIndex = i := by
  simp only [loadFormat, bind, Option.bind_eq_some_iff] at h
  obtain ⟨name, -, classID, -, ext, hext, addExt, -, hinfo⟩ := h
  exact ⟨ext, hext, by rw [← Option.some.inj hinfo], by rw [← Option.some.inj hinfo]⟩

theorem loadFormat_worded {functions : Functions σ} {i : UInt32} {info : FormatInfo}
    (h : loadFormat functions i = some info) : info.Worded := by
  obtain ⟨ext, hext, hexts, -⟩ := loadFormat_guards h
  have hnul : 0 ∉ ext := not_mem_readStringProp hext
  have hwords : ∀ e ∈ info.exts, e ∈ words wspace ext := by
    rw [hexts, splitString_eq]
    exact fun e he => he
  refine ⟨fun e he => (mem_words (hwords e he)).1, ?_, ?_⟩
  · intro e he hblank
    exact ((mem_words (hwords e he)).2 wspace hblank).2 rfl
  · intro e he h0
    exact hnul ((mem_words (hwords e he)).2 0 h0).1

theorem loadFormats_worded {functions : Functions σ} {infos : List FormatInfo}
    (h : loadFormats functions = some infos) : ∀ info ∈ infos, info.Worded := by
  rw [loadFormats] at h
  split_ifs at h
  obtain ⟨numFormats, -, rfl⟩ := Option.map_eq_some_iff.mp h
  intro info hinfo
  obtain ⟨i, -, hi⟩ := List.mem_filterMap.mp hinfo
  exact loadFormat_worded hi

theorem DllHandler.new_worded (pHandler : Nat) (functions : Functions σ) :
    ∀ info ∈ (DllHandler.new pHandler functions).formatInfos, info.Worded := by
  rw [DllHandler.new]
  split_ifs with hvalid
  · show ∀ info ∈ (loadFormats functions).getD [], info.Worded
    cases hload : loadFormats functions with
    | none => exact fun info h => absurd h List.not_mem_nil
    | some infos => exact loadFormats_worded hload
  · exact fun info h => absurd h List.not_mem_nil

/-- Some extension of the list is `ext`, in any case. -/
def Supports (exts : List (List WChar)) (ext : List WChar) : Prop :=
  ∃ e ∈ exts, e.map myCharUpper = (wcStr ext).map myCharUpper

/-- The test of `CreateInArchive` finds out whether the format lists `ext`. -/
theorem FormatInfo.Worded.lists_iff {info : FormatInfo} (h : info.Worded) (ext : List WChar) :
    info.lists ext = true ↔ Supports info.exts ext := by
  rw [FormatInfo.lists, List.any_eq_true]
  apply exists_congr
  intro e
  apply and_congr_right
  intro he
  have hnul : 0 ∉ e := h.noNul e he
  rw [decide_eq_true_iff, wcStr_of_not_mem hnul,
    myStringCompareNoCase_eq_zero_iff hnul (not_mem_wcStr ext)]

end Fuse7z
