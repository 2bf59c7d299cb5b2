/-
  Fuse7z.CodecsInfo

  `C7ZipCompressCodecsInfo`: the codecs of all the loaded libraries, as a
  format handler asks for them by one number.

  The numbers run through the libraries in their order.  A library's own
  number for a codec is another one, `CodecIndex`, since the codecs it reports
  no proper class for are left out.  `codec_numbers` says which codec of which
  library a number leads to, and that it is asked under the number it has
  there.
-/
import Fuse7z.Library

namespace Fuse7z

open Lib

variable {σ : Type}

/-! ## The codecs -/

/-- `m_CodecInfoArray`, which `InitData` fills from the library. -/
def Library.codecs (lib : Library σ) : List (CodecInfo σ) :=
  if !lib.initialized then [] else lib.internalObjects.flatMap DllHandler.codecInfos

/-- `VARIANT_TRUE` or `VARIANT_FALSE` -/
def variantBool (b : Bool) : PropVariant := .bool (if b then 0xFFFF else 0)

namespace CodecsInfo

-- `m_CodecInfoArray`
variable (codecs : List (CodecInfo σ))

/-- `C7ZipCompressCodecsInfo::GetNumberOfMethods` -/
def getNumberOfMethods : UInt32 := UInt32.ofNat codecs.length

/-- `C7ZipCompressCodecsInfo::GetProperty`.  The outer `none` is an index
    outside the array, the inner one an answer that is not S_OK. -/
def getProperty (index : UInt32) (propID : PropId) : Option (Option PropVariant) :=
  codecs[index.toNat]?.map fun codec =>
    if propID = NMethodPropID.kDecoderIsAssigned then some (variantBool codec.decoder.isSome)
    else if propID = NMethodPropID.kEncoderIsAssigned then some (variantBool codec.encoder.isSome)
    else codec.functions.getMethodProperty.bind fun get => get codec.codecIndex propID

/-- `C7ZipCompressCodecsInfo::CreateDecoder`: the library that is asked to
    create an object and the class it is asked for; with no decoder nobody is
    asked, and the answer is S_OK all the same. -/
def createDecoder (index : UInt32) : Option (Option (Functions σ × Guid)) :=
  codecs[index.toNat]?.map fun codec => codec.decoder.map fun clsID => (codec.functions, clsID)

/-- `C7ZipCompressCodecsInfo::CreateEncoder` -/
def createEncoder (index : UInt32) : Option (Option (Functions σ × Guid)) :=
  codecs[index.toNat]?.map fun codec => codec.encoder.map fun clsID => (codec.functions, clsID)

end CodecsInfo

/-! ## Codecs of one library -/

/-- What `LoadCodecs` has taken down of a codec. -/
structure CodecInfo.LoadedFrom (codec : CodecInfo σ) (functions : Functions σ)
    (get : GetHandlerProperty2) : Prop where
  functions_eq : codec.functions = functions
  get_eq : functions.getMethodProperty = some get
  encoder_eq : getCoderClass get codec.codecIndex NMethodPropID.kEncoder = some codec.encoder
  decoder_eq : getCoderClass get codec.codecIndex NMethodPropID.kDecoder = some codec.decoder

theorem loadCodecs_loadedFrom {functions : Functions σ} {codecs : List (CodecInfo σ)}
    (h : loadCodecs functions = some codecs) :
    ∀ codec ∈ codecs, ∃ get, codec.LoadedFrom functions get := by
  rw [loadCodecs] at h
  split at h
  · rename_i createObject get numMethods hcreate hget hnumber
    intro codec hcodec
    rw [← Option.some.inj h] at hcodec
    obtain ⟨i, -, hi⟩ := List.mem_filterMap.mp hcodec
    simp only [bind, Option.bind_eq_some_iff] at hi
    obtain ⟨encoder, hencoder, decoder, hdecoder, hcodec⟩ := hi
    obtain rfl := Option.some.inj hcodec
    exact ⟨get, rfl, hget, hencoder, hdecoder⟩
  · exact absurd h (by simp)

theorem DllHandler.new_loadedFrom (pHandler : Nat) (functions : Functions σ) :
    ∀ codec ∈ (DllHandler.new pHandler functions).codecInfos,
      ∃ get, codec.LoadedFrom functions get := by
  rw [DllHandler.new]
  split_ifs with hvalid
  · show ∀ codec ∈ (loadCodecs functions).getD [], ∃ get, codec.LoadedFrom functions get
    cases hload : loadCodecs functions with
    | none => exact fun codec h => absurd h List.not_mem_nil
    | some codecs => exact loadCodecs_loadedFrom hload
  · exact fun codec h => absurd h List.not_mem_nil

theorem DllHandler.functions_new (pHandler : Nat) (functions : Functions σ) :
    (DllHandler.new pHandler functions).functions = functions := by
  rw [DllHandler.new]
  split_ifs with hvalid
  · rfl
  · rfl

/-! ## Numbers -/

/-- An element of lists that are put together is an element of one of them, and
    its number counts those of the lists in front. -/
theorem getElem?_flatMap_iff {α β : Type _} (f : α → List β) {l : List α} {i : Nat} {b : β} :
    (l.flatMap f)[i]? = some b ↔
      ∃ before a after j, l = before ++ a :: after ∧ (f a)[j]? = some b ∧
        i = (before.flatMap f).length + j := by
  induction l generalizing i with
  | nil =>
      refine iff_of_false (by simp) ?_
      rintro ⟨before, a, after, j, hnil, -⟩
      exact absurd hnil (by simp)
  | cons c l ih =>
      rw [List.flatMap_cons]
      by_cases hi : i < (f c).length
      · rw [List.getElem?_append_left hi]
        refine ⟨fun hb => ⟨[], c, l, i, rfl, hb, by simp⟩, ?_⟩
        rintro ⟨before, a, after, j, hsplit, hj, hij⟩
        cases before with
        | nil =>
            obtain ⟨rfl, rfl⟩ := List.cons.inj hsplit
            rw [hij]
            simpa using hj
        | cons d before =>
            obtain ⟨rfl, -⟩ := List.cons.inj hsplit
            rw [List.flatMap_cons, List.length_append] at hij
            omega
      · rw [List.getElem?_append_right (by omega), ih]
        refine ⟨?_, ?_⟩
        · rintro ⟨before, a, after, j, rfl, hj, hij⟩
          refine ⟨c :: before, a, after, j, rfl, hj, ?_⟩
          rw [List.flatMap_cons, List.length_append]
          omega
        · rintro ⟨before, a, after, j, hsplit, hj, hij⟩
          cases before with
          | nil =>
              obtain ⟨rfl, rfl⟩ := List.cons.inj hsplit
              have hlt : j < (f c).length := (List.getElem?_eq_some_iff.mp hj).1
              simp only [List.flatMap_nil, List.length_nil] at hij
              omega
          | cons d before =>
              obtain ⟨rfl, rfl⟩ := List.cons.inj hsplit
              rw [List.flatMap_cons, List.length_append] at hij
              exact ⟨before, a, after, j, rfl, hj, by omega⟩

/-- The codecs are those of all the handlers. -/
theorem Library.codecs_eq {lib : Library σ} (h : lib.Inv) :
    lib.codecs = lib.internalObjects.flatMap DllHandler.codecInfos := by
  rw [codecs]
  cases hinitialized : lib.initialized with
  | true => rfl
  | false =>
      have hnil : lib.internalObjects = [] := by
        by_contra hne
        exact absurd (h.initialized_iff.mpr hne) (by simp [hinitialized])
      rw [hnil]
      rfl

/-- **What the number of a codec leads to**, after any calls of the library.
    A number is inside the array just when some library has the codec it
    counts up to.  Then a property is asked of that library, under the number
    the codec has there, but for whether it has coders, which was looked at
    when it was loaded; and a decoder is created by that library, of the class
    it gave then. -/
theorem codec_numbers (cs : List (LibCall σ)) (index : UInt32) (codec : CodecInfo σ) :
    (run libStep Library.new cs).codecs[index.toNat]? = some codec ↔
      ∃ before handler after j get,
        (run libStep Library.new cs).internalObjects = before ++ handler :: after ∧
        handler.codecInfos[j]? = some codec ∧
        index.toNat = (before.flatMap DllHandler.codecInfos).length + j ∧
        handler.functions.getMethodProperty = some get ∧
        (∀ propID, CodecsInfo.getProperty (run libStep Library.new cs).codecs index propID =
          some (if propID = NMethodPropID.kDecoderIsAssigned then
              some (variantBool (getCoderClass get codec.codecIndex NMethodPropID.kDecoder).join.isSome)
            else if propID = NMethodPropID.kEncoderIsAssigned then
              some (variantBool (getCoderClass get codec.codecIndex NMethodPropID.kEncoder).join.isSome)
            else get codec.codecIndex propID)) ∧
        CodecsInfo.createDecoder (run libStep Library.new cs).codecs index =
          some ((getCoderClass get codec.codecIndex NMethodPropID.kDecoder).join.map
            (handler.functions, ·)) ∧
        CodecsInfo.createEncoder (run libStep Library.new cs).codecs index =
          some ((getCoderClass get codec.codecIndex NMethodPropID.kEncoder).join.map
            (handler.functions, ·)) := by
  have hinv := Library.run_inv cs
  have hcodecs := Library.codecs_eq hinv
  refine ⟨?_, ?_⟩
  · intro hget
    have hsplit := hget
    rw [hcodecs, getElem?_flatMap_iff] at hsplit
    obtain ⟨before, handler, after, j, hlist, hj, hindex⟩ := hsplit
    have hmem : handler ∈ (run libStep Library.new cs).internalObjects := by
      rw [hlist]
      exact List.mem_append_right before List.mem_cons_self
    obtain ⟨-, pHandler, functions, hnew⟩ := hinv.loaded handler hmem
    have hcodec : codec ∈ (DllHandler.new pHandler functions).codecInfos := by
      rw [← hnew]
      exact List.mem_of_getElem? hj
    obtain ⟨get, hloaded⟩ := DllHandler.new_loadedFrom pHandler functions codec hcodec
    have hfunctions : handler.functions = functions := by
      rw [hnew, DllHandler.functions_new]
    refine ⟨before, handler, after, j, get, hlist, hj, hindex, ?_, ?_, ?_, ?_⟩
    · rw [hfunctions]
      exact hloaded.get_eq
    · intro propID
      rw [CodecsInfo.getProperty, hget, hloaded.decoder_eq, hloaded.encoder_eq]
      simp only [Option.map_some, Option.join_some, hloaded.functions_eq, hloaded.get_eq,
        Option.bind_some]
    · rw [CodecsInfo.createDecoder, hget, hloaded.decoder_eq]
      simp only [Option.map_some, Option.join_some, hloaded.functions_eq, hfunctions]
    · rw [CodecsInfo.createEncoder, hget, hloaded.encoder_eq]
      simp only [Option.map_some, Option.join_some, hloaded.functions_eq, hfunctions]
  · rintro ⟨before, handler, after, j, get, hlist, hj, hindex, -⟩
    rw [hcodecs, getElem?_flatMap_iff]
    exact ⟨before, handler, after, j, hlist, hj, hindex⟩

end Fuse7z
