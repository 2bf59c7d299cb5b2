/-
  Fuse7z.Opening

  Which libraries and formats an archive is opened with.

  `GetSupportedExts` and `OpenArchive` go over the same lists, so an archive
  whose extension is not reported as supported is not even looked at, and one
  that is opened was opened by the first library that could, with the first
  of its formats that lists the extension (`opens_supported`).
-/
import Fuse7z.Library

namespace Fuse7z

open Lib

variable {σ : Type}

/-! ## One library -/

theorem DllHandler.getSupportedExts_eq {handler : DllHandler σ}
    (hinitialized : handler.initialized = true) (exts : List (List WChar)) :
    handler.getSupportedExts exts = exts ++ handler.formatInfos.flatMap FormatInfo.exts := by
  rw [getSupportedExts, hinitialized]
  rfl

/-- How one library opens a stream: `info` is the format it does it with, and
    `archive` the object it has for the format. -/
structure DllHandler.Opens (getExt : σ → List WChar) (handler : DllHandler σ) (stream : σ)
    (info : FormatInfo) (archive : FormatHandler σ) : Prop where
  chosen : handler.formatInfos.find? (FormatInfo.lists (getExt stream)) = some info
  created : handler.functions.createObject.bind (· info.classID) = some (some archive)
  codecs : archive.setCompressCodecsInfo ≠ some false

theorem openObject_eq {archive : FormatHandler σ} (h : archive.setCompressCodecsInfo ≠ some false)
    (stream : σ) :
    openObject archive stream =
      ((archive.openStream stream).1.bind create7ZipArchive, (archive.openStream stream).2) := by
  rw [openObject, if_neg h]
  cases archive.openStream stream with
  | mk opened stream' =>
      cases opened with
      | none => rfl
      | some pInArchive => rfl

/-- Where an object comes from. -/
theorem createInArchive_eq_some {functions : Functions σ} {formatInfos : List FormatInfo}
    {ext : List WChar} {archive : FormatHandler σ}
    (h : createInArchive functions formatInfos ext = some (some archive)) :
    ∃ info, formatInfos.find? (FormatInfo.lists ext) = some info ∧
      functions.createObject.bind (· info.classID) = some (some archive) := by
  rw [createInArchive] at h
  cases hfind : formatInfos.find? (FormatInfo.lists ext) with
  | none =>
      rw [hfind] at h
      exact absurd h (by simp)
  | some info =>
      rw [hfind] at h
      exact ⟨info, rfl, h⟩

/-- A library leaves the stream alone, or has an object for the first format
    that lists the extension and asks only that. -/
theorem DllHandler.openArchive_cases (getExt : σ → List WChar) (handler : DllHandler σ)
    (stream : σ) :
    handler.openArchive getExt stream = (none, stream) ∨
    ∃ info archive, handler.Opens getExt stream info archive ∧
      handler.openArchive getExt stream =
        ((archive.openStream stream).1.bind create7ZipArchive, (archive.openStream stream).2) := by
  rw [openArchive]
  by_cases hlen : (getExt stream).length = 0
  · exact Or.inl (if_pos hlen)
  · simp only [hlen, if_false, internalOpenArchive]
    cases hcreate : createInArchive handler.functions handler.formatInfos (getExt stream) with
    | none => exact Or.inl rfl
    | some object =>
        cases object with
        | none => exact Or.inl rfl
        | some archive =>
            obtain ⟨info, hfind, hobject⟩ := createInArchive_eq_some hcreate
            by_cases hcodecs : archive.setCompressCodecsInfo = some false
            · exact Or.inl (if_pos hcodecs)
            · exact Or.inr ⟨info, archive, ⟨hfind, hobject, hcodecs⟩, openObject_eq hcodecs stream⟩

/-- A library with no format for the extension leaves the stream alone. -/
theorem DllHandler.openArchive_none {getExt : σ → List WChar} {handler : DllHandler σ} {stream : σ}
    (h : ∀ info ∈ handler.formatInfos, info.lists (getExt stream) = false) :
    handler.openArchive getExt stream = (none, stream) := by
  obtain hnone | ⟨info, archive, hopens, -⟩ := handler.openArchive_cases getExt stream
  · exact hnone
  · have hlists := List.find?_some hopens.chosen
    have hmem := List.mem_of_find?_eq_some hopens.chosen
    exact absurd hlists (by rw [h info hmem]; exact Bool.false_ne_true)

/-! ## All of them -/

namespace Library

/-- The extensions that are reported: those of every format of every library. -/
theorem getSupportedExts_eq {lib : Library σ} (h : lib.Inv) :
    lib.getSupportedExts =
      (lib.initialized,
        lib.internalObjects.flatMap fun handler => handler.formatInfos.flatMap FormatInfo.exts) := by
  rw [getSupportedExts]
  cases hinitialized : lib.initialized with
  | false =>
      have hnil : lib.internalObjects = [] := by
        by_contra hne
        exact absurd (h.initialized_iff.mpr hne) (by simp [hinitialized])
      rw [hnil]
      rfl
  | true =>
      have hfold : ∀ (handlers : List (DllHandler σ)) (exts : List (List WChar)),
          (∀ handler ∈ handlers, handler.initialized = true) →
          handlers.foldl (fun exts handler => handler.getSupportedExts exts) exts =
            exts ++ handlers.flatMap fun handler => handler.formatInfos.flatMap FormatInfo.exts := by
        intro handlers
        induction handlers with
        | nil => exact fun exts _ => (List.append_nil exts).symm
        | cons handler handlers ih =>
            intro exts hall
            rw [List.foldl_cons, DllHandler.getSupportedExts_eq (hall handler List.mem_cons_self),
              ih _ fun g hg => hall g (List.mem_cons_of_mem handler hg), List.flatMap_cons,
              List.append_assoc]
      have hall := hfold lib.internalObjects [] fun handler hmem => (h.loaded handler hmem).1
      rw [List.nil_append] at hall
      exact congrArg (Prod.mk true) hall

/-- The formats of a loaded library have words for extensions. -/
theorem Inv.worded {lib : Library σ} (h : lib.Inv) {handler : DllHandler σ}
    (hmem : handler ∈ lib.internalObjects) : ∀ info ∈ handler.formatInfos, info.Worded := by
  obtain ⟨-, pHandler, functions, rfl⟩ := h.loaded handler hmem
  exact DllHandler.new_worded pHandler functions

/-- An extension is supported just when some format lists it. -/
theorem supports_iff {lib : Library σ} (h : lib.Inv) (ext : List WChar) :
    Supports lib.getSupportedExts.2 ext ↔
      ∃ handler ∈ lib.internalObjects, ∃ info ∈ handler.formatInfos, info.lists ext = true := by
  rw [getSupportedExts_eq h]
  refine ⟨?_, ?_⟩
  · rintro ⟨e, he, heq⟩
    obtain ⟨handler, hmem, he⟩ := List.mem_flatMap.mp he
    obtain ⟨info, hinfo, he⟩ := List.mem_flatMap.mp he
    exact ⟨handler, hmem, info, hinfo, ((h.worded hmem info hinfo).lists_iff ext).mpr ⟨e, he, heq⟩⟩
  · rintro ⟨handler, hmem, info, hinfo, hlists⟩
    obtain ⟨e, he, heq⟩ := ((h.worded hmem info hinfo).lists_iff ext).mp hlists
    exact ⟨e, List.mem_flatMap.mpr ⟨handler, hmem, List.mem_flatMap.mpr ⟨info, hinfo, he⟩⟩, heq⟩

/-- Libraries that do not list the extension are passed over. -/
theorem openLoop_none {getExt : σ → List WChar} {handlers : List (DllHandler σ)} {stream : σ}
    (h : ∀ handler ∈ handlers, ∀ info ∈ handler.formatInfos,
      info.lists (getExt stream) = false) :
    openLoop getExt handlers stream = (none, stream) := by
  induction handlers with
  | nil => rfl
  | cons handler handlers ih =>
      rw [openLoop, DllHandler.openArchive_none (h handler List.mem_cons_self)]
      exact ih fun g hg => h g (List.mem_cons_of_mem handler hg)

/-- The library that opens the stream is the first one that can. -/
theorem openLoop_some {getExt : σ → List WChar} {handlers : List (DllHandler σ)}
    {stream stream' : σ} {impl : ArchiveImpl}
    (h : openLoop getExt handlers stream = (some impl, stream')) :
    ∃ before handler after between, handlers = before ++ handler :: after ∧
      openLoop getExt before stream = (none, between) ∧
      handler.openArchive getExt between = (some impl, stream') := by
  induction handlers generalizing stream with
  | nil => exact absurd h (by simp [openLoop])
  | cons handler handlers ih =>
      rw [openLoop] at h
      cases hopen : handler.openArchive getExt stream with
      | mk opened between =>
          cases opened with
          | some archive =>
              rw [hopen] at h
              exact ⟨[], handler, handlers, stream, rfl, rfl, hopen.trans h⟩
          | none =>
              rw [hopen] at h
              obtain ⟨before, g, after, between', rfl, hbefore, hg⟩ := ih h
              refine ⟨handler :: before, g, after, between', rfl, ?_, hg⟩
              rw [openLoop, hopen]
              exact hbefore

/-- A stream whose extension is not supported is not looked at. -/
theorem openArchive_unsupported {lib : Library σ} (h : lib.Inv) {getExt : σ → List WChar}
    {stream : σ} (hunsupported : ¬ Supports lib.getSupportedExts.2 (getExt stream)) :
    lib.openArchive getExt stream = (none, stream) := by
  rw [supports_iff h] at hunsupported
  rw [openArchive]
  split_ifs with hinitialized
  · rfl
  · apply openLoop_none
    intro handler hmem info hinfo
    by_contra hlists
    exact hunsupported ⟨handler, hmem, info, hinfo, (Bool.not_eq_false _).mp hlists⟩

/-- How a stream was opened: by the library `handler` at `between`, which is
    where the libraries in front of it left the stream. -/
structure Opened (lib : Library σ) (getExt : σ → List WChar) (stream : σ) (impl : ArchiveImpl)
    (stream' : σ) (before : List (DllHandler σ)) (handler : DllHandler σ)
    (after : List (DllHandler σ)) (between : σ) (info : FormatInfo) (archive : FormatHandler σ)
    (pInArchive : InArchive) : Prop where
  listed : lib.internalObjects = before ++ handler :: after
  failed : openLoop getExt before stream = (none, between)
  opens : handler.Opens getExt between info archive
  supported : Supports info.exts (getExt between)
  stream_eq : archive.openStream between = (some pInArchive, stream')
  created : create7ZipArchive pInArchive = some impl

theorem openArchive_some {lib : Library σ} (h : lib.Inv) {getExt : σ → List WChar}
    {stream stream' : σ} {impl : ArchiveImpl}
    (hopen : lib.openArchive getExt stream = (some impl, stream')) :
    ∃ before handler after between info archive pInArchive,
      lib.Opened getExt stream impl stream' before handler after between info archive
        pInArchive := by
  rw [openArchive] at hopen
  have hloop : openLoop getExt lib.internalObjects stream = (some impl, stream') := by
    split_ifs at hopen with hinitialized
    · exact absurd (congrArg Prod.fst hopen) (by simp)
    · exact hopen
  obtain ⟨before, handler, after, between, hsplit, hbefore, hopens⟩ := openLoop_some hloop
  have hmem : handler ∈ lib.internalObjects := by
    rw [hsplit]
    exact List.mem_append_right before List.mem_cons_self
  obtain hnone | ⟨info, archive, hchosen, heq⟩ := handler.openArchive_cases getExt between
  · rw [hnone] at hopens
    exact absurd (congrArg Prod.fst hopens) (by simp)
  · rw [heq] at hopens
    obtain ⟨pInArchive, hstream, hcreate⟩ :=
      Option.bind_eq_some_iff.mp (congrArg Prod.fst hopens)
    have hleft : (archive.openStream between).2 = stream' := congrArg Prod.snd hopens
    have hinfo := List.mem_of_find?_eq_some hchosen.chosen
    have hlists := List.find?_some hchosen.chosen
    exact ⟨before, handler, after, between, info, archive, pInArchive, hsplit, hbefore, hchosen,
      ((h.worded hmem info hinfo).lists_iff _).mp hlists, Prod.ext hstream hleft, hcreate⟩

end Library

/-- **How an archive is opened**, after any calls of the library.  A stream
    whose extension is not supported is left as it was.  One that is opened
    was opened by a library that all the ones before it in the list had failed
    for, with the first format of that library that lists the extension, in
    any case; no other format of the library was asked. -/
theorem opens_supported (cs : List (LibCall σ)) (getExt : σ → List WChar) (stream : σ) :
    (¬ Supports (run libStep Library.new cs).getSupportedExts.2 (getExt stream) →
      (run libStep Library.new cs).openArchive getExt stream = (none, stream)) ∧
    ∀ impl stream', (run libStep Library.new cs).openArchive getExt stream = (some impl, stream') →
      ∃ before handler after between info archive pInArchive,
        (run libStep Library.new cs).Opened getExt stream impl stream' before handler after between
          info archive pInArchive :=
  ⟨Library.openArchive_unsupported (Library.run_inv cs),
    fun _ _ => Library.openArchive_some (Library.run_inv cs)⟩

end Fuse7z
