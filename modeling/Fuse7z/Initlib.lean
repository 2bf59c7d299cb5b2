/-
  Fuse7z.Initlib

  `fuse7z_initlib`: the whole constructor of `Fuse7z_lib7zip`, from the name of
  the archive file to the mounted file system.

  The base class, the library and the stream are constructed first, so that a
  throw behind them destroys them again where it is caught: nothing stays
  loaded when the constructor fails.  When it succeeds the file system is the one `mount` makes
  of the items as their handler describes them (`initlib_outcome`).
-/
import Fuse7z.Opening

namespace Fuse7z

open Lib

/-- Where the constructor fails: with a `std::runtime_error`, but for the last
    one. -/
inductive InitError where
  /-- `"Can't open " << fileName` -/
  | cantOpen
  /-- `"7z library initialization failed"` -/
  | initialization
  /-- `"Could not get list of 7z-supported file extensions"` -/
  | supportedExts
  /-- `"open archive " << archive_fn << " failed" << endl` -/
  | openArchive
  | load (f : LoadFault)
deriving DecidableEq, Repr

/-- The items as the constructor reads them. -/
def ArchiveImpl.archive (impl : ArchiveImpl) : Archive where
  items := impl.archiveItems.map impl.pInArchive.item
  count_lt := by
    rw [List.length_map]
    exact impl.count_lt

/-- `Fuse7z_lib7zip` with all its members.  A handler moves the stream by its
    `FILE` alone. -/
structure Fuse7zData where
  fs : Fuse7zLib7zip
  lib : Library (File Byte)
  impl : ArchiveImpl
  stream : Fuse7zInStream

/-- What the constructor meets outside the program. -/
structure InitlibEnv where
  /-- the content of the files that can be opened -/
  fopen : Bytes → Option Bytes
  init : InitEnv (File Byte)
  uninit : Uninit
  euid : UInt32
  egid : UInt32

/-- `fuse7z_initlib`.  A failure comes with the library as it is left then:
    destroyed, unless the program crashed. -/
def fuse7zInitlib (env : InitlibEnv) (fileName : Bytes) :
    Except (InitError × Library (File Byte)) Fuse7zData :=
  match Fuse7zInStream.new env.fopen fileName with
  | .error _ => .error (.cantOpen, Library.new.destroy)
  | .ok stream =>
      let r := Library.new.initializeLibrary env.init
      if !r.1 then .error (.initialization, r.2.destroy)
      else if !r.2.getSupportedExts.1 then .error (.supportedExts, r.2.destroy)
      else
        match r.2.openArchive (fun _ => stream.getExt) stream.mPFile with
        | (none, _) => .error (.openArchive, r.2.destroy)
        | (some impl, mPFile) =>
            match impl.load env.uninit with
            | .error f => .error (.load f, r.2)
            | .ok tree =>
                .ok {
                  fs := {
                    tree
                    rootNode := rootAddr
                    archive := impl.archive
                    nextStream := 0
                    euid := env.euid
                    egid := env.egid }
                  lib := r.2
                  impl
                  stream := { stream with mPFile } }

/-! ## What it meets -/

section Initlib

variable (env : InitlibEnv) (fileName : Bytes)

/-- The library the constructor works with. -/
def InitlibEnv.lib (env : InitlibEnv) : Library (File Byte) :=
  (Library.new.initializeLibrary env.init).2

theorem InitlibEnv.lib_inv : env.lib.Inv :=
  (Library.initializeLibrary_inv Library.inv_new env.init).1

/-- `Initialize` and `GetSupportedExts` return the same. -/
theorem initializeLibrary_supportedExts :
    (Library.new.initializeLibrary env.init).1 = env.lib.getSupportedExts.1 := by
  rw [Library.getSupportedExts_eq env.lib_inv]
  exact (Library.initializeLibrary_inv Library.inv_new env.init).2

/-- The constructor, by what it meets. -/
theorem fuse7zInitlib_eq :
    fuse7zInitlib env fileName =
      match env.fopen (cStr fileName) with
      | none => .error (.cantOpen, Library.new.destroy)
      | some content =>
          if env.lib.initialized then
            match env.lib.openArchive (fun _ => fileExt fileName)
              (Fuse7zInStream.opened fileName content).mPFile with
            | (none, _) => .error (.openArchive, env.lib.destroy)
            | (some impl, mPFile) =>
                match impl.load env.uninit with
                | .error f => .error (.load f, env.lib)
                | .ok tree =>
                    .ok {
                      fs := {
                        tree
                        rootNode := rootAddr
                        archive := impl.archive
                        nextStream := 0
                        euid := env.euid
                        egid := env.egid }
                      lib := env.lib
                      impl
                      stream := { Fuse7zInStream.opened fileName content with mPFile } }
          else .error (.initialization, env.lib.destroy) := by
  have hret : (Library.new.initializeLibrary env.init).1 = env.lib.initialized :=
    (Library.initializeLibrary_inv Library.inv_new env.init).2
  have hexts := initializeLibrary_supportedExts env
  rw [fuse7zInitlib, Fuse7zInStream.new]
  cases env.fopen (cStr fileName) with
  | none => rfl
  | some content =>
      show (if !(Library.new.initializeLibrary env.init).1 then _
        else if !env.lib.getSupportedExts.1 then _ else _) = _
      cases hinitialized : env.lib.initialized with
      | false =>
          rw [hret, hinitialized]
          rfl
      | true =>
          -- the extensions are always there to be listed
          rw [← hexts, hret, hinitialized]
          rfl

/-- The archive in the file is opened as `impl`: the extension is a supported
    one, and the library whose handler opened it is loaded. -/
structure InitlibEnv.OpensArchive (content : Bytes) (impl : ArchiveImpl) (mPFile : File Byte) :
    Prop where
  file : env.fopen (cStr fileName) = some content
  opened : env.lib.openArchive (fun _ => fileExt fileName)
    (Fuse7zInStream.opened fileName content).mPFile = (some impl, mPFile)
  supported : Supports env.lib.getSupportedExts.2 (fileExt fileName)
  handler : ∃ handler ∈ env.lib.internalObjects, handler.pHandler ∉ env.lib.closed ∧
    ∃ info archive between, handler.Opens (fun _ => fileExt fileName) between info archive ∧
      archive.openStream between = (some impl.pInArchive, mPFile)

theorem InitlibEnv.OpensArchive.initialized {env : InitlibEnv} {fileName content : Bytes}
    {impl : ArchiveImpl} {mPFile : File Byte} (h : env.OpensArchive fileName content impl mPFile) :
    env.lib.initialized = true := by
  obtain ⟨handler, hmem, -⟩ := h.handler
  exact env.lib_inv.initialized_iff.mpr (List.ne_nil_of_mem hmem)

/-- How the constructor ends, and what is loaded then. -/
inductive InitlibOutcome : Except (InitError × Library (File Byte)) Fuse7zData → Prop
  | cantOpen (noFile : env.fopen (cStr fileName) = none) :
      InitlibOutcome (.error (.cantOpen, Library.new.destroy))
  | initialization (content : Bytes) (file : env.fopen (cStr fileName) = some content)
      (noLibrary : env.lib.internalObjects = [])
      (unloaded : env.lib.destroy.closed.Perm (List.range env.lib.destroy.nextHandle)) :
      InitlibOutcome (.error (.initialization, env.lib.destroy))
  | openArchive (content : Bytes) (file : env.fopen (cStr fileName) = some content)
      (libraries : env.lib.internalObjects ≠ [])
      (notOpened : (env.lib.openArchive (fun _ => fileExt fileName)
        (Fuse7zInStream.opened fileName content).mPFile).1 = none)
      (unloaded : env.lib.destroy.closed.Perm (List.range env.lib.destroy.nextHandle)) :
      InitlibOutcome (.error (.openArchive, env.lib.destroy))
  /-- the archive that was opened has too many items -/
  | crashed (content : Bytes) (impl : ArchiveImpl) (mPFile : File Byte)
      (opens : env.OpensArchive fileName content impl mPFile) (numItems : UInt32)
      (number : impl.pInArchive.getNumberOfItems = some numItems) (many : 2 ^ 31 < numItems.toNat) :
      InitlibOutcome (.error (.load (.outOfBounds (UInt32.ofNat (2 ^ 31))), env.lib))
  | mounted (data : Fuse7zData) (content : Bytes)
      (opens : env.OpensArchive fileName content data.impl data.stream.mPFile) (numItems : UInt32)
      (number : data.impl.pInArchive.getNumberOfItems = some numItems)
      (few : numItems.toNat ≤ 2 ^ 31)
      (mounts : data.fs = mount env.uninit (data.impl.pInArchive.archive numItems) env.euid env.egid)
      (lib : data.lib = env.lib)
      (stream : data.stream =
        { Fuse7zInStream.opened fileName content with mPFile := data.stream.mPFile }) :
      InitlibOutcome (.ok data)

/-- The items are those the handler describes. -/
theorem ArchiveImpl.archive_eq {impl : ArchiveImpl} {numItems : UInt32}
    (hitems : impl.archiveItems = (List.range numItems.toNat).map UInt32.ofNat) :
    impl.archive = impl.pInArchive.archive numItems := by
  have hread : impl.archiveItems.map impl.pInArchive.item =
      impl.pInArchive.items numItems.toNat := by
    rw [hitems, List.map_map]
    rfl
  simp only [ArchiveImpl.archive, hread]
  rfl

/-- What a library that opened the archive says about it, and whether the
    constructor gets through its items. -/
theorem opensArchive_of_opened {content : Bytes} (file : env.fopen (cStr fileName) = some content)
    {impl : ArchiveImpl} {mPFile : File Byte}
    (hopen : env.lib.openArchive (fun _ => fileExt fileName)
      (Fuse7zInStream.opened fileName content).mPFile = (some impl, mPFile)) :
    env.OpensArchive fileName content impl mPFile ∧ ∃ numItems,
      impl.pInArchive.getNumberOfItems = some numItems ∧
      impl.archive = impl.pInArchive.archive numItems ∧
      impl.load env.uninit =
        if numItems.toNat ≤ 2 ^ 31 then
          .ok (indexTree env.uninit (impl.pInArchive.items numItems.toNat))
        else .error (.outOfBounds (UInt32.ofNat (2 ^ 31))) := by
  have hinv := env.lib_inv
  obtain ⟨before, handler, after, between, info, archive, pInArchive, hopened⟩ :=
    Library.openArchive_some hinv hopen
  obtain ⟨hin, numItems, hnum, hitems⟩ := create7ZipArchive_eq_some hopened.created
  subst hin
  have hmem : handler ∈ env.lib.internalObjects := by
    rw [hopened.listed]
    exact List.mem_append_right before List.mem_cons_self
  have hsupported : Supports env.lib.getSupportedExts.2 (fileExt fileName) := by
    rw [Library.supports_iff hinv]
    exact ⟨handler, hmem, info, List.mem_of_find?_eq_some hopened.opens.chosen,
      List.find?_some hopened.opens.chosen⟩
  refine ⟨⟨file, hopen, hsupported, ?_⟩, numItems, hnum, ArchiveImpl.archive_eq hitems, ?_⟩
  · exact ⟨handler, hmem, hinv.not_closed hmem, info, archive, between, hopened.opens,
      hopened.stream_eq⟩
  · exact ArchiveImpl.load_of_items env.uninit hitems numItems.toNat_lt

/-- What was loaded is closed again when a throw of the constructor is caught. -/
theorem lib_destroy_closed : env.lib.destroy.closed.Perm (List.range env.lib.destroy.nextHandle) := by
  rw [Library.destroy_nextHandle]
  exact Library.destroy_closed env.lib_inv

/-- The constructor ends in one of these ways. -/
theorem initlibOutcome_fuse7zInitlib :
    InitlibOutcome env fileName (fuse7zInitlib env fileName) := by
  rw [fuse7zInitlib_eq]
  cases hfile : env.fopen (cStr fileName) with
  | none => exact .cantOpen hfile
  | some content =>
      by_cases hinitialized : env.lib.initialized = true
      · simp only [hinitialized, if_true]
        have hlibraries := env.lib_inv.initialized_iff.mp hinitialized
        cases hopen : env.lib.openArchive (fun _ => fileExt fileName)
            (Fuse7zInStream.opened fileName content).mPFile with
        | mk opened mPFile =>
            cases opened with
            | none =>
                exact .openArchive content hfile hlibraries (congrArg Prod.fst hopen)
                  (lib_destroy_closed env)
            | some impl =>
                obtain ⟨hopens, numItems, hnum, harchive, hload⟩ :=
                  opensArchive_of_opened env fileName hfile hopen
                by_cases hfew : numItems.toNat ≤ 2 ^ 31
                · rw [if_pos hfew] at hload
                  simp only [hload, harchive]
                  exact .mounted _ content hopens numItems hnum hfew rfl rfl rfl
                · rw [if_neg hfew] at hload
                  simp only [hload]
                  exact .crashed content impl mPFile hopens numItems hnum (Nat.lt_of_not_le hfew)
      · have hnone : env.lib.internalObjects = [] := by
          by_contra hne
          exact hinitialized (env.lib_inv.initialized_iff.mpr hne)
        simp only [hinitialized, Bool.false_eq_true, if_false]
        exact .initialization content hfile hnone (lib_destroy_closed env)

/-- What a constructor that comes back has made. -/
theorem initlib_ok {data : Fuse7zData} (h : fuse7zInitlib env fileName = .ok data) :
    data.lib.Inv ∧ ∃ numItems, data.fs
      = mount env.uninit (data.impl.pInArchive.archive numItems) env.euid env.egid := by
  have houtcome := initlibOutcome_fuse7zInitlib env fileName
  rw [h] at houtcome
  cases houtcome with
  | mounted data content opens numItems number few mounts lib stream =>
      exact ⟨lib ▸ env.lib_inv, numItems, mounts⟩

end Initlib

/-- **How `fuse7z_initlib` ends.**  It throws because there is no file, no
    library or no library that opens the file, and where that is caught every
    library it loaded is closed again; or the archive that was opened has more
    than 2^31 items.  Otherwise the extension is a supported one, what is
    mounted are the items as the handler describes them, and the library of
    that handler is still loaded.  The cases exclude each other. -/
theorem initlib_outcome (env : InitlibEnv) (fileName : Bytes)
    (r : Except (InitError × Library (File Byte)) Fuse7zData) :
    fuse7zInitlib env fileName = r ↔ InitlibOutcome env fileName r := by
  refine ⟨?_, ?_⟩
  · rintro rfl
    exact initlibOutcome_fuse7zInitlib env fileName
  · intro h
    rw [fuse7zInitlib_eq]
    cases h with
    | cantOpen noFile => simp only [noFile]
    | initialization content file noLibrary unloaded =>
        have hno : env.lib.initialized = false := by
          rw [← Bool.not_eq_true, env.lib_inv.initialized_iff, not_not]
          exact noLibrary
        simp only [file, hno, Bool.false_eq_true, if_false]
    | openArchive content file libraries notOpened unloaded =>
        have hyes := env.lib_inv.initialized_iff.mpr libraries
        simp only [file, hyes, if_true]
        cases hopen : env.lib.openArchive (fun _ => fileExt fileName)
            (Fuse7zInStream.opened fileName content).mPFile with
        | mk opened mPFile =>
            rw [hopen] at notOpened
            obtain rfl : opened = none := notOpened
            rfl
    | crashed content impl mPFile opens numItems number many =>
        obtain ⟨-, numItems', number', -, hload⟩ :=
          opensArchive_of_opened env fileName opens.file opens.opened
        obtain rfl := Option.some.inj (number.symm.trans number')
        rw [if_neg (Nat.not_le.mpr many)] at hload
        simp only [opens.file, opens.initialized, if_true, opens.opened, hload]
    | mounted data content opens numItems number few mounts lib stream =>
        obtain ⟨-, numItems', number', harchive, hload⟩ :=
          opensArchive_of_opened env fileName opens.file opens.opened
        obtain rfl := Option.some.inj (number.symm.trans number')
        rw [if_pos few] at hload
        simp only [opens.file, opens.initialized, if_true, opens.opened, hload, harchive]
        -- the four members are those of the mounted archive
        obtain ⟨fs, dataLib, impl, dataStream⟩ := data
        obtain rfl : dataLib = env.lib := lib
        obtain rfl : fs = mount env.uninit (impl.pInArchive.archive numItems) env.euid env.egid :=
          mounts
        exact congrArg (fun stream => Except.ok (Fuse7zData.mk _ _ impl stream)) stream.symm

end Fuse7z
