/-
  Fuse7z.Library

  `C7ZipLibrary`: the libraries that are loaded, from `Initialize` to
  `Deinitialize`, as a machine that answers calls in any order.

  `Initialize` loads `7z.so` and every plugin in the folders next to it.  A
  library that is of no use is closed at once, the others when the handlers
  are deleted.  The state keeps the account of it: how many handles `dlopen`
  has returned, and the handles `dlclose` was called with
  (`library_accounts`).  Each call of `dlopen` counts as a handle of its own,
  also when two of them load one file.
-/
import Fuse7z.DllHandler
import Fuse7z.Lib.Run

namespace Fuse7z

open Lib

variable {σ : Type}

/-! ## Folders of plugins -/

/-- An entry of a folder, as `myselect` meets it.  What `dlopen` makes of a
    file is `none` when it is no library. -/
inductive FolderEntry (σ : Type) where
  /-- `opendir` fails with `ENOTDIR` -/
  | plain (name : Bytes) (dll : Option (Functions σ))
  /-- `opendir` fails otherwise -/
  | unreadable (name : Bytes)
  /-- a folder, with its entries in the order of `readdir` -/
  | folder (name : Bytes) (entries : List (FolderEntry σ))

/-- `"."` and `".."`, the names `myselect` skips. -/
def isDots (name : Bytes) : Bool := name = [dot] || name = [dot, dot]

/-- What `Initialize` meets outside the program. -/
structure InitEnv (σ : Type) where
  /-- `dlopen("7z.so")` -/
  main : Option (Functions σ)
  /-- `dli_fname`, where `dladdr` finds it -/
  dliFname : Option Bytes
  /-- the folder `chdir` leads to, when it does not fail -/
  chdir : Bytes → Option (List (FolderEntry σ))

/-- `GetHandlerPath` -/
def getHandlerPath (dliFname : Option Bytes) : Bytes :=
  match dliFname with
  | none => [dot]
  | some path =>
      match lastIndex slash path with
      | none => [dot]
      | some pos => path.take pos

/-- `"Codecs"` -/
def codecsFolder : Bytes := [67, 111, 100, 101, 99, 115]

/-- `"Formats"` -/
def formatsFolder : Bytes := [70, 111, 114, 109, 97, 116, 115]

/-! ## The library -/

/-- `C7ZipLibrary`, with the account of its handles: the next one `dlopen`
    returns, and those that were closed. -/
structure Library (σ : Type) where
  initialized : Bool
  internalObjects : List (DllHandler σ)
  nextHandle : Nat
  closed : List Nat

namespace Library

/-- `C7ZipLibrary::C7ZipLibrary` -/
def new : Library σ :=
  { initialized := false, internalObjects := [], nextHandle := 0, closed := [] }

/-- What is done with a handle `dlopen` returned: a handler that is initialized
    is kept, another one is deleted. -/
def load (lib : Library σ) (functions : Functions σ) : Library σ :=
  let handler := DllHandler.new lib.nextHandle functions
  if handler.initialized then
    { lib with
      internalObjects := lib.internalObjects ++ [handler]
      nextHandle := lib.nextHandle + 1 }
  else
    { lib with
      nextHandle := lib.nextHandle + 1
      closed := lib.closed ++ [handler.pHandler] }

mutual

/-- `myselect`, the filter of `scandir`. -/
def myselect : FolderEntry σ → Library σ → Library σ
  | .plain name dll, lib =>
      if isDots name then lib
      else
        match dll with
        | none => lib
        | some functions => lib.load functions
  | .unreadable _, lib => lib
  | .folder name entries, lib => if isDots name then lib else scandir entries lib

/-- `scandir`, of which only the filter matters; it selects nothing. -/
def scandir : List (FolderEntry σ) → Library σ → Library σ
  | [], lib => lib
  | entry :: entries, lib => scandir entries (myselect entry lib)

end

/-- `LoadDllFromFolder` -/
def loadDllFromFolder (env : InitEnv σ) (folderName : Bytes) (lib : Library σ) : Library σ :=
  match env.chdir (getHandlerPath env.dliFname ++ slash :: folderName) with
  | none => lib
  | some entries => scandir entries lib

/-- `C7ZipLibrary::Initialize` -/
def initializeLibrary (env : InitEnv σ) (lib : Library σ) : Bool × Library σ :=
  if lib.initialized then (true, lib)
  else
    match env.main with
    | none => (false, lib)
    | some functions =>
        let lib' := lib.load functions
        if (DllHandler.new lib.nextHandle functions).initialized then
          let lib' := loadDllFromFolder env codecsFolder { lib' with initialized := true }
          let lib' := loadDllFromFolder env formatsFolder lib'
          (lib'.initialized, lib')
        else (false, { lib' with initialized := false })

/-- `C7ZipObjectPtrArray::clear`, which deletes the handlers in order. -/
def clear (lib : Library σ) : Library σ :=
  { lib with
    internalObjects := []
    closed := lib.closed ++ lib.internalObjects.map DllHandler.pHandler }

/-- `C7ZipLibrary::Deinitialize` -/
def deinitializeLibrary (lib : Library σ) : Library σ :=
  if !lib.initialized then lib else { lib.clear with initialized := false }

/-- `C7ZipLibrary::~C7ZipLibrary`, and then the array it has. -/
def destroy (lib : Library σ) : Library σ := lib.deinitializeLibrary.clear

/-- `C7ZipLibrary::GetSupportedExts` -/
def getSupportedExts (lib : Library σ) : Bool × List (List WChar) :=
  if !lib.initialized then (false, [])
  else (true, lib.internalObjects.foldl (fun exts handler => handler.getSupportedExts exts) [])

/-- The loop of `C7ZipLibrary::OpenArchive`. -/
def openLoop (getExt : σ → List WChar) : List (DllHandler σ) → σ → Option ArchiveImpl × σ
  | [], stream => (none, stream)
  | handler :: handlers, stream =>
      match handler.openArchive getExt stream with
      | (some archive, stream') => (some archive, stream')
      | (none, stream') => openLoop getExt handlers stream'

/-- `C7ZipLibrary::OpenArchive` -/
def openArchive (getExt : σ → List WChar) (lib : Library σ) (stream : σ) : Option ArchiveImpl × σ :=
  if !lib.initialized then (none, stream) else openLoop getExt lib.internalObjects stream

end Library

/-! ## The machine -/

/-- A call of a `C7ZipLibrary`. -/
inductive LibCall (σ : Type) where
  | initializeLibrary (env : InitEnv σ)
  | deinitializeLibrary
  | getSupportedExts
  | openArchive (getExt : σ → List WChar) (stream : σ)

/-- What it returns. -/
inductive LibReply (σ : Type) where
  | ret (r : Bool)
  | done
  | exts (r : Bool) (exts : List (List WChar))
  | archive (ppArchive : Option ArchiveImpl) (stream : σ)

/-- One call. -/
def libStep (lib : Library σ) : LibCall σ → LibReply σ × Library σ
  | .initializeLibrary env =>
      (.ret (lib.initializeLibrary env).1, (lib.initializeLibrary env).2)
  | .deinitializeLibrary => (.done, lib.deinitializeLibrary)
  | .getSupportedExts => (.exts lib.getSupportedExts.1 lib.getSupportedExts.2, lib)
  | .openArchive getExt stream =>
      (.archive (lib.openArchive getExt stream).1 (lib.openArchive getExt stream).2, lib)

/-! ## What loading keeps -/

namespace Library

/-- What every change of the library keeps: a handle is that of one handler or
    was closed, once, and the handlers are those of libraries that are of use. -/
structure Accounted (lib : Library σ) : Prop where
  accounts : (lib.internalObjects.map DllHandler.pHandler ++ lib.closed).Perm
    (List.range lib.nextHandle)
  loaded : ∀ handler ∈ lib.internalObjects, handler.initialized = true ∧
    ∃ pHandler functions, handler = DllHandler.new pHandler functions

theorem pHandler_new (pHandler : Nat) (functions : Functions σ) :
    (DllHandler.new pHandler functions).pHandler = pHandler := by
  rw [DllHandler.new]
  split_ifs with hvalid
  · rfl
  · rfl

/-- A library that is loaded is kept open or closed. -/
theorem load_cases (lib : Library σ) (functions : Functions σ) :
    ((DllHandler.new lib.nextHandle functions).initialized = true ∧
      lib.load functions = { lib with
        internalObjects := lib.internalObjects ++ [DllHandler.new lib.nextHandle functions]
        nextHandle := lib.nextHandle + 1 }) ∨
    ((DllHandler.new lib.nextHandle functions).initialized = false ∧
      lib.load functions = { lib with
        nextHandle := lib.nextHandle + 1
        closed := lib.closed ++ [lib.nextHandle] }) := by
  by_cases hinit : (DllHandler.new lib.nextHandle functions).initialized = true
  · exact Or.inl ⟨hinit, if_pos hinit⟩
  · refine Or.inr ⟨Bool.eq_false_iff.mpr hinit, ?_⟩
    have hclose : lib.load functions = { lib with
        nextHandle := lib.nextHandle + 1
        closed := lib.closed ++ [(DllHandler.new lib.nextHandle functions).pHandler] } :=
      if_neg hinit
    rw [hclose, pHandler_new]

theorem Accounted.load {lib : Library σ} (h : lib.Accounted) (functions : Functions σ) :
    (lib.load functions).Accounted := by
  have haccounts := h.accounts
  rw [List.perm_iff_count] at haccounts
  obtain ⟨hinit, heq⟩ | ⟨hinit, heq⟩ := lib.load_cases functions
  · rw [heq]
    refine ⟨?_, ?_⟩
    · rw [List.perm_iff_count]
      intro a
      have ha := haccounts a
      simp only [List.count_append, List.map_append, List.map_singleton, pHandler_new,
        List.range_succ] at ha ⊢
      omega
    · intro handler hmem
      rcases List.mem_append.mp hmem with hold | hnew
      · exact h.loaded handler hold
      · rw [List.mem_singleton.mp hnew]
        exact ⟨hinit, lib.nextHandle, functions, rfl⟩
  · rw [heq]
    refine ⟨?_, h.loaded⟩
    rw [List.perm_iff_count]
    intro a
    have ha := haccounts a
    simp only [List.count_append, List.range_succ] at ha ⊢
    omega

mutual

/-- What loading a library keeps, selecting an entry keeps. -/
theorem myselect_keeps {P : Library σ → Prop}
    (hload : ∀ lib functions, P lib → P (lib.load functions)) :
    ∀ (entry : FolderEntry σ) (lib : Library σ), P lib → P (myselect entry lib)
  | .plain name dll, lib, h => by
      unfold myselect
      split_ifs with hdots
      · exact h
      · cases dll with
        | none => exact h
        | some functions => exact hload lib functions h
  | .unreadable _, lib, h => h
  | .folder name entries, lib, h => by
      unfold myselect
      split_ifs with hdots
      · exact h
      · exact scandir_keeps hload entries lib h

/-- And so does scanning a folder. -/
theorem scandir_keeps {P : Library σ → Prop}
    (hload : ∀ lib functions, P lib → P (lib.load functions)) :
    ∀ (entries : List (FolderEntry σ)) (lib : Library σ), P lib → P (scandir entries lib)
  | [], lib, h => h
  | entry :: entries, lib, h => by
      unfold scandir
      exact scandir_keeps hload entries _ (myselect_keeps hload entry lib h)

end

theorem loadDllFromFolder_keeps {P : Library σ → Prop}
    (hload : ∀ lib functions, P lib → P (lib.load functions)) (env : InitEnv σ)
    (folderName : Bytes) {lib : Library σ} (h : P lib) :
    P (loadDllFromFolder env folderName lib) := by
  rw [loadDllFromFolder]
  cases env.chdir (getHandlerPath env.dliFname ++ slash :: folderName) with
  | none => exact h
  | some entries => exact scandir_keeps hload entries lib h

/-! ## The invariant of a library -/

/-- What holds between two calls: besides the accounts, a library is
    initialized just when it has handlers. -/
structure Inv (lib : Library σ) : Prop extends Accounted lib where
  initialized_iff : lib.initialized = true ↔ lib.internalObjects ≠ []

/-- The library of a handler is not closed. -/
theorem Accounted.not_closed {lib : Library σ} (h : lib.Accounted) {handler : DllHandler σ}
    (hmem : handler ∈ lib.internalObjects) : handler.pHandler ∉ lib.closed := by
  have hnodup := h.accounts.nodup_iff.mpr List.nodup_range
  intro hclosed
  exact (List.nodup_append.mp hnodup).2.2 _ (List.mem_map_of_mem hmem) _ hclosed rfl

theorem inv_new : (new : Library σ).Inv where
  accounts := List.Perm.refl []
  loaded := fun _ h => absurd h List.not_mem_nil
  initialized_iff := iff_of_false Bool.false_ne_true fun h => h rfl

/-- An initialized library with a handler, which is what plugins are added to. -/
def Running (lib : Library σ) : Prop :=
  lib.Accounted ∧ lib.initialized = true ∧ lib.internalObjects ≠ []

theorem Running.load {lib : Library σ} (h : lib.Running) (functions : Functions σ) :
    (lib.load functions).Running := by
  obtain ⟨haccounted, hinitialized, hne⟩ := h
  refine ⟨haccounted.load functions, ?_⟩
  obtain ⟨-, heq⟩ | ⟨-, heq⟩ := lib.load_cases functions
  · rw [heq]
    exact ⟨hinitialized, List.append_ne_nil_of_left_ne_nil hne _⟩
  · rw [heq]
    exact ⟨hinitialized, hne⟩

theorem Running.inv {lib : Library σ} (h : lib.Running) : lib.Inv where
  toAccounted := h.1
  initialized_iff := iff_of_true h.2.1 h.2.2

/-- What `Initialize` does, and that it returns whether the library is
    initialized then. -/
theorem initializeLibrary_inv {lib : Library σ} (h : lib.Inv) (env : InitEnv σ) :
    (lib.initializeLibrary env).2.Inv ∧
      (lib.initializeLibrary env).1 = (lib.initializeLibrary env).2.initialized := by
  rw [initializeLibrary]
  cases hinitialized : lib.initialized with
  | true => exact ⟨h, hinitialized.symm⟩
  | false =>
      have hnil : lib.internalObjects = [] := by
        by_contra hne
        exact absurd (h.initialized_iff.mpr hne) (by simp [hinitialized])
      cases env.main with
      | none => exact ⟨h, hinitialized.symm⟩
      | some functions =>
          have hload := h.toAccounted.load functions
          obtain ⟨hinit, heq⟩ | ⟨hinit, heq⟩ := lib.load_cases functions
          · -- 7z.so is of use, and the plugins come on top
            have hrunning : Running { lib.load functions with initialized := true } := by
              refine ⟨⟨hload.accounts, hload.loaded⟩, rfl, ?_⟩
              show (lib.load functions).internalObjects ≠ []
              rw [heq]
              exact List.append_ne_nil_of_right_ne_nil _ (List.cons_ne_nil _ _)
            have hcodecs := loadDllFromFolder_keeps (P := Running)
              (fun _ functions h => h.load functions) env codecsFolder hrunning
            have hformats := loadDllFromFolder_keeps (P := Running)
              (fun _ functions h => h.load functions) env formatsFolder hcodecs
            simp only [hinit, if_true, Bool.false_eq_true, if_false]
            exact ⟨hformats.inv, trivial⟩
          · simp only [hinit, Bool.false_eq_true, if_false]
            refine ⟨⟨⟨hload.accounts, hload.loaded⟩, ?_⟩, trivial⟩
            refine iff_of_false (by simp) (not_not_intro ?_)
            show (lib.load functions).internalObjects = []
            rw [heq]
            exact hnil

theorem Accounted.clear {lib : Library σ} (h : lib.Accounted) : lib.clear.Accounted where
  accounts := by
    have hswap : (lib.closed ++ lib.internalObjects.map DllHandler.pHandler).Perm
        (lib.internalObjects.map DllHandler.pHandler ++ lib.closed) := List.perm_append_comm
    exact hswap.trans h.accounts
  loaded := fun _ hmem => absurd hmem List.not_mem_nil

theorem deinitializeLibrary_inv {lib : Library σ} (h : lib.Inv) : lib.deinitializeLibrary.Inv := by
  rw [deinitializeLibrary]
  split_ifs with hinitialized
  · exact h
  · exact ⟨⟨h.toAccounted.clear.accounts, h.toAccounted.clear.loaded⟩,
      iff_of_false (by simp) fun hne => hne rfl⟩

theorem libStep_inv {lib : Library σ} (h : lib.Inv) (c : LibCall σ) : (libStep lib c).2.Inv := by
  cases c with
  | initializeLibrary env => exact (initializeLibrary_inv h env).1
  | deinitializeLibrary => exact deinitializeLibrary_inv h
  | getSupportedExts => exact h
  | openArchive getExt stream => exact h

/-- Every state a library comes to. -/
theorem run_inv (cs : List (LibCall σ)) : (run libStep new cs).Inv :=
  run_invariant' (I := Inv) (fun _ c h => libStep_inv h c) cs inv_new

theorem destroy_nextHandle (lib : Library σ) : lib.destroy.nextHandle = lib.nextHandle := by
  rw [destroy, deinitializeLibrary]
  split_ifs with hinitialized
  · rfl
  · rfl

/-- The destructor closes all that is left. -/
theorem destroy_closed {lib : Library σ} (h : lib.Inv) :
    lib.destroy.closed.Perm (List.range lib.nextHandle) := by
  rw [← destroy_nextHandle]
  exact (deinitializeLibrary_inv h).toAccounted.clear.accounts

end Library

/-- **The handles of a library.**  After any calls in any order, every handle
    `dlopen` returned belongs to one handler or was closed, once; handlers are
    there just when the library is initialized; and the destructor closes the
    others, so that every handle has then been closed exactly once. -/
theorem library_accounts (cs : List (LibCall σ)) :
    ((run libStep Library.new cs).internalObjects.map DllHandler.pHandler ++
        (run libStep Library.new cs).closed).Perm
      (List.range (run libStep Library.new cs).nextHandle) ∧
    ((run libStep Library.new cs).initialized = true ↔
      (run libStep Library.new cs).internalObjects ≠ []) ∧
    (run libStep Library.new cs).destroy.closed.Perm
      (List.range (run libStep Library.new cs).nextHandle) := by
  have hinv := Library.run_inv cs
  exact ⟨hinv.accounts, hinv.initialized_iff, Library.destroy_closed hinv⟩

end Fuse7z
