/-
  Fuse7z.Program

  `main`: from the arguments over the mounted archive to the exit code.

  What libfuse does is a parameter: what it makes of the command line, whether
  it can mount, and the callbacks it makes then.  `main_outcome` says how the
  program ends for all of it.  Nothing catches what `fuse7z_initlib` throws,
  and `data` is given to libfuse without a value when the version was asked
  for.  A program that served releases what it has once, the archive before the
  libraries, and removes the mount point it was told to make, whether or not it
  was the one to make it.
-/
import Fuse7z.CommandLine
import Fuse7z.Initlib
import Fuse7z.Teardown
import Fuse7z.Lib.Simulation

namespace Fuse7z

open Lib Fuse7zLib7zip

/-! ## Destructors -/

/-- What the destructors of `Fuse7z_lib7zip` release. -/
inductive Release where
  /-- `delete archive` -/
  | archive
  /-- `dlclose` -/
  | handle (handle : Nat)
  /-- `fclose(m_pFile)` -/
  | file
  | deletion (d : Deletion)
deriving DecidableEq, Repr

/-- The handles closed from one state of the library to another. -/
def closedBetween {σ : Type} (lib lib' : Library σ) : List Nat := lib'.closed.drop lib.closed.length

/-- `delete data`: the destructor of `Fuse7z_lib7zip`, those of its members, the
    last one first, and that of `Fuse7z`. -/
def Fuse7zData.destroy (data : Fuse7zData) : Option (List Release) :=
  (deleteTree data.fs).map fun ds =>
    .archive :: (closedBetween data.lib data.lib.deinitializeLibrary).map .handle ++
      .file :: (closedBetween data.lib.deinitializeLibrary
        data.lib.deinitializeLibrary.destroy).map .handle ++
      ds.map .deletion

/-! ## main -/

/-- What libfuse does once it has mounted: the callbacks it makes, and what
    `fuse_loop` returns. -/
structure Service where
  callbacks : List Callback
  res : Int32

/-- What the program meets outside itself. -/
structure MainEnv where
  events : List OptEvent
  /-- whether `getcwd` succeeds -/
  getcwd : Bool
  initlib : InitlibEnv
  /-- whether a directory can be made, or removed -/
  mkdir : Bytes → Bool
  rmdir : Bytes → Bool
  /-- `fuse_setup`, by the arguments that were kept; how libfuse writes them down
      for it is its own -/
  fuseSetup : List Bytes → Option Service

/-- Where the program leaves what C++ defines. -/
inductive Undefined where
  | overrun (length : Nat)
  | load (f : LoadFault)
  | callback (f : Fault)
  /-- `data` is used, which has no value -/
  | indeterminate
deriving DecidableEq, Repr

inductive Outcome where
  | exit (code : Int32)
  /-- `std::terminate`, for an exception of `fuse7z_initlib` -/
  | terminated (e : InitError)
  | undefined (u : Undefined)
deriving DecidableEq, Repr

/-- A call that makes or removes a directory, and whether it succeeded. -/
inductive DirCall where
  | mkdir (path : Bytes) (made : Bool)
  | rmdir (path : Bytes) (removed : Bool)
deriving DecidableEq, Repr

structure Ending where
  outcome : Outcome
  dirCalls : List DirCall
  /-- what is released when `data` is deleted -/
  released : Option (List Release)
deriving DecidableEq, Repr

/-- The program ends with nothing done. -/
def Ending.early (outcome : Outcome) : Ending := { outcome, dirCalls := [], released := none }

/-- The first fault among the replies. -/
def firstFault (rs : List Reply) : Option Fault :=
  rs.findSome? fun
    | .fault f => some f
    | _ => none

/-- The directory `main` makes before it serves, and removes behind that; what
    the calls return is not looked at. -/
def madeFor (env : MainEnv) (s : OptState) : List DirCall :=
  if s.param.automake then [.mkdir s.param.mountpoint (env.mkdir s.param.mountpoint)] else []

def removedFor (env : MainEnv) (s : OptState) : List DirCall :=
  if s.param.automake then [.rmdir s.param.mountpoint (env.rmdir s.param.mountpoint)] else []

/-- `main` from the `mkdir` on. -/
def serve (env : MainEnv) (s : OptState) (data : Option Fuse7zData) : Ending :=
  match env.fuseSetup s.outargs with
  | none => { outcome := .exit 7, dirCalls := madeFor env s, released := none }
  | some service =>
      match data with
      | none =>
          { outcome := .undefined .indeterminate, dirCalls := madeFor env s, released := none }
      | some data =>
          match firstFault (replies step data.fs service.callbacks) with
          | some f =>
              { outcome := .undefined (.callback f), dirCalls := madeFor env s, released := none }
          | none =>
              { outcome := .exit (if service.res = 0 then 0 else 8)
                dirCalls := madeFor env s ++ removedFor env s
                released := { data with fs := run step data.fs service.callbacks }.destroy }

/-- `main` behind `getcwd`; `fuse7z_initlib` does not return NULL, so that the
    program does not exit with 5. -/
def mainStarted (env : MainEnv) (s : OptState) : Ending :=
  if s.param.version then serve env s none
  else
    match s.param.fileName with
    | none => .early (.exit 4)
    | some fileName =>
        match fuse7zInitlib env.initlib fileName with
        | .error (.load f, _) => .early (.undefined (.load f))
        | .error (e, _) => .early (.terminated e)
        | .ok data => serve env s (some data)

/-- `main` behind `fuse_opt_parse`. -/
def mainParsed (env : MainEnv) (s : OptState) : Ending :=
  if s.param.help then .early (.exit 3)
  else if !env.getcwd then .early (.exit 4)
  else mainStarted env s

/-- `main` -/
def main (env : MainEnv) : Ending :=
  match fuseOptParse env.events with
  | .error (.overrun length) => .early (.undefined (.overrun length))
  | .error .refused => .early (.exit 2)
  | .ok s => mainParsed env s

/-! ## What is released -/

/-- `Deinitialize` closes the library of every handler, and leaves nothing for
    the destructor of the library. -/
theorem closedBetween_deinitialize {σ : Type} {lib : Library σ} (h : lib.Inv) :
    closedBetween lib lib.deinitializeLibrary = lib.internalObjects.map DllHandler.pHandler ∧
      closedBetween lib.deinitializeLibrary lib.deinitializeLibrary.destroy = [] := by
  cases hinit : lib.initialized with
  | true => simp [closedBetween, Library.destroy, Library.deinitializeLibrary, Library.clear, hinit]
  | false =>
      have hnone : lib.internalObjects = [] := by
        by_contra hne
        exact absurd (h.initialized_iff.mpr hne) (by simp [hinit])
      simp [closedBetween, Library.destroy, Library.deinitializeLibrary, Library.clear, hinit, hnone]

/-- What a file system that served releases: the archive, then the library of
    every handler, the file, and every node once with the streams at the
    nodes. -/
structure Releases (lib : Library (File Byte)) (fs : Fuse7zLib7zip) (rs : List Release) : Prop where
  sequence : ∃ ds, rs =
      .archive :: (lib.internalObjects.map DllHandler.pHandler).map .handle ++ .file ::
        ds.map .deletion ∧
    (nodesOf ds).Perm (List.range fs.tree.nodes.size) ∧
    (streamsOf ds).Perm (held (streamAt fs) fs.tree.nodes.size)
  /-- the handles are those that were not closed before -/
  handles : (lib.internalObjects.map DllHandler.pHandler ++ lib.closed).Perm
    (List.range lib.nextHandle)

theorem releases_destroy {data : Fuse7zData} (hlib : data.lib.Inv)
    (hwf : data.fs.tree.WF data.fs.rootNode) :
    ∃ rs, data.destroy = some rs ∧ Releases data.lib data.fs rs := by
  obtain ⟨ds, hds, hnodes, hstreams⟩ := deleteTree_spec hwf
  obtain ⟨hfirst, hsecond⟩ := closedBetween_deinitialize hlib
  refine ⟨_, by rw [Fuse7zData.destroy, hds, Option.map_some], ⟨ds, ?_, hnodes, hstreams⟩,
    hlib.accounts⟩
  rw [hfirst, hsecond]
  simp

/-! ## How the program ends -/

/-- The arguments come to `s`. -/
structure Reads (env : MainEnv) (s : OptState) : Prop where
  parse : fuseOptParse env.events = .ok s
  parsed : Parsed env.events s

/-- `main` gets behind `getcwd`. -/
structure Starts (env : MainEnv) (s : OptState) : Prop extends Reads env s where
  noHelp : ¬ HasKey .help env.events
  getcwd : env.getcwd = true

/-- The archive of the command line is mounted as `data`. -/
structure Mounts (env : MainEnv) (s : OptState) (data : Fuse7zData) : Prop extends Starts env s where
  noVersion : ¬ HasKey .version env.events
  archive : ∃ fileName, (nonopts env.events)[0]? = some fileName ∧
    fuse7zInitlib env.initlib fileName = .ok data

/-- How `main` ends, by what it was given. -/
inductive MainOutcome (env : MainEnv) : Ending → Prop
  /-- libfuse gives up, or there is an argument too many -/
  | refused (parse : fuseOptParse env.events = .error .refused) (front back : List OptEvent)
      (e : OptEvent) (split : env.events = front ++ e :: back) (parsed : ∃ s, Parsed front s)
      (reason : e = .fail ∨ ∃ arg, e = .call .nonopt arg ∧ (nonopts front).length = 2) :
      MainOutcome env (.early (.exit 2))
  /-- the second argument has no room, and the ones before it are read -/
  | overrun (front back : List OptEvent) (arg : Bytes)
      (parse : fuseOptParse env.events = .error (.overrun (cStr arg).length))
      (split : env.events = front ++ .call .nonopt arg :: back) (parsed : ∃ s, Parsed front s)
      (second : (nonopts front).length = 1) (long : mountpointSize ≤ (cStr arg).length) :
      MainOutcome env (.early (.undefined (.overrun (cStr arg).length)))
  | help (s : OptState) (reads : Reads env s) (given : HasKey .help env.events) :
      MainOutcome env (.early (.exit 3))
  | noDirectory (s : OptState) (reads : Reads env s) (noHelp : ¬ HasKey .help env.events)
      (getcwd : env.getcwd = false) : MainOutcome env (.early (.exit 4))
  | noArchive (s : OptState) (starts : Starts env s) (noVersion : ¬ HasKey .version env.events)
      (noFile : nonopts env.events = []) : MainOutcome env (.early (.exit 4))
  /-- nothing is served, and no directory made, when the constructor throws -/
  | terminated (s : OptState) (starts : Starts env s) (noVersion : ¬ HasKey .version env.events)
      (fileName : Bytes) (first : (nonopts env.events)[0]? = some fileName) (e : InitError)
      (lib : Library (File Byte))
      (throws : fuse7zInitlib env.initlib fileName = .error (e, lib)) (exn : ∀ f, e ≠ .load f) :
      MainOutcome env (.early (.terminated e))
  | tooManyItems (s : OptState) (starts : Starts env s) (noVersion : ¬ HasKey .version env.events)
      (fileName : Bytes) (first : (nonopts env.events)[0]? = some fileName) (f : LoadFault)
      (lib : Library (File Byte))
      (crashes : fuse7zInitlib env.initlib fileName = .error (.load f, lib)) :
      MainOutcome env (.early (.undefined (.load f)))
  /-- libfuse does not mount: the directory stays, and nothing is released -/
  | unserved (s : OptState)
      (ready : (Starts env s ∧ HasKey .version env.events) ∨ ∃ data, Mounts env s data)
      (setup : env.fuseSetup s.outargs = none) :
      MainOutcome env { outcome := .exit 7, dirCalls := madeFor env s, released := none }
  /-- libfuse mounts what has no value -/
  | indeterminate (s : OptState) (starts : Starts env s) (version : HasKey .version env.events)
      (service : Service) (setup : env.fuseSetup s.outargs = some service) :
      MainOutcome env
        { outcome := .undefined .indeterminate, dirCalls := madeFor env s, released := none }
  /-- a callback crashes, behind others that do not -/
  | crashed (s : OptState) (data : Fuse7zData) (mounts : Mounts env s data) (service : Service)
      (setup : env.fuseSetup s.outargs = some service) (front back : List Callback)
      (e : Callback) (split : service.callbacks = front ++ e :: back)
      (safe : ∀ r ∈ replies step data.fs front, ∀ f, r ≠ .fault f) (f : Fault)
      (crash : (step (run step data.fs front) e).1 = .fault f) :
      MainOutcome env
        { outcome := .undefined (.callback f), dirCalls := madeFor env s, released := none }
  /-- the program served, and releases what it has -/
  | served (s : OptState) (data : Fuse7zData) (mounts : Mounts env s data) (service : Service)
      (setup : env.fuseSetup s.outargs = some service)
      (safe : ∀ r ∈ replies step data.fs service.callbacks, ∀ f, r ≠ .fault f)
      (rs : List Release)
      (destroyed : { data with fs := run step data.fs service.callbacks }.destroy = some rs)
      (releases : Releases data.lib (run step data.fs service.callbacks) rs) :
      MainOutcome env
        { outcome := .exit (if service.res = 0 then 0 else 8)
          dirCalls := madeFor env s ++ removedFor env s
          released := some rs }

theorem firstFault_eq_none_iff {rs : List Reply} :
    firstFault rs = none ↔ ∀ r ∈ rs, ∀ f, r ≠ .fault f := by
  rw [firstFault, List.findSome?_eq_none_iff]
  refine forall₂_congr fun r _ => ?_
  cases r with
  | fault f => simp
  | _ => simp

/-- The first fault is a callback's that crashes behind others that do not. -/
theorem firstFault_replies_iff {fs : Fuse7zLib7zip} {es : List Callback} {f : Fault} :
    firstFault (replies step fs es) = some f ↔
      ∃ front e back, es = front ++ e :: back ∧
        (∀ r ∈ replies step fs front, ∀ f, r ≠ .fault f) ∧
        (step (run step fs front) e).1 = .fault f := by
  rw [firstFault, findSome?_replies_eq_some_iff]
  refine exists_congr fun front => exists_congr fun e => exists_congr fun back => ?_
  refine and_congr_right fun _ => and_congr firstFault_eq_none_iff ?_
  cases (step (run step fs front) e).1 with
  | fault f' => simp
  | _ => simp

/-- From the `mkdir` on, for a file system of the archive on the command line. -/
theorem serve_outcome {env : MainEnv} {s : OptState} {data : Fuse7zData}
    (h : Mounts env s data) : MainOutcome env (serve env s (some data)) := by
  rw [serve]
  cases hsetup : env.fuseSetup s.outargs with
  | none => exact .unserved s (Or.inr ⟨data, h⟩) hsetup
  | some service =>
      cases hfault : firstFault (replies step data.fs service.callbacks) with
      | some f =>
          obtain ⟨front, e, back, hsplit, hfront, hcrash⟩ := firstFault_replies_iff.mp hfault
          simp only [hfault]
          exact .crashed s data h service hsetup front back e hsplit hfront f hcrash
      | none =>
          obtain ⟨fileName, -, hdata⟩ := h.archive
          obtain ⟨hlib, numItems, hfs⟩ := initlib_ok env.initlib fileName hdata
          have hroot : (run step data.fs service.callbacks).rootNode = rootAddr := by
            rw [(run_frame data.fs service.callbacks).rootNode, hfs]
            rfl
          have hwf : (run step data.fs service.callbacks).tree.WF
              (run step data.fs service.callbacks).rootNode := by
            rw [hroot, hfs]
            exact run_wf _ _ _ _ _
          obtain ⟨rs, hrs, hreleases⟩ :=
            @releases_destroy { data with fs := run step data.fs service.callbacks } hlib hwf
          simp only [hfault, hrs]
          exact .served s data h service hsetup (firstFault_eq_none_iff.mp hfault) rs hrs hreleases

theorem main_of_reads {env : MainEnv} {s : OptState} (h : Reads env s) :
    main env = mainParsed env s := by
  rw [main, h.parse]

theorem mainStarted_outcome {env : MainEnv} {s : OptState} (h : Starts env s) :
    MainOutcome env (mainStarted env s) := by
  rw [mainStarted]
  by_cases hversion : s.param.version = true
  · have hgiven := h.parsed.version.mp hversion
    rw [if_pos hversion, serve]
    cases hsetup : env.fuseSetup s.outargs with
    | none => exact .unserved s (Or.inl ⟨h, hgiven⟩) hsetup
    | some service => exact .indeterminate s h hgiven service hsetup
  · have hno : ¬ HasKey .version env.events := mt h.parsed.version.mpr hversion
    have hfile := h.parsed.fileName
    rw [if_neg hversion]
    cases hname : s.param.fileName with
    | none =>
        rw [hname] at hfile
        exact .noArchive s h hno (List.eq_nil_of_length_eq_zero
          (Nat.le_zero.mp (List.getElem?_eq_none_iff.mp hfile.symm)))
    | some fileName =>
        rw [hname] at hfile
        cases hinit : fuse7zInitlib env.initlib fileName with
        | ok data =>
            simp only [hinit]
            exact serve_outcome ⟨h, hno, fileName, hfile.symm, hinit⟩
        | error failure =>
            obtain ⟨e, lib⟩ := failure
            simp only [hinit]
            cases e with
            | load f => exact .tooManyItems s h hno fileName hfile.symm f lib hinit
            | _ =>
                exact .terminated s h hno fileName hfile.symm _ lib hinit fun f h =>
                  InitError.noConfusion h

theorem mainParsed_outcome {env : MainEnv} {s : OptState} (h : Reads env s) :
    MainOutcome env (mainParsed env s) := by
  rw [mainParsed]
  by_cases hhelp : s.param.help = true
  · rw [if_pos hhelp]
    exact .help s h (h.parsed.help.mp hhelp)
  · rw [if_neg hhelp]
    have hnohelp : ¬ HasKey .help env.events := mt h.parsed.help.mpr hhelp
    cases hcwd : env.getcwd with
    | false => exact .noDirectory s h hnohelp hcwd
    | true =>
        rw [if_neg (by simp)]
        exact mainStarted_outcome ⟨h, hnohelp, hcwd⟩

theorem mainOutcome_main (env : MainEnv) : MainOutcome env (main env) := by
  have hparse := fuseOptParse_cases env.events
  cases hs : fuseOptParse env.events with
  | error stop =>
      rw [main, hs]
      rw [hs] at hparse
      cases hparse with
      | refused front back e split parsed reason =>
          exact .refused hs front back e split parsed reason
      | overrun front back arg split parsed second long =>
          exact .overrun front back arg hs split parsed second long
  | ok s =>
      rw [hs] at hparse
      cases hparse with
      | parsed s parsed =>
          have hreads : Reads env s := ⟨hs, parsed⟩
          rw [main_of_reads hreads]
          exact mainParsed_outcome hreads

theorem main_of_starts {env : MainEnv} {s : OptState} (h : Starts env s) :
    main env = mainStarted env s := by
  have hhelp : ¬ s.param.help = true := mt h.parsed.help.mp h.noHelp
  rw [main_of_reads h.toReads, mainParsed, if_neg hhelp, h.getcwd]
  rfl

/-- The version was asked for. -/
theorem main_of_version {env : MainEnv} {s : OptState} (h : Starts env s)
    (hversion : HasKey .version env.events) : main env = serve env s none := by
  rw [main_of_starts h, mainStarted, if_pos (h.parsed.version.mpr hversion)]

/-- An archive was given, and is asked for. -/
theorem main_of_archive {env : MainEnv} {s : OptState} (h : Starts env s)
    (hversion : ¬ HasKey .version env.events) {fileName : Bytes}
    (hfirst : (nonopts env.events)[0]? = some fileName) :
    main env =
      match fuse7zInitlib env.initlib fileName with
      | .error (.load f, _) => .early (.undefined (.load f))
      | .error (e, _) => .early (.terminated e)
      | .ok data => serve env s (some data) := by
  have hno : ¬ s.param.version = true := mt h.parsed.version.mp hversion
  rw [main_of_starts h, mainStarted, if_neg hno, h.parsed.fileName, hfirst]

theorem main_of_mounts {env : MainEnv} {s : OptState} {data : Fuse7zData} (h : Mounts env s data) :
    main env = serve env s (some data) := by
  obtain ⟨fileName, hfirst, hdata⟩ := h.archive
  rw [main_of_archive h.toStarts h.noVersion hfirst, hdata]

/-- **How the program ends**, whatever it is called with and whatever it meets:
    in one of these ways, which exclude each other. -/
theorem main_outcome (env : MainEnv) (r : Ending) : main env = r ↔ MainOutcome env r := by
  refine ⟨?_, ?_⟩
  · rintro rfl
    exact mainOutcome_main env
  · intro h
    cases h with
    | refused parse front back e split parsed reason => rw [main, parse]
    | overrun front back arg parse split parsed second long => rw [main, parse]
    | help s reads given =>
        rw [main_of_reads reads, mainParsed, if_pos (reads.parsed.help.mpr given)]
    | noDirectory s reads noHelp getcwd =>
        have hhelp : ¬ s.param.help = true := mt reads.parsed.help.mp noHelp
        rw [main_of_reads reads, mainParsed, if_neg hhelp, getcwd]
        rfl
    | noArchive s starts noVersion noFile =>
        have hversion : ¬ s.param.version = true := mt starts.parsed.version.mp noVersion
        rw [main_of_starts starts, mainStarted, if_neg hversion, starts.parsed.fileName, noFile]
        rfl
    | terminated s starts noVersion fileName first e lib throws exn =>
        rw [main_of_archive starts noVersion first, throws]
        cases e with
        | load f => exact absurd rfl (exn f)
        | _ => rfl
    | tooManyItems s starts noVersion fileName first f lib crashes =>
        rw [main_of_archive starts noVersion first, crashes]
    | unserved s ready setup =>
        obtain ⟨starts, version⟩ | ⟨data, mounts⟩ := ready
        · rw [main_of_version starts version, serve, setup]
        · rw [main_of_mounts mounts, serve, setup]
    | indeterminate s starts version service setup =>
        rw [main_of_version starts version, serve, setup]
    | crashed s data mounts service setup front back e split safe f crash =>
        have hfault := firstFault_replies_iff.mpr ⟨front, e, back, split, safe, crash⟩
        rw [main_of_mounts mounts, serve, setup]
        simp only [hfault]
    | served s data mounts service setup safe rs destroyed releases =>
        have hnone := firstFault_eq_none_iff.mpr safe
        rw [main_of_mounts mounts, serve, setup]
        simp only [hnone, destroyed]

end Fuse7z
