/-
  Fuse7z.CommandLine

  The arguments of the program: `process_arg`, as `fuse_opt_parse` calls it for
  one argument after another.

  What libfuse makes of the command line is a parameter, the calls it comes to
  (`OptEvent`).  The first argument that is no option names the archive, the
  second one the mount point, and a third one is refused.  The mount point is
  copied into an array of 4096 bytes, whatever its length.
-/
import Fuse7z.Bytes
import Fuse7z.Lib.Fold
import Mathlib.Data.List.Perm.Basic

namespace Fuse7z

open Lib

/-! ## process_arg -/

/-- `sizeof(param->mountpoint)` -/
def mountpointSize : Nat := 4096

/-- `struct fuse7z_param`, what the program reads of it; `mountpoint` is the
    string in the array. -/
structure Fuse7zParam where
  syslog : Bool
  help : Bool
  version : Bool
  strArgCount : Nat
  fileName : Option Bytes
  automake : Bool
  mountpoint : Bytes
deriving DecidableEq, Repr

/-- The `key` of `process_arg`. -/
inductive Key where
  | help
  | version
  | auto
  | syslog
  /-- `FUSE_OPT_KEY_NONOPT` -/
  | nonopt
  /-- an option `fuse7z_opts` does not have -/
  | opt
deriving DecidableEq, Repr

/-- The return codes of `process_arg`. -/
inductive OptCode where
  | keep
  | discard
  | error
deriving DecidableEq, Repr

/-- `process_arg`; the failure is a `strcpy` past the end of the array, with
    the length of the string. -/
def processArg (param : Fuse7zParam) (arg : Bytes) : Key → Except Nat (OptCode × Fuse7zParam)
  | .help => .ok (.discard, { param with help := true })
  | .version => .ok (.keep, { param with version := true })
  | .auto => .ok (.discard, { param with automake := true })
  | .syslog => .ok (.discard, { param with syslog := true })
  | .nonopt =>
      let param := { param with strArgCount := param.strArgCount + 1 }
      match param.strArgCount with
      | 1 => .ok (.discard, { param with fileName := some arg })
      | 2 =>
          if mountpointSize ≤ (cStr arg).length then .error (cStr arg).length
          else .ok (.keep, { param with mountpoint := cStr arg })
      | _ => .ok (.error, param)
  | .opt => .ok (.keep, param)

/-! ## fuse_opt_parse -/

/-- What `fuse_opt_parse` does with the command line, step by step. -/
inductive OptEvent where
  | call (key : Key) (arg : Bytes)
  /-- it gives up by itself -/
  | fail
deriving DecidableEq, Repr

/-- Why `fuse_opt_parse` does not come to its end. -/
inductive OptStop where
  /-- it returns -1 -/
  | refused
  /-- a string of that length was copied into `mountpoint` -/
  | overrun (length : Nat)
deriving DecidableEq, Repr

/-- `param`, and the arguments kept so far. -/
structure OptState where
  param : Fuse7zParam
  outargs : List Bytes
deriving DecidableEq, Repr

/-- Static memory is zero. -/
def OptState.start : OptState where
  param :=
    { syslog := false
      help := false
      version := false
      strArgCount := 0
      fileName := none
      automake := false
      mountpoint := [] }
  outargs := []

def optStep (s : OptState) : OptEvent → Except OptStop OptState
  | .fail => .error .refused
  | .call key arg =>
      match processArg s.param arg key with
      | .error length => .error (.overrun length)
      | .ok (.error, _) => .error .refused
      | .ok (.keep, param) => .ok { param, outargs := s.outargs ++ [arg] }
      | .ok (.discard, param) => .ok { param, outargs := s.outargs }

def fuseOptParse (es : List OptEvent) : Except OptStop OptState := es.foldlM optStep .start

/-! ## What it comes to -/

/-- The argument of a call with one of the keys. -/
def OptEvent.argOf (keys : List Key) : OptEvent → Option Bytes
  | .call key arg => if key ∈ keys then some arg else none
  | .fail => none

/-- The arguments that are no options, in order. -/
def nonopts (es : List OptEvent) : List Bytes := es.filterMap (OptEvent.argOf [.nonopt])

/-- The options that are passed on, in order. -/
def options (es : List OptEvent) : List Bytes := es.filterMap (OptEvent.argOf [.version, .opt])

/-- All arguments, in order. -/
def args (es : List OptEvent) : List Bytes :=
  es.filterMap (OptEvent.argOf [.help, .version, .auto, .syslog, .nonopt, .opt])

def HasKey (key : Key) (es : List OptEvent) : Prop := ∃ arg, OptEvent.call key arg ∈ es

/-- What is in `param` and what is passed on after the arguments. -/
structure Parsed (es : List OptEvent) (s : OptState) : Prop where
  whole : .fail ∉ es
  few : (nonopts es).length ≤ 2
  count : s.param.strArgCount = (nonopts es).length
  fileName : s.param.fileName = (nonopts es)[0]?
  mountpoint : s.param.mountpoint = ((nonopts es)[1]?.map cStr).getD []
  fits : s.param.mountpoint.length < mountpointSize
  help : s.param.help = true ↔ HasKey .help es
  version : s.param.version = true ↔ HasKey .version es
  automake : s.param.automake = true ↔ HasKey .auto es
  syslog : s.param.syslog = true ↔ HasKey .syslog es
  /-- the options and the mount point are kept, but not the archive -/
  kept : s.outargs.Perm (options es ++ (nonopts es)[1]?.toList)
  order : s.outargs.Sublist (args es)

theorem parsed_start : Parsed [] .start where
  whole := List.not_mem_nil
  few := Nat.zero_le 2
  count := rfl
  fileName := rfl
  mountpoint := rfl
  fits := by decide
  help := by simp [HasKey, OptState.start]
  version := by simp [HasKey, OptState.start]
  automake := by simp [HasKey, OptState.start]
  syslog := by simp [HasKey, OptState.start]
  kept := List.Perm.refl []
  order := List.Sublist.refl []

theorem hasKey_concat_iff {key key' : Key} {es : List OptEvent} {arg : Bytes} :
    HasKey key (es ++ [.call key' arg]) ↔ HasKey key es ∨ key = key' := by
  simp only [HasKey, List.mem_append, List.mem_singleton, OptEvent.call.injEq, exists_or]
  simp

/-- An argument that is no option sets no flag. -/
theorem hasKey_nonopt_iff {flag : Key} {es : List OptEvent} {arg : Bytes} (h : flag ≠ .nonopt) :
    HasKey flag (es ++ [.call .nonopt arg]) ↔ HasKey flag es := by
  rw [hasKey_concat_iff, or_iff_left h]

theorem nonopts_concat (es : List OptEvent) (key : Key) (arg : Bytes) :
    nonopts (es ++ [.call key arg]) = if key = .nonopt then nonopts es ++ [arg] else nonopts es := by
  cases key <;> simp [nonopts, List.filterMap_append, OptEvent.argOf]

theorem options_concat (es : List OptEvent) (key : Key) (arg : Bytes) :
    options (es ++ [.call key arg])
      = if key = .version ∨ key = .opt then options es ++ [arg] else options es := by
  cases key <;> simp [options, List.filterMap_append, OptEvent.argOf]

theorem args_concat (es : List OptEvent) (key : Key) (arg : Bytes) :
    args (es ++ [.call key arg]) = args es ++ [arg] := by
  cases key <;> simp [args, List.filterMap_append, OptEvent.argOf]

theorem Parsed.count_cases {es : List OptEvent} {s : OptState} (h : Parsed es s) :
    s.param.strArgCount = 0 ∨ s.param.strArgCount = 1 ∨ s.param.strArgCount = 2 := by
  have hfew := h.few
  have hcount := h.count
  omega

/-- An option sets at most a flag, and is dropped or passed on. -/
theorem Parsed.option {es : List OptEvent} {s s' : OptState} (h : Parsed es s) {key : Key}
    {arg : Bytes} (hkey : key ≠ .nonopt)
    (hparam : s'.param =
      { s.param with
        help := s.param.help || key = .help
        version := s.param.version || key = .version
        automake := s.param.automake || key = .auto
        syslog := s.param.syslog || key = .syslog })
    (hout : s'.outargs = if key = .version ∨ key = .opt then s.outargs ++ [arg] else s.outargs) :
    Parsed (es ++ [.call key arg]) s' := by
  have hnonopts := nonopts_concat es key arg
  rw [if_neg hkey] at hnonopts
  have hflag : ∀ {b : Bool} {flag : Key}, (b = true ↔ HasKey flag es) →
      ((b || key = flag) = true ↔ HasKey flag (es ++ [.call key arg])) := by
    intro b flag hb
    rw [hasKey_concat_iff, Bool.or_eq_true, hb, decide_eq_true_iff]
    exact or_congr_right eq_comm
  refine ⟨?_, ?_, ?_, ?_, ?_, ?_, ?_, ?_, ?_, ?_, ?_, ?_⟩
  · simp [h.whole]
  · rw [hnonopts]
    exact h.few
  · rw [hnonopts, hparam]
    exact h.count
  · rw [hnonopts, hparam]
    exact h.fileName
  · rw [hnonopts, hparam]
    exact h.mountpoint
  · rw [hparam]
    exact h.fits
  · rw [hparam]
    exact hflag h.help
  · rw [hparam]
    exact hflag h.version
  · rw [hparam]
    exact hflag h.automake
  · rw [hparam]
    exact hflag h.syslog
  · rw [hnonopts, hout, options_concat]
    split_ifs
    · exact (h.kept.append_right [arg]).trans (by
        rw [List.append_assoc, List.append_assoc]
        exact List.perm_append_comm.append_left _)
    · exact h.kept
  · rw [hout, args_concat]
    split_ifs
    · exact h.order.append_right [arg]
    · exact h.order.trans (List.sublist_append_left _ _)

/-- The first argument that is no option. -/
theorem Parsed.archive {es : List OptEvent} {s : OptState} (h : Parsed es s) {arg : Bytes}
    (hnone : nonopts es = []) :
    Parsed (es ++ [.call .nonopt arg])
      { s with param := { s.param with strArgCount := 1, fileName := some arg } } := by
  have hnonopts : nonopts (es ++ [.call .nonopt arg]) = [arg] := by
    rw [nonopts_concat, if_pos rfl, hnone, List.nil_append]
  have hmountpoint := h.mountpoint
  have hkept := h.kept
  rw [hnone] at hmountpoint hkept
  refine ⟨?_, ?_, ?_, ?_, ?_, h.fits, ?_, ?_, ?_, ?_, ?_, ?_⟩
  · simp [h.whole]
  · rw [hnonopts]
    exact Nat.le_succ 1
  · rw [hnonopts]
    rfl
  · rw [hnonopts]
    rfl
  · rw [hnonopts]
    exact hmountpoint
  · rw [hasKey_nonopt_iff (by decide)]
    exact h.help
  · rw [hasKey_nonopt_iff (by decide)]
    exact h.version
  · rw [hasKey_nonopt_iff (by decide)]
    exact h.automake
  · rw [hasKey_nonopt_iff (by decide)]
    exact h.syslog
  · rw [hnonopts, options_concat]
    exact hkept
  · rw [args_concat]
    exact h.order.trans (List.sublist_append_left _ _)

/-- The second one, if there is room for it. -/
theorem Parsed.target {es : List OptEvent} {s : OptState} (h : Parsed es s) {arg : Bytes}
    (hone : (nonopts es).length = 1) (hfits : (cStr arg).length < mountpointSize) :
    Parsed (es ++ [.call .nonopt arg])
      { param := { s.param with strArgCount := 2, mountpoint := cStr arg }
        outargs := s.outargs ++ [arg] } := by
  obtain ⟨name, hname⟩ := List.length_eq_one_iff.mp hone
  have hnonopts : nonopts (es ++ [.call .nonopt arg]) = [name, arg] := by
    rw [nonopts_concat, if_pos rfl, hname]
    rfl
  have hfile := h.fileName
  have hkept := h.kept
  rw [hname] at hfile hkept
  refine ⟨?_, ?_, ?_, ?_, ?_, hfits, ?_, ?_, ?_, ?_, ?_, ?_⟩
  · simp [h.whole]
  · rw [hnonopts]
    exact Nat.le_refl 2
  · rw [hnonopts]
    rfl
  · rw [hnonopts]
    exact hfile
  · rw [hnonopts]
    rfl
  · rw [hasKey_nonopt_iff (by decide)]
    exact h.help
  · rw [hasKey_nonopt_iff (by decide)]
    exact h.version
  · rw [hasKey_nonopt_iff (by decide)]
    exact h.automake
  · rw [hasKey_nonopt_iff (by decide)]
    exact h.syslog
  · rw [hnonopts, options_concat]
    have hkept' : s.outargs.Perm (options es) := by
      rw [← List.append_nil (options es)]
      exact hkept
    exact hkept'.append_right [arg]
  · rw [args_concat]
    exact h.order.append_right [arg]

/-! ## Whole command lines -/

theorem optStep_archive {s : OptState} (h : s.param.strArgCount = 0) (arg : Bytes) :
    optStep s (.call .nonopt arg) =
      .ok { s with param := { s.param with strArgCount := 1, fileName := some arg } } := by
  simp [optStep, processArg, h]

theorem optStep_target {s : OptState} (h : s.param.strArgCount = 1) (arg : Bytes) :
    optStep s (.call .nonopt arg) =
      if mountpointSize ≤ (cStr arg).length then .error (.overrun (cStr arg).length)
      else
        .ok {
          param := { s.param with strArgCount := 2, mountpoint := cStr arg }
          outargs := s.outargs ++ [arg] } := by
  simp only [optStep, processArg, h, Nat.reduceAdd]
  split_ifs <;> rfl

theorem optStep_further {s : OptState} (h : s.param.strArgCount = 2) (arg : Bytes) :
    optStep s (.call .nonopt arg) = .error .refused := by
  simp [optStep, processArg, h]

theorem parsed_step {es : List OptEvent} {s s' : OptState} (h : Parsed es s) {e : OptEvent}
    (hstep : optStep s e = .ok s') : Parsed (es ++ [e]) s' := by
  cases e with
  | fail => exact absurd hstep (by simp [optStep])
  | call key arg =>
      cases key with
      | nonopt =>
          obtain hzero | hone | htwo := h.count_cases
          · rw [optStep_archive hzero] at hstep
            obtain rfl := Except.ok.inj hstep
            exact h.archive (List.eq_nil_of_length_eq_zero (h.count.symm.trans hzero))
          · rw [optStep_target hone] at hstep
            split_ifs at hstep with hlong
            obtain rfl := Except.ok.inj hstep
            exact h.target (h.count.symm.trans hone) (Nat.lt_of_not_le hlong)
          · rw [optStep_further htwo] at hstep
            exact absurd hstep (by simp)
      | _ =>
          obtain rfl := Except.ok.inj hstep
          exact h.option (by decide) (by simp) (by simp)

/-- How `fuse_opt_parse` ends. -/
inductive ParseOutcome (es : List OptEvent) : Except OptStop OptState → Prop
  | parsed (s : OptState) (parsed : Parsed es s) : ParseOutcome es (.ok s)
  /-- libfuse gave up, or there was an argument too many -/
  | refused (front back : List OptEvent) (e : OptEvent) (split : es = front ++ e :: back)
      (parsed : ∃ s, Parsed front s)
      (reason : e = .fail ∨ ∃ arg, e = .call .nonopt arg ∧ (nonopts front).length = 2) :
      ParseOutcome es (.error .refused)
  | overrun (front back : List OptEvent) (arg : Bytes)
      (split : es = front ++ .call .nonopt arg :: back) (parsed : ∃ s, Parsed front s)
      (second : (nonopts front).length = 1) (long : mountpointSize ≤ (cStr arg).length) :
      ParseOutcome es (.error (.overrun (cStr arg).length))

/-- **What is made of the arguments**: the first that is no option is the
    archive and the second the mount point, the flags are those that were given,
    and the other options are passed on, in order; or there are more than two,
    or the mount point has no room in its array. -/
theorem fuseOptParse_cases (es : List OptEvent) : ParseOutcome es (fuseOptParse es) := by
  have hok : ∀ {front : List OptEvent} {s : OptState}, front.foldlM optStep .start = .ok s →
      Parsed front s := by
    intro front s hs
    exact foldlM_ok (I := Parsed) (fun _ _ _ _ h hstep => parsed_step h hstep) parsed_start hs
  cases hparse : fuseOptParse es with
  | ok s => exact .parsed s (hok hparse)
  | error stop =>
      obtain ⟨front, e, back, s, hsplit, hs, hstop⟩ := foldlM_error hparse
      have h := hok hs
      cases e with
      | fail =>
          obtain rfl := Except.error.inj hstop
          exact .refused front back .fail hsplit ⟨s, h⟩ (Or.inl rfl)
      | call key arg =>
          cases key with
          | nonopt =>
              obtain hzero | hone | htwo := h.count_cases
              · rw [optStep_archive hzero] at hstop
                exact absurd hstop (by simp)
              · rw [optStep_target hone] at hstop
                split_ifs at hstop with hlong
                obtain rfl := Except.error.inj hstop
                exact .overrun front back arg hsplit ⟨s, h⟩ (h.count.symm.trans hone) hlong
              · rw [optStep_further htwo] at hstop
                obtain rfl := Except.error.inj hstop
                exact .refused front back _ hsplit ⟨s, h⟩
                  (Or.inr ⟨arg, rfl, h.count.symm.trans htwo⟩)
          | _ => exact absurd hstop (by simp [optStep, processArg])

end Fuse7z
