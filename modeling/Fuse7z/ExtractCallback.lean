/-
  Fuse7z.ExtractCallback

  What a format handler is given while it extracts an item:
  `CArchiveExtractCallback`, and the `C7ZipOutStreamWrap`s it hands out.

  These are objects that delete themselves when their count drops to zero, and
  the handler holds references to them as it likes.  The stream behind the
  wraps is none of them: the node has it, and deletes it when the file is
  released, whatever a wrap that was kept still points to.  A handler that uses
  and releases only what it holds meets a deleted object just when it calls
  the stream behind that; otherwise every object is deleted once, when the
  last reference is given up (`extract_callback`).  All its wraps stand for
  the one stream, so that the stream has seen the handler's calls in their
  order, and an extraction is known by its `Write` calls, as `Extraction` has
  it.
-/
import Fuse7z.Lib7zip
import Fuse7z.OpenCallback
import Fuse7z.OutFile

namespace Fuse7z

open Lib

/-! ## The objects -/

/-- `CArchiveExtractCallback` with the wraps it has made. -/
structure ExtractState where
  /-- `*m_pOutStream`, which every wrap points to -/
  stream : Fuse7zOutStream
  streamDeleted : Bool
  wraps : RefCounts
  outFileStream : Option Nat
  /-- `__m_RefCount` of the callback; without a reference it is deleted -/
  refCount : Nat

/-- What happens during an extraction, and after it. -/
inductive ExtractEvent where
  | setTotal
  | setCompleted
  | getStream (index : UInt32) (askExtractMode : Int32)
  | prepareOperation (askExtractMode : Int32)
  | setOperationResult (operationResult : Int32)
  | cryptoGetTextPassword
  /-- of the callback -/
  | queryInterface (iid : Iid)
  | addRef
  | release
  /-- of the wrap `w` -/
  | queryStream (w : Nat) (iid : Iid)
  | addRefStream (w : Nat)
  | releaseStream (w : Nat)
  | onStream (w : Nat) (call : OutCall)
  /-- `IInArchive::Extract` returns, and with it `C7ZipArchiveImpl::Extract` -/
  | returned
  /-- `delete stream`, in `fuse7z_release` or by the destructor of the node -/
  | deleteStream

/-- What the handler sees of it. -/
inductive ExtractReply where
  /-- S_OK -/
  | ok
  /-- S_OK, and `*outStream` when it was set -/
  | stream (outStream : Option Nat)
  | password (s : List WChar)
  /-- S_OK or E_NOINTERFACE -/
  | interface (given : Bool)
  /-- the count `AddRef` or `Release` returns -/
  | count (n : Nat)
  | out (r : OutReply)
  /-- the object is deleted -/
  | freed
deriving DecidableEq, Repr

/-- `NArchive::NExtract::NAskMode::kExtract` -/
def kExtract : Int32 := 0

namespace ExtractState

/-- `CArchiveExtractCallback::CArchiveExtractCallback`, and the reference
    `C7ZipArchiveImpl::Extract` takes. -/
def start (stream : Fuse7zOutStream) : ExtractState :=
  { stream, streamDeleted := false, wraps := .empty, outFileStream := none, refCount := 1 }

/-- `_outFileStream.Release()`, also when the callback is deleted. -/
def releaseOutFileStream (s : ExtractState) : ExtractState :=
  match s.outFileStream with
  | none => s
  | some w => { s with wraps := s.wraps.release w, outFileStream := none }

/-- `GetStream`.  The new wrap is referenced by `outStreamLoc`, which is
    detached for the handler, and by `_outFileStream`, which lets go of the
    wrap before. -/
def getStream (s : ExtractState) (askExtractMode : Int32) : ExtractReply × ExtractState :=
  if askExtractMode ≠ kExtract then (.stream none, s)
  else
    let w := s.wraps.made
    let s' := { s with wraps := (s.wraps.make 1).addRef w }.releaseOutFileStream
    (.stream (some w), { s' with outFileStream := some w })

/-- `Release` of the callback. -/
def release (s : ExtractState) : ExtractReply × ExtractState :=
  let s' := { s with refCount := s.refCount - 1 }
  (.count s'.refCount, if s'.refCount = 0 then s'.releaseOutFileStream else s')

/-- The methods of the callback, when it is not deleted. -/
def onCallback (s : ExtractState) : ExtractEvent → ExtractReply × ExtractState
  | .getStream _ askExtractMode => s.getStream askExtractMode
  -- the result is looked at, and nothing is done about it
  | .setOperationResult _ => (.ok, s.releaseOutFileStream)
  | .cryptoGetTextPassword => (.password [], s)
  | .queryInterface iid =>
      if iid = .unknown ∨ iid = .cryptoGetTextPassword then
        (.interface true, { s with refCount := s.refCount + 1 })
      else (.interface false, s)
  | .addRef => (.count (s.refCount + 1), { s with refCount := s.refCount + 1 })
  | .release => s.release
  | .returned => s.release
  -- SetTotal, SetCompleted and PrepareOperation
  | _ => (.ok, s)

/-- The methods of a wrap, when it is not deleted. -/
def onWrap (s : ExtractState) (w : Nat) : ExtractEvent → ExtractReply × ExtractState
  | .queryStream _ iid =>
      if iid = .unknown ∨ iid = .outStream then
        (.interface true, { s with wraps := s.wraps.addRef w })
      else (.interface false, s)
  | .addRefStream _ =>
      (.count (s.wraps.count w + 1), { s with wraps := s.wraps.addRef w })
  | .releaseStream _ =>
      (.count (s.wraps.count w - 1), { s with wraps := s.wraps.release w })
  | .onStream _ call =>
      if s.streamDeleted then (.freed, s)
      else (.out (outStep s.stream call).1, { s with stream := (outStep s.stream call).2 })
  | _ => (.ok, s)

end ExtractState

/-- The wrap an event is for, when it is not for the callback. -/
def ExtractEvent.wrap? : ExtractEvent → Option Nat
  | .queryStream w _ => some w
  | .addRefStream w => some w
  | .releaseStream w => some w
  | .onStream w _ => some w
  | _ => none

/-- The node deletes the stream. -/
def ExtractEvent.deletes : ExtractEvent → Bool
  | .deleteStream => true
  | _ => false

/-- One event. -/
def extractStep (s : ExtractState) (e : ExtractEvent) : ExtractReply × ExtractState :=
  if e.deletes then (.ok, { s with streamDeleted := true })
  else
    match e.wrap? with
    | none => if s.refCount = 0 then (.freed, s) else s.onCallback e
    | some w => if s.wraps.Live w then s.onWrap w e else (.freed, s)

/-! ## The handler -/

/-- The references a handler holds. -/
structure Handler where
  streams : Nat → Nat
  callback : Nat

namespace Handler

def start : Handler := { streams := fun _ => 0, callback := 0 }

/-- One more reference to a wrap. -/
def gain (h : Handler) (w : Nat) : Handler :=
  { h with streams := fun b => if b = w then h.streams b + 1 else h.streams b }

/-- One less. -/
def lose (h : Handler) (w : Nat) : Handler :=
  { h with streams := fun b => if b = w then h.streams b - 1 else h.streams b }

/-- What it holds after an event with its reply. -/
def after (h : Handler) : ExtractEvent → ExtractReply → Handler
  | .getStream _ _, .stream (some w) => h.gain w
  | .queryStream w _, .interface true => h.gain w
  | .addRefStream w, .count _ => h.gain w
  | .releaseStream w, .count _ => h.lose w
  | .queryInterface _, .interface true => { h with callback := h.callback + 1 }
  | .addRef, .count _ => { h with callback := h.callback + 1 }
  | .release, .count _ => { h with callback := h.callback - 1 }
  | _, _ => h

end Handler

/-- An extraction together with the handler's side of it. -/
structure Extracting where
  state : ExtractState
  handler : Handler
  /-- `C7ZipArchiveImpl::Extract` has given up its reference -/
  returned : Bool

/-- The references there are to a wrap: the handler's, and the callback's. -/
def wrapRefs (streams : Nat → Nat) (outFileStream : Option Nat) (w : Nat) : Nat :=
  streams w + if outFileStream = some w then 1 else 0

/-- The call an event makes on the stream. -/
def ExtractEvent.calls : ExtractEvent → List OutCall
  | .onStream _ call => [call]
  | _ => []

/-- `Extract` returns. -/
def ExtractEvent.returns : ExtractEvent → Bool
  | .returned => true
  | _ => false

namespace Extracting

def start (stream : Fuse7zOutStream) : Extracting :=
  { state := .start stream, handler := .start, returned := false }

/-- One event. -/
def step (x : Extracting) (e : ExtractEvent) : ExtractReply × Extracting :=
  let r := extractStep x.state e
  (r.1,
    { state := r.2
      handler := x.handler.after e r.1
      returned := e.returns || x.returned })

/-- The handler uses and releases what it holds.  The callback is also there
    for as long as `Extract` has not returned.  The stream is deleted behind
    that, for `fuse_loop` makes one callback at a time, and not twice. -/
def Disciplined (x : Extracting) (e : ExtractEvent) : Prop :=
  match e with
  | .returned => x.returned = false
  | .deleteStream => x.returned = true ∧ x.state.streamDeleted = false
  | .release => 0 < x.handler.callback
  | .queryStream w _ => 0 < x.handler.streams w
  | .addRefStream w => 0 < x.handler.streams w
  | .releaseStream w => 0 < x.handler.streams w
  | .onStream w _ => 0 < x.handler.streams w
  | _ => x.returned = false ∨ 0 < x.handler.callback

/-- The stream is not called when it is deleted. -/
def Kept (x : Extracting) : ExtractEvent → Prop
  | .onStream _ _ => x.state.streamDeleted = false
  | _ => True

/-- The counts are those of the references. -/
structure Inv (x : Extracting) : Prop where
  owned : x.state.wraps.Owned (wrapRefs x.handler.streams x.state.outFileStream)
  refCount_eq : x.state.refCount = x.handler.callback + if x.returned then 0 else 1
  gone : x.state.refCount = 0 → x.state.outFileStream = none

theorem inv_start (stream : Fuse7zOutStream) : (start stream).Inv where
  owned := RefCounts.owned_empty.congr fun _ => rfl
  refCount_eq := rfl
  gone := fun _ => rfl

end Extracting

/-! ## The callback lets go of its wrap -/

namespace ExtractState

variable (s : ExtractState)

@[simp] theorem releaseOutFileStream_outFileStream :
    s.releaseOutFileStream.outFileStream = none := by
  rw [releaseOutFileStream]
  cases hout : s.outFileStream with
  | none => exact hout
  | some w => rfl

@[simp] theorem releaseOutFileStream_refCount : s.releaseOutFileStream.refCount = s.refCount := by
  rw [releaseOutFileStream]
  cases s.outFileStream with
  | none => rfl
  | some w => rfl

@[simp] theorem releaseOutFileStream_stream : s.releaseOutFileStream.stream = s.stream := by
  rw [releaseOutFileStream]
  cases s.outFileStream with
  | none => rfl
  | some w => rfl

variable {s}

/-- What the handler holds stays. -/
theorem releaseOutFileStream_owned {streams : Nat → Nat}
    (h : s.wraps.Owned (wrapRefs streams s.outFileStream)) :
    s.releaseOutFileStream.wraps.Owned (wrapRefs streams none) := by
  rw [releaseOutFileStream]
  cases hout : s.outFileStream with
  | none =>
      rw [hout] at h
      exact h
  | some w =>
      rw [hout] at h
      refine h.release (a := w) ?_ ?_
      · rw [wrapRefs, if_pos rfl]
        omega
      · intro b
        simp only [wrapRefs, Option.some.injEq, reduceCtorEq, if_false, eq_comm (a := w)]
        omega

/-- The handler gets a wrap, and the callback keeps a reference to it. -/
theorem getStream_owned {streams : Nat → Nat}
    (h : s.wraps.Owned (wrapRefs streams s.outFileStream)) :
    ({ s with wraps := (s.wraps.make 1).addRef s.wraps.made }.releaseOutFileStream).wraps.Owned
      (wrapRefs (fun b => if b = s.wraps.made then streams b + 1 else streams b)
        (some s.wraps.made)) := by
  have hmake : (s.wraps.make 1).Owned fun b =>
      wrapRefs streams s.outFileStream b + if b = s.wraps.made then 1 else 0 :=
    h.make Nat.one_pos fun _ => rfl
  have hadd : ((s.wraps.make 1).addRef s.wraps.made).Owned
      (wrapRefs (fun b => streams b + if b = s.wraps.made then 2 else 0) s.outFileStream) := by
    refine hmake.addRef (a := s.wraps.made) ?_ ?_
    · rw [if_pos rfl]
      omega
    · intro b
      simp only [wrapRefs]
      split_ifs <;> omega
  have hrelease := releaseOutFileStream_owned
    (s := { s with wraps := (s.wraps.make 1).addRef s.wraps.made }) hadd
  refine hrelease.congr ?_
  intro b
  simp only [wrapRefs, Option.some.injEq, reduceCtorEq, if_false, eq_comm (a := s.wraps.made)]
  split_ifs <;> omega

end ExtractState

/-! ## One event -/

namespace Extracting

/-- What a disciplined event that keeps off a deleted stream does: the counts
    stay right, nothing that is deleted is met, and the stream gets the call. -/
structure Sound (x : Extracting) (e : ExtractEvent) : Prop where
  inv : (x.step e).2.Inv
  notFreed : (x.step e).1 ≠ .freed
  stream_eq : (x.step e).2.state.stream = run outStep x.state.stream e.calls

variable {x : Extracting}

/-- The callback is there when it is called. -/
theorem Inv.callback_alive (h : x.Inv) (hd : x.returned = false ∨ 0 < x.handler.callback) :
    x.state.refCount ≠ 0 := by
  have hcount := h.refCount_eq
  rcases hd with hreturned | hholds
  · rw [hreturned] at hcount
    simp only [Bool.false_eq_true, if_false] at hcount
    omega
  · omega

/-- A wrap is there when the handler has a reference to it. -/
theorem Inv.wrap_live (h : x.Inv) {w : Nat} (hd : 0 < x.handler.streams w) :
    x.state.wraps.Live w := by
  apply h.owned.live
  rw [wrapRefs]
  omega

theorem extractStep_callback {s : ExtractState} {e : ExtractEvent} (hdel : e.deletes = false)
    (he : e.wrap? = none) (halive : s.refCount ≠ 0) : extractStep s e = s.onCallback e := by
  rw [extractStep, hdel, if_neg Bool.false_ne_true, he]
  exact if_neg halive

theorem extractStep_wrap {s : ExtractState} {e : ExtractEvent} {w : Nat} (he : e.wrap? = some w)
    (hlive : s.wraps.Live w) : extractStep s e = s.onWrap w e := by
  have hdel : e.deletes = false := by
    cases e with
    | deleteStream => exact absurd he (by simp [ExtractEvent.wrap?])
    | _ => rfl
  rw [extractStep, hdel, if_neg Bool.false_ne_true, he]
  exact if_pos hlive

theorem step_eq {e : ExtractEvent} {r : ExtractReply} {s' : ExtractState}
    (h : extractStep x.state e = (r, s')) :
    x.step e =
      (r, { state := s', handler := x.handler.after e r, returned := e.returns || x.returned }) := by
  rw [step, h]

/-- An event that changes nothing. -/
theorem Sound.of_unchanged (h : x.Inv) {e : ExtractEvent} {r : ExtractReply}
    (hstep : x.step e = (r, x)) (hr : r ≠ .freed) (hcalls : e.calls = []) : x.Sound e where
  inv := by
    rw [hstep]
    exact h
  notFreed := by
    rw [hstep]
    exact hr
  stream_eq := by
    rw [hstep, hcalls]
    rfl

/-- An event that leaves the stream alone. -/
theorem Sound.of_step {e : ExtractEvent} {r : ExtractReply} {x' : Extracting}
    (hstep : x.step e = (r, x')) (hinv : x'.Inv) (hr : r ≠ .freed)
    (hstream : x'.state.stream = x.state.stream) (hcalls : e.calls = []) : x.Sound e where
  inv := by
    rw [hstep]
    exact hinv
  notFreed := by
    rw [hstep]
    exact hr
  stream_eq := by
    rw [hstep, hcalls]
    exact hstream

/-- The callback gives up a reference to itself. -/
theorem release_inv {s : ExtractState} {streams : Nat → Nat} {callback : Nat} {returned : Bool}
    (howned : s.wraps.Owned (wrapRefs streams s.outFileStream))
    (hcount : s.refCount - 1 = callback + if returned then 0 else 1) :
    Inv { state := s.release.2, handler := { streams, callback }, returned } := by
  rw [ExtractState.release]
  by_cases hlast : s.refCount - 1 = 0
  · simp only [hlast, if_true]
    refine ⟨?_, ?_, ?_⟩
    · show RefCounts.Owned _ (wrapRefs streams _)
      rw [ExtractState.releaseOutFileStream_outFileStream]
      exact ExtractState.releaseOutFileStream_owned (s := { s with refCount := 0 }) howned
    · show ExtractState.refCount _ = _
      rw [ExtractState.releaseOutFileStream_refCount]
      exact hlast.symm.trans hcount
    · exact fun _ => ExtractState.releaseOutFileStream_outFileStream _
  · simp only [hlast, if_false]
    exact ⟨howned, hcount, fun h0 => absurd h0 hlast⟩

theorem release_stream (s : ExtractState) : s.release.2.stream = s.stream := by
  rw [ExtractState.release]
  by_cases hlast : s.refCount - 1 = 0
  · simp only [hlast, if_true, ExtractState.releaseOutFileStream_stream]
  · simp only [hlast, if_false]

/-- A reference more to the callback. -/
theorem Inv.addRef (h : x.Inv) :
    Inv {
      state := { x.state with refCount := x.state.refCount + 1 }
      handler := { x.handler with callback := x.handler.callback + 1 }
      returned := x.returned } where
  owned := h.owned
  refCount_eq := by
    have hcount := h.refCount_eq
    show x.state.refCount + 1 = x.handler.callback + 1 + if x.returned then 0 else 1
    omega
  gone := fun h0 => absurd h0 (Nat.succ_ne_zero _)

/-- A new wrap is handed out, and the callback moves its reference to it. -/
theorem sound_getStream (h : x.Inv) {index : UInt32} {mode : Int32}
    (halive : x.state.refCount ≠ 0) : x.Sound (.getStream index mode) := by
  have hstep : extractStep x.state (.getStream index mode) = x.state.getStream mode :=
    extractStep_callback rfl rfl halive
  by_cases hmode : mode ≠ kExtract
  · have hnone : x.state.getStream mode = (.stream none, x.state) := if_pos hmode
    exact .of_unchanged h (step_eq (hstep.trans hnone)) ExtractReply.noConfusion rfl
  · have hnew := hstep.trans (if_neg hmode)
    refine .of_step (step_eq hnew) ⟨?_, ?_, ?_⟩ ExtractReply.noConfusion ?_ rfl
    · exact ExtractState.getStream_owned h.owned
    · show ExtractState.refCount _ = _
      rw [ExtractState.releaseOutFileStream_refCount]
      exact h.refCount_eq
    · intro h0
      rw [ExtractState.releaseOutFileStream_refCount] at h0
      exact absurd h0 halive
    · exact ExtractState.releaseOutFileStream_stream _

/-- The callback gives its wrap up. -/
theorem sound_setOperationResult (h : x.Inv) {result : Int32} (halive : x.state.refCount ≠ 0) :
    x.Sound (.setOperationResult result) := by
  have hstep : extractStep x.state (.setOperationResult result) =
      (.ok, x.state.releaseOutFileStream) := extractStep_callback rfl rfl halive
  refine .of_step (step_eq hstep) ⟨?_, ?_, ?_⟩ ExtractReply.noConfusion ?_ rfl
  · show RefCounts.Owned _ (wrapRefs x.handler.streams _)
    rw [ExtractState.releaseOutFileStream_outFileStream]
    exact ExtractState.releaseOutFileStream_owned h.owned
  · show ExtractState.refCount _ = _
    rw [ExtractState.releaseOutFileStream_refCount]
    exact h.refCount_eq
  · exact fun _ => ExtractState.releaseOutFileStream_outFileStream _
  · exact ExtractState.releaseOutFileStream_stream _

/-- The node deletes the stream. -/
theorem sound_deleteStream (h : x.Inv) : x.Sound .deleteStream := by
  have hstep : extractStep x.state .deleteStream = (.ok, { x.state with streamDeleted := true }) :=
    rfl
  exact .of_step (step_eq hstep) ⟨h.owned, h.refCount_eq, h.gone⟩ ExtractReply.noConfusion rfl rfl

/-- A call of the callback. -/
theorem sound_callback (h : x.Inv) {e : ExtractEvent} (hdel : e.deletes = false)
    (he : e.wrap? = none) (hd : x.Disciplined e) : x.Sound e := by
  have halive : x.state.refCount ≠ 0 := by
    apply h.callback_alive
    cases e with
    | returned => exact Or.inl hd
    | deleteStream => exact absurd hdel (by simp [ExtractEvent.deletes])
    | release => exact Or.inr hd
    | queryStream w iid => exact absurd he (by simp [ExtractEvent.wrap?])
    | addRefStream w => exact absurd he (by simp [ExtractEvent.wrap?])
    | releaseStream w => exact absurd he (by simp [ExtractEvent.wrap?])
    | onStream w call => exact absurd he (by simp [ExtractEvent.wrap?])
    | _ => exact hd
  have hstep := extractStep_callback hdel he halive
  have hcount := h.refCount_eq
  cases e with
  | setTotal => exact .of_unchanged h (step_eq hstep) ExtractReply.noConfusion rfl
  | setCompleted => exact .of_unchanged h (step_eq hstep) ExtractReply.noConfusion rfl
  | prepareOperation mode => exact .of_unchanged h (step_eq hstep) ExtractReply.noConfusion rfl
  | cryptoGetTextPassword => exact .of_unchanged h (step_eq hstep) ExtractReply.noConfusion rfl
  | getStream index mode => exact sound_getStream h halive
  | setOperationResult result => exact sound_setOperationResult h halive
  | queryInterface iid =>
      by_cases hiid : iid = .unknown ∨ iid = .cryptoGetTextPassword
      · have hgiven : x.state.onCallback (.queryInterface iid) =
            (.interface true, { x.state with refCount := x.state.refCount + 1 }) := if_pos hiid
        exact .of_step (step_eq (hstep.trans hgiven)) h.addRef ExtractReply.noConfusion
          rfl rfl
      · have hrefused : x.state.onCallback (.queryInterface iid) = (.interface false, x.state) :=
          if_neg hiid
        exact .of_unchanged h (step_eq (hstep.trans hrefused)) ExtractReply.noConfusion rfl
  | addRef => exact .of_step (step_eq hstep) h.addRef ExtractReply.noConfusion rfl rfl
  | release =>
      have hholds : 0 < x.handler.callback := hd
      refine .of_step (step_eq hstep) ?_ ExtractReply.noConfusion (release_stream _) rfl
      refine release_inv h.owned ?_
      show x.state.refCount - 1 = x.handler.callback - 1 + if x.returned then 0 else 1
      omega
  | returned =>
      have hreturned : x.returned = false := hd
      refine .of_step (step_eq hstep) ?_ ExtractReply.noConfusion (release_stream _) rfl
      refine release_inv h.owned ?_
      rw [hreturned] at hcount
      show x.state.refCount - 1 = x.handler.callback + 0
      simp only [Bool.false_eq_true, if_false] at hcount
      omega
  | deleteStream => exact absurd hdel (by simp [ExtractEvent.deletes])
  | queryStream w iid => exact absurd he (by simp [ExtractEvent.wrap?])
  | addRefStream w => exact absurd he (by simp [ExtractEvent.wrap?])
  | releaseStream w => exact absurd he (by simp [ExtractEvent.wrap?])
  | onStream w call => exact absurd he (by simp [ExtractEvent.wrap?])

/-- A call of a wrap. -/
theorem sound_wrap (h : x.Inv) {e : ExtractEvent} {w : Nat} (he : e.wrap? = some w)
    (hd : 0 < x.handler.streams w) (hkept : x.Kept e) : x.Sound e := by
  have hstep := extractStep_wrap he (h.wrap_live hd)
  have hrefs : 0 < wrapRefs x.handler.streams x.state.outFileStream w := by
    rw [wrapRefs]
    omega
  have hgain : Inv {
      state := { x.state with wraps := x.state.wraps.addRef w }
      handler := x.handler.gain w
      returned := x.returned } := by
    refine ⟨h.owned.addRef hrefs ?_, h.refCount_eq, h.gone⟩
    intro b
    simp only [wrapRefs, Handler.gain]
    split_ifs <;> omega
  cases e with
  | queryStream v iid =>
      obtain rfl := Option.some.inj he
      by_cases hiid : iid = .unknown ∨ iid = .outStream
      · have hgiven : x.state.onWrap v (.queryStream v iid) =
            (.interface true, { x.state with wraps := x.state.wraps.addRef v }) := if_pos hiid
        exact .of_step (step_eq (hstep.trans hgiven)) hgain ExtractReply.noConfusion rfl rfl
      · have hrefused : x.state.onWrap v (.queryStream v iid) = (.interface false, x.state) :=
          if_neg hiid
        exact .of_unchanged h (step_eq (hstep.trans hrefused)) ExtractReply.noConfusion rfl
  | addRefStream v =>
      obtain rfl := Option.some.inj he
      exact .of_step (step_eq hstep) hgain ExtractReply.noConfusion rfl rfl
  | releaseStream v =>
      obtain rfl := Option.some.inj he
      refine .of_step (step_eq hstep) ⟨h.owned.release hrefs ?_, h.refCount_eq, h.gone⟩
        ExtractReply.noConfusion rfl rfl
      intro b
      simp only [wrapRefs, Handler.after, Handler.lose]
      by_cases hb : b = v
      · rw [hb, if_pos rfl, if_pos rfl]
        omega
      · rw [if_neg hb, if_neg hb, Nat.add_zero]
  | onStream v call =>
      have hthere : ¬ x.state.streamDeleted = true := Bool.eq_false_iff.mp hkept
      have hout := step_eq (hstep.trans (if_neg hthere))
      refine ⟨?_, ?_, ?_⟩
      · rw [hout]
        exact ⟨h.owned, h.refCount_eq, h.gone⟩
      · rw [hout]
        exact ExtractReply.noConfusion
      · rw [hout]
        rfl
  | _ => exact absurd he (by simp [ExtractEvent.wrap?])

/-- **Every disciplined event** that keeps off a deleted stream **is sound.** -/
theorem sound (h : x.Inv) {e : ExtractEvent} (hd : x.Disciplined e) (hkept : x.Kept e) :
    x.Sound e := by
  cases hwrap : e.wrap? with
  | none =>
      cases hdel : e.deletes with
      | false => exact sound_callback h hdel hwrap hd
      | true =>
          cases e with
          | deleteStream => exact sound_deleteStream h
          | _ => exact absurd hdel (by simp [ExtractEvent.deletes])
  | some w =>
      refine sound_wrap h hwrap ?_ hkept
      cases e with
      | queryStream v iid => exact Option.some.inj hwrap ▸ hd
      | addRefStream v => exact Option.some.inj hwrap ▸ hd
      | releaseStream v => exact Option.some.inj hwrap ▸ hd
      | onStream v call => exact Option.some.inj hwrap ▸ hd
      | _ => exact absurd hwrap (by simp [ExtractEvent.wrap?])

/-- A disciplined event meets a deleted object just when it calls a deleted
    stream. -/
theorem notFreed_iff (h : x.Inv) {e : ExtractEvent} (hd : x.Disciplined e) :
    (x.step e).1 ≠ .freed ↔ x.Kept e := by
  refine ⟨?_, fun hkept => (sound h hd hkept).notFreed⟩
  intro hreply
  cases e with
  | onStream w call =>
      by_contra hdeleted
      have hstep := extractStep_wrap (e := .onStream w call) rfl (h.wrap_live hd)
      exact hreply (congrArg Prod.fst (hstep.trans (if_pos ((Bool.not_eq_false _).mp hdeleted))))
  | _ => trivial

/-! ## A whole extraction -/

/-- What holds at the end of a disciplined run that keeps off a deleted
    stream. -/
theorem run_sound (h : x.Inv) {es : List ExtractEvent}
    (hd : Along step (fun x e => x.Disciplined e ∧ x.Kept e) x es) :
    (run step x es).Inv ∧
      (run step x es).state.stream =
        run outStep x.state.stream (es.flatMap ExtractEvent.calls) := by
  have hkeeps : ∀ (y : Extracting) e, y.Inv → (y.Disciplined e ∧ y.Kept e) → (y.step e).2.Inv :=
    fun y e hy he => (sound hy he.1 he.2).inv
  refine ⟨run_invariant hkeeps h hd, ?_⟩
  exact run_view (fun y : Extracting => y.state.stream) hkeeps
    (fun y e hy he => (sound hy he.1 he.2).stream_eq) h hd

/-- `Write` calls alone, made on the stream. -/
theorem run_writes (stream : Fuse7zOutStream) (cs : List Chunk) :
    run outStep stream (cs.map OutCall.write) = stream.writes cs := by
  induction cs generalizing stream with
  | nil => rfl
  | cons c cs ih => exact ih (stream.write c).2

end Extracting

/-- **An extraction with a disciplined handler.**  It meets a deleted object
    just when it calls the stream through a wrap it kept until the stream was
    deleted.  Otherwise its calls reach the stream in their order, through
    whichever wraps; so with `Write` calls alone the stream is what
    `Extraction` says it is.  A wrap has been deleted, once, just when neither
    the handler nor the callback refers to it, and the callback when neither
    the handler nor `Extract` does; when the handler has given up everything
    nothing is left. -/
theorem extract_callback (stream : Fuse7zOutStream) {es : List ExtractEvent}
    (hd : Along Extracting.step Extracting.Disciplined (.start stream) es) :
    ((∀ r ∈ replies Extracting.step (.start stream) es, r ≠ .freed) ↔
      Along Extracting.step Extracting.Kept (.start stream) es) ∧
    (Along Extracting.step Extracting.Kept (.start stream) es →
      (run Extracting.step (.start stream) es).state.stream =
        run outStep stream (es.flatMap ExtractEvent.calls) ∧
      (∀ cs : List Chunk, es.flatMap ExtractEvent.calls = cs.map OutCall.write →
        (run Extracting.step (.start stream) es).state.stream = stream.writes cs) ∧
      (run Extracting.step (.start stream) es).state.wraps.deleted.Nodup ∧
      (∀ w, w ∈ (run Extracting.step (.start stream) es).state.wraps.deleted ↔
        w < (run Extracting.step (.start stream) es).state.wraps.made ∧
          (run Extracting.step (.start stream) es).handler.streams w = 0 ∧
          (run Extracting.step (.start stream) es).state.outFileStream ≠ some w) ∧
      ((run Extracting.step (.start stream) es).state.refCount = 0 ↔
        (run Extracting.step (.start stream) es).returned = true ∧
          (run Extracting.step (.start stream) es).handler.callback = 0) ∧
      ((run Extracting.step (.start stream) es).returned = true →
        (run Extracting.step (.start stream) es).handler.callback = 0 →
        (∀ w, (run Extracting.step (.start stream) es).handler.streams w = 0) →
        (run Extracting.step (.start stream) es).state.wraps.deleted.Perm
          (List.range (run Extracting.step (.start stream) es).state.wraps.made))) := by
  refine ⟨?_, ?_⟩
  · rw [forall_mem_replies_iff]
    refine Along.iff_of_invariant (fun x e hx he => Extracting.notFreed_iff hx he) ?_
      (Extracting.inv_start stream) hd
    intro x e hx he hreply
    exact (Extracting.sound hx he ((Extracting.notFreed_iff hx he).mp hreply)).inv
  · intro hkept
    obtain ⟨hinv, hstream⟩ :=
      Extracting.run_sound (Extracting.inv_start stream) (hd.and hkept)
    have hcount := hinv.refCount_eq
    have hgone : (run Extracting.step (.start stream) es).state.refCount = 0 ↔
        (run Extracting.step (.start stream) es).returned = true ∧
          (run Extracting.step (.start stream) es).handler.callback = 0 := by
      rw [hcount]
      cases (run Extracting.step (.start stream) es).returned with
      | true => simp
      | false => simp
    refine ⟨hstream, ?_, hinv.owned.nodup, ?_, hgone, ?_⟩
    · intro cs hcs
      rw [hstream, hcs]
      exact Extracting.run_writes stream cs
    · intro w
      rw [hinv.owned.mem_deleted, wrapRefs]
      refine and_congr_right fun _ => ?_
      split_ifs with hout
      · exact iff_of_false not_false fun h => h.2 hout
      · rw [Nat.add_zero]
        exact ⟨fun h => ⟨h, hout⟩, fun h => h.1⟩
    · intro hreturned hcallback hstreams
      apply hinv.owned.all_deleted
      intro w
      have hnone := hinv.gone (hgone.mpr ⟨hreturned, hcallback⟩)
      rw [wrapRefs, hstreams w, hnone]
      rfl

/-- One byte is written through one wrap, and the file released. -/
def oneByte : List ExtractEvent :=
  [.getStream 0 0, .onStream 0 (.write ⟨[7], by decide⟩), .setOperationResult 0,
    .releaseStream 0, .returned, .deleteStream]

theorem extract_callback_one :
    (Lib.run Extracting.step (Extracting.start (.new 0)) oneByte).state.wraps.deleted.Perm [0] := by
  have hd : Along Extracting.step Extracting.Disciplined (Extracting.start (.new 0)) oneByte :=
    ⟨Or.inl rfl, Nat.one_pos, Or.inl rfl, Nat.one_pos, rfl, ⟨rfl, rfl⟩, trivial⟩
  have hkept : Along Extracting.step Extracting.Kept (Extracting.start (.new 0)) oneByte :=
    ⟨trivial, rfl, trivial, trivial, trivial, trivial, trivial⟩
  obtain ⟨-, -, -, -, -, hall⟩ := (extract_callback (.new 0) hd).2 hkept
  refine hall rfl rfl ?_
  intro w
  by_cases hw : w = 0
  · rw [hw]
    rfl
  · show (if w = 0 then _ else if w = 0 then _ else 0) = 0
    rw [if_neg hw, if_neg hw]

/-- A handler that keeps its wrap until the file is released finds the stream
    deleted. -/
example : replies Extracting.step (Extracting.start (.new 0))
      [.getStream 0 0, .returned, .deleteStream, .onStream 0 (.write ⟨[7], by decide⟩)]
    = [.stream (some 0), .count 0, .ok, .freed] := by
  decide

end Fuse7z
