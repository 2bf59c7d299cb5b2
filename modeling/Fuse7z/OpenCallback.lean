/-
  Fuse7z.OpenCallback

  What a format handler is given to open an archive with: the
  `CInFileStreamWrap` around the stream, a `CArchiveOpenCallback`, and a
  `C7ZipCompressCodecsInfo` when it can take one.

  `C7ZipDllHandler::OpenArchive` and `InternalOpenArchive` hold the first two
  for as long as the handler opens.  Nobody holds the third: it is passed to
  `SetCompressCodecsInfo` as `new` returned it, without a reference.  A handler
  that keeps to the rules for its own references meets a deleted object just
  when it gives up all it has to the third one and goes on using it, and the
  third one is never deleted when the handler never takes a reference
  (`open_callback`).
-/
import Fuse7z.InFile
import Fuse7z.Lib.RefCount
import Fuse7z.Lib.Simulation

namespace Fuse7z

open Lib

/-! ## The objects -/

/-- The interfaces a handler can ask an object for. -/
inductive Iid where
  | unknown
  | inStream
  | streamGetSize
  | outStream
  | cryptoGetTextPassword
  | archiveOpenVolumeCallback
  | compressCodecsInfo
  | other
deriving DecidableEq, Repr

inductive OpenObject where
  | inStream
  | openCallBack
  | codecsInfo
deriving DecidableEq, Repr

namespace OpenObject

/-- The objects in the order they are first referenced. -/
def number : OpenObject → Nat
  | .inStream => 0
  | .openCallBack => 1
  | .codecsInfo => 2

/-- What `QueryInterface` has an entry for.  The callback is also an
    `IArchiveOpenVolumeCallback`, and has none for it. -/
def interfaces : OpenObject → List Iid
  | .inStream => [.unknown, .inStream, .streamGetSize]
  | .openCallBack => [.unknown, .cryptoGetTextPassword]
  | .codecsInfo => [.unknown, .compressCodecsInfo]

end OpenObject

/-- `pCompressCodecsInfo` -/
inductive CodecsPointer where
  | absent
  /-- just made, and no reference to it yet -/
  | fresh
  | taken
deriving DecidableEq, Repr

structure OpenState where
  /-- `m_pInStream`, which the wrap is for -/
  stream : Fuse7zInStream
  objects : RefCounts
  pCompressCodecsInfo : CodecsPointer

/-- What happens from `InternalOpenArchive` on. -/
inductive OpenEvent where
  /-- `SetCompressCodecsInfo` is called -/
  | setCompressCodecsInfo
  /-- it returns -/
  | codecsInfoSet
  /-- `InternalOpenArchive` returns, whether it has opened the archive or not -/
  | internalReturned
  /-- `C7ZipDllHandler::OpenArchive` returns -/
  | returned
  -- what the handler does
  | queryInterface (o : OpenObject) (iid : Iid)
  | addRef (o : OpenObject)
  | release (o : OpenObject)
  | onStream (call : InCall)
  | setTotal
  | setCompleted
  | cryptoGetTextPassword
  /-- a method of `C7ZipCompressCodecsInfo`; `CodecsInfo` has what it answers -/
  | onCodecsInfo

/-- What the handler sees of it. -/
inductive OpenReply where
  /-- S_OK, or nothing -/
  | ok
  | abort
  /-- S_OK or E_NOINTERFACE -/
  | interface (given : Bool)
  /-- the count `AddRef` or `Release` returns -/
  | count (n : Nat)
  | stream (r : InReply)
  /-- an object is deleted, or has no reference to give up -/
  | fault
deriving DecidableEq, Repr

/-- The objects an event is for. -/
def OpenEvent.objects : OpenEvent → List OpenObject
  | .setCompressCodecsInfo => []
  | .codecsInfoSet => []
  -- the destructors of `openCallBack` and `inStream`
  | .internalReturned => [.openCallBack, .inStream]
  | .returned => [.inStream]
  | .queryInterface o _ => [o]
  | .addRef o => [o]
  | .release o => [o]
  | .onStream _ => [.inStream]
  | .setTotal => [.openCallBack]
  | .setCompleted => [.openCallBack]
  | .cryptoGetTextPassword => [.openCallBack]
  | .onCodecsInfo => [.codecsInfo]

namespace OpenState

/-- `inStream` of `OpenArchive` and of `InternalOpenArchive` refer to the wrap,
    and `openCallBack` to the callback. -/
def start (stream : Fuse7zInStream) : OpenState :=
  { stream
    objects := ((RefCounts.empty.make 2).make 1)
    pCompressCodecsInfo := .absent }

/-- The object is there and has never had a reference. -/
def Fresh (s : OpenState) (o : OpenObject) : Prop :=
  o = .codecsInfo ∧ s.pCompressCodecsInfo = .fresh

instance (s : OpenState) (o : OpenObject) : Decidable (s.Fresh o) :=
  inferInstanceAs (Decidable (_ ∧ _))

/-- The object is there. -/
def There (s : OpenState) (o : OpenObject) : Prop := s.Fresh o ∨ s.objects.Live o.number

instance (s : OpenState) (o : OpenObject) : Decidable (s.There o) :=
  inferInstanceAs (Decidable (_ ∨ _))

/-- `AddRef`; the first one makes the object count as referenced. -/
def addRef (s : OpenState) (o : OpenObject) : OpenState :=
  if s.Fresh o then { s with objects := s.objects.make 1, pCompressCodecsInfo := .taken }
  else { s with objects := s.objects.addRef o.number }

/-- `Release` -/
def release (s : OpenState) (o : OpenObject) : OpenState :=
  { s with objects := s.objects.release o.number }

/-- An event whose objects are there. -/
def on (s : OpenState) : OpenEvent → OpenReply × OpenState
  | .setCompressCodecsInfo => (.ok, { s with pCompressCodecsInfo := .fresh })
  | .codecsInfoSet => (.ok, s)
  | .internalReturned => (.ok, (s.release .openCallBack).release .inStream)
  | .returned => (.ok, s.release .inStream)
  | .queryInterface o iid =>
      if iid ∈ o.interfaces then (.interface true, s.addRef o) else (.interface false, s)
  | .addRef o => (.count ((s.addRef o).objects.count o.number), s.addRef o)
  | .release o =>
      if s.Fresh o then (.fault, s)
      else (.count ((s.release o).objects.count o.number), s.release o)
  | .onStream call => (.stream (inStep s.stream call).1, { s with stream := (inStep s.stream call).2 })
  | .setTotal => (.ok, s)
  | .setCompleted => (.ok, s)
  -- no password is defined
  | .cryptoGetTextPassword => (.abort, s)
  | .onCodecsInfo => (.ok, s)

end OpenState

/-- One event. -/
def openStep (s : OpenState) (e : OpenEvent) : OpenReply × OpenState :=
  if ∀ o ∈ e.objects, s.There o then s.on e else (.fault, s)

/-! ## The handler -/

/-- How far the program is. -/
inductive OpenPhase where
  /-- in `InternalOpenArchive` -/
  | inside
  /-- in `SetCompressCodecsInfo`, which that calls -/
  | setting
  /-- `InternalOpenArchive` has returned -/
  | left
  /-- `OpenArchive` has, too -/
  | over
deriving DecidableEq, Repr

namespace OpenPhase

/-- The references the program has. -/
def refs : OpenPhase → OpenObject → Nat
  | .inside, .inStream => 2
  | .inside, .openCallBack => 1
  | .setting, .inStream => 2
  | .setting, .openCallBack => 1
  | .left, .inStream => 1
  | _, _ => 0

def after (phase : OpenPhase) : OpenEvent → OpenPhase
  | .setCompressCodecsInfo => .setting
  | .codecsInfoSet => .inside
  | .internalReturned => .left
  | .returned => .over
  | _ => phase

end OpenPhase

/-- An opening together with the references the handler has. -/
structure OpenSession where
  state : OpenState
  handler : OpenObject → Nat
  phase : OpenPhase

/-- One reference more. -/
def oneMore (handler : OpenObject → Nat) (o p : OpenObject) : Nat :=
  if p = o then handler p + 1 else handler p

/-- One less. -/
def oneLess (handler : OpenObject → Nat) (o p : OpenObject) : Nat :=
  if p = o then handler p - 1 else handler p

/-- What the handler has after an event with its reply. -/
def heldAfter (handler : OpenObject → Nat) : OpenEvent → OpenReply → OpenObject → Nat
  | .queryInterface o _, .interface true => oneMore handler o
  | .addRef o, .count _ => oneMore handler o
  | .release o, .count _ => oneLess handler o
  | _, _ => handler

/-- The handler takes a reference to the codecs info. -/
def OpenEvent.Takes : OpenEvent → Prop
  | .addRef o => o = .codecsInfo
  | .queryInterface o iid => o = .codecsInfo ∧ iid ∈ o.interfaces
  | _ => False

/-- The call an event makes on the stream. -/
def OpenEvent.calls : OpenEvent → List InCall
  | .onStream call => [call]
  | _ => []

namespace OpenSession

def start (stream : Fuse7zInStream) : OpenSession :=
  { state := .start stream, handler := fun _ => 0, phase := .inside }

/-- One event. -/
def step (x : OpenSession) (e : OpenEvent) : OpenReply × OpenSession :=
  let r := openStep x.state e
  (r.1,
    { state := r.2
      handler := heldAfter x.handler e r.1
      phase := x.phase.after e })

/-- The handler may use the object: it has a reference to it, or its caller
    has, or it was called with it. -/
def Given (x : OpenSession) (o : OpenObject) : Prop :=
  0 < x.handler o ∨ 0 < x.phase.refs o ∨ o = .codecsInfo ∧ x.phase = .setting

/-- The program goes its way, and the handler uses what it was given and
    releases what it has. -/
def ByTheRules (x : OpenSession) : OpenEvent → Prop
  | .setCompressCodecsInfo => x.phase = .inside ∧ x.state.pCompressCodecsInfo = .absent
  | .codecsInfoSet => x.phase = .setting
  | .internalReturned => x.phase = .inside
  | .returned => x.phase = .left
  | .release o => 0 < x.handler o
  | e => ∀ o ∈ e.objects, x.Given o

/-- The codecs info is not used behind the last reference to it. -/
def Kept (x : OpenSession) (e : OpenEvent) : Prop :=
  .codecsInfo ∈ e.objects → x.state.pCompressCodecsInfo = .taken → 0 < x.handler .codecsInfo

/-- The references there are to an object. -/
def refs (x : OpenSession) (o : OpenObject) : Nat := x.phase.refs o + x.handler o

end OpenSession

/-- The same by the numbers of the objects. -/
def numbered (f : OpenObject → Nat) : Nat → Nat
  | 0 => f .inStream
  | 1 => f .openCallBack
  | 2 => f .codecsInfo
  | _ => 0

/-- The counts are those of the references; the codecs info counts as made from
    its first one on. -/
structure OpenSession.Inv (x : OpenSession) : Prop where
  owned : x.state.objects.Owned (numbered x.refs)
  made_eq : x.state.objects.made = if x.state.pCompressCodecsInfo = .taken then 3 else 2
  untaken : x.state.pCompressCodecsInfo ≠ .taken → x.handler .codecsInfo = 0
  passed : x.phase = .setting → x.state.pCompressCodecsInfo ≠ .absent

/-! ## References by number -/

@[simp] theorem numbered_number (f : OpenObject → Nat) (o : OpenObject) :
    numbered f o.number = f o := by
  cases o with
  | inStream => rfl
  | openCallBack => rfl
  | codecsInfo => rfl

theorem number_inj {o p : OpenObject} : o.number = p.number ↔ o = p := by
  cases o <;> cases p <;> decide

/-- A change at one object is one at its number. -/
theorem numbered_add {f g : OpenObject → Nat} {o : OpenObject}
    (h : ∀ p, g p = f p + if p = o then 1 else 0) (a : Nat) :
    numbered g a = numbered f a + if a = o.number then 1 else 0 := by
  have hat : ∀ p : OpenObject,
      numbered g p.number = numbered f p.number + if p.number = o.number then 1 else 0 := by
    intro p
    rw [numbered_number, numbered_number, h p]
    simp only [number_inj]
  match a with
  | 0 => exact hat .inStream
  | 1 => exact hat .openCallBack
  | 2 => exact hat .codecsInfo
  | n + 3 =>
      have hbeyond : n + 3 ≠ o.number := by
        cases o with
        | inStream => exact Nat.succ_ne_zero _
        | openCallBack => exact fun h => Nat.succ_ne_zero _ (Nat.succ.inj h)
        | codecsInfo => exact fun h => Nat.succ_ne_zero _ (Nat.succ.inj (Nat.succ.inj h))
      rw [if_neg hbeyond]
      rfl

theorem oneMore_eq (handler : OpenObject → Nat) (o p : OpenObject) :
    oneMore handler o p = handler p + if p = o then 1 else 0 := by
  rw [oneMore]
  split_ifs <;> rfl

/-- What `InternalOpenArchive` gives up when it returns. -/
theorem refs_inside (p : OpenObject) :
    OpenPhase.inside.refs p = OpenPhase.left.refs p + (if p = .inStream then 1 else 0) +
      if p = .openCallBack then 1 else 0 := by
  cases p <;> rfl

/-- And `OpenArchive`. -/
theorem refs_left (p : OpenObject) :
    OpenPhase.left.refs p = OpenPhase.over.refs p + if p = .inStream then 1 else 0 := by
  cases p <;> rfl

@[simp] theorem refs_codecsInfo (phase : OpenPhase) : phase.refs .codecsInfo = 0 := by
  cases phase <;> rfl

namespace OpenSession

variable {x : OpenSession}

theorem inv_start (stream : Fuse7zInStream) : (start stream).Inv where
  owned := by
    have hwrap : (RefCounts.empty.make 2).Owned fun b => if b = 0 then 2 else 0 :=
      RefCounts.owned_empty.make (by decide) fun b => (Nat.zero_add _).symm
    refine hwrap.make Nat.one_pos ?_
    intro b
    match b with
    | 0 => rfl
    | 1 => rfl
    | 2 => rfl
    | n + 3 => rfl
  made_eq := rfl
  untaken := fun _ => rfl
  passed := by
    intro h
    have hinside : OpenPhase.inside = .setting := h
    exact absurd hinside (by decide)

/-- An object is there when there is a reference to it, or none yet. -/
theorem Inv.there_iff (h : x.Inv) {o : OpenObject} :
    x.state.There o ↔ 0 < x.refs o ∨ x.state.Fresh o := by
  rw [OpenState.There, h.owned.live_iff, numbered_number]
  exact or_comm

/-- What a handler was given is there, but for the codecs info it has given
    back. -/
theorem Inv.there_of_given (h : x.Inv) {o : OpenObject} (hgiven : x.Given o) :
    x.state.There o ↔
      (o = .codecsInfo → x.state.pCompressCodecsInfo = .taken → 0 < x.handler .codecsInfo) := by
  rw [h.there_iff, refs, OpenState.Fresh]
  rcases hgiven with hheld | hrefs | ⟨rfl, hsetting⟩
  · refine iff_of_true (Or.inl (by omega)) ?_
    rintro rfl _
    exact hheld
  · refine iff_of_true (Or.inl (by omega)) ?_
    rintro rfl
    exact absurd hrefs (by simp)
  · have hpassed := h.passed hsetting
    rw [refs_codecsInfo, Nat.zero_add]
    cases hcodecs : x.state.pCompressCodecsInfo with
    | absent => exact absurd hcodecs hpassed
    | fresh => simp
    | taken => simp

/-- Whoever goes by the rules uses what the handler was given. -/
theorem given_of_byTheRules {e : OpenEvent} (hr : x.ByTheRules e) : ∀ o ∈ e.objects, x.Given o := by
  cases e with
  | setCompressCodecsInfo => exact fun o ho => absurd ho List.not_mem_nil
  | codecsInfoSet => exact fun o ho => absurd ho List.not_mem_nil
  | internalReturned =>
      have hinside : x.phase = .inside := hr
      intro o ho
      right
      left
      rw [hinside]
      rcases List.mem_cons.mp ho with rfl | ho
      · exact Nat.one_pos
      · rw [List.mem_singleton.mp ho]
        exact Nat.two_pos
  | returned =>
      have hleft : x.phase = .left := hr
      intro o ho
      right
      left
      rw [hleft, List.mem_singleton.mp ho]
      exact Nat.one_pos
  | release o =>
      intro p hp
      rw [List.mem_singleton.mp hp]
      exact Or.inl hr
  | _ => exact hr

/-- By the rules the objects of an event are there just when the codecs info
    was not given back before. -/
theorem Inv.all_there_iff (h : x.Inv) {e : OpenEvent} (hr : x.ByTheRules e) :
    (∀ o ∈ e.objects, x.state.There o) ↔ x.Kept e := by
  have hgiven := given_of_byTheRules hr
  refine ⟨?_, ?_⟩
  · intro hthere hmem
    exact (h.there_of_given (hgiven _ hmem)).mp (hthere _ hmem) rfl
  · intro hkept o ho
    rw [h.there_of_given (hgiven o ho)]
    rintro rfl
    exact hkept ho

/-- What is released by the rules has a reference. -/
theorem Inv.not_fresh (h : x.Inv) {o : OpenObject} (hheld : 0 < x.handler o) :
    ¬ x.state.Fresh o := by
  rintro ⟨rfl, hfresh⟩
  have hnone := h.untaken (by rw [hfresh]; decide)
  omega

/-! ## One event -/

/-- A reference more to an object that is there. -/
theorem Inv.gain (h : x.Inv) {o : OpenObject} (hthere : x.state.There o) :
    Inv { state := x.state.addRef o, handler := oneMore x.handler o, phase := x.phase } := by
  have hrefs : ∀ p, x.phase.refs p + oneMore x.handler o p
      = x.refs p + if p = o then 1 else 0 := by
    intro p
    rw [oneMore_eq, refs]
    omega
  by_cases hfresh : x.state.Fresh o
  · obtain ⟨rfl, hcodecs⟩ := hfresh
    have hmade := h.made_eq
    rw [if_neg (by rw [hcodecs]; decide)] at hmade
    rw [OpenState.addRef, if_pos ⟨rfl, hcodecs⟩]
    refine ⟨h.owned.make Nat.one_pos ?_, ?_, fun hne => absurd rfl hne, fun _ => by simp⟩
    · intro a
      rw [hmade]
      exact numbered_add hrefs a
    · show x.state.objects.made + 1 = 3
      rw [hmade]
  · have hlive : 0 < numbered x.refs o.number := by
      rw [numbered_number]
      exact (h.there_iff.mp hthere).resolve_right hfresh
    rw [OpenState.addRef, if_neg hfresh]
    refine ⟨h.owned.addRef hlive (numbered_add hrefs), h.made_eq, ?_, h.passed⟩
    intro hne
    have hnone := h.untaken hne
    have hother : OpenObject.codecsInfo ≠ o := by
      rintro rfl
      have hzero : x.refs .codecsInfo = 0 := by rw [refs, refs_codecsInfo, hnone]
      rw [numbered_number, hzero] at hlive
      exact absurd hlive (Nat.lt_irrefl 0)
    show (if OpenObject.codecsInfo = o then _ else x.handler .codecsInfo) = 0
    rw [if_neg hother]
    exact hnone

/-- A reference less, whoever had it. -/
theorem Inv.release (h : x.Inv) {o : OpenObject} {handler : OpenObject → Nat} {phase : OpenPhase}
    (hrefs : ∀ p, x.refs p = phase.refs p + handler p + if p = o then 1 else 0)
    (huntaken : x.handler .codecsInfo = 0 → handler .codecsInfo = 0)
    (hphase : phase = .setting → x.phase = .setting) :
    Inv { state := x.state.release o, handler, phase } where
  owned := by
    refine h.owned.release (a := o.number) ?_ (numbered_add hrefs)
    rw [numbered_number, hrefs, if_pos rfl]
    exact Nat.succ_pos _
  made_eq := h.made_eq
  untaken := fun hne => huntaken (h.untaken hne)
  passed := fun hsetting => h.passed (hphase hsetting)

/-- The program goes on, without a change to its references. -/
theorem Inv.goesOn (h : x.Inv) {phase : OpenPhase} {codecs : CodecsPointer}
    (hrefs : ∀ p, phase.refs p = x.phase.refs p)
    (hcodecs : codecs = .taken ↔ x.state.pCompressCodecsInfo = .taken)
    (hpassed : phase = .setting → codecs ≠ .absent) :
    Inv {
      state := { x.state with pCompressCodecsInfo := codecs }
      handler := x.handler
      phase } where
  owned := by
    refine h.owned.congr ?_
    intro a
    have hsame : (fun p => phase.refs p + x.handler p) = x.refs := by
      funext p
      rw [refs, hrefs]
    show numbered (fun p => phase.refs p + x.handler p) a = _
    rw [hsame]
  made_eq := by
    have hmade := h.made_eq
    simp only [hcodecs]
    exact hmade
  untaken := fun hne => h.untaken (mt hcodecs.mpr hne)
  passed := hpassed

/-- What the event does by the rules when all its objects are there. -/
structure Sound (x : OpenSession) (e : OpenEvent) : Prop where
  inv : (x.step e).2.Inv
  noFault : (x.step e).1 ≠ .fault
  stream_eq : (x.step e).2.state.stream = run inStep x.state.stream e.calls
  taken_iff : (x.step e).2.state.pCompressCodecsInfo = .taken ↔
    x.state.pCompressCodecsInfo = .taken ∨ e.Takes

theorem step_eq {e : OpenEvent} {r : OpenReply} {s' : OpenState}
    (hall : ∀ o ∈ e.objects, x.state.There o) (h : x.state.on e = (r, s')) :
    x.step e =
      (r, { state := s', handler := heldAfter x.handler e r, phase := x.phase.after e }) := by
  rw [step, openStep, if_pos hall, h]

/-- An event that leaves the stream alone. -/
theorem Sound.of_step {e : OpenEvent} {r : OpenReply} {x' : OpenSession} (hstep : x.step e = (r, x'))
    (hinv : x'.Inv) (hr : r ≠ .fault) (hstream : x'.state.stream = x.state.stream)
    (hcalls : e.calls = [])
    (htaken : x'.state.pCompressCodecsInfo = .taken ↔
      x.state.pCompressCodecsInfo = .taken ∨ e.Takes) : x.Sound e where
  inv := by
    rw [hstep]
    exact hinv
  noFault := by
    rw [hstep]
    exact hr
  stream_eq := by
    rw [hstep, hcalls]
    exact hstream
  taken_iff := by
    rw [hstep]
    exact htaken

/-- An event that changes nothing. -/
theorem Sound.of_unchanged (h : x.Inv) {e : OpenEvent} {r : OpenReply} (hstep : x.step e = (r, x))
    (hr : r ≠ .fault) (hcalls : e.calls = []) (htakes : ¬ e.Takes) : x.Sound e :=
  .of_step hstep h hr rfl hcalls (or_iff_left htakes).symm

theorem addRef_stream (s : OpenState) (o : OpenObject) : (s.addRef o).stream = s.stream := by
  rw [OpenState.addRef]
  split_ifs <;> rfl

/-- The codecs info is taken by the first reference to it. -/
theorem Inv.taken_addRef_iff (h : x.Inv) {o : OpenObject} (hthere : x.state.There o) :
    (x.state.addRef o).pCompressCodecsInfo = .taken ↔
      x.state.pCompressCodecsInfo = .taken ∨ o = .codecsInfo := by
  rw [OpenState.addRef]
  split_ifs with hfresh
  · exact iff_of_true rfl (Or.inr hfresh.1)
  · refine ⟨Or.inl, ?_⟩
    rintro (htaken | rfl)
    · exact htaken
    · by_contra hne
      have hheld := (h.there_iff.mp hthere).resolve_right hfresh
      rw [refs, refs_codecsInfo, h.untaken hne] at hheld
      exact absurd hheld (Nat.lt_irrefl 0)

/-- `InternalOpenArchive` makes the codecs info and passes it on. -/
theorem sound_setCompressCodecsInfo (h : x.Inv) (hr : x.ByTheRules .setCompressCodecsInfo)
    (hall : ∀ o ∈ OpenEvent.setCompressCodecsInfo.objects, x.state.There o) :
    x.Sound .setCompressCodecsInfo := by
  obtain ⟨hinside, habsent⟩ := hr
  refine .of_step (step_eq hall rfl) (h.goesOn ?_ ?_ ?_) OpenReply.noConfusion rfl rfl ?_
  · intro p
    rw [hinside]
    cases p <;> rfl
  · exact iff_of_false (by decide) (by rw [habsent]; decide)
  · exact fun _ => by decide
  · refine iff_of_false (by simp) ?_
    rintro (htaken | htakes)
    · rw [habsent] at htaken
      exact absurd htaken (by decide)
    · exact htakes

theorem sound_codecsInfoSet (h : x.Inv) (hsetting : x.phase = .setting)
    (hall : ∀ o ∈ OpenEvent.codecsInfoSet.objects, x.state.There o) : x.Sound .codecsInfoSet := by
  refine .of_step (step_eq hall rfl) (h.goesOn ?_ Iff.rfl ?_) OpenReply.noConfusion rfl rfl
    (or_iff_left id).symm
  · intro p
    rw [hsetting]
    cases p <;> rfl
  · intro hphase
    have hback : OpenPhase.inside = .setting := hphase
    exact absurd hback (by decide)

/-- The destructors of `openCallBack` and `inStream`. -/
theorem sound_internalReturned (h : x.Inv) (hinside : x.phase = .inside)
    (hall : ∀ o ∈ OpenEvent.internalReturned.objects, x.state.There o) :
    x.Sound .internalReturned := by
  -- between the two releases the program has the references it has at the end
  -- and one more to the wrap, which stands with those of the handler
  have hfirst : Inv {
      state := x.state.release .openCallBack
      handler := oneMore x.handler .inStream
      phase := .left } := by
    refine h.release ?_ (fun hnone => hnone) (fun hphase => absurd hphase (by decide))
    intro p
    rw [refs, hinside, refs_inside, oneMore_eq]
    omega
  refine .of_step (step_eq hall rfl) (hfirst.release ?_ id id) OpenReply.noConfusion rfl rfl
    (or_iff_left id).symm
  intro p
  show OpenPhase.left.refs p + oneMore x.handler .inStream p
    = OpenPhase.left.refs p + x.handler p + _
  rw [oneMore_eq]
  omega

/-- The destructor of `inStream` in `OpenArchive`. -/
theorem sound_returned (h : x.Inv) (hleft : x.phase = .left)
    (hall : ∀ o ∈ OpenEvent.returned.objects, x.state.There o) : x.Sound .returned := by
  refine .of_step (step_eq hall rfl) (h.release ?_ id ?_) OpenReply.noConfusion rfl rfl
    (or_iff_left id).symm
  · intro p
    show _ = OpenPhase.over.refs p + x.handler p + _
    rw [refs, hleft, refs_left]
    omega
  · intro hphase
    have hover : OpenPhase.over = .setting := hphase
    exact absurd hover (by decide)

theorem sound_queryInterface (h : x.Inv) {o : OpenObject} {iid : Iid}
    (hall : ∀ p ∈ (OpenEvent.queryInterface o iid).objects, x.state.There p) :
    x.Sound (.queryInterface o iid) := by
  have hthere := hall o List.mem_cons_self
  by_cases hiid : iid ∈ o.interfaces
  · have hgiven : x.state.on (.queryInterface o iid) = (.interface true, x.state.addRef o) :=
      if_pos hiid
    refine .of_step (step_eq hall hgiven) (h.gain hthere) OpenReply.noConfusion
      (addRef_stream _ _) rfl ?_
    rw [h.taken_addRef_iff hthere, OpenEvent.Takes, and_iff_left hiid]
  · have hrefused : x.state.on (.queryInterface o iid) = (.interface false, x.state) :=
      if_neg hiid
    exact .of_unchanged h (step_eq hall hrefused) OpenReply.noConfusion rfl
      fun htakes => hiid htakes.2

theorem sound_release (h : x.Inv) {o : OpenObject} (hheld : 0 < x.handler o)
    (hall : ∀ p ∈ (OpenEvent.release o).objects, x.state.There p) : x.Sound (.release o) := by
  have hcount : x.state.on (.release o) =
      (.count ((x.state.release o).objects.count o.number), x.state.release o) :=
    if_neg (h.not_fresh hheld)
  refine .of_step (step_eq hall hcount) (h.release ?_ ?_ id) OpenReply.noConfusion rfl rfl
    (or_iff_left id).symm
  · intro p
    show x.phase.refs p + x.handler p = x.phase.refs p + oneLess x.handler o p + _
    rw [oneLess]
    by_cases hp : p = o
    · rw [hp, if_pos rfl, if_pos rfl]
      omega
    · rw [if_neg hp, if_neg hp, Nat.add_zero]
  · intro hnone
    show oneLess x.handler o .codecsInfo = 0
    rw [oneLess, hnone]
    exact ite_self 0

/-- **Every event by the rules is sound** when it is for objects that are
    there. -/
theorem sound (h : x.Inv) {e : OpenEvent} (hr : x.ByTheRules e) (hkept : x.Kept e) : x.Sound e := by
  have hall := (h.all_there_iff hr).mpr hkept
  cases e with
  | setCompressCodecsInfo => exact sound_setCompressCodecsInfo h hr hall
  | codecsInfoSet => exact sound_codecsInfoSet h hr hall
  | internalReturned => exact sound_internalReturned h hr hall
  | returned => exact sound_returned h hr hall
  | queryInterface o iid => exact sound_queryInterface h hall
  | addRef o =>
      have hthere := hall o List.mem_cons_self
      exact .of_step (step_eq hall rfl) (h.gain hthere) OpenReply.noConfusion (addRef_stream _ _) rfl
        (h.taken_addRef_iff hthere)
  | release o => exact sound_release h hr hall
  | onStream call =>
      have hout := step_eq hall rfl
      refine ⟨?_, ?_, ?_, ?_⟩
      · rw [hout]
        exact ⟨h.owned, h.made_eq, h.untaken, h.passed⟩
      · rw [hout]
        exact OpenReply.noConfusion
      · rw [hout]
        rfl
      · rw [hout]
        exact (or_iff_left id).symm
  | setTotal => exact .of_unchanged h (step_eq hall rfl) OpenReply.noConfusion rfl id
  | setCompleted => exact .of_unchanged h (step_eq hall rfl) OpenReply.noConfusion rfl id
  | cryptoGetTextPassword => exact .of_unchanged h (step_eq hall rfl) OpenReply.noConfusion rfl id
  | onCodecsInfo => exact .of_unchanged h (step_eq hall rfl) OpenReply.noConfusion rfl id

/-! ## A whole opening -/

/-- By the rules a fault is a use of the codecs info behind the last reference
    to it. -/
theorem noFault_iff (h : x.Inv) {e : OpenEvent} (hr : x.ByTheRules e) :
    (x.step e).1 ≠ .fault ↔ x.Kept e := by
  refine ⟨?_, fun hkept => (sound h hr hkept).noFault⟩
  intro hreply
  rw [← h.all_there_iff hr]
  by_contra hmissing
  apply hreply
  rw [step, openStep, if_neg hmissing]

/-- What holds at the end of a run by the rules. -/
theorem run_sound (h : x.Inv) {es : List OpenEvent}
    (hd : Along step (fun x e => x.ByTheRules e ∧ x.Kept e) x es) :
    (run step x es).Inv ∧
      (run step x es).state.stream = run inStep x.state.stream (es.flatMap OpenEvent.calls) ∧
      ((run step x es).state.pCompressCodecsInfo = .taken ↔
        x.state.pCompressCodecsInfo = .taken ∨ ∃ e ∈ es, e.Takes) := by
  have hkeeps : ∀ (y : OpenSession) e, y.Inv → (y.ByTheRules e ∧ y.Kept e) → (y.step e).2.Inv :=
    fun y e hy he => (sound hy he.1 he.2).inv
  refine ⟨run_invariant hkeeps h hd, ?_, ?_⟩
  · exact run_view (fun y : OpenSession => y.state.stream) hkeeps
      (fun y e hy he => (sound hy he.1 he.2).stream_eq) h hd
  · induction es generalizing x with
    | nil => exact (or_iff_left (by simp)).symm
    | cons e es ih =>
        have hsound := sound h hd.1.1 hd.1.2
        rw [run_cons, ih hsound.inv hd.2, hsound.taken_iff, List.exists_mem_cons_iff, or_assoc]

/-- The objects that are made: the codecs info counts from its first reference
    on. -/
theorem Inv.lt_made_iff (h : x.Inv) {o : OpenObject} :
    o.number < x.state.objects.made ↔
      (o = .codecsInfo → x.state.pCompressCodecsInfo = .taken) := by
  rw [h.made_eq]
  cases o with
  | inStream =>
      refine iff_of_true ?_ (fun h => absurd h (by decide))
      split_ifs <;> decide
  | openCallBack =>
      refine iff_of_true ?_ (fun h => absurd h (by decide))
      split_ifs <;> decide
  | codecsInfo =>
      split_ifs with htaken
      · exact iff_of_true (by decide) fun _ => htaken
      · exact iff_of_false (by decide) fun h => htaken (h rfl)

end OpenSession

/-- **An opening by the rules.**  A deleted object is met just when the codecs
    info is used behind the last reference to it, which happens to a handler
    that gives the reference up again while it is called with the object.
    Otherwise the calls of the handler reach the stream in their order; and an
    object has been deleted, once, just when neither the program nor the
    handler refers to it, the codecs info only when the handler ever took a
    reference to it. -/
theorem open_callback (stream : Fuse7zInStream) {es : List OpenEvent}
    (hr : Along OpenSession.step OpenSession.ByTheRules (.start stream) es) :
    ((∀ r ∈ replies OpenSession.step (.start stream) es, r ≠ .fault) ↔
      Along OpenSession.step OpenSession.Kept (.start stream) es) ∧
    (Along OpenSession.step OpenSession.Kept (.start stream) es →
      (run OpenSession.step (.start stream) es).state.stream =
        run inStep stream (es.flatMap OpenEvent.calls) ∧
      (run OpenSession.step (.start stream) es).state.objects.deleted.Nodup ∧
      ∀ o : OpenObject,
        o.number ∈ (run OpenSession.step (.start stream) es).state.objects.deleted ↔
          (run OpenSession.step (.start stream) es).phase.refs o = 0 ∧
            (run OpenSession.step (.start stream) es).handler o = 0 ∧
            (o = .codecsInfo → ∃ e ∈ es, e.Takes)) := by
  refine ⟨?_, ?_⟩
  · rw [forall_mem_replies_iff]
    refine Along.iff_of_invariant (fun x e hx he => OpenSession.noFault_iff hx he) ?_
      (OpenSession.inv_start stream) hr
    intro x e hx he hreply
    exact (OpenSession.sound hx he ((OpenSession.noFault_iff hx he).mp hreply)).inv
  · intro hkept
    obtain ⟨hinv, hstream, htaken⟩ :=
      OpenSession.run_sound (OpenSession.inv_start stream) (hr.and hkept)
    refine ⟨hstream, hinv.owned.nodup, ?_⟩
    intro o
    have habsent : (OpenSession.start stream).state.pCompressCodecsInfo ≠ .taken :=
      CodecsPointer.noConfusion
    rw [hinv.owned.mem_deleted, numbered_number, hinv.lt_made_iff, htaken, or_iff_right habsent,
      OpenSession.refs, Nat.add_eq_zero_iff]
    exact ⟨fun h => ⟨h.2.1, h.2.2, h.1⟩, fun h => ⟨h.2.2, h.1, h.2.1⟩⟩

/-- A handler that keeps the stream and the codecs info behind the opening. -/
def keptOpening : List OpenEvent :=
  [.setCompressCodecsInfo, .addRef .codecsInfo, .codecsInfoSet, .addRef .inStream,
    .onStream (.getSize true), .internalReturned, .returned, .release .inStream,
    .release .codecsInfo]

/-- The codecs info is deleted when it has given that up. -/
theorem open_callback_kept :
    OpenObject.codecsInfo.number ∈
      (run OpenSession.step (.start (.opened [] [7])) keptOpening).state.objects.deleted := by
  have hr : Along OpenSession.step OpenSession.ByTheRules (.start (.opened [] [7])) keptOpening :=
    ⟨⟨rfl, rfl⟩, List.forall_mem_singleton.mpr (Or.inr (Or.inr ⟨rfl, rfl⟩)), rfl,
      List.forall_mem_singleton.mpr (Or.inr (Or.inl Nat.two_pos)),
      List.forall_mem_singleton.mpr (Or.inl Nat.one_pos), rfl, rfl, Nat.one_pos, Nat.one_pos,
      trivial⟩
  have hother : ∀ {x : OpenSession} {e : OpenEvent}, .codecsInfo ∉ e.objects → x.Kept e :=
    fun hnot hmem => absurd hmem hnot
  have hkept : Along OpenSession.step OpenSession.Kept (.start (.opened [] [7])) keptOpening :=
    ⟨hother (by decide), fun _ hfresh => absurd hfresh (by decide +kernel), hother (by decide),
      hother (by decide), hother (by decide), hother (by decide), hother (by decide),
      hother (by decide), fun _ _ => Nat.one_pos, trivial⟩
  obtain ⟨-, hrest⟩ := open_callback (.opened [] [7]) hr
  obtain ⟨-, -, hdeleted⟩ := hrest hkept
  exact (hdeleted .codecsInfo).mpr
    ⟨rfl, rfl, fun _ => ⟨.addRef .codecsInfo, List.mem_cons_of_mem _ List.mem_cons_self, rfl⟩⟩

/-- Between its own `AddRef` and `Release` a handler may use the codecs info,
    and not behind them. -/
example :
    replies OpenSession.step (.start (.opened [] [7]))
      [.setCompressCodecsInfo, .onCodecsInfo, .addRef .codecsInfo, .onCodecsInfo,
        .release .codecsInfo, .onCodecsInfo] =
      [.ok, .ok, .count 1, .ok, .count 0, .fault] := by
  decide +kernel

end Fuse7z
