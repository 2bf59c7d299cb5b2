/-
  Fuse7z.Handles

  Several handles on one node.

  A node has one stream, whatever the number of handles on it: `open` puts a
  new one in its place, `release` takes it away.  A `Session` is the mounted
  file system with a count of the open handles on each node, which the code
  does not keep.  The handles on a node are served just when none of them is
  released while another one is open, every `open` that hands out a handle has
  room for the content, and none that fails behind its new stream meets an
  open handle (`served_iff`).
-/
import Fuse7z.Reading

namespace Fuse7z

open Lib Fuse7z.Tree Fuse7zLib7zip

/-! ## Sessions -/

/-- The mounted file system, and how many handles are open on each node. -/
structure Session where
  fs : Fuse7zLib7zip
  live : Addr → Nat

/-- The open handles on `a` after a callback and its reply. -/
def countHandles (live : Addr → Nat) : Callback → Reply → Addr → Nat
  | .open _ _, .opened r fh, a => if fh = a ∧ r = 0 then live a + 1 else live a
  | .release fh, .ret _, a => if fh = a then live a - 1 else live a
  | _, _, a => live a

def sessionStep (s : Session) (e : Callback) : Reply × Session :=
  ((step s.fs e).1, { fs := (step s.fs e).2, live := countHandles s.live e (step s.fs e).1 })

/-- Nothing is open yet. -/
def Session.start (fs : Fuse7zLib7zip) : Session := { fs, live := fun _ => 0 }

/-- Clients use the node `a` through open handles only. -/
def Disciplined (a : Addr) (s : Session) : Callback → Prop
  | .read fh _ _ _ => fh = a → 0 < s.live a
  | .release fh => fh = a → 0 < s.live a
  | _ => True

/-- Every extraction of the node `a` succeeds and delivers `d`. -/
def Delivers (a : Addr) (d : Bytes) (s : Session) : Callback → Prop
  | .open path env => lookup s.fs path = .ok (some a) → ∀ n, s.fs.node? a = some n →
      (s.fs.extraction n env).ok = true ∧ s.fs.extracted n env = d
  | _ => True

/-- A callback leaves the handles on `a`, a file of `size` bytes with content
    `d`, in order: an open handle has the content behind it, the stream goes
    with the last handle only, and a read meets no NULL buffer and gets its
    data inside the file. -/
structure Served (a : Addr) (size : UInt64) (d : Bytes) (s : Session) (e : Callback) : Prop where
  content : 0 < (sessionStep s e).2.live a →
    ∃ st, (sessionStep s e).2.fs.buffer? a = some st ∧ st.buffer = filled 0 size.toNat d
  last : s.fs.buffer? a ≠ none → (sessionStep s e).2.fs.buffer? a = none →
    e = .release a ∧ s.live a = 1
  reads : ∀ sz off mem, e = .read a sz off mem → (sessionStep s e).1 ≠ .fault .nullDeref ∧
    (off.toUInt64.toNat + sz.toNat ≤ size.toNat → ∃ r, (sessionStep s e).1 = .data r ∧
      r.data = window (filled 0 size.toNat d) off.toUInt64.toNat sz.toNat)

/-- A handle on `a` is released as the only one.  An `open` of `a` gets no
    stream, or the sized stream has room for the content, or it hands out no
    handle and there is none: its buffer gets no memory, or the content runs
    over and the program does not survive that. -/
def OneAtATime (a : Addr) (size : UInt64) (d : Bytes) (s : Session) : Callback → Prop
  | .release fh => fh = a → s.live a = 1
  | .open path env => lookup s.fs path = .ok (some a) →
      env.newOk = false ∨ (env.alloc.Serves size ∧ d.length ≤ size.toNat) ∨
        (s.live a = 0 ∧ (env.alloc.Serves size → size = 0 ∨ env.overrunOk = false))
  | _ => True

/-- What holds between callbacks: the node is a file of `size` bytes, and its
    content is behind every open handle. -/
structure SessionInv (a : Addr) (size : UInt64) (d : Bytes) (s : Session) : Prop where
  node : ∃ n, s.fs.node? a = some n ∧ n.isDir = false ∧ n.stat.stSize.toUInt64 = size
  content : 0 < s.live a → ∃ st, s.fs.buffer? a = some st ∧ st.buffer = filled 0 size.toNat d

/-! ## Callbacks that leave the node alone -/

/-- `fuse7z_open` returns a handle on the node its path resolves to. -/
theorem lookup_of_opened {fs : Fuse7zLib7zip} {path : Bytes} {env : OpenEnv} {r : Int32} {fh : Addr}
    (h : (fuse7zOpen fs path env).1 = .opened r fh) : lookup fs path = .ok (some fh) := by
  rcases fuse7zOpen_cases fs path env with ⟨a, n, hfound, hn, hfile⟩ | ⟨-, hno⟩
  · rw [fuse7zOpen_reply hfound hn hfile] at h
    rw [hfound]
    split_ifs at h <;> rw [(Reply.opened.inj h).2]
  · exact absurd h (hno r fh)

theorem live_of_not_touches {s : Session} {a : Addr} {e : Callback} (h : ¬ Touches s.fs a e) :
    (sessionStep s e).2.live a = s.live a := by
  cases e with
  | «open» path env =>
      have hno : ∀ r fh, (fuse7zOpen s.fs path env).1 = .opened r fh → fh ≠ a := by
        rintro r fh hr rfl
        exact h (lookup_of_opened hr)
      simp only [sessionStep, step]
      cases hr : (fuse7zOpen s.fs path env).1 with
      | opened r fh => exact if_neg fun hand => hno r fh hr hand.1
      | _ => rfl
  | release fh =>
      simp only [sessionStep, step]
      cases hr : (fuse7zRelease s.fs fh).1 with
      | ret r => exact if_neg h
      | _ => rfl
  | _ => rfl

/-- A callback that leaves the node alone serves its handles. -/
theorem served_of_not_touches {a : Addr} {size : UInt64} {d : Bytes} {s : Session} {e : Callback}
    (hinv : SessionInv a size d s) (hclient : Disciplined a s e) (h : ¬ Touches s.fs a e) :
    Served a size d s e := by
  -- neither the stream nor the count of the node changes
  have hbuf : (sessionStep s e).2.fs.buffer? a = s.fs.buffer? a := (step_effect s.fs e).buffer? h
  refine ⟨?_, ?_, ?_⟩
  · rw [live_of_not_touches h, hbuf]
    exact hinv.content
  · intro hsome hnone
    rw [hbuf] at hnone
    exact absurd hnone hsome
  · rintro sz off mem rfl
    obtain ⟨st, hst, hfilled⟩ := hinv.content (hclient rfl)
    simp only [sessionStep, step, fuse7zRead]
    refine ⟨?_, ?_⟩
    · rcases readNode_cases hst sz off mem with hfault | ⟨data, -, -, hread⟩
      · simp [hfault]
      · simp [hread]
    · intro hin
      have hlen : size.toNat ≤ st.buffer.length := hfilled ▸ le_length_filled 0 size.toNat d
      rw [readNode_inside hst mem (Or.inr (by omega)), ← hfilled]
      exact ⟨_, rfl, rfl⟩

theorem oneAtATime_of_not_touches {a : Addr} {size : UInt64} {d : Bytes} {s : Session}
    {e : Callback} (h : ¬ Touches s.fs a e) : OneAtATime a size d s e := by
  cases e with
  | «open» path env => exact fun hfound => absurd hfound h
  | release fh => exact fun hfh => absurd hfh h
  | _ => trivial

/-! ## Callbacks on the node -/

/-- A release serves the other handles when there is none. -/
theorem served_release_iff {a : Addr} {size : UInt64} {d : Bytes} {s : Session}
    (hinv : SessionInv a size d s) (hlive : 0 < s.live a) :
    Served a size d s (.release a) ↔ s.live a = 1 := by
  obtain ⟨n, hn, -, -⟩ := hinv.node
  have hbuf : (sessionStep s (.release a)).2.fs.buffer? a = none := by
    simp only [sessionStep, step, fuse7zRelease, hn]
    exact buffer?_setBuffer_self hn none
  have hcount : (sessionStep s (.release a)).2.live a = s.live a - 1 := by
    simp only [sessionStep, step, fuse7zRelease, hn]
    exact if_pos rfl
  refine ⟨?_, ?_⟩
  · intro h
    by_contra hne
    -- another handle is left, without a stream
    obtain ⟨st, hst, -⟩ := h.content (by omega)
    rw [hbuf] at hst
    exact absurd hst (by simp)
  · intro hone
    refine ⟨?_, fun _ _ => ⟨rfl, hone⟩, ?_⟩
    · intro hpos
      omega
    · intro sz off mem he
      exact absurd he (by simp)

/-- What an open of the node does to the streams. -/
theorem sessionStep_open_fs {a : Addr} {n : Node} {s : Session} {path : Bytes}
    (hfound : lookup s.fs path = .ok (some a)) (hn : s.fs.node? a = some n)
    (hfile : n.isDir = false) (env : OpenEnv) :
    (sessionStep s (.open path env)).2.fs =
      if env.newOk then s.fs.hang a (s.fs.openStream n env) else s.fs := by
  simp only [sessionStep, step, fuse7zOpen_eq hfound hn hfile, openNode_eq]
  split_ifs <;> rfl

/-- What an open of the node does to the count of its handles. -/
theorem sessionStep_open_live {a : Addr} {n : Node} {s : Session} {path : Bytes}
    (hfound : lookup s.fs path = .ok (some a)) (hn : s.fs.node? a = some n)
    (hfile : n.isDir = false) (env : OpenEnv) :
    (sessionStep s (.open path env)).2.live a =
      if env.newOk = true ∧ env.alloc.Serves n.stat.stSize.toUInt64 ∧
          s.fs.callbackThrows n env = false ∧ s.fs.Survives n env then s.live a + 1
      else s.live a := by
  have hfailed : ¬ (a = a ∧ (-enomem : Int32) = 0) := fun h => absurd h.2 (by decide)
  show countHandles s.live (.open path env) (fuse7zOpen s.fs path env).1 a = _
  rw [fuse7zOpen_reply hfound hn hfile]
  cases hnew : env.newOk with
  | false =>
      rw [if_pos rfl, if_neg (by simp)]
      exact if_neg hfailed
  | true =>
      rw [if_neg (by simp)]
      by_cases hgood : env.alloc.Serves n.stat.stSize.toUInt64 ∧
          s.fs.callbackThrows n env = false ∧ s.fs.Survives n env
      · obtain ⟨hserves, hcallback, hsurvives⟩ := hgood
        rw [if_pos hserves, hcallback, if_neg Bool.false_ne_true, if_pos hsurvives,
          if_pos ⟨rfl, hserves, rfl, hsurvives⟩]
        exact if_pos ⟨rfl, rfl⟩
      · -- -ENOMEM or a fault, no handle either way
        have hno : ¬ (true = true ∧ env.alloc.Serves n.stat.stSize.toUInt64 ∧
            s.fs.callbackThrows n env = false ∧ s.fs.Survives n env) := fun h => hgood h.2
        rw [if_neg hno]
        split_ifs with hserves hcallback hsurvives
        · exact if_neg hfailed
        · exact absurd ⟨hserves, Bool.not_eq_true _ ▸ hcallback, hsurvives⟩ hgood
        · rfl
        · rfl
        · exact if_neg hfailed

/-- An open that leaves a stream with the content serves everyone. -/
theorem served_of_open_content {a : Addr} {size : UInt64} {d : Bytes} {s : Session} {path : Bytes}
    {env : OpenEnv} {st : Fuse7zOutStream}
    (hbuf : (sessionStep s (.open path env)).2.fs.buffer? a = some st)
    (hcontent : 0 < (sessionStep s (.open path env)).2.live a → st.buffer = filled 0 size.toNat d) :
    Served a size d s (.open path env) where
  content hlive := ⟨st, hbuf, hcontent hlive⟩
  last := by
    intro _ hnone
    rw [hbuf] at hnone
    exact absurd hnone (by simp)
  reads := by
    intro sz off mem he
    exact absurd he (by simp)

/-- An open that changes neither the stream nor the count of handles serves
    everyone. -/
theorem served_of_open_kept {a : Addr} {size : UInt64} {d : Bytes} {s : Session} {path : Bytes}
    {env : OpenEnv} (hinv : SessionInv a size d s)
    (hbuf : (sessionStep s (.open path env)).2.fs.buffer? a = s.fs.buffer? a)
    (hlive : (sessionStep s (.open path env)).2.live a = s.live a) :
    Served a size d s (.open path env) where
  content := by
    rw [hlive, hbuf]
    exact hinv.content
  last := by
    intro hsome hnone
    rw [hbuf] at hnone
    exact absurd hnone hsome
  reads := by
    intro sz off mem he
    exact absurd he (by simp)

/-- A stream as long as the file has the content behind it only when the content
    fits. -/
theorem length_le_of_filled {st : Fuse7zOutStream} {size : UInt64} {d : Bytes}
    (hlen : st.buffer.length ≤ size.toNat) (h : st.buffer = filled 0 size.toNat d) :
    d.length ≤ size.toNat := by
  rw [h, filled, List.length_append] at hlen
  omega

/-- An open whose stream got memory serves the handles when there is room for
    the content, or when there is no handle before or behind it. -/
theorem served_open_sized_iff {a : Addr} {size : UInt64} {d : Bytes} {s : Session} {path : Bytes}
    {env : OpenEnv} {n : Node} (hn : s.fs.node? a = some n) (hfile : n.isDir = false)
    (hsize : n.stat.stSize.toUInt64 = size) (hdelivers : Delivers a d s (.open path env))
    (hfound : lookup s.fs path = .ok (some a)) (hnew : env.newOk = true)
    (hserves : env.alloc.Serves size) :
    Served a size d s (.open path env) ↔
      d.length ≤ size.toNat ∨ (s.live a = 0 ∧ (size = 0 ∨ env.overrunOk = false)) := by
  obtain ⟨hok, hdata⟩ := hdelivers hfound n hn
  have hstate := sessionStep_open_fs hfound hn hfile env
  rw [hnew, if_pos rfl] at hstate
  have hbuf : (sessionStep s (.open path env)).2.fs.buffer? a = some (s.fs.openStream n env) := by
    rw [hstate, buffer?_hang_self hn]
  by_cases hfit : d.length ≤ size.toNat
  · -- the new stream has the content, for the old handles too
    have hholds := openStream_holds (by rw [hsize]; exact hserves)
      (by rw [hsize, hdata]; exact hfit)
    rw [hsize, hdata] at hholds
    exact iff_of_true (served_of_open_content hbuf fun _ => hholds.buffer_eq) (Or.inl hfit)
  · rw [or_iff_right hfit]
    have hlen : (s.fs.openStream n env).buffer.length ≤ size.toNat := by
      rw [openStream_length, hsize, if_pos hserves]
    have hcallback : s.fs.callbackThrows n env = false := callbackThrows_of_ok hok
    have hcount := sessionStep_open_live hfound hn hfile env
    have hsurvives : s.fs.Survives n env ↔ ¬ (size = 0 ∨ env.overrunOk = false) := by
      rw [Survives, hdata, hsize, or_iff_right hfit, not_or, Bool.not_eq_false]
    simp only [hsize, hnew, hserves, hcallback, hsurvives, true_and] at hcount
    -- what is at the node is no content, so no handle may be open behind the `open`
    have hnone : Served a size d s (.open path env) ↔
        (sessionStep s (.open path env)).2.live a = 0 := by
      refine ⟨?_, ?_⟩
      · intro h
        by_contra hlive
        obtain ⟨st, hst, hfilled⟩ := h.content (Nat.pos_of_ne_zero hlive)
        obtain rfl := Option.some.inj (hbuf.symm.trans hst)
        exact hfit (length_le_of_filled hlen hfilled)
      · intro hlive
        exact served_of_open_content hbuf fun hpos => by omega
    rw [hnone, hcount]
    by_cases hcrash : size = 0 ∨ env.overrunOk = false
    · rw [if_neg (not_not.mpr hcrash), and_iff_left hcrash]
    · rw [if_pos hcrash, iff_false_right fun h => hcrash h.2]
      omega

/-- **Which opens serve the handles** on a node. -/
theorem served_open_iff {a : Addr} {size : UInt64} {d : Bytes} {s : Session} {path : Bytes}
    {env : OpenEnv} (hinv : SessionInv a size d s) (hdelivers : Delivers a d s (.open path env))
    (hfound : lookup s.fs path = .ok (some a)) :
    Served a size d s (.open path env) ↔
      env.newOk = false ∨ (env.alloc.Serves size ∧ d.length ≤ size.toNat) ∨
        (s.live a = 0 ∧ (env.alloc.Serves size → size = 0 ∨ env.overrunOk = false)) := by
  obtain ⟨n, hn, hfile, hsize⟩ := hinv.node
  have hstate := sessionStep_open_fs hfound hn hfile env
  have hcount := sessionStep_open_live hfound hn hfile env
  rw [hsize] at hcount
  cases hnew : env.newOk with
  | false =>
      -- nothing happened
      rw [hnew, if_neg Bool.false_ne_true] at hstate
      rw [if_neg fun h => absurd (hnew.symm.trans h.1) (by simp)] at hcount
      have hkept : (sessionStep s (.open path env)).2.fs.buffer? a = s.fs.buffer? a := by
        rw [hstate]
      exact iff_of_true (served_of_open_kept hinv hkept hcount) (Or.inl rfl)
  | true =>
      rw [or_iff_right (by simp)]
      by_cases hserves : env.alloc.Serves size
      · rw [served_open_sized_iff hn hfile hsize hdelivers hfound hnew hserves, and_iff_right hserves,
          forall_prop_of_true hserves]
      · -- no new handle, and an empty stream behind the old ones
        rw [if_neg fun h => hserves h.2.1] at hcount
        rw [hnew, if_pos rfl] at hstate
        have hempty : s.fs.openStream n env = Fuse7zOutStream.new s.fs.nextStream :=
          openStream_of_not_serves (by rw [hsize]; exact hserves)
        have hbuf : (sessionStep s (.open path env)).2.fs.buffer? a
            = some (Fuse7zOutStream.new s.fs.nextStream) := by
          rw [hstate, buffer?_hang_self hn, hempty]
        refine ⟨?_, ?_⟩
        · intro h
          refine Or.inr ⟨?_, fun hs => absurd hs hserves⟩
          by_contra hlive
          obtain ⟨st, hst, hfilled⟩ := h.content (by omega)
          obtain rfl := Option.some.inj (hbuf.symm.trans hst)
          -- an empty file needs no memory
          have hlen : size.toNat ≤ 0 :=
            calc size.toNat ≤ (filled 0 size.toNat d).length := le_length_filled 0 size.toNat d
              _ = 0 := by rw [← hfilled]; rfl
          exact hserves (Or.inl (UInt64.toNat_inj.mp (Nat.le_zero.mp hlen)))
        · rintro (⟨hs, -⟩ | ⟨hlive, -⟩)
          · exact absurd hs hserves
          · exact served_of_open_content hbuf fun hpos => by omega

/-- **One callback serves the handles on a node** just when it does not run
    into another handle. -/
theorem served_step_iff {a : Addr} {size : UInt64} {d : Bytes} {s : Session} {e : Callback}
    (hinv : SessionInv a size d s) (hclient : Disciplined a s e) (hdelivers : Delivers a d s e) :
    Served a size d s e ↔ OneAtATime a size d s e := by
  by_cases htouch : Touches s.fs a e
  · cases e with
    | «open» path env =>
        rw [served_open_iff hinv hdelivers htouch]
        exact ⟨fun h _ => h, fun h => h htouch⟩
    | release fh =>
        obtain rfl : fh = a := htouch
        rw [served_release_iff hinv (hclient rfl)]
        exact ⟨fun h _ => h, fun h => h rfl⟩
    | _ => exact absurd htouch id
  · exact iff_of_true (served_of_not_touches hinv hclient htouch)
      (oneAtATime_of_not_touches htouch)

/-- What a callback that serves the handles keeps. -/
theorem sessionInv_step {a : Addr} {size : UInt64} {d : Bytes} {s : Session} {e : Callback}
    (hinv : SessionInv a size d s) (h : Served a size d s e) :
    SessionInv a size d (sessionStep s e).2 := by
  refine ⟨?_, h.content⟩
  obtain ⟨n, hn, hfile, hsize⟩ := hinv.node
  obtain ⟨n', hn', hfixed⟩ := (step_effect s.fs e).frame.node_of_old hn
  refine ⟨n', hn', (fixedPart_isDir hfixed).trans hfile, ?_⟩
  rw [fixedPart_stSize hfixed, hsize]

/-- **Which runs serve every handle on a file**: those in which no handle is
    released while another one is open, no `open` beside an open handle fails
    behind its new stream, and the content fits the stream of every handle. -/
theorem served_iff (u : Uninit) (archive : Archive) (euid egid : UInt32) {a : Addr} {n : Node}
    (hn : (mount u archive euid egid).node? a = some n) (hfile : n.isDir = false) {d : Bytes}
    {es : List Callback}
    (hclients : Along sessionStep (fun s e => Disciplined a s e ∧ Delivers a d s e)
      (Session.start (mount u archive euid egid)) es) :
    Along sessionStep (Served a n.stat.stSize.toUInt64 d)
        (Session.start (mount u archive euid egid)) es ↔
      Along sessionStep (OneAtATime a n.stat.stSize.toUInt64 d)
        (Session.start (mount u archive euid egid)) es := by
  have hstart : SessionInv a n.stat.stSize.toUInt64 d (Session.start (mount u archive euid egid)) :=
    ⟨⟨n, hn, hfile, rfl⟩, fun hpos => absurd hpos (Nat.lt_irrefl 0)⟩
  refine Along.iff_of_invariant ?_ ?_ hstart hclients
  · intro s e hinv hPe
    exact served_step_iff hinv hPe.1 hPe.2
  · intro s e hinv _ hserved
    exact sessionInv_step hinv hserved

/-- Opening "/a" delivers its three bytes, in any state. -/
theorem oneFile_delivers (es : List Callback) (live : Addr → Nat) :
    Delivers 1 [1, 2, 3] ⟨run step (mount default oneFile 0 0) es, live⟩
      (.open [slash, 97] wholeOpen) := by
  intro _ n hn
  obtain ⟨m, hm, -, hid, -⟩ := oneFile_node es
  obtain rfl : m = n := Option.some.inj (hm.symm.trans hn)
  rw [extracted, oneFile_extraction es hid]
  exact ⟨rfl, rfl⟩

theorem served_one_handle :
    Along sessionStep (Served 1 3 [1, 2, 3]) (Session.start (mount default oneFile 0 0))
      [.open [slash, 97] wholeOpen, .read 1 3 0 (fun _ => some 0), .release 1] := by
  obtain ⟨n, hn, hfile, -, hsize⟩ := oneFile_node []
  have hword : n.stat.stSize.toUInt64 = 3 := by
    rw [hsize]
    decide
  have hclients : Along sessionStep (fun s e => Disciplined 1 s e ∧ Delivers 1 [1, 2, 3] s e)
      (Session.start (mount default oneFile 0 0))
      [.open [slash, 97] wholeOpen, .read 1 3 0 (fun _ => some 0), .release 1] :=
    ⟨⟨trivial, oneFile_delivers [] _⟩, ⟨fun _ => by decide +kernel, trivial⟩,
      ⟨fun _ => by decide +kernel, trivial⟩, trivial⟩
  have hiff := served_iff default oneFile 0 0 hn hfile hclients
  rw [hword] at hiff
  exact hiff.mpr ⟨fun _ => Or.inr (Or.inl (by decide)), trivial, fun _ => by decide +kernel,
    trivial⟩

/-- Two handles on "/a", one released, the other one read. -/
def twoHandles : List Callback :=
  [.open [slash, 97] wholeOpen, .open [slash, 97] wholeOpen, .release 1,
    .read 1 1 0 (fun _ => some 0)]

/-- The read through the handle that is still open meets a NULL buffer. -/
theorem shared_stream_lost :
    Along sessionStep (fun s e => Disciplined 1 s e ∧ Delivers 1 [1, 2, 3] s e)
      (Session.start (mount default oneFile 0 0)) twoHandles ∧
    (transcript sessionStep (Session.start (mount default oneFile 0 0)) twoHandles).map Prod.snd
      = [.opened 0 1, .opened 0 1, .ret 0, .fault .nullDeref] ∧
    ¬ Along sessionStep (Served 1 3 [1, 2, 3]) (Session.start (mount default oneFile 0 0))
      twoHandles := by
  have hreplies : (transcript sessionStep (Session.start (mount default oneFile 0 0))
      twoHandles).map Prod.snd = [.opened 0 1, .opened 0 1, .ret 0, .fault .nullDeref] := by
    decide +kernel
  refine ⟨?_, hreplies, ?_⟩
  · exact ⟨⟨trivial, oneFile_delivers [] _⟩, ⟨trivial, oneFile_delivers [_] _⟩,
      ⟨fun _ => by decide +kernel, trivial⟩, ⟨fun _ => by decide +kernel, trivial⟩, trivial⟩
  · rintro ⟨-, -, -, hread, -⟩
    have hfault := congrArg (fun l : List Reply => l[3]?) hreplies
    exact (hread.reads 1 0 _ rfl).1 (Option.some.inj hfault)

end Fuse7z
