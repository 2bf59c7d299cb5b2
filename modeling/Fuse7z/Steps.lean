/-
  Fuse7z.Steps

  What a callback can do to the mounted archive.

  `Effect` lists it once: nothing, hang a stream at the node of a file, take
  the stream of a node away, write a node's modification time.  All that the
  runs keep is derived from it: the tree and what lib7zip said about the
  items (`Frame`), the streams of nodes that are left alone (`Touches`), and
  that stream addresses are fresh (`StreamsBelow`).
-/
import Fuse7z.Callbacks
import Fuse7z.TreeInv

namespace Fuse7z

open Lib Fuse7z.Tree Fuse7zLib7zip

namespace Fuse7zLib7zip

/-! ## open -/

/-- `node->buffer = stream`, for the stream `new` returned last. -/
def hang (fs : Fuse7zLib7zip) (a : Addr) (s : Fuse7zOutStream) : Fuse7zLib7zip :=
  { fs.setBuffer a (some s) with nextStream := fs.nextStream + 1 }

theorem node?_setBuffer (fs : Fuse7zLib7zip) (a b : Addr) (s : Option Fuse7zOutStream) :
    (fs.setBuffer a s).node? b =
      if a = b then (fs.node? b).map fun n => { n with buffer := s } else fs.node? b :=
  Tree.node?_modify fs.tree a b _

theorem node?_hang (fs : Fuse7zLib7zip) (a b : Addr) (s : Fuse7zOutStream) :
    (fs.hang a s).node? b =
      if a = b then (fs.node? b).map fun n => { n with buffer := some s } else fs.node? b :=
  node?_setBuffer fs a b (some s)

/-- The buffer of a node after `node->buffer = s`. -/
theorem buffer?_setBuffer_self {fs : Fuse7zLib7zip} {a : Addr} {n : Node} (hn : fs.node? a = some n)
    (s : Option Fuse7zOutStream) : (fs.setBuffer a s).buffer? a = s := by
  rw [buffer?, node?_setBuffer, if_pos rfl, hn]
  rfl

theorem buffer?_setBuffer_ne (fs : Fuse7zLib7zip) {a b : Addr} (s : Option Fuse7zOutStream)
    (hab : a ≠ b) : (fs.setBuffer a s).buffer? b = fs.buffer? b := by
  rw [buffer?, node?_setBuffer, if_neg hab]
  rfl

theorem buffer?_hang_self {fs : Fuse7zLib7zip} {a : Addr} {n : Node} (hn : fs.node? a = some n)
    (s : Fuse7zOutStream) : (fs.hang a s).buffer? a = some s :=
  buffer?_setBuffer_self hn (some s)

theorem buffer?_hang_ne (fs : Fuse7zLib7zip) {a b : Addr} (s : Fuse7zOutStream) (hab : a ≠ b) :
    (fs.hang a s).buffer? b = fs.buffer? b :=
  buffer?_setBuffer_ne fs (some s) hab

/-- A second assignment to `node->buffer` overrides the first. -/
theorem setBuffer_hang (fs : Fuse7zLib7zip) (a : Addr) (s s' : Fuse7zOutStream) :
    (fs.hang a s).setBuffer a (some s') = fs.hang a s' := by
  -- two changes of one cell are the second change of the first
  have hmod := List.modify_modify_eq (fun n : Node => { n with buffer := some s })
    (fun n : Node => { n with buffer := some s' }) a fs.tree.nodes.cells
  rw [hang, hang, setBuffer, setBuffer, setBuffer, Tree.modify, Tree.modify, Tree.modify,
    Heap.modify, Heap.modify, Heap.modify, hmod]
  rfl

/-- What the format handler does in an `open`: nothing, and no success, when
    `new CArchiveExtractCallback` throws. -/
def extraction (fs : Fuse7zLib7zip) (n : Node) (env : OpenEnv) : Extraction :=
  if fs.callbackThrows n env then { writes := [], ok := false }
  else fs.archive.extract env.codec n.extractId

/-- The stream `open` hangs at the node: the sized one after the `Write` calls,
    or the empty one when sizing it threw. -/
def openStream (fs : Fuse7zLib7zip) (n : Node) (env : OpenEnv) : Fuse7zOutStream :=
  match (Fuse7zOutStream.new fs.nextStream).setSize env.alloc n.stat.stSize.toUInt64 with
  | .error _ => Fuse7zOutStream.new fs.nextStream
  | .ok sized => (sized.fill env.overrunOk (fs.extraction n env).writes).2

/-- What `open` comes to once `new` got its memory. -/
def openOutcome (fs : Fuse7zLib7zip) (n : Node) (env : OpenEnv) : OpenOutcome :=
  match (Fuse7zOutStream.new fs.nextStream).setSize env.alloc n.stat.stSize.toUInt64 with
  | .error e => .threw e
  | .ok sized =>
      if fs.callbackThrows n env then .threw .badAlloc
      else
        match (sized.fill env.overrunOk (fs.extraction n env).writes).1 with
        | .ok () => .returned
        | .error f => .crashed f

theorem openNode_eq (fs : Fuse7zLib7zip) (a : Addr) (n : Node) (env : OpenEnv) :
    fs.openNode a n env =
      if env.newOk then (fs.openOutcome n env, fs.hang a (fs.openStream n env))
      else (.threw .badAlloc, fs) := by
  have hset : ∀ s, ({ fs.setBuffer a (some (Fuse7zOutStream.new fs.nextStream)) with
      nextStream := fs.nextStream + 1 } : Fuse7zLib7zip).setBuffer a (some s) = fs.hang a s :=
    fun s => setBuffer_hang fs a (Fuse7zOutStream.new fs.nextStream) s
  cases hnew : env.newOk with
  | false => simp [openNode, hnew]
  | true =>
      simp only [openNode, hnew, openOutcome, openStream, Bool.not_true, Bool.false_eq_true,
        if_false, if_true]
      cases (Fuse7zOutStream.new fs.nextStream).setSize env.alloc n.stat.stSize.toUInt64 with
      | error e => rfl
      | ok sized =>
          rw [extraction]
          by_cases hcallback : fs.callbackThrows n env = true
          · -- no callback object, so no `Write`
            simp only [if_pos hcallback, hset]
            rfl
          · simp only [if_neg hcallback]
            rcases sized.fill env.overrunOk (fs.archive.extract env.codec n.extractId).writes with
              ⟨f | _, filled⟩
            · exact congrArg (Prod.mk _) (hset filled)
            · exact congrArg (Prod.mk _) (hset filled)

theorem openStream_addr (fs : Fuse7zLib7zip) (n : Node) (env : OpenEnv) :
    (fs.openStream n env).addr = fs.nextStream := by
  rw [openStream]
  split
  · rfl
  · rename_i sized hsized
    rw [Fuse7zOutStream.fill_addr]
    exact (Fuse7zOutStream.holds_of_setSize hsized).2

/-! ## One callback -/

/-- What a callback can do to the state. -/
inductive Effect (fs : Fuse7zLib7zip) : Callback → Fuse7zLib7zip → Prop where
  | unchanged (e : Callback) : Effect fs e fs
  | opened {path : Bytes} {env : OpenEnv} {a : Addr} {n : Node}
      (found : lookup fs path = .ok (some a)) (node : fs.node? a = some n) (file : n.isDir = false)
      (newOk : env.newOk = true) :
      Effect fs (.open path env) (fs.hang a (fs.openStream n env))
  | released {a : Addr} {n : Node} (node : fs.node? a = some n) :
      Effect fs (.release a) (fs.setBuffer a none)
  | timed {path : Bytes} {tv0 tv1 : Timespec} {a : Addr} :
      Effect fs (.utimens path tv0 tv1) { fs with tree := fs.tree.modify a (setMtime tv1) }

/-- What `fuse7z_open` does at the node of a file. -/
theorem fuse7zOpen_eq {fs : Fuse7zLib7zip} {path : Bytes} {a : Addr} {n : Node}
    (hfound : lookup fs path = .ok (some a)) (hn : fs.node? a = some n) (hfile : n.isDir = false)
    (env : OpenEnv) :
    fuse7zOpen fs path env = (openReply a (fs.openNode a n env).1, (fs.openNode a n env).2) := by
  simp [fuse7zOpen, hfound, hn, hfile]

/-- `fuse7z_open` gets to a file, or gives no handle and changes nothing. -/
theorem fuse7zOpen_cases (fs : Fuse7zLib7zip) (path : Bytes) (env : OpenEnv) :
    (∃ a n, lookup fs path = .ok (some a) ∧ fs.node? a = some n ∧ n.isDir = false) ∨
      ((fuse7zOpen fs path env).2 = fs ∧ ∀ r fh, (fuse7zOpen fs path env).1 ≠ .opened r fh) := by
  cases hfound : lookup fs path with
  | error f => exact Or.inr (by simp [fuse7zOpen, hfound])
  | ok found =>
      cases found with
      | none => exact Or.inr (by simp [fuse7zOpen, hfound])
      | some a =>
          cases hn : fs.node? a with
          | none => exact Or.inr (by simp [fuse7zOpen, hfound, hn])
          | some n =>
              cases hdir : n.isDir with
              | true => exact Or.inr (by simp [fuse7zOpen, hfound, hn, hdir])
              | false => exact Or.inl ⟨a, n, rfl, hn, hdir⟩

theorem fuse7zOpen_effect (fs : Fuse7zLib7zip) (path : Bytes) (env : OpenEnv) :
    Effect fs (.open path env) (fuse7zOpen fs path env).2 := by
  rcases fuse7zOpen_cases fs path env with ⟨a, n, hfound, hn, hfile⟩ | ⟨hsame, -⟩
  · rw [fuse7zOpen_eq hfound hn hfile, openNode_eq]
    cases hnew : env.newOk with
    | true => exact .opened hfound hn hfile hnew
    | false => exact .unchanged _
  · rw [hsame]
    exact .unchanged _

theorem step_effect (fs : Fuse7zLib7zip) (e : Callback) : Effect fs e (step fs e).2 := by
  cases e with
  | «open» path env => exact fuse7zOpen_effect fs path env
  | release fh =>
      cases hn : fs.node? fh with
      | none =>
          simp only [step, fuse7zRelease, hn]
          exact .unchanged _
      | some n =>
          simp only [step, fuse7zRelease, hn]
          exact .released hn
  | utimens path tv0 tv1 =>
      cases hfound : lookup fs path with
      | error f =>
          simp only [step, fuse7zUtimens, hfound]
          exact .unchanged _
      | ok found =>
          cases found with
          | none =>
              simp only [step, fuse7zUtimens, hfound]
              exact .unchanged _
          | some a =>
              simp only [step, fuse7zUtimens, hfound]
              exact .timed
  | _ => exact .unchanged _

/-! ## What no callback changes -/

/-- The part of a node no callback changes: all but the stream and the seconds
    of the modification time. -/
def fixedPart (n : Node) : Node :=
  { n with
    buffer := none
    stat := { n.stat with stMtim := { n.stat.stMtim with tvSec := 0 } } }

/-- `fs'` differs from `fs` in streams and modification times only. -/
structure Frame (fs fs' : Fuse7zLib7zip) : Prop where
  nodes : ∀ a, (fs'.node? a).map fixedPart = (fs.node? a).map fixedPart
  rootNode : fs'.rootNode = fs.rootNode
  archive : fs'.archive = fs.archive
  euid : fs'.euid = fs.euid
  egid : fs'.egid = fs.egid

theorem Frame.refl (fs : Fuse7zLib7zip) : Frame fs fs := ⟨fun _ => rfl, rfl, rfl, rfl, rfl⟩

theorem Frame.trans {fs₁ fs₂ fs₃ : Fuse7zLib7zip} (h₁₂ : Frame fs₁ fs₂) (h₂₃ : Frame fs₂ fs₃) :
    Frame fs₁ fs₃ where
  nodes a := (h₂₃.nodes a).trans (h₁₂.nodes a)
  rootNode := h₂₃.rootNode.trans h₁₂.rootNode
  archive := h₂₃.archive.trans h₁₂.archive
  euid := h₂₃.euid.trans h₁₂.euid
  egid := h₂₃.egid.trans h₁₂.egid

/-- Changing one node outside its fixed part. -/
theorem frame_of_modify {fs fs' : Fuse7zLib7zip} {a : Addr} {f : Node → Node}
    (hnode : ∀ b, fs'.node? b = if a = b then (fs.node? b).map f else fs.node? b)
    (hf : ∀ n, fixedPart (f n) = fixedPart n) (hroot : fs'.rootNode = fs.rootNode)
    (harchive : fs'.archive = fs.archive) (heuid : fs'.euid = fs.euid)
    (hegid : fs'.egid = fs.egid) : Frame fs fs' where
  nodes := by
    intro b
    rw [hnode]
    by_cases hab : a = b
    · rw [if_pos hab, Option.map_map]
      exact congrArg (fun g => (fs.node? b).map g) (funext hf)
    · rw [if_neg hab]
  rootNode := hroot
  archive := harchive
  euid := heuid
  egid := hegid

theorem Effect.frame {fs fs' : Fuse7zLib7zip} {e : Callback} (h : Effect fs e fs') :
    Frame fs fs' := by
  cases h with
  | unchanged => exact Frame.refl fs
  | opened found node file newOk =>
      exact frame_of_modify (fun b => node?_hang fs _ b _) (fun _ => rfl) rfl rfl rfl rfl
  | released node =>
      exact frame_of_modify (fun b => node?_setBuffer fs _ b _) (fun _ => rfl) rfl rfl rfl rfl
  | timed =>
      exact frame_of_modify (fun b => Tree.node?_modify fs.tree _ b _) (fun _ => rfl) rfl rfl rfl rfl

/-- No run changes more than streams and modification times. -/
theorem run_frame (fs : Fuse7zLib7zip) (es : List Callback) : Frame fs (run step fs es) :=
  run_invariant' (I := Frame fs) (fun s e h => h.trans (step_effect s e).frame) es (Frame.refl fs)

theorem Frame.node {fs fs' : Fuse7zLib7zip} (h : Frame fs fs') {a : Addr} {n' : Node}
    (hn' : fs'.node? a = some n') : ∃ n, fs.node? a = some n ∧ fixedPart n' = fixedPart n := by
  have hmap := h.nodes a
  rw [hn', Option.map_some] at hmap
  obtain ⟨n, hn, heq⟩ := Option.map_eq_some_iff.mp hmap.symm
  exact ⟨n, hn, heq.symm⟩

theorem Frame.node_of_old {fs fs' : Fuse7zLib7zip} (h : Frame fs fs') {a : Addr} {n : Node}
    (hn : fs.node? a = some n) : ∃ n', fs'.node? a = some n' ∧ fixedPart n' = fixedPart n := by
  have hmap := h.nodes a
  rw [hn, Option.map_some] at hmap
  exact Option.map_eq_some_iff.mp hmap

/-- What a function reads off the fixed part of a node, no callback changes. -/
theorem fixedPart_congr {α : Type} (g : Node → α) (hg : ∀ n, g (fixedPart n) = g n) {n n' : Node}
    (h : fixedPart n' = fixedPart n) : g n' = g n := by
  rw [← hg n', h, hg]

theorem fixedPart_isDir {n n' : Node} (h : fixedPart n' = fixedPart n) : n'.isDir = n.isDir :=
  fixedPart_congr Node.isDir (fun _ => rfl) h

theorem fixedPart_id {n n' : Node} (h : fixedPart n' = fixedPart n) : n'.id = n.id :=
  fixedPart_congr Node.id (fun _ => rfl) h

theorem fixedPart_stSize {n n' : Node} (h : fixedPart n' = fixedPart n) :
    n'.stat.stSize = n.stat.stSize :=
  fixedPart_congr (fun n => n.stat.stSize) (fun _ => rfl) h

theorem Frame.child_eq {fs fs' : Fuse7zLib7zip} (h : Frame fs fs') :
    fs'.tree.child = fs.tree.child := by
  -- the children are part of what is fixed
  have hvia : ∀ (g : Fuse7zLib7zip) (a : Addr) (k : Bytes), g.tree.child a k
      = ((g.node? a).map fixedPart).bind fun n => n.childs.find? k := by
    intro g a k
    rw [Option.bind_map]
    rfl
  funext a k
  rw [hvia fs', hvia fs, h.nodes]

/-- `find` looks at the children maps only. -/
theorem find_congr {t t' : Tree} (h : t'.child = t.child) (this : Addr) (path : Bytes) :
    t'.find this path = t.find this path := by
  induction path using path_induction generalizing this with
  | leaf path name hsplit =>
      by_cases hne : path = []
      · rw [hne, find_nil, find_nil]
      · rw [find_leaf t' this hne hsplit, find_leaf t this hne hsplit, h]
  | dir path name rest hsplit ih =>
      rw [find_dir t' this hsplit, find_dir t this hsplit, h]
      cases t.child this name with
      | none => rfl
      | some c => simp only [ih c]

/-- A path keeps resolving to the same node. -/
theorem Frame.lookup_eq {fs fs' : Fuse7zLib7zip} (h : Frame fs fs') (path : Bytes) :
    lookup fs' path = lookup fs path := by
  cases path with
  | nil => rfl
  | cons c q =>
      rw [lookup, lookup, h.rootNode]
      exact find_congr h.child_eq fs.rootNode q

/-- The tree keeps its shape. -/
theorem Frame.wf {fs fs' : Fuse7zLib7zip} (h : Frame fs fs') {root : Addr}
    (hwf : fs.tree.WF root) : fs'.tree.WF root where
  root_parent := by
    obtain ⟨n, hn, hp⟩ := hwf.root_parent
    obtain ⟨n', hn', hfixed⟩ := h.node_of_old hn
    exact ⟨n', hn', (fixedPart_congr Node.parent (fun _ => rfl) hfixed).trans hp⟩
  link := by
    intro a c k hk
    rw [h.child_eq] at hk
    obtain ⟨n, hn, hp, hname⟩ := hwf.link hk
    obtain ⟨n', hn', hfixed⟩ := h.node_of_old hn
    exact ⟨n', hn', (fixedPart_congr Node.parent (fun _ => rfl) hfixed).trans hp,
      (fixedPart_congr Node.sname (fun _ => rfl) hfixed).trans hname⟩
  reach := by
    intro a n' hn'
    obtain ⟨n, hn, -⟩ := h.node hn'
    rw [h.child_eq]
    exact hwf.reach hn

/-! ## Streams -/

/-- The callbacks that may change the stream of the node at `a`. -/
def Touches (fs : Fuse7zLib7zip) (a : Addr) : Callback → Prop
  | .open path _ => lookup fs path = .ok (some a)
  | .release fh => fh = a
  | _ => False

theorem buffer?_setMtime (fs : Fuse7zLib7zip) (a b : Addr) (tv1 : Timespec) :
    ({ fs with tree := fs.tree.modify a (setMtime tv1) } : Fuse7zLib7zip).buffer? b
      = fs.buffer? b := by
  have hnode : ({ fs with tree := fs.tree.modify a (setMtime tv1) } : Fuse7zLib7zip).node? b
      = if a = b then (fs.node? b).map (setMtime tv1) else fs.node? b :=
    Tree.node?_modify fs.tree a b _
  rw [buffer?, buffer?, hnode]
  by_cases hab : a = b
  · rw [if_pos hab, Option.bind_map]
    rfl
  · rw [if_neg hab]

/-- A callback that does not touch a node leaves its stream as it is. -/
theorem Effect.buffer? {fs fs' : Fuse7zLib7zip} {e : Callback} (heff : Effect fs e fs') {a : Addr}
    (h : ¬ Touches fs a e) : fs'.buffer? a = fs.buffer? a := by
  cases heff with
  | unchanged => rfl
  | opened found node file newOk =>
      -- the stream was hung at another node
      apply buffer?_hang_ne
      rintro rfl
      exact h found
  | released node => exact buffer?_setBuffer_ne fs none h
  | timed => exact buffer?_setMtime fs _ a _

/-- Every stream was made before the next one. -/
def StreamsBelow (fs : Fuse7zLib7zip) : Prop :=
  ∀ (a : Addr) (s : Fuse7zOutStream), fs.buffer? a = some s → s.addr < fs.nextStream

theorem Effect.streamsBelow {fs fs' : Fuse7zLib7zip} {e : Callback} (heff : Effect fs e fs')
    (h : StreamsBelow fs) : StreamsBelow fs' := by
  cases heff with
  | unchanged => exact h
  | @opened path env a n found node file newOk =>
      intro b s hs
      by_cases hab : a = b
      · subst hab
        rw [buffer?_hang_self node] at hs
        obtain rfl := Option.some.inj hs
        -- the stream at `a` is the newest one
        rw [openStream_addr]
        exact Nat.lt_succ_self _
      · rw [buffer?_hang_ne fs _ hab] at hs
        exact Nat.lt_succ_of_lt (h b s hs)
  | @released a n node =>
      intro b s hs
      by_cases hab : a = b
      · subst hab
        rw [buffer?_setBuffer_self node] at hs
        exact absurd hs (by simp)
      · rw [buffer?_setBuffer_ne fs none hab] at hs
        exact h b s hs
  | timed =>
      intro b s hs
      rw [buffer?_setMtime] at hs
      exact h b s hs

/-! ## read and the stream -/

/-- `read` looks at the stream of its node only. -/
theorem readNode_eq {fs : Fuse7zLib7zip} {a : Addr} {s : Fuse7zOutStream}
    (hs : fs.buffer? a = some s) (size : UInt64) (offset : Int64) (mem : Nat → Option Byte) :
    fs.readNode a size offset mem =
      match loadBytes mem s.buffer offset.toUInt64.toNat size.toNat with
      | none => .error .segfault
      | some data =>
          .ok
            { ret := size.toUInt32.toInt32
              data
              loads := List.range' offset.toUInt64.toNat size.toNat } := by
  obtain ⟨n, hn, hbuf⟩ := Option.bind_eq_some_iff.mp hs
  cases hload : loadBytes mem s.buffer offset.toUInt64.toNat size.toNat with
  | none => simp only [readNode, hn, hbuf, hload]
  | some data => simp only [readNode, hn, hbuf, hload]

/-- A load that comes to an end loads so many bytes, beginning with those of
    the vector. -/
theorem loadBytes_eq_some {mem : Nat → Option Byte} {buffer : Bytes} {off n : Nat} {data : Bytes}
    (h : loadBytes mem buffer off n = some data) :
    data.length = n ∧ window buffer off n <+: data := by
  induction n generalizing off data with
  | zero =>
      obtain rfl := Option.some.inj h
      exact ⟨rfl, by simp [window]⟩
  | succ n ih =>
      rw [loadBytes] at h
      obtain ⟨byte, hbyte, h⟩ := Option.bind_eq_some_iff.mp h
      obtain ⟨rest, hrest, h⟩ := Option.bind_eq_some_iff.mp h
      obtain rfl := Option.some.inj h
      obtain ⟨hlen, hpre⟩ := ih hrest
      refine ⟨by rw [List.length_cons, hlen], ?_⟩
      by_cases hin : off < buffer.length
      · -- the first byte is the vector's
        rw [List.getElem?_eq_getElem hin, Option.some_or] at hbyte
        obtain rfl := Option.some.inj hbyte
        rw [window, List.drop_eq_getElem_cons hin, List.take_succ_cons, List.cons_prefix_cons]
        exact ⟨rfl, hpre⟩
      · rw [window, List.drop_of_length_le (Nat.le_of_not_lt hin), List.take_nil]
        exact List.nil_prefix

/-- Inside the vector the window is loaded, whatever lies behind it. -/
theorem loadBytes_inside (mem : Nat → Option Byte) {buffer : Bytes} {off n : Nat}
    (h : off + n ≤ buffer.length) : loadBytes mem buffer off n = some (window buffer off n) := by
  induction n generalizing off with
  | zero => simp [loadBytes, window]
  | succ n ih =>
      have hin : off < buffer.length := by omega
      rw [loadBytes, ih (by omega), List.getElem?_eq_getElem hin, window, window,
        List.drop_eq_getElem_cons hin, List.take_succ_cons]
      rfl

/-- A read that asks for nothing or ends inside the vector copies the window. -/
theorem readNode_inside {fs : Fuse7zLib7zip} {a : Addr} {s : Fuse7zOutStream}
    (hs : fs.buffer? a = some s) {size : UInt64} {offset : Int64} (mem : Nat → Option Byte)
    (hin : size = 0 ∨ offset.toUInt64.toNat + size.toNat ≤ s.buffer.length) :
    fs.readNode a size offset mem =
      .ok
        { ret := size.toUInt32.toInt32
          data := window s.buffer offset.toUInt64.toNat size.toNat
          loads := List.range' offset.toUInt64.toNat size.toNat } := by
  rw [readNode_eq hs]
  rcases hin with rfl | hin
  · rw [UInt64.toNat_zero, loadBytes, window, List.take_zero]
  · rw [loadBytes_inside mem hin]

/-- A read of a stream copies so many bytes, beginning with the window, or
    meets the end of memory. -/
theorem readNode_cases {fs : Fuse7zLib7zip} {a : Addr} {s : Fuse7zOutStream}
    (hs : fs.buffer? a = some s) (size : UInt64) (offset : Int64) (mem : Nat → Option Byte) :
    fs.readNode a size offset mem = .error .segfault ∨
      ∃ data, data.length = size.toNat ∧
        window s.buffer offset.toUInt64.toNat size.toNat <+: data ∧
        fs.readNode a size offset mem =
          .ok
            { ret := size.toUInt32.toInt32
              data
              loads := List.range' offset.toUInt64.toNat size.toNat } := by
  rw [readNode_eq hs]
  cases hload : loadBytes mem s.buffer offset.toUInt64.toNat size.toNat with
  | none => exact Or.inl rfl
  | some data =>
      obtain ⟨hlen, hpre⟩ := loadBytes_eq_some hload
      exact Or.inr ⟨data, hlen, hpre, rfl⟩

end Fuse7zLib7zip
end Fuse7z
