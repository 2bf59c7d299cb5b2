/-
  Fuse7z.Teardown

  What is deleted, and when: `Node::~Node`, `Fuse7z::~Fuse7z`, and the streams
  over a whole mount.

  The destructor of a node deletes its stream, then its children one after
  another; unmounting deletes the root.  In a tree that frees every node
  exactly once (`deleteTree_spec`).  A stream is deleted by the `release` of
  its node or by the destructor, and it is lost when an `open` puts another
  one in its place: the accounts of a mount balance (`unmount_accounts`), so
  no stream is deleted twice, and none is left behind just when no node was
  opened while it had one.
-/
import Fuse7z.Extraction
import Fuse7z.Readdir
import Fuse7z.Shape
import Fuse7z.Lib.Ledger
import Fuse7z.Lib.Traverse

namespace Fuse7z

open Lib Fuse7z.Tree Fuse7zLib7zip

/-! ## Destructors -/

/-- One `delete`. -/
inductive Deletion where
  | node (a : Addr)
  | stream (addr : Nat)
deriving DecidableEq, Repr

/-- The address of the node, when it is one. -/
def Deletion.node? : Deletion → Option Addr
  | .node a => some a
  | .stream _ => none

def Deletion.stream? : Deletion → Option Nat
  | .node _ => none
  | .stream addr => some addr

/-- `Node::~Node`: `delete buffer`, the children in the order of the map, and
    then the memory of the node goes. -/
def Node.destruct (this : Addr) (n : Node) : Visit Addr Deletion :=
  { before := n.buffer.toList.map fun stream => .stream stream.addr
    kids := n.childs.entries.map Prod.snd
    after := [.node this] }

def destructor (t : Tree) (this : Addr) : Option (Visit Addr Deletion) :=
  (t.node? this).map (Node.destruct this)

/-- `delete root_node`, in at most as many calls inside each other as there are
    nodes.  `none` is no answer of the source: the calls were too few, or a
    pointer led to no node. -/
def deleteTree (fs : Fuse7zLib7zip) : Option (List Deletion) :=
  traverse (destructor fs.tree) fs.tree.nodes.size fs.rootNode

def nodesOf (ds : List Deletion) : List Addr := ds.filterMap Deletion.node?

def streamsOf (ds : List Deletion) : List Nat := ds.filterMap Deletion.stream?

/-- The stream `node->buffer` points to. -/
def streamAt (fs : Fuse7zLib7zip) (a : Addr) : Option Nat :=
  (fs.buffer? a).map Fuse7zOutStream.addr

theorem destructor_of_node {t : Tree} {root : Addr} (h : t.WF root) {a : Addr} {n : Node}
    (hn : t.node? a = some n) : ∃ v, destructor t a = some v ∧ v.Of t.child a := by
  refine ⟨n.destruct a, by rw [destructor, hn, Option.map_some], children_nodup h hn, ?_⟩
  · intro c
    simp only [Node.destruct, List.mem_map, child_eq_some]
    refine ⟨?_, ?_⟩
    · rintro ⟨⟨k, c'⟩, he, rfl⟩
      exact ⟨k, n, hn, (OrdMap.find?_eq_some_iff _).mpr he⟩
    · rintro ⟨k, m, hm, hfind⟩
      obtain rfl : n = m := Option.some.inj (hn.symm.trans hm)
      exact ⟨(k, c), (OrdMap.find?_eq_some_iff _).mp hfind, rfl⟩

/-- The `delete`s of one node. -/
def ownDeletes (fs : Fuse7zLib7zip) (a : Addr) : List Deletion :=
  (streamAt fs a).toList.map .stream ++ [.node a]

theorem ownEvents_destructor {fs : Fuse7zLib7zip} {a : Addr} {n : Node}
    (hn : fs.tree.node? a = some n) : ownEvents (destructor fs.tree) a = ownDeletes fs a := by
  have hat : streamAt fs a = n.buffer.map Fuse7zOutStream.addr := by
    rw [streamAt, buffer?, Fuse7zLib7zip.node?, hn, Option.bind_some]
  rw [ownDeletes, hat]
  cases hbuf : n.buffer with
  | none => simp [ownEvents, destructor, Node.destruct, hn, hbuf]
  | some stream => simp [ownEvents, destructor, Node.destruct, hn, hbuf]

theorem nodesOf_flatMap (fs : Fuse7zLib7zip) (nodes : List Addr) :
    nodesOf (nodes.flatMap (ownDeletes fs)) = nodes := by
  have hone : ∀ b, (ownDeletes fs b).filterMap Deletion.node? = [b] := by
    intro b
    rw [ownDeletes]
    cases streamAt fs b with
    | none => rfl
    | some s => rfl
  rw [nodesOf, List.filterMap_flatMap]
  simp only [hone, List.flatMap_singleton']

theorem streamsOf_flatMap (fs : Fuse7zLib7zip) (nodes : List Addr) :
    streamsOf (nodes.flatMap (ownDeletes fs)) = nodes.filterMap (streamAt fs) := by
  have hone : ∀ b, (ownDeletes fs b).filterMap Deletion.stream? = (streamAt fs b).toList := by
    intro b
    rw [ownDeletes]
    cases streamAt fs b with
    | none => rfl
    | some s => rfl
  rw [streamsOf, List.filterMap_flatMap, List.filterMap_eq_flatMap_toList]
  simp only [hone]

/-- **Unmounting frees every node once**, and with it the stream it has. -/
theorem deleteTree_spec {fs : Fuse7zLib7zip} (h : fs.tree.WF fs.rootNode) :
    ∃ ds, deleteTree fs = some ds ∧ (nodesOf ds).Perm (List.range fs.tree.nodes.size) ∧
      (streamsOf ds).Perm (held (streamAt fs) fs.tree.nodes.size) := by
  have hvisit : ∀ ks b, walk fs.tree.child fs.rootNode ks = some b →
      ∃ v, destructor fs.tree b = some v ∧ v.Of fs.tree.child b := by
    intro ks b hb
    obtain ⟨n, hn⟩ := h.node_of_walk hb
    exact destructor_of_node h hn
  have hlevels : ∀ ks b, walk fs.tree.child fs.rootNode ks = some b →
      ks.length < ([] : List Bytes).length + fs.tree.nodes.size := by
    intro ks b hb
    have hlt := h.length_lt_size hb
    rw [List.length_nil, Nat.zero_add]
    exact hlt
  obtain ⟨ds, nodes, hds, htrav⟩ := h.arborescence.exists_traverse hvisit (walk_nil _) hlevels
  have hmem : ∀ b, b ∈ nodes ↔ b ∈ List.range fs.tree.nodes.size := by
    intro b
    rw [htrav.mem_nodes, List.mem_range]
    refine ⟨?_, ?_⟩
    · rintro ⟨ks, hks⟩
      obtain ⟨n, hn⟩ := h.node_of_walk hks
      exact Heap.lt_size_of_get? hn
    · intro hlt
      obtain ⟨n, hn⟩ := Option.isSome_iff_exists.mp (Heap.get?_isSome_iff.mpr hlt)
      exact h.reach hn
  have hnodes : nodes.Perm (List.range fs.tree.nodes.size) :=
    (List.perm_ext_iff_of_nodup htrav.nodup List.nodup_range).mpr hmem
  have hown : ∀ b ∈ nodes, ownEvents (destructor fs.tree) b = ownDeletes fs b := by
    intro b hb
    obtain ⟨ks, hks⟩ := htrav.mem_nodes.mp hb
    obtain ⟨n, hn⟩ := h.node_of_walk hks
    exact ownEvents_destructor hn
  have hperm : ds.Perm (nodes.flatMap (ownDeletes fs)) := by
    rw [← List.flatMap_congr hown]
    exact htrav.perm
  refine ⟨ds, hds, ?_, ?_⟩
  · have hall := hperm.filterMap Deletion.node?
    rw [← nodesOf, ← nodesOf, nodesOf_flatMap] at hall
    exact hall.trans hnodes
  · have hall := hperm.filterMap Deletion.stream?
    rw [← streamsOf, ← streamsOf, streamsOf_flatMap] at hall
    exact hall.trans (hnodes.filterMap _)

/-! ## The accounts of a mount -/

/-- The mounted archive, with the streams deleted so far and those that no
    pointer leads to any more. -/
structure Account where
  fs : Fuse7zLib7zip
  deleted : List Nat
  lost : List Nat

/-- The node at which `fuse7z_open` hangs a new stream. -/
def hungAt (fs : Fuse7zLib7zip) (path : Bytes) (env : OpenEnv) : Option Addr :=
  match lookup fs path with
  | .ok (some a) =>
      match fs.node? a with
      | some n => if n.isDir = false ∧ env.newOk = true then some a else none
      | none => none
  | _ => none

/-- `delete stream` of `Fuse7z_lib7zip::close`; deleting NULL does nothing. -/
def deletedBy (fs : Fuse7zLib7zip) : Callback → List Nat
  | .release fh => (streamAt fs fh).toList
  | _ => []

/-- The stream `Fuse7z_lib7zip::open` puts another one in the place of. -/
def displacedBy (fs : Fuse7zLib7zip) : Callback → List Nat
  | .open path env => ((hungAt fs path env).bind (streamAt fs)).toList
  | _ => []

def accountStep (s : Account) (e : Callback) : Reply × Account :=
  ((step s.fs e).1,
   { fs := (step s.fs e).2
     deleted := s.deleted ++ deletedBy s.fs e
     lost := s.lost ++ displacedBy s.fs e })

/-- Nothing is deleted or lost yet. -/
def Account.start (fs : Fuse7zLib7zip) : Account := { fs, deleted := [], lost := [] }

/-- Every stream made is at one node, or was deleted once, or is lost. -/
def Account.Balanced (s : Account) : Prop :=
  Lib.Balanced (streamAt s.fs) s.fs.tree.nodes.size s.fs.nextStream s.deleted s.lost

/-- What `fuse7z_open` does to the state, by the node it gets to. -/
theorem fuse7zOpen_state (fs : Fuse7zLib7zip) (path : Bytes) (env : OpenEnv) :
    (∃ a n, hungAt fs path env = some a ∧ fs.node? a = some n ∧
        (fuse7zOpen fs path env).2 = fs.hang a (fs.openStream n env)) ∨
      (hungAt fs path env = none ∧ (fuse7zOpen fs path env).2 = fs) := by
  cases hfound : lookup fs path with
  | error f => exact Or.inr (by simp [hungAt, fuse7zOpen, hfound])
  | ok found =>
      cases found with
      | none => exact Or.inr (by simp [hungAt, fuse7zOpen, hfound])
      | some a =>
          cases hn : fs.node? a with
          | none => exact Or.inr (by simp [hungAt, fuse7zOpen, hfound, hn])
          | some n =>
              cases hdir : n.isDir with
              | true => exact Or.inr (by simp [hungAt, fuse7zOpen, hfound, hn, hdir])
              | false =>
                  rw [fuse7zOpen_eq hfound hn hdir, openNode_eq]
                  cases hnew : env.newOk with
                  | true => exact Or.inl ⟨a, n, by simp [hungAt, hfound, hn, hdir, hnew], hn, rfl⟩
                  | false => exact Or.inr ⟨by simp [hungAt, hfound, hn, hnew], rfl⟩

theorem streamAt_hang_self {fs : Fuse7zLib7zip} {a : Addr} {n m : Node} (hn : fs.node? a = some n)
    (env : OpenEnv) : streamAt (fs.hang a (fs.openStream m env)) a = some fs.nextStream := by
  rw [streamAt, buffer?_hang_self hn, Option.map_some, openStream_addr]

/-- The address of a node is below the number of nodes. -/
theorem lt_size_of_node {fs : Fuse7zLib7zip} {a : Addr} {n : Node} (hn : fs.node? a = some n) :
    a < fs.tree.nodes.size := Heap.lt_size_of_get? hn

theorem size_setBuffer (fs : Fuse7zLib7zip) (a : Addr) (b : Option Fuse7zOutStream) :
    (fs.setBuffer a b).tree.nodes.size = fs.tree.nodes.size := Heap.size_modify _ _ _

theorem size_hang (fs : Fuse7zLib7zip) (a : Addr) (stream : Fuse7zOutStream) :
    (fs.hang a stream).tree.nodes.size = fs.tree.nodes.size := size_setBuffer fs a (some stream)

/-- A callback that leaves all streams alone. -/
theorem Account.Balanced.of_same {s : Account} (h : s.Balanced) {e : Callback}
    (hsize : (step s.fs e).2.tree.nodes.size = s.fs.tree.nodes.size)
    (hnext : (step s.fs e).2.nextStream = s.fs.nextStream)
    (hbuf : ∀ a, (step s.fs e).2.buffer? a = s.fs.buffer? a) (hdel : deletedBy s.fs e = [])
    (hlost : displacedBy s.fs e = []) : (accountStep s e).2.Balanced := by
  rw [Account.Balanced, accountStep, hdel, hlost, List.append_nil, List.append_nil]
  simp only [hsize, hnext]
  apply Lib.Balanced.keep h
  intro b _
  rw [streamAt, streamAt, hbuf]

/-- One that changes nothing. -/
theorem Account.Balanced.of_unchanged {s : Account} (h : s.Balanced) {e : Callback}
    (hstate : (step s.fs e).2 = s.fs) (hdel : deletedBy s.fs e = [])
    (hlost : displacedBy s.fs e = []) : (accountStep s e).2.Balanced := by
  refine h.of_same ?_ ?_ ?_ hdel hlost
  · rw [hstate]
  · rw [hstate]
  · intro a
    rw [hstate]

theorem Account.Balanced.open {s : Account} (h : s.Balanced) (path : Bytes) (env : OpenEnv) :
    (accountStep s (.open path env)).2.Balanced := by
  rcases fuse7zOpen_state s.fs path env with ⟨a, n, hat, hn, hstate⟩ | ⟨hat, hstate⟩
  · -- one stream more, at `a`, over what was there
    have hother : ∀ b < s.fs.tree.nodes.size, b ≠ a →
        streamAt (s.fs.hang a (s.fs.openStream n env)) b = streamAt s.fs b := by
      intro b _ hb
      rw [streamAt, streamAt, buffer?_hang_ne s.fs _ (Ne.symm hb)]
    have hmake := Lib.Balanced.make h (lt_size_of_node hn) (streamAt_hang_self (m := n) hn env) hother
    simp only [Account.Balanced, accountStep, Fuse7z.step, hstate, deletedBy, displacedBy, hat,
      Option.bind_some]
    rw [List.append_nil, size_hang]
    exact hmake
  · have hsame : (Fuse7z.step s.fs (.open path env)).2 = s.fs := hstate
    apply h.of_unchanged hsame rfl
    simp only [displacedBy, hat, Option.bind_none, Option.toList_none]

theorem Account.Balanced.release {s : Account} (h : s.Balanced) (fh : Addr) :
    (accountStep s (.release fh)).2.Balanced := by
  cases hn : s.fs.node? fh with
  | none =>
      apply h.of_unchanged
      · simp only [Fuse7z.step, fuse7zRelease, hn]
      · simp only [deletedBy, streamAt, buffer?, hn, Option.bind_none, Option.map_none,
          Option.toList_none]
      · rfl
  | some n =>
      -- the stream at `fh`, if there is one, is deleted
      have hnone : streamAt (s.fs.setBuffer fh none) fh = none := by
        rw [streamAt, buffer?_setBuffer_self hn, Option.map_none]
      have hother : ∀ b < s.fs.tree.nodes.size, b ≠ fh →
          streamAt (s.fs.setBuffer fh none) b = streamAt s.fs b := by
        intro b _ hb
        rw [streamAt, streamAt, buffer?_setBuffer_ne s.fs _ (Ne.symm hb)]
      have hgive := Lib.Balanced.give h (lt_size_of_node hn) hnone hother
      simp only [Account.Balanced, accountStep, Fuse7z.step, fuse7zRelease, hn, deletedBy,
        displacedBy, closeNode]
      rw [List.append_nil, size_setBuffer]
      exact hgive

theorem Account.Balanced.utimens {s : Account} (h : s.Balanced) (path : Bytes)
    (tv0 tv1 : Timespec) : (accountStep s (.utimens path tv0 tv1)).2.Balanced := by
  cases hfound : lookup s.fs path with
  | error f =>
      apply h.of_unchanged _ rfl rfl
      simp only [Fuse7z.step, fuse7zUtimens, hfound]
  | ok found =>
      cases found with
      | none =>
          apply h.of_unchanged _ rfl rfl
          simp only [Fuse7z.step, fuse7zUtimens, hfound]
      | some a =>
          have hstate : (Fuse7z.step s.fs (.utimens path tv0 tv1)).2
              = { s.fs with tree := s.fs.tree.modify a (setMtime tv1) } := by
            simp only [Fuse7z.step, fuse7zUtimens, hfound]
          refine h.of_same ?_ ?_ ?_ rfl rfl
          · rw [hstate]
            exact Heap.size_modify _ _ _
          · rw [hstate]
          · intro b
            rw [hstate]
            exact buffer?_setMtime s.fs a b tv1

/-- Every callback keeps the accounts balanced. -/
theorem Account.Balanced.step {s : Account} (h : s.Balanced) (e : Callback) :
    (accountStep s e).2.Balanced := by
  cases e with
  | «open» path env => exact h.open path env
  | release fh => exact h.release fh
  | utimens path tv0 tv1 => exact h.utimens path tv0 tv1
  | _ => exact h.of_unchanged rfl rfl rfl

/-! ## A whole mount -/

/-- The accounts follow the file system. -/
theorem run_accountStep_fs (s : Account) (es : List Callback) :
    (run accountStep s es).fs = run step s.fs es := by
  induction es generalizing s with
  | nil => rfl
  | cons e es ih => exact ih (accountStep s e).2

/-- The streams a run deletes, and those it loses. -/
def deletedIn (fs : Fuse7zLib7zip) (es : List Callback) : List Nat :=
  (run accountStep (Account.start fs) es).deleted

def lostIn (fs : Fuse7zLib7zip) (es : List Callback) : List Nat :=
  (run accountStep (Account.start fs) es).lost

/-- No new stream is put in the place of another one. -/
def NoneDisplaced (fs : Fuse7zLib7zip) (e : Callback) : Prop :=
  ∀ path env a, e = .open path env → hungAt fs path env = some a → fs.buffer? a = none

theorem displacedBy_eq_nil_iff {fs : Fuse7zLib7zip} {e : Callback} :
    displacedBy fs e = [] ↔ NoneDisplaced fs e := by
  cases e with
  | «open» path env =>
      rw [displacedBy, Option.toList_eq_nil_iff, Option.bind_eq_none_iff]
      refine ⟨?_, ?_⟩
      · rintro h path' env' a heq hat
        obtain ⟨rfl, rfl⟩ := Callback.open.inj heq
        exact Option.map_eq_none_iff.mp (h a hat)
      · intro h a hat
        exact Option.map_eq_none_iff.mpr (h path env a rfl hat)
  | _ => exact iff_of_true rfl (fun path env a h => absurd h (by simp))

theorem run_lost_eq_nil_iff (s : Account) (es : List Callback) :
    (run accountStep s es).lost = [] ↔ s.lost = [] ∧ Along step NoneDisplaced s.fs es := by
  induction es generalizing s with
  | nil => simp
  | cons e es ih =>
      rw [run_cons, ih, along_cons, ← displacedBy_eq_nil_iff, ← and_assoc]
      exact and_congr List.append_eq_nil_iff Iff.rfl

theorem lostIn_eq_nil_iff (fs : Fuse7zLib7zip) (es : List Callback) :
    lostIn fs es = [] ↔ Along step NoneDisplaced fs es :=
  (run_lost_eq_nil_iff (Account.start fs) es).trans (and_iff_right rfl)

/-- The accounts balance after any run. -/
theorem run_balanced (u : Uninit) (archive : Archive) (euid egid : UInt32) (es : List Callback) :
    Lib.Balanced (streamAt (run step (mount u archive euid egid) es))
      (run step (mount u archive euid egid) es).tree.nodes.size
      (run step (mount u archive euid egid) es).nextStream
      (deletedIn (mount u archive euid egid) es) (lostIn (mount u archive euid egid) es) := by
  have hstart : (Account.start (mount u archive euid egid)).Balanced := by
    apply Lib.Balanced.start
    intro b _
    exact Option.map_eq_none_iff.mpr (mount_buffer? u archive euid egid b)
  have hbal : (run accountStep (Account.start (mount u archive euid egid)) es).Balanced :=
    run_invariant' (I := Account.Balanced) (fun s e h => h.step e) es hstart
  rw [Account.Balanced, run_accountStep_fs] at hbal
  exact hbal

/-- **The accounts of a mount.**  Whatever callbacks came before, unmounting
    frees every node once.  The streams it deletes, those that were deleted
    before and those that are lost are all the streams ever made, each once:
    none is deleted twice, and all are deleted just when no `open` displaced
    one. -/
theorem unmount_accounts (u : Uninit) (archive : Archive) (euid egid : UInt32)
    (es : List Callback) :
    ∃ ds, deleteTree (run step (mount u archive euid egid) es) = some ds ∧
      (nodesOf ds).Perm (List.range (run step (mount u archive euid egid) es).tree.nodes.size) ∧
      (streamsOf ds ++ deletedIn (mount u archive euid egid) es ++
          lostIn (mount u archive euid egid) es).Perm
        (List.range (run step (mount u archive euid egid) es).nextStream) ∧
      (streamsOf ds ++ deletedIn (mount u archive euid egid) es).Nodup ∧
      ((streamsOf ds ++ deletedIn (mount u archive euid egid) es).Perm
          (List.range (run step (mount u archive euid egid) es).nextStream) ↔
        Along step NoneDisplaced (mount u archive euid egid) es) := by
  have hbal := run_balanced u archive euid egid es
  have hroot : (run step (mount u archive euid egid) es).rootNode = rootAddr :=
    (run_frame (mount u archive euid egid) es).rootNode
  have hwf : (run step (mount u archive euid egid) es).tree.WF
      (run step (mount u archive euid egid) es).rootNode := hroot ▸ run_wf u archive euid egid es
  obtain ⟨ds, hds, hnodes, hstreams⟩ := deleteTree_spec hwf
  -- what the destructors delete is what the nodes held
  have hall : (streamsOf ds ++ deletedIn (mount u archive euid egid) es).Perm
      (held (streamAt (run step (mount u archive euid egid) es))
        (run step (mount u archive euid egid) es).tree.nodes.size ++
          deletedIn (mount u archive euid egid) es) := hstreams.append_right _
  refine ⟨ds, hds, hnodes, (hall.append_right _).trans hbal, hall.nodup_iff.mpr hbal.nodup, ?_⟩
  rw [← lostIn_eq_nil_iff, ← hbal.lost_eq_nil_iff]
  exact ⟨hall.symm.trans, hall.trans⟩

end Fuse7z
